import ChamberSpo.JobInit
import ChamberSpo.WellRng

/-!
# The lock and the bios in flight

A job on its own, as `iogen_job_runner` drives it: bios are generated, submitted, completed in any
order, and all dropped when the controller is reset.

* `JobSystem.Step` — what the runner does, in terms of the functions of `iogen.c`.
* `JobSystem.Clean` — the steps that neither clear what they did not lock nor forget what they
  did.
* `JobSystem.Inv` — the bits of the lock are owned by the bios in flight (`Owns`), and all of them
  are (`Covers`).
-/

namespace ChamberSpo

open Bitmap

/-- The LBAs a bio of a job locks when it is generated. -/
def Bio.locked (bio : Bio) (params : JobParams) : Set ℕ :=
  if takesLock params bio then bio.range else ∅

/-- The LBAs that bio number `id` of a job has locked. -/
def IogenJob.locked (job : IogenJob) (id : ℕ) : Set ℕ := (job.bioPool id).locked job.params

/-- Below `2 ^ 38` the bits a bio locked are its LBAs. -/
theorem IogenJob.own_eq_locked (job : IogenJob) (id : ℕ) (h : ∀ x ∈ job.locked id, x < 2 ^ 38) :
    LiveBio.own ⟨job.params, job.bioPool id, .issued⟩ = job.locked id := by
  change (if takesLock job.params (job.bioPool id) then
    lockBits (job.bioPool id).slba (job.bioPool id).nlbs else ∅) = _
  rw [locked, Bio.locked] at *
  split
  · rename_i htake
    rw [if_pos htake] at h
    generalize job.bioPool id = bio at h
    rcases Nat.eq_zero_or_pos bio.nlbs with hz | hpos
    · rw [hz, lockBits_zero]
      ext x
      rw [Bio.mem_range, hz]
      exact ⟨fun hx => absurd hx (Set.notMem_empty x), fun hx => absurd hx.2 (by omega)⟩
    · have hlast := h (bio.slba + (bio.nlbs - 1)) ⟨Nat.le_add_right _ _, by omega⟩
      rw [lockBits_eq_Ico (by omega)]
      rfl
  · rfl

/-- What the runner of a job does next. -/
inductive JobLabel where
  /-- `generate_bio` returns `NULL` -/
  | retry (draws : GenDraws)
  /-- a bio is generated, and the engine takes it -/
  | submit (draws : GenDraws) (bio : Bio)
  /-- a bio is generated, and the engine refuses it -/
  | reject (draws : GenDraws) (bio : Bio)
  /-- a flush that is completed on the spot -/
  | flush (draws : GenDraws)
  /-- the device has answered a bio, and it is completed -/
  | complete (id : ℕ) (bio : Bio)
  /-- the controller has been reset -/
  | reinit

/-- A verifier and the one job that uses it. -/
structure JobSystem where
  iover : Iover
  job : IogenJob

namespace JobSystem

/-- The steps of the runner. -/
inductive Step (spor3 : Bool) (s : JobSystem) : JobLabel → JobSystem → Prop
  | retry (draws : GenDraws) (iover : Iover) (job : IogenJob) :
    s.job.numInflight < s.job.params.iodepth →
    generateBio s.iover s.job draws = (none, iover, job) →
    Step spor3 s (.retry draws) ⟨iover, job⟩
  | submit (draws : GenDraws) (id : ℕ) (iover iover' : Iover) (job job' : IogenJob) :
    s.job.numInflight < s.job.params.iodepth →
    generateBio s.iover s.job draws = (some id, iover, job) →
    enqueueBio spor3 iover job id = some (iover', job') →
    Step spor3 s (.submit draws (job.bioPool id)) ⟨iover', job'⟩
  | reject (draws : GenDraws) (id : ℕ) (iover : Iover) (job : IogenJob) :
    s.job.numInflight < s.job.params.iodepth →
    generateBio s.iover s.job draws = (some id, iover, job) →
    Step spor3 s (.reject draws (job.bioPool id)) ⟨iover, job⟩
  | flush (draws : GenDraws) (id : ℕ) (iover iover' : Iover) (job job' : IogenJob) :
    s.job.numInflight < s.job.params.iodepth →
    generateBio s.iover s.job draws = (some id, iover, job) →
    (job.bioPool id).opcode = .flush →
    bioEnd iover (startBio job id) id = some (iover', job') →
    Step spor3 s (.flush draws) ⟨iover', job'⟩
  | complete (id : ℕ) (bio : Bio) (iover : Iover) (job : IogenJob) :
    id ∈ s.job.bioInflight → (s.job.bioPool id).Executes bio →
    bioEnd s.iover (answerBio s.job id bio) id = some (iover, job) →
    Step spor3 s (.complete id bio) ⟨iover, job⟩
  | reinit : Step spor3 s .reinit ⟨s.iover, iogenJobReinit s.job⟩

/-- A job that has been set up. -/
def init (iover : Iover) (job : IogenJob) : JobSystem where
  iover := { iover with lbaLock := fun _ => 0 }
  job := { job with
    bioFree := List.range job.params.iodepth
    bioInflight := []
    numInflight := 0 }

/-- The lock bits of a bio in flight. -/
def own (s : JobSystem) (id : ℕ) : Set ℕ :=
  if id ∈ s.job.bioInflight then LiveBio.own ⟨s.job.params, s.job.bioPool id, .issued⟩ else ∅

/-- The steps that keep the lock and the bios in flight together:

* a bio that is submitted stays below LBA `2 ^ 38`, where the LBAs start to share bits;
* a bio that the engine refuses has locked nothing;
* the completion of an identify, which locked nothing, clears nothing of another bio;
* the controller is not reset while a bio in flight has locked anything. -/
def Clean (s : JobSystem) : JobLabel → Prop
  | .retry _ | .flush _ => True
  | .submit _ bio => ∀ x ∈ bio.locked s.job.params, x < 2 ^ 38
  | .reject _ bio => bio.locked s.job.params = ∅
  | .complete id _ => (s.job.bioPool id).opcode = .identify → ∀ j ∈ s.job.bioInflight, j ≠ id →
    Disjoint (s.own j) (lockBits (s.job.bioPool id).slba (s.job.bioPool id).nlbs)
  | .reinit => ∀ id ∈ s.job.bioInflight, s.job.locked id = ∅

/-- What holds of a job whose steps are clean. -/
structure Inv (s : JobSystem) : Prop where
  noOverlap : s.job.params.lbaOverlap = false
  owns : Owns (bits s.iover.lbaLock) s.own
  covers : Covers (bits s.iover.lbaLock) s.own
  /-- every bio is on one list, once -/
  nodup : (s.job.bioFree ++ s.job.bioInflight).Nodup
  nlbs_lt : ∀ id ∈ s.job.bioInflight, (s.job.bioPool id).nlbs < 2 ^ 32
  below : ∀ id ∈ s.job.bioInflight, ∀ x ∈ s.job.locked id, x < 2 ^ 38

variable {spor3 : Bool} {s s' : JobSystem} {id j : ℕ}

theorem own_of_mem (h : id ∈ s.job.bioInflight) :
    s.own id = LiveBio.own ⟨s.job.params, s.job.bioPool id, .issued⟩ := if_pos h

theorem own_of_notMem (h : id ∉ s.job.bioInflight) : s.own id = ∅ := if_neg h

/-- What holds of a job even when something it locked is lost: what is in flight is locked, and no
two bios share any of it. -/
structure Held (s : JobSystem) : Prop where
  noOverlap : s.job.params.lbaOverlap = false
  owns : Owns (bits s.iover.lbaLock) s.own
  nodup : (s.job.bioFree ++ s.job.bioInflight).Nodup
  nlbs_lt : ∀ id ∈ s.job.bioInflight, (s.job.bioPool id).nlbs < 2 ^ 32

theorem Inv.held (h : s.Inv) : s.Held := ⟨h.noOverlap, h.owns, h.nodup, h.nlbs_lt⟩

/-- Bio `id` moves, and the lock follows. -/
structure Shifts (s s' : JobSystem) (id : ℕ) : Prop where
  params : s'.job.params = s.job.params
  bits_eq : bits s.iover.lbaLock \ s.own id = bits s'.iover.lbaLock \ s'.own id
  sub : s'.own id ⊆ bits s'.iover.lbaLock
  other : ∀ j, j ≠ id → s'.own j = s.own j
  nodup : (s'.job.bioFree ++ s'.job.bioInflight).Nodup
  nlbs_lt : ∀ j ∈ s'.job.bioInflight, (s'.job.bioPool j).nlbs < 2 ^ 32

theorem Held.shift (h : s.Held) (hs : s.Shifts s' id) : s'.Held where
  noOverlap := hs.params ▸ h.noOverlap
  owns := h.owns.exchange id hs.bits_eq hs.sub fun j hj => (hs.other j hj).le
  nodup := hs.nodup
  nlbs_lt := hs.nlbs_lt

theorem Inv.shift (h : s.Inv) (hs : s.Shifts s' id)
    (hbelow : ∀ j ∈ s'.job.bioInflight, ∀ x ∈ s'.job.locked j, x < 2 ^ 38) : s'.Inv where
  noOverlap := (h.held.shift hs).noOverlap
  owns := (h.held.shift hs).owns
  covers := h.covers.exchange id hs.bits_eq fun j hj => (hs.other j hj).ge
  nodup := hs.nodup
  nlbs_lt := hs.nlbs_lt
  below := hbelow

/-- Nothing of what is in flight moves, nor does the lock. -/
theorem Held.still (h : s.Held) (hparams : s'.job.params = s.job.params)
    (hB : bits s'.iover.lbaLock = bits s.iover.lbaLock) (hown : ∀ j, s'.own j = s.own j)
    (hnodup : (s'.job.bioFree ++ s'.job.bioInflight).Nodup)
    (hn : ∀ j ∈ s'.job.bioInflight, (s'.job.bioPool j).nlbs < 2 ^ 32) : s.Shifts s' 0 where
  params := hparams
  bits_eq := by rw [hB, hown]
  sub := by
    rw [hB, hown]
    exact h.owns.sub 0
  other j _ := hown j
  nodup := hnodup
  nlbs_lt := hn

/-- Every bio keeps what it locked if its place in the pool stays as it is. -/
theorem own_congr (hparams : s'.job.params = s.job.params)
    (hinflight : s'.job.bioInflight = s.job.bioInflight)
    (hpool : ∀ j ∈ s.job.bioInflight, s'.job.bioPool j = s.job.bioPool j) (j : ℕ) :
    s'.own j = s.own j := by
  by_cases hj : j ∈ s.job.bioInflight
  · simp only [own, hinflight, hparams, hpool j hj]
  · rw [own_of_notMem hj, own_of_notMem (hinflight ▸ hj)]

/-- **A bio is generated and put in flight.** -/
theorem Held.start (h : s.Held) {draws : GenDraws} {iover : Iover} {job : IogenJob}
    (hgen : generateBio s.iover s.job draws = (some id, iover, job)) :
    s.Shifts ⟨iover, startBio job id⟩ id := by
  obtain ⟨rest, hfree, hrest, hpool, hparams, hinflight, -, -, hgenerates, -⟩ :=
    generateBio_some hgen
  obtain ⟨hn, -, -, hbits, hsub⟩ := hgenerates.spec
  have hnodup := h.nodup
  rw [hfree] at hnodup
  have hid : id ∉ s.job.bioInflight := fun hmem =>
    (List.nodup_cons.mp hnodup).1 (List.mem_append_right _ hmem)
  have hself : (⟨iover, startBio job id⟩ : JobSystem).own id
      = LiveBio.own ⟨s.job.params, job.bioPool id, .issued⟩ := by
    rw [← hparams]
    exact own_of_mem List.mem_cons_self
  refine ⟨hparams, ?_, hself ▸ hsub, ?_, ?_, ?_⟩
  · rw [hself, own_of_notMem hid, Set.sdiff_empty]
    exact hbits
  · intro j hj
    simp only [own, startBio, hinflight, hparams, List.mem_cons, hj, false_or, hpool j hj]
  · simp only [startBio, hrest, hinflight]
    exact (List.perm_middle.nodup_iff).mpr hnodup
  · intro j hj
    rcases List.mem_cons.mp hj with rfl | hj
    · exact hn
    · rw [hinflight] at hj
      have hji : j ≠ id := fun hji => hid (hji ▸ hj)
      simp only [startBio, hpool j hji]
      exact h.nlbs_lt j hj

theorem Inv.start (h : s.Inv) {draws : GenDraws} {iover : Iover} {job : IogenJob}
    (hgen : generateBio s.iover s.job draws = (some id, iover, job))
    (hbelow : ∀ x ∈ job.locked id, x < 2 ^ 38) : (⟨iover, startBio job id⟩ : JobSystem).Inv := by
  obtain ⟨-, -, -, hpool, hparams, hinflight, -⟩ := generateBio_some hgen
  refine h.shift (h.held.start hgen) ?_
  intro j hj
  by_cases hji : j = id
  · subst hji
    exact hbelow
  · have hj := (List.mem_cons.mp hj).resolve_left hji
    rw [hinflight] at hj
    simp only [startBio, IogenJob.locked, Bio.locked, hpool j hji, hparams]
    exact h.below j hj

theorem answerBio_self (job : IogenJob) (id : ℕ) (bio : Bio) :
    (answerBio job id bio).bioPool id = bio := Function.update_self ..

/-- The device's answer does not change what a bio locked. -/
theorem own_answer {bio : Bio} (hex : (s.job.bioPool id).Executes bio) (j : ℕ) :
    (⟨s.iover, answerBio s.job id bio⟩ : JobSystem).own j = s.own j := by
  by_cases hj : j = id
  · subst hj
    simp only [own, answerBio, Function.update_self]
    exact if_congr Iff.rfl (hex.own s.job.params 0) rfl
  · simp only [own, answerBio, Function.update_of_ne hj]

theorem Held.answer (h : s.Held) {bio : Bio} (hex : (s.job.bioPool id).Executes bio) :
    s.Shifts ⟨s.iover, answerBio s.job id bio⟩ 0 := by
  refine h.still rfl rfl (own_answer hex) h.nodup ?_
  intro j hj
  by_cases hji : j = id
  · subst hji
    simp only [answerBio, Function.update_self, hex.nlbs]
    exact h.nlbs_lt j hj
  · simp only [answerBio, Function.update_of_ne hji]
    exact h.nlbs_lt j hj

theorem Inv.answer (h : s.Inv) {bio : Bio} (hex : (s.job.bioPool id).Executes bio) :
    (⟨s.iover, answerBio s.job id bio⟩ : JobSystem).Inv := by
  refine h.shift (h.held.answer hex) ?_
  intro j hj
  have hbelow := h.below j hj
  by_cases hji : j = id
  · subst hji
    simp only [answerBio, IogenJob.locked, Bio.locked, Function.update_self, takesLock, hex.opcode,
      Bio.range, hex.slba, hex.nlbs] at hbelow ⊢
    exact hbelow
  · simp only [answerBio, IogenJob.locked, Bio.locked, Function.update_of_ne hji]
    exact hbelow

/-- Two bios in flight do not share an LBA if both take the lock. -/
theorem Held.disjoint (h : s.Held) (hi : id ∈ s.job.bioInflight) (hj : j ∈ s.job.bioInflight)
    (hij : id ≠ j) (hti : takesLock s.job.params (s.job.bioPool id))
    (htj : takesLock s.job.params (s.job.bioPool j)) :
    Disjoint (s.job.bioPool id).range (s.job.bioPool j).range := by
  have hbits : ∀ k ∈ s.job.bioInflight, takesLock s.job.params (s.job.bioPool k) →
      s.own k = lockBits (s.job.bioPool k).slba (s.job.bioPool k).nlbs := fun k hk htake =>
    (own_of_mem hk).trans (if_pos htake)
  rw [Set.disjoint_left]
  intro x hxi hxj
  refine Set.disjoint_left.mp (h.owns.disj id j hij) (?_ : x % 2 ^ 38 ∈ s.own id) ?_
  · rw [hbits id hi hti]
    exact mem_lockBits_of_mem hxi
  · rw [hbits j hj htj]
    exact mem_lockBits_of_mem hxj

/-- A bio in flight is completed, and clears nothing of the others. -/
theorem Held.ended (h : s.Held) (hid : id ∈ s.job.bioInflight)
    (hclean : (s.job.bioPool id).opcode = .identify → ∀ j ∈ s.job.bioInflight, j ≠ id →
      Disjoint (s.own j) (lockBits (s.job.bioPool id).slba (s.job.bioPool id).nlbs))
    {iover : Iover} {job : IogenJob} (hend : bioEnd s.iover s.job id = some (iover, job)) :
    (⟨iover, job⟩ : JobSystem).Held := by
  obtain ⟨hbits, hparams, hpool, hinflight, hfree⟩ :=
    bioEnd_spec h.noOverlap (h.nlbs_lt id hid) hend
  have hnodup := List.nodup_append'.mp h.nodup
  have hmem : ∀ j, j ∈ job.bioInflight ↔ j ≠ id ∧ j ∈ s.job.bioInflight := fun j => by
    rw [hinflight, hnodup.2.1.mem_erase_iff]
  have hown : ∀ j, (⟨iover, job⟩ : JobSystem).own j ⊆ s.own j := by
    intro j
    by_cases hj : j ∈ job.bioInflight
    · rw [own_of_mem hj, own_of_mem ((hmem j).mp hj).2]
      simp only [hparams, hpool]
      exact subset_rfl
    · rw [own_of_notMem hj]
      exact Set.empty_subset _
  refine ⟨hparams ▸ h.noOverlap, ?_, ?_, ?_⟩
  · simp only [hbits]
    split
    · rename_i hle
      -- what is cleared is what the bio held, or what an identify clears
      refine (h.owns.mono hown).shrink ?_
      intro j
      by_cases hj : j ∈ job.bioInflight
      · obtain ⟨hji, hj⟩ := (hmem j).mp hj
        apply Set.disjoint_of_subset_left (hown j)
        rcases Nat.lt_or_eq_of_le hle with hlt | heq
        · have htake : takesLock s.job.params (s.job.bioPool id) = true := by
            rw [takesLock, h.noOverlap, decide_eq_true hlt]
            rfl
          have hdisj := h.owns.disj j id hji
          rw [own_of_mem hid] at hdisj
          exact (congrArg _ (if_pos htake)).mp hdisj
        · refine hclean ?_ j hj hji
          cases hop : (s.job.bioPool id).opcode <;> rw [hop] at heq <;> first | rfl | cases heq
      · rw [own_of_notMem hj]
        exact Set.empty_disjoint _
    · exact h.owns.mono hown
  · have hperm : (s.job.bioFree ++ s.job.bioInflight).Perm
        (id :: s.job.bioFree ++ s.job.bioInflight.erase id) :=
      ((List.perm_cons_erase hid).append_left _).trans List.perm_middle
    simp only [hinflight, hfree]
    exact hperm.nodup_iff.mp h.nodup
  · intro j hj
    simp only [hpool]
    exact h.nlbs_lt j ((hmem j).mp hj).2

/-- **A bio in flight is completed.** What it locked is cleared, and nothing else. -/
theorem Inv.ended (h : s.Inv) (hid : id ∈ s.job.bioInflight)
    (hclean : (s.job.bioPool id).opcode = .identify → ∀ j ∈ s.job.bioInflight, j ≠ id →
      Disjoint (s.own j) (lockBits (s.job.bioPool id).slba (s.job.bioPool id).nlbs))
    {iover : Iover} {job : IogenJob} (hend : bioEnd s.iover s.job id = some (iover, job)) :
    (⟨iover, job⟩ : JobSystem).Inv := by
  have hheld := h.held.ended hid hclean hend
  obtain ⟨hbits, hparams, hpool, hinflight, -⟩ :=
    bioEnd_spec h.noOverlap (h.nlbs_lt id hid) hend
  refine ⟨hheld.noOverlap, hheld.owns, ?_, hheld.nodup, hheld.nlbs_lt, ?_⟩
  · intro x hx
    have hxs : x ∈ bits s.iover.lbaLock := by
      simp only [hbits] at hx
      split at hx
      · exact hx.1
      · exact hx
    obtain ⟨j, hxj⟩ := h.covers x hxs
    have hj : j ∈ s.job.bioInflight := by
      by_contra hne
      rw [own_of_notMem hne] at hxj
      exact hxj
    refine ⟨j, ?_⟩
    by_cases hji : j = id
    · -- what the bio itself had locked is cleared
      subst hji
      rw [own_of_mem hj] at hxj
      change x ∈ (if takesLock s.job.params (s.job.bioPool j) then _ else ∅ : Set ℕ) at hxj
      split at hxj
      · rename_i htake
        have hlt := of_decide_eq_true (Bool.and_eq_true_iff.mp htake).2
        simp only [hbits, if_pos hlt.le] at hx
        exact absurd hxj hx.2
      · exact absurd hxj (Set.notMem_empty x)
    · have hmem : j ∈ job.bioInflight := hinflight ▸ (List.mem_erase_of_ne hji).mpr hj
      rw [own_of_mem hmem]
      rw [own_of_mem hj] at hxj
      simp only [hparams, hpool]
      exact hxj
  · intro j hj
    have hj : j ∈ s.job.bioInflight := List.mem_of_mem_erase (hinflight ▸ hj)
    simp only [IogenJob.locked, Bio.locked, hpool, hparams]
    exact h.below j hj

/-- No bio is generated. -/
theorem Held.retried (h : s.Held) {draws : GenDraws} {iover : Iover} {job : IogenJob}
    (hgen : generateBio s.iover s.job draws = (none, iover, job)) :
    s.Shifts ⟨iover, job⟩ 0 ∧ ∀ j ∈ s.job.bioInflight, job.bioPool j = s.job.bioPool j := by
  obtain ⟨rfl, hparams, hfree, hinflight, -, -, hpool⟩ := generateBio_none hgen
  have hpool' : ∀ j ∈ s.job.bioInflight, job.bioPool j = s.job.bioPool j := fun j hj =>
    hpool j fun hj' => List.disjoint_of_nodup_append h.nodup hj' hj
  refine ⟨h.still hparams rfl (own_congr hparams hinflight hpool') ?_ ?_, hpool'⟩
  · simp only [hfree, hinflight]
    exact h.nodup
  · intro j hj
    have hj' : j ∈ s.job.bioInflight := hinflight ▸ hj
    simp only [hpool' j hj']
    exact h.nlbs_lt j hj'

theorem Inv.retried (h : s.Inv) {draws : GenDraws} {iover : Iover} {job : IogenJob}
    (hgen : generateBio s.iover s.job draws = (none, iover, job)) :
    (⟨iover, job⟩ : JobSystem).Inv := by
  obtain ⟨-, hparams, -, hinflight, -, -, -⟩ := generateBio_none hgen
  obtain ⟨hshifts, hpool⟩ := h.held.retried hgen
  refine h.shift hshifts ?_
  intro j hj
  have hj' : j ∈ s.job.bioInflight := hinflight ▸ hj
  simp only [IogenJob.locked, Bio.locked, hpool j hj', hparams]
  exact h.below j hj'

/-- A bio is generated, and lost together with what it locked. -/
theorem Held.rejected (h : s.Held) {draws : GenDraws} {iover : Iover} {job : IogenJob}
    (hgen : generateBio s.iover s.job draws = (some id, iover, job)) :
    (⟨iover, job⟩ : JobSystem).Held := by
  have hstart := h.shift (h.start hgen)
  refine ⟨hstart.noOverlap, hstart.owns.mono fun j => ?_, ?_, fun j hj =>
    hstart.nlbs_lt j (List.mem_cons_of_mem _ hj)⟩
  · by_cases hj : j ∈ job.bioInflight
    · rw [own_of_mem hj]
      exact (own_of_mem (s := ⟨iover, startBio job id⟩) (List.mem_cons_of_mem _ hj)).ge
    · rw [own_of_notMem hj]
      exact Set.empty_subset _
  · exact (List.nodup_cons.mp ((List.perm_middle.nodup_iff).mp hstart.nodup)).2

/-- The controller is reset, and what was locked stays so. -/
theorem Held.reinited (h : s.Held) : (⟨s.iover, iogenJobReinit s.job⟩ : JobSystem).Held where
  noOverlap := h.noOverlap
  owns := h.owns.mono fun _ => (own_of_notMem List.not_mem_nil).le.trans (Set.empty_subset _)
  nodup := by
    rw [iogenJobReinit, List.append_nil]
    exact List.nodup_range
  nlbs_lt _ hid := absurd hid List.not_mem_nil

/-- A bio that has locked nothing is generated, and lost. -/
theorem Inv.rejected (h : s.Inv) {draws : GenDraws} {iover : Iover} {job : IogenJob}
    (hgen : generateBio s.iover s.job draws = (some id, iover, job))
    (hnone : job.locked id = ∅) : (⟨iover, job⟩ : JobSystem).Inv := by
  obtain ⟨rest, hfree, hrest, hpool, hparams, hinflight, -, -, hgenerates, -⟩ :=
    generateBio_some hgen
  obtain ⟨-, -, -, hbits, -⟩ := hgenerates.spec
  have hempty := job.own_eq_locked id fun x hx => absurd (hnone ▸ hx) (Set.notMem_empty x)
  rw [hparams, hnone] at hempty
  rw [hempty, Set.sdiff_empty] at hbits
  have hnodup := h.nodup
  rw [hfree, List.cons_append, List.nodup_cons] at hnodup
  have hpool' : ∀ j ∈ s.job.bioInflight, job.bioPool j = s.job.bioPool j := fun j hj =>
    hpool j fun hji => hnodup.1 (List.mem_append_right _ (hji ▸ hj))
  refine h.shift (h.held.still hparams hbits.symm (own_congr hparams hinflight hpool') ?_
    fun j hj => ?_) fun j hj => ?_
  · simp only [hrest, hinflight]
    exact hnodup.2
  · have hj' : j ∈ s.job.bioInflight := hinflight ▸ hj
    simp only [hpool' j hj']
    exact h.nlbs_lt j hj'
  · have hj' : j ∈ s.job.bioInflight := hinflight ▸ hj
    simp only [IogenJob.locked, hpool' j hj', hparams]
    exact h.below j hj'

/-- The controller is reset while no bio in flight has locked anything. -/
theorem Inv.reinited (h : s.Inv) (hnone : ∀ id ∈ s.job.bioInflight, s.job.locked id = ∅) :
    (⟨s.iover, iogenJobReinit s.job⟩ : JobSystem).Inv := by
  have hempty : ∀ j, s.own j = ∅ := by
    intro j
    by_cases hj : j ∈ s.job.bioInflight
    · rw [own_of_mem hj, IogenJob.own_eq_locked _ j (h.below j hj), hnone j hj]
    · exact own_of_notMem hj
  refine h.shift (h.held.still rfl rfl (fun j => ?_) ?_ fun j hj => absurd hj List.not_mem_nil)
    fun j hj => absurd hj List.not_mem_nil
  · rw [hempty j]
    exact own_of_notMem List.not_mem_nil
  · rw [iogenJobReinit, List.append_nil]
    exact List.nodup_range

/-- A job that has been set up has locked nothing. -/
theorem inv_init (iover : Iover) {job : IogenJob} (ho : job.params.lbaOverlap = false) :
    (init iover job).Inv where
  noOverlap := ho
  owns := by
    rw [init, bits_zero]
    exact Owns.empty fun _ => own_of_notMem List.not_mem_nil
  covers := by
    rw [init, bits_zero]
    exact Covers.empty
  nodup := by
    rw [init, List.append_nil]
    exact List.nodup_range
  nlbs_lt _ hid := absurd hid List.not_mem_nil
  below _ hid := absurd hid List.not_mem_nil

/-- **Every clean step keeps the lock and the bios in flight together.** -/
theorem Inv.step {a : JobLabel} (h : s.Inv) (hstep : guarded (Step spor3) Clean s a s') :
    s'.Inv := by
  obtain ⟨hclean, hstep⟩ := hstep
  cases hstep with
  | retry draws iover job _ hgen => exact h.retried hgen
  | submit draws id iover iover' job job' _ hgen henqueue =>
    obtain ⟨hlock, rfl⟩ := enqueueBio_spec henqueue
    have hparams : job.params = s.job.params := by
      obtain ⟨_, _, _, _, hparams, _⟩ := generateBio_some hgen
      exact hparams
    have hstart := h.start hgen (by rw [IogenJob.locked, hparams]; exact hclean)
    exact hstart.shift (hstart.held.still rfl (by rw [hlock]) (fun _ => rfl) hstart.nodup
      hstart.nlbs_lt) hstart.below
  | reject draws id iover job _ hgen =>
    have hparams : job.params = s.job.params := by
      obtain ⟨_, _, _, _, hparams, _⟩ := generateBio_some hgen
      exact hparams
    exact h.rejected hgen (by rw [IogenJob.locked, hparams]; exact hclean)
  | flush draws id iover iover' job job' _ hgen hop hend =>
    have hlocked : job.locked id = ∅ := by
      obtain ⟨_, _, _, _, _, _, _, _, hgenerates, _⟩ := generateBio_some hgen
      rw [IogenJob.locked, Bio.locked]
      split
      · ext x
        rw [Bio.mem_range, (hgenerates.flush hop).1]
        exact ⟨fun hx => absurd hx.2 (by omega), fun hx => absurd hx (Set.notMem_empty x)⟩
      · rfl
    have hstart := h.start hgen fun x hx => absurd (hlocked ▸ hx) (Set.notMem_empty x)
    exact hstart.ended List.mem_cons_self
      (fun hidentify => absurd (hop.symm.trans hidentify) (by decide)) hend
  | complete id bio iover job hid hex hend =>
    refine (h.answer hex).ended hid ?_ hend
    intro hop j hj hji
    rw [answerBio_self] at hop ⊢
    rw [own_answer hex j, hex.slba, hex.nlbs]
    exact hclean (hex.opcode ▸ hop) j hj hji
  | reinit => exact h.reinited hclean

/-- A job of two bios that writes zeroes to LBA 0 or identifies, with nothing behind `lbas`. -/
def zeroesJob : IogenJob where
  params := { JobParams.plain with slbaType := .fixed }
  state := .running
  iogenState := .running
  oprLottery r := if r = 0 then .writeZeroes else .identify
  lbas := tableAt (fun _ => ⟨1, 0⟩) fun _ => ⟨0, 0⟩
  slbaAlign := 0
  lbaRangeBegin := 0
  lbaRangeSize := 8
  slbaNext _ := 0
  replayHistIdx := 0
  replayHistCnt := 0
  bioPool _ := .plain .flush 0 0 fun _ => 0
  bioFree := []
  bioInflight := []
  numInflight := 0
  sumOps := 0
  sumBytes := 0
  timeout := false
  view := ⟨fun _ => 0, false, 0⟩

/-- The draws of which the lottery gets `rand`. -/
def plainDraws (rand : ℕ) : GenDraws where
  rand := rand
  jesd219Nlbs := 0
  jesd219Slba := 0
  pract := false
  slba _ := 0
  escape _ _ := false
  tagError := false

/-- `OPERATION=READ:50,IDENTIFY:50`, `SLBA=JESD219:1:4096` and `IODEPTH=2`. -/
def jesd219Job : JobConfig :=
  { JobConfig.plain 4096 65536 with
    iodepth := 2
    seed := 2092385
    operations := fun
      | .read | .identify => 50
      | _ => 0
    slbaType := .jesd219
    slba := .jesd219 true 4096 }

/-- The draws of a call that gets `rand` from `rand48` and `picked` from `jesd219_gen`. -/
def jesd219Draws (rand : ℕ) (picked : ℕ × ℕ) : GenDraws :=
  { plainDraws rand with jesd219Slba := picked.1, jesd219Nlbs := picked.2 }

/-- With this seed `jesd219_gen` picks one LBA of the null engine twice in a row. -/
theorem jesd219Call_twice : ∃ well well',
    jesd219Call (fun _ => 0) NamespaceInfo.null.nlbs sizeOfSector4k 1 (wellSeeded jesd219Job.seed) =
        some ((449991, 1), well) ∧
      jesd219Call (fun _ => 0) NamespaceInfo.null.nlbs sizeOfSector4k 1 well =
        some ((449991, 1), well') := by
  have htwice : (do
      let (identified, well) ← jesd219Call (fun _ => 0) NamespaceInfo.null.nlbs sizeOfSector4k 1
        (wellSeeded jesd219Job.seed)
      let (read, _) ← jesd219Call (fun _ => 0) NamespaceInfo.null.nlbs sizeOfSector4k 1 well
      return (identified, read)) = some ((449991, 1), (449991, 1)) := by
    decide +kernel
  simp only [Option.bind_eq_bind, Option.bind_eq_some_iff, Option.pure_def,
    Option.some.injEq] at htwice
  obtain ⟨⟨_, well⟩, hfirst, ⟨_, well'⟩, hsecond, heq⟩ := htwice
  obtain ⟨rfl, rfl⟩ := Prod.mk.inj heq
  exact ⟨well, well', hfirst, hsecond⟩

/-- The job identifies, reads, and is told that it has identified. The two numbers are those that
`rand48` returns after the two that the buffers take: 86 and 41 of the lottery. -/
theorem identify_run : ∃ nsis bound job identify read s,
    validate (.null .none) [jesd219Job] = .ok (nsis, [bound]) ∧ nullJob bound.params = some job ∧
      Run (Step false) (init .null (iogenJobBegin .null job))
        [.submit (jesd219Draws 1547222586 (449991, 1)) identify,
          .submit (jesd219Draws 193451241 (449991, 1)) read, .complete 0 identify] s ∧
      s.iover.lbaLock (449991 / 64) = 0 ∧ s.job.bioInflight = [1] ∧ 449991 ∈ s.job.locked 1 := by
  refine ⟨_, _, _, _, _, _, rfl, rfl, .cons (.submit _ 0 _ _ _ _ (by decide) rfl rfl) <|
    .cons (.submit _ 1 _ _ _ _ (by decide) rfl rfl) <|
    .cons (.complete 0 _ _ _ (by decide) (.refl _) rfl) <| .nil _, ?_, rfl, ?_⟩
  · rfl
  · exact ⟨le_rfl, Nat.lt_succ_self _⟩

end JobSystem

end ChamberSpo

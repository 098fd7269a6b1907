import ChamberSpo.InflightLock

/-!
# Cutting the power at SPOR level 3

`iogen_job_runner` of a test of `spor_level` 3, a step at a time. The power may be cut between any
two steps, and what the descriptors say then is what the journal is left with.

* `SporSystem.Step` — the runner, with the enqueue, the list and each block that
  `commit_block_state_unwritten` puts in state unwritten as steps of their own.
* `SporSystem.CrashSafe` — no write that the engine has is on an LBA in state data.
* `SporSystem.Quiet` — the steps that keep it so: the LBAs of a write are in another state before
  the engine takes it, and an identify clears nothing of what the others locked.
-/

namespace ChamberSpo

open Bitmap

/-- Where the runner of a job is. -/
inductive SporPc where
  /-- at the head of its loop -/
  | loop
  /-- the engine has taken bio `id`, which is not yet on the list -/
  | enqueued (id : ℕ)
  /-- in the loop of `commit_block_state_unwritten` for bio `id` -/
  | demoting (id lbaOffset : ℕ)

/-- What the runner does next. -/
inductive SporLabel where
  /-- a turn of the loop in which the engine takes no bio, or a call of `bio_end` -/
  | turn (a : JobLabel)
  /-- a bio is generated, and the engine takes it -/
  | enqueue (draws : GenDraws) (bio : Bio)
  /-- the bio is put on the list and recorded in the history -/
  | list
  /-- a block of a write is put in state unwritten -/
  | demote
  /-- every block is -/
  | demoted

/-- A verifier, the one job that uses it, and where its runner is. -/
structure SporSystem extends JobSystem where
  pc : SporPc

/-- Bio `id` is a write in flight, and `x` one of its LBAs. -/
def JobSystem.Writes (s : JobSystem) (id x : ℕ) : Prop :=
  id ∈ s.job.bioInflight ∧ (s.job.bioPool id).opcode = .write ∧ x ∈ (s.job.bioPool id).range

/-- No write in flight is on an LBA in state data. -/
def JobSystem.NoData (s : JobSystem) : Prop :=
  ∀ id x, s.Writes id x → (s.iover.blockDesc x).state ≠ .data

namespace SporSystem

/-- Where the runner goes once bio `id` is on the list. -/
def afterList (job : IogenJob) (id : ℕ) : SporPc :=
  if (job.bioPool id).opcode = .write ∧ job.params.compare then .demoting id 0 else .loop

/-- The body of the loop of `commit_block_state_unwritten`. -/
def demoteBlock (iover : Iover) (bio : Bio) (lbaOffset : ℕ) : Option Iover := do
  let info ← datagenGetHeader iover.datagen (blockData iover bio lbaOffset)
  let lba := bio.slba + lbaOffset
  return { iover with
    blockDesc := Function.update iover.blockDesc lba
      (writtenDesc .unwritten info (iover.blockDesc lba)) }

/-- The steps of the runner. -/
inductive Step (s : SporSystem) : SporLabel → SporSystem → Prop
  | turn (a : JobLabel) (sys : JobSystem) :
    s.pc = .loop → (∀ draws bio, a ≠ .submit draws bio) → JobSystem.Step true s.toJobSystem a sys →
    Step s (.turn a) ⟨sys, .loop⟩
  | enqueue (draws : GenDraws) (id : ℕ) (iover : Iover) (job : IogenJob) :
    s.pc = .loop → s.job.numInflight < s.job.params.iodepth →
    generateBio s.iover s.job draws = (some id, iover, job) →
    Step s (.enqueue draws (job.bioPool id)) ⟨⟨iover, job⟩, .enqueued id⟩
  | list (id : ℕ) (iover : Iover) :
    s.pc = .enqueued id →
    backupHistState s.iover s.job.params (s.job.bioPool id) = some iover →
    Step s .list ⟨⟨iover, startBio s.job id⟩, afterList s.job id⟩
  | demote (id lbaOffset : ℕ) (iover : Iover) :
    s.pc = .demoting id lbaOffset → lbaOffset < (s.job.bioPool id).nlbs →
    demoteBlock s.iover (s.job.bioPool id) lbaOffset = some iover →
    Step s .demote ⟨⟨iover, s.job⟩, .demoting id (lbaOffset + 1)⟩
  | demoted (id lbaOffset : ℕ) :
    s.pc = .demoting id lbaOffset → (s.job.bioPool id).nlbs ≤ lbaOffset →
    Step s .demoted { s with pc := .loop }

/-- A job that has been set up, at the head of its loop. -/
def init (iover : Iover) (job : IogenJob) : SporSystem := ⟨.init iover job, .loop⟩

/-- The job once every bio that the engine has is on the list. -/
def listed (s : SporSystem) : JobSystem :=
  match s.pc with
  | .enqueued id => ⟨s.iover, startBio s.job id⟩
  | .loop | .demoting _ _ => s.toJobSystem

/-- No write that the engine has taken and not completed is on an LBA in state data. -/
def CrashSafe (s : SporSystem) : Prop := s.listed.NoData

/-- The steps that keep a job crash safe. -/
def Quiet (s : SporSystem) : SporLabel → Prop
  | .enqueue _ bio => bio.opcode = .write → ∀ x ∈ bio.range, (s.iover.blockDesc x).state ≠ .data
  | .turn (.complete id bio) => s.toJobSystem.Clean (.complete id bio)
  | .turn _ | .list | .demote | .demoted => True

end SporSystem

/-! ## What the steps of a job do to the LBAs of its writes -/

namespace JobSystem

variable {s s' : JobSystem} {id : ℕ} {iover : Iover} {job : IogenJob}

/-- The same writes are in flight, and the descriptors of their LBAs have not changed. -/
theorem NoData.mono (h : s.NoData) (hw : ∀ j x, s'.Writes j x → s.Writes j x)
    (hd : ∀ j x, s'.Writes j x → s'.iover.blockDesc x = s.iover.blockDesc x) : s'.NoData := by
  intro j x hx
  rw [hd j x hx]
  exact h j x (hw j x hx)

/-- A bio is generated and put in flight. If it is a write, none of its LBAs is in state data. -/
theorem NoData.start (h : s.NoData) {draws : GenDraws}
    (hgen : generateBio s.iover s.job draws = (some id, iover, job))
    (hbio : (job.bioPool id).opcode = .write → ∀ x ∈ (job.bioPool id).range,
      (s.iover.blockDesc x).state ≠ .data) : (⟨iover, startBio job id⟩ : JobSystem).NoData := by
  obtain ⟨-, -, -, hpool, -, hinflight, -, -, hgenerates, -⟩ := generateBio_some hgen
  obtain ⟨-, -, hdesc, -, -⟩ := hgenerates.spec
  rintro j x ⟨hj, hop, hx⟩
  simp only [startBio] at hop hx
  simp only [hdesc]
  by_cases hji : j = id
  · subst hji
    exact hbio hop x hx
  · have hj := (List.mem_cons.mp hj).resolve_left hji
    rw [hinflight] at hj
    rw [hpool j hji] at hop hx
    exact h j x ⟨hj, hop, hx⟩

/-- **A bio in flight is completed.** It does not touch the LBAs of the other writes: the lock
keeps them apart. -/
theorem NoData.ended (h : s.NoData) (hheld : s.Held) (hid : id ∈ s.job.bioInflight)
    (hend : bioEnd s.iover s.job id = some (iover, job)) :
    (⟨iover, job⟩ : JobSystem).NoData := by
  obtain ⟨-, -, hpool, hinflight, -⟩ := bioEnd_spec hheld.noOverlap (hheld.nlbs_lt id hid) hend
  have hnodup := (List.nodup_append'.mp hheld.nodup).2.1
  have hwrites : ∀ j x, (⟨iover, job⟩ : JobSystem).Writes j x → j ≠ id ∧ s.Writes j x := by
    rintro j x ⟨hj, hop, hx⟩
    simp only [hinflight, hnodup.mem_erase_iff] at hj
    simp only [hpool] at hop hx
    exact ⟨hj.1, hj.2, hop, hx⟩
  refine h.mono (fun j x hx => (hwrites j x hx).2) ?_
  intro j x hx
  obtain ⟨hji, hj, hop, hxj⟩ := hwrites j x hx
  rcases bioEnd_cases hend with ⟨hle, r, hsubmit, rfl, -⟩ | ⟨-, rfl, -⟩
  · have hframe : r.iover.blockDesc x
        = (submitUnlock s.iover s.job.params (s.job.bioPool id)).blockDesc x := by
      apply submitTail_frame hsubmit
      rcases Nat.lt_or_eq_of_le hle with hlt | heq
      · refine .inr fun hxid => Set.disjoint_left.mp (hheld.disjoint hj hid hji ?_ ?_) hxj hxid
        · rw [takesLock, hheld.noOverlap, hop]
          rfl
        · rw [takesLock, hheld.noOverlap, decide_eq_true hlt]
          rfl
      · left
        cases hop' : (s.job.bioPool id).opcode <;> rw [hop'] at heq <;> first | rfl | cases heq
    rw [hframe, submitUnlock]
    split <;> rfl
  · rfl

/-- A step of the runner that submits nothing keeps the writes in flight off the data. -/
theorem NoData.turn {a : JobLabel} (h : s.NoData) (hheld : s.Held)
    (ha : ∀ draws bio, a ≠ .submit draws bio)
    (hclean : ∀ id bio, a = .complete id bio → s.Clean (.complete id bio))
    (hstep : Step true s a s') : s'.Held ∧ s'.NoData := by
  cases hstep with
  | retry draws iover job _ hgen =>
    obtain ⟨rfl, -, -, hinflight, -⟩ := generateBio_none hgen
    obtain ⟨hshifts, hpool⟩ := hheld.retried hgen
    refine ⟨hheld.shift hshifts, h.mono ?_ fun _ _ _ => rfl⟩
    rintro j x ⟨hj, hop, hx⟩
    simp only [hinflight] at hj
    simp only [hpool j hj] at hop hx
    exact ⟨hj, hop, hx⟩
  | submit draws id iover iover' job job' _ hgen henqueue => exact absurd rfl (ha _ _)
  | reject draws id iover job _ hgen =>
    obtain ⟨rest, hfree, -, hpool, -, hinflight, -, -, hgenerates, -⟩ := generateBio_some hgen
    obtain ⟨-, -, hdesc, -, -⟩ := hgenerates.spec
    have hnodup := hheld.nodup
    rw [hfree, List.cons_append, List.nodup_cons] at hnodup
    refine ⟨hheld.rejected hgen, h.mono ?_ fun _ x _ => congrFun hdesc x⟩
    rintro j x ⟨hj, hop, hx⟩
    simp only [hinflight] at hj
    have hji : j ≠ id := fun hji => hnodup.1 (List.mem_append_right _ (hji ▸ hj))
    simp only [hpool j hji] at hop hx
    exact ⟨hj, hop, hx⟩
  | flush draws id iover iover' job job' _ hgen hop hend =>
    have hstart := h.start hgen fun hwrite => absurd (hop.symm.trans hwrite) (by decide)
    have hheld' := hheld.shift (hheld.start hgen)
    refine ⟨hheld'.ended List.mem_cons_self (fun hidentify => ?_) hend,
      hstart.ended hheld' List.mem_cons_self hend⟩
    exact absurd (hop.symm.trans hidentify) (by decide)
  | complete id bio iover job hid hex hend =>
    have hanswer := hheld.shift (hheld.answer hex)
    have hsame : (⟨s.iover, answerBio s.job id bio⟩ : JobSystem).NoData := by
      refine h.mono ?_ fun _ _ _ => rfl
      rintro j x ⟨hj, hop, hx⟩
      by_cases hji : j = id
      · subst hji
        simp only [answerBio_self, Bio.range, hex.opcode, hex.slba, hex.nlbs] at hop hx
        exact ⟨hj, hop, hx⟩
      · simp only [answerBio, Function.update_of_ne hji] at hop hx
        exact ⟨hj, hop, hx⟩
    refine ⟨hanswer.ended hid ?_ hend, hsame.ended hanswer hid hend⟩
    intro hop j hj hji
    rw [answerBio_self] at hop ⊢
    rw [own_answer hex j, hex.slba, hex.nlbs]
    exact hclean id bio rfl (hex.opcode ▸ hop) j hj hji
  | reinit => exact ⟨hheld.reinited, fun j x hx => absurd hx.1 List.not_mem_nil⟩

end JobSystem

/-! ## The runner -/

namespace SporSystem

variable {s s' : SporSystem} {id lbaOffset : ℕ} {iover iover' : Iover} {job job' : IogenJob}

/-- One block of a write is put in state unwritten, and nothing else changes. -/
theorem demoteBlock_eq {bio : Bio} (h : demoteBlock iover bio lbaOffset = some iover') :
    ∃ info, datagenGetHeader iover.datagen (blockData iover bio lbaOffset) = some info ∧
      iover' = { iover with
        blockDesc := Function.update iover.blockDesc (bio.slba + lbaOffset)
          (writtenDesc .unwritten info (iover.blockDesc (bio.slba + lbaOffset))) } := by
  simp only [demoteBlock, Option.bind_eq_bind, Option.bind_eq_some_iff, Option.pure_def,
    Option.some.injEq] at h
  obtain ⟨info, hinfo, rfl⟩ := h
  exact ⟨info, hinfo, rfl⟩

theorem listed_of_loop (h : s.pc = .loop) : s.listed = s.toJobSystem := by rw [listed, h]

theorem listed_of_enqueued (h : s.pc = .enqueued id) :
    s.listed = ⟨s.iover, startBio s.job id⟩ := by rw [listed, h]

theorem listed_of_demoting (h : s.pc = .demoting id lbaOffset) : s.listed = s.toJobSystem := by
  rw [listed, h]

/-- A bio that has been put on the list is on it. -/
theorem listed_afterList : (⟨⟨iover, job⟩, afterList job' id⟩ : SporSystem).listed = ⟨iover, job⟩ := by
  rw [afterList]
  by_cases hwrite : (job'.bioPool id).opcode = .write ∧ job'.params.compare
  · rw [if_pos hwrite]
    rfl
  · rw [if_neg hwrite]
    rfl

/-- The loop of `commit_block_state_unwritten` is its blocks, one step each. -/
theorem demote_run (job : IogenJob) (n : ℕ) (hn : n ≤ (job.bioPool id).nlbs) (bd : ℕ → BlockDesc)
    (h : (List.range n).foldlM (fun bd o => do
      let info ← datagenGetHeader iover.datagen (blockData iover (job.bioPool id) o)
      return Function.update bd ((job.bioPool id).slba + o)
        (writtenDesc .unwritten info (bd ((job.bioPool id).slba + o)))) iover.blockDesc = some bd) :
    Run Step ⟨⟨iover, job⟩, .demoting id 0⟩ (List.replicate n .demote)
      ⟨⟨{ iover with blockDesc := bd }, job⟩, .demoting id n⟩ := by
  induction n generalizing bd with
  | zero =>
    rw [List.range_zero, List.foldlM_nil] at h
    obtain rfl := Option.some.inj h
    exact .nil _
  | succ n ih =>
    rw [List.range_succ, List.foldlM_append, Option.bind_eq_bind, Option.bind_eq_some_iff] at h
    obtain ⟨c, hc, hlast⟩ := h
    simp only [List.foldlM_cons, List.foldlM_nil, Option.bind_eq_bind, Option.bind_eq_some_iff,
      Option.pure_def, Option.some.injEq] at hlast
    obtain ⟨bd', ⟨info, hinfo, rfl⟩, rfl⟩ := hlast
    rw [List.replicate_succ']
    refine (ih (Nat.le_of_succ_le hn) c hc).snoc (.demote id n _ rfl hn ?_)
    have hblock : blockData { iover with blockDesc := c } = blockData iover :=
      blockData_congr ⟨rfl, rfl⟩
    rw [demoteBlock, hblock, hinfo]
    rfl

/-- **The runner of `JobSystem` in smaller steps**: a bio that is submitted is enqueued, put on the
list, and each of its blocks is put in state unwritten if it is a write. -/
theorem exists_submit_run {sys sys' : JobSystem} {draws : GenDraws} {bio : Bio}
    (h : JobSystem.Step true sys (.submit draws bio) sys') :
    ∃ ls, Run Step ⟨sys, .loop⟩ (.enqueue draws bio :: .list :: ls) ⟨sys', .loop⟩ := by
  cases h with
  | submit draws id iover iover' job job' hlt hgen henqueue =>
    simp only [enqueueBio, Option.bind_eq_bind, Option.bind_eq_some_iff, Option.pure_def,
      Option.some.injEq, Prod.mk.injEq] at henqueue
    obtain ⟨iover₁, hback, iover₂, hdemote, rfl, rfl⟩ := henqueue
    suffices h : ∃ ls, Run Step ⟨⟨iover₁, startBio job id⟩, afterList job id⟩ ls
        ⟨⟨iover₂, startBio job id⟩, .loop⟩ by
      obtain ⟨ls, hr⟩ := h
      exact ⟨ls, .cons (.enqueue draws id iover job rfl hlt hgen) (.cons (.list id _ rfl hback) hr)⟩
    rw [demoteWrite, commitBlockStateUnwritten] at hdemote
    by_cases hwrite : (job.bioPool id).opcode = .write ∧ job.params.compare
    · rw [if_pos ⟨rfl, hwrite.1⟩, if_pos hwrite.2, commitWritten] at hdemote
      simp only [Option.bind_eq_bind, Option.bind_eq_some_iff, Option.pure_def,
        Option.some.injEq] at hdemote
      obtain ⟨bd, hbd, rfl⟩ := hdemote
      rw [afterList, if_pos hwrite]
      have hr := demote_run (startBio job id) (job.bioPool id).nlbs le_rfl bd hbd
      exact ⟨_, hr.snoc (.demoted id _ rfl le_rfl)⟩
    · have hsame : iover₂ = iover₁ := by
        split at hdemote
        · rename_i hop
          rw [if_neg fun hc => hwrite ⟨hop.2, hc⟩] at hdemote
          exact (Option.some.inj hdemote).symm
        · exact (Option.some.inj hdemote).symm
      rw [afterList, if_neg hwrite, hsame]
      exact ⟨[], .nil _⟩

/-- What holds of a job whose steps are quiet. -/
structure Inv (s : SporSystem) : Prop where
  held : s.listed.Held
  safe : s.CrashSafe

/-- Only the descriptors change, and those that do are no longer in state data. -/
theorem Inv.demoted (h : s.Inv) (hjob : s'.listed.job = s.listed.job)
    (hlock : s'.listed.iover.lbaLock = s.listed.iover.lbaLock)
    (hdesc : ∀ x, s'.listed.iover.blockDesc x = s.listed.iover.blockDesc x ∨
      (s'.listed.iover.blockDesc x).state = .unwritten) : s'.Inv := by
  have hown : s'.listed.own = s.listed.own := by
    funext j
    rw [JobSystem.own, JobSystem.own, hjob]
  refine ⟨⟨hjob ▸ h.held.noOverlap, ?_, hjob ▸ h.held.nodup, hjob ▸ h.held.nlbs_lt⟩, ?_⟩
  · rw [hlock, hown]
    exact h.held.owns
  · intro j x hx
    rcases hdesc x with hsame | hunwritten
    · rw [hsame]
      rw [JobSystem.Writes, hjob] at hx
      exact h.safe j x hx
    · rw [hunwritten]
      decide

theorem inv_init (ho : job.params.lbaOverlap = false) : (init iover job).Inv where
  held := (JobSystem.inv_init iover ho).held
  safe _ _ hx := absurd hx.1 List.not_mem_nil

/-- **Every quiet step keeps a job crash safe.** -/
theorem Inv.step {a : SporLabel} (h : s.Inv) (hstep : guarded Step Quiet s a s') : s'.Inv := by
  obtain ⟨hquiet, hstep⟩ := hstep
  obtain ⟨hheld, hsafe⟩ := h
  cases hstep with
  | turn a sys hpc ha hturn =>
    rw [CrashSafe] at hsafe
    rw [listed_of_loop hpc] at hheld hsafe
    refine And.elim Inv.mk (hsafe.turn hheld ha ?_ hturn)
    intro id bio hcomplete
    subst hcomplete
    exact hquiet
  | enqueue draws id iover job hpc _ hgen =>
    rw [CrashSafe] at hsafe
    rw [listed_of_loop hpc] at hheld hsafe
    exact ⟨hheld.shift (hheld.start hgen), hsafe.start hgen hquiet⟩
  | list id iover hpc hback =>
    obtain ⟨hd, hdr, rfl⟩ := backupHistState_sameButHist hback
    refine Inv.demoted ⟨hheld, hsafe⟩ ?_ ?_ fun x => .inl ?_ <;>
      rw [listed_afterList, listed_of_enqueued hpc]
  | demote id lbaOffset iover hpc _ hdemote =>
    obtain ⟨info, -, rfl⟩ := demoteBlock_eq hdemote
    have hlisted := listed_of_demoting hpc
    refine Inv.demoted ⟨hheld, hsafe⟩ ?_ ?_ ?_
    · rw [hlisted]
      rfl
    · rw [hlisted]
      rfl
    · intro x
      rw [hlisted]
      change Function.update s.iover.blockDesc _ _ x = _ ∨
        (Function.update s.iover.blockDesc _ _ x).state = _
      rw [Function.update_apply]
      split
      · exact .inr rfl
      · exact .inl rfl
  | demoted id lbaOffset hpc _ =>
    rw [CrashSafe] at hsafe
    rw [listed_of_demoting hpc] at hheld hsafe
    exact ⟨hheld, hsafe⟩

/-- The bio whose blocks are put in state unwritten is a write on the list. -/
def DemotesWrite (s : SporSystem) : Prop :=
  ∀ id lbaOffset, s.pc = .demoting id lbaOffset →
    id ∈ s.job.bioInflight ∧ (s.job.bioPool id).opcode = .write

theorem DemotesWrite.step {a : SporLabel} (h : s.DemotesWrite) (hstep : Step s a s') :
    s'.DemotesWrite := by
  cases hstep with
  | turn => exact nofun
  | enqueue => exact nofun
  | list id iover =>
    intro j o hpc
    simp only [afterList] at hpc
    split at hpc
    · rename_i hwrite
      obtain ⟨rfl, -⟩ := SporPc.demoting.inj hpc
      exact ⟨List.mem_cons_self, hwrite.1⟩
    · cases hpc
  | demote id lbaOffset iover hpc =>
    intro j o hpc'
    obtain ⟨rfl, -⟩ := SporPc.demoting.inj hpc'
    exact h id lbaOffset hpc
  | demoted => exact nofun

/-- **`commit_block_state_unwritten`** changes the descriptors of LBAs of a write in flight
only. -/
theorem DemotesWrite.writes (h : s.DemotesWrite) (hstep : Step s .demote s') {x : ℕ}
    (hx : s'.iover.blockDesc x ≠ s.iover.blockDesc x) : ∃ id, s.listed.Writes id x := by
  cases hstep with
  | demote id lbaOffset iover hpc hlt hdemote =>
    obtain ⟨info, -, rfl⟩ := demoteBlock_eq hdemote
    obtain ⟨hmem, hop⟩ := h id lbaOffset hpc
    rw [listed_of_demoting hpc]
    refine ⟨id, hmem, hop, ?_⟩
    by_contra hout
    refine hx (Function.update_of_ne ?_ ..)
    rintro rfl
    exact hout ⟨Nat.le_add_right _ _, Nat.add_lt_add_left hlt _⟩

/-- A write that the engine takes while one of its LBAs is in state data. -/
theorem not_crashSafe_of_enqueue {draws : GenDraws} {bio : Bio}
    (hstep : Step s (.enqueue draws bio) s') (hloud : ¬ s.Quiet (.enqueue draws bio)) :
    ¬ s'.CrashSafe := by
  cases hstep with
  | enqueue draws id iover job hpc _ hgen =>
    obtain ⟨-, -, -, -, -, -, -, -, hgenerates, -⟩ := generateBio_some hgen
    obtain ⟨-, -, hdesc, -, -⟩ := hgenerates.spec
    intro hsafe
    refine hloud ?_
    intro hop x hx
    rw [← hdesc]
    exact hsafe id x ⟨List.mem_cons_self, hop, hx⟩

/-- **The power may be cut at any step.** In every run in which the engine takes a write only when
none of its LBAs is in state data, and in which an identify clears nothing of the other bios, no
write that the engine has is ever on an LBA in state data. `commit_block_state_unwritten` changes
the LBAs of a write in flight only, in every run; and a write that the engine takes while an LBA
of it is in state data breaks the promise at once. -/
theorem crashSafe_of_quiet {iover : Iover} {job : IogenJob} (ho : job.params.lbaOverlap = false) :
    (∀ ls s, Run (guarded Step Quiet) (init iover job) ls s → s.CrashSafe) ∧
      (∀ ls s s' x, Run Step (init iover job) ls s → Step s .demote s' →
        s'.iover.blockDesc x ≠ s.iover.blockDesc x → ∃ id, s.listed.Writes id x) ∧
      ∀ ls s s' draws bio, Run Step (init iover job) ls s → Step s (.enqueue draws bio) s' →
        ¬ s.Quiet (.enqueue draws bio) → ¬ s'.CrashSafe := by
  refine ⟨?_, ?_, ?_⟩
  · intro ls s hr
    have hinv : s.Inv := hr.invariant (fun _ _ _ h hst => h.step hst) (inv_init ho)
    exact hinv.safe
  · intro ls s s' x hr hstep hx
    have hdemotes : s.DemotesWrite := hr.invariant (fun _ _ _ h hst => h.step hst) nofun
    exact hdemotes.writes hstep hx
  · intro _ _ _ _ _ _ hstep hloud
    exact not_crashSafe_of_enqueue hstep hloud

/-- A job that writes LBA 0. -/
def writesJob : IogenJob := { JobSystem.zeroesJob with oprLottery := fun _ => .write }

/-- LBA 0 has not been written before, and the engine takes a write to it. -/
theorem crashSafe_of_quiet_unwritten : ∃ (ls : List SporLabel) (s : SporSystem),
    Run (guarded Step Quiet) (init (Iover.plain .zero) writesJob) ls s ∧ s.listed.Writes 0 0 ∧
      s.CrashSafe := by
  have hrun : ∃ (ls : List SporLabel) (s : SporSystem),
      Run (guarded Step Quiet) (init (Iover.plain .zero) writesJob) ls s ∧
        s.listed.Writes 0 0 := by
    refine ⟨_, _, .single ⟨?_, .enqueue (JobSystem.plainDraws 0) 0 _ _ rfl Nat.zero_lt_two rfl⟩,
      List.mem_cons_self, rfl, le_rfl, Nat.zero_lt_one⟩
    intro _ x _
    change BlockState.unwritten ≠ .data
    exact nofun
  obtain ⟨ls, s, hr, hwrites⟩ := hrun
  exact ⟨ls, s, hr, hwrites, (crashSafe_of_quiet rfl).1 ls s hr⟩

/-- LBA 0 is in state data. -/
def dataIover : Iover := .plain { BlockDesc.zero with state := .data }

/-- **A write is taken over data.** LBA 0 is in state data, the engine has a write to it, and the
power is cut. -/
theorem not_crashSafe_data : ∃ (ls : List SporLabel) (s : SporSystem),
    Run Step (init dataIover writesJob) ls s ∧ ¬ s.CrashSafe := by
  refine ⟨_, _, .single (.enqueue (JobSystem.plainDraws 0) 0 _ _ rfl Nat.zero_lt_two rfl),
    fun hsafe => ?_⟩
  exact hsafe 0 0 ⟨List.mem_cons_self, rfl, le_rfl, Nat.zero_lt_one⟩ rfl

end SporSystem

end ChamberSpo

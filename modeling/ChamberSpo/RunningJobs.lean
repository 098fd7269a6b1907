import Mathlib.Algebra.BigOperators.Ring.Finset
import Mathlib.Algebra.Order.BigOperators.Group.Finset
import Mathlib.Data.Finset.Card
import Mathlib.Data.Finset.Image
import Mathlib.Data.Set.Function
import ChamberSpo.Iogen

/-!
# When a run is over

The threads of the jobs share two masks with a bit for each job, `running_job_mask` and
`finished_job_mask`. `iogen_job_begin` sets a bit of the first; `iogen_job_end` sets one of the
second, clears the one of the first, and counts. Who counts all the jobs ends the run.

* `Iogen.Step` — the interleaving. Every atomic access to a mask is a step of its own.
* `Iogen.Detects` — what the masks and `iogen->state` are to say.
* `Iogen.Inv` — what they do say as long as there is a bit for every job.
* `Iogen.Leaves` — that the run then ends.

The number of jobs has no bound, and the masks have 64 bits: `Iogen.detects_iff`.
-/

namespace ChamberSpo

/-! ## Masks -/

/-- The set bits of a mask. -/
def maskBits (mask : BitVec 64) : Finset ℕ := (Finset.range 64).filter fun k => mask.getLsbD k

/-- `popcount` -/
def popcount (mask : BitVec 64) : ℕ := (maskBits mask).card

theorem mem_maskBits {mask : BitVec 64} {k : ℕ} :
    k ∈ maskBits mask ↔ mask.getLsbD k = true := by
  rw [maskBits, Finset.mem_filter, Finset.mem_range]
  refine ⟨?_, ?_⟩
  · exact fun h => h.2
  · exact fun h => ⟨BitVec.lt_of_getLsbD h, h⟩

theorem popcount_le (mask : BitVec 64) : popcount mask ≤ 64 := by
  have h := Finset.card_filter_le (Finset.range 64) fun k => mask.getLsbD k = true
  rwa [Finset.card_range] at h

theorem getLsbD_one_shiftLeft {i k : ℕ} (hi : i < 64) :
    ((1 : BitVec 64) <<< i).getLsbD k = true ↔ k = i := by
  rw [show (1 : BitVec 64) = 1#64 from rfl, BitVec.getLsbD_shiftLeft, BitVec.getLsbD_one]
  simp only [Bool.and_eq_true, Bool.not_eq_true', decide_eq_true_eq, decide_eq_false_iff_not]
  omega

/-- Or-ing the bit of a job into a mask. -/
theorem getLsbD_setBit {mask : BitVec 64} {i k : ℕ} (hi : i < 64) :
    (mask ||| (1 : BitVec 64) <<< i).getLsbD k = true ↔ mask.getLsbD k = true ∨ k = i := by
  rw [BitVec.getLsbD_or, Bool.or_eq_true, getLsbD_one_shiftLeft hi]

/-- And-ing it out. -/
theorem getLsbD_clearBit {mask : BitVec 64} {i k : ℕ} (hi : i < 64) :
    (mask &&& ~~~((1 : BitVec 64) <<< i)).getLsbD k = true ↔ mask.getLsbD k = true ∧ k ≠ i := by
  rw [BitVec.getLsbD_and, BitVec.getLsbD_not, Bool.and_eq_true, Bool.and_eq_true,
    Bool.not_eq_true', ← Bool.not_eq_true, getLsbD_one_shiftLeft hi, decide_eq_true_eq]
  refine ⟨?_, ?_⟩
  · rintro ⟨hk, -, hne⟩
    exact ⟨hk, hne⟩
  · rintro ⟨hk, hne⟩
    exact ⟨hk, BitVec.lt_of_getLsbD hk, hne⟩

/-! ## The threads -/

/-- Where the thread of a job stands between two accesses to the masks. -/
inductive JobThread where
  /-- `iogen_job_begin` has not been called -/
  | idle
  /-- it has set the bit in `running_job_mask` -/
  | begun
  /-- `iogen_job_end` has set the bit in `finished_job_mask` -/
  | finished
  /-- and cleared the one in `running_job_mask` -/
  | cleared
  /-- it counted all the jobs in `finished_job_mask` -/
  | last
  | ended
  deriving DecidableEq, Repr

/-- The bit in `running_job_mask` is to be set. -/
def JobThread.Running : JobThread → Prop
  | .begun | .finished => True
  | .idle | .cleared | .last | .ended => False

/-- The bit in `finished_job_mask` is to be set. -/
def JobThread.Finished : JobThread → Prop
  | .finished | .cleared | .last | .ended => True
  | .idle | .begun => False

/-- The thread will still count the jobs, or has counted them all. -/
def JobThread.Counts : JobThread → Prop
  | .finished | .cleared | .last => True
  | .idle | .begun | .ended => False

/-- The accesses a thread has before it. -/
def JobThread.left : JobThread → ℕ
  | .idle => 5
  | .begun => 4
  | .finished => 3
  | .cleared => 2
  | .last => 1
  | .ended => 0

/-- `struct iogen`, with the threads of its jobs. Job `i` has the id `i + 1`. -/
structure Iogen where
  njobs : ℕ
  state : IogenState
  runningJobMask : BitVec 64
  finishedJobMask : BitVec 64
  thread : ℕ → JobThread

namespace Iogen

/-- `iogen_init` and `iogen_start` -/
def start (njobs : ℕ) : Iogen where
  njobs := njobs
  state := .running
  runningJobMask := 0
  finishedJobMask := 0
  thread _ := .idle

/-- `iogen_running`, the condition of the loop in `run` -/
def running (g : Iogen) : Bool := g.state == .running || g.state == .aborting

/-- Job `i` moves on. -/
def move (g : Iogen) (i : ℕ) (t : JobThread) : Iogen :=
  { g with thread := Function.update g.thread i t }

/-- What a thread does next. -/
inductive Label where
  | begin (i : ℕ)
  | finish (i : ℕ)
  | clear (i : ℕ)
  | count (i : ℕ)
  | done (i : ℕ)

section Run

-- `1ULL << (job->id - 1)`, of which C says nothing for more than 64 jobs
variable (jobBit : ℕ → BitVec 64)

/-- The accesses of `iogen_job_begin` and `iogen_job_end`, in any order of the jobs. -/
inductive Step (g : Iogen) : Label → Iogen → Prop
  | begin (i : ℕ) : i < g.njobs → g.thread i = .idle →
    Step g (.begin i)
      ({ g with runningJobMask := g.runningJobMask ||| jobBit i }.move i .begun)
  | finish (i : ℕ) : i < g.njobs → g.thread i = .begun →
    Step g (.finish i)
      ({ g with finishedJobMask := g.finishedJobMask ||| jobBit i }.move i .finished)
  | clear (i : ℕ) : i < g.njobs → g.thread i = .finished →
    Step g (.clear i)
      ({ g with runningJobMask := g.runningJobMask &&& ~~~jobBit i }.move i .cleared)
  | count (i : ℕ) : i < g.njobs → g.thread i = .cleared →
    Step g (.count i)
      (g.move i (if popcount g.finishedJobMask = g.njobs then .last else .ended))
  | done (i : ℕ) : i < g.njobs → g.thread i = .last →
    Step g (.done i) ({ g with state := .done }.move i .ended)

end Run

/-- The accesses all threads have before them. -/
def left (g : Iogen) : ℕ := ∑ i ∈ Finset.range g.njobs, (g.thread i).left

/-- A mask has a bit for each of the jobs that `P` holds of, and no others. -/
def OneBitEach (g : Iogen) (mask : BitVec 64) (P : JobThread → Prop) : Prop :=
  ∃ bit : ℕ → ℕ, Set.InjOn bit {i | i < g.njobs ∧ P (g.thread i)} ∧
    (maskBits mask : Set ℕ) = bit '' {i | i < g.njobs ∧ P (g.thread i)}

/-- **The end of the run is found out.** -/
structure Detects (g : Iogen) : Prop where
  running : g.OneBitEach g.runningJobMask JobThread.Running
  finished : g.OneBitEach g.finishedJobMask JobThread.Finished
  /-- never earlier -/
  state : g.state = .done → ∀ i < g.njobs, (g.thread i).Finished
  /-- with the last of them, the loop in `run` is left -/
  last : (∀ i < g.njobs, g.thread i = .ended) → g.state = .done ∧ g.running = false

/-! ## As long as there are bits -/

/-- A mask has the bits of the jobs that `P` holds of, each at its own place. -/
def HasBits (g : Iogen) (mask : BitVec 64) (P : JobThread → Prop) : Prop :=
  ∀ k, mask.getLsbD k = true ↔ k < g.njobs ∧ P (g.thread k)

/-- What holds as long as every job has its own bit. -/
structure Inv (g : Iogen) : Prop where
  njobs_le : g.njobs ≤ 64
  pos : 0 < g.njobs
  running : g.HasBits g.runningJobMask JobThread.Running
  finished : g.HasBits g.finishedJobMask JobThread.Finished
  /-- who sets the state has counted every job -/
  counted : (g.state = .done ∨ ∃ i < g.njobs, g.thread i = .last) →
    ∀ i < g.njobs, (g.thread i).Finished
  /-- once every job is there to be counted, one is still to count, or has done so -/
  counts : (∀ i < g.njobs, (g.thread i).Finished) →
    g.state = .done ∨ ∃ i < g.njobs, (g.thread i).Counts

variable {g g' : Iogen} {jobBit : ℕ → BitVec 64} {i : ℕ} {t : JobThread} {mask : BitVec 64}
  {P : JobThread → Prop}

@[simp] theorem move_thread (k : ℕ) :
    (g.move i t).thread k = if k = i then t else g.thread k := Function.update_apply ..

theorem move_self : (g.move i t).thread i = t := Function.update_self ..

theorem move_of_ne {k : ℕ} (h : k ≠ i) : (g.move i t).thread k = g.thread k :=
  Function.update_of_ne h ..

/-- A move that does not matter to `P`. -/
theorem move_iff (h : P t ↔ P (g.thread i)) (k : ℕ) :
    P ((g.move i t).thread k) ↔ P (g.thread k) := by
  by_cases hk : k = i
  · subst hk
    rw [move_self, h]
  · rw [move_of_ne hk]

theorem HasBits.keep (h : g.HasBits mask P) (hP : P t ↔ P (g.thread i)) :
    (g.move i t).HasBits mask P := by
  intro k
  rw [move_iff hP]
  exact h k

theorem HasBits.set (h : g.HasBits mask P) (hlt : i < 64) (hi : i < g.njobs) (hP : P t) :
    (g.move i t).HasBits (mask ||| (1 : BitVec 64) <<< i) P := by
  intro k
  rw [getLsbD_setBit hlt, h k]
  by_cases hk : k = i
  · subst hk
    rw [move_self]
    exact ⟨fun _ => ⟨hi, hP⟩, fun _ => .inr rfl⟩
  · rw [move_of_ne hk]
    exact or_iff_left hk

theorem HasBits.clear (h : g.HasBits mask P) (hlt : i < 64) (hP : ¬ P t) :
    (g.move i t).HasBits (mask &&& ~~~((1 : BitVec 64) <<< i)) P := by
  intro k
  rw [getLsbD_clearBit hlt, h k]
  by_cases hk : k = i
  · subst hk
    rw [move_self]
    exact ⟨fun hc => absurd rfl hc.2, fun hc => absurd hc.2 hP⟩
  · rw [move_of_ne hk]
    exact and_iff_left hk

/-- A thread that does not come to its count leaves it to those that did before. -/
theorem exists_last_of_move (t : JobThread) (ht : t ≠ .last)
    (h : ∃ j < g.njobs, (g.move i t).thread j = .last) : ∃ j < g.njobs, g.thread j = .last := by
  obtain ⟨j, hj, hl⟩ := h
  by_cases hk : j = i
  · rw [hk, move_self] at hl
    exact absurd hl ht
  · rw [move_of_ne hk] at hl
    exact ⟨j, hj, hl⟩

/-- A count of all the jobs finds all of them finished. -/
theorem Inv.popcount_eq_iff (h : g.Inv) :
    popcount g.finishedJobMask = g.njobs ↔ ∀ i < g.njobs, (g.thread i).Finished := by
  have hsub : maskBits g.finishedJobMask ⊆ Finset.range g.njobs := by
    intro k hk
    rw [mem_maskBits, h.finished k] at hk
    exact Finset.mem_range.mpr hk.1
  refine ⟨?_, ?_⟩
  · intro hcount i hi
    have heq : maskBits g.finishedJobMask = Finset.range g.njobs := by
      apply Finset.eq_of_subset_of_card_le hsub
      rw [Finset.card_range]
      exact hcount.ge
    have hmem : i ∈ maskBits g.finishedJobMask := heq ▸ Finset.mem_range.mpr hi
    rw [mem_maskBits, h.finished i] at hmem
    exact hmem.2
  · intro hall
    have heq : maskBits g.finishedJobMask = Finset.range g.njobs := by
      apply hsub.antisymm
      intro k hk
      have hk' := Finset.mem_range.mp hk
      rw [mem_maskBits, h.finished k]
      exact ⟨hk', hall k hk'⟩
    rw [popcount, heq, Finset.card_range]

/-- As long as a job is not finished, no other has counted them all. -/
theorem Inv.not_counted (h : g.Inv) (hi : i < g.njobs) (hf : ¬ (g.thread i).Finished) :
    ¬ (g.state = .done ∨ ∃ j < g.njobs, g.thread j = .last) :=
  fun hd => hf (h.counted hd i hi)

/-- **Every access keeps the masks right.** -/
theorem Inv.step {a : Label} (h : g.Inv) (hbit : ∀ k < 64, jobBit k = (1 : BitVec 64) <<< k)
    (hstep : Step jobBit g a g') : g'.Inv := by
  have hle := h.njobs_le
  cases hstep with
  | begin i hi ht =>
    have hnot := h.not_counted hi (by rw [ht]; exact id)
    rw [hbit i (by omega)]
    refine ⟨hle, h.pos, h.running.set (by omega) hi trivial, h.finished.keep (by rw [ht]; rfl),
      fun hd => ?_, fun hall => ?_⟩
    · exact absurd (hd.imp_right (exists_last_of_move (g := g) .begun nofun)) hnot
    · have hself := hall i hi
      rw [move_self] at hself
      exact absurd hself id
  | finish i hi ht =>
    have hnot := h.not_counted hi (by rw [ht]; exact id)
    rw [hbit i (by omega)]
    refine ⟨hle, h.pos, h.running.keep (by rw [ht]; rfl), h.finished.set (by omega) hi trivial,
      fun hd => ?_, fun _ => .inr ⟨i, hi, ?_⟩⟩
    · exact absurd (hd.imp_right (exists_last_of_move (g := g) .finished nofun)) hnot
    · rw [move_self]
      trivial
  | clear i hi ht =>
    have hfin : JobThread.cleared.Finished ↔ (g.thread i).Finished := by rw [ht]; rfl
    rw [hbit i (by omega)]
    refine ⟨hle, h.pos, h.running.clear (by omega) id, h.finished.keep hfin,
      fun hd k hk => ?_, fun _ => .inr ⟨i, hi, ?_⟩⟩
    · exact (move_iff (g := g) hfin k).mpr
        (h.counted (hd.imp_right (exists_last_of_move (g := g) .cleared nofun)) k hk)
    · rw [move_self]
      trivial
  | count i hi ht =>
    by_cases hcount : popcount g.finishedJobMask = g.njobs
    · -- all of them are finished, and the state is to be set
      have hall := h.popcount_eq_iff.mp hcount
      have hfin : JobThread.last.Finished ↔ (g.thread i).Finished := by rw [ht]; rfl
      rw [if_pos hcount]
      refine ⟨hle, h.pos, h.running.keep (by rw [ht]; rfl), h.finished.keep hfin,
        fun _ k hk => ?_, fun _ => .inr ⟨i, hi, ?_⟩⟩
      · exact (move_iff (g := g) hfin k).mpr (hall k hk)
      · rw [move_self]
        trivial
    · -- the others will still count
      have hfin : JobThread.ended.Finished ↔ (g.thread i).Finished := by rw [ht]; rfl
      rw [if_neg hcount]
      refine ⟨hle, h.pos, h.running.keep (by rw [ht]; rfl), h.finished.keep hfin,
        fun hd k hk => ?_, fun hall => ?_⟩
      · exact (move_iff (g := g) hfin k).mpr
          (h.counted (hd.imp_right (exists_last_of_move (g := g) .ended nofun)) k hk)
      · refine absurd (h.popcount_eq_iff.mpr ?_) hcount
        intro k hk
        exact (move_iff (g := g) hfin k).mp (hall k hk)
  | done i hi ht =>
    have hall := h.counted (.inr ⟨i, hi, ht⟩)
    have hfin : JobThread.ended.Finished ↔ (g.thread i).Finished := by rw [ht]; rfl
    refine ⟨hle, h.pos, h.running.keep (by rw [ht]; rfl), h.finished.keep hfin,
      fun _ k hk => ?_, fun _ => .inl rfl⟩
    exact (move_iff (g := g) hfin k).mpr (hall k hk)

/-- Every access is one less to come. -/
theorem Step.left_lt {a : Label} (hstep : Step jobBit g a g') : g'.left < g.left := by
  have hmove : ∀ (i : ℕ) (t : JobThread), i < g.njobs → t.left < (g.thread i).left →
      (g.move i t).left < g.left := by
    intro i t hi ht
    apply Finset.sum_lt_sum
    · intro k _
      rw [move_thread]
      split
      · rename_i hk
        exact hk ▸ ht.le
      · exact le_rfl
    · exact ⟨i, Finset.mem_range.mpr hi, by rw [move_self]; exact ht⟩
  cases hstep with
  | begin i hi ht => exact hmove i .begun hi (by rw [ht]; decide)
  | finish i hi ht => exact hmove i .finished hi (by rw [ht]; decide)
  | clear i hi ht => exact hmove i .cleared hi (by rw [ht]; decide)
  | count i hi ht =>
    split
    · exact hmove i .last hi (by rw [ht]; decide)
    · exact hmove i .ended hi (by rw [ht]; decide)
  | done i hi ht => exact hmove i .ended hi (by rw [ht]; decide)

/-- No thread waits for another: one that has not ended can go on. -/
theorem exists_step (jobBit : ℕ → BitVec 64) (hi : i < g.njobs) (ht : g.thread i ≠ .ended) :
    ∃ a g', Step jobBit g a g' := by
  cases hthread : g.thread i with
  | idle => exact ⟨_, _, .begin i hi hthread⟩
  | begun => exact ⟨_, _, .finish i hi hthread⟩
  | finished => exact ⟨_, _, .clear i hi hthread⟩
  | cleared => exact ⟨_, _, .count i hi hthread⟩
  | last => exact ⟨_, _, .done i hi hthread⟩
  | ended => exact absurd hthread ht

theorem left_start (njobs : ℕ) : (start njobs).left = 5 * njobs := by
  have h : ∀ i ∈ Finset.range (start njobs).njobs, ((start njobs).thread i).left = 5 :=
    fun _ _ => rfl
  rw [left, Finset.sum_const_nat h, Finset.card_range, mul_comm]
  rfl

theorem inv_start {njobs : ℕ} (hle : njobs ≤ 64) (hpos : 0 < njobs) : (start njobs).Inv where
  njobs_le := hle
  pos := hpos
  running k := by simp [start, JobThread.Running]
  finished k := by simp [start, JobThread.Finished]
  counted hd := by
    rcases hd with hd | ⟨i, -, hd⟩
    · cases hd
    · cases hd
  counts hall := absurd (hall 0 hpos) id

/-- With a bit of its own for every job, the end is found out. -/
theorem Inv.detects (h : g.Inv) : g.Detects := by
  have hbits : ∀ (mask : BitVec 64) (P : JobThread → Prop),
      (∀ k, mask.getLsbD k = true ↔ k < g.njobs ∧ P (g.thread k)) → g.OneBitEach mask P := by
    intro mask P hmask
    refine ⟨id, Set.injOn_id _, ?_⟩
    rw [Set.image_id]
    ext k
    rw [Finset.mem_coe, mem_maskBits, hmask]
    rfl
  refine ⟨hbits _ _ h.running, hbits _ _ h.finished, fun hd => h.counted (.inl hd), ?_⟩
  intro hall
  have hstate : g.state = .done := by
    refine (h.counts ?_).resolve_right ?_
    · intro i hi
      rw [hall i hi]
      trivial
    · rintro ⟨i, hi, hcounts⟩
      rw [hall i hi] at hcounts
      exact hcounts
  exact ⟨hstate, by rw [Iogen.running, hstate]; rfl⟩

/-! ## More jobs than bits -/

/-- A job that is idle can run to its end while the others rest. If it does not count all the
jobs, nothing but its own thread and the masks has changed. -/
theorem exists_jobRun (jobBit : ℕ → BitVec 64) (hi : i < g.njobs) (ht : g.thread i = .idle)
    (hmany : 64 < g.njobs) :
    ∃ ls g', Run (Step jobBit) g ls g' ∧ g'.njobs = g.njobs ∧ g'.state = g.state ∧
      g'.thread = Function.update g.thread i .ended := by
  let g₁ : Iogen := { g with runningJobMask := g.runningJobMask ||| jobBit i }.move i .begun
  let g₂ : Iogen := { g₁ with finishedJobMask := g₁.finishedJobMask ||| jobBit i }.move i .finished
  let g₃ : Iogen := { g₂ with runningJobMask := g₂.runningJobMask &&& ~~~jobBit i }.move i .cleared
  have hcount : popcount g₃.finishedJobMask ≠ g₃.njobs := by
    have hle := popcount_le g₃.finishedJobMask
    have hn : g₃.njobs = g.njobs := rfl
    omega
  have hlast : Step jobBit g₃ (.count i) (g₃.move i .ended) := by
    have h := @Step.count jobBit g₃ i hi (Function.update_self ..)
    rwa [if_neg hcount] at h
  refine ⟨_, g₃.move i .ended, .cons (.begin i hi ht) <|
    .cons (.finish (g := g₁) i hi (Function.update_self ..)) <|
    .cons (.clear (g := g₂) i hi (Function.update_self ..)) <| .single hlast, rfl, rfl, ?_⟩
  simp only [g₃, g₂, g₁, move, Function.update_idem]

/-- All jobs can run to their ends, one after the other, and leave the state as it was. -/
theorem exists_allEnded (jobBit : ℕ → BitVec 64) {njobs : ℕ} (hmany : 64 < njobs) :
    ∃ ls g, Run (Step jobBit) (start njobs) ls g ∧ g.njobs = njobs ∧ g.state = .running ∧
      ∀ i < njobs, g.thread i = .ended := by
  have hfirst : ∀ m ≤ njobs, ∃ ls g, Run (Step jobBit) (start njobs) ls g ∧ g.njobs = njobs ∧
      g.state = .running ∧ (∀ i < m, g.thread i = .ended) ∧
      ∀ i, m ≤ i → g.thread i = .idle := by
    intro m
    induction m with
    | zero => exact fun _ => ⟨[], _, .nil _, rfl, rfl, nofun, fun _ _ => rfl⟩
    | succ m ih =>
      intro hm
      obtain ⟨ls, g, hrun, hn, hstate, hended, hidle⟩ := ih (by omega)
      obtain ⟨ls', g', hrun', hn', hstate', hthread⟩ :=
        exists_jobRun jobBit (hn ▸ hm : m < g.njobs) (hidle m le_rfl) (hn ▸ hmany)
      refine ⟨ls ++ ls', g', hrun.append hrun', hn'.trans hn, hstate'.trans hstate, ?_, ?_⟩
      · intro i hi
        rw [hthread, Function.update_apply]
        split
        · rfl
        · exact hended i (by omega)
      · intro i hi
        rw [hthread, Function.update_of_ne (by omega)]
        exact hidle i (by omega)
  obtain ⟨ls, g, hrun, hn, hstate, hended, -⟩ := hfirst njobs le_rfl
  exact ⟨ls, g, hrun, hn, hstate, hended⟩

/-- The runs come to an end, and there the loop in `run` is left. -/
def Leaves (jobBit : ℕ → BitVec 64) (njobs : ℕ) : Prop :=
  ∀ ls g, Run (Step jobBit) (start njobs) ls g →
    ls.length ≤ 5 * njobs ∧ ((∀ a g', ¬ Step jobBit g a g') → g.running = false)

/-- **When the end of the run is found out**: the masks say who runs and who has ended, the
run is over with its last job, in every interleaving, and every run comes to that, exactly if
there are at most 64 jobs. -/
theorem detects_iff {njobs : ℕ} (hpos : 0 < njobs)
    (hbit : ∀ k < 64, jobBit k = (1 : BitVec 64) <<< k) :
    (∀ ls g, Run (Step jobBit) (start njobs) ls g → g.Detects) ∧ Leaves jobBit njobs ↔
      njobs ≤ 64 := by
  refine ⟨?_, ?_⟩
  · rintro ⟨h, -⟩
    by_contra hmany
    obtain ⟨ls, g, hrun, rfl, hstate, hended⟩ := exists_allEnded jobBit (Nat.not_le.mp hmany)
    have hdone := ((h ls g hrun).last hended).1
    rw [hstate] at hdone
    cases hdone
  · intro hle
    have hinv : ∀ {ls g}, Run (Step jobBit) (start njobs) ls g → g.Inv := fun hrun =>
      hrun.invariant (fun _ _ _ hi hst => hi.step hbit hst) (inv_start hle hpos)
    refine ⟨fun ls g hrun => (hinv hrun).detects, fun ls g hrun => ⟨?_, ?_⟩⟩
    · have hlen := hrun.length_add_le fun _ _ _ hst => hst.left_lt
      rw [left_start] at hlen
      omega
    · intro hstuck
      refine ((hinv hrun).detects.last ?_).2
      intro i hi
      by_contra ht
      obtain ⟨a, g', hst⟩ := exists_step jobBit hi ht
      exact hstuck a g' hst

/-- `1ULL << (job->id - 1)` on a machine that takes the shift modulo 64. -/
def shiftedBit (k : ℕ) : BitVec 64 := (1 : BitVec 64) <<< (k % 64)

theorem shiftedBit_eq (k : ℕ) (hk : k < 64) : shiftedBit k = (1 : BitVec 64) <<< k := by
  rw [shiftedBit, Nat.mod_eq_of_lt hk]

/-- 64 jobs are not too many. -/
theorem detects_sixtyFour :
    (∀ ls g, Run (Step shiftedBit) (start 64) ls g → g.Detects) ∧ Leaves shiftedBit 64 :=
  (detects_iff (by decide) shiftedBit_eq).mpr le_rfl

/-- **65 jobs never end**: all of them have ended, and the loop in `run` goes on. -/
theorem not_detects_many :
    (∃ ls g, Run (Step shiftedBit) (start 65) ls g ∧ (∀ i < 65, g.thread i = .ended) ∧
      g.state = .running ∧ g.running = true) ∧
      ¬ ∀ ls g, Run (Step shiftedBit) (start 65) ls g → g.Detects := by
  obtain ⟨ls, g, hrun, hn, hstate, hended⟩ :=
    exists_allEnded shiftedBit (by decide : 64 < 65)
  refine ⟨⟨ls, g, hrun, hended, hstate, by rw [Iogen.running, hstate]; rfl⟩, ?_⟩
  intro h
  have hdone := ((h ls g hrun).last (hn ▸ hended)).1
  rw [hstate] at hdone
  cases hdone

end Iogen

end ChamberSpo

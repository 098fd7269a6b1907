import ChamberSpo.Engines

/-!
# The submission ring of libaio

`libaio_enqueue` puts an iocb behind the others in a ring of `iodepth` slots, `libaio_submit` gives
them to `io_submit` from the front. A call gets no more than what stands before the end of the
array, and may take fewer.

* `LibaioRun` — reads and writes are enqueued and submitted, in any order.
* `LibaioData.Follows` — what is in the kernel and in the ring, one after the other, is what was
  enqueued. `LibaioRun.follows`: in every run.
-/

namespace ChamberSpo

/-- The iocbs in the ring, first to last. -/
def LibaioData.ring (ld : LibaioData) : List ℕ :=
  ringQueue ld.iocbs ld.iodepth ld.head ld.nrEnqueued

/-- The calls of a run, from `libaio_init` on. `enqueued` are the bios that `libaio_enqueue` took,
in their order. `io_submit` takes some of what it is given, or fails. -/
inductive LibaioRun (oldKernel : Bool) (iodepth : ℕ) : List ℕ → LibaioData → Prop
  | init : LibaioRun oldKernel iodepth [] (libaioInit iodepth)
  | enqueue {enqueued ld opcode ld'} (id : ℕ) (answers : EngineAnswers) :
    LibaioRun oldKernel iodepth enqueued ld → opcode = .read ∨ opcode = .write →
    libaioEnqueue oldKernel ld opcode id answers = some (0, ld') →
    LibaioRun oldKernel iodepth (enqueued ++ [id]) ld'
  | refuse {enqueued ld opcode res ld'} (id : ℕ) (answers : EngineAnswers) :
    LibaioRun oldKernel iodepth enqueued ld → opcode = .read ∨ opcode = .write →
    libaioEnqueue oldKernel ld opcode id answers = some (res, ld') → res ≠ 0 →
    LibaioRun oldKernel iodepth enqueued ld'
  | submit {enqueued ld res ld'} (results : List Int) :
    LibaioRun oldKernel iodepth enqueued ld → (∀ r ∈ results, r ≠ 0) →
    libaioSubmit results ld = some (res, ld') → LibaioRun oldKernel iodepth enqueued ld'

/-- What was `enqueued` is in the kernel, and the rest of it in the ring. -/
structure LibaioData.Follows (ld : LibaioData) (iodepth : ℕ) (enqueued : List ℕ) : Prop where
  depth : ld.iodepth = iodepth
  holds : ld.Holds ld.ring
  /-- there is no slot to go to -/
  still : iodepth = 0 → ld.tail = ld.head
  split : ld.kernel ++ ld.ring = enqueued

variable {oldKernel : Bool} {iodepth : ℕ} {enqueued bios : List ℕ} {ld ld' : LibaioData}
  {opcode : BioOpcode} {id : ℕ} {answers : EngineAnswers} {res : Int} {results : List Int}

theorem LibaioData.Holds.ring_eq (h : ld.Holds bios) : ld.ring = bios := by
  rw [LibaioData.ring, h.nrEnqueued]
  exact h.bios

theorem LibaioData.Follows.tail_eq (h : ld.Follows iodepth enqueued) :
    ld.tail = (ld.head + ld.nrEnqueued) % iodepth := by
  have hlength : ld.ring.length = ld.nrEnqueued := h.holds.nrEnqueued.symm
  rcases Nat.eq_zero_or_pos iodepth with hzero | hpos
  · have hle := h.holds.le
    rw [hlength, h.depth] at hle
    have hnone : ld.nrEnqueued = 0 := by omega
    rw [hzero, Nat.mod_zero, hnone, Nat.add_zero]
    exact h.still hzero
  · have htail := h.holds.tail (h.depth ▸ hpos)
    rw [htail, hlength, h.depth]

theorem LibaioData.Follows.nrEnqueued_le (h : ld.Follows iodepth enqueued) :
    ld.nrEnqueued ≤ iodepth := by
  rw [← h.depth, h.holds.nrEnqueued]
  exact h.holds.le

theorem libaioInit_follows (iodepth : ℕ) : (libaioInit iodepth).Follows iodepth [] where
  depth := rfl
  holds := libaioInit_holds iodepth
  still _ := rfl
  split := rfl

/-- A read or a write is put in the ring, or it is refused and nothing changes. -/
theorem libaioEnqueue_follows (h : ld.Follows iodepth enqueued)
    (hopcode : opcode = .read ∨ opcode = .write)
    (he : libaioEnqueue oldKernel ld opcode id answers = some (res, ld')) :
    ld'.Follows iodepth (if res = 0 then enqueued ++ [id] else enqueued) := by
  have hcases : res = -1 ∧ ld' = ld ∨ ld.nrEnqueued < ld.iodepth ∧ res = 0 ∧ ld' = { ld with
      iocbs := Function.update ld.iocbs ld.tail id
      tail := (ld.tail + 1) % ld.iodepth
      nrEnqueued := ld.nrEnqueued + 1 } := by
    rcases hopcode with rfl | rfl
    all_goals
      simp only [libaioEnqueue] at he
      split at he
      · cases he
        exact .inl ⟨rfl, rfl⟩
      · rename_i hroom
        cases he
        exact .inr ⟨Nat.lt_of_not_le hroom, rfl, rfl⟩
  rcases hcases with ⟨rfl, rfl⟩ | ⟨hroom, rfl, rfl⟩
  · exact h
  · have hpush := h.holds.push (h.holds.nrEnqueued ▸ hroom) id
    have hpos : iodepth ≠ 0 := by
      rw [← h.depth]
      omega
    refine ⟨h.depth, ?_, fun hzero => absurd hzero hpos, ?_⟩
    · rw [hpush.ring_eq]
      exact hpush
    · rw [hpush.ring_eq, if_pos rfl, ← h.split, List.append_assoc]

/-- **`libaio_submit`** moves iocbs from the front of the ring to the kernel: all of them if it
returns 0. -/
theorem libaioSubmit_follows (h : ld.Follows iodepth enqueued) (hresults : ∀ r ∈ results, r ≠ 0)
    (hs : libaioSubmit results ld = some (res, ld')) :
    ld'.Follows iodepth enqueued ∧ ld.kernel <+: ld'.kernel ∧ (res = 0 → ld'.ring = []) := by
  obtain ⟨taken, rest, hring, hrest, hkernel, hdepth, hend⟩ := libaioSubmit_order h.holds hs
  refine ⟨⟨hdepth.trans h.depth, ?_, ?_, ?_⟩, ⟨taken, hkernel.symm⟩, ?_⟩
  · rw [hrest.ring_eq]
    exact hrest
  · -- nothing is in a ring without slots
    intro hzero
    have hnone : ld.nrEnqueued = 0 := by
      have := h.nrEnqueued_le
      omega
    cases results with
    | nil =>
      rw [libaioSubmit, if_pos hnone] at hs
      cases hs
      exact h.still hzero
    | cons r results =>
      rw [libaioSubmit, if_pos (.inl hnone)] at hs
      cases hs
  · rw [hrest.ring_eq, hkernel, List.append_assoc, ← hring]
    exact h.split
  · intro hres
    rw [hrest.ring_eq]
    rcases hend with ⟨-, hnil⟩ | ⟨hmem, -⟩
    · exact hnil
    · exact absurd hres (hresults res hmem)

/-- In every run the kernel and the ring hold what was enqueued. -/
theorem LibaioRun.follows (run : LibaioRun oldKernel iodepth enqueued ld) :
    ld.Follows iodepth enqueued := by
  induction run with
  | init => exact libaioInit_follows iodepth
  | enqueue id answers _ hopcode he ih => exact libaioEnqueue_follows ih hopcode he
  | refuse id answers _ hopcode he hres ih =>
    have h := libaioEnqueue_follows ih hopcode he
    rwa [if_neg hres] at h
  | submit results _ hresults hs ih => exact (libaioSubmit_follows ih hresults hs).1

/-- **The submission ring.** The tail is where the iocbs in the ring end, and there are no more of
them than slots. The kernel has taken the first of the enqueued iocbs, each once and in their
order, and the others are in the ring. When `libaio_submit` returns 0 the kernel has all of them;
when it returns an error, those that the kernel has not taken stay in the ring in their order. -/
theorem libaio_ring (run : LibaioRun oldKernel iodepth enqueued ld) :
    ld.tail = (ld.head + ld.nrEnqueued) % iodepth ∧ ld.nrEnqueued ≤ iodepth ∧
      ld.kernel ++ ld.ring = enqueued ∧
      ∀ results res ld', (∀ r ∈ results, r ≠ 0) → libaioSubmit results ld = some (res, ld') →
        ld.kernel <+: ld'.kernel ∧ ld'.kernel <+: enqueued ∧
        (res = 0 → ld'.nrEnqueued = 0 ∧ ld'.kernel = enqueued) ∧
        (res ≠ 0 → ld'.ring = enqueued.drop ld'.kernel.length) := by
  have h := run.follows
  refine ⟨h.tail_eq, h.nrEnqueued_le, h.split, ?_⟩
  intro results res ld' hresults hs
  obtain ⟨hafter, hgrows, hall⟩ := libaioSubmit_follows h hresults hs
  refine ⟨hgrows, ⟨ld'.ring, hafter.split⟩, ?_, ?_⟩
  · intro hres
    have hnil := hall hres
    refine ⟨?_, ?_⟩
    · rw [hafter.holds.nrEnqueued, hnil, List.length_nil]
    · rw [← hafter.split, hnil, List.append_nil]
  · intro _
    rw [← hafter.split, List.drop_left]

/-- A ring of two slots: the kernel takes the first of two iocbs and fails, and a third goes to the
slot of the first. -/
theorem libaio_ring_wrap : ∃ ld, LibaioRun false 2 [7, 8, 9] ld ∧ ld.kernel = [7] ∧
    ld.tail = (ld.head + ld.nrEnqueued) % 2 ∧ ld.nrEnqueued ≤ 2 ∧
    ld.kernel ++ ld.ring = [7, 8, 9] := by
  have first : LibaioRun false 2 [7] _ := .enqueue 7 ⟨[], 0⟩ .init (.inl rfl) rfl
  have second : LibaioRun false 2 [7, 8] _ := .enqueue 8 ⟨[], 0⟩ first (.inr rfl) rfl
  have failed : LibaioRun false 2 [7, 8] _ := .submit [1, -11] second (by decide) rfl
  have run : LibaioRun false 2 [7, 8, 9] _ := .enqueue 9 ⟨[], 0⟩ failed (.inl rfl) rfl
  obtain ⟨htail, hle, hsplit, -⟩ := libaio_ring run
  exact ⟨_, run, rfl, htail, hle, hsplit⟩

end ChamberSpo

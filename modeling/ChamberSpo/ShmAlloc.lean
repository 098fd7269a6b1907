import ChamberSpo.Buffer
import Mathlib.Algebra.Order.Floor.Div
import Mathlib.Data.Set.Lattice
import Mathlib.Order.CompletePartialOrder
import Mathlib.Order.Interval.Set.LinearOrder

/-!
# The allocator of the shared memory

The environment of the simulator hands out buffers of a segment that is shared by its processes. A
counter in the segment says how much of it is used, and nothing is given back.

* `spdkMalloc`, `spdkZmalloc` — one request. The other functions call these (`AllocFn.exec`).
* `allocRun` — a sequence of calls, with what each one has returned.
* `SafeRun` — the buffers are in the segment and apart from each other, and a request that does not
  fit changes nothing.
* `AllocRoom` — the buffers, placed one behind the other, end in the segment and the counter holds it.

The code never looks at the size of the segment. `allocRun_safe_of_room` says what it needs from its
callers, and `room_of_allocRun_safe` that this is what they have to see to.
-/

namespace ChamberSpo

/-- A power of two, as `align` is one. -/
def IsPow (align : BitVec 64) : Prop := ∃ k, align.toNat = 2 ^ k

/-- The arguments of a request. -/
structure AllocRequest where
  size : BitVec 64
  align : BitVec 64
  /-- `phys_addr` is not `NULL` -/
  physAddr : Bool
  pow : IsPow align

/-- What a request returns, with what it has written to `phys_addr`. -/
structure AllocReturn where
  buf : BitVec 64
  phys : Option (BitVec 64)

/-- The segment of a process. It holds what is reserved at its head. -/
structure ShmSegment where
  length : ℕ
  /-- `phys_base` -/
  physBase : BitVec 64
  head : 132 ≤ length

/-- `shm_base`, which is `SHM_BASE` -/
def shmBase : BitVec 64 := 0x100000000

/-- `*shm_used` -/
def shmUsed (mem : Buf) : BitVec 32 := mem.load 32 128

def setShmUsed (mem : Buf) (used : BitVec 32) : Buf := mem.store 128 used

/-- What `__setup_ipc` of the primary process leaves in the segment. -/
def setupIpc (mem : Buf) : Buf := setShmUsed mem (128 + 4)

section Program

variable (seg : ShmSegment)

/-- `virt_to_phys` -/
def virtToPhys (vaddr : BitVec 64) : BitVec 64 := seg.physBase + (vaddr - shmBase)

/-- The padding of `spdk_malloc`. -/
def padUsed (align : BitVec 64) (mem : Buf) : Buf :=
  let used := (shmUsed mem).setWidth 64
  if used % align ≠ 0 then setShmUsed mem ((used + (align - used % align)).setWidth 32) else mem

/-- `spdk_malloc` -/
def spdkMalloc (size align : BitVec 64) (physAddr : Bool) (mem : Buf) : AllocReturn × Buf :=
  let align := if align < 8 then 8 else align
  let mem := padUsed align mem
  let buf := shmBase + (shmUsed mem).setWidth 64
  let phys := if buf ≠ 0 ∧ physAddr = true then some (virtToPhys seg buf) else none
  ({ buf := buf, phys := phys },
    setShmUsed mem (((shmUsed mem).setWidth 64 + size).setWidth 32))

/-- `memset(buf, 0, size)`; `none` when a byte is outside of the segment. -/
def memsetZero (buf size : BitVec 64) (mem : Buf) : Option Buf :=
  let off := (buf - shmBase).toNat
  if off + size.toNat ≤ seg.length then some (mem.fill off 0 size.toNat) else none

/-- `spdk_zmalloc` -/
def spdkZmalloc (size align : BitVec 64) (physAddr : Bool) (mem : Buf) : Option (AllocReturn × Buf) :=
  let (ret, mem) := spdkMalloc seg size align physAddr mem
  if ret.buf ≠ 0 then (memsetZero seg ret.buf size mem).map fun mem => (ret, mem)
  else some (ret, mem)

/-- `spdk_dma_malloc_socket` -/
def spdkDmaMallocSocket (size align : BitVec 64) (physAddr : Bool) (mem : Buf) : AllocReturn × Buf :=
  spdkMalloc seg size align physAddr mem

/-- `spdk_dma_zmalloc_socket` -/
def spdkDmaZmallocSocket (size align : BitVec 64) (physAddr : Bool) (mem : Buf) :
    Option (AllocReturn × Buf) :=
  spdkZmalloc seg size align physAddr mem

/-- `spdk_dma_malloc` -/
def spdkDmaMalloc (size align : BitVec 64) (physAddr : Bool) (mem : Buf) : AllocReturn × Buf :=
  spdkDmaMallocSocket seg size align physAddr mem

/-- `spdk_dma_zmalloc` -/
def spdkDmaZmalloc (size align : BitVec 64) (physAddr : Bool) (mem : Buf) :
    Option (AllocReturn × Buf) :=
  spdkDmaZmallocSocket seg size align physAddr mem

/-- `spdk_dma_realloc`, which keeps nothing of the old buffer. -/
def spdkDmaRealloc (_buf size align : BitVec 64) (physAddr : Bool) (mem : Buf) : AllocReturn × Buf :=
  spdkDmaMalloc seg size align physAddr mem

/-- `spdk_free` -/
def spdkFree (_buf : BitVec 64) (mem : Buf) : Buf := mem

/-- `spdk_dma_free` -/
def spdkDmaFree (buf : BitVec 64) (mem : Buf) : Buf := spdkFree buf mem

end Program

/-! ## Runs -/

/-- The functions that hand out a buffer. -/
inductive AllocFn where
  | malloc | zmalloc | dmaMallocSocket | dmaZmallocSocket | dmaMalloc | dmaZmalloc
  | dmaRealloc (buf : BitVec 64)

/-- `none` is an access outside of the segment. -/
def AllocFn.exec (seg : ShmSegment) (fn : AllocFn) (r : AllocRequest) (mem : Buf) :
    Option (AllocReturn × Buf) :=
  match fn with
  | malloc => some (spdkMalloc seg r.size r.align r.physAddr mem)
  | zmalloc => spdkZmalloc seg r.size r.align r.physAddr mem
  | dmaMallocSocket => some (spdkDmaMallocSocket seg r.size r.align r.physAddr mem)
  | dmaZmallocSocket => spdkDmaZmallocSocket seg r.size r.align r.physAddr mem
  | dmaMalloc => some (spdkDmaMalloc seg r.size r.align r.physAddr mem)
  | dmaZmalloc => spdkDmaZmalloc seg r.size r.align r.physAddr mem
  | dmaRealloc buf => some (spdkDmaRealloc seg buf r.size r.align r.physAddr mem)

/-- A call of the allocator. -/
inductive AllocCall where
  | request (fn : AllocFn) (r : AllocRequest)
  | free (buf : BitVec 64)
  | dmaFree (buf : BitVec 64)

/-- A request with what it has returned and the segment around it. -/
structure AllocStep where
  request : AllocRequest
  before : Buf
  ret : AllocReturn
  after : Buf

/-- The requests of a sequence of calls. -/
def allocRun (seg : ShmSegment) : List AllocCall → Buf → Option (List AllocStep)
  | [], _ => some []
  | .free buf :: calls, mem => allocRun seg calls (spdkFree buf mem)
  | .dmaFree buf :: calls, mem => allocRun seg calls (spdkDmaFree buf mem)
  | .request fn r :: calls, mem => do
    let (ret, after) ← fn.exec seg r mem
    let steps ← allocRun seg calls after
    return { request := r, before := mem, ret := ret, after := after } :: steps

/-! ## What is promised -/

/-- A part of the segment. -/
structure Extent where
  start : ℕ
  size : ℕ

namespace Extent

def stop (e : Extent) : ℕ := e.start + e.size

def bytes (e : Extent) : Set ℕ := Set.Ico e.start e.stop

/-- What is reserved for memzones, and the counter. -/
def reserved : Extent := { start := 0, size := 132 }

theorem disjoint_of_le {e e' : Extent} (h : e.stop ≤ e'.start) : Disjoint e.bytes e'.bytes := by
  rw [bytes, bytes, Set.disjoint_left]
  rintro i ⟨-, hi⟩ ⟨hi', -⟩
  omega

end Extent

/-- The alignment of a request, which is at least that of a pointer. -/
def AllocRequest.alignment (r : AllocRequest) : ℕ := max 8 r.align.toNat

/-- The buffer of a step. -/
def AllocStep.extent (step : AllocStep) : Extent :=
  { start := (step.ret.buf - shmBase).toNat, size := step.request.size.toNat }

/-- The buffers that have been handed out. -/
def handedOut (steps : List AllocStep) : List Extent :=
  steps.filterMap fun step => if step.ret.buf = 0 then none else some step.extent

/-- There is a place for the request behind what is held. -/
def AllocRequest.Fits (seg : ShmSegment) (held : List Extent) (r : AllocRequest) : Prop :=
  ∃ start, r.alignment ∣ start ∧ (∀ e ∈ held, e.stop ≤ start) ∧ start + r.size.toNat ≤ seg.length

/-- The buffer of a request: aligned, in the segment, and its physical address maps back to it. -/
structure AllocStep.Placed (seg : ShmSegment) (step : AllocStep) : Prop where
  aligned : step.request.align.toNat ∣ step.extent.start
  inside : step.extent.stop ≤ seg.length
  phys : step.request.physAddr = true →
    ∃ phys, step.ret.phys = some phys ∧ shmBase + (phys - seg.physBase) = step.ret.buf

/-- **What a run promises** to those who hold the buffers `held`. -/
structure SafeRun (seg : ShmSegment) (held : List Extent) (steps : List AllocStep) : Prop where
  placed : ∀ step ∈ steps, step.ret.buf ≠ 0 → step.Placed seg
  disjoint : (held ++ handedOut steps).Pairwise fun e e' => Disjoint e.bytes e'.bytes
  refused : ∀ pre step post, steps = pre ++ step :: post →
    ¬ step.request.Fits seg (held ++ handedOut pre) →
      step.ret.buf = 0 ∧ step.after = step.before

/-- The next multiple of `a`. -/
def alignUp (a n : ℕ) : ℕ := a * (n ⌈/⌉ a)

/-- The buffers of the calls, each at the next multiple of its alignment behind the one before, end
at `limit` or before. -/
def AllocRoom (limit : ℕ) : ℕ → List AllocCall → Prop
  | _, [] => True
  | used, .free _ :: calls => AllocRoom limit used calls
  | used, .dmaFree _ :: calls => AllocRoom limit used calls
  | used, .request _ r :: calls =>
    alignUp r.alignment used + r.size.toNat ≤ limit ∧
      AllocRoom limit (alignUp r.alignment used + r.size.toNat) calls

/-! ## One request -/

section AlignUp

theorem dvd_alignUp (a n : ℕ) : a ∣ alignUp a n := Dvd.intro _ rfl

variable {a : ℕ} (ha : 0 < a) (n : ℕ)

include ha

theorem le_alignUp : n ≤ alignUp a n := by
  have h := le_smul_ceilDiv (a := a) (b := n) ha
  exact h

theorem alignUp_le {m : ℕ} (hdvd : a ∣ m) (hle : n ≤ m) : alignUp a n ≤ m := by
  obtain ⟨k, rfl⟩ := hdvd
  apply Nat.mul_le_mul_left a
  rw [ceilDiv_le_iff_le_mul ha]
  exact hle

/-- What the code adds. -/
theorem alignUp_eq : alignUp a n = if n % a = 0 then n else n + (a - n % a) := by
  have hmod := Nat.mod_lt n ha
  have hdiv := Nat.div_add_mod n a
  split
  · refine le_antisymm (alignUp_le ha n (Nat.dvd_of_mod_eq_zero ‹_›) le_rfl) (le_alignUp ha n)
  · refine le_antisymm (alignUp_le ha n ⟨n / a + 1, ?_⟩ ?_) ?_
    · rw [Nat.mul_add_one]
      omega
    · omega
    · obtain ⟨k, hk⟩ := dvd_alignUp a n
      have hle := le_alignUp ha n
      rw [hk] at hle ⊢
      have hlt : n / a < k := by
        by_contra hge
        have := Nat.mul_le_mul_left a (Nat.le_of_not_lt hge)
        omega
      have := Nat.mul_le_mul_left a hlt
      rw [Nat.succ_eq_add_one, Nat.mul_add_one] at this
      omega

end AlignUp

/-- The place of a request. -/
def AllocRequest.start (r : AllocRequest) (mem : Buf) : ℕ :=
  alignUp r.alignment (shmUsed mem).toNat

theorem shmUsed_setShmUsed (mem : Buf) (used : BitVec 32) : shmUsed (setShmUsed mem used) = used :=
  Buf.load_store (by decide) mem 128 used

theorem AllocRequest.alignment_pos (r : AllocRequest) : 0 < r.alignment :=
  lt_of_lt_of_le (by decide) (le_max_left _ _)

theorem AllocRequest.dvd_alignment (r : AllocRequest) : r.align.toNat ∣ r.alignment := by
  obtain ⟨k, hk⟩ := r.pow
  rw [alignment, hk]
  rcases le_total k 3 with hle | hle
  · rw [max_eq_left (Nat.pow_le_pow_right Nat.two_pos hle)]
    exact Nat.pow_dvd_pow 2 hle
  · rw [max_eq_right (Nat.pow_le_pow_right Nat.two_pos hle)]

/-- The alignment in the code. -/
theorem AllocRequest.toNat_align (r : AllocRequest) :
    (if r.align < 8 then 8 else r.align).toNat = r.alignment := by
  have hlt : r.align < 8 ↔ r.align.toNat < 8 := Iff.rfl
  rw [alignment]
  split
  · exact (max_eq_left (Nat.le_of_lt (hlt.mp ‹_›))).symm
  · exact (max_eq_right (Nat.le_of_not_lt fun h => ‹¬ _› (hlt.mpr h))).symm

section One

variable (seg : ShmSegment) (r : AllocRequest) (mem : Buf)

theorem toNat_used64 : ((shmUsed mem).setWidth 64).toNat = (shmUsed mem).toNat :=
  BitVec.toNat_setWidth_of_le (by decide)

/-- The padding moves the counter to the next multiple. -/
theorem toNat_padUsed {align : BitVec 64} (hpos : 0 < align.toNat) :
    (shmUsed (padUsed align mem)).toNat = alignUp align.toNat (shmUsed mem).toNat % 2 ^ 32 := by
  have hmod : ((shmUsed mem).setWidth 64 % align).toNat
      = (shmUsed mem).toNat % align.toNat := by
    rw [BitVec.toNat_umod, toNat_used64]
  have hlt := Nat.mod_lt (shmUsed mem).toNat hpos
  rw [padUsed, alignUp_eq hpos]
  by_cases hzero : (shmUsed mem).toNat % align.toNat = 0
  · have heq : (shmUsed mem).setWidth 64 % align = 0 :=
      BitVec.eq_of_toNat_eq (hmod.trans hzero)
    rw [if_neg (not_not.mpr heq), if_pos hzero, Nat.mod_eq_of_lt (shmUsed mem).isLt]
  · have hne : (shmUsed mem).setWidth 64 % align ≠ 0 := by
      intro heq
      rw [heq] at hmod
      exact hzero hmod.symm
    have hsub : (align - (shmUsed mem).setWidth 64 % align).toNat
        = align.toNat - (shmUsed mem).toNat % align.toNat := by
      rw [BitVec.toNat_sub_of_le, hmod]
      rw [BitVec.le_def, hmod]
      exact Nat.le_of_lt hlt
    rw [if_pos hne, if_neg hzero, shmUsed_setShmUsed, BitVec.toNat_setWidth, BitVec.toNat_add,
      hsub, toNat_used64]
    exact Nat.mod_mod_of_dvd _ (by decide)

theorem shmBase_add_ne_zero (off : BitVec 32) : shmBase + off.setWidth 64 ≠ 0 := by
  intro h
  have hnat := congrArg BitVec.toNat h
  have hlt := off.isLt
  rw [BitVec.toNat_add, BitVec.toNat_setWidth_of_le (by decide)] at hnat
  change (2 ^ 32 + off.toNat) % 2 ^ 64 = 0 at hnat
  omega

/-- **What `spdk_malloc` does**: it returns the place of the request, and the counter goes behind
the buffer, both in 32 bits. Nothing but the counter changes. -/
theorem spdkMalloc_spec {ret : AllocReturn} {mem' : Buf}
    (h : spdkMalloc seg r.size r.align r.physAddr mem = (ret, mem')) :
    ret.buf ≠ 0 ∧ (ret.buf - shmBase).toNat = r.start mem % 2 ^ 32 ∧
      (r.physAddr = true → ret.phys = some (virtToPhys seg ret.buf)) ∧
      (shmUsed mem').toNat = (r.start mem % 2 ^ 32 + r.size.toNat) % 2 ^ 32 := by
  have hpos : 0 < (if r.align < 8 then 8 else r.align).toNat := by
    rw [r.toNat_align]
    exact r.alignment_pos
  have hpad := toNat_padUsed mem hpos
  rw [r.toNat_align, ← AllocRequest.start] at hpad
  rw [spdkMalloc] at h
  generalize padUsed _ mem = padded at h hpad
  obtain ⟨rfl, rfl⟩ := Prod.mk.inj h
  refine ⟨shmBase_add_ne_zero _, ?_, ?_, ?_⟩
  · rw [← hpad, add_sub_cancel_left, toNat_used64]
  · intro hphys
    exact if_pos ⟨shmBase_add_ne_zero _, hphys⟩
  · rw [shmUsed_setShmUsed, BitVec.toNat_setWidth, BitVec.toNat_add, toNat_used64, hpad]
    exact Nat.mod_mod_of_dvd _ (by decide)

/-- Every function is one of two. -/
theorem AllocFn.exec_cases (fn : AllocFn) :
    fn.exec seg r mem = some (spdkMalloc seg r.size r.align r.physAddr mem) ∨
      fn.exec seg r mem = spdkZmalloc seg r.size r.align r.physAddr mem := by
  cases fn with
  | malloc => exact .inl rfl
  | zmalloc => exact .inr rfl
  | dmaMallocSocket => exact .inl rfl
  | dmaZmallocSocket => exact .inr rfl
  | dmaMalloc => exact .inl rfl
  | dmaZmalloc => exact .inr rfl
  | dmaRealloc buf => exact .inl rfl

theorem spdkZmalloc_eq {ret : AllocReturn} {padded : Buf}
    (h : spdkMalloc seg r.size r.align r.physAddr mem = (ret, padded)) :
    spdkZmalloc seg r.size r.align r.physAddr mem
      = (memsetZero seg ret.buf r.size padded).map fun mem => (ret, mem) := by
  rw [spdkZmalloc, h]
  exact if_pos (spdkMalloc_spec seg r mem h).1

/-- A request never returns `NULL`. -/
theorem AllocFn.exec_ret {fn : AllocFn} {ret : AllocReturn} {mem' : Buf}
    (h : fn.exec seg r mem = some (ret, mem')) :
    ret.buf ≠ 0 := by
  obtain ⟨ret', padded, hmalloc⟩ : ∃ ret' padded,
      spdkMalloc seg r.size r.align r.physAddr mem = (ret', padded) := ⟨_, _, rfl⟩
  have hret : ret = ret' := by
    rcases fn.exec_cases seg r mem with hexec | hexec
    · rw [hexec, hmalloc] at h
      exact (Prod.mk.inj (Option.some.inj h)).1.symm
    · rw [hexec, spdkZmalloc_eq seg r mem hmalloc] at h
      obtain ⟨_, -, heq⟩ := Option.map_eq_some_iff.mp h
      exact (Prod.mk.inj heq).1.symm
  rw [hret]
  exact (spdkMalloc_spec seg r mem hmalloc).1

/-- A fill behind the counter leaves it as it is. -/
theorem shmUsed_fill {off n : ℕ} (h : 132 ≤ off) : shmUsed (mem.fill off 0 n) = shmUsed mem := by
  refine Buf.load_congr fun i hi => Buf.copy_out (.inl ?_)
  omega

/-- **A request with room behind the counter** gets this place, and the counter goes behind it. -/
theorem AllocFn.exec_of_room (fn : AllocFn) (hused : 132 ≤ (shmUsed mem).toNat)
    (hlen : r.start mem + r.size.toNat ≤ seg.length)
    (hcounter : r.start mem + r.size.toNat < 2 ^ 32) :
    ∃ ret mem', fn.exec seg r mem = some (ret, mem') ∧ ret.buf ≠ 0 ∧
      (ret.buf - shmBase).toNat = r.start mem ∧
      (r.physAddr = true → ret.phys = some (virtToPhys seg ret.buf)) ∧
      (shmUsed mem').toNat = r.start mem + r.size.toNat := by
  obtain ⟨ret, padded, hmalloc⟩ : ∃ ret padded,
      spdkMalloc seg r.size r.align r.physAddr mem = (ret, padded) := ⟨_, _, rfl⟩
  obtain ⟨hne, hoff, hphys, hafter⟩ := spdkMalloc_spec seg r mem hmalloc
  rw [Nat.mod_eq_of_lt (lt_of_le_of_lt (Nat.le_add_right _ _) hcounter)] at hoff hafter
  rw [Nat.mod_eq_of_lt hcounter] at hafter
  rcases fn.exec_cases seg r mem with hexec | hexec
  · exact ⟨ret, padded, by rw [hexec, hmalloc], hne, hoff, hphys, hafter⟩
  · refine ⟨ret, padded.fill (r.start mem) 0 r.size.toNat, ?_, hne, hoff, hphys, ?_⟩
    · rw [hexec, spdkZmalloc_eq seg r mem hmalloc, memsetZero, hoff, if_pos hlen, Option.map_some]
    · have hstart : (shmUsed mem).toNat ≤ r.start mem := le_alignUp r.alignment_pos _
      rw [shmUsed_fill padded (hused.trans hstart), hafter]

end One

/-! ## All requests -/

section Runs

variable {seg : ShmSegment} {held : List Extent} {used : ℕ} {mem : Buf}

theorem handedOut_cons (step : AllocStep) (steps : List AllocStep) :
    handedOut (step :: steps) = handedOut [step] ++ handedOut steps :=
  List.filterMap_append (l := [step])

theorem handedOut_singleton {step : AllocStep} (h : step.ret.buf ≠ 0) :
    handedOut [step] = [step.extent] := by
  rw [handedOut, List.filterMap_cons, if_neg h, List.filterMap_nil]

/-- What is promised of a run is promised of its first request, and of the others to those who hold
one buffer more. -/
theorem safeRun_cons (step : AllocStep) (steps : List AllocStep) :
    SafeRun seg held (step :: steps) ↔
      (step.ret.buf ≠ 0 → step.Placed seg) ∧
      (¬ step.request.Fits seg held → step.ret.buf = 0 ∧ step.after = step.before) ∧
      SafeRun seg (held ++ handedOut [step]) steps := by
  refine ⟨?_, ?_⟩
  · intro h
    refine ⟨h.placed step List.mem_cons_self, ?_, ?_, ?_, ?_⟩
    · intro hfits
      apply h.refused [] step steps rfl
      rw [handedOut, List.filterMap_nil, List.append_nil]
      exact hfits
    · exact fun step' hstep' => h.placed step' (List.mem_cons_of_mem _ hstep')
    · rw [List.append_assoc, ← handedOut_cons]
      exact h.disjoint
    · intro pre step' post hsteps hfits
      apply h.refused (step :: pre) step' post (by rw [hsteps, List.cons_append])
      rw [handedOut_cons, ← List.append_assoc]
      exact hfits
  · rintro ⟨hplaced, hrefused, h⟩
    refine ⟨List.forall_mem_cons.mpr ⟨hplaced, h.placed⟩, ?_, ?_⟩
    · rw [handedOut_cons, ← List.append_assoc]
      exact h.disjoint
    · intro pre step' post hsteps hfits
      cases pre with
      | nil =>
        obtain ⟨rfl, rfl⟩ := List.cons.inj hsteps
        rw [handedOut, List.filterMap_nil, List.append_nil] at hfits
        exact hrefused hfits
      | cons step'' pre =>
        obtain ⟨rfl, rfl⟩ := List.cons.inj hsteps
        rw [handedOut_cons, ← List.append_assoc] at hfits
        exact h.refused pre step' post rfl hfits

/-- The buffers that are held end where the counter says. -/
structure HeldUpTo (held : List Extent) (used : ℕ) : Prop where
  le : ∀ e ∈ held, e.stop ≤ used
  last : ∃ e ∈ held, e.stop = used
  disjoint : held.Pairwise fun e e' => Disjoint e.bytes e'.bytes

theorem HeldUpTo.snoc (h : HeldUpTo held used) {e : Extent} (he : used ≤ e.start) :
    HeldUpTo (held ++ [e]) e.stop := by
  have hlast : e ∈ held ++ [e] := List.mem_append_right _ (List.mem_singleton_self e)
  refine ⟨?_, ⟨e, hlast, rfl⟩, ?_⟩
  · intro e' he'
    rcases List.mem_append.mp he' with hmem | hmem
    · exact (h.le e' hmem).trans (he.trans (Nat.le_add_right _ _))
    · rw [List.mem_singleton.mp hmem]
  · refine List.pairwise_append.mpr ⟨h.disjoint, List.pairwise_singleton _ _, ?_⟩
    intro e' he' e'' he''
    rw [List.mem_singleton.mp he'']
    exact Extent.disjoint_of_le ((h.le e' he').trans he)

/-- There is a place if there is one directly behind what is held. -/
theorem HeldUpTo.fits_iff (h : HeldUpTo held used) (r : AllocRequest) :
    r.Fits seg held ↔ alignUp r.alignment used + r.size.toNat ≤ seg.length := by
  refine ⟨?_, ?_⟩
  · rintro ⟨start, hdvd, hbehind, hend⟩
    obtain ⟨e, he, hstop⟩ := h.last
    have hle := alignUp_le r.alignment_pos used hdvd (hstop ▸ hbehind e he)
    omega
  · intro hend
    refine ⟨_, dvd_alignUp r.alignment used, ?_, hend⟩
    exact fun e he => (h.le e he).trans (le_alignUp r.alignment_pos used)

/-- What `allocRun` does with a request. -/
theorem allocRun_request (fn : AllocFn) (r : AllocRequest) (calls : List AllocCall)
    (steps : List AllocStep) :
    allocRun seg (.request fn r :: calls) mem = some steps ↔
      ∃ ret after rest, fn.exec seg r mem = some (ret, after) ∧
        allocRun seg calls after = some rest ∧
        steps = { request := r, before := mem, ret := ret, after := after } :: rest := by
  change ((fn.exec seg r mem).bind fun p => (allocRun seg calls p.2).bind fun rest =>
    some ({ request := r, before := mem, ret := p.1, after := p.2 } :: rest)) = some steps ↔ _
  rw [Option.bind_eq_some_iff]
  refine ⟨?_, ?_⟩
  · rintro ⟨⟨ret, after⟩, hexec, hrest⟩
    obtain ⟨rest, hrun, heq⟩ := Option.bind_eq_some_iff.mp hrest
    exact ⟨ret, after, rest, hexec, hrun, (Option.some.inj heq).symm⟩
  · rintro ⟨ret, after, rest, hexec, hrun, rfl⟩
    exact ⟨(ret, after), hexec, Option.bind_eq_some_iff.mpr ⟨rest, hrun, rfl⟩⟩

/-- Where there is room for a request, it is served as promised. -/
theorem AllocFn.exec_placed (fn : AllocFn) (r : AllocRequest) (h : HeldUpTo held used)
    (hhead : 132 ≤ used) (hused : (shmUsed mem).toNat = used)
    (hlen : alignUp r.alignment used + r.size.toNat ≤ seg.length)
    (hcounter : alignUp r.alignment used + r.size.toNat < 2 ^ 32) :
    ∃ ret after, fn.exec seg r mem = some (ret, after) ∧
      (AllocStep.mk r mem ret after).Placed seg ∧
      HeldUpTo (held ++ handedOut [.mk r mem ret after]) (shmUsed after).toNat ∧
      (shmUsed after).toNat = alignUp r.alignment used + r.size.toNat := by
  have hstart : r.start mem = alignUp r.alignment used := by rw [AllocRequest.start, hused]
  rw [← hstart] at hlen hcounter ⊢
  obtain ⟨ret, after, hexec, hne, hoff, hphys, hafter⟩ :=
    fn.exec_of_room seg r mem (hused ▸ hhead) hlen hcounter
  refine ⟨ret, after, hexec, ⟨?_, ?_, ?_⟩, ?_, hafter⟩
  · change r.align.toNat ∣ (ret.buf - shmBase).toNat
    rw [hoff, hstart]
    exact r.dvd_alignment.trans (dvd_alignUp _ _)
  · change (ret.buf - shmBase).toNat + r.size.toNat ≤ seg.length
    rw [hoff]
    exact hlen
  · intro hasked
    refine ⟨_, hphys hasked, ?_⟩
    rw [virtToPhys, add_sub_cancel_left, add_sub_cancel]
  · rw [handedOut_singleton hne]
    have hbehind : used ≤ (ret.buf - shmBase).toNat := by
      rw [hoff, hstart]
      exact le_alignUp r.alignment_pos used
    have hsnoc := h.snoc (e := { start := (ret.buf - shmBase).toNat, size := r.size.toNat }) hbehind
    rw [Extent.stop, hoff, ← hafter] at hsnoc
    rw [AllocStep.extent, hoff]
    exact hsnoc

/-- **A run with room** for its buffers keeps what is promised. -/
theorem allocRun_safe_of_room {calls : List AllocCall} (h : HeldUpTo held used)
    (hhead : 132 ≤ used) (hused : (shmUsed mem).toNat = used)
    (hroom : AllocRoom (min seg.length (2 ^ 32 - 1)) used calls) :
    ∃ steps, allocRun seg calls mem = some steps ∧ SafeRun seg held steps := by
  induction calls generalizing held used mem with
  | nil =>
    refine ⟨[], rfl, ?_, ?_, ?_⟩
    · exact fun step hstep => absurd hstep List.not_mem_nil
    · rw [handedOut, List.filterMap_nil, List.append_nil]
      exact h.disjoint
    · intro pre step post hsteps
      exact absurd hsteps.symm (List.append_ne_nil_of_right_ne_nil _ (List.cons_ne_nil _ _))
  | cons call calls ih =>
    cases call with
    | free buf => exact ih h hhead hused hroom
    | dmaFree buf => exact ih h hhead hused hroom
    | request fn r =>
      obtain ⟨hend, hrest⟩ := hroom
      have hlen := hend.trans (min_le_left _ _)
      obtain ⟨ret, after, hexec, hplaced, hheld, hafter⟩ := fn.exec_placed r h hhead hused hlen
        (Nat.lt_of_le_pred (by decide) (hend.trans (min_le_right _ _)))
      have hle := le_alignUp r.alignment_pos used
      obtain ⟨rest, hrun, hsafe⟩ := ih hheld (by omega) rfl (hafter ▸ hrest)
      refine ⟨_, (allocRun_request _ _ _ _).mpr ⟨ret, after, rest, hexec, hrun, rfl⟩, ?_⟩
      refine (safeRun_cons _ _).mpr ⟨fun _ => hplaced, ?_, hsafe⟩
      exact fun hfits => absurd ((h.fits_iff r).mpr hlen) hfits

/-- **A run that keeps what is promised** has room for its buffers, in a segment of which the
counter can count the bytes. -/
theorem room_of_allocRun_safe (hcounter : seg.length < 2 ^ 32) {calls : List AllocCall}
    {steps : List AllocStep} (h : HeldUpTo held used) (hhead : 132 ≤ used)
    (hused : (shmUsed mem).toNat = used) (hrun : allocRun seg calls mem = some steps)
    (hsafe : SafeRun seg held steps) : AllocRoom seg.length used calls := by
  induction calls generalizing held used mem steps with
  | nil => trivial
  | cons call calls ih =>
    cases call with
    | free buf => exact ih h hhead hused hrun hsafe
    | dmaFree buf => exact ih h hhead hused hrun hsafe
    | request fn r =>
      obtain ⟨ret, after, rest, hexec, hrest, rfl⟩ := (allocRun_request _ _ _ _).mp hrun
      obtain ⟨-, hrefused, hsafe⟩ := (safeRun_cons _ _).mp hsafe
      have hfits : r.Fits seg held := by
        by_contra hfits
        exact fn.exec_ret seg r mem hexec (hrefused hfits).1
      have hlen := (h.fits_iff r).mp hfits
      obtain ⟨ret', after', hexec', -, hheld, hafter⟩ :=
        fn.exec_placed r h hhead hused hlen (lt_of_le_of_lt hlen hcounter)
      rw [hexec] at hexec'
      obtain ⟨rfl, rfl⟩ := Prod.mk.inj (Option.some.inj hexec')
      have hle := le_alignUp r.alignment_pos used
      refine ⟨hlen, ?_⟩
      rw [← hafter]
      exact ih hheld (by omega) rfl hrest hsafe

end Runs

/-- **The allocator is safe** for the calls, from what the primary process sets up. -/
def AllocSafe (seg : ShmSegment) (mem : Buf) (calls : List AllocCall) : Prop :=
  ∃ steps, allocRun seg calls (setupIpc mem) = some steps ∧ SafeRun seg [.reserved] steps

theorem heldUpTo_reserved : HeldUpTo [.reserved] 132 := by
  refine ⟨?_, ⟨_, List.mem_singleton_self _, rfl⟩, List.pairwise_singleton _ _⟩
  intro e he
  rw [List.mem_singleton.mp he]
  rfl

theorem toNat_shmUsed_setupIpc (mem : Buf) : (shmUsed (setupIpc mem)).toNat = 132 := by
  rw [setupIpc, shmUsed_setShmUsed]
  rfl

/-- **The allocator is safe exactly if there is room.** It is for the callers to see to this: the
buffers have to end in the segment, and the counter of 32 bits has to hold where they end. In a
segment that is smaller than what it counts, this is all that goes wrong. -/
theorem allocSafe_iff_room (seg : ShmSegment) (mem : Buf) (calls : List AllocCall) :
    (AllocRoom (min seg.length (2 ^ 32 - 1)) 132 calls → AllocSafe seg mem calls) ∧
      (seg.length < 2 ^ 32 → (AllocSafe seg mem calls ↔ AllocRoom seg.length 132 calls)) := by
  have hused := toNat_shmUsed_setupIpc mem
  have hsafe : AllocRoom (min seg.length (2 ^ 32 - 1)) 132 calls → AllocSafe seg mem calls :=
    allocRun_safe_of_room heldUpTo_reserved le_rfl hused
  refine ⟨hsafe, fun hcounter => ⟨?_, ?_⟩⟩
  · rintro ⟨steps, hrun, hpromised⟩
    exact room_of_allocRun_safe hcounter heldUpTo_reserved le_rfl hused hrun hpromised
  · intro hroom
    apply hsafe
    rw [min_eq_left (Nat.le_sub_one_of_lt hcounter)]
    exact hroom

/-- A request of more bytes than the segment has gets a buffer, too. -/
theorem allocSafe_beyond :
    ¬ ∀ (seg : ShmSegment) (mem : Buf) (calls : List AllocCall), AllocSafe seg mem calls := by
  intro h
  obtain ⟨steps, hrun, hsafe⟩ := h { length := 4096, physBase := 0, head := by decide } (fun _ => 0)
    [.request .malloc { size := 8192, align := 8, physAddr := false, pow := ⟨3, rfl⟩ }]
  have hroom := room_of_allocRun_safe (by decide) heldUpTo_reserved le_rfl
    (toNat_shmUsed_setupIpc _) hrun hsafe
  have hend : alignUp 8 132 + 8192 ≤ 4096 := hroom.1
  omega

end ChamberSpo

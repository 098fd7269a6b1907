import ChamberSpo.Transition
import Mathlib.Data.BitVec
import Mathlib.Data.Finset.Card
import Mathlib.Data.Finset.Dedup
import Mathlib.Data.Finset.Range
import Mathlib.Data.List.Perm.Subperm
import Mathlib.Data.Nat.Find

/-!
# The memory pool of the simulator

A pool has its elements side by side in one block of memory. A bit for each element says that it is
taken, and a counter says how many are not.

* `BitArray` — what the bit array says of itself: a set of bits, and the first one that is clear.
* `spdkMempoolCreate`, `spdkMempoolGet`, `spdkMempoolPut` and those for several elements.
* `PoolStep` — a call, with the elements that are taken before and after it. Only those are put
  back.
* `PoolOk` — what holds in a state of a pool.
* `PoolInv` — the invariant: the elements that are taken are those of the bits that are set.

`spdkMempoolCreate` does not look at its arguments. `mempool_ok_iff` says which it needs.
-/

namespace ChamberSpo

/-! ## The program -/

/-- `struct spdk_bit_array`: its functions, and what they do to the bits. -/
structure BitArray (β : Type) where
  create : BitVec 32 → Option β
  findFirstClear : β → BitVec 32 → BitVec 32
  set : β → BitVec 32 → β
  clear : β → BitVec 32 → β
  /-- how many bits there are -/
  size : β → ℕ
  /-- the bits that are set -/
  bits : β → Finset ℕ
  size_lt : ∀ b, size b < 2 ^ 32
  bits_lt : ∀ {b i}, i ∈ bits b → i < size b
  created : ∀ {n b}, create n = some b → size b = n.toNat ∧ bits b = ∅
  found : ∀ {b start i}, start.toNat ≤ i → i < size b → i ∉ bits b →
    (∀ j, start.toNat ≤ j → j < i → j ∈ bits b) → findFirstClear b start = BitVec.ofNat 32 i
  /-- `UINT32_MAX` -/
  notFound : ∀ {b start}, (∀ i, start.toNat ≤ i → i < size b → i ∈ bits b) →
    findFirstClear b start = -1
  was_set : ∀ {b i}, i.toNat < size b →
    size (set b i) = size b ∧ bits (set b i) = insert i.toNat (bits b)
  was_cleared : ∀ {b i}, i.toNat < size b →
    size (clear b i) = size b ∧ bits (clear b i) = (bits b).erase i.toNat

/-- The bits that are clear. -/
def BitArray.clearBits {β : Type} (B : BitArray β) (b : β) : Finset ℕ :=
  Finset.range (B.size b) \ B.bits b

/-- `malloc`: a block of memory does not begin at `NULL`, and ends in the address space. -/
structure Malloc where
  alloc : BitVec 64 → Option (BitVec 64)
  ne_null : ∀ {n p}, alloc n = some p → p ≠ 0
  inside : ∀ {n p}, alloc n = some p → p.toNat + n.toNat ≤ 2 ^ 64

/-- `struct spdk_mempool`, but for the name. -/
structure Mempool (β : Type) where
  ba : β
  elements : BitVec 64
  eleSize : BitVec 64
  count : BitVec 64

section Program

variable {β : Type} (B : BitArray β)

/-- `spdk_mempool_create`. `mp` is what `malloc` returns for the structure, and `none` is `NULL`. -/
def spdkMempoolCreate (malloc : Malloc) (mp : Option (BitVec 64)) (count eleSize : BitVec 64) :
    Option (Mempool β) := do
  let _ ← mp
  let ba ← B.create (count.setWidth 32)
  let elements ← malloc.alloc (eleSize * count)
  return { ba := ba, elements := elements, eleSize := eleSize, count := count }

/-- `spdk_mempool_get`. The element is 0 for `NULL`. -/
def spdkMempoolGet (mp : Mempool β) : BitVec 64 × Mempool β :=
  if mp.count = 0 then (0, mp)
  else
    let index := B.findFirstClear mp.ba 0
    if index = -1 then (0, mp)
    else
      (mp.elements + mp.eleSize * index.setWidth 64,
        { mp with ba := B.set mp.ba index, count := mp.count - 1 })

/-- `spdk_mempool_put`; `none` for a division by zero. -/
def spdkMempoolPut (mp : Mempool β) (ele : BitVec 64) : Option (Mempool β) :=
  if mp.eleSize = 0 then none
  else
    let index := ((ele - mp.elements) / mp.eleSize).setWidth 32
    some { mp with ba := B.clear mp.ba index, count := mp.count + 1 }

/-- The loop of `spdk_mempool_get_bulk`; `none` when the fuel does not last. -/
def getBulkLoop (count : BitVec 64) :
    ℕ → BitVec 32 → (ℕ → BitVec 64) → Mempool β → Option ((ℕ → BitVec 64) × Mempool β)
  | 0, _, _, _ => none
  | fuel + 1, i, eleArr, mp =>
    if i.setWidth 64 < count then
      getBulkLoop count fuel (i + 1) (Function.update eleArr i.toNat (spdkMempoolGet B mp).1)
        (spdkMempoolGet B mp).2
    else some (eleArr, mp)

/-- `spdk_mempool_get_bulk`, with the array after it. -/
def spdkMempoolGetBulk (mp : Mempool β) (eleArr : ℕ → BitVec 64) (count : BitVec 64) :
    Option (Int × (ℕ → BitVec 64) × Mempool β) :=
  if mp.count < count then some (-1, eleArr, mp)
  else (getBulkLoop B count (count.toNat + 1) 0 eleArr mp).map fun r => (0, r)

/-- The loop of `spdk_mempool_put_bulk`; `none` when the fuel does not last, and for a division by
zero. -/
def putBulkLoop (count : BitVec 64) (eleArr : ℕ → BitVec 64) :
    ℕ → BitVec 32 → Mempool β → Option (Mempool β)
  | 0, _, _ => none
  | fuel + 1, i, mp =>
    if i.setWidth 64 < count then
      (spdkMempoolPut B mp (eleArr i.toNat)).bind (putBulkLoop count eleArr fuel (i + 1))
    else some mp

/-- `spdk_mempool_put_bulk` -/
def spdkMempoolPutBulk (mp : Mempool β) (eleArr : ℕ → BitVec 64) (count : BitVec 64) :
    Option (Mempool β) :=
  putBulkLoop B count eleArr (count.toNat + 1) 0 mp

/-- `spdk_mempool_count` -/
def spdkMempoolCount (pool : Mempool β) : BitVec 64 := pool.count

end Program

/-! ## Runs -/

/-- A pool, with the elements that are taken. -/
structure PoolState (β : Type) where
  pool : Mempool β
  taken : List (BitVec 64)

/-- A call. -/
inductive PoolLabel where
  | get
  | put (ele : BitVec 64)
  | getBulk (eleArr : ℕ → BitVec 64) (count : BitVec 64)
  | putBulk (eleArr : ℕ → BitVec 64) (count : BitVec 64)

/-- The first elements of an array. -/
def firstElements (eleArr : ℕ → BitVec 64) (count : BitVec 64) : List (BitVec 64) :=
  (List.range count.toNat).map eleArr

/-- A call in a state. Elements are put back only when they are taken. -/
inductive PoolStep {β : Type} (B : BitArray β) : PoolState β → PoolLabel → PoolState β → Prop
  /-- `spdk_mempool_get` -/
  | get (s : PoolState β) : PoolStep B s .get
      { pool := (spdkMempoolGet B s.pool).2
        taken := if (spdkMempoolGet B s.pool).1 = 0 then s.taken
          else (spdkMempoolGet B s.pool).1 :: s.taken }
  /-- `spdk_mempool_put` -/
  | put {s : PoolState β} {ele : BitVec 64} {pool : Mempool β} :
      ele ∈ s.taken → spdkMempoolPut B s.pool ele = some pool →
      PoolStep B s (.put ele) { pool := pool, taken := s.taken.erase ele }
  /-- `spdk_mempool_get_bulk` -/
  | getBulk {s : PoolState β} {eleArr eleArr' : ℕ → BitVec 64} {count : BitVec 64} {res : Int}
      {pool : Mempool β} :
      spdkMempoolGetBulk B s.pool eleArr count = some (res, eleArr', pool) →
      PoolStep B s (.getBulk eleArr count)
        { pool := pool
          taken := if res = 0 then firstElements eleArr' count ++ s.taken else s.taken }
  /-- `spdk_mempool_put_bulk` -/
  | putBulk {s : PoolState β} {eleArr : ℕ → BitVec 64} {count : BitVec 64} {pool : Mempool β} :
      (firstElements eleArr count).Subperm s.taken →
      spdkMempoolPutBulk B s.pool eleArr count = some pool →
      PoolStep B s (.putBulk eleArr count)
        { pool := pool, taken := s.taken.diff (firstElements eleArr count) }

/-- **What holds in a state** of a pool with `size` bytes of elements. -/
structure PoolOk {β : Type} (B : BitArray β) (size : ℕ) (s : PoolState β) : Prop where
  count : (spdkMempoolCount s.pool).toNat = (B.clearBits s.pool.ba).card
  distinct : s.taken.Nodup
  inside : ∀ ele ∈ s.taken, s.pool.eleSize.toNat ∣ (ele - s.pool.elements).toNat ∧
    (ele - s.pool.elements).toNat + s.pool.eleSize.toNat ≤ size
  get : (spdkMempoolGet B s.pool).1 = 0 ↔ B.clearBits s.pool.ba = ∅
  /-- All elements or none, and nothing has happened to the pool when it is none. -/
  getBulk : ∀ eleArr count, ∃ res eleArr' pool,
    spdkMempoolGetBulk B s.pool eleArr count = some (res, eleArr', pool) ∧
      (res = 0 ∧ (∀ ele ∈ firstElements eleArr' count, ele ≠ 0) ∧
          (B.clearBits pool.ba).card + count.toNat = (B.clearBits s.pool.ba).card ∨
        res ≠ 0 ∧ eleArr' = eleArr ∧ pool = s.pool)
  put : ∀ ele ∈ s.taken, ∃ pool, spdkMempoolPut B s.pool ele = some pool

/-- The arguments of `spdk_mempool_create` are of a size that the pool can count and address. -/
structure SizedPool (count eleSize : BitVec 64) : Prop where
  count_lt : count.toNat < 2 ^ 32
  bytes_lt : eleSize.toNat * count.toNat < 2 ^ 64
  pos : eleSize = 0 → count = 0

/-! ## Elements -/

/-- The element with an index. -/
def elementAt (elements eleSize : BitVec 64) (i : ℕ) : BitVec 64 :=
  elements + eleSize * BitVec.ofNat 64 i

/-- The block of the elements. -/
structure PoolBlock (elements eleSize : BitVec 64) (n : ℕ) : Prop where
  ne_null : elements ≠ 0
  inside : elements.toNat + eleSize.toNat * n ≤ 2 ^ 64
  lt : n < 2 ^ 32
  pos : 0 < n → 0 < eleSize.toNat

namespace PoolBlock

variable {elements eleSize : BitVec 64} {n : ℕ} (h : PoolBlock elements eleSize n) {i : ℕ}
  (hi : i < n)

omit h in
include hi in
theorem mul_succ_le : eleSize.toNat * i + eleSize.toNat ≤ eleSize.toNat * n := by
  rw [← Nat.mul_succ]
  exact Nat.mul_le_mul_left _ hi

include h hi

theorem toNat_offset : (eleSize * BitVec.ofNat 64 i).toNat = eleSize.toNat * i := by
  have hle : eleSize.toNat * i + eleSize.toNat ≤ _ := mul_succ_le hi
  have hpos := h.pos (Nat.zero_lt_of_lt hi)
  have hin := h.inside
  have hlt := h.lt
  rw [BitVec.toNat_mul, BitVec.toNat_ofNat, Nat.mod_eq_of_lt (a := i) (by omega),
    Nat.mod_eq_of_lt (by omega)]

theorem toNat_elementAt_sub : (elementAt elements eleSize i - elements).toNat
    = eleSize.toNat * i := by
  rw [elementAt, add_sub_cancel_left, h.toNat_offset hi]

theorem elementAt_ne_null : elementAt elements eleSize i ≠ 0 := by
  intro hzero
  have hle : eleSize.toNat * i + eleSize.toNat ≤ _ := mul_succ_le hi
  have hpos := h.pos (Nat.zero_lt_of_lt hi)
  have hin := h.inside
  have helements : 0 < elements.toNat :=
    Nat.pos_of_ne_zero fun h0 => h.ne_null (BitVec.eq_of_toNat_eq h0)
  have hnat := congrArg BitVec.toNat hzero
  rw [elementAt, BitVec.toNat_add, h.toNat_offset hi, Nat.mod_eq_of_lt (by omega)] at hnat
  change _ = 0 at hnat
  omega

/-- The index of an element is found again. -/
theorem index_elementAt :
    (((elementAt elements eleSize i - elements) / eleSize).setWidth 32).toNat = i := by
  have hlt := h.lt
  rw [BitVec.toNat_setWidth, BitVec.toNat_udiv, h.toNat_elementAt_sub hi,
    Nat.mul_div_cancel_left i (h.pos (Nat.zero_lt_of_lt hi)), Nat.mod_eq_of_lt (by omega)]

end PoolBlock

/-- Different elements have different indices. -/
theorem PoolBlock.elementAt_inj {elements eleSize : BitVec 64} {n i j : ℕ}
    (h : PoolBlock elements eleSize n) (hi : i < n) (hj : j < n)
    (heq : elementAt elements eleSize i = elementAt elements eleSize j) : i = j := by
  rw [← h.index_elementAt hi, heq, h.index_elementAt hj]

/-! ## The invariant -/

/-- **The invariant of a pool**: the elements that are taken are those of the bits that are set. -/
structure PoolInv {β : Type} (B : BitArray β) (elements eleSize : BitVec 64) (n : ℕ)
    (s : PoolState β) : Prop where
  elements_eq : s.pool.elements = elements
  eleSize_eq : s.pool.eleSize = eleSize
  size : B.size s.pool.ba = n
  count : s.pool.count.toNat + (B.bits s.pool.ba).card = n
  distinct : s.taken.Nodup
  taken : ∀ ele, ele ∈ s.taken ↔ ∃ i ∈ B.bits s.pool.ba, ele = elementAt elements eleSize i

section Invariant

variable {β : Type} {B : BitArray β} {elements eleSize : BitVec 64} {n : ℕ} {s : PoolState β}
  {b : β}

theorem BitArray.bits_subset (B : BitArray β) (b : β) : B.bits b ⊆ Finset.range (B.size b) :=
  fun _ hi => Finset.mem_range.mpr (B.bits_lt hi)

theorem BitArray.mem_clearBits {i : ℕ} : i ∈ B.clearBits b ↔ i < B.size b ∧ i ∉ B.bits b := by
  rw [clearBits, Finset.mem_sdiff, Finset.mem_range]

theorem BitArray.card_clearBits (B : BitArray β) (b : β) :
    (B.clearBits b).card + (B.bits b).card = B.size b := by
  rw [clearBits, Finset.card_sdiff_add_card_eq_card (B.bits_subset b), Finset.card_range]

/-- The first bit that is clear, if there is one. -/
theorem BitArray.findFirstClear_cases (B : BitArray β) (b : β) :
    B.clearBits b = ∅ ∧ B.findFirstClear b 0 = -1 ∨
      ∃ i ∈ B.clearBits b, B.findFirstClear b 0 = BitVec.ofNat 32 i ∧
        B.findFirstClear b 0 ≠ -1 ∧ ∀ j < i, j ∈ B.bits b := by
  by_cases hclear : ∃ i, i < B.size b ∧ i ∉ B.bits b
  · obtain ⟨hlt, hnot⟩ := Nat.find_spec hclear
    have hbefore : ∀ j < Nat.find hclear, j ∈ B.bits b := by
      intro j hj
      by_contra hnot
      exact Nat.find_min hclear hj ⟨hj.trans hlt, hnot⟩
    have hfound : B.findFirstClear b 0 = _ :=
      B.found (Nat.zero_le _) hlt hnot fun j _ hj => hbefore j hj
    refine .inr ⟨_, mem_clearBits.mpr ⟨hlt, hnot⟩, hfound, ?_, hbefore⟩
    intro hmax
    have hsize := B.size_lt b
    have hnat := congrArg BitVec.toNat (hfound.symm.trans hmax)
    rw [BitVec.toNat_ofNat, Nat.mod_eq_of_lt (hlt.trans hsize)] at hnat
    change _ = 2 ^ 32 - 1 at hnat
    omega
  · refine .inl ⟨?_, B.notFound ?_⟩
    · refine Finset.eq_empty_of_forall_notMem fun i hi => hclear ⟨i, mem_clearBits.mp hi⟩
    · intro i _ hi
      by_contra hnot
      exact hclear ⟨i, hi, hnot⟩

/-- A bit that is set by its index. -/
theorem BitArray.set_ofNat {i : ℕ} (hi : i < B.size b) :
    B.size (B.set b (BitVec.ofNat 32 i)) = B.size b ∧
      B.bits (B.set b (BitVec.ofNat 32 i)) = insert i (B.bits b) := by
  have hindex : (BitVec.ofNat 32 i).toNat = i := by
    rw [BitVec.toNat_ofNat]
    exact Nat.mod_eq_of_lt (hi.trans (B.size_lt b))
  have hset := B.was_set (b := b) (i := BitVec.ofNat 32 i) (by rw [hindex]; exact hi)
  rw [hindex] at hset
  exact hset

/-- The element of the first bit that is clear. -/
theorem spdkMempoolGet_found {mp : Mempool β} {i : ℕ} (hcount : mp.count ≠ 0)
    (hi : i < B.size mp.ba) (hfind : B.findFirstClear mp.ba 0 = BitVec.ofNat 32 i)
    (hne : B.findFirstClear mp.ba 0 ≠ -1) :
    spdkMempoolGet B mp = (elementAt mp.elements mp.eleSize i,
      { mp with ba := B.set mp.ba (BitVec.ofNat 32 i), count := mp.count - 1 }) := by
  have hlt := B.size_lt mp.ba
  have hindex : (BitVec.ofNat 32 i).setWidth 64 = BitVec.ofNat 64 i := by
    apply BitVec.eq_of_toNat_eq
    rw [BitVec.toNat_setWidth, BitVec.toNat_ofNat, BitVec.toNat_ofNat,
      Nat.mod_eq_of_lt (hi.trans hlt)]
  rw [hfind] at hne
  rw [spdkMempoolGet, if_neg hcount, hfind]
  dsimp only
  rw [if_neg hne, hindex, elementAt]

/-- The loops compare their counter with a count of 64 bits. -/
theorem setWidth_lt_iff {i : BitVec 32} {count : BitVec 64} :
    i.setWidth 64 < count ↔ i.toNat < count.toNat := by
  rw [BitVec.lt_def, BitVec.toNat_setWidth_of_le (by decide)]

theorem toNat_counter_succ {i : BitVec 32} (h : i.toNat + 1 < 2 ^ 32) :
    (i + 1).toNat = i.toNat + 1 := by
  rw [BitVec.toNat_add]
  exact Nat.mod_eq_of_lt h

namespace PoolInv

variable (h : PoolInv B elements eleSize n s)

include h

theorem card_clearBits : (B.clearBits s.pool.ba).card = s.pool.count.toNat := by
  have hcard := B.card_clearBits s.pool.ba
  have hsize := h.size
  have hcount := h.count
  omega

theorem perm {taken : List (BitVec 64)} (hperm : taken.Perm s.taken) :
    PoolInv B elements eleSize n { s with taken := taken } :=
  ⟨h.elements_eq, h.eleSize_eq, h.size, h.count, hperm.nodup_iff.mpr h.distinct,
    fun ele => hperm.mem_iff.trans (h.taken ele)⟩

/-- **`spdk_mempool_get`** takes an element that is free, if there is one. -/
theorem get_cases (hb : PoolBlock elements eleSize n) :
    B.clearBits s.pool.ba = ∅ ∧ spdkMempoolGet B s.pool = (0, s.pool) ∨
      ∃ ele pool, spdkMempoolGet B s.pool = (ele, pool) ∧ B.clearBits s.pool.ba ≠ ∅ ∧ ele ≠ 0 ∧
        pool.count.toNat + 1 = s.pool.count.toNat ∧
        PoolInv B elements eleSize n { pool := pool, taken := ele :: s.taken } := by
  have hcard := h.card_clearBits
  rcases B.findFirstClear_cases s.pool.ba with ⟨hempty, hfind⟩ | ⟨i, hi, hfind, hne, -⟩
  · refine .inl ⟨hempty, ?_⟩
    rw [hempty, Finset.card_empty] at hcard
    exact if_pos (BitVec.eq_of_toNat_eq hcard.symm)
  · have hnonempty : B.clearBits s.pool.ba ≠ ∅ := Finset.ne_empty_of_mem hi
    have hpos : 0 < s.pool.count.toNat := hcard ▸ Finset.card_pos.mpr ⟨i, hi⟩
    have hcount : s.pool.count ≠ 0 := by
      intro hzero
      rw [hzero] at hpos
      exact absurd hpos (Nat.lt_irrefl 0)
    obtain ⟨hlt, hnot⟩ := BitArray.mem_clearBits.mp hi
    have hin : i < n := h.size ▸ hlt
    have hget := spdkMempoolGet_found hcount hlt hfind hne
    rw [h.elements_eq, h.eleSize_eq] at hget
    have hcount' : (s.pool.count - 1).toNat + 1 = s.pool.count.toNat := by
      rw [BitVec.toNat_sub_of_le]
      · exact Nat.sub_add_cancel hpos
      · exact hpos
    obtain ⟨hsize, hbits⟩ := B.set_ofNat hlt
    refine .inr ⟨_, _, hget, hnonempty, hb.elementAt_ne_null hin, hcount',
      rfl, rfl, hsize.trans h.size, ?_, ?_, ?_⟩
    · change (s.pool.count - 1).toNat + (B.bits (B.set _ _)).card = n
      rw [hbits, Finset.card_insert_of_notMem hnot]
      have := h.count
      omega
    · refine List.nodup_cons.mpr ⟨?_, h.distinct⟩
      intro hmem
      obtain ⟨j, hj, heq⟩ := (h.taken _).mp hmem
      have hij := hb.elementAt_inj hin (h.size ▸ B.bits_lt hj) heq
      exact hnot (hij ▸ hj)
    · intro ele
      change ele ∈ elementAt elements eleSize i :: s.taken ↔ ∃ j ∈ B.bits (B.set _ _), _
      rw [hbits, List.mem_cons, h.taken]
      simp only [Finset.mem_insert, exists_eq_or_imp]

/-- **`spdk_mempool_put`** gives an element back. -/
theorem put_spec (hb : PoolBlock elements eleSize n) {ele : BitVec 64} (hele : ele ∈ s.taken) :
    ∃ pool, spdkMempoolPut B s.pool ele = some pool ∧
      PoolInv B elements eleSize n { pool := pool, taken := s.taken.erase ele } := by
  obtain ⟨i, hi, rfl⟩ := (h.taken ele).mp hele
  have hlt := B.bits_lt hi
  have hin : i < n := h.size ▸ hlt
  have hpos := hb.pos (Nat.zero_lt_of_lt hin)
  have hne : s.pool.eleSize ≠ 0 := by
    intro hzero
    rw [h.eleSize_eq] at hzero
    rw [hzero] at hpos
    exact absurd hpos (Nat.lt_irrefl 0)
  have hindex : (((elementAt elements eleSize i - s.pool.elements) / s.pool.eleSize).setWidth
      32).toNat = i := by
    rw [h.elements_eq, h.eleSize_eq]
    exact hb.index_elementAt hin
  obtain ⟨hsize, hbits⟩ := B.was_cleared (b := s.pool.ba)
    (i := ((elementAt elements eleSize i - s.pool.elements) / s.pool.eleSize).setWidth 32)
    (hindex.symm ▸ hlt)
  rw [hindex] at hbits
  have hcard := Finset.card_pos.mpr ⟨i, hi⟩
  have hcount := h.count
  have hn := hb.lt
  refine ⟨_, if_neg hne, h.elements_eq, h.eleSize_eq, hsize.trans h.size, ?_, h.distinct.erase _, ?_⟩
  · change (s.pool.count + 1).toNat + (B.bits (B.clear _ _)).card = n
    rw [hbits, Finset.card_erase_of_mem hi, BitVec.toNat_add]
    change (s.pool.count.toNat + 1) % 2 ^ 64 + _ = n
    omega
  · intro ele
    change ele ∈ s.taken.erase _ ↔ ∃ j ∈ B.bits (B.clear _ _), _
    rw [hbits, h.distinct.mem_erase_iff, h.taken]
    refine ⟨?_, ?_⟩
    · rintro ⟨hother, j, hj, rfl⟩
      refine ⟨j, Finset.mem_erase.mpr ⟨?_, hj⟩, rfl⟩
      rintro rfl
      exact hother rfl
    · rintro ⟨j, hj, rfl⟩
      obtain ⟨hother, hj⟩ := Finset.mem_erase.mp hj
      refine ⟨?_, j, hj, rfl⟩
      exact fun heq => hother (hb.elementAt_inj (h.size ▸ B.bits_lt hj) hin heq)

/-- There are no more elements than bits. -/
theorem length_taken_le : s.taken.length ≤ n := by
  have himage : s.taken.toFinset ⊆ (B.bits s.pool.ba).image (elementAt elements eleSize) := by
    intro ele hele
    obtain ⟨i, hi, rfl⟩ := (h.taken ele).mp (List.mem_toFinset.mp hele)
    exact Finset.mem_image_of_mem _ hi
  calc s.taken.length = s.taken.toFinset.card := (List.toFinset_card_of_nodup h.distinct).symm
    _ ≤ ((B.bits s.pool.ba).image (elementAt elements eleSize)).card :=
      Finset.card_le_card himage
    _ ≤ (B.bits s.pool.ba).card := Finset.card_image_le
    _ ≤ n := h.count ▸ Nat.le_add_left _ _

omit h in
/-- The loop of `spdk_mempool_get_bulk` takes an element in each pass, while there are enough. -/
theorem getBulkLoop_spec (hb : PoolBlock elements eleSize n) {count : BitVec 64}
    (hcount : count.toNat < 2 ^ 32) {k fuel : ℕ} {i : BitVec 32} (eleArr : ℕ → BitVec 64)
    (h : PoolInv B elements eleSize n s) (hi : i.toNat + k = count.toNat) (hfuel : k < fuel)
    (hk : k ≤ s.pool.count.toNat) :
    ∃ eleArr' pool, getBulkLoop B count fuel i eleArr s.pool = some (eleArr', pool) ∧
      (∀ j < i.toNat, eleArr' j = eleArr j) ∧
      (∀ j, i.toNat ≤ j → j < count.toNat → eleArr' j ≠ 0) ∧
      pool.count.toNat + k = s.pool.count.toNat ∧
      PoolInv B elements eleSize n
        { pool := pool, taken := (List.range' i.toNat k).map eleArr' ++ s.taken } := by
  induction k generalizing fuel i eleArr s with
  | zero =>
    obtain ⟨fuel, rfl⟩ := Nat.exists_eq_succ_of_ne_zero (Nat.ne_of_gt hfuel)
    refine ⟨eleArr, s.pool, ?_, fun _ _ => rfl, ?_, rfl, h⟩
    · rw [getBulkLoop, if_neg]
      rw [setWidth_lt_iff]
      omega
    · intro j hle hj
      omega
  | succ k ih =>
    obtain ⟨fuel, rfl⟩ := Nat.exists_eq_succ_of_ne_zero (Nat.ne_zero_of_lt hfuel)
    have hnext : (i + 1).toNat = i.toNat + 1 := toNat_counter_succ (by omega)
    rcases h.get_cases hb with ⟨hempty, -⟩ | ⟨ele, pool, hget, -, hele, hpool, hinv⟩
    · have hcard := h.card_clearBits
      rw [hempty, Finset.card_empty] at hcard
      omega
    · obtain ⟨eleArr', pool', hloop, hsame, hfilled, hpool', hinv'⟩ :=
        ih (i := i + 1) (Function.update eleArr i.toNat ele) hinv (by omega)
          (Nat.lt_of_succ_lt_succ hfuel) (by change k ≤ pool.count.toNat; omega)
      have hhere : eleArr' i.toNat = ele := by
        rw [hsame _ (by omega), Function.update_self]
      refine ⟨eleArr', pool', ?_, ?_, ?_, ?_, ?_⟩
      · rw [getBulkLoop, if_pos (setWidth_lt_iff.mpr (by omega)), hget]
        exact hloop
      · intro j hj
        rw [hsame j (by omega), Function.update_of_ne (Nat.ne_of_lt hj)]
      · intro j hle hj
        rcases Nat.eq_or_lt_of_le hle with rfl | hlt
        · rw [hhere]
          exact hele
        · exact hfilled j (by omega) hj
      · change pool'.count.toNat + k = pool.count.toNat at hpool'
        omega
      · apply hinv'.perm
        rw [List.range'_succ, List.map_cons, hhere, hnext]
        exact List.perm_middle.symm

omit h in
/-- The loop of `spdk_mempool_put_bulk` gives the elements back one by one. -/
theorem putBulkLoop_spec (hb : PoolBlock elements eleSize n) {count : BitVec 64}
    (hcount : count.toNat < 2 ^ 32) (eleArr : ℕ → BitVec 64) {k fuel : ℕ} {i : BitVec 32}
    (h : PoolInv B elements eleSize n s) (hi : i.toNat + k = count.toNat) (hfuel : k < fuel)
    (htaken : ((List.range' i.toNat k).map eleArr).Subperm s.taken) :
    ∃ pool, putBulkLoop B count eleArr fuel i s.pool = some pool ∧
      PoolInv B elements eleSize n
        { pool := pool, taken := s.taken.diff ((List.range' i.toNat k).map eleArr) } := by
  induction k generalizing fuel i s with
  | zero =>
    obtain ⟨fuel, rfl⟩ := Nat.exists_eq_succ_of_ne_zero (Nat.ne_of_gt hfuel)
    refine ⟨s.pool, ?_, h⟩
    rw [putBulkLoop, if_neg]
    rw [setWidth_lt_iff]
    omega
  | succ k ih =>
    obtain ⟨fuel, rfl⟩ := Nat.exists_eq_succ_of_ne_zero (Nat.ne_zero_of_lt hfuel)
    have hnext : (i + 1).toNat = i.toNat + 1 := toNat_counter_succ (by omega)
    rw [List.range'_succ, List.map_cons] at htaken ⊢
    obtain ⟨pool, hput, hinv⟩ := h.put_spec hb (htaken.subset List.mem_cons_self)
    have hrest := htaken.erase (eleArr i.toNat)
    rw [List.erase_cons_head] at hrest
    obtain ⟨pool', hloop, hinv'⟩ := ih (i := i + 1) hinv (by omega)
      (Nat.lt_of_succ_lt_succ hfuel) (hnext.symm ▸ hrest)
    refine ⟨pool', ?_, ?_⟩
    · rw [putBulkLoop, if_pos (setWidth_lt_iff.mpr (by omega)), hput]
      exact hloop
    · rw [List.diff_cons, ← hnext]
      exact hinv'

/-- **`spdk_mempool_get_bulk`** takes all the elements or none. -/
theorem getBulk_cases (hb : PoolBlock elements eleSize n) (eleArr : ℕ → BitVec 64)
    (count : BitVec 64) :
    spdkMempoolGetBulk B s.pool eleArr count = some (-1, eleArr, s.pool) ∨
      ∃ eleArr' pool, spdkMempoolGetBulk B s.pool eleArr count = some (0, eleArr', pool) ∧
        (∀ ele ∈ firstElements eleArr' count, ele ≠ 0) ∧
        pool.count.toNat + count.toNat = s.pool.count.toNat ∧
        PoolInv B elements eleSize n
          { pool := pool, taken := firstElements eleArr' count ++ s.taken } := by
  have hpool := h.count
  have hlt := hb.lt
  by_cases hcount : s.pool.count < count
  · exact .inl (if_pos hcount)
  · have hle : count.toNat ≤ s.pool.count.toNat := Nat.le_of_not_lt hcount
    obtain ⟨eleArr', pool, hloop, -, hfilled, hafter, hinv⟩ :=
      getBulkLoop_spec hb (i := 0) (by omega) eleArr h (Nat.zero_add _)
        (Nat.lt_succ_self count.toNat) hle
    refine .inr ⟨eleArr', pool, ?_, ?_, hafter, ?_⟩
    · rw [spdkMempoolGetBulk, if_neg hcount, hloop]
      rfl
    · intro ele hele
      obtain ⟨j, hj, rfl⟩ := List.mem_map.mp hele
      exact hfilled j (Nat.zero_le j) (List.mem_range.mp hj)
    · rw [firstElements, List.range_eq_range']
      exact hinv

/-- **The invariant is kept.** -/
theorem step (hb : PoolBlock elements eleSize n) {label : PoolLabel} {s' : PoolState β}
    (hstep : PoolStep B s label s') : PoolInv B elements eleSize n s' := by
  cases hstep with
  | get =>
    rcases h.get_cases hb with ⟨-, hget⟩ | ⟨ele, pool, hget, -, hele, -, hinv⟩
    · rw [hget, if_pos rfl]
      exact h
    · rw [hget, if_neg hele]
      exact hinv
  | put hele hput =>
    obtain ⟨pool, hput', hinv⟩ := h.put_spec hb hele
    rw [hput] at hput'
    cases hput'
    exact hinv
  | @getBulk eleArr _ count _ _ hget =>
    rcases h.getBulk_cases hb eleArr count with hget' | ⟨_, _, hget', -, -, hinv⟩
    · rw [hget] at hget'
      cases hget'
      exact h
    · rw [hget] at hget'
      cases hget'
      exact hinv
  | @putBulk eleArr count _ htaken hput =>
    have hlength := htaken.length_le.trans h.length_taken_le
    have hlt := hb.lt
    rw [firstElements, List.length_map, List.length_range] at hlength
    rw [firstElements, List.range_eq_range'] at htaken ⊢
    obtain ⟨pool, hput', hinv⟩ := putBulkLoop_spec hb (i := 0) (by omega) eleArr h
      (Nat.zero_add _) (Nat.lt_succ_self count.toNat) htaken
    rw [spdkMempoolPutBulk] at hput
    rw [hput] at hput'
    cases hput'
    exact hinv

/-- What holds in a state with the invariant. -/
theorem ok (hb : PoolBlock elements eleSize n) {size : ℕ} (hsize : eleSize.toNat * n = size) :
    PoolOk B size s := by
  have hcard := h.card_clearBits
  refine ⟨hcard.symm, h.distinct, ?_, ?_, ?_, ?_⟩
  · intro ele hele
    obtain ⟨i, hi, rfl⟩ := (h.taken ele).mp hele
    have hin : i < n := h.size ▸ B.bits_lt hi
    rw [h.elements_eq, h.eleSize_eq, hb.toNat_elementAt_sub hin, ← hsize]
    exact ⟨Nat.dvd_mul_right _ _, PoolBlock.mul_succ_le hin⟩
  · rcases h.get_cases hb with ⟨hempty, hget⟩ | ⟨ele, pool, hget, hnonempty, hele, -⟩
    · rw [hget]
      exact iff_of_true rfl hempty
    · rw [hget]
      exact iff_of_false hele hnonempty
  · intro eleArr count
    rcases h.getBulk_cases hb eleArr count with hget | ⟨eleArr', pool, hget, hele, hafter, hinv⟩
    · exact ⟨-1, eleArr, s.pool, hget, .inr ⟨by decide, rfl, rfl⟩⟩
    · refine ⟨0, eleArr', pool, hget, .inl ⟨rfl, hele, ?_⟩⟩
      rw [hcard, ← hafter]
      exact congrArg (· + count.toNat) hinv.card_clearBits
  · intro ele hele
    obtain ⟨pool, hput, -⟩ := h.put_spec hb hele
    exact ⟨pool, hput⟩

end PoolInv

end Invariant

/-! ## Pools that are created -/

section Created

variable {β : Type} {B : BitArray β} {malloc : Malloc} {mp : Option (BitVec 64)}
  {count eleSize : BitVec 64} {pool : Mempool β}

/-- A pool after `spdk_mempool_create`. -/
theorem spdkMempoolCreate_spec (h : spdkMempoolCreate B malloc mp count eleSize = some pool) :
    malloc.alloc (eleSize * count) = some pool.elements ∧ pool.eleSize = eleSize ∧
      pool.count = count ∧ B.size pool.ba = count.toNat % 2 ^ 32 ∧ B.bits pool.ba = ∅ := by
  obtain ⟨_, -, h⟩ := Option.bind_eq_some_iff.mp h
  obtain ⟨ba, hba, h⟩ := Option.bind_eq_some_iff.mp h
  obtain ⟨elements, helements, h⟩ := Option.bind_eq_some_iff.mp h
  cases h
  obtain ⟨hsize, hbits⟩ := B.created hba
  rw [BitVec.toNat_setWidth] at hsize
  exact ⟨helements, rfl, rfl, hsize, hbits⟩

theorem toNat_bytes (h : SizedPool count eleSize) :
    (eleSize * count).toNat = eleSize.toNat * count.toNat := by
  rw [BitVec.toNat_mul, Nat.mod_eq_of_lt h.bytes_lt]

theorem SizedPool.block (h : SizedPool count eleSize) {elements : BitVec 64}
    (halloc : malloc.alloc (eleSize * count) = some elements) :
    PoolBlock elements eleSize count.toNat := by
  refine ⟨malloc.ne_null halloc, ?_, h.count_lt, ?_⟩
  · have hin := malloc.inside halloc
    rw [toNat_bytes h] at hin
    exact hin
  · intro hpos
    refine Nat.pos_of_ne_zero fun hzero => ?_
    rw [h.pos (BitVec.eq_of_toNat_eq hzero)] at hpos
    exact absurd hpos (Nat.lt_irrefl 0)

/-- A pool begins with the invariant. -/
theorem SizedPool.inv (h : SizedPool count eleSize)
    (hcreate : spdkMempoolCreate B malloc mp count eleSize = some pool) :
    PoolInv B pool.elements eleSize count.toNat { pool := pool, taken := [] } := by
  obtain ⟨-, heleSize, hcount, hsize, hbits⟩ := spdkMempoolCreate_spec hcreate
  refine ⟨rfl, heleSize, ?_, ?_, List.nodup_nil, ?_⟩
  · rw [hsize, Nat.mod_eq_of_lt h.count_lt]
  · rw [hcount, hbits, Finset.card_empty, Nat.add_zero]
  · intro ele
    apply iff_of_false List.not_mem_nil
    rintro ⟨i, hi, -⟩
    rw [hbits] at hi
    exact Finset.notMem_empty i hi

/-- Elements can be taken in the order of the memory, as long as the states are as they should. -/
theorem exists_run_gets {size : ℕ} {s : PoolState β} {n : ℕ} (hsize : B.size s.pool.ba = n)
    (hbits : B.bits s.pool.ba = ∅)
    (hok : ∀ labels s', Run (PoolStep B) s labels s' → PoolOk B size s') {k : ℕ} (hk : k ≤ n) :
    ∃ labels s', Run (PoolStep B) s labels s' ∧ s'.pool.elements = s.pool.elements ∧
      s'.pool.eleSize = s.pool.eleSize ∧ B.size s'.pool.ba = n ∧
      B.bits s'.pool.ba = Finset.range k ∧
      ∀ i < k, elementAt s.pool.elements s.pool.eleSize i ∈ s'.taken := by
  induction k with
  | zero =>
    refine ⟨[], s, .nil s, rfl, rfl, hsize, ?_, ?_⟩
    · rw [hbits, Finset.range_zero]
    · exact fun i hi => absurd hi (Nat.not_lt_zero i)
  | succ k ih =>
    obtain ⟨labels, t, hrun, helements, heleSize, hn, ht, hmem⟩ := ih (Nat.le_of_succ_le hk)
    have hclear : k ∈ B.clearBits t.pool.ba := by
      rw [BitArray.mem_clearBits, hn, ht]
      exact ⟨hk, Finset.notMem_range_self⟩
    have hget : (spdkMempoolGet B t.pool).1 ≠ 0 := by
      rw [Ne, (hok labels t hrun).get]
      exact Finset.ne_empty_of_mem hclear
    -- the first bit that is clear is the next one
    rcases B.findFirstClear_cases t.pool.ba with ⟨hempty, -⟩ | ⟨i, hi, hfind, hne, hbefore⟩
    · exact absurd hempty (Finset.ne_empty_of_mem hclear)
    · obtain ⟨-, hnot⟩ := BitArray.mem_clearBits.mp hi
      rw [ht, Finset.mem_range, Nat.not_lt] at hnot
      have hik : i = k := by
        refine le_antisymm (Nat.le_of_not_lt fun hlt => ?_) hnot
        have hbit := hbefore k hlt
        rw [ht] at hbit
        exact Finset.notMem_range_self hbit
      rw [hik] at hfind
      have hcount : t.pool.count ≠ 0 := by
        intro hzero
        apply hget
        rw [spdkMempoolGet, if_pos hzero]
      have hlt := (BitArray.mem_clearBits.mp hclear).1
      have hget' := spdkMempoolGet_found hcount hlt hfind hne
      rw [helements, heleSize] at hget'
      obtain ⟨hsize', hbits'⟩ := B.set_ofNat hlt
      refine ⟨_, _, hrun.snoc (.get t), ?_, ?_, ?_, ?_, ?_⟩
      · rw [hget']
      · rw [hget']
      · rw [hget']
        exact hsize'.trans hn
      · rw [hget']
        change B.bits (B.set _ _) = _
        rw [hbits', ht, Finset.range_add_one]
      · intro i hi
        rw [if_neg hget, hget']
        rcases Nat.eq_or_lt_of_le (Nat.le_of_lt_succ hi) with rfl | hlt
        · exact List.mem_cons_self
        · exact List.mem_cons_of_mem _ (hmem i hlt)

/-- **The states of a pool are as they should be** exactly if its elements can be counted in 32 bits
and their bytes in 64, and are not empty. -/
theorem mempool_ok_iff (hcreate : spdkMempoolCreate B malloc mp count eleSize = some pool) :
    (∀ labels s, Run (PoolStep B) { pool := pool, taken := [] } labels s →
      PoolOk B (eleSize * count).toNat s) ↔ SizedPool count eleSize := by
  obtain ⟨halloc, heleSize, hcount, hsize, hbits⟩ := spdkMempoolCreate_spec hcreate
  refine ⟨?_, ?_⟩
  · intro hok
    have hlt : count.toNat < 2 ^ 32 := by
      have hinit := (hok [] _ (.nil _)).count
      have hcard := B.card_clearBits pool.ba
      rw [hbits, Finset.card_empty, Nat.add_zero, hsize] at hcard
      change pool.count.toNat = _ at hinit
      rw [hcount, hcard] at hinit
      have := Nat.mod_lt count.toNat (Nat.two_pow_pos 32)
      omega
    rw [Nat.mod_eq_of_lt hlt] at hsize
    have hpos : eleSize = 0 → count = 0 := by
      intro hzero
      by_contra hne
      have hone : 1 ≤ count.toNat :=
        Nat.pos_of_ne_zero fun h => hne (BitVec.eq_of_toNat_eq h)
      obtain ⟨labels, s, hrun, -, hs, -, -, hmem⟩ := exists_run_gets hsize hbits hok hone
      obtain ⟨_, hput⟩ := (hok labels s hrun).put _ (hmem 0 Nat.one_pos)
      rw [spdkMempoolPut, if_pos (hs.trans (heleSize.trans hzero))] at hput
      cases hput
    refine ⟨hlt, ?_, hpos⟩
    by_contra hge
    -- the first element that does not end in the block
    have heleSize_pos : 0 < eleSize.toNat :=
      Nat.pos_of_mul_pos_right (lt_of_lt_of_le (Nat.two_pow_pos 64) (Nat.le_of_not_lt hge))
    have hbytes := (eleSize * count).isLt
    have hmod := Nat.mod_lt (eleSize * count).toNat heleSize_pos
    have hdiv := Nat.div_add_mod (eleSize * count).toNat eleSize.toNat
    generalize (eleSize * count).toNat / eleSize.toNat = q at hdiv
    have hq : q < count.toNat := by
      by_contra hle
      have := Nat.mul_le_mul_left eleSize.toNat (Nat.le_of_not_lt hle)
      omega
    obtain ⟨labels, s, hrun, helements, hs, -, -, hmem⟩ := exists_run_gets hsize hbits hok hq
    obtain ⟨-, hin⟩ := (hok labels s hrun).inside _ (hmem q (Nat.lt_succ_self q))
    have hoffset : (eleSize * BitVec.ofNat 64 q).toNat = eleSize.toNat * q := by
      rw [BitVec.toNat_mul, BitVec.toNat_ofNat, Nat.mod_eq_of_lt (a := q) (by omega),
        Nat.mod_eq_of_lt (by omega)]
    rw [helements, hs, elementAt, add_sub_cancel_left, heleSize, hoffset] at hin
    omega
  · intro hsized labels s hrun
    have hblock := hsized.block halloc
    have hinv := hrun.invariant (fun _ _ _ hinv hstep => hinv.step hblock hstep)
      (hsized.inv hcreate)
    exact hinv.ok hblock (toNat_bytes hsized).symm

end Created

/-! ## A bit array and a heap -/

/-- A bit array as a number of bits and a set. -/
abbrev PlainBits := BitVec 32 × Finset ℕ

namespace PlainBits

def bits (b : PlainBits) : Finset ℕ := b.2.filter (· < b.1.toNat)

def findFirstClear (b : PlainBits) (start : BitVec 32) : BitVec 32 :=
  ((List.range b.1.toNat).find? fun i => decide (start.toNat ≤ i ∧ i ∉ bits b)).elim (-1)
    (BitVec.ofNat 32)

theorem size_lt (b : PlainBits) : b.1.toNat < 2 ^ 32 := b.1.isLt

theorem bits_lt {b : PlainBits} {i : ℕ} (h : i ∈ bits b) : i < b.1.toNat :=
  (Finset.mem_filter.mp h).2

theorem created {n : BitVec 32} {b : PlainBits} (h : some (n, ∅) = some b) :
    b.1.toNat = n.toNat ∧ bits b = ∅ := by
  cases h
  exact ⟨rfl, Finset.filter_empty _⟩

theorem found {b : PlainBits} {start : BitVec 32} {i : ℕ} (hle : start.toNat ≤ i)
    (hlt : i < b.1.toNat) (hclear : i ∉ bits b)
    (hbefore : ∀ j, start.toNat ≤ j → j < i → j ∈ bits b) :
    findFirstClear b start = BitVec.ofNat 32 i := by
  have hfind : (List.range b.1.toNat).find?
      (fun i => decide (start.toNat ≤ i ∧ i ∉ bits b)) = some i := by
    rw [List.find?_range_eq_some]
    refine ⟨decide_eq_true ⟨hle, hclear⟩, List.mem_range.mpr hlt, ?_⟩
    intro j hj
    rw [Bool.not_eq_true', decide_eq_false_iff_not]
    exact fun h => h.2 (hbefore j h.1 hj)
  rw [findFirstClear, hfind, Option.elim_some]

theorem notFound {b : PlainBits} {start : BitVec 32}
    (h : ∀ i, start.toNat ≤ i → i < b.1.toNat → i ∈ bits b) : findFirstClear b start = -1 := by
  have hfind : (List.range b.1.toNat).find?
      (fun i => decide (start.toNat ≤ i ∧ i ∉ bits b)) = none := by
    rw [List.find?_range_eq_none]
    intro i hi
    rw [Bool.not_eq_true', decide_eq_false_iff_not]
    exact fun hclear => hclear.2 (h i hclear.1 hi)
  rw [findFirstClear, hfind, Option.elim_none]

theorem was_set {b : PlainBits} {i : BitVec 32} (h : i.toNat < b.1.toNat) :
    b.1.toNat = b.1.toNat ∧ bits (b.1, insert i.toNat b.2) = insert i.toNat (bits b) := by
  refine ⟨rfl, ?_⟩
  rw [bits, Finset.filter_insert, if_pos h, bits]

theorem was_cleared {b : PlainBits} {i : BitVec 32} (_ : i.toNat < b.1.toNat) :
    b.1.toNat = b.1.toNat ∧ bits (b.1, b.2.erase i.toNat) = (bits b).erase i.toNat :=
  ⟨rfl, Finset.filter_erase _ _ _⟩

end PlainBits

/-- A bit array that is a set. -/
def plainBitArray : BitArray PlainBits where
  create n := some (n, ∅)
  findFirstClear := PlainBits.findFirstClear
  set b i := (b.1, insert i.toNat b.2)
  clear b i := (b.1, b.2.erase i.toNat)
  size b := b.1.toNat
  bits := PlainBits.bits
  size_lt := PlainBits.size_lt
  bits_lt := PlainBits.bits_lt
  created := PlainBits.created
  found := PlainBits.found
  notFound := PlainBits.notFound
  was_set := PlainBits.was_set
  was_cleared := PlainBits.was_cleared

/-- A heap with its free memory behind the first page. -/
def pageAlloc (n : BitVec 64) : Option (BitVec 64) :=
  if 4096 + n.toNat ≤ 2 ^ 64 then some 4096 else none

theorem pageAlloc_eq_some {n p : BitVec 64} (h : pageAlloc n = some p) :
    p = 4096 ∧ 4096 + n.toNat ≤ 2 ^ 64 := by
  rw [pageAlloc, Option.ite_none_right_eq_some] at h
  exact ⟨(Option.some.inj h.2).symm, h.1⟩

theorem pageAlloc_ne_null {n p : BitVec 64} (h : pageAlloc n = some p) : p ≠ 0 := by
  rw [(pageAlloc_eq_some h).1]
  decide

theorem pageAlloc_inside {n p : BitVec 64} (h : pageAlloc n = some p) :
    p.toNat + n.toNat ≤ 2 ^ 64 := by
  obtain ⟨rfl, hle⟩ := pageAlloc_eq_some h
  exact hle

def pageMalloc : Malloc where
  alloc := pageAlloc
  ne_null := pageAlloc_ne_null
  inside := pageAlloc_inside

/-- Two elements of eight bytes are as they should be in every run. -/
theorem mempool_ok_two :
    SizedPool 2 8 ∧ ∀ labels s, Run (PoolStep plainBitArray)
      { pool := { ba := (2, ∅), elements := 4096, eleSize := 8, count := 2 }, taken := [] } labels
      s → PoolOk plainBitArray 16 s := by
  have hcreate : spdkMempoolCreate plainBitArray pageMalloc (some 64) 2 8
      = some { ba := (2, ∅), elements := 4096, eleSize := 8, count := 2 } := rfl
  have hsized : SizedPool 2 8 := ⟨by decide, by decide, fun hzero => absurd hzero (by decide)⟩
  exact ⟨hsized, (mempool_ok_iff hcreate).mpr hsized⟩

/-- Two elements of so many bytes that the bytes of both are counted as 0. -/
theorem mempool_ok_wrapped :
    ¬ ∀ (β : Type) (B : BitArray β) (malloc : Malloc) (mp : Option (BitVec 64))
      (count eleSize : BitVec 64) (pool : Mempool β),
      spdkMempoolCreate B malloc mp count eleSize = some pool →
        ∀ labels s, Run (PoolStep B) { pool := pool, taken := [] } labels s →
          PoolOk B (eleSize * count).toNat s := by
  intro h
  have hok := h _ plainBitArray pageMalloc (some 64) 2 (1 <<< 63)
    { ba := (2, ∅), elements := 4096, eleSize := 1 <<< 63, count := 2 } rfl
  obtain ⟨labels, s, hrun, helements, heleSize, -, -, hmem⟩ :=
    exists_run_gets (n := 2) (k := 1) rfl (Finset.filter_empty _) hok (Nat.le_succ 1)
  obtain ⟨-, hin⟩ := (hok labels s hrun).inside _ (hmem 0 Nat.one_pos)
  rw [heleSize] at hin
  exact absurd ((Nat.le_add_left _ _).trans hin) (by decide)

end ChamberSpo

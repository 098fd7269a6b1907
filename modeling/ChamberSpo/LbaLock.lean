import Mathlib.Algebra.Group.Nat.Defs
import Mathlib.Data.Set.Image
import Mathlib.Order.Interval.Set.LinearOrder
import Mathlib.Tactic.Common
import ChamberSpo.Bitmap

/-!
# The LBA lock

`try_lock_lbas` and `unlock_lbas` walk the words of the bitmap `lba_lock` that a range of LBAs
touches: a partial first word, whole words, a partial last one. Each word is changed by a load
followed by a compare-and-swap that is retried until it succeeds.

* `LockPc`, `lockStep` — one call as a machine whose steps are the atomic 64-bit operations. The
  registers are the C locals `lba_offset` and `ulong_offset`; the others are recomputed from
  them.
* `lockOwn` — the bits the call has acquired and not yet released, at each point of it.
* `lockStep_valid`, `lockStep_rest`, `lockStep_held` — what a step does: outside of what the
  call owns it changes nothing, whatever happened to the bitmap between two steps.
* `tryLockLbas`, `unlockLbas` — a call that runs alone, and `tryLockLbas_of_free`,
  `tryLockLbas_of_conflict`, `bits_unlockLbas` for what it returns.

`ulong_offset` is a `u32`, so the bit of LBA `l` is `l % 2 ^ 38` (`lockBits`).
-/

namespace ChamberSpo

open Bitmap

/-- `lba_lock` -/
abbrev LockWords := Bitmap 64

/-- `BITS_PER_LONG` -/
abbrev bitsPerLong : ℕ := 64

/-- `GET_MASK64` -/
def getMask64 (offset width : ℕ) : BitVec 64 :=
  (BitVec.allOnes 64 <<< offset) &&& (BitVec.allOnes 64 >>> ((64 - offset) - width))

/-- The locals of `try_lock_lbas` and `unlock_lbas` that live across words. -/
structure LockRegs where
  lbaOffset : ℕ
  ulongOffset : ℕ
  deriving DecidableEq, Repr

/-- Where a call of `try_lock_lbas` or `unlock_lbas` stands between two atomic operations. -/
inductive LockPc where
  /-- no call is made -/
  | idle
  /-- `try_lock_lbas` is about to load a word -/
  | lockLoad (r : LockRegs)
  /-- it loaded `unlock`, saw no conflict and is about to swap the word -/
  | lockCas (r : LockRegs) (unlock : BitVec 64)
  /-- `rollback:` is about to load a word -/
  | rollbackLoad (r : LockRegs)
  /-- it loaded `lock` and is about to swap the word -/
  | rollbackCas (r : LockRegs) (lock : BitVec 64)
  /-- `try_lock_lbas` returned `0` -/
  | locked
  /-- `try_lock_lbas` returned `-1` -/
  | failed
  /-- `unlock_lbas` is about to load a word -/
  | unlockLoad (r : LockRegs)
  /-- it loaded `lock` and is about to swap the word -/
  | unlockCas (r : LockRegs) (lock : BitVec 64)
  /-- `unlock_lbas` returned -/
  | unlocked
  deriving DecidableEq

section Call

variable (slba nlbs : ℕ)

/-- `bit_offset` of a word in the forward loops. -/
def bitOffset (r : LockRegs) : ℕ := (slba + r.lbaOffset) % bitsPerLong

/-- `bit_length` of a word in the forward loops. -/
def bitLength (r : LockRegs) : ℕ := min (bitsPerLong - bitOffset slba r) (nlbs - r.lbaOffset)

/-- `lock_mask` of a word in the forward loops. -/
def lockMask (r : LockRegs) : BitVec 64 := getMask64 (bitOffset slba r) (bitLength slba nlbs r)

/-- `bit_length` of a word in the rollback loop. -/
def rollbackLength (r : LockRegs) : ℕ := min bitsPerLong r.lbaOffset

/-- `lock_mask` of a word in the rollback loop. -/
def rollbackMask (r : LockRegs) : BitVec 64 :=
  getMask64 (bitsPerLong - rollbackLength r) (rollbackLength r)

/-- The registers at the first word. -/
def firstWord : LockRegs := { lbaOffset := 0, ulongOffset := slba / bitsPerLong % 2 ^ 32 }

/-- `lba_offset += bit_length; ulong_offset++;` -/
def nextWord (r : LockRegs) : LockRegs :=
  { lbaOffset := r.lbaOffset + bitLength slba nlbs r
    ulongOffset := (r.ulongOffset + 1) % 2 ^ 32 }

/-- `while (lba_offset < bio->nlbs)` of `try_lock_lbas`. -/
def lockLoop (r : LockRegs) : LockPc := if r.lbaOffset < nlbs then .lockLoad r else .locked

/-- `while (lba_offset > 0)` of the rollback, and the `ulong_offset--` that opens its body. -/
def rollbackLoop (r : LockRegs) : LockPc :=
  if 0 < r.lbaOffset then
    .rollbackLoad { r with ulongOffset := (r.ulongOffset + (2 ^ 32 - 1)) % 2 ^ 32 }
  else .failed

/-- `while (lba_offset < bio->nlbs)` of `unlock_lbas`. -/
def unlockLoop (r : LockRegs) : LockPc :=
  if r.lbaOffset < nlbs then .unlockLoad r else .unlocked

/-- One atomic operation of a call, and the local computation that follows it. -/
def lockStep (mem : LockWords) : LockPc → LockPc × LockWords
  | .lockLoad r =>
    let unlock := mem r.ulongOffset
    if unlock &&& lockMask slba nlbs r ≠ 0 then (rollbackLoop r, mem)
    else (.lockCas r unlock, mem)
  | .lockCas r unlock =>
    if mem r.ulongOffset = unlock then
      (lockLoop nlbs (nextWord slba nlbs r),
        Function.update mem r.ulongOffset (unlock ||| lockMask slba nlbs r))
    else (.lockLoad r, mem)
  | .rollbackLoad r => (.rollbackCas r (mem r.ulongOffset), mem)
  | .rollbackCas r lock =>
    if mem r.ulongOffset = lock then
      (rollbackLoop { r with lbaOffset := r.lbaOffset - rollbackLength r },
        Function.update mem r.ulongOffset (lock &&& ~~~rollbackMask r))
    else (.rollbackLoad r, mem)
  | .unlockLoad r => (.unlockCas r (mem r.ulongOffset), mem)
  | .unlockCas r lock =>
    if mem r.ulongOffset = lock then
      (unlockLoop nlbs (nextWord slba nlbs r),
        Function.update mem r.ulongOffset (lock &&& ~~~lockMask slba nlbs r))
    else (.unlockLoad r, mem)
  | pc => (pc, mem)

end Call

/-! ## The bits of a range -/

/-- The bits that stand for the LBAs from `a` to `a + n`. -/
def lockBits (a n : ℕ) : Set ℕ := (fun l => l % 2 ^ 38) '' Set.Ico a (a + n)

theorem mem_lockBits {a n x : ℕ} :
    x ∈ lockBits a n ↔ ∃ l, a ≤ l ∧ l < a + n ∧ l % 2 ^ 38 = x := by
  simp only [lockBits, Set.mem_image, Set.mem_Ico, and_assoc]

@[simp] theorem lockBits_zero (a : ℕ) : lockBits a 0 = ∅ := by
  simp [lockBits]

/-- Below `2 ^ 38` every LBA has its own bit. -/
theorem lockBits_eq_Ico {a n : ℕ} (h : a + n ≤ 2 ^ 38) : lockBits a n = Set.Ico a (a + n) := by
  ext x
  rw [mem_lockBits, Set.mem_Ico]
  refine ⟨?_, ?_⟩
  · rintro ⟨l, hl, hl', rfl⟩
    omega
  · rintro ⟨hx, hx'⟩
    exact ⟨x, hx, hx', by omega⟩

/-- A range is its first `m` LBAs and the rest. -/
theorem lockBits_add (a m n : ℕ) :
    lockBits a (m + n) = lockBits a m ∪ lockBits (a + m) n := by
  rw [lockBits, lockBits, lockBits, ← Set.image_union,
    Set.Ico_union_Ico_eq_Ico (Nat.le_add_right a m) (Nat.le_add_right (a + m) n), Nat.add_assoc]

/-- The two parts share no bit: no range is long enough to meet itself. -/
theorem disjoint_lockBits {a m n : ℕ} (h : m + n ≤ 2 ^ 38) :
    Disjoint (lockBits a m) (lockBits (a + m) n) := by
  rw [Set.disjoint_left]
  intro x hx hx'
  obtain ⟨l, hl, hl', rfl⟩ := mem_lockBits.mp hx
  obtain ⟨l', hm, hm', heq⟩ := mem_lockBits.mp hx'
  omega

/-- An LBA of the range has its bit in it. -/
theorem mem_lockBits_of_mem {a n l : ℕ} (h : l ∈ Set.Ico a (a + n)) : l % 2 ^ 38 ∈ lockBits a n :=
  Set.mem_image_of_mem _ h

/-- `GET_MASK64(offset, width)` has the bits from `offset` to `offset + width`. -/
theorem getLsbD_getMask64 {offset width i : ℕ} (h : offset + width ≤ 64) (hi : i < 64) :
    (getMask64 offset width).getLsbD i = true ↔ offset ≤ i ∧ i < offset + width := by
  simp only [getMask64, BitVec.getLsbD_and, BitVec.getLsbD_shiftLeft, BitVec.getLsbD_ushiftRight,
    BitVec.getLsbD_allOnes, Bool.and_eq_true, decide_eq_true_eq, Bool.not_eq_true',
    decide_eq_false_iff_not]
  omega

/-- A mask inside one word is a piece of the range. -/
theorem wordBits_getMask64 {a n : ℕ} (h : a % 64 + n ≤ 64) :
    wordBits (a / 64 % 2 ^ 32) (getMask64 (a % 64) n) = lockBits a n := by
  ext x
  rw [mem_wordBits, getLsbD_getMask64 h (Nat.mod_lt x (by decide)), mem_lockBits]
  refine ⟨?_, ?_⟩
  · rintro ⟨hk, hx, hx'⟩
    exact ⟨a / 64 * 64 + x % 64, by omega, by omega, by omega⟩
  · rintro ⟨l, hl, hl', rfl⟩
    omega

/-! ## What a step does -/

section Step

variable {slba nlbs : ℕ} {mem : LockWords} {pc : LockPc} {r : LockRegs}

/-- The bits a call has acquired and not yet released. -/
def lockOwn (slba nlbs : ℕ) : LockPc → Set ℕ
  | .lockLoad r | .lockCas r _ | .rollbackLoad r | .rollbackCas r _ => lockBits slba r.lbaOffset
  | .locked => lockBits slba nlbs
  | .unlockLoad r | .unlockCas r _ => lockBits (slba + r.lbaOffset) (nlbs - r.lbaOffset)
  | .idle | .failed | .unlocked => ∅

/-- The registers in the body of a forward loop: they are at a word boundary of the range. -/
structure ForwardAt (slba nlbs : ℕ) (r : LockRegs) : Prop where
  lt : r.lbaOffset < nlbs
  aligned : r.lbaOffset = 0 ∨ (slba + r.lbaOffset) % 64 = 0
  word : r.ulongOffset = (slba + r.lbaOffset) / 64 % 2 ^ 32

/-- The registers in the body of the rollback loop: they are at the word before a boundary. -/
structure RollbackAt (slba nlbs : ℕ) (r : LockRegs) : Prop where
  pos : 0 < r.lbaOffset
  le : r.lbaOffset ≤ nlbs
  aligned : (slba + r.lbaOffset) % 64 = 0
  word : r.ulongOffset = ((slba + r.lbaOffset) / 64 - 1) % 2 ^ 32

/-- What holds of the registers at each point of a call. -/
def LockPc.Valid (slba nlbs : ℕ) : LockPc → Prop
  | .lockLoad r | .unlockLoad r | .unlockCas r _ => ForwardAt slba nlbs r
  | .lockCas r unlock => ForwardAt slba nlbs r ∧ unlock &&& lockMask slba nlbs r = 0
  | .rollbackLoad r | .rollbackCas r _ => RollbackAt slba nlbs r
  | .idle | .locked | .failed | .unlocked => True

/-- The mask of a word in the forward loops is the next piece of the range. -/
theorem ForwardAt.wordBits (h : ForwardAt slba nlbs r) :
    wordBits r.ulongOffset (lockMask slba nlbs r)
      = lockBits (slba + r.lbaOffset) (bitLength slba nlbs r) := by
  rw [h.word]
  exact wordBits_getMask64 (by simp only [bitLength, bitOffset, bitsPerLong]; omega)

theorem ForwardAt.bitLength_pos (h : ForwardAt slba nlbs r) : 0 < bitLength slba nlbs r := by
  have := h.lt
  simp only [bitLength, bitOffset, bitsPerLong]
  omega

theorem ForwardAt.bitLength_le (h : ForwardAt slba nlbs r) :
    r.lbaOffset + bitLength slba nlbs r ≤ nlbs := by
  have := h.lt
  simp only [bitLength]
  omega

/-- The next word, if there is one, is again at a boundary. -/
theorem ForwardAt.nextWord (h : ForwardAt slba nlbs r)
    (hlt : (nextWord slba nlbs r).lbaOffset < nlbs) :
    ForwardAt slba nlbs (nextWord slba nlbs r) := by
  obtain ⟨h₁, h₂, h₃⟩ := h
  simp only [ChamberSpo.nextWord, bitLength, bitOffset, bitsPerLong] at hlt ⊢
  exact ⟨hlt, by simp only; omega, by simp only; omega⟩

theorem forwardAt_firstWord (h : 0 < nlbs) : ForwardAt slba nlbs (firstWord slba) :=
  ⟨h, .inl rfl, rfl⟩

/-- The mask of a word in the rollback loop is the last piece acquired. -/
theorem RollbackAt.wordBits (h : RollbackAt slba nlbs r) :
    wordBits r.ulongOffset (rollbackMask r)
      = lockBits (slba + (r.lbaOffset - rollbackLength r)) (rollbackLength r) := by
  obtain ⟨h₁, -, h₃, h₄⟩ := h
  have hlen : rollbackLength r ≤ 64 ∧ rollbackLength r ≤ r.lbaOffset ∧ 0 < rollbackLength r := by
    simp only [rollbackLength, bitsPerLong]
    omega
  have hword : r.ulongOffset = (slba + (r.lbaOffset - rollbackLength r)) / 64 % 2 ^ 32 := by
    rw [h₄]
    congr 1
    omega
  have hoff : bitsPerLong - rollbackLength r
      = (slba + (r.lbaOffset - rollbackLength r)) % 64 := by
    simp only [bitsPerLong]
    omega
  rw [rollbackMask, hword, hoff]
  exact wordBits_getMask64 (by omega)

/-- From a boundary the rollback loop is entered at the word before it. -/
theorem rollbackLoop_valid (hle : r.lbaOffset ≤ nlbs)
    (hal : r.lbaOffset = 0 ∨ (slba + r.lbaOffset) % 64 = 0)
    (hw : r.ulongOffset = (slba + r.lbaOffset) / 64 % 2 ^ 32) :
    (rollbackLoop r).Valid slba nlbs := by
  simp only [rollbackLoop]
  split
  · exact ⟨‹_›, hle, by simp only; omega, by simp only; omega⟩
  · trivial

theorem lockLoop_valid (h : r.lbaOffset < nlbs → ForwardAt slba nlbs r) :
    (lockLoop nlbs r).Valid slba nlbs := by
  simp only [lockLoop]
  split
  · exact h ‹_›
  · trivial

theorem unlockLoop_valid (h : r.lbaOffset < nlbs → ForwardAt slba nlbs r) :
    (unlockLoop nlbs r).Valid slba nlbs := by
  simp only [unlockLoop]
  split
  · exact h ‹_›
  · trivial

/-- **The registers stay valid.** No other call can disturb them. -/
theorem lockStep_valid (h : pc.Valid slba nlbs) :
    (lockStep slba nlbs mem pc).1.Valid slba nlbs := by
  cases pc with
  | lockLoad r =>
    simp only [lockStep]
    split
    · exact rollbackLoop_valid h.lt.le h.aligned h.word
    · exact ⟨h, not_not.mp ‹_›⟩
  | lockCas r unlock =>
    simp only [lockStep]
    split
    · exact lockLoop_valid h.1.nextWord
    · exact h.1
  | rollbackLoad r => exact h
  | rollbackCas r lock =>
    simp only [lockStep]
    split
    · -- the words before the last one acquired are full, all but the first
      obtain ⟨h₁, h₂, h₃, h₄⟩ := h
      refine rollbackLoop_valid ?_ ?_ ?_ <;>
        simp only [rollbackLength, bitsPerLong] <;> omega
    · exact h
  | unlockLoad r => exact h
  | unlockCas r lock =>
    simp only [lockStep]
    split
    · exact unlockLoop_valid h.nextWord
    · exact h
  | idle => trivial
  | locked => trivial
  | failed => trivial
  | unlocked => trivial

theorem lockOwn_lockLoop (hle : r.lbaOffset ≤ nlbs) :
    lockOwn slba nlbs (lockLoop nlbs r) = lockBits slba r.lbaOffset := by
  simp only [lockLoop]
  split
  · rfl
  · rw [show r.lbaOffset = nlbs by omega]
    rfl

theorem lockOwn_rollbackLoop :
    lockOwn slba nlbs (rollbackLoop r) = lockBits slba r.lbaOffset := by
  simp only [rollbackLoop]
  split
  · rfl
  · rw [show r.lbaOffset = 0 by omega, lockBits_zero]
    rfl

theorem lockOwn_unlockLoop :
    lockOwn slba nlbs (unlockLoop nlbs r)
      = lockBits (slba + r.lbaOffset) (nlbs - r.lbaOffset) := by
  simp only [unlockLoop]
  split
  · rfl
  · rw [show nlbs - r.lbaOffset = 0 by omega, lockBits_zero]
    rfl

/-- Entering a call of `try_lock_lbas` owns nothing. -/
theorem lockOwn_entry : lockOwn slba nlbs (lockLoop nlbs (firstWord slba)) = ∅ := by
  rw [lockOwn_lockLoop (Nat.zero_le _)]
  exact lockBits_zero slba

/-- Entering a call of `unlock_lbas` owns the whole range. -/
theorem lockOwn_unlockEntry :
    lockOwn slba nlbs (unlockLoop nlbs (firstWord slba)) = lockBits slba nlbs :=
  lockOwn_unlockLoop

/-- The piece of a forward word splits what is left of the range. -/
theorem ForwardAt.rest (h : ForwardAt slba nlbs r) :
    lockBits (slba + r.lbaOffset) (nlbs - r.lbaOffset)
      = lockBits (slba + r.lbaOffset) (bitLength slba nlbs r)
        ∪ lockBits (slba + (ChamberSpo.nextWord slba nlbs r).lbaOffset)
            (nlbs - (ChamberSpo.nextWord slba nlbs r).lbaOffset) := by
  have hle := h.bitLength_le
  rw [ChamberSpo.nextWord, ← Nat.add_assoc, ← lockBits_add]
  congr 1
  simp only
  omega

/-- The piece of a rollback word is the end of what was acquired. -/
theorem lockBits_rollback (slba : ℕ) (r : LockRegs) :
    lockBits slba r.lbaOffset
      = lockBits slba (r.lbaOffset - rollbackLength r)
        ∪ lockBits (slba + (r.lbaOffset - rollbackLength r)) (rollbackLength r) := by
  rw [← lockBits_add]
  congr 1
  simp only [rollbackLength]
  omega

/-- Adding a free piece to `B` and to a part of it leaves the rest of `B` alone. -/
theorem union_sdiff_union {B S P : Set ℕ} (h : Disjoint P B) : (B ∪ P) \ (S ∪ P) = B \ S := by
  ext x
  have hx : x ∈ P → x ∉ B := fun hP hB => Set.disjoint_left.mp h hP hB
  simp only [Set.mem_sdiff, Set.mem_union]
  tauto

/-- **Outside of what the call owns, a step changes no bit**, whatever the bitmap is. -/
theorem lockStep_rest (h : pc.Valid slba nlbs) :
    bits (lockStep slba nlbs mem pc).2 \ lockOwn slba nlbs (lockStep slba nlbs mem pc).1
      = bits mem \ lockOwn slba nlbs pc := by
  cases pc with
  | lockLoad r =>
    simp only [lockStep]
    split
    · rw [lockOwn_rollbackLoop]; rfl
    · rfl
  | lockCas r unlock =>
    simp only [lockStep]
    split
    · rename_i hcas
      obtain ⟨hf, hfree⟩ := h
      have hdisj := (and_eq_zero_iff mem r.ulongOffset (lockMask slba nlbs r)).mp (hcas ▸ hfree)
      rw [← hcas, bits_or, lockOwn_lockLoop hf.bitLength_le]
      rw [hf.wordBits] at hdisj ⊢
      rw [nextWord, lockBits_add]
      exact union_sdiff_union hdisj
    · rfl
  | rollbackLoad r => rfl
  | rollbackCas r lock =>
    simp only [lockStep]
    split
    · rename_i hcas
      rw [← hcas, bits_andNot (by decide), h.wordBits, lockOwn_rollbackLoop, Set.sdiff_sdiff,
        Set.union_comm, ← lockBits_rollback]
      rfl
    · rfl
  | unlockLoad r => rfl
  | unlockCas r lock =>
    simp only [lockStep]
    split
    · rename_i hcas
      rw [← hcas, bits_andNot (by decide), ForwardAt.wordBits h, lockOwn_unlockLoop,
        Set.sdiff_sdiff, ← ForwardAt.rest h]
      rfl
    · rfl
  | idle => rfl
  | locked => rfl
  | failed => rfl
  | unlocked => rfl

/-- **A call keeps the bits it owns**: what it owned was set, so what it owns is. -/
theorem lockStep_held (hn : nlbs < 2 ^ 32) (h : pc.Valid slba nlbs)
    (hown : lockOwn slba nlbs pc ⊆ bits mem) :
    lockOwn slba nlbs (lockStep slba nlbs mem pc).1 ⊆ bits (lockStep slba nlbs mem pc).2 := by
  cases pc with
  | lockLoad r =>
    simp only [lockStep]
    split
    · rw [lockOwn_rollbackLoop]; exact hown
    · exact hown
  | lockCas r unlock =>
    simp only [lockStep]
    split
    · rename_i hcas
      rw [← hcas, bits_or, lockOwn_lockLoop h.1.bitLength_le, h.1.wordBits, nextWord,
        lockBits_add]
      exact Set.union_subset_union_left _ hown
    · exact hown
  | rollbackLoad r => exact hown
  | rollbackCas r lock =>
    simp only [lockStep]
    split
    · rename_i hcas
      have hle := h.le
      have hlen : rollbackLength r ≤ r.lbaOffset := Nat.min_le_right _ _
      have hsub : lockBits slba (r.lbaOffset - rollbackLength r) ⊆ bits mem := fun x hx =>
        hown (by
          rw [lockOwn, lockBits_rollback]
          exact .inl hx)
      rw [← hcas, bits_andNot (by decide), h.wordBits, lockOwn_rollbackLoop]
      exact Set.subset_sdiff.mpr ⟨hsub, disjoint_lockBits (by simp only; omega)⟩
    · exact hown
  | unlockLoad r => exact hown
  | unlockCas r lock =>
    simp only [lockStep]
    split
    · rename_i hcas
      have hf : ForwardAt slba nlbs r := h
      have hle := hf.bitLength_le
      have hsub := hown
      rw [lockOwn, hf.rest] at hsub
      rw [← hcas, bits_andNot (by decide), hf.wordBits, lockOwn_unlockLoop]
      refine Set.subset_sdiff.mpr ⟨Set.union_subset_iff.mp hsub |>.2, ?_⟩
      rw [nextWord, ← Nat.add_assoc]
      exact (disjoint_lockBits (by simp only; omega)).symm
    · exact hown
  | idle => exact hown
  | locked => exact hown
  | failed => exact hown
  | unlocked => exact hown

end Step

/-! ## A call that runs alone -/

/-- The calls that have returned. -/
def LockPc.done : LockPc → Bool
  | .idle | .locked | .failed | .unlocked => true
  | _ => false

/-- A call whose steps are not interleaved with those of another: at most `fuel` of them. -/
def runAlone (slba nlbs : ℕ) : ℕ → LockPc → LockWords → LockPc × LockWords
  | 0, pc, mem => (pc, mem)
  | fuel + 1, pc, mem =>
    if pc.done then (pc, mem)
    else runAlone slba nlbs fuel (lockStep slba nlbs mem pc).1 (lockStep slba nlbs mem pc).2

/-- Enough steps for any call on `nlbs` LBAs that runs alone (`runAlone_done`). -/
def lockFuel (nlbs : ℕ) : ℕ := 4 * nlbs + 2

/-- `try_lock_lbas`: the result and the bitmap. -/
def tryLockLbas (mem : LockWords) (slba nlbs : ℕ) : Int × LockWords :=
  match runAlone slba nlbs (lockFuel nlbs) (lockLoop nlbs (firstWord slba)) mem with
  | (.locked, mem') => (0, mem')
  | (_, mem') => (-1, mem')

/-- `unlock_lbas`: the bitmap. -/
def unlockLbas (mem : LockWords) (slba nlbs : ℕ) : LockWords :=
  (runAlone slba nlbs (lockFuel nlbs) (unlockLoop nlbs (firstWord slba)) mem).2

section Alone

variable {slba nlbs : ℕ} {mem : LockWords} {pc : LockPc} {E : Set ℕ}

/-- A word that was loaded is still the one in memory. -/
def LockPc.Loaded (mem : LockWords) (pc : LockPc) : Prop :=
  ∀ r v, pc = .lockCas r v ∨ pc = .rollbackCas r v ∨ pc = .unlockCas r v →
    mem r.ulongOffset = v

/-- What holds of a call that runs alone in an environment that holds the bits `E`. -/
structure Alone (slba nlbs : ℕ) (E : Set ℕ) (pc : LockPc) (mem : LockWords) : Prop where
  valid : pc.Valid slba nlbs
  /-- the bits the call does not own are those of the environment -/
  rest : bits mem \ lockOwn slba nlbs pc = E
  /-- nobody changes a word between its load and its swap -/
  loaded : pc.Loaded mem
  /-- the call gives up only on a range that meets the environment -/
  conflict : pc = .failed ∨ (∃ r, pc = .rollbackLoad r) ∨ (∃ r v, pc = .rollbackCas r v) →
    ¬ Disjoint (lockBits slba nlbs) E

/-- How many steps a call that runs alone has left, at most. -/
def LockPc.stepsLeft (nlbs : ℕ) : LockPc → ℕ
  | .lockLoad r => 2 * (nlbs - r.lbaOffset) + 2 * nlbs + 1
  | .lockCas r _ => 2 * (nlbs - r.lbaOffset) + 2 * nlbs
  | .rollbackLoad r => 2 * r.lbaOffset
  | .rollbackCas r _ => 2 * r.lbaOffset - 1
  | .unlockLoad r => 2 * (nlbs - r.lbaOffset)
  | .unlockCas r _ => 2 * (nlbs - r.lbaOffset) - 1
  | .idle | .locked | .failed | .unlocked => 0

/-- A word of the range that meets the bitmap outside of what is already acquired meets the
environment. -/
theorem Alone.conflict_of_and_ne_zero {r : LockRegs} (hn : nlbs < 2 ^ 32)
    (h : Alone slba nlbs E (.lockLoad r) mem)
    (hand : mem r.ulongOffset &&& lockMask slba nlbs r ≠ 0) :
    ¬ Disjoint (lockBits slba nlbs) E := by
  have hf : ForwardAt slba nlbs r := h.valid
  have hle := hf.bitLength_le
  rw [Ne, and_eq_zero_iff, hf.wordBits, Set.not_disjoint_iff] at hand
  obtain ⟨x, hx, hxB⟩ := hand
  have hxo : x ∉ lockBits slba r.lbaOffset := fun hxo =>
    Set.disjoint_left.mp (disjoint_lockBits (by omega)) hxo hx
  have hxr : x ∈ lockBits slba nlbs := by
    rw [show nlbs = r.lbaOffset + (nlbs - r.lbaOffset) by omega, lockBits_add, hf.rest]
    exact .inr (.inl hx)
  exact Set.not_disjoint_iff.mpr ⟨x, hxr, h.rest ▸ ⟨hxB, hxo⟩⟩

theorem loaded_lockCas (r : LockRegs) : (LockPc.lockCas r (mem r.ulongOffset)).Loaded mem := by
  rintro r' v (h | h | h) <;> cases h
  rfl

theorem loaded_rollbackCas (r : LockRegs) :
    (LockPc.rollbackCas r (mem r.ulongOffset)).Loaded mem := by
  rintro r' v (h | h | h) <;> cases h
  rfl

theorem loaded_unlockCas (r : LockRegs) :
    (LockPc.unlockCas r (mem r.ulongOffset)).Loaded mem := by
  rintro r' v (h | h | h) <;> cases h
  rfl

theorem loaded_lockLoop (r : LockRegs) : (lockLoop nlbs r).Loaded mem := by
  simp only [lockLoop]
  split <;> rintro r' v (h | h | h) <;> cases h

theorem loaded_rollbackLoop (r : LockRegs) : (rollbackLoop r).Loaded mem := by
  simp only [rollbackLoop]
  split <;> rintro r' v (h | h | h) <;> cases h

theorem loaded_unlockLoop (r : LockRegs) : (unlockLoop nlbs r).Loaded mem := by
  simp only [unlockLoop]
  split <;> rintro r' v (h | h | h) <;> cases h

/-- **A step of a call that runs alone** succeeds at once and makes progress. -/
theorem Alone.step (hn : nlbs < 2 ^ 32) (h : Alone slba nlbs E pc mem) (hd : pc.done = false) :
    Alone slba nlbs E (lockStep slba nlbs mem pc).1 (lockStep slba nlbs mem pc).2
      ∧ (lockStep slba nlbs mem pc).1.stepsLeft nlbs < pc.stepsLeft nlbs := by
  have hvalid : (lockStep slba nlbs mem pc).1.Valid slba nlbs := lockStep_valid h.valid
  have hrest := (lockStep_rest h.valid).trans h.rest
  cases pc with
  | lockLoad r =>
    have hconf := h.conflict_of_and_ne_zero hn
    have hlt := (show ForwardAt slba nlbs r from h.valid).lt
    by_cases hand : mem r.ulongOffset &&& lockMask slba nlbs r ≠ 0
    · simp only [lockStep, if_pos hand] at hvalid hrest ⊢
      refine ⟨⟨hvalid, hrest, loaded_rollbackLoop r, fun _ => hconf hand⟩, ?_⟩
      simp only [rollbackLoop]
      split <;> simp only [LockPc.stepsLeft] <;> omega
    · simp only [lockStep, if_neg hand] at hvalid hrest ⊢
      refine ⟨⟨hvalid, hrest, loaded_lockCas r, ?_⟩, ?_⟩
      · rintro (h | ⟨r, h⟩ | ⟨r, v, h⟩) <;> cases h
      · simp only [LockPc.stepsLeft]; omega
  | lockCas r unlock =>
    have hf : ForwardAt slba nlbs r := h.valid.1
    have hlt := hf.lt
    have hpos := hf.bitLength_pos
    simp only [lockStep, if_pos (h.loaded r unlock (.inl rfl))] at hvalid hrest ⊢
    refine ⟨⟨hvalid, hrest, loaded_lockLoop _, ?_⟩, ?_⟩
    · simp only [lockLoop]
      split <;> rintro (h | ⟨r, h⟩ | ⟨r, v, h⟩) <;> cases h
    · simp only [lockLoop]
      split <;> simp only [LockPc.stepsLeft, nextWord] <;> omega
  | rollbackLoad r =>
    have hpos := (show RollbackAt slba nlbs r from h.valid).pos
    refine ⟨⟨hvalid, hrest, loaded_rollbackCas r, ?_⟩, ?_⟩
    · intro _
      exact h.conflict (.inr (.inl ⟨r, rfl⟩))
    · simp only [lockStep, LockPc.stepsLeft]; omega
  | rollbackCas r lock =>
    have hpos := (show RollbackAt slba nlbs r from h.valid).pos
    have hlen : 0 < rollbackLength r := by simp only [rollbackLength, bitsPerLong]; omega
    simp only [lockStep, if_pos (h.loaded r lock (.inr (.inl rfl)))] at hvalid hrest ⊢
    refine ⟨⟨hvalid, hrest, loaded_rollbackLoop _, ?_⟩, ?_⟩
    · intro _
      exact h.conflict (.inr (.inr ⟨r, lock, rfl⟩))
    · simp only [rollbackLoop]
      split <;> simp only [LockPc.stepsLeft] <;> omega
  | unlockLoad r =>
    have hlt := (show ForwardAt slba nlbs r from h.valid).lt
    refine ⟨⟨hvalid, hrest, loaded_unlockCas r, ?_⟩, ?_⟩
    · rintro (h | ⟨r, h⟩ | ⟨r, v, h⟩) <;> cases h
    · simp only [lockStep, LockPc.stepsLeft]; omega
  | unlockCas r lock =>
    have hf : ForwardAt slba nlbs r := h.valid
    have hlt := hf.lt
    have hpos := hf.bitLength_pos
    simp only [lockStep, if_pos (h.loaded r lock (.inr (.inr rfl)))] at hvalid hrest ⊢
    refine ⟨⟨hvalid, hrest, loaded_unlockLoop _, ?_⟩, ?_⟩
    · simp only [unlockLoop]
      split <;> rintro (h | ⟨r, h⟩ | ⟨r, v, h⟩) <;> cases h
    · simp only [unlockLoop]
      split <;> simp only [LockPc.stepsLeft, nextWord] <;> omega
  | idle => cases hd
  | locked => cases hd
  | failed => cases hd
  | unlocked => cases hd

/-- **A call that runs alone returns**, and what holds of it holds at the end. -/
theorem Alone.run (hn : nlbs < 2 ^ 32) {fuel : ℕ} (h : Alone slba nlbs E pc mem)
    (hfuel : pc.stepsLeft nlbs ≤ fuel) :
    Alone slba nlbs E (runAlone slba nlbs fuel pc mem).1 (runAlone slba nlbs fuel pc mem).2
      ∧ (runAlone slba nlbs fuel pc mem).1.done = true := by
  induction fuel generalizing pc mem with
  | zero =>
    refine ⟨h, ?_⟩
    rw [runAlone]
    cases hd : pc.done
    · have := (h.step hn hd).2
      omega
    · rfl
  | succ fuel ih =>
    rw [runAlone]
    cases hd : pc.done
    · obtain ⟨hstep, hlt⟩ := h.step hn hd
      exact ih hstep (by omega)
    · exact ⟨h, hd⟩

/-- The points of a call of `try_lock_lbas`. -/
def LockPc.trying : LockPc → Bool
  | .lockLoad _ | .lockCas _ _ | .rollbackLoad _ | .rollbackCas _ _ | .locked | .failed => true
  | .idle | .unlockLoad _ | .unlockCas _ _ | .unlocked => false

theorem lockLoop_trying (r : LockRegs) : (lockLoop nlbs r).trying = true := by
  simp only [lockLoop]
  split <;> rfl

theorem rollbackLoop_trying (r : LockRegs) : (rollbackLoop r).trying = true := by
  simp only [rollbackLoop]
  split <;> rfl

theorem unlockLoop_trying (r : LockRegs) : (unlockLoop nlbs r).trying = false := by
  simp only [unlockLoop]
  split <;> rfl

/-- A call stays the call it is. -/
theorem lockStep_trying : (lockStep slba nlbs mem pc).1.trying = pc.trying := by
  cases pc <;> simp only [lockStep] <;> (try split) <;>
    first | rfl | exact lockLoop_trying _ | exact rollbackLoop_trying _ | exact unlockLoop_trying _

theorem runAlone_trying {fuel : ℕ} :
    (runAlone slba nlbs fuel pc mem).1.trying = pc.trying := by
  induction fuel generalizing pc mem with
  | zero => rfl
  | succ fuel ih =>
    rw [runAlone]
    split
    · rfl
    · rw [ih, lockStep_trying]

/-- Entering `try_lock_lbas`, everything that is set belongs to the environment. -/
theorem alone_lockLoop (mem : LockWords) :
    Alone slba nlbs (bits mem) (lockLoop nlbs (firstWord slba)) mem where
  valid := lockLoop_valid forwardAt_firstWord
  rest := by rw [lockOwn_entry, Set.sdiff_empty]
  loaded := loaded_lockLoop _
  conflict := by
    simp only [lockLoop]
    split <;> rintro (h | ⟨r, h⟩ | ⟨r, v, h⟩) <;> cases h

/-- Entering `unlock_lbas`, what is set outside of the range belongs to the environment. -/
theorem alone_unlockLoop (mem : LockWords) :
    Alone slba nlbs (bits mem \ lockBits slba nlbs) (unlockLoop nlbs (firstWord slba)) mem where
  valid := unlockLoop_valid forwardAt_firstWord
  rest := by rw [lockOwn_unlockEntry]
  loaded := loaded_unlockLoop _
  conflict := by
    simp only [unlockLoop]
    split <;> rintro (h | ⟨r, h⟩ | ⟨r, v, h⟩) <;> cases h

theorem stepsLeft_lockLoop : (lockLoop nlbs (firstWord slba)).stepsLeft nlbs ≤ lockFuel nlbs := by
  simp only [lockLoop, lockFuel]
  split <;> simp only [LockPc.stepsLeft] <;> omega

theorem stepsLeft_unlockLoop :
    (unlockLoop nlbs (firstWord slba)).stepsLeft nlbs ≤ lockFuel nlbs := by
  simp only [unlockLoop, lockFuel]
  split <;> simp only [LockPc.stepsLeft] <;> omega

/-- What a call owns stays set to its end. -/
theorem runAlone_held (hn : nlbs < 2 ^ 32) (fuel : ℕ) (h : pc.Valid slba nlbs)
    (hown : lockOwn slba nlbs pc ⊆ bits mem) :
    lockOwn slba nlbs (runAlone slba nlbs fuel pc mem).1
      ⊆ bits (runAlone slba nlbs fuel pc mem).2 := by
  induction fuel generalizing pc mem with
  | zero => exact hown
  | succ fuel ih =>
    rw [runAlone]
    split
    · exact hown
    · exact ih (lockStep_valid h) (lockStep_held hn h hown)

/-- **How a call of `try_lock_lbas` that runs alone ends**: it returns `0` with the whole range,
or `-1` with nothing changed because the range meets what was set. -/
theorem runAlone_lockLoop (hn : nlbs < 2 ^ 32) (mem : LockWords) :
    (∃ mem', runAlone slba nlbs (lockFuel nlbs) (lockLoop nlbs (firstWord slba)) mem
          = (.locked, mem')
        ∧ Disjoint (lockBits slba nlbs) (bits mem) ∧ bits mem' = bits mem ∪ lockBits slba nlbs)
      ∨ (runAlone slba nlbs (lockFuel nlbs) (lockLoop nlbs (firstWord slba)) mem = (.failed, mem)
        ∧ ¬ Disjoint (lockBits slba nlbs) (bits mem)) := by
  have hstart : Alone slba nlbs (bits mem) (lockLoop nlbs (firstWord slba)) mem :=
    alone_lockLoop mem
  have hheld : lockOwn slba nlbs (lockLoop nlbs (firstWord slba)) ⊆ bits mem := by
    rw [lockOwn_entry]
    exact Set.empty_subset _
  obtain ⟨hend, hdone⟩ := hstart.run hn stepsLeft_lockLoop
  replace hheld := runAlone_held hn (lockFuel nlbs) hstart.valid hheld
  have htry : (runAlone slba nlbs (lockFuel nlbs) (lockLoop nlbs (firstWord slba)) mem).1.trying
      = true := by rw [runAlone_trying, lockLoop_trying]
  generalize runAlone slba nlbs (lockFuel nlbs) (lockLoop nlbs (firstWord slba)) mem = out
    at hend hdone hheld htry ⊢
  obtain ⟨pc, mem'⟩ := out
  cases pc <;> simp only [LockPc.done, LockPc.trying, reduceCtorEq] at hdone htry
  case locked =>
    have hrest : bits mem' \ lockBits slba nlbs = bits mem := hend.rest
    refine .inl ⟨mem', rfl, ?_, ?_⟩
    · rw [← hrest]
      exact Set.disjoint_sdiff_right
    · rw [← hrest]
      exact (Set.sdiff_union_of_subset hheld).symm
  case failed =>
    have hbits : bits mem' = bits mem := by rw [← hend.rest, lockOwn, Set.sdiff_empty]
    exact .inr ⟨by rw [bits_injective hbits], hend.conflict (.inl rfl)⟩

/-- **`try_lock_lbas` on a free range** takes it. -/
theorem tryLockLbas_of_free (hn : nlbs < 2 ^ 32)
    (h : Disjoint (lockBits slba nlbs) (bits mem)) :
    (tryLockLbas mem slba nlbs).1 = 0
      ∧ bits (tryLockLbas mem slba nlbs).2 = bits mem ∪ lockBits slba nlbs := by
  rcases runAlone_lockLoop hn mem with ⟨mem', hrun, -, hbits⟩ | ⟨-, hconf⟩
  · rw [tryLockLbas, hrun]
    exact ⟨rfl, hbits⟩
  · exact absurd h hconf

/-- **`try_lock_lbas` on a range that is not free** fails and leaves the bitmap as it was. -/
theorem tryLockLbas_of_conflict (hn : nlbs < 2 ^ 32)
    (h : ¬ Disjoint (lockBits slba nlbs) (bits mem)) :
    tryLockLbas mem slba nlbs = (-1, mem) := by
  rcases runAlone_lockLoop hn mem with ⟨-, -, hfree, -⟩ | ⟨hrun, -⟩
  · exact absurd hfree h
  · rw [tryLockLbas, hrun]

/-- **`unlock_lbas`** clears the bits of its range, whoever set them. -/
theorem bits_unlockLbas (hn : nlbs < 2 ^ 32) (mem : LockWords) (slba : ℕ) :
    bits (unlockLbas mem slba nlbs) = bits mem \ lockBits slba nlbs := by
  have hstart : Alone slba nlbs _ (unlockLoop nlbs (firstWord slba)) mem := alone_unlockLoop mem
  obtain ⟨hend, hdone⟩ := hstart.run hn stepsLeft_unlockLoop
  have htry : (runAlone slba nlbs (lockFuel nlbs) (unlockLoop nlbs (firstWord slba)) mem).1.trying
      = false := by rw [runAlone_trying, unlockLoop_trying]
  simp only [unlockLbas]
  generalize runAlone slba nlbs (lockFuel nlbs) (unlockLoop nlbs (firstWord slba)) mem = out
    at hend hdone htry ⊢
  obtain ⟨pc, mem'⟩ := out
  rw [← hend.rest]
  cases pc <;> simp only [LockPc.done, LockPc.trying, reduceCtorEq] at hdone htry
  all_goals exact Set.sdiff_empty.symm

end Alone

end ChamberSpo

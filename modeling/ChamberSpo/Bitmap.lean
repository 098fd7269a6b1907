import Mathlib.Order.CompletePartialOrder
import Mathlib.Data.Set.Lattice
import Mathlib.Logic.Function.Basic

/-!
# Bitmaps over machine words

An array of `w`-bit words read as the set of its set bits: bit `i` of word `k` is the element
`w * k + i`.

* `bits m` — the set a bitmap stands for; `wordBits k v` — the part of it the value `v` in word
  `k` contributes.
* `bits_or`, `bits_andNot` — or-ing a mask into a word adds exactly its bits, and-ing with the
  complement removes exactly them.
* `and_eq_zero_iff` — testing a word against a mask tests disjointness.
* `wordBits_one_shiftLeft` — the word of a single bit.
* `and_xor_eq_zero_iff` — what one bitmap has and another has not.
* `bits_injective` — a bitmap is determined by its set.
-/

namespace ChamberSpo

/-- An array of `w`-bit words. -/
abbrev Bitmap (w : ℕ) := ℕ → BitVec w

namespace Bitmap

variable {w : ℕ} {m m' : Bitmap w} {k x : ℕ} {v : BitVec w}

/-- The set bits of a bitmap. -/
def bits (m : Bitmap w) : Set ℕ := {x | (m (x / w)).getLsbD (x % w) = true}

/-- The bits that the value `v` sets when it stands in word `k`. -/
def wordBits (k : ℕ) (v : BitVec w) : Set ℕ := {x | x / w = k ∧ v.getLsbD (x % w) = true}

theorem mem_bits : x ∈ bits m ↔ (m (x / w)).getLsbD (x % w) = true := Iff.rfl

theorem mem_wordBits : x ∈ wordBits k v ↔ x / w = k ∧ v.getLsbD (x % w) = true := Iff.rfl

/-- Bit `i` of word `k` stands for `w * k + i`. -/
theorem div_mod_word (k : ℕ) {i : ℕ} (hi : i < w) :
    (w * k + i) / w = k ∧ (w * k + i) % w = i := by
  refine ⟨?_, ?_⟩
  · rw [Nat.mul_add_div (by omega), Nat.div_eq_of_lt hi, Nat.add_zero]
  · rw [Nat.mul_add_mod, Nat.mod_eq_of_lt hi]

/-- A bitmap of zero words has no bit set. -/
@[simp] theorem bits_zero : bits (fun _ => 0 : Bitmap w) = ∅ := by
  ext x
  simp [mem_bits]

/-- Or-ing `v` into word `k` adds the bits of `v`. -/
theorem bits_or (m : Bitmap w) (k : ℕ) (v : BitVec w) :
    bits (Function.update m k (m k ||| v)) = bits m ∪ wordBits k v := by
  ext x
  rw [Set.mem_union, mem_bits, mem_bits, mem_wordBits]
  by_cases h : x / w = k
  · subst h
    simp
  · simp [h]

/-- Clearing `v` in word `k` removes the bits of `v`. -/
theorem bits_andNot (hw : 0 < w) (m : Bitmap w) (k : ℕ) (v : BitVec w) :
    bits (Function.update m k (m k &&& ~~~v)) = bits m \ wordBits k v := by
  ext x
  rw [Set.mem_sdiff, mem_bits, mem_bits, mem_wordBits]
  by_cases h : x / w = k
  · subst h
    simp [Nat.mod_lt x hw]
  · simp [h]

/-- Word `k` has no bit in common with `v` exactly when the bitmap has none. -/
theorem and_eq_zero_iff (m : Bitmap w) (k : ℕ) (v : BitVec w) :
    m k &&& v = 0 ↔ Disjoint (wordBits k v) (bits m) := by
  rw [Set.disjoint_left]
  refine ⟨?_, ?_⟩
  · rintro h x ⟨rfl, hv⟩ hx
    have hbit := congrArg (fun u : BitVec w => u.getLsbD (x % w)) h
    simp only [BitVec.getLsbD_and, hv, Bool.and_true, BitVec.ofNat_eq_ofNat,
      BitVec.getLsbD_zero] at hbit
    rw [mem_bits, hbit] at hx
    exact Bool.false_ne_true hx
  · intro h
    refine BitVec.eq_of_getLsbD_eq ?_
    intro i hi
    obtain ⟨hdiv, hmod⟩ := div_mod_word k hi
    rw [BitVec.getLsbD_and, BitVec.ofNat_eq_ofNat, BitVec.getLsbD_zero]
    cases hv : v.getLsbD i
    · rw [Bool.and_false]
    · have hx : w * k + i ∉ bits m := h ⟨hdiv, by rw [hmod, hv]⟩
      rw [mem_bits, hdiv, hmod, Bool.not_eq_true] at hx
      rw [hx, Bool.false_and]

/-- The word with the one bit `i`. -/
theorem wordBits_one_shiftLeft (k : ℕ) {i : ℕ} (hi : i < w) :
    wordBits k (1#w <<< i) = {w * k + i} := by
  have hw : 0 < w := by omega
  ext x
  rw [mem_wordBits, Set.mem_singleton_iff]
  have hbit : (1#w <<< i).getLsbD (x % w) = decide (x % w = i) := by
    have hx := Nat.mod_lt x hw
    rw [← BitVec.twoPow_eq, BitVec.getLsbD_twoPow]
    simp only [hi, decide_true, Bool.true_and]
    exact decide_eq_decide.mpr eq_comm
  rw [hbit, decide_eq_true_eq]
  refine ⟨?_, ?_⟩
  · rintro ⟨rfl, rfl⟩
    exact (Nat.div_add_mod x w).symm
  · rintro rfl
    exact div_mod_word k hi

/-- What is in one bitmap and not in another. -/
theorem and_xor_eq_zero_iff (m m' : Bitmap w) (k : ℕ) :
    m k &&& (m k ^^^ m' k) = 0 ↔ ∀ x ∈ bits m, x / w = k → x ∈ bits m' := by
  refine ⟨?_, ?_⟩
  · rintro h x hx rfl
    have hbit := congrArg (fun u : BitVec w => u.getLsbD (x % w)) h
    rw [mem_bits] at hx
    simp only [BitVec.getLsbD_and, BitVec.getLsbD_xor, hx, Bool.true_and, Bool.true_xor,
      BitVec.ofNat_eq_ofNat, BitVec.getLsbD_zero, Bool.not_eq_false'] at hbit
    exact hbit
  · intro h
    refine BitVec.eq_of_getLsbD_eq ?_
    intro i hi
    obtain ⟨hdiv, hmod⟩ := div_mod_word k hi
    rw [BitVec.getLsbD_and, BitVec.getLsbD_xor, BitVec.ofNat_eq_ofNat, BitVec.getLsbD_zero]
    cases hv : (m k).getLsbD i
    · rfl
    · have hx : w * k + i ∈ bits m := by rw [mem_bits, hdiv, hmod, hv]
      have hx' := h _ hx hdiv
      rw [mem_bits, hdiv, hmod] at hx'
      rw [hx']
      rfl

/-- A bitmap is determined by the set of its bits. -/
theorem bits_injective (h : bits m = bits m') : m = m' := by
  funext k
  refine BitVec.eq_of_getLsbD_eq ?_
  intro i hi
  obtain ⟨hdiv, hmod⟩ := div_mod_word k hi
  have hx : w * k + i ∈ bits m ↔ w * k + i ∈ bits m' := by rw [h]
  rwa [mem_bits, mem_bits, hdiv, hmod, ← Bool.eq_iff_iff] at hx

end Bitmap

end ChamberSpo

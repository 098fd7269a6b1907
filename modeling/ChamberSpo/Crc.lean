import Mathlib.Data.BitVec
import Mathlib.Data.List.GetD
import Mathlib.Logic.Function.Iterate

/-!
# Cyclic redundancy checks

The remainder of a message of bits by a polynomial over two elements, of any width: a register to
which a bit is added at the top for each step, and which is moved up by one place, with the
polynomial added when a bit falls out.

* `Crc.shift` — the move. It is linear (`shift_xor`) and, when the polynomial has a constant term,
  loses nothing (`shift_injective`).
* `Crc.remainder_eq` — the bits of a message that is no longer than the register can all be added at
  once.
* `Crc.remainder_ne_of_burst` — a message is told from every other one that differs from it in no
  more consecutive bits than the register has.
-/

namespace ChamberSpo

namespace Crc

variable {w : ℕ} {poly : BitVec w}

/-- The register, moved up by one place. -/
def shift (poly c : BitVec w) : BitVec w := if c.msb then c <<< 1 ^^^ poly else c <<< 1

/-- A bit at the top of the register. -/
def top (w : ℕ) (b : Bool) : BitVec w := if b then BitVec.twoPow w (w - 1) else 0

/-- The next bit of the message. -/
def step (poly c : BitVec w) (b : Bool) : BitVec w := shift poly (c ^^^ top w b)

/-- What is left in the register after a message. -/
def remainder (poly c : BitVec w) (bits : List Bool) : BitVec w := bits.foldl (step poly) c

/-- The bits of a message from the top of the register on. -/
def align (w : ℕ) : List Bool → BitVec w
  | [] => 0
  | b :: bits => top w b ^^^ align w bits >>> 1

/-! ## The move -/

theorem shift_xor (c d : BitVec w) : shift poly (c ^^^ d) = shift poly c ^^^ shift poly d := by
  have hleft : (c ^^^ d) <<< 1 = c <<< 1 ^^^ d <<< 1 := BitVec.shiftLeft_xor_distrib ..
  rw [shift, shift, shift, BitVec.msb_xor, hleft]
  cases c.msb <;> cases d.msb
  · rfl
  · exact BitVec.xor_assoc ..
  · simp only [Bool.xor_false, if_true, Bool.false_eq_true, if_false]
    rw [BitVec.xor_assoc, BitVec.xor_assoc, BitVec.xor_comm poly]
  · simp only [Bool.xor_true, Bool.not_true, Bool.false_eq_true, if_true, if_false]
    rw [BitVec.xor_assoc, BitVec.xor_comm (d <<< 1) poly, ← BitVec.xor_assoc poly poly,
      BitVec.xor_self, BitVec.zero_xor]

theorem iterate_shift_xor (n : ℕ) (c d : BitVec w) :
    (shift poly)^[n] (c ^^^ d) = (shift poly)^[n] c ^^^ (shift poly)^[n] d := by
  induction n generalizing c d with
  | zero => rfl
  | succ n ih => rw [Function.iterate_succ_apply, shift_xor, ih]; rfl

/-- A register whose top bit is clear loses nothing. -/
theorem shift_of_msb {c : BitVec w} (h : c.msb = false) : shift poly c = c <<< 1 := by
  rw [shift, h, if_neg Bool.false_ne_true]

/-- **The move loses nothing** when the polynomial has a constant term. -/
theorem shift_injective (hpoly : poly.getLsbD 0 = true) : Function.Injective (shift poly) := by
  have hzero : ∀ c : BitVec w, shift poly c = 0 → c = 0 := by
    intro c hc
    have hmsb : c.msb = false := by
      cases hm : c.msb with
      | false => rfl
      | true =>
        -- the constant term would be left
        rw [shift, hm, if_pos rfl] at hc
        have hbit := congrArg (fun x => x.getLsbD 0) hc
        simp [hpoly] at hbit
    rw [shift_of_msb hmsb] at hc
    refine BitVec.eq_of_getMsbD_eq ?_
    intro i hi
    cases i with
    | zero => simpa [BitVec.msb] using hmsb
    | succ i =>
      have hbit := congrArg (fun x => x.getMsbD i) hc
      simpa [BitVec.getMsbD_shiftLeft] using hbit
  intro a b hab
  have hxor : shift poly (a ^^^ b) = 0 := by
    rw [shift_xor, hab, BitVec.xor_self]
    rfl
  have hnull := hzero _ hxor
  exact BitVec.xor_eq_zero_iff.mp hnull

/-- A register whose top bits are clear only moves. -/
theorem iterate_shift_of_clear {c : BitVec w} {n : ℕ} (h : ∀ i < n, c.getMsbD i = false) :
    (shift poly)^[n] c = c <<< n := by
  induction n generalizing c with
  | zero => exact (BitVec.shiftLeft_zero c).symm
  | succ n ih =>
    have hmsb : c.msb = false := h 0 (Nat.succ_pos n)
    rw [Function.iterate_succ_apply, shift_of_msb hmsb, ih, ← BitVec.shiftLeft_add, Nat.add_comm]
    intro i hi
    rw [BitVec.getMsbD_shiftLeft, h (i + 1) (by omega)]

/-! ## A message at once -/

theorem getMsbD_top (hw : 0 < w) (b : Bool) (i : ℕ) :
    (top w b).getMsbD i = (decide (i = 0) && b) := by
  cases b with
  | false => simp [top]
  | true =>
    rw [top, if_pos rfl, BitVec.getMsbD_twoPow]
    by_cases hi : i = 0
    · simp [hi]
      omega
    · simp [hi]
      omega

/-- The bits of a message that fits the register are its bits, from the top on. -/
theorem getMsbD_align (bits : List Bool) {i : ℕ} (hi : i < w) :
    (align w bits).getMsbD i = bits.getD i false := by
  induction bits generalizing i with
  | nil => simp [align]
  | cons b bits ih =>
    have hw : 0 < w := by omega
    rw [align, BitVec.getMsbD_xor, getMsbD_top hw, BitVec.getMsbD_ushiftRight]
    cases i with
    | zero => simp
    | succ i =>
      rw [ih (by omega)]
      simp [hi]

theorem align_injective {u v : List Bool} (hlen : u.length = v.length) (hw : u.length ≤ w)
    (h : align w u = align w v) : u = v := by
  refine List.ext_getElem hlen ?_
  intro i hu hv
  have hbit := congrArg (fun x => x.getMsbD i) h
  simp only [getMsbD_align _ (hu.trans_le hw)] at hbit
  rwa [List.getD_eq_getElem _ _ hu, List.getD_eq_getElem _ _ hv] at hbit

/-- What has not reached the top yet is moved up with the register. -/
theorem shift_ushiftRight {x : BitVec w} (hlast : x.getMsbD (w - 1) = false) :
    shift poly (x >>> 1) = x := by
  have hmsb : (x >>> 1).msb = false := by
    rw [BitVec.msb, BitVec.getMsbD_ushiftRight]
    simp
  rw [shift_of_msb hmsb]
  refine BitVec.eq_of_getMsbD_eq ?_
  intro i hi
  rw [BitVec.getMsbD_shiftLeft, BitVec.getMsbD_ushiftRight, Nat.add_sub_cancel]
  by_cases hlt : i + 1 < w
  · simp [hlt]
  · obtain rfl : i = w - 1 := by omega
    rw [hlast, Bool.and_false, Bool.and_false]

/-- **The bits of a message can be added at once** when the register has room for them. -/
theorem remainder_eq (poly c : BitVec w) {bits : List Bool} (hw : bits.length ≤ w) :
    remainder poly c bits = (shift poly)^[bits.length] (c ^^^ align w bits) := by
  induction bits generalizing c with
  | nil => exact (BitVec.xor_zero).symm
  | cons b bits ih =>
    have hlt : bits.length < w := hw
    have hrest : shift poly (align w bits >>> 1) = align w bits := by
      refine shift_ushiftRight ?_
      rw [getMsbD_align _ (by omega), List.getD_eq_default _ _ (by omega)]
    have hstep : remainder poly c (b :: bits) = remainder poly (step poly c b) bits := rfl
    rw [hstep, ih _ hlt.le, List.length_cons, Function.iterate_succ_apply, align,
      ← BitVec.xor_assoc, shift_xor, hrest, step]

theorem remainder_append (c : BitVec w) (bits bits' : List Bool) :
    remainder poly c (bits ++ bits') = remainder poly (remainder poly c bits) bits' :=
  List.foldl_append

/-- Two registers stay apart when the same message goes into both. -/
theorem remainder_injective (hpoly : poly.getLsbD 0 = true) (bits : List Bool) :
    Function.Injective fun c => remainder poly c bits := by
  induction bits with
  | nil => exact fun _ _ h => h
  | cons b bits ih =>
    intro c d h
    have hstep := shift_injective hpoly (ih h)
    exact (BitVec.xor_left_inj _).mp hstep

/-- **A burst is found**: two messages that differ in no more consecutive bits than the register has
leave different remainders. -/
theorem remainder_ne_of_burst (hpoly : poly.getLsbD 0 = true) (c : BitVec w)
    (before after : List Bool) {u v : List Bool} (hlen : u.length = v.length) (hw : u.length ≤ w)
    (hne : u ≠ v) :
    remainder poly c (before ++ u ++ after) ≠ remainder poly c (before ++ v ++ after) := by
  intro h
  simp only [remainder_append] at h
  have hmid := remainder_injective hpoly after h
  have hu := remainder_eq poly (remainder poly c before) hw
  have hv := remainder_eq poly (remainder poly c before) (hlen ▸ hw)
  rw [hu, hv, hlen] at hmid
  have halign := (shift_injective hpoly).iterate v.length hmid
  exact hne (align_injective hlen hw ((BitVec.xor_right_inj _).mp halign))

end Crc

end ChamberSpo

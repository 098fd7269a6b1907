import Mathlib.Tactic.Ring
import Mathlib.Tactic.Common
import Mathlib.Data.BitVec

/-!
# Byte buffers

Memory from an address on, as C code sees it through a pointer: a function from offsets to
bytes.

* `Buf.shift` (pointer arithmetic), `Buf.copy` (`memcpy`), `Buf.fill` (`memset`) and
  `memcmp`, which is `0` exactly when the bytes agree (`memcmp_eq_zero_iff`).
* `Buf.load`, `Buf.store` — little-endian integers of `w` bits. A store is read back by a load
  of the same place (`load_store`), and not seen by one elsewhere (`load_congr`); a load
  determines the bytes it read (`eq_of_load_eq`).
* `Buf.Writes` — the bytes that a function on buffers writes, whatever was there before.
-/

namespace ChamberSpo

/-- An 8-bit byte. -/
abbrev Byte := BitVec 8

/-- Texts are equal when `==` says so. -/
instance : LawfulBEq (List Byte) := inferInstance

/-- The bytes from an address on. -/
abbrev Buf := ℕ → Byte

namespace Buf

/-- `p + k`. -/
def shift (b : Buf) (k : ℕ) : Buf := fun i => b (k + i)

@[simp] theorem shift_apply (b : Buf) (k i : ℕ) : b.shift k i = b (k + i) := rfl

@[simp] theorem shift_shift (b : Buf) (j k : ℕ) : (b.shift j).shift k = b.shift (j + k) := by
  funext i
  simp [Nat.add_assoc]

/-- `memcpy(dst + off, src, n)`. -/
def copy (dst : Buf) (off : ℕ) (src : Buf) (n : ℕ) : Buf :=
  fun i => if off ≤ i ∧ i < off + n then src (i - off) else dst i

/-- `memset(dst + off, v, n)`. -/
def fill (dst : Buf) (off : ℕ) (v : Byte) (n : ℕ) : Buf := dst.copy off (fun _ => v) n

/-- Inside the copied range. -/
theorem copy_in {dst src : Buf} {off n i : ℕ} (h : i < n) :
    (dst.copy off src n) (off + i) = src i := by
  rw [copy, if_pos ⟨Nat.le_add_right off i, by omega⟩, Nat.add_sub_cancel_left]

/-- Outside of the copied range. -/
theorem copy_out {dst src : Buf} {off n i : ℕ} (h : i < off ∨ off + n ≤ i) :
    (dst.copy off src n) i = dst i := by
  rw [copy, if_neg (by omega)]

/-- The first bytes of a copy to the start. -/
theorem copy_zero {dst src : Buf} {n i : ℕ} (h : i < n) : (dst.copy 0 src n) i = src i := by
  rw [copy, if_pos (by omega), Nat.sub_zero]

/-- The first bytes that are filled. -/
theorem fill_zero {dst : Buf} {v : Byte} {n i : ℕ} (h : i < n) : (dst.fill 0 v n) i = v :=
  copy_zero h

end Buf

/-- `memcmp(a, b, n)`: the difference of the first bytes that differ. -/
def memcmp (a b : Buf) : ℕ → Int
  | 0 => 0
  | n + 1 =>
    if a 0 = b 0 then memcmp (a.shift 1) (b.shift 1) n else (a 0).toNat - (b 0).toNat

/-- `memcmp` finds no difference exactly when there is none. -/
theorem memcmp_eq_zero_iff {a b : Buf} {n : ℕ} : memcmp a b n = 0 ↔ ∀ i < n, a i = b i := by
  induction n generalizing a b with
  | zero => simp [memcmp]
  | succ n ih =>
    rw [memcmp]
    split
    · rename_i h0
      rw [ih]
      refine ⟨?_, ?_⟩
      · intro h i hi
        cases i with
        | zero => exact h0
        | succ i => simpa [Nat.add_comm 1 i] using h i (by omega)
      · intro h i hi
        simpa [Nat.add_comm 1 i] using h (i + 1) (by omega)
    · rename_i h0
      have hne : ((a 0).toNat : Int) - (b 0).toNat ≠ 0 := by
        have : (a 0).toNat ≠ (b 0).toNat := fun h => h0 (BitVec.eq_of_toNat_eq h)
        omega
      exact ⟨fun h => absurd h hne, fun h => absurd (h 0 (Nat.succ_pos n)) h0⟩

/-! ## Little-endian integers -/

/-- The value of the first `n` bytes, least significant first. -/
def leRead (b : Buf) : ℕ → ℕ
  | 0 => 0
  | n + 1 => (b 0).toNat + 256 * leRead (b.shift 1) n

/-- The bytes of `x`, least significant first. -/
def leBytes (x : ℕ) : Buf := fun i => BitVec.ofNat 8 (x / 256 ^ i)

theorem shift_leBytes (x : ℕ) : (leBytes x).shift 1 = leBytes (x / 256) := by
  funext i
  rw [Buf.shift_apply, leBytes, leBytes, Nat.pow_add, Nat.pow_one, Nat.div_div_eq_div_mul]

theorem leRead_lt (b : Buf) (n : ℕ) : leRead b n < 256 ^ n := by
  induction n generalizing b with
  | zero => exact Nat.one_pos
  | succ n ih =>
    have h := ih (b.shift 1)
    have h0 := (b 0).isLt
    rw [leRead, Nat.pow_succ]
    omega

theorem leRead_congr {a b : Buf} {n : ℕ} (h : ∀ i < n, a i = b i) : leRead a n = leRead b n := by
  induction n generalizing a b with
  | zero => rfl
  | succ n ih =>
    rw [leRead, leRead, h 0 (Nat.succ_pos n)]
    rw [ih (a := a.shift 1) (b := b.shift 1) fun i hi => h (1 + i) (by omega)]

/-- What was written is read back. -/
theorem leRead_leBytes (x n : ℕ) : leRead (leBytes x) n = x % 256 ^ n := by
  induction n generalizing x with
  | zero => simp [leRead, Nat.mod_one]
  | succ n ih =>
    rw [leRead, shift_leBytes, ih, leBytes, pow_zero, Nat.div_one, BitVec.toNat_ofNat,
      show 2 ^ 8 = 256 from rfl, pow_succ', Nat.mod_mul]

/-- What was read determines the bytes. -/
theorem leBytes_leRead (b : Buf) {n i : ℕ} (hi : i < n) : leBytes (leRead b n) i = b i := by
  induction n generalizing b i with
  | zero => omega
  | succ n ih =>
    have h0 := (b 0).isLt
    cases i with
    | zero =>
      apply BitVec.eq_of_toNat_eq
      rw [leBytes, leRead, BitVec.toNat_ofNat, pow_zero, Nat.div_one]
      omega
    | succ i =>
      have hstep := ih (b.shift 1) (i := i) (by omega)
      rw [Buf.shift_apply, Nat.add_comm] at hstep
      rw [← hstep, leBytes, leBytes, leRead, Nat.pow_succ, Nat.mul_comm _ 256,
        ← Nat.div_div_eq_div_mul]
      congr 2
      omega

namespace Buf

variable {w : ℕ} {a b : Buf} {off : ℕ}

/-- The `w`-bit little-endian integer at an offset. -/
def load (w : ℕ) (b : Buf) (off : ℕ) : BitVec w := BitVec.ofNat w (leRead (b.shift off) (w / 8))

/-- Writes a `w`-bit integer at an offset. -/
def store (b : Buf) (off : ℕ) (x : BitVec w) : Buf := b.copy off (leBytes x.toNat) (w / 8)

/-- A load looks at its own bytes only. -/
theorem load_congr (h : ∀ i < w / 8, a (off + i) = b (off + i)) :
    a.load w off = b.load w off := by
  rw [load, load, leRead_congr (a := a.shift off) (b := b.shift off) h]

/-- A load of the bytes of `x` is `x`. -/
theorem load_of_bytes (hw : 8 ∣ w) {x : BitVec w}
    (h : ∀ i < w / 8, b (off + i) = leBytes x.toNat i) : b.load w off = x := by
  have hpow : 256 ^ (w / 8) = 2 ^ w := by
    rw [show 256 = 2 ^ 8 from rfl, ← pow_mul, Nat.mul_div_cancel' hw]
  rw [load, leRead_congr (a := b.shift off) h, leRead_leBytes, hpow, Nat.mod_eq_of_lt x.isLt,
    BitVec.ofNat_toNat, BitVec.setWidth_eq]

/-- A store is read back. -/
theorem load_store (hw : 8 ∣ w) (b : Buf) (off : ℕ) (x : BitVec w) :
    (b.store off x).load w off = x :=
  load_of_bytes hw fun _ hi => copy_in hi

/-- The bytes a load read, from its value. -/
theorem leBytes_load (hw : 8 ∣ w) {i : ℕ} (hi : i < w / 8) :
    leBytes (b.load w off).toNat i = b (off + i) := by
  have hpow : 256 ^ (w / 8) = 2 ^ w := by
    rw [show 256 = 2 ^ 8 from rfl, ← pow_mul, Nat.mul_div_cancel' hw]
  have hlt := leRead_lt (b.shift off) (w / 8)
  rw [load, BitVec.toNat_ofNat, Nat.mod_eq_of_lt (hpow ▸ hlt), leBytes_leRead _ hi, shift_apply]

/-- The bits of a load are those of its bytes. -/
theorem getLsbD_load (hw : 8 ∣ w) (b : Buf) (off : ℕ) {i : ℕ} (hi : i < w) :
    (b.load w off).getLsbD i = (b (off + i / 8)).getLsbD (i % 8) := by
  have hbyte : i / 8 < w / 8 := Nat.div_lt_div_of_lt_of_dvd hw hi
  have hload : leBytes (b.load w off).toNat (i / 8) = b (off + i / 8) := leBytes_load hw hbyte
  have hpow : 256 ^ (i / 8) = 2 ^ (8 * (i / 8)) := (pow_mul 2 8 (i / 8)).symm
  have hmod : i % 8 < 8 := Nat.mod_lt i (by decide)
  rw [← hload, leBytes, BitVec.getLsbD_ofNat, BitVec.getLsbD, hpow, Nat.testBit_div_two_pow,
    Nat.mod_add_div, decide_eq_true hmod, Bool.true_and]

/-! ## What is written -/

/-- A function on buffers writes the bytes at `S`, the same whatever was there before, and no
others. -/
structure Writes (f : Buf → Buf) (S : ℕ → Prop) : Prop where
  inside : ∀ a b i, S i → f a i = f b i
  outside : ∀ a i, ¬ S i → f a i = a i

namespace Writes

variable {f : Buf → Buf} {S T : ℕ → Prop}

protected theorem id : Writes (fun a => a) fun _ => False :=
  ⟨fun _ _ _ h => h.elim, fun _ _ _ => rfl⟩

theorem congr (h : Writes f S) (hiff : ∀ i, S i ↔ T i) : Writes f T :=
  ⟨fun a b i hi => h.inside a b i ((hiff i).mpr hi),
    fun a i hi => h.outside a i fun hs => hi ((hiff i).mp hs)⟩

/-- A copy from what was written before writes more bytes. -/
theorem copyOf (h : Writes f S) (off : ℕ) (src : Buf → Buf) {n : ℕ}
    (hsrc : ∀ a b, ∀ i < n, src (f a) i = src (f b) i) :
    Writes (fun a => (f a).copy off (src (f a)) n) fun i => S i ∨ off ≤ i ∧ i < off + n := by
  refine ⟨?_, ?_⟩
  · intro a b i hi
    by_cases hcopied : off ≤ i ∧ i < off + n
    · obtain ⟨j, rfl⟩ := Nat.exists_eq_add_of_le hcopied.1
      have hj : j < n := by omega
      rw [copy_in hj, copy_in hj, hsrc a b j hj]
    · rw [copy_out (by omega), copy_out (by omega)]
      exact h.inside a b i (hi.resolve_right hcopied)
  · intro a i hi
    rw [not_or] at hi
    rw [copy_out (by omega)]
    exact h.outside a i hi.1

protected theorem copy (h : Writes f S) (off : ℕ) (src : Buf) (n : ℕ) :
    Writes (fun a => (f a).copy off src n) fun i => S i ∨ off ≤ i ∧ i < off + n :=
  h.copyOf off (fun _ => src) fun _ _ _ _ => rfl

/-- So does a store of what was written before. -/
theorem storeOf (h : Writes f S) (off : ℕ) (x : Buf → BitVec w) (hx : ∀ a b, x (f a) = x (f b)) :
    Writes (fun a => (f a).store off (x (f a))) fun i => S i ∨ off ≤ i ∧ i < off + w / 8 :=
  h.copyOf off (fun a => leBytes (x a).toNat) fun a b i _ => by rw [hx a b]

protected theorem store (h : Writes f S) (off : ℕ) (x : BitVec w) :
    Writes (fun a => (f a).store off x) fun i => S i ∨ off ≤ i ∧ i < off + w / 8 :=
  h.storeOf off (fun _ => x) fun _ _ => rfl

end Writes

end Buf

end ChamberSpo

import ChamberSpo.Buffer
import Mathlib.Logic.Equiv.Defs

/-!
# Packed layouts

How a value stands in memory: a number of bytes, and a one-to-one correspondence between what
these bytes can be and the values.

* `Layout α` — a layout of `α`. Its laws are fields: what was written is read back, and what was
  read writes the same bytes again.
* `Layout.word`, `Layout.pair`, `Layout.array`, `Layout.map` — integers, one thing after another,
  `n` times the same thing, and another name for it. A packed structure is the `map` of a `pair`.
* `Layout.read_eq_iff` — which bytes a value stands for.
* `Layout.get`, `Layout.put` — the value at an offset.
-/

namespace ChamberSpo

universe u v

variable {α : Type u} {β : Type v}

/-- A packed representation of `α`. -/
structure Layout (α : Type u) where
  /-- the number of bytes -/
  size : ℕ
  read : Buf → α
  write : α → Buf
  /-- only the bytes of the value are read -/
  read_congr : ∀ {a b : Buf}, (∀ i < size, a i = b i) → read a = read b
  read_write : ∀ x, read (write x) = x
  write_read : ∀ b, ∀ i < size, write (read b) i = b i

namespace Layout

/-- The bytes a value stands for. -/
theorem read_eq_iff (l : Layout α) {b : Buf} {x : α} :
    l.read b = x ↔ ∀ i < l.size, b i = l.write x i := by
  refine ⟨?_, ?_⟩
  · rintro rfl i hi
    exact (l.write_read b i hi).symm
  · intro h
    rw [l.read_congr h, l.read_write]

/-- A little-endian integer. -/
def word (w : ℕ) (hw : 8 ∣ w) : Layout (BitVec w) where
  size := w / 8
  read b := b.load w 0
  write x := leBytes x.toNat
  read_congr h := Buf.load_congr fun i hi => by rw [Nat.zero_add, h i hi]
  read_write x := Buf.load_of_bytes hw fun i _ => by rw [Nat.zero_add]
  write_read b i hi := by rw [Buf.leBytes_load hw hi, Nat.zero_add]

/-- One value, then another. -/
def pair (l : Layout α) (m : Layout β) : Layout (α × β) where
  size := l.size + m.size
  read b := (l.read b, m.read (b.shift l.size))
  write x := (l.write x.1).copy l.size (m.write x.2) m.size
  read_congr h :=
    Prod.ext (l.read_congr fun i hi => h i (by omega))
      (m.read_congr fun i hi => h (l.size + i) (by omega))
  read_write x := by
    have hl : l.read ((l.write x.1).copy l.size (m.write x.2) m.size) = x.1 :=
      l.read_eq_iff.mpr fun i hi => Buf.copy_out (.inl hi)
    have hm : m.read (((l.write x.1).copy l.size (m.write x.2) m.size).shift l.size) = x.2 :=
      m.read_eq_iff.mpr fun i hi => Buf.copy_in hi
    rw [hl, hm]
  write_read b i hi := by
    rcases Nat.lt_or_ge i l.size with h | h
    · rw [Buf.copy_out (.inl h), l.write_read b i h]
    · obtain ⟨k, rfl⟩ := Nat.exists_eq_add_of_le h
      have hk : k < m.size := by omega
      rw [Buf.copy_in hk, m.write_read _ k hk, Buf.shift_apply]

/-- The same value `n` times. -/
def array (n : ℕ) (l : Layout α) : Layout (Fin n → α) where
  size := l.size * n
  read b k := l.read (b.shift (l.size * k))
  write f i := if h : i / l.size < n then l.write (f ⟨i / l.size, h⟩) (i % l.size) else 0
  read_congr h := by
    funext k
    refine l.read_congr fun i hi => h (l.size * k + i) ?_
    calc l.size * k + i < l.size * (k + 1) := by rw [Nat.mul_succ]; omega
      _ ≤ l.size * n := Nat.mul_le_mul_left _ k.isLt
  read_write f := by
    funext k
    refine l.read_eq_iff.mpr ?_
    intro i hi
    have hdiv : (l.size * k + i) / l.size = k := by
      rw [Nat.mul_add_div (by omega), Nat.div_eq_of_lt hi, Nat.add_zero]
    have hn : (l.size * k + i) / l.size < n := hdiv.symm ▸ k.isLt
    rw [Buf.shift_apply, dif_pos hn, Nat.mul_add_mod, Nat.mod_eq_of_lt hi]
    congr 2
    exact Fin.ext hdiv
  write_read b i hi := by
    have hpos : 0 < l.size := Nat.pos_of_mul_pos_right (Nat.zero_lt_of_lt hi)
    have hn : i / l.size < n := Nat.div_lt_of_lt_mul hi
    rw [dif_pos hn, l.write_read _ _ (Nat.mod_lt i hpos), Buf.shift_apply, Nat.div_add_mod]

/-- The same bytes, read as something else. -/
def map (l : Layout α) (e : α ≃ β) : Layout β where
  size := l.size
  read b := e (l.read b)
  write y := l.write (e.symm y)
  read_congr h := congrArg e (l.read_congr h)
  read_write y := by rw [l.read_write, e.apply_symm_apply]
  write_read b i hi := by rw [e.symm_apply_apply, l.write_read b i hi]

@[simp] theorem word_size (w : ℕ) (hw : 8 ∣ w) : (word w hw).size = w / 8 := rfl

@[simp] theorem pair_size (l : Layout α) (m : Layout β) : (l.pair m).size = l.size + m.size := rfl

@[simp] theorem array_size (n : ℕ) (l : Layout α) : (l.array n).size = l.size * n := rfl

@[simp] theorem map_size (l : Layout α) (e : α ≃ β) : (l.map e).size = l.size := rfl

theorem pair_read (l : Layout α) (m : Layout β) (b : Buf) :
    (l.pair m).read b = (l.read b, m.read (b.shift l.size)) := rfl

theorem map_read (l : Layout α) (e : α ≃ β) (b : Buf) : (l.map e).read b = e (l.read b) := rfl

/-- A byte is read as it is. -/
theorem word_read_byte (b : Buf) : (word 8 (by decide)).read b = b 0 := by
  refine (read_eq_iff _).mpr ?_
  intro i hi
  obtain rfl : i = 0 := Nat.lt_one_iff.mp hi
  simp [word, leBytes]

/-- An array whose elements are all the same, when the bytes of the element are. -/
theorem array_read_const (n : ℕ) {l : Layout α} {x : α} {v : Byte}
    (hx : ∀ i < l.size, l.write x i = v) {b : Buf} :
    ((l.array n).read b = fun _ => x) ↔ ∀ i < l.size * n, b i = v := by
  rw [read_eq_iff]
  refine forall₂_congr ?_
  intro i hi
  have hpos : 0 < l.size := Nat.pos_of_mul_pos_right (Nat.zero_lt_of_lt hi)
  have hn : i / l.size < n := Nat.div_lt_of_lt_mul hi
  have hwrite : (l.array n).write (fun _ => x) i = l.write x (i % l.size) := dif_pos hn
  rw [hwrite, hx _ (Nat.mod_lt i hpos)]

/-! ## At an offset -/

/-- The value at an offset. -/
def get (l : Layout α) (b : Buf) (off : ℕ) : α := l.read (b.shift off)

/-- Writes a value at an offset. -/
def put (l : Layout α) (b : Buf) (off : ℕ) (x : α) : Buf := b.copy off (l.write x) l.size

/-- What is put is got. -/
theorem get_put (l : Layout α) (b : Buf) (off : ℕ) (x : α) : l.get (l.put b off x) off = x :=
  l.read_eq_iff.mpr fun _ hi => Buf.copy_in hi

/-- Only its own bytes matter to a value. -/
theorem get_congr (l : Layout α) {a b : Buf} {off : ℕ}
    (h : ∀ i < l.size, a (off + i) = b (off + i)) : l.get a off = l.get b off :=
  l.read_congr h

end Layout

end ChamberSpo

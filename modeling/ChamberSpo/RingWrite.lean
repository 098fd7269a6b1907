import Mathlib.Data.Nat.ModEq
import Mathlib.Logic.Function.Basic

/-!
# Writing a ring

Records that go to the slots of a ring one after the other, where a record may keep something of
what stood in its slot.

* `writeRing_of_ne` — a slot that has no turn stays as it is.
* `writeRing_last` — of the records of one slot the last remains.
* `writeRing_keep` — what every record keeps is still there in the end.
-/

namespace ChamberSpo

variable {α β : Type*}

/-- The slots after `n` records, the first of them at `start`. -/
def writeRing (size start : ℕ) (write : ℕ → α → α) (slots : ℕ → α) : ℕ → ℕ → α
  | 0 => slots
  | n + 1 =>
    let slots := writeRing size start write slots n
    Function.update slots ((start + n) % size) (write n (slots ((start + n) % size)))

variable {size start : ℕ} {write : ℕ → α → α} {slots : ℕ → α}

/-- Records that are less than a turn apart have different slots. -/
theorem slot_ne {k n : ℕ} (hlt : k < n) (hnear : n < k + size) :
    (start + k) % size ≠ (start + n) % size := by
  intro heq
  have hdvd := (Nat.modEq_iff_dvd' (show start + k ≤ start + n by omega)).mp heq
  have hle := Nat.le_of_dvd (by omega) hdvd
  omega

theorem writeRing_of_ne {n i : ℕ} (h : ∀ k < n, i ≠ (start + k) % size) :
    writeRing size start write slots n i = slots i := by
  induction n with
  | zero => rfl
  | succ n ih =>
    rw [writeRing, Function.update_of_ne (h n (Nat.lt_succ_self n))]
    exact ih fun k hk => h k (Nat.lt_succ_of_lt hk)

theorem writeRing_last {k n : ℕ} (hk : k < n) (hlast : n ≤ k + size) :
    writeRing size start write slots n ((start + k) % size)
      = write k (writeRing size start write slots k ((start + k) % size)) := by
  induction n with
  | zero => exact absurd hk (Nat.not_lt_zero k)
  | succ n ih =>
    rw [writeRing]
    rcases Nat.lt_succ_iff_lt_or_eq.mp hk with hlt | rfl
    · rw [Function.update_of_ne (slot_ne hlt hlast)]
      exact ih hlt (Nat.le_of_succ_le hlast)
    · exact Function.update_self ..

theorem writeRing_keep (keep : α → β) (h : ∀ k x, keep (write k x) = keep x) (n i : ℕ) :
    keep (writeRing size start write slots n i) = keep (slots i) := by
  induction n with
  | zero => rfl
  | succ n ih =>
    rw [writeRing]
    by_cases hi : i = (start + n) % size
    · rw [hi, Function.update_self, h, ← hi]
      exact ih
    · rw [Function.update_of_ne hi]
      exact ih

end ChamberSpo

import Mathlib.Data.Nat.Notation

/-!
# Checks in sequence

Inversion of computations that may fail: what is known of each of them when all have succeeded.

* `bind_eq_ok`, `pure_eq_ok` — a sequence succeeds if each of its parts does.
* `ite_error_eq_ok` — a check is passed.
-/

namespace ChamberSpo

universe u v

variable {ε : Type u} {α β : Type v}

/-- A sequence succeeds if each part does, from what the part before it returned. -/
theorem bind_eq_ok {x : Except ε α} {f : α → Except ε β} {b : β} :
    x >>= f = .ok b ↔ ∃ a, x = .ok a ∧ f a = .ok b := by
  cases x with
  | error e =>
    refine ⟨?_, ?_⟩
    · exact nofun
    · rintro ⟨_, h, _⟩
      cases h
  | ok a =>
    refine ⟨?_, ?_⟩
    · exact fun h => ⟨a, rfl, h⟩
    · rintro ⟨_, ⟨⟩, h⟩
      exact h

theorem pure_eq_ok {a b : α} : (pure a : Except ε α) = .ok b ↔ a = b := by
  refine ⟨?_, ?_⟩
  · rintro ⟨⟩
    rfl
  · rintro rfl
    rfl

/-- A check is passed if it finds nothing, and then the rest succeeds. -/
theorem ite_error_eq_ok {p : Prop} [Decidable p] {e : ε} {x : Except ε α} {a : α} :
    (if p then .error e else x) = .ok a ↔ ¬ p ∧ x = .ok a := by
  by_cases hp : p
  · rw [if_pos hp]
    exact ⟨nofun, fun h => absurd hp h.1⟩
  · rw [if_neg hp]
    exact ⟨fun h => ⟨hp, h⟩, fun h => h.2⟩

end ChamberSpo

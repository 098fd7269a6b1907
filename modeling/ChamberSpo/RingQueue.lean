import ChamberSpo.RingWrite
import Mathlib.Data.List.Range

/-!
# Queues in a ring

A queue whose elements stand in a ring from `head` on.

* `ringQueue` — its elements, first to last.
* `ringQueue_push` — an element behind the last one is added to it.
* `ringQueue_add` — what is taken from its front leaves the rest.
-/

namespace ChamberSpo

variable {α : Type*}

/-- The `n` elements from slot `head` on. -/
def ringQueue (slots : ℕ → α) (size head n : ℕ) : List α :=
  (List.range n).map fun k => slots ((head + k) % size)

variable {slots : ℕ → α} {size head n : ℕ}

@[simp] theorem ringQueue_zero : ringQueue slots size head 0 = [] := rfl

@[simp] theorem length_ringQueue : (ringQueue slots size head n).length = n := by
  simp [ringQueue]

theorem ringQueue_succ :
    ringQueue slots size head (n + 1)
      = ringQueue slots size head n ++ [slots ((head + n) % size)] := by
  simp [ringQueue, List.range_succ]

/-- **A slot behind the last element** is free, as long as the ring is not full. -/
theorem ringQueue_push (hn : n < size) (x : α) :
    ringQueue (Function.update slots ((head + n) % size) x) size head (n + 1)
      = ringQueue slots size head n ++ [x] := by
  rw [ringQueue_succ, Function.update_self]
  congr 1
  refine List.map_congr_left ?_
  intro k hk
  have hlt := List.mem_range.mp hk
  exact Function.update_of_ne (slot_ne hlt (by omega)) _ _

theorem ringQueue_mod : ringQueue slots size (head % size) n = ringQueue slots size head n := by
  refine List.map_congr_left ?_
  intro k _
  rw [Nat.mod_add_mod]

/-- The elements at the front, and the others. -/
theorem ringQueue_add (m : ℕ) :
    ringQueue slots size head (m + n)
      = ringQueue slots size head m ++ ringQueue slots size (head + m) n := by
  induction n with
  | zero => simp
  | succ n ih => rw [← Nat.add_assoc, ringQueue_succ, ih, ringQueue_succ, List.append_assoc,
      Nat.add_assoc]

end ChamberSpo

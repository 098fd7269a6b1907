import Mathlib.Algebra.BigOperators.Group.List.Basic
import Mathlib.Data.List.Infix

/-!
# Samples of a running total

Who reads a total again and again while it grows, and notes each time by how much, cuts what
happened into pieces that follow each other.

* `tally` — the total of what happened.
* `Sampled` — the notes are the totals of the pieces. `Sampled.snoc`: the total is read once more.
* `Sampled.sum_eq` — no piece is noted twice, and none is left out.
-/

namespace ChamberSpo

variable {α G : Type*} [AddCommGroup G] {w : α → G}

/-- The total of `w` over what happened. -/
def tally (w : α → G) (l : List α) : G := (l.map w).sum

/-- `notes` are the totals of pieces that make `seen`, one after the other. -/
def Sampled (w : α → G) (seen : List α) (notes : List G) : Prop :=
  ∃ pieces : List (List α), pieces.flatten = seen ∧ pieces.map (tally w) = notes

theorem tally_nil (w : α → G) : tally w [] = 0 := rfl

theorem tally_append (w : α → G) (l l' : List α) : tally w (l ++ l') = tally w l + tally w l' := by
  rw [tally, List.map_append, List.sum_append]
  rfl

theorem tally_snoc (w : α → G) (l : List α) (x : α) : tally w (l ++ [x]) = tally w l + w x := by
  rw [tally_append, tally, tally, List.map_singleton, List.sum_singleton]

theorem Sampled.nil (w : α → G) : Sampled w [] [] := ⟨[], rfl, rfl⟩

/-- **The total is read once more.** The piece is what happened since the time before. -/
theorem Sampled.snoc {seen now : List α} {notes : List G} (h : Sampled w seen notes)
    (hnow : seen <+: now) : Sampled w now (notes ++ [tally w now - tally w seen]) := by
  obtain ⟨pieces, hseen, hnotes⟩ := h
  obtain ⟨piece, rfl⟩ := hnow
  refine ⟨pieces ++ [piece], ?_, ?_⟩
  · rw [List.flatten_append, List.flatten_singleton, hseen]
  · rw [List.map_append, hnotes, List.map_singleton, tally_append, add_sub_cancel_left]

/-- **The notes add up** to the total of what was seen. -/
theorem Sampled.sum_eq {seen : List α} {notes : List G} (h : Sampled w seen notes) :
    notes.sum = tally w seen := by
  obtain ⟨pieces, rfl, rfl⟩ := h
  induction pieces with
  | nil => rfl
  | cons piece pieces ih =>
    rw [List.map_cons, List.sum_cons, ih, List.flatten_cons, tally_append]

end ChamberSpo

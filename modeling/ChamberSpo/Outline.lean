import Mathlib.Data.List.Basic
import Mathlib.Data.Nat.Basic
import Mathlib.Data.Nat.Notation
import Mathlib.Tactic.Common

/-!
# Numbered outlines

Trees whose items have numbers such as 2.10.3: the entries of a group are numbered from 1 on, and
each is an item or a group again. The order of the items is the lexicographic order of their
numbers.

* `Outline.items` — the items with their numbers, in order.
* `Outline.Has` — the numbers of entries, those of groups included.
* `Outline.walk` — the items up to an entry, found by descending into each group on the way.
* `through` — a list up to the first element that is not well.

`walk_of_has` says that a walk finds the items below its end; `filter_through_eq_iff` what of a
list is left out when it is cut.
-/

namespace ChamberSpo

universe u

/-- The entries of a group, from one on. -/
inductive Outline (α : Type u) where
  | nil
  | item (a : α) (rest : Outline α)
  | group (entries : Outline α) (rest : Outline α)

namespace Outline

variable {α : Type u}

/-- The number of entries. -/
def length : Outline α → ℕ
  | nil => 0
  | item _ rest => rest.length + 1
  | group _ rest => rest.length + 1

/-- The entries from the `k`th on. -/
def drop : ℕ → Outline α → Outline α
  | 0, o => o
  | _ + 1, nil => nil
  | k + 1, item _ rest => rest.drop k
  | k + 1, group _ rest => rest.drop k

/-- The number of levels. -/
def depth : Outline α → ℕ
  | nil => 1
  | item _ rest => rest.depth
  | group entries rest => max (entries.depth + 1) rest.depth

/-- The items with their numbers, where the first entry has the number `n`. -/
def items : Outline α → ℕ → List (List ℕ × α)
  | nil, _ => []
  | item a rest, n => ([n], a) :: rest.items (n + 1)
  | group entries rest, n => (entries.items 1).map (Prod.map (n :: ·) id) ++ rest.items (n + 1)

/-- There is an entry with the number `addr`. -/
def Has : Outline α → ℕ → List ℕ → Prop
  | nil, _, _ => False
  | item _ rest, n, addr => addr = [n] ∨ rest.Has (n + 1) addr
  | group entries rest, n, addr =>
    addr = [n] ∨ (∃ tail, addr = n :: tail ∧ entries.Has 1 tail) ∨ rest.Has (n + 1) addr

/-- What an address is for the entries of entry `n`. -/
def inGroup (n : ℕ) : Option (List ℕ) → Option (List ℕ)
  | some (m :: tail) => if m = n then some tail else none
  | _ => none

/-- The items before the entry `last`, and whether it was found. -/
def walk : Outline α → ℕ → Option (List ℕ) → List (List ℕ × α) × Bool
  | nil, _, _ => ([], false)
  | item a rest, n, last =>
    if last = some [n] then ([], true)
    else
      let w := rest.walk (n + 1) last
      (([n], a) :: w.1, w.2)
  | group entries rest, n, last =>
    if last = some [n] then ([], true)
    else
      let w := entries.walk 1 (inGroup n last)
      let inner := w.1.map (Prod.map (n :: ·) id)
      if w.2 then (inner, true)
      else
        let w' := rest.walk (n + 1) last
        (inner ++ w'.1, w'.2)

/-! ## The order of numbers -/

/-- Numbers in one group are in the order of what comes after the number of the group. -/
theorem append_lt_append_iff (pre a b : List ℕ) : pre ++ a < pre ++ b ↔ a < b := by
  induction pre with
  | nil => exact Iff.rfl
  | cons p pre ih =>
    rw [List.cons_append, List.cons_append, List.cons_lt_cons_iff, ih]
    simp

/-- A group as a whole is before what is behind it. -/
theorem append_lt_of_append_lt {pre a l : List ℕ} (hpre : ¬ pre <+: l) (h : pre ++ a < l)
    (b : List ℕ) : pre ++ b < l := by
  induction pre generalizing l with
  | nil => exact absurd List.nil_prefix hpre
  | cons p pre ih =>
    cases l with
    | nil => exact absurd h (List.not_lt_nil _)
    | cons m l =>
      rw [List.cons_append, List.cons_lt_cons_iff] at h ⊢
      refine h.imp_right fun ⟨heq, hlt⟩ => ⟨heq, ih (fun hprefix => hpre ?_) hlt⟩
      rw [heq]
      exact (List.prefix_cons_inj m).mpr hprefix

/-! ## Numbers -/

variable {o : Outline α} {n : ℕ} {addr : List ℕ} {x : List ℕ × α}

theorem depth_pos (o : Outline α) : 0 < o.depth := by
  induction o with
  | nil => exact Nat.one_pos
  | item a rest ih => exact ih
  | group entries rest ihe ih => exact lt_of_lt_of_le ih (le_max_right _ _)

theorem Has.exists_cons (h : o.Has n addr) : ∃ k tail, n ≤ k ∧ addr = k :: tail := by
  induction o generalizing n with
  | nil => exact h.elim
  | item a rest ih =>
    rcases h with rfl | h
    · exact ⟨n, [], le_rfl, rfl⟩
    · obtain ⟨k, tail, hk, rfl⟩ := ih h
      exact ⟨k, tail, Nat.le_of_succ_le hk, rfl⟩
  | group entries rest _ ih =>
    rcases h with rfl | ⟨tail, rfl, -⟩ | h
    · exact ⟨n, [], le_rfl, rfl⟩
    · exact ⟨n, tail, le_rfl, rfl⟩
    · obtain ⟨k, tail, hk, rfl⟩ := ih h
      exact ⟨k, tail, Nat.le_of_succ_le hk, rfl⟩

/-- Items are entries. -/
theorem has_of_mem_items (h : x ∈ o.items n) : o.Has n x.1 := by
  induction o generalizing n x with
  | nil => simp [items] at h
  | item a rest ih =>
    rcases List.mem_cons.mp h with rfl | h
    · exact .inl rfl
    · exact .inr (ih h)
  | group entries rest ihe ih =>
    rcases List.mem_append.mp h with h | h
    · obtain ⟨y, hy, rfl⟩ := List.mem_map.mp h
      exact .inr (.inl ⟨y.1, rfl, ihe hy⟩)
    · exact .inr (.inr (ih h))

theorem exists_cons_of_mem_items (h : x ∈ o.items n) : ∃ k tail, n ≤ k ∧ x.1 = k :: tail :=
  (has_of_mem_items h).exists_cons

/-- The items from an entry on. -/
theorem not_lt_singleton_of_mem_items (h : x ∈ o.items n) : ¬ x.1 < [n] := by
  obtain ⟨k, tail, hk, hx⟩ := exists_cons_of_mem_items h
  rw [hx, List.cons_lt_cons_iff]
  rintro (hlt | ⟨-, hlt⟩)
  · omega
  · exact List.not_lt_nil _ hlt

/-- The items are in the order of their numbers. -/
theorem pairwise_items (o : Outline α) (n : ℕ) :
    (o.items n).Pairwise fun x y => x.1 < y.1 := by
  induction o generalizing n with
  | nil => exact .nil
  | item a rest ih =>
    refine .cons ?_ (ih (n + 1))
    intro y hy
    obtain ⟨k, tail, hk, hy⟩ := exists_cons_of_mem_items hy
    rw [hy, List.cons_lt_cons_iff]
    exact .inl (Nat.lt_of_succ_le hk)
  | group entries rest ihe ih =>
    refine List.pairwise_append.mpr ⟨?_, ih (n + 1), ?_⟩
    · refine List.pairwise_map.mpr ((ihe 1).imp fun hlt => ?_)
      exact List.cons_lt_cons_iff.mpr (.inr ⟨rfl, hlt⟩)
    · intro x hx y hy
      obtain ⟨x, -, rfl⟩ := List.mem_map.mp hx
      obtain ⟨k, tail, hk, hy⟩ := exists_cons_of_mem_items hy
      rw [hy]
      exact List.cons_lt_cons_iff.mpr (.inl (Nat.lt_of_succ_le hk))

/-! ## Walks -/

theorem inGroup_eq_some {last : Option (List ℕ)} {tail : List ℕ} :
    inGroup n last = some tail ↔ last = some (n :: tail) := by
  simp only [inGroup]
  split
  · rename_i m tail'
    by_cases hm : m = n
    · rw [if_pos hm, hm]
      simp
    · rw [if_neg hm]
      simp [hm]
  · rename_i hno
    exact ⟨nofun, fun h => absurd h (hno n tail)⟩

/-- A walk that does not meet its end. -/
theorem walk_of_not_has {last : Option (List ℕ)} (h : ∀ addr, last = some addr → ¬ o.Has n addr) :
    o.walk n last = (o.items n, false) := by
  induction o generalizing n last with
  | nil => rfl
  | item a rest ih =>
    have hne : last ≠ some [n] := fun heq => h [n] heq (.inl rfl)
    rw [walk, if_neg hne, ih fun addr heq hhas => h addr heq (.inr hhas)]
    rfl
  | group entries rest ihe ih =>
    have hne : last ≠ some [n] := fun heq => h [n] heq (.inl rfl)
    rw [walk, if_neg hne, ihe fun tail heq hhas =>
      h (n :: tail) (inGroup_eq_some.mp heq) (.inr (.inl ⟨tail, rfl, hhas⟩)),
      ih fun addr heq hhas => h addr heq (.inr (.inr hhas))]
    rfl

/-- Of entries with greater numbers there is nothing. -/
theorem filter_items_of_lt {k : ℕ} {tail : List ℕ} (hk : k < n) :
    (o.items n).filter (fun x => decide (x.1 < k :: tail)) = [] := by
  refine List.filter_eq_nil_iff.mpr ?_
  intro x hx
  obtain ⟨m, tail', hm, hx⟩ := exists_cons_of_mem_items hx
  rw [hx, decide_eq_true_eq, List.cons_lt_cons_iff]
  rintro (hlt | ⟨heq, -⟩) <;> omega

/-- **A walk finds the items before its end.** -/
theorem walk_of_has (h : o.Has n addr) :
    o.walk n (some addr) = ((o.items n).filter (fun x => decide (x.1 < addr)), true) := by
  induction o generalizing n addr with
  | nil => exact h.elim
  | item a rest ih =>
    rw [walk]
    rcases h with rfl | h
    · have hnil : ((item a rest).items n).filter (fun x => decide (x.1 < [n])) = [] :=
        List.filter_eq_nil_iff.mpr fun x hx =>
          mt of_decide_eq_true (not_lt_singleton_of_mem_items hx)
      rw [if_pos rfl, hnil]
    · obtain ⟨k, tail, hk, rfl⟩ := h.exists_cons
      have hne : some (k :: tail) ≠ some [n] := by
        intro heq
        have := List.head_eq_of_cons_eq (Option.some.inj heq)
        omega
      have hlt : ([n] : List ℕ) < k :: tail := List.cons_lt_cons_iff.mpr (.inl hk)
      have hpos : (items (item a rest) n).filter (fun x => decide (x.1 < k :: tail))
          = ([n], a) :: (rest.items (n + 1)).filter (fun x => decide (x.1 < k :: tail)) :=
        List.filter_cons_of_pos (decide_eq_true hlt)
      rw [if_neg hne, ih h, hpos]
  | group entries rest ihe ih =>
    have hinner : ∀ tail, ((entries.items 1).map (Prod.map (n :: ·) id)).filter
        (fun x => decide (x.1 < n :: tail))
          = ((entries.items 1).filter (fun x => decide (x.1 < tail))).map
            (Prod.map (n :: ·) id) := by
      intro tail
      rw [List.filter_map]
      congr 1
      refine List.filter_congr fun x _ => decide_eq_decide.mpr ?_
      change n :: x.1 < n :: tail ↔ _
      rw [List.cons_lt_cons_iff]
      simp
    rw [walk, items, List.filter_append]
    rcases h with rfl | ⟨tail, rfl, h⟩ | h
    · have hnil : (entries.items 1).filter (fun x => decide (x.1 < [])) = [] :=
        List.filter_eq_nil_iff.mpr fun x _ => mt of_decide_eq_true (List.not_lt_nil _)
      rw [if_pos rfl, hinner [], hnil, filter_items_of_lt (Nat.lt_succ_self n)]
      rfl
    · obtain ⟨k, tail', -, rfl⟩ := h.exists_cons
      rw [if_neg (by simp), inGroup_eq_some.mpr rfl, ihe h, hinner,
        filter_items_of_lt (Nat.lt_succ_self n), List.append_nil]
      rfl
    · obtain ⟨k, tail, hk, rfl⟩ := h.exists_cons
      have hne : some (k :: tail) ≠ some [n] := by
        intro heq
        have := List.head_eq_of_cons_eq (Option.some.inj heq)
        omega
      have hin : ∀ addr, inGroup n (some (k :: tail)) = some addr → ¬ entries.Has 1 addr := by
        intro addr heq
        have := List.head_eq_of_cons_eq (Option.some.inj (inGroup_eq_some.mp heq))
        omega
      have hall : ((entries.items 1).map (Prod.map (n :: ·) id)).filter
          (fun x => decide (x.1 < k :: tail)) = (entries.items 1).map (Prod.map (n :: ·) id) := by
        refine List.filter_eq_self.mpr fun x hx => decide_eq_true ?_
        obtain ⟨y, -, rfl⟩ := List.mem_map.mp hx
        exact List.cons_lt_cons_iff.mpr (.inl hk)
      rw [if_neg hne, walk_of_not_has hin, ih h, hall]
      rfl

/-! ## The entries from a number on -/

/-- The items from an entry on are those of what is left there. -/
theorem filter_items_drop (o : Outline α) (m d : ℕ) :
    (o.items m).filter (fun x => decide (¬ x.1 < [m + d])) = (o.drop d).items (m + d) := by
  induction o generalizing m d with
  | nil => cases d <;> rfl
  | item a rest ih =>
    cases d with
    | zero =>
      exact List.filter_eq_self.mpr fun x hx => decide_eq_true (not_lt_singleton_of_mem_items hx)
    | succ d =>
      have hlt : ([m] : List ℕ) < [m + (d + 1)] := List.cons_lt_cons_iff.mpr (.inl (by omega))
      have hrest := ih (m + 1) d
      rw [Nat.add_right_comm m 1 d] at hrest
      rw [items, List.filter_cons_of_neg (by simp [hlt]), drop]
      exact hrest
  | group entries rest _ ih =>
    cases d with
    | zero =>
      exact List.filter_eq_self.mpr fun x hx => decide_eq_true (not_lt_singleton_of_mem_items hx)
    | succ d =>
      have hnil : ((entries.items 1).map (Prod.map (m :: ·) id)).filter
          (fun x => decide (¬ x.1 < [m + (d + 1)])) = [] := by
        refine List.filter_eq_nil_iff.mpr ?_
        intro x hx
        obtain ⟨y, -, rfl⟩ := List.mem_map.mp hx
        rw [decide_eq_true_eq, not_not]
        exact List.cons_lt_cons_iff.mpr (.inl (show m < m + (d + 1) by omega))
      have hrest := ih (m + 1) d
      rw [Nat.add_right_comm m 1 d] at hrest
      rw [items, List.filter_append, hnil, drop]
      exact hrest

/-- An entry that is not before another is among what is left there. -/
theorem Has.drop {d k : ℕ} {tail : List ℕ} (h : o.Has n (k :: tail)) (hk : n + d ≤ k) :
    (o.drop d).Has (n + d) (k :: tail) := by
  induction o generalizing n d with
  | nil => exact h.elim
  | item a rest ih =>
    cases d with
    | zero => exact h
    | succ d =>
      rcases h with heq | h
      · have := List.head_eq_of_cons_eq heq
        omega
      · have hrest := ih (d := d) h (by omega)
        rwa [Nat.add_right_comm n 1 d] at hrest
  | group entries rest _ ih =>
    cases d with
    | zero => exact h
    | succ d =>
      rcases h with heq | ⟨_, heq, -⟩ | h
      · have := List.head_eq_of_cons_eq heq
        omega
      · have := List.head_eq_of_cons_eq heq
        omega
      · have hrest := ih (d := d) h (by omega)
        rwa [Nat.add_right_comm n 1 d] at hrest

/-- The items of a group are those whose number begins with its number. -/
theorem filter_items_group {entries rest : Outline α} {d : ℕ} (m : ℕ)
    (h : o.drop d = group entries rest) :
    (o.items m).filter (fun x => decide (x.1.head? = some (m + d)))
      = (entries.items 1).map (Prod.map ((m + d) :: ·) id) := by
  -- entries with greater numbers
  have hgreater : ∀ (o : Outline α) {n k : ℕ}, k < n →
      (o.items n).filter (fun x => decide (x.1.head? = some k)) = [] := by
    intro o n k hk
    refine List.filter_eq_nil_iff.mpr ?_
    intro x hx
    obtain ⟨j, tail, hj, hx⟩ := exists_cons_of_mem_items hx
    rw [hx, decide_eq_true_eq, List.head?_cons, Option.some.injEq]
    omega
  induction o generalizing m d with
  | nil => cases d <;> cases h
  | item a rest' ih =>
    cases d with
    | zero => cases h
    | succ d =>
      have hrest := ih (m + 1) h
      rw [Nat.add_right_comm m 1 d] at hrest
      rw [items, List.filter_cons_of_neg (by simp)]
      exact hrest
  | group entries' rest' _ ih =>
    cases d with
    | zero =>
      cases h
      rw [items, List.filter_append, Nat.add_zero, hgreater rest (Nat.lt_succ_self m),
        List.append_nil]
      refine List.filter_eq_self.mpr ?_
      intro x hx
      obtain ⟨y, -, rfl⟩ := List.mem_map.mp hx
      exact decide_eq_true rfl
    | succ d =>
      have hnil : ((entries'.items 1).map (Prod.map (m :: ·) id)).filter
          (fun x => decide (x.1.head? = some (m + (d + 1)))) = [] := by
        refine List.filter_eq_nil_iff.mpr ?_
        intro x hx
        obtain ⟨y, -, rfl⟩ := List.mem_map.mp hx
        simp
      have hrest := ih (m + 1) h
      rw [Nat.add_right_comm m 1 d] at hrest
      rw [items, List.filter_append, hnil]
      exact hrest

/-- An entry of a group is an entry below its number. -/
theorem Has.of_cons {entries rest : Outline α} {d : ℕ} {tail : List ℕ}
    (h : o.Has n ((n + d) :: tail)) (hne : tail ≠ []) (hgroup : o.drop d = group entries rest) :
    entries.Has 1 tail := by
  have hhas := h.drop le_rfl
  rw [hgroup] at hhas
  rcases hhas with heq | ⟨tail', heq, hhas⟩ | hhas
  · exact absurd (List.tail_eq_of_cons_eq heq) hne
  · rwa [List.tail_eq_of_cons_eq heq]
  · obtain ⟨k, tail', hk, heq⟩ := hhas.exists_cons
    have := List.head_eq_of_cons_eq heq
    omega

/-- What has entries below it is a group. -/
theorem Has.exists_group {d : ℕ} {tail : List ℕ} (h : o.Has n ((n + d) :: tail))
    (hne : tail ≠ []) : ∃ entries rest, o.drop d = group entries rest := by
  have hhas := h.drop le_rfl
  cases hdrop : o.drop d with
  | nil =>
    rw [hdrop] at hhas
    exact hhas.elim
  | item a rest =>
    rw [hdrop] at hhas
    rcases hhas with heq | hhas
    · exact absurd (List.tail_eq_of_cons_eq heq) hne
    · obtain ⟨k, tail', hk, heq⟩ := hhas.exists_cons
      have := List.head_eq_of_cons_eq heq
      omega
  | group entries rest => exact ⟨entries, rest, rfl⟩

theorem drop_of_length_le (o : Outline α) {d : ℕ} (hd : o.length ≤ d) : o.drop d = nil := by
  induction o generalizing d with
  | nil => cases d <;> rfl
  | item a rest ih =>
    cases d with
    | zero => exact absurd hd (Nat.not_succ_le_zero _)
    | succ d => exact ih (Nat.le_of_succ_le_succ hd)
  | group entries rest _ ih =>
    cases d with
    | zero => exact absurd hd (Nat.not_succ_le_zero _)
    | succ d => exact ih (Nat.le_of_succ_le_succ hd)

theorem Has.lt_length {d : ℕ} {tail : List ℕ} (h : o.Has n ((n + d) :: tail)) : d < o.length := by
  have hhas := h.drop le_rfl
  by_contra hle
  rw [o.drop_of_length_le (Nat.le_of_not_lt hle)] at hhas
  exact hhas

/-- The item with the first number. -/
theorem mem_items_singleton {a : α} :
    ([n], a) ∈ o.items n ↔ ∃ rest, o = item a rest := by
  -- there is no such number further on
  have hrest : ∀ rest : Outline α, ([n], a) ∉ rest.items (n + 1) := by
    intro rest h
    obtain ⟨k, tail, hk, heq⟩ := exists_cons_of_mem_items h
    have := List.head_eq_of_cons_eq heq
    omega
  cases o with
  | nil => simp [items]
  | item b rest =>
    rw [items, List.mem_cons, or_iff_left (hrest rest)]
    refine ⟨?_, ?_⟩
    · intro h
      cases h
      exact ⟨rest, rfl⟩
    · rintro ⟨_, h⟩
      cases h
      rfl
  | group entries rest =>
    rw [items, List.mem_append, or_iff_left (hrest rest), List.mem_map]
    refine ⟨?_, ?_⟩
    · rintro ⟨y, hy, heq⟩
      obtain ⟨k, tail, -, hy⟩ := exists_cons_of_mem_items hy
      have htail : y.1 = [] := List.tail_eq_of_cons_eq (congrArg Prod.fst heq)
      rw [hy] at htail
      cases htail
    · rintro ⟨_, h⟩
      cases h

theorem depth_drop_le (o : Outline α) (d : ℕ) : (o.drop d).depth ≤ o.depth := by
  induction o generalizing d with
  | nil => cases d <;> exact le_rfl
  | item a rest ih =>
    cases d with
    | zero => exact le_rfl
    | succ d => exact ih d
  | group entries rest _ ih =>
    cases d with
    | zero => exact le_rfl
    | succ d => exact le_trans (ih d) (le_max_right _ _)

end Outline

/-! ## Lists that are cut -/

/-- A list up to the first element that is not well, with that element. -/
def through {β : Type u} (well : β → Bool) : List β → List β
  | [] => []
  | x :: xs => if well x then x :: through well xs else [x]

section Through

variable {β : Type u} {well : β → Bool} {l l' : List β}

theorem isPrefix_through (well : β → Bool) (l : List β) : through well l <+: l := by
  induction l with
  | nil => exact List.prefix_rfl
  | cons x xs ih =>
    rw [through]
    split
    · exact (List.prefix_cons_inj x).mpr ih
    · exact ⟨xs, rfl⟩

theorem through_append_of_all (h : ∀ x ∈ l, well x = true) :
    through well (l ++ l') = l ++ through well l' := by
  induction l with
  | nil => rfl
  | cons x xs ih =>
    rw [List.cons_append, through, if_pos (h x List.mem_cons_self),
      ih fun y hy => h y (List.mem_cons_of_mem x hy), List.cons_append]

theorem through_append_of_not_all (h : ¬ ∀ x ∈ l, well x = true) :
    through well (l ++ l') = through well l := by
  induction l with
  | nil => exact absurd (fun x hx => absurd hx List.not_mem_nil) h
  | cons x xs ih =>
    rw [List.cons_append, through, through]
    by_cases hx : well x = true
    · rw [if_pos hx, if_pos hx, ih fun hall => h fun y hy => ?_]
      rcases List.mem_cons.mp hy with rfl | hy
      · exact hx
      · exact hall y hy
    · rw [if_neg hx, if_neg hx]

/-- A list that is well is not cut. -/
theorem through_of_all (h : ∀ x ∈ l, well x = true) : through well l = l := by
  have happend : through well (l ++ []) = l ++ through well [] := through_append_of_all h
  rwa [List.append_nil, through, List.append_nil] at happend

/-- **What is not left out** when an ordered list is cut: elements before which everything is
well. -/
theorem filter_through_eq_iff {r : β → β → Prop} (hr : ∀ x y, r x y → ¬ r y x) (p : β → Bool)
    (hl : l.Pairwise r) :
    (through well l).filter p = l.filter p ↔
      ∀ x ∈ l, p x = true → ∀ y ∈ l, r y x → well y = true := by
  induction l with
  | nil => simp [through]
  | cons a xs ih =>
    obtain ⟨ha, hxs⟩ := List.pairwise_cons.mp hl
    have hself : ¬ r a a := fun h => hr a a h h
    rw [through]
    by_cases hwell : well a = true
    · have htail : ((a :: through well xs).filter p = (a :: xs).filter p) ↔
          (through well xs).filter p = xs.filter p := by
        by_cases hp : p a = true
        · rw [List.filter_cons_of_pos hp, List.filter_cons_of_pos hp, List.cons_inj_right]
        · rw [List.filter_cons_of_neg hp, List.filter_cons_of_neg hp]
      rw [if_pos hwell, htail, ih hxs]
      refine ⟨?_, ?_⟩
      · intro h x hx hp y hy hyx
        rcases List.mem_cons.mp hy with rfl | hy'
        · exact hwell
        · rcases List.mem_cons.mp hx with rfl | hx'
          · exact absurd hyx (hr _ _ (ha y hy'))
          · exact h x hx' hp y hy' hyx
      · intro h x hx hp y hy hyx
        exact h x (List.mem_cons_of_mem a hx) hp y (List.mem_cons_of_mem a hy) hyx
    · have hcut : ([a].filter p = (a :: xs).filter p) ↔ ∀ x ∈ xs, ¬ p x = true := by
        by_cases hp : p a = true
        · rw [List.filter_cons_of_pos hp, List.filter_cons_of_pos hp, List.cons_inj_right,
            List.filter_nil, eq_comm, List.filter_eq_nil_iff]
        · rw [List.filter_cons_of_neg hp, List.filter_cons_of_neg hp, List.filter_nil, eq_comm,
            List.filter_eq_nil_iff]
      rw [if_neg hwell, hcut]
      refine ⟨?_, ?_⟩
      · intro h x hx hp y hy hyx
        rcases List.mem_cons.mp hx with rfl | hx'
        · rcases List.mem_cons.mp hy with rfl | hy'
          · exact absurd hyx hself
          · exact absurd hyx (hr _ _ (ha y hy'))
        · exact absurd hp (h x hx')
      · intro h x hx hp
        exact hwell (h x (List.mem_cons_of_mem a hx) hp a List.mem_cons_self (ha x hx))

end Through

end ChamberSpo

import Mathlib.Data.List.Nodup
import Mathlib.Logic.Function.Basic

/-!
# Circular doubly linked lists

A heap of nodes, each with a pointer to the next one and one to the previous one, and the lists in
it: a list starts and ends at a head, which is no entry.

* `Links.Segment` — the nodes from one to another, linked both ways.
* `Links.IsList` — the list at a head, as the sequence of its entries.
* `Links.insert`, `Links.unlink` — one node goes in between two others, or out. The four writes of
  the first and the two of the second are in the order in which they are done.
* `Links.walk`, `Links.find` — the loop over the entries, to its end and to the one that is looked
  for.
* `Links.Pair` — two lists that share no node.

What an operation does to the list it is done on is said by `IsList.insert_first`,
`IsList.insert_last` and `IsList.unlink`; what it does to two lists by `Pair.insert_first`,
`Pair.insert_last` and `Pair.unlink`.
-/

namespace ChamberSpo

/-- The pointers of all the nodes. -/
structure Links (α : Type*) where
  next : α → α
  prev : α → α

namespace Links

variable {α : Type*} [DecidableEq α] {h h' : Links α} {a b e n p x : α} {xs ys : List α}

/-- A node that points to itself both ways. -/
def selfLink (h : Links α) (node : α) : Links α where
  next := Function.update h.next node node
  prev := Function.update h.prev node node

/-- `node` goes in between `prev` and `next`. -/
def insert (h : Links α) (node prev next : α) : Links α :=
  let h := { h with prev := Function.update h.prev next node }
  let h := { h with next := Function.update h.next node next }
  let h := { h with prev := Function.update h.prev node prev }
  { h with next := Function.update h.next prev node }

/-- What is between `prev` and `next` goes out. -/
def unlink (h : Links α) (prev next : α) : Links α :=
  let h := { h with prev := Function.update h.prev next prev }
  { h with next := Function.update h.next prev next }

/-- The entries from `pos` on, until `head` comes up again; `none` when `fuel` does not suffice. -/
def walk (step : α → α) (head : α) : ℕ → α → Option (List α)
  | 0, pos => if pos = head then some [] else none
  | fuel + 1, pos =>
    if pos = head then some [] else (walk step head fuel (step pos)).map (pos :: ·)

/-- The first entry from `pos` on with `good`; `none` when there is none before `head`. -/
def find (step : α → α) (head : α) (good : α → Bool) : ℕ → α → Option α
  | 0, _ => none
  | fuel + 1, pos =>
    if pos = head then none
    else if good pos then some pos else find step head good fuel (step pos)

/-- The heap with its pointers turned round. -/
def flip (h : Links α) : Links α := ⟨h.prev, h.next⟩

/-- The nodes `xs` lie between `a` and `b`, each linked to its neighbours both ways. -/
def Segment (h : Links α) : α → List α → α → Prop
  | a, [], b => h.next a = b ∧ h.prev b = a
  | a, x :: xs, b => (h.next a = x ∧ h.prev x = a) ∧ Segment h x xs b

/-- The entries of the list at `head` are `xs`. -/
structure IsList (h : Links α) (head : α) (xs : List α) : Prop where
  nodup : (head :: xs).Nodup
  segment : h.Segment head xs head

/-! ## Segments -/

omit [DecidableEq α] in
theorem segment_append : h.Segment a (xs ++ x :: ys) b ↔ h.Segment a xs x ∧ h.Segment x ys b := by
  induction xs generalizing a with
  | nil => exact Iff.rfl
  | cons y xs ih => rw [List.cons_append, Segment, Segment, ih, and_assoc, and_assoc, and_assoc]

omit [DecidableEq α] in
/-- A segment depends on the pointers out of its nodes only. -/
theorem Segment.congr (hs : h.Segment a xs b) (hnext : ∀ x ∈ a :: xs, h'.next x = h.next x)
    (hprev : ∀ x ∈ xs ++ [b], h'.prev x = h.prev x) : h'.Segment a xs b := by
  induction xs generalizing a with
  | nil =>
    obtain ⟨hab, hba⟩ := hs
    exact ⟨(hnext a (by simp)).trans hab, (hprev b (by simp)).trans hba⟩
  | cons x xs ih =>
    obtain ⟨⟨hax, hxa⟩, hs⟩ := hs
    refine ⟨⟨(hnext a (by simp)).trans hax, (hprev x (by simp)).trans hxa⟩, ih hs ?_ ?_⟩
    · intro y hy
      exact hnext y (List.mem_cons_of_mem _ hy)
    · intro y hy
      exact hprev y (List.mem_cons_of_mem _ hy)

omit [DecidableEq α] in
/-- A segment that is read backwards. -/
theorem segment_flip : h.flip.Segment b xs.reverse a ↔ h.Segment a xs b := by
  induction xs generalizing a with
  | nil => exact and_comm
  | cons x xs ih =>
    rw [List.reverse_cons, segment_append, ih, Segment, Segment, and_comm]
    exact and_congr_left' and_comm

omit [DecidableEq α] in
/-- The node before the end is one of the segment. -/
theorem Segment.prev_mem (hs : h.Segment a xs b) : h.prev b ∈ a :: xs := by
  induction xs generalizing a with
  | nil =>
    rw [hs.2]
    exact List.mem_cons_self
  | cons x xs ih => exact List.mem_cons_of_mem _ (ih hs.2)

omit [DecidableEq α] in
/-- A segment that is made to end at another node. -/
theorem Segment.retarget (hs : h.Segment a xs e) (hnodup : (a :: xs).Nodup)
    (hlast : h'.next (h.prev e) = n) (hback : h'.prev n = h.prev e)
    (hnext : ∀ x ∈ a :: xs, x ≠ h.prev e → h'.next x = h.next x)
    (hprev : ∀ x ∈ xs, h'.prev x = h.prev x) : h'.Segment a xs n := by
  induction xs generalizing a with
  | nil =>
    obtain ⟨-, hea⟩ := hs
    rw [hea] at hlast hback
    exact ⟨hlast, hback⟩
  | cons x xs ih =>
    obtain ⟨⟨hax, hxa⟩, hs⟩ := hs
    obtain ⟨hnot, hnodup⟩ := List.nodup_cons.mp hnodup
    have hne : a ≠ h.prev e := fun heq => hnot (heq ▸ hs.prev_mem)
    refine ⟨⟨(hnext a (by simp) hne).trans hax, (hprev x (by simp)).trans hxa⟩,
      ih hs hnodup ?_ ?_⟩
    · intro y hy
      exact hnext y (List.mem_cons_of_mem _ hy)
    · intro y hy
      exact hprev y (List.mem_cons_of_mem _ hy)

/-! ## The pointers after an operation -/

theorem insert_next (h : Links α) (node y : α) :
    (h.insert node p n).next y = if y = p then node else if y = node then n else h.next y := by
  simp only [insert, Function.update_apply]

theorem insert_prev (h : Links α) (node y : α) :
    (h.insert node p n).prev y = if y = node then p else if y = n then node else h.prev y := by
  simp only [insert, Function.update_apply]

theorem unlink_next (h : Links α) (y : α) :
    (h.unlink p n).next y = if y = p then n else h.next y := by
  simp only [unlink, Function.update_apply]

theorem unlink_prev (h : Links α) (y : α) :
    (h.unlink p n).prev y = if y = n then p else h.prev y := by
  simp only [unlink, Function.update_apply]

/-- Backwards, a node goes in between the same two nodes. -/
theorem flip_insert (h : Links α) {node : α} (hp : node ≠ p) (hn : node ≠ n) :
    (h.insert node p n).flip = h.flip.insert node n p := by
  have hnext : (h.insert node p n).prev = (h.flip.insert node n p).next := by
    funext y
    rw [insert_prev, insert_next]
    by_cases hy : y = node
    · rw [if_pos hy, if_neg (hy ▸ hn), if_pos hy]
    · rw [if_neg hy, if_neg hy]
      rfl
  have hprev : (h.insert node p n).next = (h.flip.insert node n p).prev := by
    funext y
    rw [insert_next, insert_prev]
    by_cases hy : y = node
    · rw [if_pos hy, if_neg (hy ▸ hp), if_pos hy]
    · rw [if_neg hy, if_neg hy]
      rfl
  rw [flip, hnext, hprev]

/-! ## Lists -/

namespace IsList

omit [DecidableEq α] in
/-- A list is what it was when the pointers out of its head and its entries are. -/
theorem congr (hl : h.IsList a xs) (hnext : ∀ x ∈ a :: xs, h'.next x = h.next x)
    (hprev : ∀ x ∈ a :: xs, h'.prev x = h.prev x) : h'.IsList a xs := by
  refine ⟨hl.nodup, hl.segment.congr hnext ?_⟩
  intro x hx
  refine hprev x ?_
  rw [List.mem_append, List.mem_singleton] at hx
  exact List.mem_cons.mpr hx.symm

omit [DecidableEq α] in
theorem flip (hl : h.IsList a xs) : h.flip.IsList a xs.reverse := by
  obtain ⟨hnot, hnodup⟩ := List.nodup_cons.mp hl.nodup
  refine ⟨List.nodup_cons.mpr ⟨?_, List.nodup_reverse.mpr hnodup⟩, segment_flip.mpr hl.segment⟩
  rwa [List.mem_reverse]

/-- A head that points to itself has an empty list. -/
theorem selfLink (h : Links α) (a : α) : (h.selfLink a).IsList a [] :=
  ⟨List.nodup_singleton a, Function.update_self .., Function.update_self ..⟩

omit [DecidableEq α] in
theorem next_head (hl : h.IsList a xs) : h.next a = xs.headD a := by
  cases xs with
  | nil => exact hl.segment.1
  | cons x xs => exact hl.segment.1.1

omit [DecidableEq α] in
/-- A list is empty when its head points to itself. -/
theorem next_eq_iff (hl : h.IsList a xs) : h.next a = a ↔ xs = [] := by
  rw [hl.next_head]
  cases xs with
  | nil => exact iff_of_true rfl rfl
  | cons x xs =>
    refine iff_of_false ?_ (List.cons_ne_nil x xs)
    rintro (rfl : x = a)
    exact (List.nodup_cons.mp hl.nodup).1 List.mem_cons_self

/-- **A node that goes in behind the head** is the first entry. -/
theorem insert_first (hl : h.IsList a xs) (hx : x ∉ a :: xs) :
    (h.insert x a (h.next a)).IsList a (x :: xs) := by
  obtain ⟨hxa, hxs⟩ := not_or.mp (mt List.mem_cons.mpr hx)
  obtain ⟨hnot, hnodup⟩ := List.nodup_cons.mp hl.nodup
  refine ⟨List.nodup_cons.mpr ⟨?_, List.nodup_cons.mpr ⟨hxs, hnodup⟩⟩, ?_⟩
  · exact mt List.mem_cons.mp (not_or.mpr ⟨Ne.symm hxa, hnot⟩)
  · have hs := hl.segment
    cases xs with
    | nil =>
      rw [hs.1]
      refine ⟨⟨?_, ?_⟩, ?_, ?_⟩
      · rw [insert_next, if_pos rfl]
      · rw [insert_prev, if_pos rfl]
      · rw [insert_next, if_neg hxa, if_pos rfl]
      · rw [insert_prev, if_neg (Ne.symm hxa), if_pos rfl]
    | cons y ys =>
      obtain ⟨⟨hay, -⟩, hs⟩ := hs
      obtain ⟨hxy, hxys⟩ := not_or.mp (mt List.mem_cons.mpr hxs)
      have hay' : a ≠ y := fun heq => hnot (heq ▸ List.mem_cons_self)
      have hyys := (List.nodup_cons.mp hnodup).1
      rw [hay]
      refine ⟨⟨?_, ?_⟩, ⟨?_, ?_⟩, hs.congr ?_ ?_⟩
      · rw [insert_next, if_pos rfl]
      · rw [insert_prev, if_pos rfl]
      · rw [insert_next, if_neg hxa, if_pos rfl]
      · rw [insert_prev, if_neg (Ne.symm hxy), if_pos rfl]
      · intro z hz
        have hza : z ≠ a := fun heq => hnot (heq ▸ hz)
        have hzx : z ≠ x := fun heq => hxs (heq ▸ hz)
        rw [insert_next, if_neg hza, if_neg hzx]
      · intro z hz
        have hzx : z ≠ x := by
          rintro rfl
          rw [List.mem_append, List.mem_singleton] at hz
          exact hz.elim hxys hxa
        have hzy : z ≠ y := by
          rintro rfl
          rw [List.mem_append, List.mem_singleton] at hz
          exact hz.elim hyys fun hza => hay' hza.symm
        rw [insert_prev, if_neg hzx, if_neg hzy]

/-- **A node that goes in before the head** is the last entry. -/
theorem insert_last (hl : h.IsList a xs) (hx : x ∉ a :: xs) :
    (h.insert x (h.prev a) a).IsList a (xs ++ [x]) := by
  have hx' : x ∉ a :: xs.reverse := by
    rwa [List.mem_cons, List.mem_reverse, ← List.mem_cons]
  have hxa : x ≠ a := fun h => hx (h ▸ List.mem_cons_self)
  have hxp : x ≠ h.prev a := fun heq => hx (heq ▸ hl.segment.prev_mem)
  have hfirst := (hl.flip.insert_first hx').flip
  rw [List.reverse_cons, List.reverse_reverse] at hfirst
  have hback : (h.insert x (h.prev a) a) = (h.flip.insert x a (h.flip.next a)).flip := by
    rw [show h.flip.next a = h.prev a from rfl, flip_insert h.flip hxa hxp]
    rfl
  rw [hback]
  exact hfirst

omit [DecidableEq α] in
/-- The two sides of an entry. -/
theorem split (hl : h.IsList a (xs ++ e :: ys)) :
    h.Segment a xs e ∧ h.Segment e ys a := segment_append.mp hl.segment

/-- **An entry that goes out** leaves the others as they are. -/
theorem unlink (hl : h.IsList a (xs ++ e :: ys)) :
    (h.unlink (h.prev e) (h.next e)).IsList a (xs ++ ys) := by
  obtain ⟨hbefore, hafter⟩ := hl.split
  have hnodup : (a :: xs ++ e :: ys).Nodup := hl.nodup
  obtain ⟨hleft, hright, hdisj⟩ := List.nodup_append'.mp hnodup
  obtain ⟨he, hys⟩ := List.nodup_cons.mp hright
  have hp := hbefore.prev_mem
  refine ⟨hnodup.sublist ((List.sublist_cons_self e ys).append_left (a :: xs)), ?_⟩
  cases ys with
  | nil =>
    obtain ⟨hea, -⟩ := hafter
    rw [List.append_nil, hea]
    refine hbefore.retarget hleft ?_ ?_ ?_ ?_
    · rw [unlink_next, if_pos rfl]
    · rw [unlink_prev, if_pos rfl]
    · intro z _ hz
      rw [unlink_next, if_neg hz]
    · intro z hz
      rw [unlink_prev, if_neg]
      rintro rfl
      exact (List.nodup_cons.mp hleft).1 hz
  | cons y ys =>
    obtain ⟨⟨hey, -⟩, hafter⟩ := hafter
    rw [hey]
    refine segment_append.mpr ⟨hbefore.retarget hleft ?_ ?_ ?_ ?_, hafter.congr ?_ ?_⟩
    · rw [unlink_next, if_pos rfl]
    · rw [unlink_prev, if_pos rfl]
    · intro z _ hz
      rw [unlink_next, if_neg hz]
    · intro z hz
      rw [unlink_prev, if_neg]
      rintro rfl
      exact hdisj (List.mem_cons_of_mem _ hz) (List.mem_cons_of_mem _ List.mem_cons_self)
    · intro z hz
      rw [unlink_next, if_neg]
      rintro rfl
      exact hdisj hp (List.mem_cons_of_mem _ hz)
    · intro z hz
      rw [unlink_prev, if_neg]
      rintro rfl
      rw [List.mem_append, List.mem_singleton] at hz
      rcases hz with hz | rfl
      · exact (List.nodup_cons.mp hys).1 hz
      · exact hdisj List.mem_cons_self (List.mem_cons_of_mem _ List.mem_cons_self)

omit [DecidableEq α] in
/-- The pointers of a list's nodes stay in the list. -/
theorem next_mem (hl : h.IsList a xs) (he : e ∈ a :: xs) : h.next e ∈ a :: xs := by
  have hclosed : ∀ {c : α} {zs : List α}, h.Segment c zs a → (∀ z ∈ c :: zs, z ∈ a :: xs) →
      ∀ z ∈ c :: zs, h.next z ∈ a :: xs := by
    intro c zs hs hsub z hz
    induction zs generalizing c with
    | nil =>
      obtain rfl := List.mem_singleton.mp hz
      rw [hs.1]
      exact List.mem_cons_self
    | cons y ys ih =>
      obtain ⟨⟨hcy, -⟩, hs⟩ := hs
      rcases List.mem_cons.mp hz with rfl | hz
      · rw [hcy]
        exact hsub y (by simp)
      · exact ih hs (fun w hw => hsub w (List.mem_cons_of_mem _ hw)) hz
  exact hclosed hl.segment (fun _ hz => hz) e he

omit [DecidableEq α] in
theorem prev_mem (hl : h.IsList a xs) (he : e ∈ a :: xs) : h.prev e ∈ a :: xs := by
  have hmem : e ∈ a :: xs.reverse := by rwa [List.mem_cons, List.mem_reverse, ← List.mem_cons]
  have hprev := hl.flip.next_mem hmem
  rwa [List.mem_cons, List.mem_reverse, ← List.mem_cons] at hprev

/-- A node that goes in elsewhere. -/
theorem insert_other (hl : h.IsList a xs) (hx : x ∉ a :: xs) (hp : p ∉ a :: xs)
    (hn : n ∉ a :: xs) : (h.insert x p n).IsList a xs := by
  refine hl.congr ?_ ?_
  · intro z hz
    have hzp : z ≠ p := fun heq => hp (heq ▸ hz)
    have hzx : z ≠ x := fun heq => hx (heq ▸ hz)
    rw [insert_next, if_neg hzp, if_neg hzx]
  · intro z hz
    have hzn : z ≠ n := fun heq => hn (heq ▸ hz)
    have hzx : z ≠ x := fun heq => hx (heq ▸ hz)
    rw [insert_prev, if_neg hzx, if_neg hzn]

/-- A node that goes out elsewhere. -/
theorem unlink_other (hl : h.IsList a xs) (hp : p ∉ a :: xs) (hn : n ∉ a :: xs) :
    (h.unlink p n).IsList a xs := by
  refine hl.congr ?_ ?_
  · intro z hz
    rw [unlink_next, if_neg fun heq : z = p => hp (heq ▸ hz)]
  · intro z hz
    rw [unlink_prev, if_neg fun heq : z = n => hn (heq ▸ hz)]

end IsList

/-! ## Two lists -/

/-- Two lists, at `a` and at `b`, that share no node. -/
structure Pair (h : Links α) (a : α) (xs : List α) (b : α) (ys : List α) : Prop where
  left : h.IsList a xs
  right : h.IsList b ys
  disjoint : (a :: xs).Disjoint (b :: ys)

namespace Pair

omit [DecidableEq α] in
theorem symm (hp : h.Pair a xs b ys) : h.Pair b ys a xs :=
  ⟨hp.right, hp.left, List.disjoint_symm hp.disjoint⟩

theorem insert_first (hl : h.Pair a xs b ys) (hx : x ∉ a :: xs) (hx' : x ∉ b :: ys) :
    (h.insert x a (h.next a)).Pair a (x :: xs) b ys := by
  have ha : a ∈ a :: xs := List.mem_cons_self
  refine ⟨hl.left.insert_first hx,
    hl.right.insert_other hx' (hl.disjoint ha) (hl.disjoint (hl.left.next_mem ha)), ?_⟩
  intro z hz hz'
  rcases List.mem_cons.mp hz with rfl | hz
  · exact hl.disjoint ha hz'
  · rcases List.mem_cons.mp hz with rfl | hz
    · exact hx' hz'
    · exact hl.disjoint (List.mem_cons_of_mem _ hz) hz'

theorem insert_last (hl : h.Pair a xs b ys) (hx : x ∉ a :: xs) (hx' : x ∉ b :: ys) :
    (h.insert x (h.prev a) a).Pair a (xs ++ [x]) b ys := by
  have ha : a ∈ a :: xs := List.mem_cons_self
  refine ⟨hl.left.insert_last hx,
    hl.right.insert_other hx' (hl.disjoint (hl.left.prev_mem ha)) (hl.disjoint ha), ?_⟩
  intro z hz hz'
  rw [← List.cons_append, List.mem_append, List.mem_singleton] at hz
  rcases hz with hz | rfl
  · exact hl.disjoint hz hz'
  · exact hx' hz'

theorem unlink {zs : List α} (hl : h.Pair a (xs ++ e :: ys) b zs) :
    (h.unlink (h.prev e) (h.next e)).Pair a (xs ++ ys) b zs := by
  have he : e ∈ a :: (xs ++ e :: ys) := by simp
  refine ⟨hl.left.unlink, hl.right.unlink_other (hl.disjoint (hl.left.prev_mem he))
    (hl.disjoint (hl.left.next_mem he)), ?_⟩
  intro z hz hz'
  refine hl.disjoint ?_ hz'
  rcases List.mem_cons.mp hz with rfl | hz
  · exact List.mem_cons_self
  · rcases List.mem_append.mp hz with hz | hz
    · exact List.mem_cons_of_mem _ (List.mem_append_left _ hz)
    · exact List.mem_cons_of_mem _ (List.mem_append_right _ (List.mem_cons_of_mem _ hz))

omit [DecidableEq α] in
theorem congr (hl : h.Pair a xs b ys)
    (hnext : ∀ x ∈ a :: xs ++ b :: ys, h'.next x = h.next x)
    (hprev : ∀ x ∈ a :: xs ++ b :: ys, h'.prev x = h.prev x) : h'.Pair a xs b ys :=
  ⟨hl.left.congr (fun x hx => hnext x (List.mem_append_left _ hx))
      fun x hx => hprev x (List.mem_append_left _ hx),
    hl.right.congr (fun x hx => hnext x (List.mem_append_right _ hx))
      fun x hx => hprev x (List.mem_append_right _ hx), hl.disjoint⟩

end Pair

/-! ## The loop over a list -/

theorem walk_segment (hs : h.Segment a xs b) (hb : b ∉ xs) {fuel : ℕ} (hfuel : xs.length ≤ fuel) :
    walk h.next b fuel (h.next a) = some xs := by
  induction xs generalizing a fuel with
  | nil =>
    rw [hs.1]
    cases fuel <;> exact if_pos rfl
  | cons x xs ih =>
    obtain ⟨⟨hax, -⟩, hs⟩ := hs
    obtain ⟨hbx, hb⟩ := not_or.mp (mt List.mem_cons.mpr hb)
    cases fuel with
    | zero => exact absurd hfuel (by simp)
    | succ fuel =>
      rw [hax, walk, if_neg (Ne.symm hbx), ih hs hb (Nat.le_of_succ_le_succ hfuel)]
      rfl

/-- **The loop visits every entry once, in order**, and stops. -/
theorem IsList.walk_next (hl : h.IsList a xs) {fuel : ℕ} (hfuel : xs.length ≤ fuel) :
    walk h.next a fuel (h.next a) = some xs :=
  walk_segment hl.segment (List.nodup_cons.mp hl.nodup).1 hfuel

/-- The loop backwards. -/
theorem IsList.walk_prev (hl : h.IsList a xs) {fuel : ℕ} (hfuel : xs.length ≤ fuel) :
    walk h.prev a fuel (h.prev a) = some xs.reverse := by
  refine walk_segment hl.flip.segment ?_ (by rwa [List.length_reverse])
  rw [List.mem_reverse]
  exact (List.nodup_cons.mp hl.nodup).1

theorem find_segment {good : α → Bool} (hs : h.Segment a xs b) (hb : b ∉ xs) {fuel : ℕ}
    (hfuel : xs.length < fuel) : find h.next b good fuel (h.next a) = xs.find? good := by
  induction xs generalizing a fuel with
  | nil =>
    rw [hs.1]
    cases fuel with
    | zero => exact absurd hfuel (Nat.not_lt_zero _)
    | succ fuel => exact if_pos rfl
  | cons x xs ih =>
    obtain ⟨⟨hax, -⟩, hs⟩ := hs
    obtain ⟨hbx, hb⟩ := not_or.mp (mt List.mem_cons.mpr hb)
    cases fuel with
    | zero => exact absurd hfuel (Nat.not_lt_zero _)
    | succ fuel =>
      rw [hax, find, if_neg (Ne.symm hbx), List.find?_cons]
      cases hgood : good x with
      | true => rfl
      | false => exact ih hs hb (Nat.lt_of_succ_lt_succ hfuel)

/-- **The loop that looks for an entry** finds the first one. -/
theorem IsList.find_next {good : α → Bool} (hl : h.IsList a xs) {fuel : ℕ}
    (hfuel : xs.length < fuel) : find h.next a good fuel (h.next a) = xs.find? good :=
  find_segment hl.segment (List.nodup_cons.mp hl.nodup).1 hfuel

end Links

end ChamberSpo

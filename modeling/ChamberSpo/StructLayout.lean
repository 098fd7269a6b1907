import ChamberSpo.Buffer
import Mathlib.Data.List.GetD
import Mathlib.Data.List.Pairwise

/-!
# Structures in memory

The members of a C structure, one after another, each at the next offset that its alignment
allows, and strings in members that are arrays of characters.

* `Member.place` — the offsets of the members; later ones are behind earlier ones
  (`pairwise_place`).
* `StructLayout` — a structure whose fields are all among its members, and `offset`, `size` and
  `Window` of a field. Different fields have no byte in common (`StructLayout.disjoint`).
* `cString` — the string in an array of characters (`cString_eq_some`).
* `StructLayout.Kept` — bytes are as they were, but for those of some fields: after assignments to
  them (`kept_foldl_assign`), and after a text was copied to an array of characters that is long
  enough (`kept_copyText_iff`, `kept_copyChars_iff`).
-/

namespace ChamberSpo

universe u

/-- A member of a structure. -/
structure Member (α : Type u) where
  name : α
  size : ℕ
  align : ℕ

/-- A member, and where it is. -/
structure Placed (α : Type u) where
  name : α
  offset : ℕ
  size : ℕ

variable {α : Type u}

/-- The next offset with an alignment. -/
def roundUp (off align : ℕ) : ℕ := (off + align - 1) / align * align

/-- The members of a structure in order. -/
def Member.place : ℕ → List (Member α) → List (Placed α)
  | _, [] => []
  | off, m :: ms =>
    { name := m.name, offset := roundUp off m.align, size := m.size } ::
      place (roundUp off m.align + m.size) ms

theorem le_roundUp {off align : ℕ} (h : 0 < align) : off ≤ roundUp off align := by
  have hdiv := Nat.div_add_mod (off + align - 1) align
  have hlt := Nat.mod_lt (off + align - 1) h
  rw [roundUp, Nat.mul_comm]
  omega

theorem offset_of_mem_place {off : ℕ} {ms : List (Member α)} (h : ∀ m ∈ ms, 0 < m.align) :
    ∀ p ∈ Member.place off ms, off ≤ p.offset := by
  induction ms generalizing off with
  | nil => exact fun p hp => absurd hp List.not_mem_nil
  | cons m ms ih =>
    obtain ⟨hm, hms⟩ := List.forall_mem_cons.mp h
    have hle : off ≤ roundUp off m.align := le_roundUp hm
    intro p hp
    rcases List.mem_cons.mp hp with rfl | hp
    · exact hle
    · exact (hle.trans (Nat.le_add_right _ _)).trans (ih hms p hp)

/-- Each member is behind those before it. -/
theorem pairwise_place (off : ℕ) {ms : List (Member α)} (h : ∀ m ∈ ms, 0 < m.align) :
    (Member.place off ms).Pairwise fun p q => p.offset + p.size ≤ q.offset := by
  induction ms generalizing off with
  | nil => exact .nil
  | cons m ms ih =>
    obtain ⟨-, hms⟩ := List.forall_mem_cons.mp h
    exact .cons (offset_of_mem_place hms) (ih _ hms)

/-- Two members have no byte in common. -/
def Placed.Apart (p q : Placed α) : Prop :=
  p.offset + p.size ≤ q.offset ∨ q.offset + q.size ≤ p.offset

instance Placed.apartSymm : Std.Symm (@Placed.Apart α) := ⟨fun _ _ => Or.symm⟩

/-- A structure whose fields are all among its members. -/
structure StructLayout (α : Type u) [DecidableEq α] where
  members : List (Member α)
  align_pos : ∀ m ∈ members, 0 < m.align
  mem : ∀ field, ∃ m ∈ members, m.name = field

namespace StructLayout

variable [DecidableEq α] (l : StructLayout α)

/-- The members with their offsets. -/
def placed : List (Placed α) := Member.place 0 l.members

theorem exists_placed (field : α) : ∃ p, l.placed.find? (fun p => p.name = field) = some p := by
  have hmem : ∀ (off : ℕ) (ms : List (Member α)), (∃ m ∈ ms, m.name = field) →
      ∃ p ∈ Member.place off ms, p.name = field := by
    intro off ms
    induction ms generalizing off with
    | nil =>
      rintro ⟨m, hm, -⟩
      exact absurd hm List.not_mem_nil
    | cons m ms ih =>
      rintro ⟨m', hm', hname⟩
      rcases List.mem_cons.mp hm' with rfl | hm'
      · exact ⟨_, List.mem_cons_self, hname⟩
      · obtain ⟨p, hp, hpname⟩ := ih (roundUp off m.align + m.size) ⟨m', hm', hname⟩
        exact ⟨p, List.mem_cons_of_mem _ hp, hpname⟩
  obtain ⟨p, hp, hname⟩ := hmem 0 l.members (l.mem field)
  refine Option.isSome_iff_exists.mp (List.find?_isSome.mpr ⟨p, hp, ?_⟩)
  exact decide_eq_true hname

/-- Where a field is. -/
def offset (field : α) : ℕ := ((l.placed.find? fun p => p.name = field).map (·.offset)).getD 0

/-- How long it is. -/
def size (field : α) : ℕ := ((l.placed.find? fun p => p.name = field).map (·.size)).getD 0

/-- The bytes of a field. -/
def Window (field : α) (i : ℕ) : Prop := l.offset field ≤ i ∧ i < l.offset field + l.size field

theorem exists_mem_placed (field : α) :
    ∃ p ∈ l.placed, p.name = field ∧ p.offset = l.offset field ∧ p.size = l.size field := by
  obtain ⟨p, hp⟩ := l.exists_placed field
  have hname := List.find?_some hp
  refine ⟨p, List.mem_of_find?_eq_some hp, of_decide_eq_true hname, ?_, ?_⟩
  · rw [offset, hp]
    rfl
  · rw [size, hp]
    rfl

/-- **Different fields have no byte in common.** -/
theorem disjoint {field field' : α} (hne : field ≠ field') (i : ℕ) (h : l.Window field i) :
    ¬ l.Window field' i := by
  obtain ⟨p, hp, rfl, hoffset, hsize⟩ := l.exists_mem_placed field
  obtain ⟨q, hq, rfl, hoffset', hsize'⟩ := l.exists_mem_placed field'
  have hpq : p ≠ q := fun heq => hne (congrArg Placed.name heq)
  have hpairs : l.placed.Pairwise Placed.Apart := (pairwise_place 0 l.align_pos).imp .inl
  have horder : p.Apart q := hpairs.forall hp hq hpq
  rw [Placed.Apart] at horder
  rw [Window, ← hoffset, ← hsize] at h
  rw [Window, ← hoffset', ← hsize']
  omega

end StructLayout

/-! ## Strings -/

/-- The string in an array of `n` characters, if there is a terminator. -/
def cString (b : Buf) : ℕ → Option (List Byte)
  | 0 => none
  | n + 1 => if b 0 = 0 then some [] else (b 0 :: ·) <$> cString (b.shift 1) n

/-- The bytes of a text, and terminators behind it. -/
def textBuf (text : List Byte) : Buf := fun i => text.getD i 0

theorem textBuf_length (text : List Byte) : textBuf text text.length = 0 :=
  List.getD_eq_default _ _ le_rfl

theorem textBuf_shift (ch : Byte) (text : List Byte) :
    (textBuf (ch :: text)).shift 1 = textBuf text := by
  funext i
  rw [Buf.shift_apply, textBuf, textBuf, Nat.add_comm]
  rfl

/-- Which string an array holds. -/
theorem cString_eq_some {text : List Byte} (htext : 0 ∉ text) {b : Buf} {n : ℕ} :
    cString b n = some text ↔ text.length < n ∧ ∀ i ≤ text.length, b i = textBuf text i := by
  induction text generalizing b n with
  | nil =>
    cases n with
    | zero => exact iff_of_false (Option.some_ne_none _).symm fun h => Nat.not_lt_zero _ h.1
    | succ n =>
      have hnil : (∀ i ≤ ([] : List Byte).length, b i = textBuf [] i) ↔ b 0 = 0 := by
        refine ⟨fun h => h 0 le_rfl, ?_⟩
        intro h i hi
        obtain rfl := Nat.le_zero.mp hi
        exact h
      rw [hnil, cString]
      refine ⟨fun h => ⟨Nat.succ_pos n, ?_⟩, fun h => if_pos h.2⟩
      by_contra hne
      rw [if_neg hne] at h
      obtain ⟨rest, -, hcons⟩ := Option.map_eq_some_iff.mp h
      cases hcons
  | cons ch text ih =>
    obtain ⟨hch, hrest⟩ := not_or.mp (mt List.mem_cons.mpr htext)
    cases n with
    | zero => exact iff_of_false (Option.some_ne_none _).symm fun h => Nat.not_lt_zero _ h.1
    | succ n =>
      -- the first character, and the others in the rest of the array
      have hcons : (∀ i ≤ (ch :: text).length, b i = textBuf (ch :: text) i) ↔
          b 0 = ch ∧ ∀ i ≤ text.length, b.shift 1 i = textBuf text i := by
        refine ⟨fun h => ⟨h 0 (Nat.zero_le _), ?_⟩, ?_⟩
        · intro i hi
          rw [← textBuf_shift ch, Buf.shift_apply, Buf.shift_apply]
          exact h (1 + i) (by rw [List.length_cons]; omega)
        · intro h i hi
          cases i with
          | zero => exact h.1
          | succ i =>
            have hi' := h.2 i (Nat.le_of_succ_le_succ hi)
            rw [← textBuf_shift ch, Buf.shift_apply, Buf.shift_apply, Nat.add_comm] at hi'
            exact hi'
      rw [hcons, cString, List.length_cons, Nat.succ_lt_succ_iff]
      by_cases hzero : b 0 = 0
      · rw [if_pos hzero]
        refine iff_of_false ?_ fun h => hch (hzero.symm.trans h.2.1)
        intro h
        cases h
      · rw [if_neg hzero]
        refine ⟨?_, fun ⟨hlt, hfirst, hothers⟩ => ?_⟩
        · intro h
          obtain ⟨rest, hsome, heq⟩ := Option.map_eq_some_iff.mp h
          obtain ⟨hfirst, rfl⟩ := List.cons.inj heq
          obtain ⟨hlt, hothers⟩ := (ih hrest).mp hsome
          exact ⟨hlt, hfirst, hothers⟩
        · rw [(ih hrest).mpr ⟨hlt, hothers⟩, hfirst]
          rfl

/-! ## Assignments -/

/-- An assignment to a field: its bytes, from what they were. -/
structure FieldStore (α : Type u) where
  field : α
  bytes : Buf → Buf

namespace FieldStore

variable {w : ℕ}

/-- A number. -/
def number (field : α) (x : BitVec w) : FieldStore α :=
  { field := field, bytes := fun _ => leBytes x.toNat }

/-- A constant of an enumeration, or a `bool`. -/
def enum (field : α) (num : ℕ) : FieldStore α := number field (BitVec.ofNat 32 num)

/-- A percentage, and its flag in the lowest bit. -/
def percent (field : α) (x : BitVec 7) : FieldStore α := number field (x ++ 1#1)

/-- The flag of a percentage is cleared. -/
def noPercent (field : α) : FieldStore α :=
  { field := field, bytes := fun old i => old i &&& 0xFE }

end FieldStore

namespace StructLayout

variable [DecidableEq α] (l : StructLayout α) {m : Buf} {field : α} {text : List Byte}

/-- The memory after an assignment. -/
def assign (m : Buf) (store : FieldStore α) : Buf :=
  m.copy (l.offset store.field) (store.bytes (m.shift (l.offset store.field))) (l.size store.field)

/-- `memcpy` of a text to an array of characters, without a terminator. -/
def copyChars (m : Buf) (field : α) (text : List Byte) : Buf :=
  m.copy (l.offset field) (textBuf text) text.length

/-- `memcpy` of a text to an array of characters, and a terminator. -/
def copyText (m : Buf) (field : α) (text : List Byte) : Buf :=
  (l.copyChars m field text).fill (l.offset field + text.length) 0 1

/-- The string in an array of characters. -/
def textAt (m : Buf) (field : α) : Option (List Byte) :=
  cString (m.shift (l.offset field)) (l.size field)

/-- Bytes are as they were, but for those of some fields. -/
def Kept (fields : List α) (m m' : Buf) : Prop :=
  ∀ i, (∀ field ∈ fields, ¬ l.Window field i) → m' i = m i

theorem Kept.refl (fields : List α) (m : Buf) : l.Kept fields m m := fun _ _ => rfl

theorem Kept.trans {fields : List α} {m m' m'' : Buf} (h : l.Kept fields m m')
    (h' : l.Kept fields m' m'') : l.Kept fields m m'' := by
  intro i hi
  rw [h' i hi, h i hi]

/-- An assignment changes its field. -/
theorem kept_assign (m : Buf) (store : FieldStore α) :
    l.Kept [store.field] m (l.assign m store) := by
  intro i hi
  have hwindow := hi store.field List.mem_cons_self
  rw [Window, not_and_or, not_le, not_lt] at hwindow
  exact Buf.copy_out hwindow

theorem Kept.mono {fields fields' : List α} {m m' : Buf} (h : l.Kept fields m m')
    (hsub : fields ⊆ fields') : l.Kept fields' m m' := by
  intro i hi
  apply h
  intro field hfield
  exact hi field (hsub hfield)

/-- Assignments to some fields change these. -/
theorem kept_foldl_assign {fields : List α} {stores : List (FieldStore α)}
    (h : ∀ store ∈ stores, store.field ∈ fields) (m : Buf) :
    l.Kept fields m (stores.foldl l.assign m) := by
  induction stores generalizing m with
  | nil => exact Kept.refl l fields m
  | cons store stores ih =>
    obtain ⟨hstore, hstores⟩ := List.forall_mem_cons.mp h
    have hsub : [store.field] ⊆ fields := List.cons_subset.mpr ⟨hstore, List.nil_subset fields⟩
    have hone := (l.kept_assign m store).mono l hsub
    exact hone.trans l (ih hstores _)

theorem copyChars_apply {i : ℕ} (hi : i < text.length) :
    l.copyChars m field text (l.offset field + i) = textBuf text i := Buf.copy_in hi

theorem copyChars_of_out {i : ℕ} (hi : i < l.offset field ∨ l.offset field + text.length ≤ i) :
    l.copyChars m field text i = m i := Buf.copy_out hi

theorem copyText_apply {i : ℕ} (hi : i ≤ text.length) :
    l.copyText m field text (l.offset field + i) = textBuf text i := by
  rcases hi.lt_or_eq with hlt | rfl
  · rw [copyText, Buf.fill, Buf.copy_out (by omega)]
    exact l.copyChars_apply hlt
  · rw [copyText, Buf.fill, ← Nat.add_zero (_ + _), Buf.copy_in Nat.one_pos]
    exact (textBuf_length text).symm

theorem copyText_of_out {i : ℕ} (hi : i < l.offset field ∨ l.offset field + text.length < i) :
    l.copyText m field text i = m i := by
  rw [copyText, Buf.fill, Buf.copy_out (by omega)]
  exact l.copyChars_of_out (by omega)

/-- **A text that is copied to an array of characters with a terminator.** It is what the array
holds, and nothing else changes, if and only if the array is longer. -/
theorem kept_copyText_iff (htext : 0 ∉ text) (m : Buf) (field : α) :
    l.Kept [field] m (l.copyText m field text) ∧
        l.textAt (l.copyText m field text) field = some text ↔
      text.length < l.size field := by
  rw [textAt, cString_eq_some htext]
  refine ⟨fun h => h.2.1, fun hlt => ⟨?_, hlt, fun i hi => l.copyText_apply hi⟩⟩
  intro i hi
  have hwindow := hi field List.mem_cons_self
  rw [Window] at hwindow
  exact l.copyText_of_out (by omega)

/-- **A text that is copied without one.** There has to be one behind it. -/
theorem kept_copyChars_iff (htext : 0 ∉ text) (m : Buf) (field : α) :
    l.Kept [field] m (l.copyChars m field text) ∧
        l.textAt (l.copyChars m field text) field = some text ↔
      text.length < l.size field ∧ m (l.offset field + text.length) = 0 := by
  have hend : l.copyChars m field text (l.offset field + text.length) =
      m (l.offset field + text.length) := l.copyChars_of_out (.inr le_rfl)
  have hzero := textBuf_length text
  rw [textAt, cString_eq_some htext]
  refine ⟨?_, ?_⟩
  · rintro ⟨-, hlt, hbytes⟩
    have hlast := hbytes text.length le_rfl
    rw [Buf.shift_apply, hend, hzero] at hlast
    exact ⟨hlt, hlast⟩
  · rintro ⟨hlt, hlast⟩
    refine ⟨?_, hlt, ?_⟩
    · intro i hi
      have hwindow := hi field List.mem_cons_self
      rw [Window] at hwindow
      exact l.copyChars_of_out (by omega)
    · intro i hi
      rw [Buf.shift_apply]
      rcases hi.lt_or_eq with hi | rfl
      · exact l.copyChars_apply hi
      · rw [hend, hzero, hlast]

end StructLayout

end ChamberSpo

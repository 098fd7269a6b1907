import ChamberSpo.LineParser
import ChamberSpo.Params
import Mathlib.Data.List.Infix
import Mathlib.Data.List.TakeWhile

/-!
# The options of the SPDK engine

`parse_param` of `spdkio.c` reads the options of the engine from a text. One loop over the
characters finds the items between the commas and compares each with the keywords, as far as the
item goes.

* `parseParamLoop` — the loop, with pointers into the text as what they point at.
* `paramItems`, `itemTexts` — the items of a text, and where they begin.
* `ParamMeaning` — what the options and the messages should be.

The loop does not see an item that is empty, and an item that is the begin of a keyword is that
keyword to it. `spdkioParseParam_meaning_iff` says that nothing else is wrong.
-/

namespace ChamberSpo

/-! ## The program -/

/-- The text of a C string, which has no zero. -/
structure CString where
  text : List Byte
  terminated : 0 ∉ text

/-- `strncmp`, on texts with the zero behind them left out. -/
def strncmp : List Byte → List Byte → ℕ → Int
  | _, _, 0 => 0
  | a, b, n + 1 =>
    let x := a.headD 0
    let y := b.headD 0
    if x ≠ y then x.toNat - y.toNat
    else if x = 0 then 0
    else strncmp a.tail b.tail n

/-- The options in `struct instance_data`. -/
structure InstanceOptions where
  sgl : Int
  wrru : Int
  qprio : Int
  cmbSqs : Int
  deriving DecidableEq

/-- What an item is compared with. -/
inductive ParamKeyword where
  | sgl | wrru | qprioUrgent | qprioHigh | qprioMedium | qprioLow | cmbSqs
  deriving DecidableEq

namespace ParamKeyword

def text : ParamKeyword → List Byte
  | sgl => ascii "sgl"
  | wrru => ascii "wrru"
  | qprioUrgent => ascii "qprio_urgent"
  | qprioHigh => ascii "qprio_high"
  | qprioMedium => ascii "qprio_medium"
  | qprioLow => ascii "qprio_low"
  | cmbSqs => ascii "cmb_sqs"

/-- The option that a keyword sets. -/
def set (idata : InstanceOptions) : ParamKeyword → InstanceOptions
  | sgl => { idata with sgl := 1 }
  | wrru => { idata with wrru := 1 }
  | qprioUrgent => { idata with qprio := 0 }
  | qprioHigh => { idata with qprio := 1 }
  | qprioMedium => { idata with qprio := 2 }
  | qprioLow => { idata with qprio := 3 }
  | cmbSqs => { idata with cmbSqs := 1 }

/-- The order in which an item is compared. -/
def all : List ParamKeyword :=
  [sgl, wrru, qprioUrgent, qprioHigh, qprioMedium, qprioLow, cmbSqs]

theorem mem_all (keyword : ParamKeyword) : keyword ∈ all := by
  cases keyword <;> decide

end ParamKeyword

/-- The options, and the text at `str` in each message about an invalid parameter. -/
structure ParamState where
  idata : InstanceOptions
  reports : List (List Byte)

/-- The comparisons of the `len` characters at `str`. -/
def compareItem (s : ParamState) (str : List Byte) (len : ℕ) : ParamState :=
  match ParamKeyword.all.find? fun keyword => strncmp str keyword.text len = 0 with
  | some keyword => { s with idata := keyword.set s.idata }
  | none => { s with reports := s.reports ++ [str] }

/-- The loop of `parse_param`, with what is at `c`. -/
def parseParamLoop (s : ParamState) (str : List Byte) (len : ℕ) : List Byte → ParamState
  | [] => if len ≠ 0 then compareItem s str len else s
  | ch :: rest =>
    if ch = chr ',' ∧ len ≠ 0 then parseParamLoop (compareItem s str len) rest 0 rest
    else parseParamLoop s str (len + 1) rest

/-- `parse_param` -/
def spdkioParseParam (idata : InstanceOptions) (param : CString) : ParamState :=
  parseParamLoop ⟨idata, []⟩ param.text 0 param.text

/-! ## The meaning of a text -/

/-- The items of a text. -/
def paramItems (text : List Byte) : List (List Byte) := text.splitOn (chr ',')

/-- What is behind each comma. -/
def afterCommas : List Byte → List (List Byte)
  | [] => []
  | ch :: rest => if ch = chr ',' then rest :: afterCommas rest else afterCommas rest

/-- A text from the begin of each item on. -/
def itemTexts (text : List Byte) : List (List Byte) := text :: afterCommas text

/-- The item at the begin of a text. -/
def firstItem (text : List Byte) : List Byte := text.takeWhile (· ≠ chr ',')

/-- An item that is no option. -/
def InvalidItem (item : List Byte) : Prop :=
  item ≠ [] ∧ ∀ keyword ∈ ParamKeyword.all, item ≠ keyword.text

instance (item : List Byte) : Decidable (InvalidItem item) :=
  inferInstanceAs (Decidable (item ≠ [] ∧ ∀ keyword ∈ ParamKeyword.all, item ≠ keyword.text))

/-- The texts that begin with an item that is no option. -/
def invalidTexts (text : List Byte) : List (List Byte) :=
  (itemTexts text).filter fun text => InvalidItem (firstItem text)

/-- The queue priority that an item asks for. -/
def itemQprio (item : List Byte) : Option Int :=
  if item = ascii "qprio_urgent" then some 0
  else if item = ascii "qprio_high" then some 1
  else if item = ascii "qprio_medium" then some 2
  else if item = ascii "qprio_low" then some 3
  else none

/-- An option is set if there is an item for it, and the last queue priority counts. -/
structure OptionsMeaning (idata : InstanceOptions) (items : List (List Byte))
    (idata' : InstanceOptions) : Prop where
  sgl : idata'.sgl = if ascii "sgl" ∈ items then 1 else idata.sgl
  wrru : idata'.wrru = if ascii "wrru" ∈ items then 1 else idata.wrru
  qprio : idata'.qprio = ((items.filterMap itemQprio).getLast?).getD idata.qprio
  cmbSqs : idata'.cmbSqs = if ascii "cmb_sqs" ∈ items then 1 else idata.cmbSqs

/-- What is to be made of a text: the options, and a message about each item that is none. -/
structure ParamMeaning (idata : InstanceOptions) (text : List Byte) (result : ParamState) :
    Prop where
  options : OptionsMeaning idata (paramItems text) result.idata
  reports : result.reports = invalidTexts text

/-- An item is a keyword if it is the begin of one. -/
def WholeItem (item : List Byte) : Prop :=
  ∀ keyword : ParamKeyword, item <+: keyword.text → item = keyword.text

/-- Only the last item is empty, and no other is a part of a keyword only. -/
structure PlainItems (items : List (List Byte)) : Prop where
  nonempty : ∀ item ∈ items.dropLast, item ≠ []
  whole : ∀ item ∈ items, item ≠ [] → WholeItem item

/-! ## Items -/

namespace ParamKeyword

variable {keyword keyword' : ParamKeyword}

theorem text_ne_nil : keyword.text ≠ [] := by
  cases keyword <;> exact List.cons_ne_nil _ _

theorem comma_not_mem_text : chr ',' ∉ keyword.text := by
  cases keyword <;> decide

/-- No keyword is the begin of another. -/
theorem eq_of_text_prefix (h : keyword.text <+: keyword'.text) : keyword = keyword' := by
  revert h
  cases keyword <;> cases keyword' <;> first | exact fun _ => rfl | decide

theorem text_inj : keyword.text = keyword'.text ↔ keyword = keyword' := by
  refine ⟨?_, congrArg text⟩
  intro h
  exact eq_of_text_prefix (h ▸ List.prefix_rfl)

end ParamKeyword

theorem wholeItem_text (keyword : ParamKeyword) : WholeItem keyword.text := by
  intro keyword' h
  rw [ParamKeyword.eq_of_text_prefix h]

section Items

variable {item rest : List Byte}

theorem afterCommas_append (hitem : chr ',' ∉ item) :
    afterCommas (item ++ rest) = afterCommas rest := by
  induction item with
  | nil => rfl
  | cons ch item ih =>
    rw [List.mem_cons, not_or] at hitem
    rw [List.cons_append, afterCommas, if_neg (Ne.symm hitem.1), ih hitem.2]

theorem length_lt_of_mem_afterCommas {text : List Byte} (h : rest ∈ afterCommas text) :
    rest.length < text.length := by
  induction text with
  | nil => exact absurd h List.not_mem_nil
  | cons ch text ih =>
    rw [List.length_cons]
    rw [afterCommas] at h
    split at h
    · rcases List.mem_cons.mp h with rfl | hmem
      · exact Nat.lt_succ_self _
      · exact Nat.lt_succ_of_lt (ih hmem)
    · exact Nat.lt_succ_of_lt (ih h)

theorem length_le_of_mem_invalidTexts {text : List Byte} (h : rest ∈ invalidTexts text) :
    rest.length ≤ text.length := by
  rcases List.mem_cons.mp (List.mem_filter.mp h).1 with rfl | hmem
  · exact le_rfl
  · exact Nat.le_of_lt (length_lt_of_mem_afterCommas hmem)

theorem firstItem_eq (hitem : chr ',' ∉ item) : firstItem item = item := by
  apply List.takeWhile_eq_self_iff.mpr
  intro ch hch
  rw [decide_eq_true_eq]
  rintro rfl
  exact hitem hch

theorem firstItem_append (hitem : chr ',' ∉ item) :
    firstItem (item ++ chr ',' :: rest) = item := by
  have hself : item.takeWhile (· ≠ chr ',') = item := firstItem_eq hitem
  rw [firstItem, List.takeWhile_append, hself, if_pos rfl, List.takeWhile_cons_of_neg (by simp),
    List.append_nil]

theorem paramItems_eq (hitem : chr ',' ∉ item) : paramItems item = [item] :=
  List.splitOn_eq_singleton hitem

theorem paramItems_append (hitem : chr ',' ∉ item) :
    paramItems (item ++ chr ',' :: rest) = item :: paramItems rest :=
  List.splitOn_append_cons_self_of_not_mem hitem rest

theorem paramItems_ne_nil (text : List Byte) : paramItems text ≠ [] :=
  List.splitOn_ne_nil _ _

theorem itemTexts_append (hitem : chr ',' ∉ item) :
    itemTexts (item ++ chr ',' :: rest) = (item ++ chr ',' :: rest) :: itemTexts rest := by
  rw [itemTexts, afterCommas_append hitem, afterCommas, if_pos rfl, itemTexts]

theorem invalidTexts_append (hitem : chr ',' ∉ item) :
    invalidTexts (item ++ chr ',' :: rest)
      = (if InvalidItem item then [item ++ chr ',' :: rest] else []) ++ invalidTexts rest := by
  rw [invalidTexts, itemTexts_append hitem, List.filter_cons, firstItem_append hitem, invalidTexts]
  by_cases h : InvalidItem item
  · rw [if_pos h, if_pos (decide_eq_true h), List.singleton_append]
  · rw [if_neg h, if_neg (by simpa using h), List.nil_append]

theorem invalidTexts_eq (hitem : chr ',' ∉ item) :
    invalidTexts item = if InvalidItem item then [item] else [] := by
  have htexts : itemTexts item = [item] := by
    have hnone : afterCommas (item ++ []) = afterCommas [] := afterCommas_append hitem
    rw [List.append_nil] at hnone
    rw [itemTexts, hnone, afterCommas]
  rw [invalidTexts, htexts, List.filter_cons, firstItem_eq hitem, List.filter_nil]
  by_cases h : InvalidItem item
  · rw [if_pos h, if_pos (decide_eq_true h)]
  · rw [if_neg h, if_neg (by simpa using h)]

theorem plainItems_cons {items : List (List Byte)} (hitems : items ≠ []) :
    PlainItems (item :: items) ↔ item ≠ [] ∧ WholeItem item ∧ PlainItems items := by
  refine ⟨?_, ?_⟩
  · rintro ⟨hne, hwhole⟩
    rw [List.dropLast_cons_of_ne_nil hitems] at hne
    have hitem := hne item List.mem_cons_self
    exact ⟨hitem, hwhole item List.mem_cons_self hitem,
      fun i hi => hne i (List.mem_cons_of_mem _ hi),
      fun i hi => hwhole i (List.mem_cons_of_mem _ hi)⟩
  · rintro ⟨hitem, hwhole, hne, hrest⟩
    refine ⟨?_, ?_⟩
    · rw [List.dropLast_cons_of_ne_nil hitems]
      exact List.forall_mem_cons.mpr ⟨hitem, hne⟩
    · exact List.forall_mem_cons.mpr ⟨fun _ => hwhole, hrest⟩

end Items

/-! ## Options -/

section Options

variable {idata idata' : InstanceOptions} {items : List (List Byte)} {item : List Byte}

theorem OptionsMeaning.nil : OptionsMeaning idata [] idata := ⟨rfl, rfl, rfl, rfl⟩

/-- What an item does to the options. -/
def SetsOption (item : List Byte) (idata idata' : InstanceOptions) : Prop :=
  (∃ keyword : ParamKeyword, item = keyword.text ∧ idata' = keyword.set idata) ∨
    (∀ keyword : ParamKeyword, item ≠ keyword.text) ∧ idata' = idata

namespace SetsOption

/-- An option that one keyword sets to 1. -/
theorem flag (h : SetsOption item idata idata') (option : InstanceOptions → Int)
    (flag : ParamKeyword) (hset : ∀ keyword : ParamKeyword, option (keyword.set idata)
      = if keyword = flag then 1 else option idata) :
    option idata' = if item = flag.text then 1 else option idata := by
  rcases h with ⟨keyword, rfl, rfl⟩ | ⟨hnone, rfl⟩
  · rw [hset]
    exact if_congr ParamKeyword.text_inj.symm rfl rfl
  · exact (if_neg (hnone flag)).symm

theorem sgl (h : SetsOption item idata idata') :
    idata'.sgl = if item = ascii "sgl" then 1 else idata.sgl := by
  apply h.flag InstanceOptions.sgl .sgl
  intro keyword
  cases keyword <;> rfl

theorem wrru (h : SetsOption item idata idata') :
    idata'.wrru = if item = ascii "wrru" then 1 else idata.wrru := by
  apply h.flag InstanceOptions.wrru .wrru
  intro keyword
  cases keyword <;> rfl

theorem cmbSqs (h : SetsOption item idata idata') :
    idata'.cmbSqs = if item = ascii "cmb_sqs" then 1 else idata.cmbSqs := by
  apply h.flag InstanceOptions.cmbSqs .cmbSqs
  intro keyword
  cases keyword <;> rfl

theorem qprio (h : SetsOption item idata idata') :
    idata'.qprio = (itemQprio item).getD idata.qprio := by
  rcases h with ⟨keyword, rfl, rfl⟩ | ⟨hnone, rfl⟩
  · cases keyword <;> rfl
  · have hurgent : item ≠ ascii "qprio_urgent" := hnone .qprioUrgent
    have hhigh : item ≠ ascii "qprio_high" := hnone .qprioHigh
    have hmedium : item ≠ ascii "qprio_medium" := hnone .qprioMedium
    have hlow : item ≠ ascii "qprio_low" := hnone .qprioLow
    rw [itemQprio, if_neg hurgent, if_neg hhigh, if_neg hmedium, if_neg hlow, Option.getD_none]

end SetsOption

/-- An option that has been set stays so. -/
theorem ite_mem_cons (flag : List Byte) (old : Int) :
    (if flag ∈ items then 1 else if item = flag then 1 else old)
      = if flag ∈ item :: items then 1 else old := by
  by_cases hmem : flag ∈ items
  · rw [if_pos hmem, if_pos (List.mem_cons_of_mem _ hmem)]
  · rw [if_neg hmem]
    refine ite_congr (propext ?_) (fun _ => rfl) fun _ => rfl
    rw [List.mem_cons, or_iff_left hmem, eq_comm]

/-- **An item** before others. -/
theorem OptionsMeaning.cons {idata₀ : InstanceOptions} (hset : SetsOption item idata₀ idata)
    (h : OptionsMeaning idata items idata') : OptionsMeaning idata₀ (item :: items) idata' where
  sgl := by rw [h.sgl, hset.sgl, ite_mem_cons]
  wrru := by rw [h.wrru, hset.wrru, ite_mem_cons]
  cmbSqs := by rw [h.cmbSqs, hset.cmbSqs, ite_mem_cons]
  qprio := by
    rw [h.qprio, hset.qprio, List.filterMap_cons]
    cases itemQprio item with
    | none => rfl
    | some q => rw [List.getLast?_cons, Option.getD_some, Option.getD_some]

end Options

/-! ## The comparisons -/

/-- `strncmp` of as many characters as there are. -/
theorem strncmp_eq_zero_iff {a b : List Byte} {n : ℕ} (ha : 0 ∉ a) (hn : n ≤ a.length) :
    strncmp a b n = 0 ↔ a.take n <+: b := by
  induction n generalizing a b with
  | zero =>
    rw [List.take_zero]
    exact iff_of_true rfl List.nil_prefix
  | succ n ih =>
    cases a with
    | nil => exact absurd hn (Nat.not_succ_le_zero n)
    | cons x a =>
      rw [List.mem_cons, not_or] at ha
      have hx : x ≠ 0 := Ne.symm ha.1
      rw [strncmp, List.headD_cons, List.tail_cons, List.take_succ_cons]
      by_cases heq : x = b.headD 0
      · rw [if_neg (not_not.mpr heq), if_neg hx, ih ha.2 (Nat.le_of_succ_le_succ hn)]
        cases b with
        | nil => exact absurd heq hx
        | cons y b =>
          rw [List.headD_cons] at heq
          rw [List.tail_cons, heq, List.cons_prefix_cons, and_iff_right rfl]
      · rw [if_pos heq]
        refine iff_of_false ?_ ?_
        · intro hsub
          apply heq
          apply BitVec.eq_of_toNat_eq
          omega
        · intro hbegin
          cases b with
          | nil => exact absurd (List.prefix_nil.mp hbegin) (List.cons_ne_nil _ _)
          | cons y b => exact heq (List.cons_prefix_cons.mp hbegin).1

section Loop

variable {item rest : List Byte} {s : ParamState}

/-- The item sets an option or is reported. -/
theorem compareItem_cases (s : ParamState) (hnul : 0 ∉ item ++ rest) :
    (∃ keyword : ParamKeyword, item <+: keyword.text ∧
      compareItem s (item ++ rest) item.length = { s with idata := keyword.set s.idata }) ∨
    (∀ keyword : ParamKeyword, ¬ item <+: keyword.text) ∧
      compareItem s (item ++ rest) item.length
        = { s with reports := s.reports ++ [item ++ rest] } := by
  have hcmp : ∀ keyword : ParamKeyword,
      strncmp (item ++ rest) keyword.text item.length = 0 ↔ item <+: keyword.text := by
    intro keyword
    rw [strncmp_eq_zero_iff hnul (by rw [List.length_append]; omega), List.take_left']
    rfl
  rw [compareItem]
  cases hfind : ParamKeyword.all.find? fun keyword =>
      strncmp (item ++ rest) keyword.text item.length = 0 with
  | some keyword =>
    have hzero := List.find?_some hfind
    exact .inl ⟨keyword, (hcmp keyword).mp (of_decide_eq_true hzero), rfl⟩
  | none =>
    refine .inr ⟨?_, rfl⟩
    intro keyword hbegin
    have hno := List.find?_eq_none.mp hfind keyword keyword.mem_all
    exact hno (decide_eq_true ((hcmp keyword).mpr hbegin))

/-- **The comparisons** are right for an item that is whole, and miss one that is not. -/
theorem compareItem_spec (s : ParamState) (rest : List Byte) (hitem : item ≠ [])
    (hnul : 0 ∉ item ++ rest) :
    ∃ more, (compareItem s (item ++ rest) item.length).reports = s.reports ++ more ∧
      (∀ text ∈ more, text = item ++ rest) ∧
      (WholeItem item → more = (if InvalidItem item then [item ++ rest] else []) ∧
        SetsOption item s.idata (compareItem s (item ++ rest) item.length).idata) ∧
      (¬ WholeItem item → more = [] ∧ InvalidItem item) := by
  rcases compareItem_cases s hnul with ⟨keyword, hbegin, heq⟩ | ⟨hnone, heq⟩
  · rw [heq]
    refine ⟨[], (List.append_nil _).symm, fun _ h => absurd h List.not_mem_nil, ?_, ?_⟩
    · intro hwhole
      have hkeyword := hwhole keyword hbegin
      refine ⟨(if_neg ?_).symm, .inl ⟨keyword, hkeyword, rfl⟩⟩
      exact fun h => h.2 keyword keyword.mem_all hkeyword
    · intro hpart
      refine ⟨rfl, hitem, ?_⟩
      rintro keyword' - rfl
      exact hpart (wholeItem_text keyword')
  · rw [heq]
    have hne : ∀ keyword : ParamKeyword, item ≠ keyword.text := by
      rintro keyword rfl
      exact hnone keyword List.prefix_rfl
    have hinvalid : InvalidItem item := ⟨hitem, fun keyword _ => hne keyword⟩
    refine ⟨[item ++ rest], rfl, fun _ h => List.mem_singleton.mp h, ?_, ?_⟩
    · exact fun _ => ⟨(if_pos hinvalid).symm, .inr ⟨hne, rfl⟩⟩
    · intro hpart
      exact absurd (fun keyword hbegin => absurd hbegin (hnone keyword)) hpart

/-- The characters of an item are counted. -/
theorem parseParamLoop_append (s : ParamState) (str : List Byte) (len : ℕ)
    (hitem : chr ',' ∉ item) :
    parseParamLoop s str len (item ++ rest) = parseParamLoop s str (len + item.length) rest := by
  induction item generalizing len with
  | nil => rfl
  | cons ch item ih =>
    rw [List.mem_cons, not_or] at hitem
    rw [List.cons_append, parseParamLoop, if_neg fun h => hitem.1 h.1.symm, ih _ hitem.2,
      List.length_cons]
    congr 1
    omega

/-- An item with a comma behind it. -/
theorem parseParamLoop_comma (s : ParamState) (hitem : chr ',' ∉ item) (hne : item ≠ []) :
    parseParamLoop s (item ++ chr ',' :: rest) 0 (item ++ chr ',' :: rest)
      = parseParamLoop (compareItem s (item ++ chr ',' :: rest) item.length) rest 0 rest := by
  have hlen : item.length ≠ 0 := fun h => hne (List.eq_nil_of_length_eq_zero h)
  rw [parseParamLoop_append s _ 0 hitem, Nat.zero_add, parseParamLoop, if_pos ⟨rfl, hlen⟩]

/-- The last item. -/
theorem parseParamLoop_last (s : ParamState) (hitem : chr ',' ∉ item) (hne : item ≠ []) :
    parseParamLoop s item 0 item = compareItem s item item.length := by
  have hlen : item.length ≠ 0 := fun h => hne (List.eq_nil_of_length_eq_zero h)
  have happ : parseParamLoop s item 0 (item ++ []) = parseParamLoop s item (0 + item.length) [] :=
    parseParamLoop_append s item 0 hitem
  rw [List.append_nil, Nat.zero_add] at happ
  rw [happ, parseParamLoop, if_pos hlen]

/-- **A comma without an item** before it is taken for the begin of the next, which is then no
keyword. -/
theorem parseParamLoop_empty (s : ParamState) (hnul : 0 ∉ chr ',' :: rest) :
    ∃ rest', rest'.length ≤ rest.length ∧ 0 ∉ rest' ∧
      parseParamLoop s (chr ',' :: rest) 0 (chr ',' :: rest)
        = parseParamLoop { s with reports := s.reports ++ [chr ',' :: rest] } rest' 0 rest' := by
  have hreport : ∀ item rest' : List Byte, 0 ∉ chr ',' :: item ++ rest' →
      compareItem s (chr ',' :: item ++ rest') (chr ',' :: item).length
        = { s with reports := s.reports ++ [chr ',' :: item ++ rest'] } := by
    intro item rest' hnul
    rcases compareItem_cases s hnul with ⟨keyword, hbegin, -⟩ | ⟨-, heq⟩
    · exact absurd (hbegin.subset List.mem_cons_self) keyword.comma_not_mem_text
    · exact heq
  rw [parseParamLoop, if_neg fun h => h.2 rfl]
  by_cases hcomma : chr ',' ∈ rest
  · obtain ⟨item, rest', rfl, hitem⟩ := List.eq_append_cons_of_mem hcomma
    refine ⟨rest', ?_, ?_, ?_⟩
    · rw [List.length_append, List.length_cons]
      omega
    · intro hmem
      exact hnul (List.mem_cons_of_mem _ (List.mem_append_right _ (List.mem_cons_of_mem _ hmem)))
    · rw [parseParamLoop_append s _ _ hitem, parseParamLoop,
        if_pos ⟨rfl, by rw [Nat.zero_add, Nat.add_comm]; exact Nat.succ_ne_zero _⟩]
      have hlen : 0 + 1 + item.length = (chr ',' :: item).length := by
        rw [List.length_cons]
        omega
      have hrep := hreport item (chr ',' :: rest') hnul
      rw [List.cons_append] at hrep
      rw [hlen, hrep]
  · refine ⟨[], Nat.zero_le _, List.not_mem_nil, ?_⟩
    have happ : parseParamLoop s (chr ',' :: rest) (0 + 1) (rest ++ [])
        = parseParamLoop s (chr ',' :: rest) (0 + 1 + rest.length) [] :=
      parseParamLoop_append s _ _ hcomma
    rw [List.append_nil] at happ
    have hlen : 0 + 1 + rest.length = (chr ',' :: rest).length := by
      rw [List.length_cons]
      omega
    have hrep := hreport rest [] (by rwa [List.append_nil])
    rw [List.append_nil] at hrep
    rw [happ, hlen, parseParamLoop, if_pos (by rw [List.length_cons]; exact Nat.succ_ne_zero _),
      hrep]
    rfl

end Loop

/-! ## The text -/

/-- What the loop does with a text, from an item on: its messages are the right ones exactly if the
items are plain, and so are the options if they are. -/
def LoopReads (text : List Byte) : Prop :=
  ∀ s : ParamState, ∃ more, (parseParamLoop s text 0 text).reports = s.reports ++ more ∧
    (∀ t ∈ more, t.length ≤ text.length) ∧
    (more = invalidTexts text ↔ PlainItems (paramItems text)) ∧
    (PlainItems (paramItems text) →
      OptionsMeaning s.idata (paramItems text) (parseParamLoop s text 0 text).idata)

namespace LoopReads

variable {item rest : List Byte}

protected theorem nil : LoopReads [] := by
  intro s
  have hplain : PlainItems (paramItems []) := by
    refine ⟨fun _ h => absurd h List.not_mem_nil, ?_⟩
    intro item hitem hne
    exact absurd (List.mem_singleton.mp hitem) hne
  refine ⟨[], (List.append_nil _).symm, fun _ h => absurd h List.not_mem_nil,
    iff_of_true ?_ hplain, ?_⟩
  · rw [invalidTexts_eq List.not_mem_nil, if_neg fun h : InvalidItem [] => h.1 rfl]
  · intro _
    exact OptionsMeaning.nil.cons (.inr ⟨fun _ h => ParamKeyword.text_ne_nil h.symm, rfl⟩)

/-- The last item. -/
protected theorem last (hitem : chr ',' ∉ item) (hne : item ≠ []) (hnul : 0 ∉ item) :
    LoopReads item := by
  intro s
  have hplain : PlainItems [item] ↔ WholeItem item := by
    refine ⟨fun h => h.whole item List.mem_cons_self hne, fun h => ⟨fun _ hmem => ?_, ?_⟩⟩
    · exact absurd hmem List.not_mem_nil
    · exact List.forall_mem_singleton.mpr fun _ => h
  have hspec := compareItem_spec s [] hne (by rwa [List.append_nil])
  rw [List.append_nil] at hspec
  obtain ⟨more, hmore, htext, hwhole, hpart⟩ := hspec
  rw [paramItems_eq hitem, invalidTexts_eq hitem, parseParamLoop_last s hitem hne, hplain]
  refine ⟨more, hmore, ?_, ?_, ?_⟩
  · intro t ht
    exact le_of_eq (congrArg List.length (htext t ht))
  · by_cases h : WholeItem item
    · exact iff_of_true (hwhole h).1 h
    · rw [(hpart h).1, if_pos (hpart h).2]
      exact iff_of_false (List.cons_ne_nil _ _).symm h
  · intro h
    exact OptionsMeaning.nil.cons (hwhole h).2

/-- An item before a comma. -/
protected theorem item (hitem : chr ',' ∉ item) (hne : item ≠ [])
    (hnul : 0 ∉ item ++ chr ',' :: rest) (hrest : LoopReads rest) :
    LoopReads (item ++ chr ',' :: rest) := by
  intro s
  obtain ⟨first, hfirst, htext, hwhole, hpart⟩ := compareItem_spec s _ hne hnul
  obtain ⟨more, hmore, hlength, hiff, hoptions⟩ :=
    hrest (compareItem s (item ++ chr ',' :: rest) item.length)
  have hlong : (item ++ chr ',' :: rest).length = item.length + rest.length + 1 := by
    rw [List.length_append, List.length_cons]
    omega
  rw [paramItems_append hitem, invalidTexts_append hitem, parseParamLoop_comma s hitem hne,
    plainItems_cons (paramItems_ne_nil rest)]
  refine ⟨first ++ more, ?_, ?_, ?_, ?_⟩
  · rw [hmore, hfirst, List.append_assoc]
  · intro t ht
    rcases List.mem_append.mp ht with hmem | hmem
    · exact le_of_eq (congrArg List.length (htext t hmem))
    · have := hlength t hmem
      omega
  · by_cases h : WholeItem item
    · rw [(hwhole h).1, List.append_cancel_left_eq, hiff]
      exact ⟨fun hplain => ⟨hne, h, hplain⟩, fun hand => hand.2.2⟩
    · -- the item that is not reported is longer than all that is reported behind it
      rw [(hpart h).1, if_pos (hpart h).2, List.nil_append]
      refine iff_of_false ?_ fun hand => h hand.2.1
      intro heq
      have := hlength (item ++ chr ',' :: rest) (heq ▸ List.mem_cons_self)
      omega
  · rintro ⟨-, h, hplain⟩
    exact (hoptions hplain).cons (hwhole h).2

/-- A comma without an item: the loop reports from the comma on, and there is no item there. -/
protected theorem empty (hnul : 0 ∉ chr ',' :: rest)
    (hrest : ∀ rest' : List Byte, rest'.length ≤ rest.length → 0 ∉ rest' → LoopReads rest') :
    LoopReads (chr ',' :: rest) := by
  intro s
  obtain ⟨rest', hle, hnul', heq⟩ := parseParamLoop_empty s hnul
  obtain ⟨more, hmore, hlength, -, -⟩ :=
    hrest rest' hle hnul' { s with reports := s.reports ++ [chr ',' :: rest] }
  have hplain : ¬ PlainItems (paramItems (chr ',' :: rest)) := by
    intro h
    exact ((plainItems_cons (paramItems_ne_nil rest)).mp h).1 rfl
  have htexts : invalidTexts (chr ',' :: rest) = invalidTexts rest := by
    have happ : invalidTexts ([] ++ chr ',' :: rest) = _ := invalidTexts_append List.not_mem_nil
    rwa [if_neg fun h : InvalidItem [] => h.1 rfl] at happ
  rw [heq, hmore, htexts]
  refine ⟨(chr ',' :: rest) :: more, ?_, ?_, iff_of_false ?_ hplain, fun h => absurd h hplain⟩
  · rw [List.append_assoc, List.singleton_append]
  · intro t ht
    rcases List.mem_cons.mp ht with rfl | hmem
    · exact le_rfl
    · have := hlength t hmem
      rw [List.length_cons]
      omega
  · intro hsame
    have hle := length_le_of_mem_invalidTexts (hsame ▸ List.mem_cons_self)
    rw [List.length_cons] at hle
    omega

end LoopReads

/-- **The loop** on any text. What it goes on with is shorter. -/
theorem loopReads (text : List Byte) (hnul : 0 ∉ text) : LoopReads text := by
  induction hlen : text.length using Nat.strong_induction_on generalizing text with
  | _ n ih =>
    by_cases hcomma : chr ',' ∈ text
    · obtain ⟨item, rest, rfl, hitem⟩ := List.eq_append_cons_of_mem hcomma
      rw [List.length_append, List.length_cons] at hlen
      by_cases hne : item = []
      · subst hne
        refine .empty hnul ?_
        intro rest' hle hnul'
        exact ih rest'.length (by omega) rest' hnul' rfl
      · have hrest : 0 ∉ rest := fun h =>
          hnul (List.mem_append_right _ (List.mem_cons_of_mem _ h))
        exact .item hitem hne hnul (ih rest.length (by omega) rest hrest rfl)
    · by_cases hne : text = []
      · subst hne
        exact .nil
      · exact .last hcomma hne hnul

/-- **The options of the engine** are what the text means exactly if only the last item is empty
and no item is a part of a keyword. -/
theorem spdkioParseParam_meaning_iff (idata : InstanceOptions) (param : CString) :
    ParamMeaning idata param.text (spdkioParseParam idata param) ↔
      (∀ item ∈ (paramItems param.text).dropLast, item ≠ []) ∧
        ∀ item ∈ paramItems param.text, item ≠ [] →
          ∀ keyword : ParamKeyword, item <+: keyword.text → item = keyword.text := by
  obtain ⟨more, hmore, -, hiff, hoptions⟩ := loopReads param.text param.terminated ⟨idata, []⟩
  rw [List.nil_append] at hmore
  refine ⟨?_, ?_⟩
  · rintro ⟨-, hreports⟩
    rw [spdkioParseParam, hmore] at hreports
    have hplain := hiff.mp hreports
    exact ⟨hplain.nonempty, hplain.whole⟩
  · rintro ⟨hne, hwhole⟩
    have hplain : PlainItems (paramItems param.text) := ⟨hne, hwhole⟩
    exact ⟨hoptions hplain, hmore.trans (hiff.mpr hplain)⟩

/-- `s` is none of the options, and sets one. -/
theorem spdkioParseParam_initial :
    ¬ ∀ (idata : InstanceOptions) (param : CString),
      ParamMeaning idata param.text (spdkioParseParam idata param) := by
  intro h
  have hsgl := (h ⟨0, 0, 0, 0⟩ ⟨ascii "s", by decide⟩).options.sgl
  exact absurd hsgl (by decide)

end ChamberSpo

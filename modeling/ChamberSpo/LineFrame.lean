import ChamberSpo.LineGrammar
import ChamberSpo.ParamBytes

/-!
# What a line changes

A line of a parameter file names fields of the parameters: a section the name of a new job, and a
property those of its key.

* `LineKept` — the handler of a line changes the bytes of these fields only, the text that it
  stores is the value of the line, and the environment is as it was.
* `LineFits` — the text is shorter than its field, and a property has no letter of the environment
  to make capital.
* `lineKept_iff` — the first is so exactly for the lines with the second.
-/

namespace ChamberSpo

/-! ## Letters -/

/-- A letter that `toupper` changes. -/
def IsSmall (ch : Byte) : Prop := chr 'a' ≤ ch ∧ ch ≤ chr 'z'

instance isSmallDecidable (ch : Byte) : Decidable (IsSmall ch) :=
  inferInstanceAs (Decidable (chr 'a' ≤ ch ∧ ch ≤ chr 'z'))

theorem toupper_eq_self_iff : ∀ ch : Byte, toupper ch = ch ↔ ¬ IsSmall ch := by decide

/-- Whether a text ends in the name of an operation. -/
def inName : Bool → List Byte → Bool
  | inName, [] => inName
  | inName, ch :: rest =>
    ChamberSpo.inName (if ch = chr ',' then true else if ch = chr ':' then false else inName) rest

namespace Strupr

/-- The character behind a text is made capital. -/
def Applies : Strupr → List Byte → Prop
  | .none, _ => False
  | .whole, _ => True
  | .names, before => inName true before = true

/-- No letter of a value would be made capital. -/
def Capital (strupr : Strupr) (value : List Byte) : Prop :=
  ∀ before ch after, value = before ++ ch :: after → strupr.Applies before → ¬ IsSmall ch

end Strupr

theorem forall_split_cons {α : Type} {x : α} {xs : List α} {P : List α → α → Prop} :
    (∀ before y after, x :: xs = before ++ y :: after → P before y) ↔
      P [] x ∧ ∀ before y after, xs = before ++ y :: after → P (x :: before) y := by
  refine ⟨fun h => ⟨h [] x xs rfl, ?_⟩, ?_⟩
  · intro before y after heq
    exact h (x :: before) y after (congrArg (x :: ·) heq)
  · rintro ⟨hfirst, hrest⟩ before y after heq
    cases before with
    | nil =>
      obtain ⟨rfl, -⟩ := List.cons.inj heq
      exact hfirst
    | cons z before =>
      obtain ⟨rfl, hxs⟩ := List.cons.inj heq
      exact hrest before y after hxs

theorem struprNames_eq_self_iff (b : Bool) (value : List Byte) :
    struprNames b value = value ↔
      ∀ before ch after, value = before ++ ch :: after → inName b before = true → ¬ IsSmall ch := by
  induction value generalizing b with
  | nil => exact iff_of_true rfl fun before ch after heq => by simp at heq
  | cons c rest ih =>
    have hfirst : (if b then toupper c else c) = c ↔ (inName b [] = true → ¬ IsSmall c) := by
      cases b with
      | false => exact iff_of_true rfl nofun
      | true => exact (toupper_eq_self_iff c).trans ⟨fun h _ => h, fun h => h rfl⟩
    rw [struprNames, List.cons.injEq, ih, hfirst]
    exact (forall_split_cons (P := fun before ch => inName b before = true → ¬ IsSmall ch)).symm

/-- **A value stays as it is if no letter would be made capital.** -/
theorem Strupr.left_eq_self_iff (strupr : Strupr) (value : List Byte) :
    strupr.left value = value ↔ strupr.Capital value := by
  cases strupr with
  | none => exact iff_of_true rfl fun _ _ _ _ => False.elim
  | whole =>
    have hmap : tokenStrupr value = value ↔ ∀ ch ∈ value, ¬ IsSmall ch := by
      have hid := List.map_inj_left (l := value) (f := toupper) (g := id)
      rw [List.map_id] at hid
      exact hid.trans (forall₂_congr fun ch _ => toupper_eq_self_iff ch)
    refine hmap.trans ⟨?_, ?_⟩
    · rintro h before ch after rfl -
      exact h ch (List.mem_append_right _ List.mem_cons_self)
    · intro h ch hch
      obtain ⟨before, after, rfl⟩ := List.append_of_mem hch
      exact h before ch after rfl trivial
  | names => exact struprNames_eq_self_iff true value

/-! ## Properties -/

namespace FieldProperty

/-- The fields of the job that a property names. -/
def jobFields : FieldProperty → List JobField
  | .text field => [field]
  | .value fields _ _ => fields
  | .sharedText _ | .sharedChars _ | .sharedNumber _ => []

/-- The fields that it names of what the jobs share. -/
def sharedFields : FieldProperty → List SharedField
  | .text _ | .value _ _ _ => []
  | .sharedText field | .sharedChars field | .sharedNumber field => [field]

/-- The letters that it makes capital. -/
def strupr : FieldProperty → Strupr
  | .value _ strupr _ => strupr
  | .text _ | .sharedText _ | .sharedChars _ | .sharedNumber _ => .none

/-- The text that it stores is the value. -/
def Stored (property : FieldProperty) (value : List Byte) (s : ParamBytes) : Prop :=
  match property with
  | .text field => jobLayout.textAt s.job field = some value
  | .sharedText field | .sharedChars field => sharedLayout.textAt s.shared field = some value
  | .value .. | .sharedNumber _ => True

/-- The text is shorter than the field. Where no terminator is written, there is one. -/
def Fits (property : FieldProperty) (value : List Byte) (s : ParamBytes) : Prop :=
  match property with
  | .text field => value.length < jobLayout.size field
  | .sharedText field => value.length < sharedLayout.size field
  | .sharedChars field => value.length < sharedLayout.size field ∧
      s.shared (sharedLayout.offset field + value.length) = 0
  | .value .. | .sharedNumber _ => True

/-- The assignments of a property are to the fields that it names. -/
def Named (property : FieldProperty) : Prop :=
  match property with
  | .value fields _ stores =>
    ∀ job x list, stores job x = .ok list → ∀ store ∈ list, store.field ∈ fields
  | .text _ | .sharedText _ | .sharedChars _ | .sharedNumber _ => True

theorem left_eq (property : FieldProperty) (value : List Byte) :
    property.left value = property.strupr.left value := by
  cases property <;> rfl

theorem named_converted {α : Type} {fields : List JobField} {strupr : Strupr}
    {parse : List Byte → Except HandlerError α} {stores : α → List (FieldStore JobField)}
    (h : ∀ x, (stores x).map (·.field) ⊆ fields) :
    (converted fields strupr parse stores).Named := by
  intro job x list hlist store hstore
  obtain ⟨value, -, hpure⟩ := bind_eq_ok.mp hlist
  obtain rfl := pure_eq_ok.mp hpure
  exact h value (List.mem_map_of_mem hstore)

theorem named_slba (fmt : FloatFormat) : (slba fmt).Named := by
  apply named_converted
  intro value
  cases value with
  | type slbaType => exact List.subset_append_left [JobField.slbaType] [.slba]
  | param slbaType param => exact List.Subset.refl [JobField.slbaType, .slba]
  | unknown => exact List.nil_subset _

theorem rangeValue_stores_subset (percentField bytesField : JobField) (value : RangeValue) :
    (value.stores percentField bytesField).map (·.field) ⊆ [percentField, bytesField] := by
  cases value with
  | percent x => exact List.subset_append_left [percentField] [bytesField]
  | bytes x => exact List.Subset.refl [percentField, bytesField]

theorem named_lbaRange : lbaRange.Named := by
  apply named_converted
  intro range
  rw [List.map_append]
  apply List.append_subset.mpr
  refine ⟨?_, ?_⟩
  · exact List.subset_append_of_subset_left _ (rangeValue_stores_subset _ _ range.1)
  · exact List.subset_append_of_subset_right [_, _] (rangeValue_stores_subset _ _ range.2)

theorem named_amount : amount.Named := by
  apply named_converted
  intro value
  cases value with
  | infinite => exact List.subset_append_left [JobField.amountType] _
  | percent x => exact List.subset_append_left [JobField.amountType, .amountBytesPercent] _
  | _ => exact List.cons_subset_cons JobField.amountType (List.subset_cons_self _ [JobField.amount])

theorem named_unwrRead : unwrRead.Named := by
  apply named_converted
  intro result
  cases result with
  | value ones => exact List.Subset.refl [JobField.unwrReadResultType, .unwrReadValueType]
  | _ => exact List.subset_append_left [JobField.unwrReadResultType] _

theorem named_deallocRead : deallocRead.Named := by
  apply named_converted
  intro result
  cases result with
  | value ones => exact List.Subset.refl [JobField.deallocReadResultType, .deallocReadValueType]
  | _ => exact List.subset_append_left [JobField.deallocReadResultType] _

theorem named_journalShm : journalShm.Named := by
  intro job x list hlist store hstore
  obtain ⟨-, hrest⟩ := ite_error_eq_ok.mp hlist
  obtain ⟨value, -, hpure⟩ := bind_eq_ok.mp hrest
  obtain rfl := pure_eq_ok.mp hpure
  exact List.mem_map_of_mem (f := FieldStore.field) hstore

/-- **The assignments of every property are to the fields that it names.** -/
theorem named_of_mem (fmt : FloatFormat) : ∀ entry ∈ fieldProperties fmt, entry.2.Named := by
  simp only [fieldProperties, conversions, List.map_cons, List.map_nil, Prod.map, id_eq,
    Conversion.fieldProperty, List.forall_mem_cons]
  and_intros
  all_goals
    first
    | with_reducible exact named_journalShm
    | with_reducible exact named_slba fmt
    | with_reducible exact named_lbaRange
    | with_reducible exact named_amount
    | with_reducible exact named_unwrRead
    | with_reducible exact named_deallocRead
    | exact List.forall_mem_nil _
    | exact trivial
    | exact named_converted fun _ => List.Subset.refl _

theorem named_of_fieldPropertyOf {fmt : FloatFormat} {key : List Byte} {property : FieldProperty}
    (h : fieldPropertyOf fmt key = some property) : property.Named := by
  obtain ⟨entry, hfind, rfl⟩ := Option.map_eq_some_iff.mp h
  exact named_of_mem fmt entry (List.mem_of_find?_eq_some hfind)

/-- A property changes the bytes of its fields only, and stores the value. -/
structure Kept (property : FieldProperty) (value : List Byte) (s s' : ParamBytes) : Prop where
  job : jobLayout.Kept property.jobFields s.job s'.job
  numJobs : s'.jobs.length = s.jobs.length
  otherJobs : s'.jobs.dropLast = s.jobs.dropLast
  defaultJob : s.jobs ≠ [] → s'.defaultJob = s.defaultJob
  shared : sharedLayout.Kept property.sharedFields s.shared s'.shared
  stored : property.Stored value s'

end FieldProperty

theorem size_jobLayout_lt (field : JobField) : jobLayout.size field < 2 ^ 16 := by
  obtain ⟨p, hp, -, -, hsize⟩ := jobLayout.exists_mem_placed field
  have hall : ∀ p ∈ jobLayout.placed, p.size < 2 ^ 16 := by decide
  rw [← hsize]
  exact hall p hp

theorem size_sharedLayout_lt (field : SharedField) : sharedLayout.size field < 2 ^ 16 := by
  obtain ⟨p, hp, -, -, hsize⟩ := sharedLayout.exists_mem_placed field
  have hall : ∀ p ∈ sharedLayout.placed, p.size < 2 ^ 16 := by decide
  rw [← hsize]
  exact hall p hp

theorem tokenPart_eq_self {text : List Byte} (h : text.length < 2 ^ 16) :
    tokenPart text = text := by
  rw [tokenPart, Nat.mod_eq_of_lt h]
  exact List.take_length

section Part

variable {α : Type} [DecidableEq α] {l : StructLayout α} {field : α} {text : List Byte}

theorem StructLayout.length_lt_of_textAt {m : Buf} (htext : 0 ∉ text)
    (h : l.textAt m field = some text) : text.length < l.size field :=
  ((cString_eq_some htext).mp h).1

/-- A text of which an array gets a part that may be shorter. -/
theorem kept_copyText_part_iff (hsize : l.size field < 2 ^ 16) (htext : 0 ∉ text) (m : Buf) :
    l.Kept [field] m (l.copyText m field (tokenPart text)) ∧
        l.textAt (l.copyText m field (tokenPart text)) field = some text ↔
      text.length < l.size field := by
  by_cases hshort : text.length < 2 ^ 16
  · rw [tokenPart_eq_self hshort]
    exact l.kept_copyText_iff htext m field
  · refine iff_of_false ?_ (by omega)
    intro h
    have hlt := StructLayout.length_lt_of_textAt htext h.2
    omega

theorem kept_copyChars_part_iff (hsize : l.size field < 2 ^ 16) (htext : 0 ∉ text) (m : Buf) :
    l.Kept [field] m (l.copyChars m field (tokenPart text)) ∧
        l.textAt (l.copyChars m field (tokenPart text)) field = some text ↔
      text.length < l.size field ∧ m (l.offset field + text.length) = 0 := by
  by_cases hshort : text.length < 2 ^ 16
  · rw [tokenPart_eq_self hshort]
    exact l.kept_copyChars_iff htext m field
  · refine iff_of_false ?_ (by omega)
    intro h
    have hlt := StructLayout.length_lt_of_textAt htext h.2
    omega

end Part

namespace FieldProperty

variable {property : FieldProperty} {s s' : ParamBytes} {x text : List Byte}

/-- What is left of `Kept` for a property of the job. -/
theorem kept_setJob {fields : List JobField} {job : Buf} (hfields : property.jobFields = fields)
    (hshared : property.sharedFields = []) :
    property.Kept text s (s.setJob job) ↔
      jobLayout.Kept fields s.job job ∧ property.Stored text (s.setJob job) := by
  refine ⟨fun h => ⟨?_, h.stored⟩, fun h => ⟨?_, ?_, ?_, ?_, ?_, h.2⟩⟩
  · have hjob := h.job
    rwa [ParamBytes.job_setJob, hfields] at hjob
  · rw [ParamBytes.job_setJob, hfields]
    exact h.1
  · exact s.length_jobs_setJob job
  · exact s.dropLast_jobs_setJob job
  · exact s.defaultJob_setJob job
  · rw [ParamBytes.shared_setJob, hshared]
    exact StructLayout.Kept.refl _ _ _

/-- What is left of it for a property that the jobs share. -/
theorem kept_shared {fields : List SharedField} {shared : Buf}
    (hshared : property.sharedFields = fields) :
    property.Kept text s { s with shared := shared } ↔
      sharedLayout.Kept fields s.shared shared ∧
        property.Stored text { s with shared := shared } := by
  refine ⟨fun h => ⟨hshared ▸ h.shared, h.stored⟩, ?_⟩
  intro h
  exact ⟨StructLayout.Kept.refl _ _ _, rfl, rfl, fun _ => rfl, hshared ▸ h.1, h.2⟩

/-- Only the fields count for it. -/
theorem kept_env_iff (env : List Byte → Option (List Byte)) :
    property.Kept text s { s' with env := env } ↔ property.Kept text s s' := by
  have hstored : property.Stored text { s' with env := env } ↔ property.Stored text s' := by
    cases property <;> exact Iff.rfl
  refine ⟨?_, ?_⟩
  · intro h
    exact ⟨h.job, h.numJobs, h.otherJobs, h.defaultJob, h.shared, hstored.mp h.stored⟩
  · intro h
    exact ⟨h.job, h.numJobs, h.otherJobs, h.defaultJob, h.shared, hstored.mpr h.stored⟩

/-- **A property keeps the frame and stores its value if and only if the value fits.** -/
theorem kept_define_iff (hnamed : property.Named) (htext : 0 ∉ text)
    (h : property.define (tokenPart text) s = .ok s') :
    property.Kept text s s' ↔ property.Fits text s := by
  cases property with
  | text field =>
    obtain ⟨-, hok⟩ := ite_error_eq_ok.mp h
    obtain rfl := Except.ok.inj hok
    rw [kept_setJob rfl rfl, Stored, ParamBytes.job_setJob]
    exact kept_copyText_part_iff (size_jobLayout_lt field) htext s.job
  | value fields strupr stores =>
    obtain ⟨list, hlist, hpure⟩ := bind_eq_ok.mp h
    obtain rfl := pure_eq_ok.mp hpure
    have hkept := jobLayout.kept_foldl_assign (hnamed s.job _ list hlist) s.job
    exact iff_of_true ((kept_setJob rfl rfl).mpr ⟨hkept, trivial⟩) trivial
  | sharedText field =>
    obtain rfl := Except.ok.inj h
    rw [kept_shared rfl]
    exact kept_copyText_part_iff (size_sharedLayout_lt field) htext s.shared
  | sharedChars field =>
    obtain rfl := Except.ok.inj h
    rw [kept_shared rfl]
    exact kept_copyChars_part_iff (size_sharedLayout_lt field) htext s.shared
  | sharedNumber field =>
    obtain ⟨number, -, hpure⟩ := bind_eq_ok.mp h
    obtain rfl := pure_eq_ok.mp hpure
    have hkept := sharedLayout.kept_assign s.shared (.number field (number.setWidth 32))
    exact iff_of_true ((kept_shared rfl).mpr ⟨hkept, trivial⟩) trivial

/-- A property does not change the environment itself. -/
theorem env_define (h : property.define x s = .ok s') : s'.env = s.env := by
  cases property with
  | text field =>
    obtain ⟨-, hok⟩ := ite_error_eq_ok.mp h
    obtain rfl := Except.ok.inj hok
    exact s.env_setJob _
  | value fields strupr stores =>
    obtain ⟨list, -, hpure⟩ := bind_eq_ok.mp h
    obtain rfl := pure_eq_ok.mp hpure
    exact s.env_setJob _
  | sharedText field =>
    obtain rfl := Except.ok.inj h
    rfl
  | sharedChars field =>
    obtain rfl := Except.ok.inj h
    rfl
  | sharedNumber field =>
    obtain ⟨number, -, hpure⟩ := bind_eq_ok.mp h
    obtain rfl := pure_eq_ok.mp hpure
    rfl

end FieldProperty

/-! ## Lines -/

/-- **A line changes only its own fields.** The bytes of the others are as they were, a text that is
stored is that of the line, and what the environment says is the same as before. -/
def LineKept (fmt : FloatFormat) (fresh : Realloc) (s s' : ParamBytes) (call : HandlerCall) :
    Prop :=
  s'.env = s.env ∧
    match call with
    | .sectionDefined name =>
      s'.defaultJob = s.defaultJob ∧ (∃ job, s'.jobs = s.jobs ++ [job]) ∧
        jobLayout.Kept [.name] (s.newJob fresh) s'.job ∧
        jobLayout.textAt s'.job .name = some name ∧
        sharedLayout.Kept [.jobParams, .njobs] s.shared s'.shared
    | .propertyDefined key value =>
      ∀ property, fieldPropertyOf fmt key = some property → property.Kept value s s'
    | .envRefered key reference =>
      ∀ property, fieldPropertyOf fmt key = some property →
        ∀ text, s.env (envKey reference) = some text → property.Kept text s s'

/-- **A line fits.** The name of a section and a value that is stored are shorter than their
fields, with a terminator behind a value that gets none; and no letter of a variable would be made
capital. -/
def LineFits (fmt : FloatFormat) (s : ParamBytes) (call : HandlerCall) : Prop :=
  match call with
  | .sectionDefined name => name.length < jobLayout.size .name
  | .propertyDefined key value =>
    ∀ property, fieldPropertyOf fmt key = some property → property.Fits value s
  | .envRefered key reference =>
    ∀ property, fieldPropertyOf fmt key = some property →
      ∀ text, s.env (envKey reference) = some text →
        property.Fits text s ∧ property.strupr.Capital (tokenPart text)

/-- The texts of a call are as long as the parser lets them be, and without a zero byte. -/
def HandlerCall.Read : HandlerCall → Prop
  | .sectionDefined name => 0 ∉ name
  | .propertyDefined _ value => 0 ∉ value ∧ value.length < 2 ^ 16
  | .envRefered _ _ => True

theorem not_mem_of_word {start rest : Byte → Bool} {max : ℕ} {w : List Byte}
    (hstart : ∀ ch, start ch = true → isValue ch = true)
    (hrest : ∀ ch, rest ch = true → isValue ch = true) (h : Word start rest max w) : 0 ∉ w := by
  obtain ⟨c, w, rfl, hc, hw, -⟩ := h
  intro hzero
  have hvalue : isValue 0 = true := by
    rcases List.mem_cons.mp hzero with heq | hmem
    · exact hstart 0 (heq ▸ hc)
    · exact hrest 0 (hw 0 hmem)
  exact (isValue_plain 0 hvalue).2.2 rfl

/-- So it is for the calls of a line that is accepted. -/
theorem read_of_accepted {p q : Parser} {line : List Byte} (hzero : 0 ∉ line)
    (hline : parseLine p line = .ok q) : ∀ call ∈ q.calls, call.Read := by
  rcases parseLine_cases p hzero with
    ⟨σ, calls, q', hvalid, -, hfinal, hok, hcalls⟩ | ⟨e, herror, -⟩
  · obtain rfl := Except.ok.inj (hok.symm.trans hline)
    rw [hcalls]
    cases σ with
    | start a =>
      obtain rfl := Option.some.inj hfinal
      exact List.forall_mem_nil _
    | closer a b n c d =>
      obtain rfl := Option.some.inj hfinal
      have hname : ∀ ch, isName ch = true → isValue ch = true := fun _ => isValue_of_isName
      exact List.forall_mem_singleton.mpr (not_mem_of_word hname hname hvalid.2.2.1)
    | value a v d =>
      obtain rfl := Option.some.inj hfinal
      have hword := hvalid.2.1
      have hlen : v.length ≤ 127 := hword.choose_spec.choose_spec.2.2.2
      have hshort : v.length < 2 ^ 16 := by omega
      refine List.forall_mem_singleton.mpr ⟨?_, hshort⟩
      exact not_mem_of_word (fun _ => isValue_of_isValueStart) (fun _ => id) hword
    | envEnd a x y n z d =>
      obtain rfl := Option.some.inj hfinal
      exact List.forall_mem_singleton.mpr trivial
    | _ => cases hfinal
  · cases herror.symm.trans hline

/-- A section. -/
theorem sectionKept_iff {fmt : FloatFormat} {fresh : Realloc} {name : List Byte} (hname : 0 ∉ name)
    (s : ParamBytes) :
    LineKept fmt fresh s (s.onSectionDefined fresh name) (.sectionDefined name) ↔
      name.length < jobLayout.size .name := by
  have hjob : (s.onSectionDefined fresh name).job =
      jobLayout.copyText (s.newJob fresh) .name name := List.getLastD_concat
  have hcopied := jobLayout.kept_copyText_iff hname (s.newJob fresh) .name
  rw [← hjob] at hcopied
  rw [← hcopied]
  refine ⟨?_, ?_⟩
  · rintro ⟨-, -, -, hkept, htext, -⟩
    exact ⟨hkept, htext⟩
  · rintro ⟨hkept, htext⟩
    refine ⟨rfl, rfl, ⟨_, rfl⟩, hkept, htext, sharedLayout.kept_foldl_assign ?_ s.shared⟩
    intro store hstore
    exact List.mem_map_of_mem (f := FieldStore.field) hstore

/-- A property, from the value that its token has. -/
theorem propertyKept_iff {fmt : FloatFormat} {key text left : List Byte} {s s' : ParamBytes}
    (htext : 0 ∉ text)
    (h : s.onPropertyDefined fmt key (tokenPart text) = .ok (s', left)) :
    ∃ property, fieldPropertyOf fmt key = some property ∧ s'.env = s.env ∧
      left = property.strupr.left (tokenPart text) ∧
      (property.Kept text s s' ↔ property.Fits text s) := by
  rw [ParamBytes.onPropertyDefined] at h
  cases hproperty : fieldPropertyOf fmt key with
  | none =>
    rw [hproperty] at h
    cases h
  | some property =>
    rw [hproperty] at h
    obtain ⟨t, hdefine, hpure⟩ := bind_eq_ok.mp h
    obtain ⟨rfl, rfl⟩ := Prod.mk.inj (pure_eq_ok.mp hpure)
    have hnamed := FieldProperty.named_of_fieldPropertyOf hproperty
    exact ⟨property, rfl, FieldProperty.env_define hdefine, property.left_eq _,
      FieldProperty.kept_define_iff hnamed htext hdefine⟩

/-- **What an accepted line changes.** It changes only its own fields, stores its text and leaves
the environment as it is if and only if it fits. -/
theorem lineKept_iff {fmt : FloatFormat} {fresh : Realloc} {p q : Parser} {line : List Byte}
    (hzero : 0 ∉ line) (hline : parseLine p line = .ok q) {call : HandlerCall}
    (hcall : call ∈ q.calls) {s s' : ParamBytes}
    (henv : ∀ name text, s.env name = some text → 0 ∉ text)
    (h : s.handle fmt fresh call = .ok s') :
    LineKept fmt fresh s s' call ↔ LineFits fmt s call := by
  have hread := read_of_accepted hzero hline call hcall
  cases call with
  | sectionDefined name =>
    obtain rfl := Except.ok.inj h
    exact sectionKept_iff hread s
  | propertyDefined key value =>
    obtain ⟨hvalue, hshort⟩ := hread
    obtain ⟨⟨t, left⟩, hdefine, hpure⟩ := bind_eq_ok.mp h
    obtain rfl := pure_eq_ok.mp hpure
    rw [← tokenPart_eq_self hshort] at hdefine
    obtain ⟨property, hproperty, henv', -, hkept⟩ := propertyKept_iff hvalue hdefine
    simp only [LineKept, LineFits, hproperty, Option.some.injEq, forall_eq']
    rw [hkept]
    exact and_iff_right henv'
  | envRefered key reference =>
    rw [ParamBytes.handle] at h
    cases hvar : s.env (envKey reference) with
    | none =>
      rw [hvar] at h
      cases h
    | some text =>
      rw [hvar] at h
      obtain ⟨⟨t, left⟩, hdefine, hpure⟩ := bind_eq_ok.mp h
      obtain rfl := pure_eq_ok.mp hpure
      obtain ⟨property, hproperty, henv', hleft, hkept⟩ :=
        propertyKept_iff (henv _ _ hvar) hdefine
      -- the environment is the same if the letters that are in place of the value are
      have hsame : Function.update t.env (envKey reference)
          (some (left ++ text.drop (text.length % 2 ^ 16))) = s.env ↔
            property.strupr.Capital (tokenPart text) := by
        rw [henv', Function.update_eq_self_iff, hvar, Option.some.injEq, hleft,
          ← Strupr.left_eq_self_iff]
        have hsplit : tokenPart text ++ text.drop (text.length % 2 ^ 16) = text :=
          List.take_append_drop _ text
        refine ⟨?_, ?_⟩
        · intro heq
          exact List.append_cancel_right (heq.trans hsplit.symm)
        · intro heq
          rw [heq, hsplit]
      simp only [LineKept, LineFits, hproperty, hvar, Option.some.injEq, forall_eq']
      rw [hsame, FieldProperty.kept_env_iff, hkept]
      exact And.comm

/-! ## Two sections -/

/-- No parameters yet, in memory that is zero. -/
def ParamBytes.zero : ParamBytes where
  env _ := none
  shared _ := 0
  defaultJob _ := 0
  jobs := []

/-- Numbers that are all zero. -/
def FloatFormat.zero : FloatFormat where
  double _ := 0
  float _ := 0

/-- Memory that is zero. -/
def Realloc.zero : Realloc where
  jobParams := 0
  memory _ := 0

/-- The line of a section is accepted. -/
theorem exists_parseLine_section {name : List Byte} (h : Word isName isName 127 name) :
    ∃ q, parseLine .fresh (chr '[' :: name ++ [chr ']']) = .ok q ∧
      q.calls = [.sectionDefined name] := by
  have hvalid : (Shape.closer [] [] name [] []).Valid := ⟨.nil, .nil, h, .nil, .nil⟩
  have htext : (Shape.closer [] [] name [] []).text = chr '[' :: name ++ [chr ']'] := by
    simp [Shape.text]
  have hisName : ∀ ch, isName ch = true → isValue ch = true := fun _ => isValue_of_isName
  have hzero : 0 ∉ (Shape.closer [] [] name [] []).text := by
    rw [htext]
    intro hmem
    rcases List.mem_append.mp hmem with hmem | hmem
    · rcases List.mem_cons.mp hmem with heq | hmem
      · exact absurd heq (by decide)
      · exact not_mem_of_word hisName hisName h hmem
    · exact absurd hmem (by decide)
  rw [← htext]
  exact parseLine_of_final .fresh hvalid hzero rfl

/-- The parameters after `[job]`, where every byte of the default parameters is 0xFF. -/
def oneSection : ParamBytes :=
  { ParamBytes.zero with defaultJob := fun _ => 0xFF }.onSectionDefined .zero (ascii "job")

/-- A name of 63 characters, the longest that fits. -/
def fullName : List Byte := List.replicate 63 (chr 'a')

/-- A name of 64 characters. -/
def longName : List Byte := List.replicate 64 (chr 'a')

/-- The second section gets a name that leaves room for its terminator. -/
theorem lineKept_fullName :
    LineKept .zero .zero oneSection (oneSection.onSectionDefined .zero fullName)
      (.sectionDefined fullName) := by
  have hword : Word isName isName 127 fullName :=
    ⟨chr 'a', List.replicate 62 (chr 'a'), by decide, by decide, by decide, by decide⟩
  obtain ⟨q, hline, hcalls⟩ := exists_parseLine_section hword
  have hfits : fullName.length < jobLayout.size .name := by decide
  refine (lineKept_iff (by decide) hline (hcalls ▸ List.mem_cons_self) ?_ rfl).mpr hfits
  intro name text henv
  cases henv

/-- A name that fills its field, and the engine is written to. -/
theorem not_lineKept_longName :
    ∃ q, parseLine .fresh (chr '[' :: longName ++ [chr ']']) = .ok q ∧
      HandlerCall.sectionDefined longName ∈ q.calls ∧
      ∃ s', ParamBytes.zero.handle .zero .zero (.sectionDefined longName) = .ok s' ∧
        ¬ LineKept .zero .zero .zero s' (.sectionDefined longName) := by
  have hword : Word isName isName 127 longName :=
    ⟨chr 'a', List.replicate 63 (chr 'a'), by decide, by decide, by decide, by decide⟩
  obtain ⟨q, hline, hcalls⟩ := exists_parseLine_section hword
  refine ⟨q, hline, hcalls ▸ List.mem_cons_self, _, rfl, ?_⟩
  rw [sectionKept_iff (by decide)]
  decide

end ChamberSpo

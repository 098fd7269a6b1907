import ChamberSpo.LineParser

/-!
# The lines of a parameter file

What `parse_line` accepts, and what it hands to the handlers.

* `Line` — the three kinds of lines and the blank one, and how each is written (`Line.Reads`).
* `Shape` — a line as far as it has been read, in its parts.
* `Shape.next` — what the next character makes of it. `Follows.step`: the parser does the same.
* `GrammarAgrees` — a line is accepted if it is written as one of the kinds.
-/

namespace ChamberSpo

/-! ## The grammar -/

/-- White space. -/
def Blanks (ws : List Byte) : Prop := ∀ ch ∈ ws, isspace ch = true

/-- A word of at most `max` characters: one that may begin it, and others that may follow. -/
def Word (start rest : Byte → Bool) (max : ℕ) (w : List Byte) : Prop :=
  ∃ ch w', w = ch :: w' ∧ start ch ∧ (∀ c ∈ w', rest c = true) ∧ w.length ≤ max

/-- What a line says. -/
inductive Line where
  | blank
  /-- `[name]` -/
  | header (name : List Byte)
  /-- `key = value` -/
  | property (key value : List Byte)
  /-- a key and a reference to the environment variable `name` -/
  | reference (key name : List Byte)

/-- The text of a reference. -/
def referenceText (name : List Byte) : List Byte :=
  chr '$' :: chr '{' :: name ++ [chr '}']

namespace Line

/-- The tokens of a line are of their classes, and not too long. -/
def WellFormed : Line → Prop
  | .blank => True
  | .header name => Word isName isName 127 name
  | .property key value => Word isLetter isName 127 key ∧ Word isValueStart isValue 127 value
  | .reference key name => Word isLetter isName 127 key ∧ Word isNameStart isName 124 name

/-- The calls of the handlers for a line. -/
def calls : Line → List HandlerCall
  | .blank => []
  | .header name => [.sectionDefined name]
  | .property key value => [.propertyDefined key value]
  | .reference key name => [.envRefered key (referenceText name)]

/-- How a line is written: its tokens in order, and white space around them. -/
inductive Reads : Line → List Byte → Prop
  | blank {a : List Byte} : Blanks a → Reads .blank a
  | header {a b name c d : List Byte} : Blanks a → Blanks b → Blanks c → Blanks d →
    Reads (.header name) (a ++ chr '[' :: b ++ name ++ c ++ chr ']' :: d)
  | property {a key b c value d : List Byte} : Blanks a → Blanks b → Blanks c → Blanks d →
    Reads (.property key value) (a ++ key ++ b ++ chr '=' :: c ++ value ++ d)
  | reference {a key b c name d : List Byte} : Blanks a → Blanks b → Blanks c → Blanks d →
    Reads (.reference key name) (a ++ key ++ b ++ chr '=' :: c ++ referenceText name ++ d)

end Line

/-! ## A line in its parts -/

/-- What has been read of a property when its value begins. -/
structure Assign where
  lead : List Byte
  key : List Byte
  before : List Byte
  after : List Byte

namespace Assign

def text (s : Assign) : List Byte := s.lead ++ s.key ++ s.before ++ chr '=' :: s.after

def Valid (s : Assign) : Prop :=
  Blanks s.lead ∧ Word isLetter isName 127 s.key ∧ Blanks s.before ∧ Blanks s.after

/-- The token of the key. -/
def keyToken (s : Assign) : Token := ⟨s.lead.length, s.key.length⟩

end Assign

/-- A line as far as it has been read. The parts that are not tokens are white space. -/
inductive Shape where
  | start (a : List Byte)
  | opener (a b : List Byte)
  | name (a b n c : List Byte)
  | closer (a b n c d : List Byte)
  | key (a k b : List Byte)
  | equal (s : Assign)
  | value (s : Assign) (v d : List Byte)
  | dollar (s : Assign) (x : List Byte)
  | brace (s : Assign) (x y : List Byte)
  | envKey (s : Assign) (x y n z : List Byte)
  | envEnd (s : Assign) (x y n z d : List Byte)
  /-- byte 255 has led to the end of the line before the line is at its end -/
  | past (q : Shape) (d : List Byte)

namespace Shape

/-- The text that has been read. -/
def text : Shape → List Byte
  | .start a => a
  | .opener a b => a ++ chr '[' :: b
  | .name a b n c => a ++ chr '[' :: b ++ n ++ c
  | .closer a b n c d => a ++ chr '[' :: b ++ n ++ c ++ chr ']' :: d
  | .key a k b => a ++ k ++ b
  | .equal s => s.text
  | .value s v d => s.text ++ v ++ d
  | .dollar s x => s.text ++ chr '$' :: x
  | .brace s x y => s.text ++ chr '$' :: x ++ chr '{' :: y
  | .envKey s x y n z => s.text ++ chr '$' :: x ++ chr '{' :: y ++ n ++ z
  | .envEnd s x y n z d => s.text ++ chr '$' :: x ++ chr '{' :: y ++ n ++ z ++ chr '}' :: d
  | .past q d => q.text ++ 255 :: d

/-- The states in which byte 255 reads the end of a line from the next row. -/
def Open : Shape → Prop
  | .name .. | .equal .. | .envKey .. => True
  | _ => False

instance (σ : Shape) : Decidable σ.Open := by
  cases σ <;> unfold Open <;> infer_instance

/-- Every part is of its class. -/
def Valid : Shape → Prop
  | .start a => Blanks a
  | .opener a b => Blanks a ∧ Blanks b
  | .name a b n c => Blanks a ∧ Blanks b ∧ Word isName isName 127 n ∧ Blanks c
  | .closer a b n c d =>
    Blanks a ∧ Blanks b ∧ Word isName isName 127 n ∧ Blanks c ∧ Blanks d
  | .key a k b => Blanks a ∧ Word isLetter isName 127 k ∧ Blanks b
  | .equal s => s.Valid
  | .value s v d => s.Valid ∧ Word isValueStart isValue 127 v ∧ Blanks d
  | .dollar s x => s.Valid ∧ Blanks x
  | .brace s x y => s.Valid ∧ Blanks x ∧ Blanks y
  | .envKey s x y n z =>
    s.Valid ∧ Blanks x ∧ Blanks y ∧ Word isNameStart isName 125 n ∧ Blanks z
  | .envEnd s x y n z d =>
    s.Valid ∧ Blanks x ∧ Blanks y ∧ Word isNameStart isName 124 n ∧ Blanks z ∧ Blanks d
  | .past q d => q.Open ∧ q.Valid ∧ Blanks d

/-- White space goes to the last part. -/
def pad (ch : Byte) : Shape → Shape
  | .start a => .start (a ++ [ch])
  | .opener a b => .opener a (b ++ [ch])
  | .name a b n c => .name a b n (c ++ [ch])
  | .closer a b n c d => .closer a b n c (d ++ [ch])
  | .key a k b => .key a k (b ++ [ch])
  | .equal s => .equal { s with after := s.after ++ [ch] }
  | .value s v d => .value s v (d ++ [ch])
  | .dollar s x => .dollar s (x ++ [ch])
  | .brace s x y => .brace s x (y ++ [ch])
  | .envKey s x y n z => .envKey s x y n (z ++ [ch])
  | .envEnd s x y n z d => .envEnd s x y n z (d ++ [ch])
  | .past q d => .past q (d ++ [ch])

/-- What a character of the table makes of a line. -/
def grow (ch : Byte) : Shape → Option Shape
  | .start a =>
    if ch = chr '[' then some (.opener a [])
    else if isLetter ch then some (.key a [ch] [])
    else none
  | .opener a b => if isName ch then some (.name a b [ch] []) else none
  | .name a b n c =>
    if isName ch then if c = [] ∧ n.length < 127 then some (.name a b (n ++ [ch]) []) else none
    else if ch = chr ']' then some (.closer a b n c [])
    else none
  | .key a k b =>
    if isName ch then if b = [] ∧ k.length < 127 then some (.key a (k ++ [ch]) []) else none
    else if ch = chr '=' then some (.equal ⟨a, k, b, []⟩)
    else none
  | .equal s =>
    if isValueStart ch then some (.value s [ch] [])
    else if ch = chr '$' then some (.dollar s [])
    else none
  | .value s v d =>
    if isValue ch then if d = [] ∧ v.length < 127 then some (.value s (v ++ [ch]) []) else none
    else none
  | .dollar s x => if ch = chr '{' then some (.brace s x []) else none
  | .brace s x y => if isNameStart ch then some (.envKey s x y [ch] []) else none
  | .envKey s x y n z =>
    if isName ch then if z = [] ∧ n.length < 125 then some (.envKey s x y (n ++ [ch]) []) else none
    else if ch = chr '}' then if n.length < 125 then some (.envEnd s x y n z []) else none
    else none
  | .closer .. | .envEnd .. | .past .. => none

/-- What the next character makes of a line. -/
def next (σ : Shape) (ch : Byte) : Option Shape :=
  if isspace ch then some (σ.pad ch)
  else if ch = 255 then if σ.Open then some (.past σ []) else none
  else σ.grow ch

end Shape

/-- Why a line cannot go on. -/
inductive Stop where
  /-- by a character that does not belong there -/
  | unexpected
  /-- by one that makes a token too long -/
  | longToken
  /-- by one that the table has no entry for -/
  | outside
  deriving DecidableEq

def ParseError.stop : ParseError → Stop
  | .syntaxError .. => .unexpected
  | .longToken _ => .longToken
  | .undefined => .outside

/-- Why a character of which `next` makes nothing stops a line. -/
def Shape.stop : Shape → Byte → Stop
  | .name _ _ _ c, ch | .key _ _ c, ch => if isName ch ∧ c = [] then .longToken else .unexpected
  | .value _ _ d, ch => if isValue ch ∧ d = [] then .longToken else .unexpected
  | .envKey _ _ _ _ z, ch =>
    if (isName ch ∧ z = []) ∨ ch = chr '}' then .longToken else .unexpected
  | .past _ _, ch => if ch = 255 then .outside else .unexpected
  | _, _ => .unexpected

/-! ## Words and white space -/

/-- The characters of the table are no white space, and have a column. -/
theorem isValue_plain : ∀ ch : Byte, isValue ch = true → isspace ch = false ∧ ch ≠ 255 ∧ ch ≠ 0 := by
  decide +kernel

theorem isValue_of_isName {ch : Byte} (h : isName ch = true) : isValue ch = true := by
  simp only [isValue, isValueStart, h, Bool.true_or]

theorem isName_of_isLetter {ch : Byte} (h : isLetter ch = true) : isName ch = true := by
  simp only [isName, h, Bool.true_or]

theorem isName_of_isNameStart {ch : Byte} (h : isNameStart ch = true) : isName ch = true := by
  simp only [isNameStart, Bool.or_eq_true] at h
  simp only [isName, Bool.or_eq_true]
  rcases h with h | h
  · exact .inl (.inl h)
  · exact .inr h

theorem isValue_of_isValueStart {ch : Byte} (h : isValueStart ch = true) : isValue ch = true := by
  simp only [isValue, h, Bool.true_or]

theorem Blanks.nil : Blanks [] := fun _ h => absurd h List.not_mem_nil

theorem blanks_append {a b : List Byte} : Blanks (a ++ b) ↔ Blanks a ∧ Blanks b :=
  List.forall_mem_append

theorem blanks_snoc {a : List Byte} {ch : Byte} :
    Blanks (a ++ [ch]) ↔ Blanks a ∧ isspace ch = true :=
  blanks_append.trans (and_congr_right' List.forall_mem_singleton)

section Word

variable {start rest : Byte → Bool} {max : ℕ} {w : List Byte} {ch : Byte}

theorem Word.length_le (h : Word start rest max w) : w.length ≤ max := by
  obtain ⟨_, _, _, _, _, hlen⟩ := h
  exact hlen

theorem Word.mono {max' : ℕ} (h : Word start rest max w) (hlen : w.length ≤ max') :
    Word start rest max' w := by
  obtain ⟨ch, w', hw, hstart, hrest, -⟩ := h
  exact ⟨ch, w', hw, hstart, hrest, hlen⟩

theorem Word.single (h : start ch = true) (hmax : 0 < max) : Word start rest max [ch] :=
  ⟨ch, [], rfl, h, fun _ hc => absurd hc List.not_mem_nil, hmax⟩

theorem Word.snoc (h : Word start rest max w) (hch : rest ch = true) (hlen : w.length < max) :
    Word start rest max (w ++ [ch]) := by
  obtain ⟨c, w', rfl, hstart, hrest, -⟩ := h
  refine ⟨c, w' ++ [ch], rfl, hstart, ?_, ?_⟩
  · intro c hc
    rcases List.mem_append.mp hc with hc | hc
    · exact hrest c hc
    · rw [List.mem_singleton.mp hc]
      exact hch
  · rw [List.length_append]
    exact hlen

/-- The last character of a word is its first, or follows a word. -/
theorem Word.cases_last (h : Word start rest max w) :
    (∃ ch, w = [ch] ∧ start ch = true) ∨
      ∃ w' ch, w = w' ++ [ch] ∧ Word start rest max w' ∧ rest ch = true ∧ w'.length < max := by
  obtain ⟨c, w', rfl, hstart, hrest, hlen⟩ := h
  rcases List.eq_nil_or_concat w' with rfl | ⟨v, ch, rfl⟩
  · exact .inl ⟨c, rfl, hstart⟩
  · rw [List.concat_eq_append, List.length_cons, List.length_append, List.length_singleton] at hlen
    rw [List.concat_eq_append] at hrest ⊢
    refine .inr ⟨c :: v, ch, rfl, ⟨c, v, rfl, hstart, ?_, ?_⟩, ?_, ?_⟩
    · intro d hd
      exact hrest d (List.mem_append_left _ hd)
    · rw [List.length_cons]
      omega
    · exact hrest ch (List.mem_append_right _ (List.mem_singleton_self ch))
    · rw [List.length_cons]
      omega

end Word

/-! ## Reading a line -/

namespace Shape

variable {σ τ : Shape} {ch : Byte}

theorem pad_text (σ : Shape) (ch : Byte) : (σ.pad ch).text = σ.text ++ [ch] := by
  cases σ <;> simp [pad, text, Assign.text]

/-- The ways in which a line grows by a character that is no white space. -/
inductive Grows : Shape → Byte → Shape → Prop
  | openSection {a} : Grows (.start a) (chr '[') (.opener a [])
  | startKey {a ch} : isLetter ch → Grows (.start a) ch (.key a [ch] [])
  | startName {a b ch} : isName ch → Grows (.opener a b) ch (.name a b [ch] [])
  | name {a b n ch} : isName ch → n.length < 127 →
    Grows (.name a b n []) ch (.name a b (n ++ [ch]) [])
  | closeSection {a b n c} : Grows (.name a b n c) (chr ']') (.closer a b n c [])
  | key {a k ch} : isName ch → k.length < 127 → Grows (.key a k []) ch (.key a (k ++ [ch]) [])
  | equal {a k b} : Grows (.key a k b) (chr '=') (.equal ⟨a, k, b, []⟩)
  | startValue {s ch} : isValueStart ch → Grows (.equal s) ch (.value s [ch] [])
  | value {s v ch} : isValue ch → v.length < 127 →
    Grows (.value s v []) ch (.value s (v ++ [ch]) [])
  | dollar {s} : Grows (.equal s) (chr '$') (.dollar s [])
  | brace {s x} : Grows (.dollar s x) (chr '{') (.brace s x [])
  | startEnv {s x y ch} : isNameStart ch → Grows (.brace s x y) ch (.envKey s x y [ch] [])
  | env {s x y n ch} : isName ch → n.length < 125 →
    Grows (.envKey s x y n []) ch (.envKey s x y (n ++ [ch]) [])
  | endEnv {s x y n z} : n.length < 125 →
    Grows (.envKey s x y n z) (chr '}') (.envEnd s x y n z [])

/-- **What `grow` can do.** -/
theorem grow_cases (h : σ.grow ch = some τ) : Grows σ ch τ := by
  cases σ with
  | start a =>
    simp only [grow] at h
    split_ifs at h with hopen hletter
    · subst hopen
      cases h
      exact .openSection
    · cases h
      exact .startKey hletter
  | opener a b =>
    simp only [grow] at h
    split_ifs at h with hname
    cases h
    exact .startName hname
  | name a b n c =>
    simp only [grow] at h
    split_ifs at h with hname hlen hclose
    · obtain ⟨rfl, hlen⟩ := hlen
      cases h
      exact .name hname hlen
    · subst hclose
      cases h
      exact .closeSection
  | key a k b =>
    simp only [grow] at h
    split_ifs at h with hname hlen hequal
    · obtain ⟨rfl, hlen⟩ := hlen
      cases h
      exact .key hname hlen
    · subst hequal
      cases h
      exact .equal
  | equal s =>
    simp only [grow] at h
    split_ifs at h with hvalue hdollar
    · cases h
      exact .startValue hvalue
    · subst hdollar
      cases h
      exact .dollar
  | value s v d =>
    simp only [grow] at h
    split_ifs at h with hvalue hlen
    obtain ⟨rfl, hlen⟩ := hlen
    cases h
    exact .value hvalue hlen
  | dollar s x =>
    simp only [grow] at h
    split_ifs at h with hbrace
    subst hbrace
    cases h
    exact .brace
  | brace s x y =>
    simp only [grow] at h
    split_ifs at h with hname
    cases h
    exact .startEnv hname
  | envKey s x y n z =>
    simp only [grow] at h
    split_ifs at h with hname hlen hend hlen
    · obtain ⟨rfl, hlen⟩ := hlen
      cases h
      exact .env hname hlen
    · subst hend
      cases h
      exact .endEnv hlen
  | closer => cases h
  | envEnd => cases h
  | past => cases h

theorem Grows.grow (h : Grows σ ch τ) : σ.grow ch = some τ := by
  cases h with
  | startKey hletter =>
    have hopen : ch ≠ chr '[' := by
      rintro rfl
      exact absurd hletter (by decide)
    rw [Shape.grow, if_neg hopen, if_pos hletter]
  | startName hname => exact if_pos hname
  | name hname hlen => rw [Shape.grow, if_pos hname, if_pos ⟨rfl, hlen⟩]
  | key hname hlen => rw [Shape.grow, if_pos hname, if_pos ⟨rfl, hlen⟩]
  | startValue hvalue => exact if_pos hvalue
  | value hvalue hlen => rw [Shape.grow, if_pos hvalue, if_pos ⟨rfl, hlen⟩]
  | startEnv hname => exact if_pos hname
  | env hname hlen => rw [Shape.grow, if_pos hname, if_pos ⟨rfl, hlen⟩]
  | endEnv hlen => rw [Shape.grow, if_neg (by decide), if_pos rfl, if_pos hlen]
  | _ => rfl

/-- A line never grows by white space or by byte 255. -/
theorem Grows.plain (h : Grows σ ch τ) : isspace ch = false ∧ ch ≠ 255 := by
  have hvalue : ∀ ch : Byte, isValue ch = true → isspace ch = false ∧ ch ≠ 255 := fun ch h =>
    ⟨(isValue_plain ch h).1, (isValue_plain ch h).2.1⟩
  cases h with
  | startKey h => exact hvalue ch (isValue_of_isName (isName_of_isLetter h))
  | startName h | name h _ | key h _ | env h _ => exact hvalue ch (isValue_of_isName h)
  | startValue h => exact hvalue ch (isValue_of_isValueStart h)
  | value h _ => exact hvalue ch h
  | startEnv h => exact hvalue ch (isValue_of_isName (isName_of_isNameStart h))
  | _ => decide

/-- **What `next` can do.** -/
theorem next_cases (h : σ.next ch = some τ) :
    (isspace ch = true ∧ τ = σ.pad ch) ∨ (ch = 255 ∧ σ.Open ∧ τ = .past σ []) ∨ Grows σ ch τ := by
  simp only [next] at h
  split_ifs at h with hspace h255 hopen
  · exact .inl ⟨hspace, (Option.some.inj h).symm⟩
  · exact .inr (.inl ⟨h255, hopen, (Option.some.inj h).symm⟩)
  · exact .inr (.inr (grow_cases h))

theorem Grows.next (h : Grows σ ch τ) : σ.next ch = some τ := by
  obtain ⟨hspace, h255⟩ := h.plain
  rw [Shape.next, if_neg (by rw [hspace]; exact Bool.false_ne_true), if_neg h255]
  exact h.grow

theorem next_pad (σ : Shape) (h : isspace ch = true) : σ.next ch = some (σ.pad ch) := if_pos h

/-- A character is added to what has been read. -/
theorem next_text (h : σ.next ch = some τ) : τ.text = σ.text ++ [ch] := by
  rcases next_cases h with ⟨-, rfl⟩ | ⟨rfl, -, rfl⟩ | hgrows
  · exact pad_text σ ch
  · rfl
  · cases hgrows <;> simp [text, Assign.text]

/-- What has been read stays of its classes. -/
theorem next_valid (hσ : σ.Valid) (h : σ.next ch = some τ) : τ.Valid := by
  rcases next_cases h with ⟨hspace, rfl⟩ | ⟨rfl, hopen, rfl⟩ | hgrows
  · cases σ <;> simp only [Valid, pad, Assign.Valid, blanks_snoc] at hσ ⊢ <;> tauto
  · exact ⟨hopen, hσ, .nil⟩
  · cases hgrows with
    | openSection => exact ⟨hσ, .nil⟩
    | startKey hch => exact ⟨hσ, .single hch (by decide), .nil⟩
    | startName hch => exact ⟨hσ.1, hσ.2, .single hch (by decide), .nil⟩
    | name hch hlen => exact ⟨hσ.1, hσ.2.1, hσ.2.2.1.snoc hch hlen, .nil⟩
    | closeSection => exact ⟨hσ.1, hσ.2.1, hσ.2.2.1, hσ.2.2.2, .nil⟩
    | key hch hlen => exact ⟨hσ.1, hσ.2.1.snoc hch hlen, .nil⟩
    | equal => exact ⟨hσ.1, hσ.2.1, hσ.2.2, .nil⟩
    | startValue hch => exact ⟨hσ, .single hch (by decide), .nil⟩
    | value hch hlen => exact ⟨hσ.1, hσ.2.1.snoc hch hlen, .nil⟩
    | dollar => exact ⟨hσ, .nil⟩
    | brace => exact ⟨hσ.1, hσ.2, .nil⟩
    | startEnv hch => exact ⟨hσ.1, hσ.2.1, hσ.2.2, .single hch (by decide), .nil⟩
    | env hch hlen => exact ⟨hσ.1, hσ.2.1, hσ.2.2.1, hσ.2.2.2.1.snoc hch hlen, .nil⟩
    | endEnv hlen =>
      exact ⟨hσ.1, hσ.2.1, hσ.2.2.1, hσ.2.2.2.1.mono (Nat.le_of_lt_succ hlen), hσ.2.2.2.2, .nil⟩

/-- Every line but the empty one has a last character. -/
theorem exists_pred (h : σ.Valid) :
    σ = .start [] ∨ ∃ (τ : Shape) (ch : Byte), τ.Valid ∧ τ.next ch = some σ := by
  have hgrows : ∀ (τ : Shape) {ch : Byte}, τ.Valid → Grows τ ch σ →
      ∃ (τ : Shape) (ch : Byte), τ.Valid ∧ τ.next ch = some σ :=
    fun _ _ hτ hg => ⟨_, _, hτ, hg.next⟩
  have hpad : ∀ (τ : Shape) {ch : Byte}, τ.Valid → isspace ch = true → τ.pad ch = σ →
      ∃ (τ : Shape) (ch : Byte), τ.Valid ∧ τ.next ch = some σ :=
    fun _ _ hτ hch hσ => ⟨_, _, hτ, hσ ▸ next_pad _ hch⟩
  cases σ with
  | start a =>
    rcases List.eq_nil_or_concat' a with rfl | ⟨a, ch, rfl⟩
    · exact .inl rfl
    · obtain ⟨ha, hch⟩ := blanks_snoc.mp h
      exact .inr (hpad (.start a) ha hch rfl)
  | opener a b =>
    right
    rcases List.eq_nil_or_concat' b with rfl | ⟨b, ch, rfl⟩
    · exact hgrows (.start a) h.1 .openSection
    · obtain ⟨hb, hch⟩ := blanks_snoc.mp h.2
      exact hpad (.opener a b) ⟨h.1, hb⟩ hch rfl
  | name a b n c =>
    right
    obtain ⟨ha, hb, hn, hc⟩ := h
    rcases List.eq_nil_or_concat' c with rfl | ⟨c, ch, rfl⟩
    · rcases hn.cases_last with ⟨ch, rfl, hch⟩ | ⟨n, ch, rfl, hn, hch, hlen⟩
      · exact hgrows (.opener a b) ⟨ha, hb⟩ (.startName hch)
      · exact hgrows (.name a b n []) ⟨ha, hb, hn, .nil⟩ (.name hch hlen)
    · obtain ⟨hc, hch⟩ := blanks_snoc.mp hc
      exact hpad (.name a b n c) ⟨ha, hb, hn, hc⟩ hch rfl
  | closer a b n c d =>
    right
    obtain ⟨ha, hb, hn, hc, hd⟩ := h
    rcases List.eq_nil_or_concat' d with rfl | ⟨d, ch, rfl⟩
    · exact hgrows (.name a b n c) ⟨ha, hb, hn, hc⟩ .closeSection
    · obtain ⟨hd, hch⟩ := blanks_snoc.mp hd
      exact hpad (.closer a b n c d) ⟨ha, hb, hn, hc, hd⟩ hch rfl
  | key a k b =>
    right
    obtain ⟨ha, hk, hb⟩ := h
    rcases List.eq_nil_or_concat' b with rfl | ⟨b, ch, rfl⟩
    · rcases hk.cases_last with ⟨ch, rfl, hch⟩ | ⟨k, ch, rfl, hk, hch, hlen⟩
      · exact hgrows (.start a) ha (.startKey hch)
      · exact hgrows (.key a k []) ⟨ha, hk, .nil⟩ (.key hch hlen)
    · obtain ⟨hb, hch⟩ := blanks_snoc.mp hb
      exact hpad (.key a k b) ⟨ha, hk, hb⟩ hch rfl
  | equal s =>
    right
    obtain ⟨a, k, b, c⟩ := s
    obtain ⟨ha, hk, hb, hc⟩ := h
    rcases List.eq_nil_or_concat' c with rfl | ⟨c, ch, rfl⟩
    · exact hgrows (.key a k b) ⟨ha, hk, hb⟩ .equal
    · obtain ⟨hc, hch⟩ := blanks_snoc.mp hc
      exact hpad (.equal ⟨a, k, b, c⟩) ⟨ha, hk, hb, hc⟩ hch rfl
  | value s v d =>
    right
    obtain ⟨hs, hv, hd⟩ := h
    rcases List.eq_nil_or_concat' d with rfl | ⟨d, ch, rfl⟩
    · rcases hv.cases_last with ⟨ch, rfl, hch⟩ | ⟨v, ch, rfl, hv, hch, hlen⟩
      · exact hgrows (.equal s) hs (.startValue hch)
      · exact hgrows (.value s v []) ⟨hs, hv, .nil⟩ (.value hch hlen)
    · obtain ⟨hd, hch⟩ := blanks_snoc.mp hd
      exact hpad (.value s v d) ⟨hs, hv, hd⟩ hch rfl
  | dollar s x =>
    right
    rcases List.eq_nil_or_concat' x with rfl | ⟨x, ch, rfl⟩
    · exact hgrows (.equal s) h.1 .dollar
    · obtain ⟨hx, hch⟩ := blanks_snoc.mp h.2
      exact hpad (.dollar s x) ⟨h.1, hx⟩ hch rfl
  | brace s x y =>
    right
    obtain ⟨hs, hx, hy⟩ := h
    rcases List.eq_nil_or_concat' y with rfl | ⟨y, ch, rfl⟩
    · exact hgrows (.dollar s x) ⟨hs, hx⟩ .brace
    · obtain ⟨hy, hch⟩ := blanks_snoc.mp hy
      exact hpad (.brace s x y) ⟨hs, hx, hy⟩ hch rfl
  | envKey s x y n z =>
    right
    obtain ⟨hs, hx, hy, hn, hz⟩ := h
    rcases List.eq_nil_or_concat' z with rfl | ⟨z, ch, rfl⟩
    · rcases hn.cases_last with ⟨ch, rfl, hch⟩ | ⟨n, ch, rfl, hn, hch, hlen⟩
      · exact hgrows (.brace s x y) ⟨hs, hx, hy⟩ (.startEnv hch)
      · exact hgrows (.envKey s x y n []) ⟨hs, hx, hy, hn, .nil⟩ (.env hch hlen)
    · obtain ⟨hz, hch⟩ := blanks_snoc.mp hz
      exact hpad (.envKey s x y n z) ⟨hs, hx, hy, hn, hz⟩ hch rfl
  | envEnd s x y n z d =>
    right
    obtain ⟨hs, hx, hy, hn, hz, hd⟩ := h
    rcases List.eq_nil_or_concat' d with rfl | ⟨d, ch, rfl⟩
    · have hlen := hn.length_le
      exact hgrows (.envKey s x y n z)
        ⟨hs, hx, hy, hn.mono (Nat.le_succ_of_le hlen), hz⟩ (.endEnv (Nat.lt_succ_of_le hlen))
    · obtain ⟨hd, hch⟩ := blanks_snoc.mp hd
      exact hpad (.envEnd s x y n z d) ⟨hs, hx, hy, hn, hz, hd⟩ hch rfl
  | past q d =>
    right
    obtain ⟨hopen, hq, hd⟩ := h
    rcases List.eq_nil_or_concat' d with rfl | ⟨d, ch, rfl⟩
    · exact ⟨q, 255, hq, if_pos hopen⟩
    · obtain ⟨hd, hch⟩ := blanks_snoc.mp hd
      exact hpad (.past q d) ⟨hopen, hq, hd⟩ hch rfl

/-- What is made of a text, character by character. -/
def read (σ : Shape) (bs : List Byte) : Option Shape := bs.foldlM next σ

/-- **A text in its parts is read as these parts.** -/
theorem read_text (σ : Shape) (h : σ.Valid) : (Shape.start []).read σ.text = some σ := by
  generalize hn : σ.text.length = n
  induction n generalizing σ with
  | zero =>
    rcases exists_pred h with rfl | ⟨τ, ch, -, hnext⟩
    · rfl
    · rw [next_text hnext, List.length_append] at hn
      cases hn
  | succ n ih =>
    rcases exists_pred h with rfl | ⟨τ, ch, hτ, hnext⟩
    · cases hn
    · have htext := next_text hnext
      rw [htext, List.length_append, List.length_singleton] at hn
      rw [htext, read, List.foldlM_append, ← read, ih τ hτ (Nat.succ.inj hn)]
      simp [hnext]

end Shape

/-! ## The parser reads lines in their parts -/

/-- The calls of the handlers so far. -/
def Shape.calls : Shape → List HandlerCall
  | .closer _ _ n _ _ | .past (.name _ _ n _) _ => [.sectionDefined n]
  | _ => []

/-- What the parser knows of a line as far as it has been read. -/
def Shape.Holds (p : Parser) : Shape → Prop
  | .start _ => p.state = .init ∧ p.curTokenIdx = 0
  | .opener _ _ => p.state = .sectionOpener ∧ p.curTokenIdx = 0 ∧ p.curToken = none
  | .name a b n c =>
    p.state = .sectionName ∧ p.curToken = some 0 ∧ p.endOfToken = !c.isEmpty ∧
      p.tokens 0 = ⟨(a ++ chr '[' :: b).length, n.length⟩
  | .closer .. => p.state = .sectionCloser ∧ p.curToken = none
  | .key a k b =>
    p.state = .propKey ∧ p.curToken = some 0 ∧ p.endOfToken = !b.isEmpty ∧ p.curTokenIdx = 1 ∧
      p.tokens 0 = ⟨a.length, k.length⟩
  | .equal s =>
    p.state = .propEqual ∧ p.curToken = none ∧ p.curTokenIdx = 1 ∧ p.tokens 0 = s.keyToken
  | .value s v d =>
    p.state = .propValue ∧ p.curToken = some 1 ∧ p.endOfToken = !d.isEmpty ∧
      p.tokens 0 = s.keyToken ∧ p.tokens 1 = ⟨s.text.length, v.length⟩
  | .dollar s _ =>
    p.state = .envDollar ∧ p.curToken = some 1 ∧ p.tokens 0 = s.keyToken ∧
      p.tokens 1 = ⟨s.text.length, 1⟩
  | .brace s _ _ =>
    p.state = .envOpener ∧ p.curToken = some 1 ∧ p.tokens 0 = s.keyToken ∧
      p.tokens 1 = ⟨s.text.length, 2⟩
  | .envKey s _ _ n z =>
    p.state = .envKey ∧ p.curToken = some 1 ∧ p.endOfToken = !z.isEmpty ∧
      p.tokens 0 = s.keyToken ∧ p.tokens 1 = ⟨s.text.length, 2 + n.length⟩
  | .envEnd s _ _ n _ _ =>
    p.state = .envCloser ∧ p.curToken = some 1 ∧ p.tokens 0 = s.keyToken ∧
      p.tokens 1 = ⟨s.text.length, 3 + n.length⟩
  | .past .. => p.state = .endline ∧ p.curToken = none

/-- The parser has read a line as `σ`. -/
structure Follows (σ : Shape) (p : Parser) : Prop where
  colNum : p.colNum = σ.text.length
  calls : p.calls = σ.calls
  holds : σ.Holds p

theorem Token.text_append (pre w rest : List Byte) :
    (⟨pre.length, w.length⟩ : Token).text (pre ++ w ++ rest) = w := by
  rw [Token.text, List.append_assoc, List.drop_left, List.take_left]

section Follows

open Shape

variable {σ τ : Shape} {p : Parser} {ch : Byte} {line suf : List Byte}

theorem countChar_none {s : ParserState} (h : p.curToken = none) :
    countChar p s = .ok { p with state := s } := by rw [countChar, h]

theorem countChar_some {s : ParserState} {i : ℕ} {token : Token} (h : p.curToken = some i)
    (hi : p.tokens i = token) (hlen : token.len < 127) :
    countChar p s = .ok { p with
      tokens := Function.update p.tokens i ⟨token.col, token.len + 1⟩, state := s } := by
  subst hi
  have hlt : ¬ maxTokenLen ≤ (p.tokens i).len + 1 := by
    rw [maxTokenLen]
    omega
  rw [countChar, h]
  exact if_neg hlt

theorem countChar_long {s : ParserState} {i : ℕ} (h : p.curToken = some i)
    (hlen : 127 ≤ (p.tokens i).len) : ∃ q, countChar p s = .error (.longToken q) := by
  have hle : maxTokenLen ≤ (p.tokens i).len + 1 := Nat.succ_le_succ hlen
  rw [countChar, h]
  exact ⟨_, if_pos hle⟩

/-- What every character that is no white space does. -/
structure Parser.Moves (p q : Parser) (s : ParserState) : Prop where
  state : q.state = s
  colNum : q.colNum = p.colNum + 1
  endOfToken : q.endOfToken = false

theorem parseStep_of_parseChar {q : Parser} (hspace : isspace ch = false)
    (h : parseChar line p ch = .ok q) :
    parseStep line p ch = .ok { q with colNum := q.colNum + 1 } := by
  simp only [parseStep, hspace, Bool.false_eq_true, if_false, h]
  rfl

theorem parseChar_enter (line : List Byte) {s : ParserState}
    (hnext : parserNextState p.state ch = some s)
    (hs : s ≠ .error) (hne : s ≠ p.state) :
    parseChar line p ch = countChar { enterState line p s with endOfToken := false } s := by
  simp only [parseChar, hnext, hs, hne, ne_eq, not_false_eq_true, if_true, if_false]

theorem parseChar_stay (line : List Byte) (hnext : parserNextState p.state ch = some p.state)
    (hs : p.state ≠ .error)
    (heot : p.endOfToken = false) : parseChar line p ch = countChar p p.state := by
  simp only [parseChar, hnext, hs, ne_eq, not_true_eq_false, heot, if_false, Bool.false_eq_true]

/-- A token begins. -/
theorem parseStep_start (line : List Byte) {s : ParserState} (hspace : isspace ch = false)
    (hnext : parserNextState p.state ch = some s) (hs : s ≠ .error) (hne : s ≠ p.state)
    (hstart : enterState line p s = startToken p) :
    ∃ q, parseStep line p ch = .ok q ∧ p.Moves q s ∧ q.calls = p.calls ∧
      q.curToken = some p.curTokenIdx ∧ q.curTokenIdx = p.curTokenIdx + 1 ∧
      q.tokens = Function.update p.tokens p.curTokenIdx ⟨p.colNum, 1⟩ := by
  have htoken : { startToken p with endOfToken := false }.tokens p.curTokenIdx = ⟨p.colNum, 0⟩ :=
    Function.update_self ..
  have hchar := parseChar_enter line hnext hs hne
  rw [hstart, countChar_some rfl htoken (Nat.zero_lt_succ 126)] at hchar
  exact ⟨_, parseStep_of_parseChar hspace hchar, ⟨rfl, rfl, rfl⟩, rfl, rfl, rfl,
    Function.update_idem ..⟩

/-- A token has one more character. -/
theorem parseStep_more (line : List Byte) {s : ParserState} {i : ℕ} {token : Token}
    (hspace : isspace ch = false)
    (hnext : parserNextState p.state ch = some s) (hs : s ≠ .error)
    (hmore : (s = p.state ∧ p.endOfToken = false) ∨ (s ≠ p.state ∧ enterState line p s = p))
    (hcur : p.curToken = some i) (hi : p.tokens i = token) (hlen : token.len < 127) :
    ∃ q, parseStep line p ch = .ok q ∧ p.Moves q s ∧ q.calls = p.calls ∧
      q.curToken = some i ∧ q.curTokenIdx = p.curTokenIdx ∧
      q.tokens = Function.update p.tokens i ⟨token.col, token.len + 1⟩ := by
  rcases hmore with ⟨rfl, heot⟩ | ⟨hne, hsame⟩
  · have hchar := parseChar_stay line hnext hs heot
    rw [countChar_some hcur hi hlen] at hchar
    exact ⟨_, parseStep_of_parseChar hspace hchar, ⟨rfl, rfl, heot⟩, rfl, hcur, rfl, rfl⟩
  · have hchar := parseChar_enter line hnext hs hne
    rw [hsame, countChar_some (p := { p with endOfToken := false }) hcur hi hlen] at hchar
    exact ⟨_, parseStep_of_parseChar hspace hchar, ⟨rfl, rfl, rfl⟩, rfl, hcur, rfl, rfl⟩

/-- A token ends, and its handlers are called. -/
theorem parseChar_end (line : List Byte) {s : ParserState}
    (hnext : parserNextState p.state ch = some s)
    (hs : s ≠ .error) (hne : s ≠ p.state)
    (hend : s = .sectionOpener ∨ s = .sectionCloser ∨ s = .propEqual ∨ s = .endline) :
    ∃ q, parseChar line p ch = .ok q ∧ q.state = s ∧ q.colNum = p.colNum ∧ q.endOfToken = false ∧
      q.curToken = none ∧ q.curTokenIdx = p.curTokenIdx ∧ q.tokens = p.tokens ∧
      q.calls = match p.curToken with
        | some i => (endToken line p i).calls
        | none => p.calls := by
  have henter : enterState line p s = match p.curToken with
      | some i => endToken line p i
      | none => p := by
    rcases hend with rfl | rfl | rfl | rfl <;> rfl
  rw [parseChar_enter line hnext hs hne, henter]
  cases hcur : p.curToken with
  | none => exact ⟨_, countChar_none hcur, rfl, rfl, rfl, hcur, rfl, rfl, rfl⟩
  | some i => exact ⟨_, countChar_none rfl, rfl, rfl, rfl, rfl, rfl, rfl, rfl⟩

theorem parseStep_end (line : List Byte) {s : ParserState} (hspace : isspace ch = false)
    (hnext : parserNextState p.state ch = some s) (hs : s ≠ .error) (hne : s ≠ p.state)
    (hend : s = .sectionOpener ∨ s = .sectionCloser ∨ s = .propEqual ∨ s = .endline) :
    ∃ q, parseStep line p ch = .ok q ∧ p.Moves q s ∧ q.curToken = none ∧
      q.curTokenIdx = p.curTokenIdx ∧ q.tokens = p.tokens ∧
      q.calls = match p.curToken with
        | some i => (endToken line p i).calls
        | none => p.calls := by
  obtain ⟨q, hchar, hstate, hcol, heot, hcur, hidx, htokens, hcalls⟩ :=
    parseChar_end line hnext hs hne hend
  exact ⟨_, parseStep_of_parseChar hspace hchar, ⟨hstate, congrArg (· + 1) hcol, heot⟩, hcur, hidx,
    htokens, hcalls⟩

theorem Follows.pad (h : Follows σ p) (hch : isspace ch = true) :
    ∃ p', parseStep line p ch = .ok p' ∧ Follows (σ.pad ch) p' := by
  obtain ⟨hcol, hcalls, hholds⟩ := h
  refine ⟨_, if_pos hch, ?_, ?_, ?_⟩
  · rw [pad_text, List.length_append, ← hcol]
    rfl
  · rw [hcalls]
    cases σ with
    | past q d => cases q <;> rfl
    | _ => rfl
  · cases σ <;> simp_all [Holds, Shape.pad, Assign.text, Assign.keyToken]

/-- What follows from a step of the parser for the characters that have been read. -/
theorem Follows.moves {q : Parser} {s : ParserState} (h : Follows σ p) (hm : p.Moves q s)
    (htext : τ.text = σ.text ++ [ch]) (hcalls : q.calls = τ.calls) (hholds : τ.Holds q) :
    Follows τ q := by
  refine ⟨?_, hcalls, hholds⟩
  rw [htext, List.length_append, hm.colNum, h.colNum]
  rfl

/-- **The parser grows a line as its parts do.** -/
theorem Follows.grows (h : Follows σ p) (hgrows : Grows σ ch τ) (hline : line = σ.text ++ ch :: suf) :
    ∃ p', parseStep line p ch = .ok p' ∧ Follows τ p' := by
  obtain ⟨hspace, h255⟩ := hgrows.plain
  have htext := next_text hgrows.next
  have hnext : ∀ {st s}, p.state = st → parserStateTable st ch = s →
      parserNextState p.state ch = some s := fun hst hs => by
    rw [parserNextState, if_neg h255, hst, hs]
  have hcol := h.colNum
  have hcalls := h.calls
  have hholds := h.holds
  have hzero : isValue ch = true → ch ≠ 0 := fun h => (isValue_plain ch h).2.2
  cases hgrows with
  | openSection =>
    obtain ⟨hstate, hidx⟩ := hholds
    obtain ⟨q, hstep, hm, hcur, hidx', -, hcalls'⟩ := parseStep_end line hspace
      (hnext hstate rfl) (by decide) (by rw [hstate]; decide) (.inl rfl)
    refine ⟨q, hstep, h.moves hm htext ?_ ⟨hm.state, hidx'.trans hidx, hcur⟩⟩
    rw [hcalls']
    cases p.curToken <;> simp [endToken, hstate, hcalls, Shape.calls]
  | startKey hletter =>
    obtain ⟨hstate, hidx⟩ := hholds
    have htable : parserStateTable .init ch = .propKey := by
      have hopen : ch ≠ chr '[' := by
        rintro rfl
        exact absurd hletter (by decide)
      rw [parserStateTable, if_neg (hzero (isValue_of_isName (isName_of_isLetter hletter))),
        if_neg hopen, if_pos hletter]
    obtain ⟨q, hstep, hm, hcalls', hcur, hidx', htokens⟩ := parseStep_start line hspace
      (hnext hstate htable) (by decide) (by rw [hstate]; decide) rfl
    rw [hidx] at hcur hidx' htokens
    refine ⟨q, hstep, h.moves hm htext (hcalls'.trans hcalls) ⟨hm.state, hcur, hm.endOfToken, hidx',
      ?_⟩⟩
    rw [htokens, Function.update_self, hcol]
    rfl
  | startName hname =>
    obtain ⟨hstate, hidx, -⟩ := hholds
    obtain ⟨q, hstep, hm, hcalls', hcur, -, htokens⟩ := parseStep_start line hspace
      (hnext hstate (if_pos hname)) (by decide) (by rw [hstate]; decide) rfl
    rw [hidx] at hcur htokens
    refine ⟨q, hstep, h.moves hm htext (hcalls'.trans hcalls) ⟨hm.state, hcur, hm.endOfToken, ?_⟩⟩
    rw [htokens, Function.update_self, hcol]
    rfl
  | name hname hlen =>
    obtain ⟨hstate, hcur, heot, htoken⟩ := hholds
    obtain ⟨q, hstep, hm, hcalls', hcur', -, htokens⟩ := parseStep_more line hspace
      (hnext hstate (if_pos hname)) (by decide) (.inl ⟨hstate.symm, heot⟩) hcur htoken hlen
    refine ⟨q, hstep, h.moves hm htext (hcalls'.trans hcalls) ⟨hm.state, hcur', hm.endOfToken, ?_⟩⟩
    rw [htokens, Function.update_self]
    exact congrArg (Token.mk _) (by simp)
  | @closeSection a b n c =>
    obtain ⟨hstate, hcur, heot, htoken⟩ := hholds
    obtain ⟨q, hstep, hm, hcur', -, -, hcalls'⟩ := parseStep_end line hspace
      (hnext hstate rfl) (by decide) (by rw [hstate]; decide) (.inr (.inl rfl))
    refine ⟨q, hstep, h.moves hm htext ?_ ⟨hm.state, hcur'⟩⟩
    have hname : (p.tokens 0).text line = n := by
      rw [htoken, hline, show (name a b n c).text ++ chr ']' :: suf
        = a ++ chr '[' :: b ++ n ++ (c ++ chr ']' :: suf) by simp [text]]
      exact Token.text_append ..
    simp only [hcalls', hcur, endToken, hstate, hcalls, hname, Shape.calls, List.nil_append]
  | key hname hlen =>
    obtain ⟨hstate, hcur, heot, hidx, htoken⟩ := hholds
    obtain ⟨q, hstep, hm, hcalls', hcur', hidx', htokens⟩ := parseStep_more line hspace
      (hnext hstate (if_pos hname)) (by decide) (.inl ⟨hstate.symm, heot⟩) hcur htoken hlen
    refine ⟨q, hstep, h.moves hm htext (hcalls'.trans hcalls) ⟨hm.state, hcur', hm.endOfToken,
      hidx'.trans hidx, ?_⟩⟩
    rw [htokens, Function.update_self, List.length_append]
    rfl
  | equal =>
    obtain ⟨hstate, hcur, heot, hidx, htoken⟩ := hholds
    obtain ⟨q, hstep, hm, hcur', hidx', htokens, hcalls'⟩ := parseStep_end line hspace
      (hnext hstate rfl) (by decide) (by rw [hstate]; decide) (.inr (.inr (.inl rfl)))
    refine ⟨q, hstep, h.moves hm htext ?_ ⟨hm.state, hcur', hidx'.trans hidx, ?_⟩⟩
    · simp only [hcalls', hcur, endToken, hstate, hcalls, Shape.calls, List.nil_append]
    · rw [htokens, htoken]
      rfl
  | startValue hvalue =>
    obtain ⟨hstate, -, hidx, htoken⟩ := hholds
    obtain ⟨q, hstep, hm, hcalls', hcur, -, htokens⟩ := parseStep_start line hspace
      (hnext hstate (if_pos hvalue)) (by decide) (by rw [hstate]; decide) rfl
    rw [hidx] at hcur htokens
    refine ⟨q, hstep, h.moves hm htext (hcalls'.trans hcalls) ⟨hm.state, hcur, hm.endOfToken, ?_,
      ?_⟩⟩
    · rw [htokens, Function.update_of_ne Nat.zero_ne_one, htoken]
    · rw [htokens, Function.update_self, hcol]
      rfl
  | value hvalue hlen =>
    obtain ⟨hstate, hcur, heot, hkey, htoken⟩ := hholds
    have htable : parserStateTable .propValue ch = .propValue := by
      rw [parserStateTable, if_neg (hzero hvalue), if_pos hvalue]
    obtain ⟨q, hstep, hm, hcalls', hcur', -, htokens⟩ := parseStep_more line hspace
      (hnext hstate htable) (by decide) (.inl ⟨hstate.symm, heot⟩) hcur htoken hlen
    refine ⟨q, hstep, h.moves hm htext (hcalls'.trans hcalls) ⟨hm.state, hcur', hm.endOfToken, ?_,
      ?_⟩⟩
    · rw [htokens, Function.update_of_ne Nat.zero_ne_one, hkey]
    · rw [htokens, Function.update_self, List.length_append]
      rfl
  | dollar =>
    obtain ⟨hstate, -, hidx, htoken⟩ := hholds
    obtain ⟨q, hstep, hm, hcalls', hcur, -, htokens⟩ := parseStep_start line hspace
      (hnext hstate rfl) (by decide) (by rw [hstate]; decide) rfl
    rw [hidx] at hcur htokens
    refine ⟨q, hstep, h.moves hm htext (hcalls'.trans hcalls) ⟨hm.state, hcur, ?_, ?_⟩⟩
    · rw [htokens, Function.update_of_ne Nat.zero_ne_one, htoken]
    · rw [htokens, Function.update_self, hcol]
      rfl
  | brace =>
    obtain ⟨hstate, hcur, hkey, htoken⟩ := hholds
    obtain ⟨q, hstep, hm, hcalls', hcur', -, htokens⟩ := parseStep_more line hspace
      (hnext hstate rfl) (by decide) (.inr ⟨by rw [hstate]; decide, rfl⟩) hcur htoken
      (show 1 < 127 by decide)
    refine ⟨q, hstep, h.moves hm htext (hcalls'.trans hcalls) ⟨hm.state, hcur', ?_, ?_⟩⟩
    · rw [htokens, Function.update_of_ne Nat.zero_ne_one, hkey]
    · rw [htokens, Function.update_self]
  | startEnv hname =>
    obtain ⟨hstate, hcur, hkey, htoken⟩ := hholds
    obtain ⟨q, hstep, hm, hcalls', hcur', -, htokens⟩ := parseStep_more line hspace
      (hnext hstate (if_pos hname)) (by decide) (.inr ⟨by rw [hstate]; decide, rfl⟩) hcur htoken
      (show 2 < 127 by decide)
    refine ⟨q, hstep, h.moves hm htext (hcalls'.trans hcalls) ⟨hm.state, hcur', hm.endOfToken, ?_,
      ?_⟩⟩
    · rw [htokens, Function.update_of_ne Nat.zero_ne_one, hkey]
    · rw [htokens, Function.update_self]
      rfl
  | env hname hlen =>
    obtain ⟨hstate, hcur, heot, hkey, htoken⟩ := hholds
    obtain ⟨q, hstep, hm, hcalls', hcur', -, htokens⟩ := parseStep_more line hspace
      (hnext hstate (if_pos hname)) (by decide) (.inl ⟨hstate.symm, heot⟩) hcur htoken
      (Nat.add_lt_add_left hlen 2)
    refine ⟨q, hstep, h.moves hm htext (hcalls'.trans hcalls) ⟨hm.state, hcur', hm.endOfToken, ?_,
      ?_⟩⟩
    · rw [htokens, Function.update_of_ne Nat.zero_ne_one, hkey]
    · rw [htokens, Function.update_self, List.length_append]
      rfl
  | endEnv hlen =>
    obtain ⟨hstate, hcur, -, hkey, htoken⟩ := hholds
    obtain ⟨q, hstep, hm, hcalls', hcur', -, htokens⟩ := parseStep_more line hspace
      (hnext hstate rfl) (by decide) (.inr ⟨by rw [hstate]; decide, rfl⟩) hcur htoken
      (Nat.add_lt_add_left hlen 2)
    refine ⟨q, hstep, h.moves hm htext (hcalls'.trans hcalls) ⟨hm.state, hcur', ?_, ?_⟩⟩
    · rw [htokens, Function.update_of_ne Nat.zero_ne_one, hkey]
    · rw [htokens, Function.update_self]
      exact congrArg (Token.mk _) (Nat.add_right_comm 2 _ 1)

/-- Byte 255 reads the end of the line from the row after that of the state. -/
theorem Follows.past (h : Follows σ p) (hopen : σ.Open) (hline : line = σ.text ++ 255 :: suf) :
    ∃ p', parseStep line p 255 = .ok p' ∧ Follows (.past σ []) p' := by
  have hcalls := h.calls
  have hnext : ∀ {st}, p.state = st → st.nextRow.map (parserStateTable · 0) = some .endline →
      parserNextState p.state 255 = some .endline := fun hst hrow => by
    rw [hst]
    exact hrow
  have hstep : ∀ {st}, p.state = st → st ≠ .endline →
      st.nextRow.map (parserStateTable · 0) = some .endline → _ := fun hst hne hrow =>
    parseStep_end line rfl (hnext hst hrow) (by decide)
      (by rw [hst]; exact hne.symm) (.inr (.inr (.inr rfl)))
  cases σ with
  | name a b n c =>
    obtain ⟨hstate, hcur, -, htoken⟩ := h.holds
    obtain ⟨q, hstep, hm, hcur', -, -, hcalls'⟩ := hstep hstate (by decide) rfl
    refine ⟨q, hstep, h.moves hm rfl ?_ ⟨hm.state, hcur'⟩⟩
    have hname : (p.tokens 0).text line = n := by
      rw [htoken, hline, show (name a b n c).text ++ 255 :: suf
        = a ++ chr '[' :: b ++ n ++ (c ++ 255 :: suf) by simp [text]]
      exact Token.text_append ..
    simp only [hcalls', hcur, endToken, hstate, hcalls, hname, Shape.calls, List.nil_append]
  | equal s =>
    obtain ⟨hstate, hcur, -, -⟩ := h.holds
    obtain ⟨q, hstep, hm, hcur', -, -, hcalls'⟩ := hstep hstate (by decide) rfl
    refine ⟨q, hstep, h.moves hm rfl ?_ ⟨hm.state, hcur'⟩⟩
    simp only [hcalls', hcur, hcalls, Shape.calls]
  | envKey s x y n z =>
    obtain ⟨hstate, hcur, -, -⟩ := h.holds
    obtain ⟨q, hstep, hm, hcur', -, -, hcalls'⟩ := hstep hstate (by decide) rfl
    refine ⟨q, hstep, h.moves hm rfl ?_ ⟨hm.state, hcur'⟩⟩
    simp only [hcalls', hcur, endToken, hstate, hcalls, Shape.calls, List.nil_append]
  | _ => exact hopen.elim

theorem parseStep_of_error {e : ParseError} (hspace : isspace ch = false)
    (h : parseChar line p ch = .error e) : parseStep line p ch = .error e := by
  simp only [parseStep, hspace, Bool.false_eq_true, if_false, h]
  rfl

/-- A character that the row has no state for. -/
theorem parseChar_error (hnext : parserNextState p.state ch = some .error) :
    parseChar line p ch = .error (syntaxError p) := by
  simp only [parseChar, hnext, if_true]

/-- One more character of a token that has ended. -/
theorem parseChar_ended (hnext : parserNextState p.state ch = some p.state) (hs : p.state ≠ .error)
    (heot : p.endOfToken = true) : parseChar line p ch = .error (syntaxError p) := by
  simp only [parseChar, hnext, hs, if_false, ne_eq, not_true_eq_false, heot, if_true]

/-- Byte 255 where it cannot end a line. -/
theorem Follows.stuck_of_closed (line : List Byte) (h : Follows σ p) (hclosed : ¬ σ.Open) :
    ∃ e, parseChar line p 255 = .error e ∧ e.stop = σ.stop 255 := by
  have hholds := h.holds
  have hrow : ∀ {st}, p.state = st → st.nextRow.map (parserStateTable · 0) = some .error →
      σ.stop 255 = .unexpected → ∃ e, parseChar line p 255 = .error e ∧ e.stop = σ.stop 255 :=
    fun hst hrow hstop =>
      ⟨syntaxError p, parseChar_error (by rw [hst]; exact hrow), hstop.symm⟩
  cases σ with
  | name | equal | envKey => exact absurd trivial hclosed
  | past q d =>
    refine ⟨.undefined, ?_, rfl⟩
    have hnext : parserNextState p.state 255 = none := by
      rw [hholds.1]
      rfl
    simp only [parseChar, hnext]
  | key a k b =>
    have hname : ¬ (isName 255 = true ∧ b = []) := fun h => nomatch h.1
    exact hrow hholds.1 rfl (by rw [stop, if_neg hname])
  | value s v d =>
    have hvalue : ¬ (isValue 255 = true ∧ d = []) := fun h => nomatch h.1
    exact hrow hholds.1 rfl (by rw [stop, if_neg hvalue])
  | _ => exact hrow hholds.1 rfl rfl

/-- A character that does not belong to any part. -/
theorem Follows.stuck_of_grow (line : List Byte) (h : Follows σ p) (hch : ch ≠ 0) (h255 : ch ≠ 255)
    (hnone : σ.grow ch = none) : ∃ e, parseChar line p ch = .error e ∧ e.stop = σ.stop ch := by
  have hholds := h.holds
  have hnext : ∀ {st s}, p.state = st → parserStateTable st ch = s →
      parserNextState p.state ch = some s := fun hst hs => by
    rw [parserNextState, if_neg h255, hst, hs]
  have herror : ∀ {st}, p.state = st → parserStateTable st ch = .error →
      σ.stop ch = .unexpected → ∃ e, parseChar line p ch = .error e ∧ e.stop = σ.stop ch :=
    fun hst hs hstop => ⟨_, parseChar_error (hnext hst hs), hstop.symm⟩
  -- a token goes on: it has ended, or it is as long as it may be
  have hagain : ∀ {st i len} {gap : List Byte}, p.state = st → parserStateTable st ch = st →
      st ≠ .error → p.curToken = some i → p.endOfToken = !gap.isEmpty → (p.tokens i).len = len →
      ¬ (gap = [] ∧ len < 127) → σ.stop ch = (if gap = [] then .longToken else .unexpected) →
      ∃ e, parseChar line p ch = .error e ∧ e.stop = σ.stop ch := by
    intro st i len gap hst hs hne hcur heot htoken hfull hstop
    have hself := hnext hst (hs.trans hst.symm)
    cases gap with
    | cons => exact ⟨_, parseChar_ended hself (hst ▸ hne) heot, hstop.symm⟩
    | nil =>
      obtain ⟨q, hlong⟩ := countChar_long (s := p.state) hcur
        (htoken ▸ Nat.le_of_not_lt fun hlt => hfull ⟨rfl, hlt⟩)
      refine ⟨.longToken q, ?_, hstop.symm⟩
      rw [parseChar_stay line hself (hst ▸ hne) heot, hlong]
  cases σ with
  | start a =>
    simp only [grow] at hnone
    split_ifs at hnone with hopen hletter
    refine herror hholds.1 ?_ rfl
    rw [parserStateTable, if_neg hch, if_neg hopen, if_neg hletter]
  | opener a b =>
    simp only [grow] at hnone
    split_ifs at hnone with hname
    exact herror hholds.1 (if_neg hname) rfl
  | name a b n c =>
    obtain ⟨hstate, hcur, heot, htoken⟩ := hholds
    simp only [grow] at hnone
    split_ifs at hnone with hname hlen hclose
    · apply hagain hstate (if_pos hname) (by decide) hcur heot (congrArg Token.len htoken) hlen
      simp only [stop, hname, true_and]
    · refine herror hstate ?_ (if_neg fun h => hname h.1)
      rw [parserStateTable, if_neg hname, if_neg hclose]
  | closer => exact herror hholds.1 (if_neg hch) rfl
  | key a k b =>
    obtain ⟨hstate, hcur, heot, -, htoken⟩ := hholds
    simp only [grow] at hnone
    split_ifs at hnone with hname hlen hequal
    · apply hagain hstate (if_pos hname) (by decide) hcur heot (congrArg Token.len htoken) hlen
      simp only [stop, hname, true_and]
    · refine herror hstate ?_ (if_neg fun h => hname h.1)
      rw [parserStateTable, if_neg hname, if_neg hequal]
  | equal s =>
    simp only [grow] at hnone
    split_ifs at hnone with hvalue hdollar
    refine herror hholds.1 ?_ rfl
    rw [parserStateTable, if_neg hvalue, if_neg hdollar]
  | value s v d =>
    obtain ⟨hstate, hcur, heot, -, htoken⟩ := hholds
    simp only [grow] at hnone
    split_ifs at hnone with hvalue hlen
    · have htable : parserStateTable .propValue ch = .propValue := by
        rw [parserStateTable, if_neg hch, if_pos hvalue]
      apply hagain hstate htable (by decide) hcur heot (congrArg Token.len htoken) hlen
      simp only [stop, hvalue, true_and]
    · refine herror hstate ?_ (if_neg fun h => hvalue h.1)
      rw [parserStateTable, if_neg hch, if_neg hvalue]
  | dollar s x =>
    simp only [grow] at hnone
    split_ifs at hnone with hbrace
    exact herror hholds.1 (if_neg hbrace) rfl
  | brace s x y =>
    simp only [grow] at hnone
    split_ifs at hnone with hname
    exact herror hholds.1 (if_neg hname) rfl
  | envKey s x y n z =>
    obtain ⟨hstate, hcur, heot, -, htoken⟩ := hholds
    simp only [grow] at hnone
    split_ifs at hnone with hname hlen hclose hlen
    · refine hagain hstate (if_pos hname) (by decide) hcur heot (congrArg Token.len htoken) ?_ ?_
      · rintro ⟨hz, hlt⟩
        exact hlen ⟨hz, by change 2 + n.length < 127 at hlt; omega⟩
      · have hbrace : ch ≠ chr '}' := by
          rintro rfl
          exact absurd hname (by decide)
        simp only [stop, hname, true_and, hbrace, or_false]
    · -- the brace is one character too many
      obtain ⟨q, hlong⟩ := countChar_long (s := .envCloser)
        (p := { p with endOfToken := false }) hcur
        (by rw [htoken]; exact Nat.add_le_add_left (Nat.le_of_not_lt hlen) 2)
      refine ⟨.longToken q, ?_, (if_pos (.inr hclose)).symm⟩
      have hbrace : parserNextState p.state ch = some .envCloser :=
        hnext hstate (by rw [hclose]; rfl)
      rw [parseChar_enter line hbrace (by decide) (by rw [hstate]; decide)]
      exact hlong
    · refine herror hstate ?_ (if_neg fun h => h.elim (fun h => hname h.1) hclose)
      rw [parserStateTable, if_neg hname, if_neg hclose]
  | envEnd => exact herror hholds.1 (if_neg hch) rfl
  | past => exact herror hholds.1 rfl (if_neg h255)

/-- **The parser is stuck where the parts are**, and for the same reason. -/
theorem Follows.stuck (line : List Byte) (h : Follows σ p) (hnone : σ.next ch = none) (hch : ch ≠ 0) :
    ∃ e, parseStep line p ch = .error e ∧ e.stop = σ.stop ch := by
  have hspace : isspace ch = false := by
    by_contra hspace
    rw [next_pad σ (Bool.eq_true_of_not_eq_false hspace)] at hnone
    cases hnone
  suffices hchar : ∃ e, parseChar line p ch = .error e ∧ e.stop = σ.stop ch by
    obtain ⟨e, hchar, he⟩ := hchar
    exact ⟨e, parseStep_of_error hspace hchar, he⟩
  simp only [next, hspace, Bool.false_eq_true, if_false] at hnone
  by_cases h255 : ch = 255
  · subst h255
    rw [if_pos rfl] at hnone
    refine h.stuck_of_closed line ?_
    intro hopen
    rw [if_pos hopen] at hnone
    cases hnone
  · rw [if_neg h255] at hnone
    exact h.stuck_of_grow line hch h255 hnone

/-- The calls of the handlers for a line that is at its end. The text of a reference is as long as
its characters are many. -/
def Shape.final : Shape → Option (List HandlerCall)
  | .start _ => some []
  | .closer _ _ n _ _ => some [.sectionDefined n]
  | .value s v _ => some [.propertyDefined s.key v]
  | .envEnd s x y n z d => some [.envRefered s.key
    ((chr '$' :: x ++ chr '{' :: y ++ n ++ z ++ chr '}' :: d).take (3 + n.length))]
  | _ => none

theorem Assign.keyToken_text (s : Assign) (rest : List Byte) :
    s.keyToken.text (s.text ++ rest) = s.key := by
  rw [show s.text ++ rest = s.lead ++ s.key ++ (s.before ++ chr '=' :: s.after ++ rest) by
    simp [Assign.text]]
  exact Token.text_append ..

/-- **The end of a line.** -/
theorem Follows.final (h : Follows σ p) :
    (∀ calls, σ.final = some calls → ∃ q, parseStep σ.text p 0 = .ok q ∧ q.calls = calls) ∧
      (σ.final = none → ∃ e, parseStep σ.text p 0 = .error e ∧ e.stop = .unexpected) := by
  have hcalls := h.calls
  have hholds := h.holds
  have hnext : ∀ {st s}, p.state = st → parserStateTable st 0 = s →
      parserNextState p.state 0 = some s := fun hst hs => by
    rw [parserNextState, if_neg (by decide), hst, hs]
  have hspace : isspace 0 = false := rfl
  have herror : ∀ {st}, p.state = st → parserStateTable st 0 = .error → σ.final = none →
      (∀ calls, σ.final = some calls → ∃ q, parseStep σ.text p 0 = .ok q ∧ q.calls = calls) ∧
        (σ.final = none → ∃ e, parseStep σ.text p 0 = .error e ∧ e.stop = .unexpected) :=
    fun hst hs hfinal => ⟨fun calls hsome => (nomatch hfinal.symm.trans hsome), fun _ =>
      ⟨_, parseStep_of_error hspace (parseChar_error (hnext hst hs)), rfl⟩⟩
  have hend : ∀ {st}, p.state = st → st ≠ .endline → parserStateTable st 0 = .endline → _ :=
    fun hst hne hs => parseStep_end σ.text hspace (hnext hst hs)
      (by decide) (by rw [hst]; exact hne.symm) (.inr (.inr (.inr rfl)))
  cases σ with
  | start a =>
    obtain ⟨q, hstep, -, -, -, -, hcalls'⟩ := hend hholds.1 (by decide) rfl
    refine ⟨fun calls hsome => ⟨q, hstep, ?_⟩, nofun⟩
    obtain rfl := Option.some.inj hsome
    rw [hcalls']
    cases p.curToken <;> simp [endToken, hholds.1, hcalls, Shape.calls]
  | closer a b n c d =>
    obtain ⟨q, hstep, -, -, -, -, hcalls'⟩ := hend hholds.1 (by decide) rfl
    refine ⟨fun calls hsome => ⟨q, hstep, ?_⟩, nofun⟩
    obtain rfl := Option.some.inj hsome
    simp only [hcalls', hholds.2, hcalls, Shape.calls]
  | value s v d =>
    obtain ⟨hstate, hcur, -, hkey, htoken⟩ := hholds
    obtain ⟨q, hstep, -, -, -, -, hcalls'⟩ := hend hstate (by decide) rfl
    refine ⟨fun calls hsome => ⟨q, hstep, ?_⟩, nofun⟩
    obtain rfl := Option.some.inj hsome
    have hkeyText : (p.tokens 0).text (value s v d).text = s.key := by
      rw [hkey, show (value s v d).text = s.text ++ (v ++ d) from List.append_assoc ..]
      exact s.keyToken_text _
    have hvalue : (p.tokens 1).text (value s v d).text = v := by
      rw [htoken]
      exact Token.text_append ..
    simp only [hcalls', hcur, endToken, hstate, hcalls, Shape.calls, List.nil_append, Nat.sub_self,
      hkeyText, hvalue]
  | envEnd s x y n z d =>
    obtain ⟨hstate, hcur, hkey, htoken⟩ := hholds
    obtain ⟨q, hstep, -, -, -, -, hcalls'⟩ := hend hstate (by decide) rfl
    refine ⟨fun calls hsome => ⟨q, hstep, ?_⟩, nofun⟩
    obtain rfl := Option.some.inj hsome
    have htext : (envEnd s x y n z d).text
        = s.text ++ (chr '$' :: x ++ chr '{' :: y ++ n ++ z ++ chr '}' :: d) := by simp [text]
    have hkeyText : (p.tokens 0).text (envEnd s x y n z d).text = s.key := by
      rw [hkey, htext]
      exact s.keyToken_text _
    have hreference : (p.tokens 1).text (envEnd s x y n z d).text
        = (chr '$' :: x ++ chr '{' :: y ++ n ++ z ++ chr '}' :: d).take (3 + n.length) := by
      rw [htoken, htext, Token.text, List.drop_left]
    simp only [hcalls', hcur, endToken, hstate, hcalls, Shape.calls, List.nil_append, Nat.sub_self,
      hkeyText, hreference]
  | _ => exact herror hholds.1 rfl rfl

/-- A line is read as `σ` up to `ch`, which makes nothing of it. -/
def StopsAt (line : List Byte) (σ : Shape) (ch : Byte) : Prop :=
  σ.Valid ∧ σ.next ch = none ∧ ∃ rest, line = σ.text ++ ch :: rest

/-- **The parser reads a line as its parts are read.** -/
theorem Follows.run (h : Follows σ p) (hσ : σ.Valid) (hline : line = σ.text ++ suf)
    (hzero : (0 : Byte) ∉ suf) :
    (∃ τ q, τ.Valid ∧ τ.text = line ∧ suf.foldlM (parseStep line) p = .ok q ∧ Follows τ q) ∨
      ∃ e τ ch, suf.foldlM (parseStep line) p = .error e ∧ StopsAt line τ ch ∧ e.stop = τ.stop ch := by
  induction suf generalizing σ p with
  | nil => exact .inl ⟨σ, p, hσ, (hline.trans (List.append_nil _)).symm, rfl, h⟩
  | cons ch suf ih =>
    have hch : ch ≠ 0 := fun hch => hzero (hch ▸ List.mem_cons_self)
    cases hnext : σ.next ch with
    | none =>
      obtain ⟨e, hstep, he⟩ := h.stuck line hnext hch
      refine .inr ⟨e, σ, ch, ?_, ⟨hσ, hnext, suf, hline⟩, he⟩
      rw [List.foldlM_cons, hstep]
      rfl
    | some ρ =>
      have hstep : ∃ p', parseStep line p ch = .ok p' ∧ Follows ρ p' := by
        rcases next_cases hnext with ⟨hspace, rfl⟩ | ⟨rfl, hopen, rfl⟩ | hgrows
        · exact h.pad hspace
        · exact h.past hopen hline
        · exact h.grows hgrows hline
      obtain ⟨p', hstep, hρ⟩ := hstep
      have hfold : (ch :: suf).foldlM (parseStep line) p = suf.foldlM (parseStep line) p' := by
        rw [List.foldlM_cons, hstep]
        rfl
      have hline' : line = ρ.text ++ suf := by
        rw [hline, next_text hnext, List.append_assoc]
        rfl
      rw [hfold]
      exact ih hρ (next_valid hσ hnext) hline' fun hmem => hzero (List.mem_cons_of_mem _ hmem)

/-- What a text is read as, it is read as before its last part. -/
theorem Shape.next_of_text {σ τ : Shape} {ch : Byte} {rest : List Byte} (hσ : σ.Valid) (hτ : τ.Valid)
    (h : τ.text = σ.text ++ ch :: rest) : σ.next ch ≠ none := by
  have hread := read_text τ hτ
  rw [h, Shape.read, List.foldlM_append, ← Shape.read, read_text σ hσ] at hread
  intro hnone
  rw [Option.bind_eq_bind, Option.bind_some, List.foldlM_cons, hnone] at hread
  cases hread

/-- A line has one place where it stops, or none. -/
theorem StopsAt.text_ne {line : List Byte} {σ τ : Shape} {ch : Byte} (h : StopsAt line σ ch)
    (hτ : τ.Valid) : τ.text ≠ line := by
  obtain ⟨hσ, hnone, rest, rfl⟩ := h
  exact fun htext => Shape.next_of_text hσ hτ htext hnone

theorem StopsAt.unique {line : List Byte} {σ τ : Shape} {ch ch' : Byte} (h : StopsAt line σ ch)
    (h' : StopsAt line τ ch') : σ = τ ∧ ch = ch' := by
  obtain ⟨hσ, hnone, rest, hline⟩ := h
  obtain ⟨hτ, hnone', rest', hline'⟩ := h'
  rcases List.append_eq_append_iff.mp (hline.symm.trans hline') with
    ⟨mid, htext, hrest⟩ | ⟨mid, htext, hrest⟩
  · cases mid with
    | nil =>
      rw [List.append_nil] at htext
      have hsame : σ = τ :=
        Option.some.inj ((read_text σ hσ).symm.trans (htext ▸ read_text τ hτ))
      exact ⟨hsame, (List.cons.inj hrest).1⟩
    | cons c mid =>
      obtain ⟨rfl, -⟩ := List.cons.inj hrest
      exact absurd hnone (Shape.next_of_text hσ hτ htext)
  · cases mid with
    | nil =>
      rw [List.append_nil] at htext
      have hsame : σ = τ :=
        Option.some.inj ((read_text σ hσ).symm.trans (htext ▸ read_text τ hτ))
      exact ⟨hsame, (List.cons.inj hrest).1.symm⟩
    | cons c mid =>
      obtain ⟨rfl, -⟩ := List.cons.inj hrest
      exact absurd hnone' (Shape.next_of_text hτ hσ htext)

/-- Byte 255 comes twice where the table has no column for it, with white space between. -/
def PastTable (line : List Byte) : Prop :=
  ∃ q d rest, (Shape.past q d).Valid ∧ line = (Shape.past q d).text ++ 255 :: rest

/-- A character that goes on with a token that is as long as it may be. -/
def Shape.Full : Shape → Byte → Prop
  | .name _ _ n c, ch | .key _ n c, ch => isName ch ∧ c = [] ∧ n.length = 127
  | .value _ v d, ch => isValue ch ∧ d = [] ∧ v.length = 127
  | .envKey _ _ _ n z, ch => ((isName ch ∧ z = []) ∨ ch = chr '}') ∧ n.length = 125
  | _, _ => False

/-- A line has a token of more than 127 characters. -/
def LongToken (line : List Byte) : Prop :=
  ∃ σ ch rest, σ.Valid ∧ Shape.Full σ ch ∧ line = σ.text ++ ch :: rest

theorem pastTable_iff {line : List Byte} :
    PastTable line ↔ ∃ σ ch, StopsAt line σ ch ∧ σ.stop ch = .outside := by
  refine ⟨?_, ?_⟩
  · rintro ⟨q, d, rest, hvalid, hline⟩
    exact ⟨.past q d, 255, ⟨hvalid, rfl, rest, hline⟩, rfl⟩
  · rintro ⟨σ, ch, ⟨hvalid, hnone, rest, hline⟩, hstop⟩
    cases σ with
    | past q d =>
      simp only [stop] at hstop
      split_ifs at hstop with h255
      subst h255
      exact ⟨q, d, rest, hvalid, hline⟩
    | name | key | value | envKey =>
      simp only [stop] at hstop
      split_ifs at hstop
    | _ => cases hstop

theorem longToken_iff {line : List Byte} :
    LongToken line ↔ ∃ σ ch, StopsAt line σ ch ∧ σ.stop ch = .longToken := by
  have hgrow : ∀ {σ : Shape} {ch : Byte}, isValue ch = true → σ.next ch = σ.grow ch := by
    intro σ ch hch
    obtain ⟨hspace, h255, -⟩ := isValue_plain ch hch
    rw [Shape.next, if_neg (by rw [hspace]; exact Bool.false_ne_true), if_neg h255]
  refine ⟨?_, ?_⟩
  · rintro ⟨σ, ch, rest, hvalid, hfull, hline⟩
    suffices h : σ.next ch = none ∧ σ.stop ch = .longToken from
      ⟨σ, ch, ⟨hvalid, h.1, rest, hline⟩, h.2⟩
    cases σ with
    | name a b n c | key a n b =>
      obtain ⟨hname, rfl, hlen⟩ := hfull
      refine ⟨?_, if_pos ⟨hname, rfl⟩⟩
      rw [hgrow (isValue_of_isName hname), grow, if_pos hname, if_neg fun h => hlen.not_lt h.2]
    | value s v d =>
      obtain ⟨hvalue, rfl, hlen⟩ := hfull
      refine ⟨?_, if_pos ⟨hvalue, rfl⟩⟩
      rw [hgrow hvalue, grow, if_pos hvalue, if_neg fun h => hlen.not_lt h.2]
    | envKey s x y n z =>
      obtain ⟨hch, hlen⟩ := hfull
      refine ⟨?_, if_pos hch⟩
      rcases hch with ⟨hname, rfl⟩ | rfl
      · rw [hgrow (isValue_of_isName hname), grow, if_pos hname, if_neg fun h => hlen.not_lt h.2]
      · exact if_neg hlen.not_lt
    | _ => exact hfull.elim
  · rintro ⟨σ, ch, ⟨hvalid, hnone, rest, hline⟩, hstop⟩
    refine ⟨σ, ch, rest, hvalid, ?_, hline⟩
    cases σ with
    | name a b n c =>
      obtain ⟨-, -, hn, -⟩ := hvalid
      simp only [stop] at hstop
      split_ifs at hstop with hch
      obtain ⟨hname, rfl⟩ := hch
      rw [hgrow (isValue_of_isName hname), grow, if_pos hname] at hnone
      split_ifs at hnone with hlen
      exact ⟨hname, rfl, le_antisymm hn.length_le (Nat.le_of_not_lt fun h => hlen ⟨rfl, h⟩)⟩
    | key a n b =>
      obtain ⟨-, hn, -⟩ := hvalid
      simp only [stop] at hstop
      split_ifs at hstop with hch
      obtain ⟨hname, rfl⟩ := hch
      rw [hgrow (isValue_of_isName hname), grow, if_pos hname] at hnone
      split_ifs at hnone with hlen
      exact ⟨hname, rfl, le_antisymm hn.length_le (Nat.le_of_not_lt fun h => hlen ⟨rfl, h⟩)⟩
    | value s v d =>
      obtain ⟨-, hv, -⟩ := hvalid
      simp only [stop] at hstop
      split_ifs at hstop with hch
      obtain ⟨hvalue, rfl⟩ := hch
      rw [hgrow hvalue, grow, if_pos hvalue] at hnone
      split_ifs at hnone with hlen
      exact ⟨hvalue, rfl, le_antisymm hv.length_le (Nat.le_of_not_lt fun h => hlen ⟨rfl, h⟩)⟩
    | envKey s x y n z =>
      obtain ⟨-, -, -, hn, -⟩ := hvalid
      simp only [stop] at hstop
      split_ifs at hstop with hch
      refine ⟨hch, le_antisymm hn.length_le (Nat.le_of_not_lt ?_)⟩
      intro hlt
      rcases hch with ⟨hname, rfl⟩ | rfl
      · rw [hgrow (isValue_of_isName hname), grow, if_pos hname, if_pos ⟨rfl, hlt⟩] at hnone
        cases hnone
      · rw [show (envKey s x y n z).next (chr '}') = some (.envEnd s x y n z []) from
          if_pos hlt] at hnone
        cases hnone
    | past q d =>
      simp only [stop] at hstop
      split_ifs at hstop
    | _ => cases hstop

theorem follows_newline (p : Parser) : Follows (.start []) (parserNewline p) :=
  ⟨rfl, rfl, rfl, rfl⟩

theorem parseLine_eq (p : Parser) (line : List Byte) :
    parseLine p line = line.foldlM (parseStep line) (parserNewline p) >>= (parseStep line · 0) := by
  rw [parseLine, List.foldlM_append]
  congr 1
  funext q
  rw [List.foldlM_cons]
  cases parseStep line q 0 <;> rfl

/-- **What becomes of a line**: it is of a shape that is at its end, or of one that is not, or it
stops. -/
theorem parseLine_cases (p : Parser) (hzero : (0 : Byte) ∉ line) :
    (∃ (σ : Shape) (calls : List HandlerCall) (q : Parser), σ.Valid ∧ σ.text = line ∧
        σ.final = some calls ∧ parseLine p line = .ok q ∧ q.calls = calls) ∨
      ∃ e, parseLine p line = .error e ∧
        ((e.stop = .unexpected ∧ ∃ σ : Shape, σ.Valid ∧ σ.text = line ∧ σ.final = none) ∨
          ∃ σ ch, StopsAt line σ ch ∧ e.stop = σ.stop ch) := by
  rw [parseLine_eq]
  have hline : line = (Shape.start []).text ++ line := rfl
  rcases (follows_newline p).run Blanks.nil hline hzero with
    ⟨τ, q, hτ, rfl, hrun, hfollows⟩ | ⟨e, τ, ch, hrun, hstops, he⟩
  · obtain ⟨hok, herror⟩ := hfollows.final
    rw [hrun]
    cases hfinal : τ.final with
    | some calls =>
      obtain ⟨q', hstep, hcalls⟩ := hok calls hfinal
      exact .inl ⟨τ, calls, q', hτ, rfl, hfinal, hstep, hcalls⟩
    | none =>
      obtain ⟨e, hstep, he⟩ := herror hfinal
      exact .inr ⟨e, hstep, .inl ⟨he, τ, hτ, rfl, hfinal⟩⟩
  · rw [hrun]
    exact .inr ⟨e, rfl, .inr ⟨τ, ch, hstops, he⟩⟩

/-- A line of a shape that is at its end is accepted, and its handlers are called. -/
theorem parseLine_of_final (p : Parser) (hvalid : σ.Valid) (hzero : (0 : Byte) ∉ σ.text)
    {calls : List HandlerCall} (hfinal : σ.final = some calls) :
    ∃ q, parseLine p σ.text = .ok q ∧ q.calls = calls := by
  have hsame : ∀ τ : Shape, τ.Valid → τ.text = σ.text → τ = σ := fun τ hτ htext =>
    Option.some.inj ((htext ▸ read_text τ hτ).symm.trans (read_text σ hvalid))
  rcases parseLine_cases p hzero with ⟨τ, calls', q, hτ, htext, hfinal', hok, hcalls⟩ |
    ⟨e, -, ⟨-, τ, hτ, htext, hfinal'⟩ | ⟨τ, ch, hstops, -⟩⟩
  · obtain rfl := hsame τ hτ htext
    obtain rfl : calls' = calls := Option.some.inj (hfinal'.symm.trans hfinal)
    exact ⟨q, hok, hcalls⟩
  · obtain rfl := hsame τ hτ htext
    rw [hfinal'] at hfinal
    cases hfinal
  · exact absurd rfl (hstops.text_ne hvalid)

/-- A line that is not accepted stops where its error says. -/
theorem parseLine_error {e : ParseError} (hzero : (0 : Byte) ∉ line)
    (h : parseLine p line = .error e) {k : Stop} (hk : k ≠ .unexpected) :
    e.stop = k ↔ ∃ σ ch, StopsAt line σ ch ∧ σ.stop ch = k := by
  rcases parseLine_cases p hzero with ⟨-, -, q, -, -, -, hok, -⟩ |
    ⟨e', herror, ⟨he, τ, hτ, htext, -⟩ | ⟨τ, ch, hstops, he⟩⟩
  · cases hok.symm.trans h
  · obtain rfl := Except.error.inj (herror.symm.trans h)
    refine ⟨fun hek => absurd (hek.symm.trans he) hk, ?_⟩
    rintro ⟨σ, ch, hstops, -⟩
    exact absurd htext (hstops.text_ne hτ)
  · obtain rfl := Except.error.inj (herror.symm.trans h)
    refine ⟨fun hek => ⟨τ, ch, hstops, he.symm.trans hek⟩, ?_⟩
    rintro ⟨σ, c, hstops', hc⟩
    obtain ⟨rfl, rfl⟩ := hstops'.unique hstops
    exact he.trans hc

/-- A line that stops is not accepted. -/
theorem StopsAt.parseLine_ne_ok (h : StopsAt line σ ch) (hzero : (0 : Byte) ∉ line) (q : Parser) :
    parseLine p line ≠ .ok q := by
  intro hok
  rcases parseLine_cases p hzero with ⟨τ, -, -, hτ, htext, -⟩ | ⟨e, herror, -⟩
  · exact h.text_ne hτ htext
  · cases hok.symm.trans herror

end Follows

/-! ## What is accepted -/

/-- A reference with white space between its dollar sign, its braces and its name. -/
def SplitReference (line : List Byte) : Prop :=
  ∃ s x y n z d, (Shape.envEnd s x y n z d).Valid ∧ x ++ y ++ z ≠ [] ∧
    line = (Shape.envEnd s x y n z d).text

/-- The parser accepts a line if it is written as the grammar says, and then calls the handlers
with its tokens. -/
structure GrammarAgrees (p : Parser) (line : List Byte) : Prop where
  defined : parseLine p line ≠ .error .undefined
  accepted : ∀ q, parseLine p line = .ok q → ∃ l : Line, l.WellFormed ∧ l.Reads line
  handled : ∀ l : Line, l.WellFormed → l.Reads line → ∃ q, parseLine p line = .ok q ∧ q.calls = l.calls

section GrammarAgrees

variable {p : Parser} {line : List Byte}

/-- A line that is written as the grammar says is of a shape that is at its end. -/
theorem Line.Reads.shape {l : Line} (hwf : l.WellFormed) (h : l.Reads line) :
    ∃ σ : Shape, σ.Valid ∧ σ.text = line ∧ σ.final = some l.calls := by
  cases h with
  | @blank a ha => exact ⟨.start line, ha, rfl, rfl⟩
  | @header a b name c d ha hb hc hd => exact ⟨.closer a b name c d, ⟨ha, hb, hwf, hc, hd⟩, rfl, rfl⟩
  | @property a key b c value d ha hb hc hd =>
    exact ⟨.value ⟨a, key, b, c⟩ value d, ⟨⟨ha, hwf.1, hb, hc⟩, hwf.2, hd⟩, rfl, rfl⟩
  | @reference a key b c name d ha hb hc hd =>
    refine ⟨.envEnd ⟨a, key, b, c⟩ [] [] name [] d,
      ⟨⟨ha, hwf.1, hb, hc⟩, .nil, .nil, hwf.2, .nil, hd⟩, ?_, ?_⟩
    · simp [Shape.text, Assign.text, referenceText]
    · have htake : (chr '$' :: [] ++ chr '{' :: [] ++ name ++ [] ++ chr '}' :: d).take
          (3 + name.length) = referenceText name := by
        rw [show chr '$' :: [] ++ chr '{' :: [] ++ name ++ [] ++ chr '}' :: d
          = referenceText name ++ d by simp [referenceText]]
        exact List.take_left' (by simp [referenceText]; omega)
      simp only [Shape.final, htake, Line.calls]

/-- A line of a shape that is at its end is written as the grammar says, or has a reference in
pieces. -/
theorem Shape.reads_of_final {σ : Shape} (hvalid : σ.Valid) {calls : List HandlerCall}
    (hfinal : σ.final = some calls) (hwhole : ¬ SplitReference σ.text) :
    ∃ l : Line, l.WellFormed ∧ l.Reads σ.text := by
  cases σ with
  | start a => exact ⟨.blank, trivial, .blank hvalid⟩
  | closer a b n c d =>
    obtain ⟨ha, hb, hn, hc, hd⟩ := hvalid
    exact ⟨.header n, hn, .header ha hb hc hd⟩
  | value s v d =>
    obtain ⟨⟨ha, hk, hb, hc⟩, hv, hd⟩ := hvalid
    exact ⟨.property s.key v, ⟨hk, hv⟩, .property ha hb hc hd⟩
  | envEnd s x y n z d =>
    have hnil : x ++ y ++ z = [] := by
      by_contra hne
      exact hwhole ⟨s, x, y, n, z, d, hvalid, hne, rfl⟩
    obtain ⟨⟨ha, hk, hb, hc⟩, -, -, hn, -, hd⟩ := hvalid
    obtain ⟨⟨rfl, rfl⟩, rfl⟩ : (x = [] ∧ y = []) ∧ z = [] := by
      rwa [List.append_eq_nil_iff, List.append_eq_nil_iff] at hnil
    refine ⟨.reference s.key n, ⟨hk, hn⟩, ?_⟩
    have htext : (envEnd s [] [] n [] d).text
        = s.lead ++ s.key ++ s.before ++ chr '=' :: s.after ++ referenceText n ++ d := by
      simp [text, Assign.text, referenceText]
    rw [htext]
    exact .reference ha hb hc hd
  | _ => cases hfinal

/-- The name of a variable has no white space. -/
theorem not_isspace_of_mem_referenceText {name : List Byte} (h : Word isNameStart isName 124 name)
    {ch : Byte} (hch : ch ∈ referenceText name) : isspace ch = false := by
  have hname : ∀ ch ∈ name, isspace ch = false := by
    obtain ⟨c, w, rfl, hc, hw, -⟩ := h
    intro ch hch
    refine (isValue_plain ch (isValue_of_isName ?_)).1
    rcases List.mem_cons.mp hch with rfl | hch
    · exact isName_of_isNameStart hc
    · exact hw ch hch
  simp only [referenceText, List.cons_append, List.mem_cons, List.mem_append,
    List.not_mem_nil, or_false] at hch
  rcases hch with rfl | rfl | hch | rfl
  · rfl
  · rfl
  · exact hname ch hch
  · rfl

/-- What is handed over of a reference in pieces has white space in it. -/
theorem exists_isspace_of_split {x y n z : List Byte} (d : List Byte) (hx : Blanks x)
    (hy : Blanks y) (hz : Blanks z) (hne : x ++ y ++ z ≠ []) :
    ∃ ch ∈ (chr '$' :: x ++ chr '{' :: y ++ n ++ z ++ chr '}' :: d).take (3 + n.length),
      isspace ch = true := by
  rw [Nat.add_comm 3]
  cases x with
  | cons ch x => exact ⟨ch, by simp, hx ch List.mem_cons_self⟩
  | nil =>
    cases y with
    | cons ch y => exact ⟨ch, by simp, hy ch List.mem_cons_self⟩
    | nil =>
      cases z with
      | cons ch z => exact ⟨ch, by simp [List.take_append], hz ch List.mem_cons_self⟩
      | nil => exact absurd rfl hne

theorem not_grammarAgrees_of_split (hzero : (0 : Byte) ∉ line) (h : SplitReference line) :
    ¬ GrammarAgrees p line := by
  obtain ⟨s, x, y, n, z, d, hvalid, hne, rfl⟩ := h
  intro hagrees
  obtain ⟨q, hok, hcalls⟩ := parseLine_of_final p hvalid hzero rfl
  obtain ⟨l, hwf, hreads⟩ := hagrees.accepted q hok
  obtain ⟨q', hok', hcalls'⟩ := hagrees.handled l hwf hreads
  obtain rfl : q = q' := Except.ok.inj (hok.symm.trans hok')
  rw [hcalls] at hcalls'
  obtain ⟨-, hx, hy, -, hz, -⟩ := hvalid
  obtain ⟨ch, hmem, hspace⟩ := exists_isspace_of_split (n := n) d hx hy hz hne
  cases l with
  | reference key name =>
    obtain ⟨-, htext⟩ := HandlerCall.envRefered.inj (List.cons.inj hcalls').1
    rw [htext] at hmem
    rw [not_isspace_of_mem_referenceText hwf.2 hmem] at hspace
    cases hspace
  | blank => cases hcalls'
  | _ => cases (List.cons.inj hcalls').1

/-- **The grammar of a line.** A line without a zero byte is accepted exactly if it is written as
the grammar says, and the handlers are called with its tokens, unless it has a reference in pieces
or leaves the table. -/
theorem grammarAgrees_iff (p : Parser) (hzero : (0 : Byte) ∉ line) :
    GrammarAgrees p line ↔ ¬ SplitReference line ∧ ¬ PastTable line := by
  have hundefined : ∀ e, parseLine p line = .error e → (e = .undefined ↔ PastTable line) := by
    intro e herror
    rw [pastTable_iff, ← parseLine_error hzero herror (by decide)]
    cases e with
    | undefined => exact ⟨fun _ => rfl, fun _ => rfl⟩
    | _ => exact ⟨nofun, nofun⟩
  refine ⟨fun h => ⟨fun hsplit => not_grammarAgrees_of_split hzero hsplit h, ?_⟩, ?_⟩
  · intro hpast
    obtain ⟨σ, ch, hstops, -⟩ := pastTable_iff.mp hpast
    cases hparse : parseLine p line with
    | ok q => exact hstops.parseLine_ne_ok hzero q hparse
    | error e =>
      obtain rfl := (hundefined e hparse).mpr hpast
      exact h.defined hparse
  · rintro ⟨hwhole, hinside⟩
    refine ⟨fun h => hinside ((hundefined _ h).mp rfl), ?_, ?_⟩
    · intro q hok
      rcases parseLine_cases p hzero with ⟨σ, calls, -, hvalid, rfl, hfinal, -⟩ | ⟨e, herror, -⟩
      · exact σ.reads_of_final hvalid hfinal hwhole
      · cases herror.symm.trans hok
    · intro l hwf hreads
      obtain ⟨σ, hvalid, rfl, hfinal⟩ := hreads.shape hwf
      exact parseLine_of_final p hvalid hzero hfinal

/-- A parser that has read nothing. -/
def Parser.fresh : Parser where
  state := .init
  colNum := 0
  curTokenIdx := 0
  tokens _ := ⟨0, 0⟩
  curToken := none
  endOfToken := false
  calls := []

/-- A property with white space around its tokens. -/
theorem grammarAgrees_property : GrammarAgrees .fresh (ascii "IODEPTH = 4") := by
  refine (grammarAgrees_iff .fresh (by decide)).mpr ⟨?_, ?_⟩
  · rintro ⟨s, x, y, n, z, d, -, -, htext⟩
    have hmem : chr '$' ∈ ascii "IODEPTH = 4" := by
      rw [htext]
      simp [Shape.text]
    exact absurd hmem (by decide)
  · rintro ⟨q, d, rest, -, htext⟩
    have hmem : (255 : Byte) ∈ ascii "IODEPTH = 4" := by
      rw [htext]
      simp
    exact absurd hmem (by decide)

/-- **A reference in pieces is accepted.** The dollar sign and the brace are set apart, and what
the handler gets is not the text of the line. -/
theorem not_grammarAgrees_split : ¬ GrammarAgrees .fresh (ascii "K=$ \x7bN\x7d") := by
  have hword : Word isLetter isName 127 (ascii "K") := .single (by decide) (by decide)
  have hname : Word isNameStart isName 124 (ascii "N") := .single (by decide) (by decide)
  have hblank : Blanks (ascii " ") := List.forall_mem_singleton.mpr rfl
  refine not_grammarAgrees_of_split (by decide) ⟨⟨[], ascii "K", [], []⟩, ascii " ", [], ascii "N",
    [], [], ⟨⟨.nil, hword, .nil, .nil⟩, hblank, .nil, hname, .nil, .nil⟩, nofun, rfl⟩

end GrammarAgrees

end ChamberSpo

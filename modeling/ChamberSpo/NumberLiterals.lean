import ChamberSpo.Tokens
import Mathlib.Tactic.Push

/-!
# Number literals

What the tokens of `to_integer`, `to_bytes`, `to_seconds` and `to_percent` stand for as numbers,
and which of them are converted to what they stand for.

* `digitsValue` — the number that digits stand for.
* `IntegerLiteral`, `BytesLiteral`, `SecondsLiteral`, `PercentLiteral` — the tokens of each
  conversion, and their numbers.
* `Exact` — a token is converted to its number if that fits, and refused otherwise.

The conversions count in 64 bits, and percentages in 8, and do not look whether the number still
fits (`numbersExact_iff`).
-/

namespace ChamberSpo

/-! ## Digits -/

/-- The number that digits stand for. -/
def digitsValue (text : List Byte) : ℕ := text.foldl (fun v ch => v * 10 + digit ch) 0

/-- All of a text are digits. -/
def AllDigits (text : List Byte) : Prop := ∀ ch ∈ text, isdigit ch = true

instance (text : List Byte) : Decidable (AllDigits text) :=
  inferInstanceAs (Decidable (∀ ch ∈ text, isdigit ch = true))

/-- A number has a digit. -/
structure IsNumber (text : List Byte) : Prop where
  ne_nil : text ≠ []
  digits : AllDigits text

theorem digitsValue_snoc (text : List Byte) (ch : Byte) :
    digitsValue (text ++ [ch]) = digitsValue text * 10 + digit ch := by
  rw [digitsValue, List.foldl_append]
  rfl

/-- More digits make a number no smaller. -/
theorem digitsValue_le_of_prefix {p text : List Byte} (h : p <+: text) :
    digitsValue p ≤ digitsValue text := by
  obtain ⟨rest, rfl⟩ := h
  induction rest using List.reverseRecOn with
  | nil => rw [List.append_nil]
  | append_singleton rest ch ih =>
    rw [← List.append_assoc, digitsValue_snoc]
    omega

theorem AllDigits.snoc {text : List Byte} {ch : Byte} (h : AllDigits text)
    (hch : isdigit ch = true) : AllDigits (text ++ [ch]) := by
  intro c hc
  rcases List.mem_append.mp hc with hc | hc
  · exact h c hc
  · rw [List.mem_singleton.mp hc]
    exact hch

theorem AllDigits.cons {text : List Byte} {ch : Byte} (h : AllDigits text)
    (hch : isdigit ch = true) : AllDigits (ch :: text) :=
  List.forall_mem_cons.mpr ⟨hch, h⟩

theorem AllDigits.singleton {ch : Byte} (hch : isdigit ch = true) : AllDigits [ch] :=
  AllDigits.cons (fun _ h => absurd h List.not_mem_nil) hch

/-! ## Tokens that stand for a number -/

/-- Digits. -/
def IntegerLiteral (text : List Byte) (v : ℕ) : Prop := IsNumber text ∧ v = digitsValue text

/-- What may follow the digits of a size, in upper case. -/
def byteUnits : List (List Byte × ℕ) := [
  (ascii "", 1), (ascii "B", 1),
  (ascii "K", 2 ^ 10), (ascii "KB", 2 ^ 10), (ascii "M", 2 ^ 20), (ascii "MB", 2 ^ 20),
  (ascii "G", 2 ^ 30), (ascii "GB", 2 ^ 30), (ascii "T", 2 ^ 40), (ascii "TB", 2 ^ 40)]

/-- Digits and a unit. -/
def BytesLiteral (text : List Byte) (v : ℕ) : Prop :=
  ∃ num suffix unit, text = num ++ suffix ∧ IsNumber num ∧
    (tokenStrupr suffix, unit) ∈ byteUnits ∧ v = digitsValue num * unit

/-- The units of time, in upper case. -/
def secondsUnits : List (Byte × ℕ) :=
  [(chr 'S', 1), (chr 'M', 60), (chr 'H', 60 * 60), (chr 'D', 60 * 60 * 24)]

/-- Numbers with units: the number of those, and of the one that may stand at the end without a
unit. -/
inductive SecondsParts : List Byte → ℕ → ℕ → Prop
  | nil : SecondsParts [] 0 0
  | trailing {num : List Byte} : IsNumber num → SecondsParts num 0 (digitsValue num)
  | unit {num rest : List Byte} {ch : Byte} {unit counted trailing : ℕ} : IsNumber num →
    (toupper ch, unit) ∈ secondsUnits → SecondsParts rest counted trailing →
    SecondsParts (num ++ ch :: rest) (digitsValue num * unit + counted) trailing

/-- A duration, of which the number at the end counts like the others. -/
def SecondsLiteral (text : List Byte) (v : ℕ) : Prop :=
  ∃ counted trailing, SecondsParts text counted trailing ∧ v = counted + trailing

/-- A string of digits, and maybe a percent sign. -/
def PercentLiteral (text : List Byte) (v : ℕ) : Prop :=
  ∃ num, AllDigits num ∧ (text = num ∨ text = num ++ [chr '%']) ∧ v = digitsValue num

/-- A conversion takes a token for a number. -/
structure ExactValue {w : ℕ} (literal : List Byte → ℕ → Prop)
    (convert : List Byte → Except HandlerError (BitVec w)) (limit : ℕ) (text : List Byte) :
    Prop where
  fits : ∀ v, literal text v → v < limit → convert text = .ok (BitVec.ofNat w v)
  tooLarge : ∀ v, literal text v → limit ≤ v →
    ∃ message, convert text = .error (.parsingError message)

/-- And refuses every other token. -/
structure Exact {w : ℕ} (literal : List Byte → ℕ → Prop)
    (convert : List Byte → Except HandlerError (BitVec w)) (limit : ℕ) (text : List Byte) : Prop
    extends ExactValue literal convert limit text where
  other : (¬ ∃ v, literal text v) → ∃ message, convert text = .error (.parsingError message)

/-! ## Counting -/

/-- What is counted in `w` bits: the digits of a text after a number. -/
def accumulateDigits {w : ℕ} (res : BitVec w) (text : List Byte) : BitVec w :=
  text.foldl (fun res ch => res * 10 + BitVec.ofNat w (digit ch)) res

/-- It is the number, up to `2 ^ w`. -/
theorem accumulateDigits_ofNat {w : ℕ} (v : ℕ) (text : List Byte) :
    accumulateDigits (BitVec.ofNat w v) text =
      BitVec.ofNat w (text.foldl (fun v ch => v * 10 + digit ch) v) := by
  induction text generalizing v with
  | nil => rfl
  | cons ch rest ih =>
    have hstep : BitVec.ofNat w v * 10 + BitVec.ofNat w (digit ch) =
        BitVec.ofNat w (v * 10 + digit ch) := by
      rw [BitVec.ofNat_add, BitVec.ofNat_mul]
      rfl
    simp only [accumulateDigits, List.foldl_cons] at ih ⊢
    rw [hstep]
    exact ih _

theorem accumulateDigits_zero {w : ℕ} (text : List Byte) :
    accumulateDigits (0 : BitVec w) text = BitVec.ofNat w (digitsValue text) :=
  accumulateDigits_ofNat 0 text

/-- A number that fits is the one that was counted. -/
theorem ofNat_inj_of_lt {w a b : ℕ} (ha : a < 2 ^ w) (hb : b < 2 ^ w)
    (h : BitVec.ofNat w a = BitVec.ofNat w b) : a = b := by
  have hn := congrArg BitVec.toNat h
  rwa [BitVec.toNat_ofNat, BitVec.toNat_ofNat, Nat.mod_eq_of_lt ha, Nat.mod_eq_of_lt hb] at hn

/-- A conversion returns a number or prints a message. -/
def Returns {α : Type} (x : Except HandlerError α) : Prop :=
  (∃ a, x = .ok a) ∨ ∃ message, x = .error (.parsingError message)

/-- One that looks at a character after another does if each step does. -/
theorem foldlM_returns {σ : Type} {step : σ → Byte → Except HandlerError σ}
    (hstep : ∀ s ch, Returns (step s ch)) (s : σ) (text : List Byte) :
    Returns (text.foldlM step s) := by
  induction text generalizing s with
  | nil => exact .inl ⟨s, rfl⟩
  | cons ch rest ih =>
    rw [List.foldlM_cons]
    rcases hstep s ch with ⟨s', hs⟩ | ⟨message, hs⟩
    · rw [hs]
      exact ih s'
    · rw [hs]
      exact .inr ⟨message, rfl⟩

theorem Returns.error_of_ne {α : Type} {x : Except HandlerError α} (h : Returns x)
    (hne : ∀ a, x ≠ .ok a) : ∃ message, x = .error (.parsingError message) := by
  rcases h with ⟨a, ha⟩ | h
  · exact absurd ha (hne a)
  · exact h

/-! ## Integers -/

theorem integerStep_returns (res : BitVec 64) (ch : Byte) : Returns (integerStep res ch) := by
  rw [integerStep]
  split
  · exact .inl ⟨_, rfl⟩
  · exact .inr ⟨_, rfl⟩

theorem foldlM_integerStep {text : List Byte} (h : AllDigits text) (res : BitVec 64) :
    text.foldlM integerStep res = .ok (accumulateDigits res text) := by
  induction text generalizing res with
  | nil => rfl
  | cons ch rest ih =>
    obtain ⟨hch, hrest⟩ := List.forall_mem_cons.mp h
    rw [List.foldlM_cons, integerStep, if_pos hch]
    exact ih hrest _

/-- Digits are converted to their number, up to `2 ^ 64`. -/
theorem toInteger_digits {text : List Byte} (h : AllDigits text) :
    toInteger text = .ok (BitVec.ofNat 64 (digitsValue text)) := by
  rw [toInteger, foldlM_integerStep h, accumulateDigits_zero]

theorem digits_of_foldlM_integerStep {text : List Byte} {res res' : BitVec 64}
    (h : text.foldlM integerStep res = .ok res') : AllDigits text := by
  induction text generalizing res with
  | nil => exact fun _ hch => absurd hch List.not_mem_nil
  | cons ch rest ih =>
    rw [List.foldlM_cons, integerStep] at h
    by_cases hch : isdigit ch = true
    · rw [if_pos hch] at h
      exact AllDigits.cons (ih h) hch
    · rw [if_neg hch] at h
      cases h

/-- **Integers are exact**, but for those of more than 64 bits and for the empty token. -/
theorem integer_exact_iff (text : List Byte) :
    Exact IntegerLiteral toInteger (2 ^ 64) text ↔
      text ≠ [] ∧ (AllDigits text → digitsValue text < 2 ^ 64) := by
  refine ⟨fun h => ⟨?_, ?_⟩, fun ⟨hne, hlt⟩ => ?_⟩
  · rintro rfl
    obtain ⟨message, hm⟩ := h.other fun ⟨v, hv⟩ => hv.1.ne_nil rfl
    cases hm
  · intro hdigits
    by_contra hge
    have hne : text ≠ [] := by
      rintro rfl
      exact hge (by decide)
    obtain ⟨message, hm⟩ := h.tooLarge _ ⟨⟨hne, hdigits⟩, rfl⟩ (Nat.not_lt.mp hge)
    rw [toInteger_digits hdigits] at hm
    cases hm
  · refine ⟨⟨?_, ?_⟩, ?_⟩
    · intro v hv _
      rw [hv.2]
      exact toInteger_digits hv.1.digits
    · intro v hv hge
      rw [hv.2] at hge
      exact absurd (hlt hv.1.digits) (Nat.not_lt.mpr hge)
    · intro hno
      refine (foldlM_returns integerStep_returns 0 text).error_of_ne ?_
      intro res hres
      exact hno ⟨_, ⟨hne, digits_of_foldlM_integerStep hres⟩, rfl⟩

/-! ## Sizes -/

theorem tokenStrupr_digits {text : List Byte} (h : AllDigits text) : tokenStrupr text = text := by
  have hmap : text.map toupper = text.map id :=
    List.map_congr_left fun ch hch => toupper_of_isdigit ch (h ch hch)
  rw [tokenStrupr, hmap, List.map_id]

theorem allDigits_strupr {text : List Byte} : AllDigits (tokenStrupr text) ↔ AllDigits text := by
  simp only [AllDigits, tokenStrupr, List.forall_mem_map, isdigit_toupper]

theorem bytesStep_returns (s : BytesState × BitVec 64) (ch : Byte) : Returns (bytesStep s ch) := by
  obtain ⟨state, res⟩ := s
  simp only [bytesStep]
  cases state with
  | begin =>
    simp only
    split
    · exact .inl ⟨_, rfl⟩
    · exact .inr ⟨_, rfl⟩
  | digit =>
    simp only
    repeat'
      split
      · exact .inl ⟨_, rfl⟩
    exact .inr ⟨_, rfl⟩
  | si =>
    simp only
    split
    · exact .inl ⟨_, rfl⟩
    · exact .inr ⟨_, rfl⟩
  | «end» => exact .inr ⟨_, rfl⟩

theorem foldlM_bytesStep_digits {num : List Byte} (h : AllDigits num) (res : BitVec 64) :
    num.foldlM bytesStep (.digit, res) = .ok (.digit, accumulateDigits res num) := by
  induction num generalizing res with
  | nil => rfl
  | cons ch rest ih =>
    obtain ⟨hch, hrest⟩ := List.forall_mem_cons.mp h
    rw [List.foldlM_cons]
    simp only [bytesStep, hch, if_true]
    exact ih hrest _

/-- A unit scales what was counted. -/
theorem foldlM_bytesStep_unit {suffix : List Byte} {unit : ℕ} (h : (suffix, unit) ∈ byteUnits)
    (res : BitVec 64) : ∃ state,
      suffix.foldlM bytesStep (.digit, res) = .ok (state, res * BitVec.ofNat 64 unit) := by
  have hall : ∀ entry ∈ byteUnits, ∃ state, entry.1.foldlM bytesStep (.digit, res) =
      .ok (state, res * BitVec.ofNat 64 entry.2) := by
    simp only [byteUnits, List.forall_mem_cons, List.not_mem_nil, false_implies, implies_true,
      and_true]
    have hone : res * BitVec.ofNat 64 1 = res := BitVec.mul_one res
    refine ⟨⟨.digit, ?_⟩, ⟨.end, ?_⟩, ⟨.si, rfl⟩, ⟨.end, rfl⟩, ⟨.si, rfl⟩, ⟨.end, rfl⟩, ⟨.si, rfl⟩,
      ⟨.end, rfl⟩, ⟨.si, rfl⟩, ⟨.end, rfl⟩⟩
    · rw [hone]
      rfl
    · rw [hone]
      rfl
  exact hall _ h

/-- A size is converted to its number, up to `2 ^ 64`. -/
theorem toBytes_literal {text : List Byte} {v : ℕ} (h : BytesLiteral text v) :
    toBytes text = .ok (BitVec.ofNat 64 v) := by
  obtain ⟨num, suffix, unit, rfl, hnum, hunit, rfl⟩ := h
  have hupper : tokenStrupr (num ++ suffix) = num ++ tokenStrupr suffix := by
    rw [tokenStrupr, List.map_append]
    exact congrArg (· ++ _) (tokenStrupr_digits hnum.digits)
  have hrun : num.foldlM bytesStep (.begin, 0) = .ok (.digit, accumulateDigits 0 num) := by
    obtain ⟨ch, rest, rfl⟩ := List.exists_cons_of_ne_nil hnum.ne_nil
    obtain ⟨hch, hrest⟩ := List.forall_mem_cons.mp hnum.digits
    rw [List.foldlM_cons]
    simp only [bytesStep, hch, if_true]
    exact foldlM_bytesStep_digits hrest _
  obtain ⟨state, hsuffix⟩ := foldlM_bytesStep_unit hunit (accumulateDigits 0 num)
  rw [toBytes, hupper, List.foldlM_append, hrun]
  change ((tokenStrupr suffix).foldlM bytesStep (.digit, accumulateDigits 0 num) >>=
    fun r => pure r.2) = _
  rw [hsuffix, accumulateDigits_zero, ← BitVec.ofNat_mul]
  rfl

theorem nil_of_foldlM_end {text : List Byte} {res : BitVec 64} {r : BytesState × BitVec 64}
    (h : text.foldlM bytesStep (.end, res) = .ok r) : text = [] := by
  cases text with
  | nil => rfl
  | cons ch rest => cases h

theorem suffix_of_foldlM_si {text : List Byte} {res : BitVec 64} {r : BytesState × BitVec 64}
    (h : text.foldlM bytesStep (.si, res) = .ok r) : text = [] ∨ text = ascii "B" := by
  cases text with
  | nil => exact .inl rfl
  | cons ch rest =>
    rw [List.foldlM_cons] at h
    obtain ⟨s, hs, hrest⟩ := bind_eq_ok.mp h
    simp only [bytesStep] at hs
    split at hs
    · rename_i hch
      obtain rfl := Except.ok.inj hs
      rw [nil_of_foldlM_end hrest, hch]
      exact .inr rfl
    · cases hs

/-- What is accepted after a digit: more digits, and a unit. -/
theorem parts_of_foldlM_digit {text : List Byte} {res : BitVec 64} {r : BytesState × BitVec 64}
    (h : text.foldlM bytesStep (.digit, res) = .ok r) :
    ∃ num suffix unit, text = num ++ suffix ∧ AllDigits num ∧ (suffix, unit) ∈ byteUnits := by
  induction text generalizing res with
  | nil => exact ⟨[], [], 1, rfl, fun _ hch => absurd hch List.not_mem_nil, by decide⟩
  | cons ch rest ih =>
    rw [List.foldlM_cons] at h
    obtain ⟨s, hs, hrest⟩ := bind_eq_ok.mp h
    by_cases hch : isdigit ch = true
    · simp only [bytesStep, hch, if_true] at hs
      obtain rfl := Except.ok.inj hs
      obtain ⟨num, suffix, unit, rfl, hnum, hunit⟩ := ih hrest
      exact ⟨ch :: num, suffix, unit, rfl, hnum.cons hch, hunit⟩
    -- a letter: nothing but a `B` may follow, and nothing that
    have hnone : AllDigits [] := fun _ hch => absurd hch List.not_mem_nil
    simp only [bytesStep, hch, Bool.false_eq_true, if_false] at hs
    split at hs
    · rename_i hB
      obtain rfl := Except.ok.inj hs
      rw [nil_of_foldlM_end hrest, hB]
      exact ⟨[], _, 1, rfl, hnone, by decide⟩
    have hsi : ∀ (unit : ℕ) {letter : Byte}, ch = letter → s.1 = .si →
        ([letter], unit) ∈ byteUnits → (letter :: ascii "B", unit) ∈ byteUnits →
        ∃ num suffix unit, ch :: rest = num ++ suffix ∧ AllDigits num ∧
          (suffix, unit) ∈ byteUnits := by
      rintro unit letter rfl hstate hone htwo
      obtain ⟨state, res'⟩ := s
      obtain rfl : state = .si := hstate
      rcases suffix_of_foldlM_si hrest with rfl | rfl
      · exact ⟨[], _, unit, rfl, hnone, hone⟩
      · exact ⟨[], _, unit, rfl, hnone, htwo⟩
    split at hs
    · rename_i hK
      obtain rfl := Except.ok.inj hs
      exact hsi (2 ^ 10) hK rfl (by decide) (by decide)
    split at hs
    · rename_i hM
      obtain rfl := Except.ok.inj hs
      exact hsi (2 ^ 20) hM rfl (by decide) (by decide)
    split at hs
    · rename_i hG
      obtain rfl := Except.ok.inj hs
      exact hsi (2 ^ 30) hG rfl (by decide) (by decide)
    split at hs
    · rename_i hT
      obtain rfl := Except.ok.inj hs
      exact hsi (2 ^ 40) hT rfl (by decide) (by decide)
    · cases hs

/-- **What `to_bytes` accepts**: sizes, and the empty token. -/
theorem literal_of_toBytes {text : List Byte} {res : BitVec 64} (h : toBytes text = .ok res)
    (hne : text ≠ []) : ∃ v, BytesLiteral text v := by
  obtain ⟨ch, rest, rfl⟩ := List.exists_cons_of_ne_nil hne
  have hupper : tokenStrupr (ch :: rest) = toupper ch :: tokenStrupr rest := rfl
  rw [toBytes, hupper, List.foldlM_cons] at h
  obtain ⟨r, hr, -⟩ := bind_eq_ok.mp h
  obtain ⟨s, hs, hrest⟩ := bind_eq_ok.mp hr
  by_cases hch : isdigit ch = true
  · simp only [bytesStep, isdigit_toupper, hch, if_true] at hs
    obtain rfl := Except.ok.inj hs
    obtain ⟨num, suffix, unit, hparts, hnum, hunit⟩ := parts_of_foldlM_digit hrest
    -- the parts of the text in upper case are those of the text
    obtain ⟨num', suffix', rfl, rfl, rfl⟩ := List.map_eq_append_iff.mp hparts
    have hnum' : AllDigits num' := allDigits_strupr.mp hnum
    exact ⟨_, ch :: num', suffix', unit, rfl, ⟨List.cons_ne_nil _ _, hnum'.cons hch⟩, hunit, rfl⟩
  · simp only [bytesStep, isdigit_toupper, hch, Bool.false_eq_true, if_false] at hs
    cases hs

/-- **Sizes are exact**, but for those of more than 64 bits and for the empty token. -/
theorem bytes_exact_iff (text : List Byte) :
    Exact BytesLiteral toBytes (2 ^ 64) text ↔
      text ≠ [] ∧ ∀ v, BytesLiteral text v → v < 2 ^ 64 := by
  refine ⟨fun h => ⟨?_, ?_⟩, fun ⟨hne, hlt⟩ => ?_⟩
  · rintro rfl
    obtain ⟨message, hm⟩ := h.other fun ⟨v, num, suffix, unit, hnil, hnum, _⟩ =>
      hnum.ne_nil (List.append_eq_nil_iff.mp hnil.symm).1
    cases hm
  · intro v hv
    by_contra hge
    obtain ⟨message, hm⟩ := h.tooLarge v hv (Nat.not_lt.mp hge)
    rw [toBytes_literal hv] at hm
    cases hm
  · refine ⟨⟨fun v hv _ => toBytes_literal hv, ?_⟩, ?_⟩
    · intro v hv hge
      exact absurd (hlt v hv) (Nat.not_lt.mpr hge)
    · intro hno
      have hreturns : Returns (toBytes text) := by
        rcases foldlM_returns bytesStep_returns (.begin, 0) (tokenStrupr text) with
          ⟨r, hr⟩ | ⟨message, hr⟩
        · exact .inl ⟨r.2, by rw [toBytes, hr]; rfl⟩
        · exact .inr ⟨message, by rw [toBytes, hr]; rfl⟩
      exact hreturns.error_of_ne fun res hres => hno (literal_of_toBytes hres hne)

/-! ## Durations -/

theorem secondsStep_returns (s : SecondsState) (ch : Byte) : Returns (secondsStep s ch) := by
  simp only [secondsStep]
  repeat'
    split
    · first
      | exact .inl ⟨_, rfl⟩
      | exact .inr ⟨_, rfl⟩
  exact .inr ⟨_, rfl⟩

theorem secondsStep_digit {ch : Byte} (h : isdigit ch = true) (s : SecondsState) :
    secondsStep s ch = .ok { s with
      digit := s.digit * 10 + BitVec.ofNat 64 (digit ch)
      inDigit := true } := by
  simp only [secondsStep, h, if_true]

theorem foldlM_secondsStep_digits {num : List Byte} (h : AllDigits num) (s : SecondsState)
    (hs : s.inDigit = true) :
    num.foldlM secondsStep s = .ok { s with digit := accumulateDigits s.digit num } := by
  induction num generalizing s with
  | nil => rfl
  | cons ch rest ih =>
    obtain ⟨hch, hrest⟩ := List.forall_mem_cons.mp h
    rw [List.foldlM_cons, secondsStep_digit hch]
    apply (ih hrest _ rfl).trans
    rw [← hs]
    rfl

/-- A number is counted, and waits for its unit. -/
theorem foldlM_secondsStep_number {num : List Byte} (h : IsNumber num) (res : BitVec 64)
    (inDigit : Bool) :
    num.foldlM secondsStep { res := res, digit := 0, inDigit := inDigit } =
      .ok { res := res, digit := BitVec.ofNat 64 (digitsValue num), inDigit := true } := by
  obtain ⟨ch, rest, rfl⟩ := List.exists_cons_of_ne_nil h.ne_nil
  obtain ⟨hch, hrest⟩ := List.forall_mem_cons.mp h.digits
  rw [List.foldlM_cons, secondsStep_digit hch, ← accumulateDigits_zero]
  exact foldlM_secondsStep_digits hrest _ rfl

/-- A unit adds the number before it. -/
theorem secondsStep_unit {ch : Byte} {unit : ℕ} (h : (ch, unit) ∈ secondsUnits)
    (res number : BitVec 64) :
    secondsStep { res := res, digit := number, inDigit := true } ch =
      .ok { res := res + number * BitVec.ofNat 64 unit, digit := 0, inDigit := false } := by
  simp only [secondsUnits, List.mem_cons, Prod.mk.injEq, List.not_mem_nil, or_false] at h
  rcases h with ⟨rfl, rfl⟩ | ⟨rfl, rfl⟩ | ⟨rfl, rfl⟩ | ⟨rfl, rfl⟩ <;> rfl

/-- What is accepted after a number, other than digits, is a unit. -/
theorem unit_of_secondsStep {ch : Byte} {s r : SecondsState} (h : secondsStep s ch = .ok r)
    (hch : isdigit ch = false) :
    s.inDigit = true ∧ r.inDigit = false ∧ ∃ unit, (ch, unit) ∈ secondsUnits := by
  simp only [secondsStep, hch, Bool.false_eq_true, if_false] at h
  by_cases hin : s.inDigit = false
  · rw [if_pos hin] at h
    cases h
  rw [if_neg hin] at h
  refine ⟨Bool.not_eq_false _ |>.mp hin, ?_⟩
  split at h
  · rename_i hS
    obtain rfl := Except.ok.inj h
    exact ⟨rfl, 1, by rw [hS]; decide⟩
  split at h
  · rename_i hM
    obtain rfl := Except.ok.inj h
    exact ⟨rfl, 60, by rw [hM]; decide⟩
  split at h
  · rename_i hH
    obtain rfl := Except.ok.inj h
    exact ⟨rfl, 60 * 60, by rw [hH]; decide⟩
  split at h
  · rename_i hD
    obtain rfl := Except.ok.inj h
    exact ⟨rfl, 60 * 60 * 24, by rw [hD]; decide⟩
  · cases h

/-- The numbers with a unit are added up, from what was counted before. -/
theorem foldlM_secondsStep_parts {text : List Byte} {counted trailing : ℕ}
    (h : SecondsParts text counted trailing) (res : BitVec 64) :
    ∃ number inDigit, (tokenStrupr text).foldlM secondsStep
        { res := res, digit := 0, inDigit := false } =
      .ok { res := res + BitVec.ofNat 64 counted, digit := number, inDigit := inDigit } := by
  have hzero : ∀ res : BitVec 64, res + BitVec.ofNat 64 0 = res := BitVec.add_zero
  induction h generalizing res with
  | nil => exact ⟨0, false, by rw [hzero]; rfl⟩
  | @trailing num hnum =>
    refine ⟨BitVec.ofNat 64 (digitsValue num), true, ?_⟩
    rw [tokenStrupr_digits hnum.digits, foldlM_secondsStep_number hnum, hzero]
  | @unit num rest ch unit counted trailing hnum hunit _ ih =>
    have hupper : tokenStrupr (num ++ ch :: rest) = num ++ toupper ch :: tokenStrupr rest := by
      rw [tokenStrupr, List.map_append]
      exact congrArg (· ++ _) (tokenStrupr_digits hnum.digits)
    obtain ⟨number, inDigit, hrest⟩ := ih (res + BitVec.ofNat 64 (digitsValue num * unit))
    refine ⟨number, inDigit, ?_⟩
    rw [hupper, List.foldlM_append, foldlM_secondsStep_number hnum]
    change (toupper ch :: tokenStrupr rest).foldlM secondsStep _ = _
    rw [List.foldlM_cons, secondsStep_unit hunit, ← BitVec.ofNat_mul]
    apply hrest.trans
    rw [BitVec.ofNat_add, BitVec.add_assoc]

/-- A duration is converted to the number of its parts that have a unit, up to `2 ^ 64`. -/
theorem toSeconds_parts {text : List Byte} {counted trailing : ℕ}
    (h : SecondsParts text counted trailing) :
    toSeconds text = .ok (BitVec.ofNat 64 counted) := by
  obtain ⟨number, inDigit, hrun⟩ := foldlM_secondsStep_parts h 0
  rw [toSeconds, hrun]
  exact congrArg Except.ok (BitVec.zero_add _)

/-- What is accepted: numbers with units, after the digits of a number if one has begun. -/
theorem parts_of_foldlM_seconds (text : List Byte) :
    ∀ s r : SecondsState, (tokenStrupr text).foldlM secondsStep s = .ok r →
      (s.inDigit = false → ∃ counted trailing, SecondsParts text counted trailing) ∧
      (s.inDigit = true → ∀ num, IsNumber num →
        ∃ counted trailing, SecondsParts (num ++ text) counted trailing) := by
  induction text with
  | nil =>
    refine fun s r _ => ⟨fun _ => ⟨0, 0, .nil⟩, fun _ num hnum => ⟨0, digitsValue num, ?_⟩⟩
    rw [List.append_nil]
    exact .trailing hnum
  | cons ch rest ih =>
    intro s r h
    have hupper : tokenStrupr (ch :: rest) = toupper ch :: tokenStrupr rest := rfl
    rw [hupper, List.foldlM_cons] at h
    obtain ⟨s', hs, hrest⟩ := bind_eq_ok.mp h
    by_cases hch : isdigit ch = true
    · rw [secondsStep_digit ((isdigit_toupper ch).trans hch)] at hs
      obtain rfl := Except.ok.inj hs
      have hnext := (ih _ _ hrest).2 rfl
      refine ⟨?_, ?_⟩
      · intro _
        exact hnext [ch] ⟨List.cons_ne_nil _ _, .singleton hch⟩
      · intro _ num hnum
        have hsnoc := hnext (num ++ [ch]) ⟨List.append_ne_nil_of_left_ne_nil hnum.ne_nil _,
          hnum.digits.snoc hch⟩
        rwa [List.append_assoc] at hsnoc
    · have hno : isdigit (toupper ch) = false := by
        rw [isdigit_toupper]
        exact Bool.not_eq_true _ |>.mp hch
      obtain ⟨hin, hout, unit, hunit⟩ := unit_of_secondsStep hs hno
      refine ⟨fun hf => absurd (hf.symm.trans hin) Bool.false_ne_true, ?_⟩
      intro _ num hnum
      obtain ⟨counted, trailing, hparts⟩ := (ih _ _ hrest).1 hout
      exact ⟨_, trailing, .unit hnum hunit hparts⟩

/-- **Durations are exact**, but for those of more than 64 bits and those with a number other than
zero at the end. -/
theorem seconds_exact_iff (text : List Byte) :
    Exact SecondsLiteral toSeconds (2 ^ 64) text ↔
      ∀ counted trailing, SecondsParts text counted trailing → trailing = 0 ∧ counted < 2 ^ 64 := by
  refine ⟨?_, ?_⟩
  · intro h counted trailing hparts
    have hseconds := toSeconds_parts hparts
    have hlt : counted + trailing < 2 ^ 64 := by
      by_contra hge
      obtain ⟨message, hm⟩ := h.tooLarge _ ⟨counted, trailing, hparts, rfl⟩ (Nat.not_lt.mp hge)
      rw [hseconds] at hm
      cases hm
    have hsum := h.fits _ ⟨counted, trailing, hparts, rfl⟩ hlt
    rw [hseconds] at hsum
    have hc : counted < 2 ^ 64 := (Nat.le_add_right ..).trans_lt hlt
    exact ⟨by have := ofNat_inj_of_lt hc hlt (Except.ok.inj hsum); omega, hc⟩
  · intro h
    refine ⟨⟨?_, ?_⟩, ?_⟩
    · rintro v ⟨counted, trailing, hparts, rfl⟩ _
      rw [(h _ _ hparts).1]
      exact toSeconds_parts hparts
    · rintro v ⟨counted, trailing, hparts, rfl⟩ hge
      obtain ⟨rfl, hlt⟩ := h _ _ hparts
      exact absurd hlt (Nat.not_lt.mpr hge)
    · intro hno
      rcases foldlM_returns secondsStep_returns { res := 0, digit := 0, inDigit := false }
        (tokenStrupr text) with ⟨r, hr⟩ | ⟨message, hr⟩
      · obtain ⟨counted, trailing, hparts⟩ := (parts_of_foldlM_seconds text _ _ hr).1 rfl
        exact absurd ⟨_, counted, trailing, hparts, rfl⟩ hno
      · exact ⟨message, by rw [toSeconds, hr]; rfl⟩

/-! ## Percentages -/

theorem accumulateDigits_zero_toNat (text : List Byte) :
    (accumulateDigits (0 : BitVec 8) text).toNat = digitsValue text % 256 := by
  rw [accumulateDigits_zero, BitVec.toNat_ofNat]

/-- Digits are passed as long as what was counted is not above 100. -/
theorem toPercentFrom_digits {num : List Byte} (h : AllDigits num) (res : BitVec 8)
    (rest : List Byte) (hle : ∀ p, p ≠ [] → p <+: num → (accumulateDigits res p).toNat ≤ 100) :
    toPercentFrom res (num ++ rest) = toPercentFrom (accumulateDigits res num) rest := by
  induction num generalizing res with
  | nil => rfl
  | cons ch num ih =>
    obtain ⟨hch, hnum⟩ := List.forall_mem_cons.mp h
    have hfirst := hle [ch] (List.cons_ne_nil _ _) ⟨num, rfl⟩
    have hno : ¬ 100 < res * 10 + BitVec.ofNat 8 (digit ch) := Nat.not_lt.mpr hfirst
    rw [List.cons_append, toPercentFrom, if_pos hch]
    simp only [if_neg hno]
    refine ih hnum _ ?_
    intro p hp hinit
    exact hle (ch :: p) (List.cons_ne_nil _ _) (List.cons_prefix_cons.mpr ⟨rfl, hinit⟩)

/-- And are refused when it is. -/
theorem toPercentFrom_error {num : List Byte} (h : AllDigits num) (res : BitVec 8)
    (rest : List Byte) {p : List Byte} (hp : p ≠ []) (hinit : p <+: num)
    (hlt : 100 < (accumulateDigits res p).toNat) :
    ∃ message, toPercentFrom res (num ++ rest) = .error (.parsingError message) := by
  induction num generalizing res p with
  | nil => exact absurd (List.prefix_nil.mp hinit) hp
  | cons ch num ih =>
    obtain ⟨hch, hnum⟩ := List.forall_mem_cons.mp h
    rw [List.cons_append, toPercentFrom, if_pos hch]
    by_cases hover : 100 < res * 10 + BitVec.ofNat 8 (digit ch)
    · exact ⟨_, if_pos hover⟩
    obtain ⟨c, p, rfl⟩ := List.exists_cons_of_ne_nil hp
    obtain ⟨rfl, hrest⟩ := List.cons_prefix_cons.mp hinit
    simp only [if_neg hover]
    refine ih hnum _ ?_ hrest hlt
    rintro rfl
    exact hover hlt

/-- A token of digits, with or without its sign: what was counted in 8 bits decides. -/
theorem toPercent_digits {num text : List Byte} (h : AllDigits num)
    (htext : text = num ∨ text = num ++ [chr '%']) :
    ((∀ p, p <+: num → digitsValue p % 256 ≤ 100) →
        toPercent text = .ok (BitVec.ofNat 8 (digitsValue num))) ∧
      ((∃ p, p <+: num ∧ 100 < digitsValue p % 256) →
        ∃ message, toPercent text = .error (.parsingError message)) := by
  have hparts : ∃ rest, text = num ++ rest ∧ ∀ res, toPercentFrom res rest = .ok res := by
    rcases htext with rfl | rfl
    · exact ⟨[], (List.append_nil _).symm, fun _ => rfl⟩
    · exact ⟨[chr '%'], rfl, fun _ => rfl⟩
  obtain ⟨rest, rfl, hrest⟩ := hparts
  refine ⟨?_, ?_⟩
  · intro hle
    rw [toPercent, toPercentFrom_digits h 0 rest fun p _ hp => ?_, hrest, accumulateDigits_zero]
    rw [accumulateDigits_zero_toNat]
    exact hle p hp
  · rintro ⟨p, hp, hlt⟩
    refine toPercentFrom_error h 0 rest ?_ hp ?_
    · rintro rfl
      exact absurd hlt (by decide)
    · rwa [accumulateDigits_zero_toNat]

/-- **Percentages are exact** unless what was counted in 8 bits comes back below 100. -/
theorem percent_exact_iff (text : List Byte) :
    ExactValue PercentLiteral toPercent 101 text ↔
      ∀ num, AllDigits num → text = num ∨ text = num ++ [chr '%'] →
        digitsValue num ≤ 100 ∨ ∃ p, p <+: num ∧ 100 < digitsValue p % 256 := by
  refine ⟨?_, fun h => ⟨?_, ?_⟩⟩
  · intro h num hnum htext
    by_contra hno
    obtain ⟨hlarge, hpass⟩ := not_or.mp hno
    have hle : ∀ p, p <+: num → digitsValue p % 256 ≤ 100 := fun p hp =>
      Nat.not_lt.mp fun hlt => hpass ⟨p, hp, hlt⟩
    obtain ⟨message, hm⟩ := h.tooLarge _ ⟨num, hnum, htext, rfl⟩ (Nat.not_le.mp hlarge)
    rw [(toPercent_digits hnum htext).1 hle] at hm
    cases hm
  · rintro v ⟨num, hnum, htext, rfl⟩ hlt
    refine (toPercent_digits hnum htext).1 ?_
    intro p hp
    have hle := digitsValue_le_of_prefix hp
    rw [Nat.mod_eq_of_lt (by omega)]
    omega
  · rintro v ⟨num, hnum, htext, rfl⟩ hge
    rcases h num hnum htext with hle | hpass
    · exact absurd hge (Nat.not_le.mpr (Nat.lt_succ_of_le hle))
    · exact (toPercent_digits hnum htext).2 hpass

/-! ## All conversions -/

/-- **Which tokens are exact**: those that are not empty and whose number fits 64 bits, for a
duration without a number at the end, and percentages that are not counted past 256. -/
theorem numbersExact_iff (text : List Byte) :
    (Exact IntegerLiteral toInteger (2 ^ 64) text ↔
        text ≠ [] ∧ (AllDigits text → digitsValue text < 2 ^ 64)) ∧
      (Exact BytesLiteral toBytes (2 ^ 64) text ↔
        text ≠ [] ∧ ∀ v, BytesLiteral text v → v < 2 ^ 64) ∧
      (Exact SecondsLiteral toSeconds (2 ^ 64) text ↔
        ∀ counted trailing, SecondsParts text counted trailing →
          trailing = 0 ∧ counted < 2 ^ 64) ∧
      (ExactValue PercentLiteral toPercent 101 text ↔
        ∀ num, AllDigits num → text = num ∨ text = num ++ [chr '%'] →
          digitsValue num ≤ 100 ∨ ∃ p, p <+: num ∧ 100 < digitsValue p % 256) :=
  ⟨integer_exact_iff text, bytes_exact_iff text, seconds_exact_iff text, percent_exact_iff text⟩

/-- **None of the conversions is exact on all tokens**: 2 ^ 64 is 0, 16777216T is 0, the seconds at
the end of a duration are dropped, and 260 percent are 4. -/
theorem not_numbersExact :
    ¬ Exact IntegerLiteral toInteger (2 ^ 64) (ascii "18446744073709551616") ∧
      ¬ Exact BytesLiteral toBytes (2 ^ 64) (ascii "16777216T") ∧
      ¬ Exact SecondsLiteral toSeconds (2 ^ 64) (ascii "1M30") ∧
      ¬ ExactValue PercentLiteral toPercent 101 (ascii "260%") := by
  refine ⟨?_, ?_, ?_, ?_⟩
  · intro h
    have hlit : IntegerLiteral (ascii "18446744073709551616") (2 ^ 64) :=
      ⟨⟨by decide, by decide⟩, by decide⟩
    obtain ⟨message, hm⟩ := h.tooLarge _ hlit le_rfl
    have hok : toInteger (ascii "18446744073709551616") = .ok 0 := by decide
    rw [hok] at hm
    cases hm
  · intro h
    have hlit : BytesLiteral (ascii "16777216T") (2 ^ 64) :=
      ⟨ascii "16777216", ascii "T", 2 ^ 40, by decide, ⟨by decide, by decide⟩, by decide, by decide⟩
    obtain ⟨message, hm⟩ := h.tooLarge _ hlit le_rfl
    have hok : toBytes (ascii "16777216T") = .ok 0 := by decide
    rw [hok] at hm
    cases hm
  · intro h
    have hone : IsNumber (ascii "1") := ⟨by decide, by decide⟩
    have hthirty : IsNumber (ascii "30") := ⟨by decide, by decide⟩
    have hunit : (toupper (chr 'M'), 60) ∈ secondsUnits := by decide
    have hlit : SecondsLiteral (ascii "1M30") 90 :=
      ⟨60, 30, .unit hone hunit (.trailing hthirty), rfl⟩
    have hfits := h.fits _ hlit (by decide)
    have hok : toSeconds (ascii "1M30") = .ok 60 := by decide
    rw [hok] at hfits
    exact absurd (Except.ok.inj hfits) (by decide)
  · intro h
    have hlit : PercentLiteral (ascii "260%") 260 :=
      ⟨ascii "260", by decide, .inr (by decide), by decide⟩
    obtain ⟨message, hm⟩ := h.tooLarge _ hlit (by decide)
    have hok : toPercent (ascii "260%") = .ok 4 := by decide
    rw [hok] at hm
    cases hm

end ChamberSpo

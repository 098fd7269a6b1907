import ChamberSpo.Checked
import ChamberSpo.LineParser

/-!
# The values of tokens

The conversions of `parser.c` from the text of a token, all of which leave the process when they do
not like what they read.

* `tokenStrupr` — the letters of a token in upper case, which is done where the text stands.
* `toBool`, `toInteger`, `toDouble`, `toSeconds`, `toPercent`, `toBytes` — the conversions.
* `tokenSplit` — the parts of a token between delimiters.

None of them tells small letters from capitals: each has a lemma that it is the same after
`tokenStrupr`.
-/

namespace ChamberSpo

/-! ## Characters -/

/-- `toupper`, in the locale that a process starts in. -/
def toupper (ch : Byte) : Byte := if chr 'a' ≤ ch ∧ ch ≤ chr 'z' then ch - 0x20 else ch

/-- `isdigit` -/
def isdigit (ch : Byte) : Bool := chr '0' ≤ ch && ch ≤ chr '9'

/-- `ch - '0'` -/
def digit (ch : Byte) : ℕ := (ch - chr '0').toNat

/-- `token_strupr`: the text that is in place of the token after it. -/
def tokenStrupr (text : List Byte) : List Byte := text.map toupper

@[simp] theorem isdigit_toupper : ∀ ch : Byte, isdigit (toupper ch) = isdigit ch := by decide

theorem toupper_of_isdigit : ∀ ch : Byte, isdigit ch = true → toupper ch = ch := by decide

@[simp] theorem toupper_toupper : ∀ ch : Byte, toupper (toupper ch) = toupper ch := by decide

theorem toupper_eq_zero : ∀ ch : Byte, toupper ch = 0 ↔ ch = 0 := by decide

/-- A delimiter is not a letter. -/
def Caseless (d : Byte) : Prop := ∀ ch : Byte, toupper ch = d ↔ ch = d

instance (d : Byte) : Decidable (Caseless d) :=
  inferInstanceAs (Decidable (∀ ch : Byte, toupper ch = d ↔ ch = d))

@[simp] theorem tokenStrupr_tokenStrupr (text : List Byte) :
    tokenStrupr (tokenStrupr text) = tokenStrupr text := by
  simp only [tokenStrupr]
  rw [List.map_map]
  apply List.map_congr_left
  intro ch _
  exact toupper_toupper ch

@[simp] theorem length_tokenStrupr (text : List Byte) : (tokenStrupr text).length = text.length :=
  List.length_map toupper

/-! ## Conversions -/

/-- Why a handler does not return. -/
inductive HandlerError where
  /-- `parsing_error` prints the message and exits -/
  | parsingError (message : String)
  /-- the source does not say what happens -/
  | undefined
  deriving DecidableEq, Repr

/-- `to_bool` -/
def toBool (text : List Byte) : Except HandlerError Bool :=
  let text := tokenStrupr text
  if text = ascii "1" ∨ text = ascii "TRUE" then .ok true
  else if text = ascii "0" ∨ text = ascii "FALSE" then .ok false
  else .error (.parsingError "expected boolean type token(0, FALSE, 1 or TRUE )")

/-- The next digit of `to_integer`. -/
def integerStep (res : BitVec 64) (ch : Byte) : Except HandlerError (BitVec 64) :=
  if isdigit ch then .ok (res * 10 + BitVec.ofNat 64 (digit ch))
  else .error (.parsingError "expected integer token")

/-- `to_integer` -/
def toInteger (text : List Byte) : Except HandlerError (BitVec 64) := text.foldlM integerStep 0

/-- `significant`, the digits of `base_exp`, and `mode`. -/
structure DoubleState where
  significant : ℕ
  digits : ℕ
  mode : Bool

/-- The next character of `to_double`. -/
def doubleStep (s : DoubleState) (ch : Byte) : Except HandlerError DoubleState :=
  if isdigit ch then
    let significant := s.significant * 10 + digit ch
    -- `significant` is signed
    if 2 ^ 63 ≤ significant then .error .undefined
    else .ok { s with
      significant := significant
      digits := if s.mode then s.digits + 1 else s.digits }
  else if ch = chr '.' then
    if s.mode then .error (.parsingError "expected endline token")
    else .ok { s with mode := true }
  else .error (.parsingError "expected real number token")

/-- `to_double` -/
def toDouble (text : List Byte) : Except HandlerError Decimal := do
  let s ← text.foldlM doubleStep { significant := 0, digits := 0, mode := false }
  return { significant := BitVec.ofNat 64 s.significant, digits := s.digits }

/-- `res`, `digit`, and whether the state is `state_digit`. -/
structure SecondsState where
  res : BitVec 64
  digit : BitVec 64
  inDigit : Bool

/-- The next character of `to_seconds`. -/
def secondsStep (s : SecondsState) (ch : Byte) : Except HandlerError SecondsState :=
  let unit (scale : BitVec 64) : SecondsState :=
    { res := s.res + s.digit * scale, digit := 0, inDigit := false }
  if isdigit ch then
    .ok { s with digit := s.digit * 10 + BitVec.ofNat 64 (ChamberSpo.digit ch), inDigit := true }
  else if s.inDigit = false then .error (.parsingError "invalid time format")
  else if ch = chr 'S' then .ok (unit 1)
  else if ch = chr 'M' then .ok (unit 60)
  else if ch = chr 'H' then .ok (unit (60 * 60))
  else if ch = chr 'D' then .ok (unit (60 * 60 * 24))
  else .error (.parsingError "invalid time format")

/-- `to_seconds`. Digits that no unit follows are not counted. -/
def toSeconds (text : List Byte) : Except HandlerError (BitVec 64) := do
  let s ← (tokenStrupr text).foldlM secondsStep { res := 0, digit := 0, inDigit := false }
  return s.res

/-- `to_percent`, from a character on. `res` is a `u8`, so 260 is 4. -/
def toPercentFrom (res : BitVec 8) : List Byte → Except HandlerError (BitVec 8)
  | [] => .ok res
  | ch :: rest =>
    if isdigit ch then
      let res := res * 10 + BitVec.ofNat 8 (digit ch)
      if 100 < res then .error (.parsingError "percentage out of range")
      else toPercentFrom res rest
    else if ch ≠ chr '%' ∨ rest ≠ [] then .error (.parsingError "unrecognizable data unit")
    else toPercentFrom res rest

/-- `to_percent` -/
def toPercent (text : List Byte) : Except HandlerError (BitVec 8) := toPercentFrom 0 text

/-- `enum state` of `to_bytes` -/
inductive BytesState where
  | begin
  | digit
  | si
  | end
  deriving DecidableEq, Repr

/-- The next character of `to_bytes`. -/
def bytesStep (s : BytesState × BitVec 64) (ch : Byte) :
    Except HandlerError (BytesState × BitVec 64) :=
  let (state, res) := s
  let more := (BytesState.digit, res * 10 + BitVec.ofNat 64 (digit ch))
  let error := Except.error (.parsingError "unrecognizable data unit")
  match state with
  | .begin => if isdigit ch then .ok more else error
  | .digit =>
    if isdigit ch then .ok more
    else if ch = chr 'B' then .ok (.end, res)
    else if ch = chr 'K' then .ok (.si, res * 2 ^ 10)
    else if ch = chr 'M' then .ok (.si, res * 2 ^ 20)
    else if ch = chr 'G' then .ok (.si, res * 2 ^ 30)
    else if ch = chr 'T' then .ok (.si, res * 2 ^ 40)
    else error
  | .si => if ch = chr 'B' then .ok (.end, res) else error
  | .end => error

/-- `to_bytes` -/
def toBytes (text : List Byte) : Except HandlerError (BitVec 64) := do
  let (_, res) ← (tokenStrupr text).foldlM bytesStep (.begin, 0)
  return res

/-! ## Parts -/

/-- The parts of a text before, between and after delimiters. There is none after the last
character. -/
def splitText (delimiter : Byte) : List Byte → List (List Byte)
  | [] => []
  | ch :: rest =>
    if ch = delimiter then [] :: splitText delimiter rest
    else match splitText delimiter rest with
      | [] => [[ch]]
      | part :: parts => (ch :: part) :: parts

/-- `token_split`: the count that it returns, `limit + 1` if there are more than `limit` parts, and
the parts that it wrote. -/
def tokenSplit (limit : ℕ) (delimiter : Byte) (text : List Byte) : ℕ × List (List Byte) :=
  let parts := splitText delimiter text
  (min parts.length (limit + 1), parts.take limit)

/-- `tokens[i]`, which nothing was written to if there are fewer parts. -/
def partAt (parts : List (List Byte)) (i : ℕ) : Except HandlerError (List Byte) :=
  match parts[i]? with
  | some part => .ok part
  | none => .error .undefined

/-! ## Upper case -/

theorem toBytes_strupr (text : List Byte) : toBytes (tokenStrupr text) = toBytes text := by
  simp only [toBytes]
  rw [tokenStrupr_tokenStrupr]

/-- A conversion that looks at each character sees only digits and characters that are not letters. -/
theorem foldlM_strupr {σ : Type} (step : σ → Byte → Except HandlerError σ)
    (hstep : ∀ s ch, step s (toupper ch) = step s ch) (s : σ) (text : List Byte) :
    (tokenStrupr text).foldlM step s = text.foldlM step s := by
  simp only [tokenStrupr]
  rw [List.foldlM_map]
  congr 1
  funext s ch
  exact hstep s ch

theorem integerStep_toupper (res : BitVec 64) (ch : Byte) :
    integerStep res (toupper ch) = integerStep res ch := by
  simp only [integerStep]
  rw [isdigit_toupper]
  by_cases h : isdigit ch = true
  · rw [toupper_of_isdigit ch h]
  · rw [if_neg h, if_neg h]

theorem toInteger_strupr (text : List Byte) : toInteger (tokenStrupr text) = toInteger text :=
  foldlM_strupr integerStep integerStep_toupper 0 text

theorem doubleStep_toupper (s : DoubleState) (ch : Byte) :
    doubleStep s (toupper ch) = doubleStep s ch := by
  have hdot : Caseless (chr '.') := by decide
  simp only [doubleStep]
  rw [isdigit_toupper]
  by_cases h : isdigit ch = true
  · rw [toupper_of_isdigit ch h]
  · simp only [if_neg h, hdot ch]

theorem toDouble_strupr (text : List Byte) : toDouble (tokenStrupr text) = toDouble text := by
  simp only [toDouble]
  rw [foldlM_strupr doubleStep doubleStep_toupper]

/-- The parts are where they were. -/
theorem splitText_strupr {d : Byte} (hd : Caseless d) (text : List Byte) :
    splitText d (tokenStrupr text) = (splitText d text).map tokenStrupr := by
  induction text with
  | nil => rfl
  | cons ch rest ih =>
    have hcons : tokenStrupr (ch :: rest) = toupper ch :: tokenStrupr rest := rfl
    rw [hcons]
    simp only [splitText]
    rw [ih]
    by_cases h : ch = d
    · rw [if_pos h, if_pos ((hd ch).mpr h)]
      rfl
    · rw [if_neg h, if_neg (mt (hd ch).mp h)]
      cases splitText d rest with
      | nil => rfl
      | cons part parts => rfl

theorem tokenSplit_strupr (limit : ℕ) {d : Byte} (hd : Caseless d) (text : List Byte) :
    tokenSplit limit d (tokenStrupr text) =
      ((tokenSplit limit d text).1, (tokenSplit limit d text).2.map tokenStrupr) := by
  simp only [tokenSplit]
  simp only [splitText_strupr hd, List.length_map, List.map_take]

end ChamberSpo

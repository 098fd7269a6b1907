import ChamberSpo.LineParser
import ChamberSpo.Properties

/-!
# Reading a parameter file

`parse_param` of `parser.c`: `read_line` copies a line of the file to the line buffer, and
`parse_line` takes what is in the buffer up to a zero.

* `readLine` — to the next line feed, over a carriage return or a comment.
* `lineText`, `parseBuffer` — the text in the buffer, and `parse_line` on it.
* `rewriteTokens` — what `token_strupr` leaves in the buffer.
* `parseFrom`, `parseParam` — the loop, and all of it.

The buffer is a local variable that nothing sets up, so what is in it before the first line is
arbitrary.
-/

namespace ChamberSpo

/-! ## The line buffer -/

/-- Bytes in place of those from an offset on. -/
def Buf.putText (buf : Buf) (off : ℕ) (text : List Byte) : Buf :=
  fun i => if off ≤ i then text[i - off]?.getD (buf i) else buf i

/-- `'\n'` -/
def lf : Byte := chr '\n'

/-- `'\r'` -/
def cr : Byte := chr '\r'

/-- `LINE_BUF_LEN` -/
def lineBufLen : ℕ := 256

/-- What `read_line` comes to: the column it returns, the buffer, what is left of the file, and
`feof`. -/
structure ReadLine where
  col : ℕ
  buf : Buf
  rest : List Byte
  eof : Bool

/-- "ignore comment until the next line feed" -/
def skipComment : List Byte → List Byte × Bool
  | [] => ([], true)
  | ch :: rest => if ch = lf then (rest, false) else skipComment rest

/-- `read_line`, from a column on; nothing if it returns -1. At the end of the file no zero is
written. -/
def readLine (col : ℕ) (buf : Buf) : List Byte → Option ReadLine
  | [] => some { col := col, buf := buf, rest := [], eof := true }
  | ch :: rest =>
    if ch = lf then
      some { col := col, buf := buf.putText col [0], rest := rest, eof := false }
    else if ch = chr '#' ∨ ch = chr ';' then
      let (rest, eof) := skipComment rest
      some { col := col, buf := buf.putText col [0], rest := rest, eof := eof }
    else if col + 1 = lineBufLen then none
    else readLine (col + 1) (buf.putText col [if ch = cr then 0 else ch]) rest

/-- What is in the buffer before the first zero, or all of it. -/
def lineText (buf : Buf) : List Byte :=
  ((List.range lineBufLen).map buf).takeWhile (· ≠ 0)

/-- `parse_line` on the buffer. It goes on past the end if it finds no zero before. -/
def parseBuffer (parser : Parser) (buf : Buf) : Except ParseError Parser :=
  let line := lineText buf
  if line.length < lineBufLen then parseLine parser line
  else match line.foldlM (parseStep line) (parserNewline parser) with
    | .ok _ => .error .undefined
    | .error e => .error e

/-! ## What the handlers leave -/

/-- The bytes of a token. -/
def Token.read (token : Token) (buf : Buf) : List Byte :=
  (List.range token.len).map fun i => buf (token.col + i)

/-- A token is changed where it stands. -/
def Token.rewrite (token : Token) (f : List Byte → List Byte) (buf : Buf) : Buf :=
  buf.putText token.col (f (token.read buf))

/-- The line buffer after a call of a handler: the key is in upper case, and the value as its
property leaves it. -/
def rewriteTokens (parser : Parser) (buf : Buf) (call : HandlerCall) : Buf :=
  match call with
  | .sectionDefined _ => buf
  | .propertyDefined key _ =>
    let buf := (parser.tokens 0).rewrite tokenStrupr buf
    match propertyOf key with
    | none => buf
    | some property => (parser.tokens 1).rewrite property.left buf
  | .envRefered _ _ => (parser.tokens 0).rewrite tokenStrupr buf

/-! ## The file -/

/-- A call of `parse_line`. -/
structure GivenLine where
  text : List Byte
  /-- it returned 0 -/
  accepted : Bool
  calls : List HandlerCall

/-- The local variables of `parse_param`. -/
structure FileParser where
  parser : Parser
  lineBuf : Buf
  lineNum : ℕ
  params : Params
  /-- the calls of `parse_line` so far -/
  given : List GivenLine

/-- Why `parse_param` does not return 0. -/
inductive ParamError where
  /-- "line buffer overflow!", and it returns -1 -/
  | overflow (lineNum : ℕ)
  /-- the process ends, with a message of the automaton -/
  | syntaxError (lineNum colNum : ℕ) (message : String)
  /-- the process ends, with a message of a handler -/
  | handler (lineNum : ℕ) (message : String)
  /-- the source does not say what happens -/
  | undefined

/-- `parse_line` returned, and the handlers that it called did. -/
def handleLine (s : FileParser) (parser : Parser) (accepted : Bool) :
    Except ParamError FileParser :=
  match parser.calls.foldlM handle s.params with
  | .ok params => .ok {
      parser := parser
      lineBuf := parser.calls.foldl (rewriteTokens parser) s.lineBuf
      lineNum := s.lineNum + 1
      params := params
      given := s.given ++ [{
        text := lineText s.lineBuf
        accepted := accepted
        calls := parser.calls }] }
  | .error (.parsingError message) => .error (.handler (s.lineNum + 1) message)
  | .error .undefined => .error .undefined

/-- `parse_line` in the loop, which goes on also when it returns -1. -/
def parseGiven (s : FileParser) : Except ParamError FileParser :=
  match parseBuffer s.parser s.lineBuf with
  | .ok parser => handleLine s parser true
  | .error (.longToken parser) => handleLine s parser false
  | .error (.syntaxError colNum message) =>
    .error (.syntaxError (s.lineNum + 1) (colNum + 1) message)
  | .error .undefined => .error .undefined

/-- The body of the loop after `read_line`. -/
def parseRead (s : FileParser) (r : ReadLine) : Except ParamError FileParser :=
  let s := { s with lineBuf := r.buf }
  if r.col = 0 then .ok s else parseGiven s

theorem skipComment_length (rest : List Byte) (h : (skipComment rest).2 = false) :
    (skipComment rest).1.length < rest.length := by
  induction rest with
  | nil => cases h
  | cons ch rest ih =>
    simp only [skipComment] at h ⊢
    by_cases hch : ch = lf
    · rw [if_pos hch]
      exact Nat.lt_succ_self _
    · rw [if_neg hch] at h ⊢
      exact (ih h).trans (Nat.lt_succ_self _)

theorem readLine_length {file : List Byte} {col : ℕ} {buf : Buf} {r : ReadLine}
    (h : readLine col buf file = some r) (heof : r.eof = false) : r.rest.length < file.length := by
  induction file generalizing col buf with
  | nil =>
    cases h
    cases heof
  | cons ch rest ih =>
    simp only [readLine] at h
    by_cases hlf : ch = lf
    · rw [if_pos hlf] at h
      cases h
      exact Nat.lt_succ_self _
    rw [if_neg hlf] at h
    by_cases hcomment : ch = chr '#' ∨ ch = chr ';'
    · rw [if_pos hcomment] at h
      cases h
      exact (skipComment_length rest heof).trans (Nat.lt_succ_self _)
    rw [if_neg hcomment] at h
    by_cases hfull : col + 1 = lineBufLen
    · rw [if_pos hfull] at h
      cases h
    rw [if_neg hfull] at h
    exact (ih h).trans (Nat.lt_succ_self _)

/-- The loop of `parse_param`, from where the file is read. -/
def parseFrom (s : FileParser) (file : List Byte) : Except ParamError FileParser :=
  match hread : readLine 0 s.lineBuf file with
  | none => .error (.overflow (s.lineNum + 1))
  | some r =>
    match parseRead s r with
    | .error e => .error e
    | .ok s => if _heof : r.eof = false then parseFrom s r.rest else .ok s
termination_by file.length
decreasing_by exact readLine_length hread _heof

/-- The parameters before the first line. -/
def Params.init (env : List Byte → Option (List Byte)) : Params where
  env := env
  shared := .zero
  bounds := .none
  defaultJob := .default
  jobs := []

/-- Without a section there is one job. -/
def Params.finish (s : Params) : Params :=
  if s.jobs = [] then { s with jobs := [s.defaultJob] } else s

/-- `parse_param` returns 0. `parser` and `lineBuf` are what is on the stack. -/
def parseParam (env : List Byte → Option (List Byte)) (parser : Parser) (lineBuf : Buf)
    (file : List Byte) : Except ParamError FileParser := do
  let s ← parseFrom {
    parser := { parser with curToken := none, endOfToken := false }
    lineBuf := lineBuf
    lineNum := 0
    params := .init env
    given := [] } file
  return { s with params := s.params.finish }

/-! ## A round of the loop -/

section Round

variable {s s' : FileParser} {file : List Byte} {r : ReadLine}

theorem parseFrom_more (hread : readLine 0 s.lineBuf file = some r) (heof : r.eof = false)
    (hline : parseRead s r = .ok s') : parseFrom s file = parseFrom s' r.rest := by
  rw [parseFrom]
  split
  · next h => exact absurd (hread.symm.trans h) nofun
  · next r' h =>
    obtain rfl : r = r' := Option.some.inj (hread.symm.trans h)
    rw [hline]
    exact dif_pos heof

theorem parseFrom_last (hread : readLine 0 s.lineBuf file = some r) (heof : r.eof = true)
    (hline : parseRead s r = .ok s') : parseFrom s file = .ok s' := by
  rw [parseFrom]
  split
  · next h => exact absurd (hread.symm.trans h) nofun
  · next r' h =>
    obtain rfl : r = r' := Option.some.inj (hread.symm.trans h)
    rw [hline]
    exact dif_neg (by rw [heof]; decide)

/-- The loop goes on to the end of the file, or the process ends. -/
theorem parseFrom_ok {out : FileParser} (h : parseFrom s file = .ok out) :
    ∃ r s', readLine 0 s.lineBuf file = some r ∧ parseRead s r = .ok s' ∧
      (if r.eof = false then parseFrom s' r.rest else .ok s') = .ok out := by
  rw [parseFrom] at h
  split at h
  · cases h
  · next r hread =>
    cases hline : parseRead s r with
    | error e =>
      rw [hline] at h
      cases h
    | ok s' =>
      rw [hline] at h
      exact ⟨r, s', hread, hline, h⟩

/-! ## The calls of the handlers -/

theorem handleLine_params {p : Parser} {accepted : Bool} (h : handleLine s p accepted = .ok s') :
    ∃ new, s'.given = s.given ++ new ∧
      (new.flatMap (·.calls)).foldlM handle s.params = .ok s'.params := by
  simp only [handleLine] at h
  cases hrun : p.calls.foldlM handle s.params with
  | error e =>
    rw [hrun] at h
    cases e <;> cases h
  | ok params =>
    rw [hrun] at h
    cases h
    refine ⟨_, rfl, ?_⟩
    rw [List.flatMap_singleton]
    exact hrun

theorem parseGiven_params (h : parseGiven s = .ok s') :
    ∃ new, s'.given = s.given ++ new ∧
      (new.flatMap (·.calls)).foldlM handle s.params = .ok s'.params := by
  simp only [parseGiven] at h
  cases hparse : parseBuffer s.parser s.lineBuf with
  | ok p =>
    rw [hparse] at h
    exact handleLine_params h
  | error e =>
    rw [hparse] at h
    cases e with
    | longToken p => exact handleLine_params h
    | syntaxError colNum message => cases h
    | undefined => cases h

theorem parseRead_params (h : parseRead s r = .ok s') :
    ∃ new, s'.given = s.given ++ new ∧
      (new.flatMap (·.calls)).foldlM handle s.params = .ok s'.params := by
  simp only [parseRead] at h
  by_cases hcol : r.col = 0
  · rw [if_pos hcol] at h
    cases h
    exact ⟨[], (List.append_nil _).symm, rfl⟩
  · rw [if_neg hcol] at h
    obtain ⟨new, hgiven, hrun⟩ := parseGiven_params h
    exact ⟨new, hgiven, hrun⟩

/-- The handlers are called for the lines in order. -/
theorem parseFrom_params {out : FileParser} (h : parseFrom s file = .ok out) :
    ∃ new, out.given = s.given ++ new ∧
      (new.flatMap (·.calls)).foldlM handle s.params = .ok out.params := by
  induction hn : file.length using Nat.strong_induction_on generalizing file s with
  | h n ih =>
    obtain ⟨r, s', hread, hline, hnext⟩ := parseFrom_ok h
    obtain ⟨new, hgiven, hrun⟩ := parseRead_params hline
    by_cases heof : r.eof = false
    · rw [if_pos heof] at hnext
      obtain ⟨new', hgiven', hrun'⟩ := ih _ (hn ▸ readLine_length hread heof) hnext rfl
      refine ⟨new ++ new', by rw [hgiven', hgiven, List.append_assoc], ?_⟩
      rw [List.flatMap_append, List.foldlM_append, hrun]
      exact hrun'
    · rw [if_neg heof] at hnext
      obtain rfl := Except.ok.inj hnext
      exact ⟨new, hgiven, hrun⟩

end Round

end ChamberSpo

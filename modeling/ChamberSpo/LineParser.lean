import ChamberSpo.Params

/-!
# Parsing a line

The automaton of `parser.c` that takes a line of a parameter file apart.

* `parserStateTable`, `parserNextState` — the table, which has no column for byte 255.
* `parseChar` — a character that is not white space.
* `parseLine` — a line, to its terminating zero.

What the handlers do is left to the properties; here their calls are collected (`HandlerCall`).
A handler that does not return ends the process, and what follows it does not happen.
-/

namespace ChamberSpo

/-! ## Characters -/

/-- A character constant. -/
def chr (c : Char) : Byte := BitVec.ofNat 8 c.toNat

/-- `isspace`, in a locale that has no white space from byte 128 on, as C and those of UTF-8. -/
def isspace (ch : Byte) : Bool := ch == chr ' ' || (0x09 ≤ ch && ch ≤ 0x0D)

/-- `['a' ... 'z']` and `['A' ... 'Z']` -/
def isLetter (ch : Byte) : Bool :=
  (chr 'a' ≤ ch && ch ≤ chr 'z') || (chr 'A' ≤ ch && ch ≤ chr 'Z')

/-- The entries of a row for a letter and `['_']`. -/
def isNameStart (ch : Byte) : Bool := isLetter ch || ch == chr '_'

/-- The entries of a row for a letter, `['0' ... '9']` and `['_']`. -/
def isName (ch : Byte) : Bool :=
  isLetter ch || (chr '0' ≤ ch && ch ≤ chr '9') || ch == chr '_'

/-- The entries of `parser_state_prop_equal` that begin a value. -/
def isValueStart (ch : Byte) : Bool :=
  isName ch || ch == chr '.' || ch == chr ':' || ch == chr '/' || ch == chr '-'

/-- The entries of `parser_state_prop_value` that continue a value. -/
def isValue (ch : Byte) : Bool := isValueStart ch || ch == chr ',' || ch == chr '%'

/-! ## The table -/

/-- `enum parser_state` -/
inductive ParserState where
  | error
  | init
  | sectionOpener
  | sectionName
  | sectionCloser
  | propKey
  | propEqual
  | propValue
  | envDollar
  | envOpener
  | envKey
  | envCloser
  | endline
  deriving DecidableEq, Repr

/-- `parser_state_table`, for the bytes that it has a column for. -/
def parserStateTable (state : ParserState) (ch : Byte) : ParserState :=
  match state with
  | .init =>
    if ch = 0 then .endline
    else if ch = chr '[' then .sectionOpener
    else if isLetter ch then .propKey
    else .error
  | .sectionOpener => if isName ch then .sectionName else .error
  | .sectionName =>
    if isName ch then .sectionName
    else if ch = chr ']' then .sectionCloser
    else .error
  | .sectionCloser => if ch = 0 then .endline else .error
  | .propKey =>
    if isName ch then .propKey
    else if ch = chr '=' then .propEqual
    else .error
  | .propEqual =>
    if isValueStart ch then .propValue
    else if ch = chr '$' then .envDollar
    else .error
  | .propValue =>
    if ch = 0 then .endline
    else if isValue ch then .propValue
    else .error
  | .envDollar => if ch = chr '{' then .envOpener else .error
  | .envOpener => if isNameStart ch then .envKey else .error
  | .envKey =>
    if isName ch then .envKey
    else if ch = chr '}' then .envCloser
    else .error
  | .envCloser => if ch = 0 then .endline else .error
  | .error | .endline => .error

/-- The row after that of a state. -/
def ParserState.nextRow : ParserState → Option ParserState
  | .error => some .init
  | .init => some .sectionOpener
  | .sectionOpener => some .sectionName
  | .sectionName => some .sectionCloser
  | .sectionCloser => some .propKey
  | .propKey => some .propEqual
  | .propEqual => some .propValue
  | .propValue => some .envDollar
  | .envDollar => some .envOpener
  | .envOpener => some .envKey
  | .envKey => some .envCloser
  | .envCloser => some .endline
  | .endline => none

/-- `parser_next_state`. A row has `U8_MAX` entries, so byte 255 reads the first entry of the next
row, and past the end of the table there is none. -/
def parserNextState (state : ParserState) (ch : Byte) : Option ParserState :=
  if ch = 255 then state.nextRow.map (parserStateTable · 0) else some (parserStateTable state ch)

/-! ## The parser -/

/-- `struct token`, with `value` as an index into the line. -/
structure Token where
  col : ℕ
  len : ℕ
  deriving DecidableEq, Repr

/-- The text of a token. -/
def Token.text (token : Token) (line : List Byte) : List Byte :=
  (line.drop token.col).take token.len

/-- A call of a handler, with the texts of the tokens that it reads. -/
inductive HandlerCall where
  | sectionDefined (name : List Byte)
  | propertyDefined (key value : List Byte)
  /-- `on_env_refered` puts the value of a variable in place of `reference`, and
  `on_property_defined` gets it -/
  | envRefered (key reference : List Byte)
  deriving DecidableEq, Repr

/-- The fields of `struct parser` that a line changes. -/
structure Parser where
  state : ParserState
  colNum : ℕ
  curTokenIdx : ℕ
  tokens : ℕ → Token
  /-- the index of `cur_token` -/
  curToken : Option ℕ
  endOfToken : Bool
  /-- the calls of this line so far -/
  calls : List HandlerCall

/-- Why a line is not accepted. -/
inductive ParseError where
  /-- `parsing_error` prints the message and exits -/
  | syntaxError (colNum : ℕ) (message : String)
  /-- `parse_line` returns -1 -/
  | longToken (parser : Parser)
  /-- what is read is not in the table -/
  | undefined

/-- `MAX_TOKEN_LEN` -/
def maxTokenLen : ℕ := 128

/-- `syntax_error`, for `parser_syntax_error`. -/
def syntaxError (parser : Parser) : ParseError :=
  .syntaxError parser.colNum <| match parser.state with
    | .propKey => "expected = token"
    | .propValue => "expected endline token"
    | .propEqual => "expected value token"
    | .sectionOpener => "expected section identifier token"
    | .sectionName => "expected ] token"
    | .envDollar => "expected \x7b token"
    | .envOpener => "expected environment variable token"
    | .envKey => "expected \x7d token"
    | .envCloser => "expected endline token"
    | .error | .init | .sectionCloser | .endline => "unrecognizable character!"

/-- `parser_newline` -/
def parserNewline (parser : Parser) : Parser :=
  { parser with state := .init, colNum := 0, curTokenIdx := 0, calls := [] }

/-- `cur_token` becomes the next token, which begins here. -/
def startToken (parser : Parser) : Parser :=
  { parser with
    curToken := some parser.curTokenIdx
    curTokenIdx := parser.curTokenIdx + 1
    tokens := Function.update parser.tokens parser.curTokenIdx ⟨parser.colNum, 0⟩ }

/-- The handlers that are called when `cur_token` ends. -/
def endToken (line : List Byte) (parser : Parser) (token : ℕ) : Parser :=
  let text i := (parser.tokens i).text line
  { parser with
    curToken := none
    calls := parser.calls ++ match parser.state with
      | .propValue => [.propertyDefined (text (token - 1)) (text token)]
      | .sectionName => [.sectionDefined (text token)]
      | .envCloser => [.envRefered (text (token - 1)) (text token)]
      | _ => [] }

/-- What `parse_char` does when it comes to a new state. -/
def enterState (line : List Byte) (parser : Parser) (newState : ParserState) : Parser :=
  match newState with
  | .sectionName | .propKey | .propValue | .envDollar => startToken parser
  | .envOpener | .envKey | .envCloser => parser
  | _ =>
    match parser.curToken with
    | some token => endToken line parser token
    | none => parser

/-- The end of `parse_char`: the character is one of `cur_token`. -/
def countChar (parser : Parser) (newState : ParserState) : Except ParseError Parser :=
  match parser.curToken with
  | some i =>
    let len := (parser.tokens i).len + 1
    let parser := { parser with
      tokens := Function.update parser.tokens i { parser.tokens i with len := len } }
    if maxTokenLen ≤ len then .error (.longToken parser)
    else .ok { parser with state := newState }
  | none => .ok { parser with state := newState }

/-- `parse_char` -/
def parseChar (line : List Byte) (parser : Parser) (ch : Byte) : Except ParseError Parser :=
  match parserNextState parser.state ch with
  | none => .error .undefined
  | some newState =>
    if newState = .error then .error (syntaxError parser)
    else if newState ≠ parser.state then
      countChar { enterState line parser newState with endOfToken := false } newState
    else if parser.endOfToken then .error (syntaxError parser)
    else countChar parser newState

/-- The body of the loop of `parse_line`. -/
def parseStep (line : List Byte) (parser : Parser) (ch : Byte) : Except ParseError Parser :=
  if isspace ch then .ok { parser with endOfToken := true, colNum := parser.colNum + 1 }
  else do
    let parser ← parseChar line parser ch
    return { parser with colNum := parser.colNum + 1 }

/-- `parse_line`, on the line that is in the buffer before its terminating zero. -/
def parseLine (parser : Parser) (line : List Byte) : Except ParseError Parser :=
  (line ++ [0]).foldlM (parseStep line) (parserNewline parser)

end ChamberSpo

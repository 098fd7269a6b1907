import ChamberSpo.Tokens

/-!
# Properties

What the handlers of `parser.c` do with a property of a parameter file.

* `parseOperation`, `parseAmount`, `parseSlba`, … — the properties with a value of their own form.
* `Property` — what a property is written to: the job, the parameters that the jobs share, or both
  the job and the bounds of the sizes.
* `conversions` — the keys, with `properties` as what their values are written to.
* `handle` — a call of a handler, with the text that it leaves where the value stands.

That a `Property` of a job gets nothing but the job is why it writes nothing else. That a value, but
for the texts that are copied, is the same in capitals is a field of it.
-/

namespace ChamberSpo

/-! ## Values of their own form -/

/-- `parse_op_type` -/
def parseOpType (text : List Byte) : Except HandlerError BioOpcode :=
  let text := tokenStrupr text
  if text ∈ [ascii "READ", ascii "R"] then .ok .read
  else if text ∈ [ascii "WRITE", ascii "W"] then .ok .write
  else if text ∈ [ascii "FLUSH", ascii "F"] then .ok .flush
  else if text ∈ [ascii "DEALLOCATE", ascii "DEALLOC", ascii "D"] then .ok .deallocate
  else if text ∈ [ascii "WRITE_ZEROES", ascii "WRITE_ZEROS", ascii "WRITE_ZERO", ascii "WZ",
      ascii "Z"] then .ok .writeZeroes
  else if text ∈ [ascii "WRITE_UNCORRECTABLE", ascii "WRITE_UNCORRECT", ascii "WRITE_UNCOR",
      ascii "WU", ascii "U"] then .ok .writeUncorrect
  else if text = ascii "IDENTIFY" then .ok .identify
  else if text = ascii "FW_DOWNLOAD" then .ok .fwDownload
  else .error (.parsingError "unrecognizable operation type")

/-- The variables of the loop of `parse_operation`. -/
structure OperationState where
  remainedRate : BitVec 32
  optypeMask : List BioOpcode
  operations : BioOpcode → BitVec 32
  /-- what `subparam_tokens[0]` was in the round before -/
  name : Option (List Byte)

/-- A round of the loop of `parse_operation`. -/
def operationStep (s : OperationState) (param : List Byte) : Except HandlerError OperationState :=
  let (numRateTokens, subparams) := tokenSplit 2 (chr ':') param
  match subparams[0]?.or s.name with
  | none => .error .undefined
  | some name => do
    let optype ← parseOpType name
    let next (rate : BitVec 32) : OperationState :=
      { remainedRate := s.remainedRate - rate
        optypeMask := optype :: s.optypeMask
        operations := Function.update s.operations optype rate
        name := some (tokenStrupr name) }
    if optype ∈ s.optypeMask then .error (.parsingError "operation redefinition")
    else if numRateTokens = 1 then .ok (next s.remainedRate)
    else do
      let rate := (← toInteger (← partAt subparams 1)).setWidth 32
      if s.remainedRate < rate then
        .error (.parsingError "total % of operations should equal to 100")
      else .ok (next rate)

/-- `parse_operation`: the rates that it writes. -/
def parseOperation (value : List Byte) : Except HandlerError (BioOpcode → BitVec 32) := do
  let (numOpTokens, params) := tokenSplit 10 (chr ',') value
  let s ← params.foldlM operationStep
    { remainedRate := 100, optypeMask := [], operations := fun _ => 0, name := none }
  -- `param_tokens` has 10 entries
  if 10 < numOpTokens then .error .undefined
  else if 0 < s.remainedRate then
    .error (.parsingError "total % of operations should equal to 100")
  else .ok s.operations

/-- The names of the operations in upper case, and what follows a colon as it was. -/
def struprNames : Bool → List Byte → List Byte
  | _, [] => []
  | inName, ch :: rest =>
    (if inName then toupper ch else ch) ::
      struprNames (if ch = chr ',' then true else if ch = chr ':' then false else inName) rest

/-- What `parse_amount` reads. -/
inductive AmountValue where
  | infinite
  | time (seconds : BitVec 64)
  | io (ios : BitVec 64)
  | percent (percent : BitVec 7)
  | bytes (bytes : BitVec 64)

/-- `parse_amount`, up to what it writes. -/
def parseAmount (value : List Byte) : Except HandlerError AmountValue := do
  let (numTokens, tokens) := tokenSplit 3 (chr ':') value
  let unit ← partAt tokens 0
  if unit = ascii "INFINITE" then .ok .infinite
  else if unit = ascii "TIME" then
    if numTokens ≠ 2 then .error (.parsingError "parameter 'amount of time' is required")
    else return .time (← toSeconds (← partAt tokens 1))
  else if unit = ascii "IO" then
    if numTokens ≠ 2 then .error (.parsingError "parameter 'amount of ios' is required")
    else return .io (← toInteger (← partAt tokens 1))
  else if unit = ascii "BYTE" then
    if numTokens ≠ 2 then .error (.parsingError "parameter 'amount of bytes' is required")
    else
      let text ← partAt tokens 1
      if text.getLast? = some (chr '%') then return .percent ((← toPercent text).setWidth 7)
      else return .bytes (← toBytes text)
  else .error (.parsingError "invalid i/o amount unit")

/-- What `parse_amount` writes. The flag of a percentage is not taken back. -/
def AmountValue.put (amount : AmountValue) (job : JobConfig) : JobConfig :=
  match amount with
  | .infinite => { job with amountType := .infinite }
  | .time x => { job with amountType := .time, amount := x }
  | .io x => { job with amountType := .io, amount := x }
  | .percent x =>
    { job with
      amountType := .byte
      amountBytesPercentEnabled := true
      amountBytesPercent := x }
  | .bytes x => { job with amountType := .byte, amount := x }

/-- What `parse_unwr_read` and `parse_dealloc_read` read. -/
inductive ReadResult where
  | dontcare
  | auto
  | error
  | value (ones : Bool)

/-- `parse_unwr_read` and `parse_dealloc_read`, up to what they write. -/
def parseReadResult (value : List Byte) : Except HandlerError ReadResult := do
  let (numTokens, tokens) := tokenSplit 3 (chr ':') value
  let result ← partAt tokens 0
  if result = ascii "DONTCARE" then .ok .dontcare
  else if result = ascii "AUTO" then .ok .auto
  else if result = ascii "ERROR" then .ok .error
  else if result = ascii "VALUE" then
    if numTokens ≠ 2 then .error (.parsingError "value type must be specified")
    else do
      let text ← partAt tokens 1
      if text = ascii "0" then .ok (.value false)
      else if text = ascii "1" then .ok (.value true)
      else .error (.parsingError "invalid value type, '0' or '1' is allowed")
  else .error (.parsingError "invalid result type")

/-- What `parse_unwr_read` writes. -/
def ReadResult.putUnwrRead (result : ReadResult) (job : JobConfig) : JobConfig :=
  match result with
  | .dontcare => { job with unwrReadResultType := .dontcare }
  | .auto => { job with unwrReadResultType := .auto }
  | .error => { job with unwrReadResultType := .error }
  | .value ones =>
    { job with
      unwrReadResultType := .value
      unwrReadValueType := if ones then .ones else .zeroes }

/-- What `parse_dealloc_read` writes. -/
def ReadResult.putDeallocRead (result : ReadResult) (job : JobConfig) : JobConfig :=
  match result with
  | .dontcare => { job with deallocReadResultType := .dontcare }
  | .auto => { job with deallocReadResultType := .auto }
  | .error => { job with deallocReadResultType := .error }
  | .value ones =>
    { job with
      deallocReadResultType := .value
      deallocReadValueType :=
        if ones then deallocReadValueTypeOnes else deallocReadValueTypeZeroes }

/-- What `parse_slba` reads. -/
inductive SlbaValue where
  | type (slbaType : SlbaType)
  | param (slbaType : SlbaType) (slba : SlbaParam)
  /-- a name that is not known, of which nothing is said -/
  | unknown

/-- `parse_slba`, up to what it writes. -/
def parseSlba (value : List Byte) : Except HandlerError SlbaValue := do
  let (numTokens, tokens) := tokenSplit 4 (chr ':') value
  let name ← partAt tokens 0
  if name = ascii "SEQ" ∨ name = ascii "SEQUENTIAL" then
    if numTokens = 1 then .ok (.param .seq (.fixed 0))
    else return .param .seq (.fixed (← toInteger (← partAt tokens 1)))
  else if name = ascii "RANDOM" ∨ name = ascii "UNIFORM" then .ok (.type .uniform)
  else if name = ascii "ZIPF" then
    if numTokens = 1 then .ok (.param .zipf (.zipf { significant := 12, digits := 1 }))
    else if numTokens = 2 then return .param .zipf (.zipf (← toDouble (← partAt tokens 1)))
    else .error (.parsingError "zipf distribution has only one parameter")
  else if name = ascii "PARETO" then
    if numTokens = 1 then
      let one : Decimal := { significant := 1, digits := 0 }
      .ok (.param .pareto (.pareto one one))
    else if numTokens = 3 then
      let scale ← toDouble (← partAt tokens 1)
      let shape ← toDouble (← partAt tokens 2)
      return .param .pareto (.pareto scale shape)
    else .error (.parsingError "pareto distribution has two parameters")
  else if name = ascii "FIXED" then
    if numTokens = 1 then .ok (.param .fixed (.fixed 0))
    else return .param .fixed (.fixed (← toInteger (← partAt tokens 1)))
  else if name = ascii "JESD219" then
    if numTokens = 1 then .ok (.param .jesd219 (.jesd219 true 512))
    else
      let enterprise ← toBool (← partAt tokens 1)
      let sectorSize ← toInteger (← partAt tokens 2)
      return .param .jesd219 (.jesd219 enterprise (sectorSize.setWidth 32))
  else if name = ascii "REPLAY" then .ok (.type .replay)
  else .ok .unknown

/-- What `parse_slba` writes. -/
def SlbaValue.put (value : SlbaValue) (job : JobConfig) : JobConfig :=
  match value with
  | .type slbaType => { job with slbaType := slbaType }
  | .param slbaType slba => { job with slbaType := slbaType, slba := slba }
  | .unknown => job

/-- A bound of `LBA_RANGE`. -/
inductive RangeValue where
  | percent (percent : BitVec 7)
  | bytes (bytes : BitVec 64)

/-- A bound in `parse_lba_range`. -/
def parseRangeValue (text : List Byte) : Except HandlerError RangeValue := do
  if text.getLast? = some (chr '%') then return .percent ((← toPercent text).setWidth 7)
  else return .bytes (← toBytes text)

/-- `parse_lba_range`, up to what it writes. -/
def parseLbaRange (value : List Byte) : Except HandlerError (RangeValue × RangeValue) := do
  let (numTokens, tokens) := tokenSplit 3 (chr ':') value
  if numTokens ≠ 2 then .error (.parsingError "invalid range format")
  else
    let begin ← parseRangeValue (← partAt tokens 0)
    let size ← parseRangeValue (← partAt tokens 1)
    return (begin, size)

/-- `LBA_RANGE`, before the colon. -/
def RangeValue.putBegin (value : RangeValue) (job : JobConfig) : JobConfig :=
  match value with
  | .percent x => { job with lbaRangeBeginPercentEnable := true, lbaRangeBeginPercent := x }
  | .bytes x => { job with lbaRangeBeginPercentEnable := false, lbaRangeBegin := x }

/-- `LBA_RANGE`, after the colon. -/
def RangeValue.putSize (value : RangeValue) (job : JobConfig) : JobConfig :=
  match value with
  | .percent x => { job with lbaRangeSizePercentEnable := true, lbaRangeSizePercent := x }
  | .bytes x => { job with lbaRangeSizePercentEnable := false, lbaRangeSize := x }

/-- `parse_reset`: the least and the greatest period. -/
def parseReset (value : List Byte) : Except HandlerError (BitVec 32 × BitVec 32) := do
  let (numTokens, tokens) := tokenSplit 3 (chr '-') value
  if numTokens = 1 then
    let period := (← toInteger (← partAt tokens 0)).setWidth 32
    return (period, period)
  else if numTokens = 2 then
    let low := (← toInteger (← partAt tokens 0)).setWidth 32
    let high := (← toInteger (← partAt tokens 1)).setWidth 32
    return if high < low then (high, low) else (low, high)
  else .error (.parsingError "invalid reset period format")

/-- `parse_stream`: the number of streams. -/
def parseStream (value : List Byte) : Except HandlerError (BitVec 32) := do
  let (numTokens, tokens) := tokenSplit 1 (chr '-') value
  if numTokens = 1 then return (← toInteger (← partAt tokens 0)).setWidth 32
  else .error (.parsingError "invalid stream format")

/-- `parse_iosize`, up to what it writes: the least and the greatest size. -/
def parseIosize (value : List Byte) : Except HandlerError (BitVec 64 × BitVec 64) := do
  let (numTokens, tokens) := tokenSplit 3 (chr '-') value
  if numTokens = 1 then
    let size ← toBytes (← partAt tokens 0)
    return (size, size)
  else if numTokens = 2 then
    let low ← toBytes (← partAt tokens 0)
    let high ← toBytes (← partAt tokens 1)
    return if high < low then (high, low) else (low, high)
  else .error (.parsingError "invalid i/o size format")

/-- What `parse_iosize` makes of `iosize_min` and `iosize_max`, which are narrower than a size. -/
def IosizeBounds.widen (bounds : IosizeBounds) (sizes : BitVec 64 × BitVec 64) : IosizeBounds where
  max := if sizes.2 < bounds.max.setWidth 64 then bounds.max else sizes.2.setWidth 32
  min := if bounds.min.setWidth 64 < sizes.1 then bounds.min else sizes.1.setWidth 32

/-- The sizes that `parse_iosize` gathers. -/
def IosizeOpcode.Gathered (op : IosizeOpcode) : Prop := op = .read ∨ op = .write ∨ op = .total

instance (op : IosizeOpcode) : Decidable op.Gathered :=
  inferInstanceAs (Decidable (op = .read ∨ op = .write ∨ op = .total))

/-! ## Capitals -/

theorem caseless_delimiters :
    Caseless (chr ',') ∧ Caseless (chr ':') ∧ Caseless (chr '-') := by decide

theorem partAt_strupr (parts : List (List Byte)) (i : ℕ) :
    partAt (parts.map tokenStrupr) i = tokenStrupr <$> partAt parts i := by
  simp only [partAt]
  rw [List.getElem?_map]
  cases parts[i]? <;> rfl

theorem parseOpType_strupr (text : List Byte) : parseOpType (tokenStrupr text) = parseOpType text := by
  simp only [parseOpType]
  rw [tokenStrupr_tokenStrupr]

theorem operationStep_strupr (s : OperationState) (param : List Byte) :
    operationStep s (tokenStrupr param) = operationStep s param := by
  simp only [operationStep]
  rw [tokenSplit_strupr 2 caseless_delimiters.2.1]
  simp only [List.getElem?_map, partAt_strupr, bind_map_left, toInteger_strupr]
  cases (tokenSplit 2 (chr ':') param).2[0]? with
  | none => rfl
  | some name => simp only [Option.map_some, Option.some_or, parseOpType_strupr, tokenStrupr_tokenStrupr]

theorem parseOperation_strupr (value : List Byte) :
    parseOperation (tokenStrupr value) = parseOperation value := by
  simp only [parseOperation]
  rw [tokenSplit_strupr 10 caseless_delimiters.1]
  simp only [List.foldlM_map, operationStep_strupr]

theorem parseReset_strupr (value : List Byte) :
    parseReset (tokenStrupr value) = parseReset value := by
  simp only [parseReset]
  rw [tokenSplit_strupr 3 caseless_delimiters.2.2]
  simp only [partAt_strupr, bind_map_left, toInteger_strupr]

theorem parseStream_strupr (value : List Byte) :
    parseStream (tokenStrupr value) = parseStream value := by
  simp only [parseStream]
  rw [tokenSplit_strupr 1 caseless_delimiters.2.2]
  simp only [partAt_strupr, bind_map_left, toInteger_strupr]

theorem parseIosize_strupr (value : List Byte) :
    parseIosize (tokenStrupr value) = parseIosize value := by
  simp only [parseIosize]
  rw [tokenSplit_strupr 3 caseless_delimiters.2.2]
  simp only [partAt_strupr, bind_map_left, toBytes_strupr]

theorem tokenStrupr_struprNames (inName : Bool) (value : List Byte) :
    tokenStrupr (struprNames inName value) = tokenStrupr value := by
  induction value generalizing inName with
  | nil => rfl
  | cons ch rest ih =>
    have hcons (ch : Byte) (rest : List Byte) :
      tokenStrupr (ch :: rest) = toupper ch :: tokenStrupr rest := rfl
    simp only [struprNames]
    rw [hcons, hcons, ih]
    cases inName with
    | false => rfl
    | true => rw [if_pos rfl, toupper_toupper]

/-! ## Texts -/

/-- The arrays of a job that a value is copied to as it stands. -/
inductive JobText where
  | ioengine
  | ioengineParam
  | controller
  | dependency
  | journalFile
  deriving DecidableEq, Repr

/-- The length of the array. -/
def JobText.size : JobText → ℕ
  | .ioengine | .dependency => 64
  | .ioengineParam | .controller | .journalFile => 256

namespace JobConfig

/-- The texts of a job. -/
def texts (job : JobConfig) : JobText → List Byte
  | .ioengine => job.ioengine
  | .ioengineParam => job.ioengineParam
  | .controller => job.controller
  | .dependency => job.dependency
  | .journalFile => job.journalFile

/-- A job with other texts. -/
def withTexts (job : JobConfig) (texts : JobText → List Byte) : JobConfig :=
  { job with
    ioengine := texts .ioengine
    ioengineParam := texts .ioengineParam
    controller := texts .controller
    dependency := texts .dependency
    journalFile := texts .journalFile }

@[simp] theorem texts_withTexts (job : JobConfig) (texts : JobText → List Byte) :
    (job.withTexts texts).texts = texts := by
  funext field
  cases field <;> rfl

@[simp] theorem withTexts_texts (job : JobConfig) : job.withTexts job.texts = job := rfl

end JobConfig

/-- `memcpy` of the value and its terminator to an array of the job. -/
def setText (field : JobText) (text : List Byte) (job : JobConfig) :
    Except HandlerError JobConfig :=
  if field = .journalFile ∧ job.journalShm ≠ 0 then
    .error (.parsingError "JOURNAL_FILE and JOURNAL_SHM are mutually exclusive")
  else if field.size ≤ text.length then .error .undefined
  else .ok (job.withTexts (Function.update job.texts field text))

/-! ## Values -/

/-- An update of a job that leaves its texts alone. -/
def LeavesTexts (f : JobConfig → JobConfig) : Prop :=
  ∀ job texts, f (job.withTexts texts) = (f job).withTexts texts

/-- The sizes of an entry of `iosizes`. -/
def Iosize.sizes (iosize : Iosize) : BitVec 64 × BitVec 64 := (iosize.iosizeMin, iosize.iosizeMax)

/-- An update of a job that leaves its sizes alone. -/
def LeavesSizes (f : JobConfig → JobConfig) : Prop :=
  ∀ job op, ((f job).iosizes op).sizes = (job.iosizes op).sizes

/-- What a job gets from a value that is converted. -/
structure Setter where
  set : List Byte → JobConfig → Except HandlerError JobConfig
  /-- what is in place of the value after it -/
  left : List Byte → List Byte
  /-- capitals and small letters are the same -/
  set_strupr : ∀ text job, set (tokenStrupr text) job = set text job
  strupr_left : ∀ text, tokenStrupr (left text) = tokenStrupr text
  /-- of the texts of the job, it is at most read whether they are there -/
  set_withTexts : ∀ text job (texts : JobText → List Byte),
    (∀ field, texts field = [] ↔ job.texts field = []) →
      set text (job.withTexts texts) = (·.withTexts texts) <$> set text job
  set_sizes : ∀ text job job', set text job = .ok job' →
    ∀ op, (job'.iosizes op).sizes = (job.iosizes op).sizes

namespace Setter

/-- A value that is converted from its text in upper case, and does not depend on the job. -/
def upper {α : Type} (parse : List Byte → Except HandlerError α) (put : α → JobConfig → JobConfig)
    (hput : ∀ x, LeavesTexts (put x) := by intro x job texts; rfl)
    (hsizes : ∀ x, LeavesSizes (put x) := by intro x job op; rfl) : Setter where
  set text job := do return put (← parse (tokenStrupr text)) job
  left := tokenStrupr
  set_strupr text job := by rw [tokenStrupr_tokenStrupr]
  strupr_left := tokenStrupr_tokenStrupr
  set_withTexts text job texts _ := by
    cases parse (tokenStrupr text) with
    | error e => rfl
    | ok x => exact congrArg Except.ok (hput x job texts)
  set_sizes text job job' h op := by
    obtain ⟨x, -, hx⟩ := bind_eq_ok.mp h
    obtain rfl := pure_eq_ok.mp hx
    exact hsizes x job op

/-- A value that is converted from its text, where capitals do not matter. -/
def plain {α : Type} (parse : List Byte → Except HandlerError α) (put : α → JobConfig → JobConfig)
    (hparse : ∀ text, parse (tokenStrupr text) = parse text)
    (hput : ∀ x, LeavesTexts (put x) := by intro x job texts; rfl)
    (hsizes : ∀ x, LeavesSizes (put x) := by intro x job op; rfl) : Setter where
  set text job := do return put (← parse text) job
  left := id
  set_strupr text job := by rw [hparse]
  strupr_left _ := rfl
  set_withTexts text job texts _ := by
    cases parse text with
    | error e => rfl
    | ok x => exact congrArg Except.ok (hput x job texts)
  set_sizes text job job' h op := by
    obtain ⟨x, -, hx⟩ := bind_eq_ok.mp h
    obtain rfl := pure_eq_ok.mp hx
    exact hsizes x job op

/-- `to_bool` -/
def bool (put : Bool → JobConfig → JobConfig)
    (hput : ∀ x, LeavesTexts (put x) := by intro x job texts; rfl)
    (hsizes : ∀ x, LeavesSizes (put x) := by intro x job op; rfl) : Setter :=
  upper toBool put hput hsizes

/-- `to_seconds` -/
def seconds (put : BitVec 64 → JobConfig → JobConfig)
    (hput : ∀ x, LeavesTexts (put x) := by intro x job texts; rfl)
    (hsizes : ∀ x, LeavesSizes (put x) := by intro x job op; rfl) : Setter :=
  upper toSeconds put hput hsizes

/-- `to_bytes` -/
def bytes (put : BitVec 64 → JobConfig → JobConfig)
    (hput : ∀ x, LeavesTexts (put x) := by intro x job texts; rfl)
    (hsizes : ∀ x, LeavesSizes (put x) := by intro x job op; rfl) : Setter :=
  upper toBytes put hput hsizes

/-- `to_integer` -/
def integer (put : BitVec 64 → JobConfig → JobConfig)
    (hput : ∀ x, LeavesTexts (put x) := by intro x job texts; rfl)
    (hsizes : ∀ x, LeavesSizes (put x) := by intro x job op; rfl) : Setter :=
  plain toInteger put toInteger_strupr hput hsizes

/-- `to_double` -/
def double (put : Decimal → JobConfig → JobConfig)
    (hput : ∀ x, LeavesTexts (put x) := by intro x job texts; rfl)
    (hsizes : ∀ x, LeavesSizes (put x) := by intro x job op; rfl) : Setter :=
  plain toDouble put toDouble_strupr hput hsizes

/-- `IOSIZE_ALIGN` and its like. -/
def iosizeAlign (op : IosizeOpcode) : Setter :=
  bytes
    (fun x job => { job with
      iosizes := Function.update job.iosizes op
        { job.iosizes op with iosizeAlign := x.setWidth 32 } })
    (by intro x job texts; rfl)
    (by
      intro x job op'
      by_cases hop : op' = op
      · subst hop
        simp only [Function.update_self]
        rfl
      · simp only [Function.update_of_ne hop])

/-- `SLBA` -/
def slba : Setter :=
  upper parseSlba SlbaValue.put (by rintro (_ | _ | _) job texts <;> rfl)
    (by rintro (_ | _ | _) job op <;> rfl)

/-- `LBA_RANGE` -/
def lbaRange : Setter :=
  upper parseLbaRange (fun range job => range.2.putSize (range.1.putBegin job))
    (by rintro ⟨_ | _, _ | _⟩ job texts <;> rfl) (by rintro ⟨_ | _, _ | _⟩ job op <;> rfl)

/-- `OPERATION` -/
def operation : Setter where
  set text job := do return { job with operations := ← parseOperation text }
  left := struprNames true
  set_strupr text job := by rw [parseOperation_strupr]
  strupr_left := tokenStrupr_struprNames true
  set_withTexts text job texts _ := by cases parseOperation text <;> rfl
  set_sizes text job job' h op := by
    obtain ⟨x, -, hx⟩ := bind_eq_ok.mp h
    obtain rfl := pure_eq_ok.mp hx
    rfl

/-- `AMOUNT` -/
def amount : Setter :=
  upper parseAmount AmountValue.put (by rintro (_ | _ | _ | _ | _) job texts <;> rfl)
    (by rintro (_ | _ | _ | _ | _) job op <;> rfl)

/-- `UNWR_READ` -/
def unwrRead : Setter :=
  upper parseReadResult ReadResult.putUnwrRead (by rintro (_ | _ | _ | _) job texts <;> rfl)
    (by rintro (_ | _ | _ | _) job op <;> rfl)

/-- `DEALLOC_READ` -/
def deallocRead : Setter :=
  upper parseReadResult ReadResult.putDeallocRead (by rintro (_ | _ | _ | _) job texts <;> rfl)
    (by rintro (_ | _ | _ | _) job op <;> rfl)

/-- `RESET` -/
def reset : Setter :=
  plain parseReset (fun periods job => { job with resetMin := periods.1, resetMax := periods.2 })
    parseReset_strupr

/-- `STREAM` -/
def stream : Setter :=
  plain parseStream (fun x job => { job with numStreams := x }) parseStream_strupr

/-- `JOURNAL_SHM` -/
def journalShm : Setter where
  set text job :=
    if job.journalFile ≠ [] then
      .error (.parsingError "JOURNAL_FILE and JOURNAL_SHM are mutually exclusive")
    else do return { job with journalShm := (← toInteger text).setWidth 32 }
  left := id
  set_strupr text job := by rw [toInteger_strupr]
  strupr_left _ := rfl
  set_withTexts text job texts h := by
    have hfile : texts .journalFile = [] ↔ job.journalFile = [] := h .journalFile
    have hwith : (job.withTexts texts).journalFile = texts .journalFile := rfl
    rw [hwith]
    by_cases hempty : job.journalFile = []
    · rw [if_neg (not_not_intro hempty), if_neg (not_not_intro (hfile.mpr hempty))]
      cases toInteger text <;> rfl
    · rw [if_pos hempty, if_pos (mt hfile.mp hempty)]
      rfl
  set_sizes text job job' h op := by
    obtain ⟨-, h⟩ := ite_error_eq_ok.mp h
    obtain ⟨x, -, hx⟩ := bind_eq_ok.mp h
    obtain rfl := pure_eq_ok.mp hx
    rfl

end Setter

/-! ## Keys -/

/-- What a property is written to. -/
inductive Property where
  | text (field : JobText)
  | value (setter : Setter)
  /-- an entry of `iosizes`, and the bounds of the sizes -/
  | iosize (op : IosizeOpcode)
  /-- what the jobs share -/
  | shared (set : List Byte → GlobalParams → Except HandlerError GlobalParams)

/-- `memcpy` of the value and its terminator to an array of `struct global_params`. -/
def Property.sharedText (put : List Byte → GlobalParams → GlobalParams) : Property :=
  .shared fun x params => if 256 ≤ x.length then .error .undefined else .ok (put x params)

/-- What is in place of the value after the property. -/
def Property.left (property : Property) (value : List Byte) : List Byte :=
  match property with
  | .value setter => setter.left value
  | .iosize _ => tokenStrupr value
  | .text _ | .shared _ => value

theorem Property.strupr_left (property : Property) (value : List Byte) :
    tokenStrupr (property.left value) = tokenStrupr value := by
  cases property with
  | value setter => exact setter.strupr_left value
  | iosize op => exact tokenStrupr_tokenStrupr value
  | text field => rfl
  | shared set => rfl

/-- How the value of a key is converted, and the field that it is for. -/
inductive Conversion where
  | text (field : JobText)
  | bool (field : JobField) (put : Bool → JobConfig → JobConfig)
    (hput : ∀ x, LeavesTexts (put x) := by intro x job texts; rfl)
    (hsizes : ∀ x, LeavesSizes (put x) := by intro x job op; rfl)
  | seconds (field : JobField) (put : BitVec 64 → JobConfig → JobConfig)
    (hput : ∀ x, LeavesTexts (put x) := by intro x job texts; rfl)
    (hsizes : ∀ x, LeavesSizes (put x) := by intro x job op; rfl)
  /-- a `u32` gets what is left of the bytes -/
  | bytes (field : JobField) (put : BitVec 32 → JobConfig → JobConfig)
    (hput : ∀ x, LeavesTexts (put x) := by intro x job texts; rfl)
    (hsizes : ∀ x, LeavesSizes (put x) := by intro x job op; rfl)
  /-- and a field of `w` bits what is left of a number -/
  | integer (w : ℕ) (field : JobField) (put : BitVec w → JobConfig → JobConfig)
    (hput : ∀ x, LeavesTexts (put x) := by intro x job texts; rfl)
    (hsizes : ∀ x, LeavesSizes (put x) := by intro x job op; rfl)
  | double (field : JobField) (put : Decimal → JobConfig → JobConfig)
    (hput : ∀ x, LeavesTexts (put x) := by intro x job texts; rfl)
    (hsizes : ∀ x, LeavesSizes (put x) := by intro x job op; rfl)
  | iosize (op : IosizeOpcode)
  | iosizeAlign (op : IosizeOpcode)
  | slba
  | lbaRange
  | operation
  | amount
  | unwrRead
  | deallocRead
  | reset
  | stream
  | journalShm
  | sharedText (field : SharedField) (put : List Byte → GlobalParams → GlobalParams)
  /-- a text that gets no terminator -/
  | sharedChars (field : SharedField) (put : List Byte → GlobalParams → GlobalParams)
  | sharedNumber (field : SharedField) (put : BitVec 32 → GlobalParams → GlobalParams)

/-- The property of a conversion. -/
def Conversion.property : Conversion → Property
  | .text field => .text field
  | .bool _ put hput hsizes => .value (.bool put hput hsizes)
  | .seconds _ put hput hsizes => .value (.seconds put hput hsizes)
  | .bytes _ put hput hsizes => .value (.bytes (fun x => put (x.setWidth 32)) (fun _ => hput _)
      fun _ => hsizes _)
  | .integer w _ put hput hsizes => .value (.integer (fun x => put (x.setWidth w))
      (fun _ => hput _) fun _ => hsizes _)
  | .double _ put hput hsizes => .value (.double put hput hsizes)
  | .iosize op => .iosize op
  | .iosizeAlign op => .value (.iosizeAlign op)
  | .slba => .value .slba
  | .lbaRange => .value .lbaRange
  | .operation => .value .operation
  | .amount => .value .amount
  | .unwrRead => .value .unwrRead
  | .deallocRead => .value .deallocRead
  | .reset => .value .reset
  | .stream => .value .stream
  | .journalShm => .value .journalShm
  | .sharedText _ put => .sharedText put
  | .sharedChars _ put => .shared fun text params =>
      if 256 < text.length then .error .undefined else .ok (put text params)
  | .sharedNumber _ put => .shared fun text params => do
      return put ((← toInteger text).setWidth 32) params

/-- The keys that `on_property_defined` knows. -/
def conversions : List (String × Conversion) := [
  ("STOP_ON_ERROR", .bool .stopOnError fun x job => { job with stopOnError := x }),
  ("STOP_ON_MISCOMPARE", .bool .stopOnMiscompare fun x job => { job with stopOnMiscompare := x }),
  ("COMPARE", .bool .compare fun x job => { job with compare := x }),
  ("INJECT_MISCOMPARE", .double .injectMiscompare fun x job => { job with injectMiscompare := x }),
  ("COMPARE_HEADER_ONLY", .bool .compareHeaderOnly fun x job =>
    { job with compareHeaderOnly := x }),
  ("IOENGINE", .text .ioengine),
  ("IOENGINE_PARAM", .text .ioengineParam),
  ("CONTROLLER", .text .controller),
  ("NSID", .integer 32 .nsid fun x job => { job with nsid := x }),
  ("DEPENDENCY", .text .dependency),
  ("DELAY", .seconds .delay fun x job => { job with delay := x }),
  ("IOLOG", .sharedText .iolog fun x params => { params with iolog := x }),
  ("SMARTLOG", .sharedText .smartlog fun x params => { params with smartlog := x }),
  ("ERRORLOG", .sharedText .errorlog fun x params => { params with errorlog := x }),
  ("IOTRACE", .sharedText .iotrace fun x params => { params with iotrace := x }),
  ("JOURNAL_FILE", .text .journalFile),
  ("JOURNAL_SHM", .journalShm),
  ("LBA_OVERLAP", .bool .lbaOverlap fun x job => { job with lbaOverlap := x }),
  ("RANDOMIZE_HEADER", .bool .randomizeHeader fun x job => { job with randomizeHeader := x }),
  ("SEED", .integer 32 .seed fun x job => { job with seed := x }),
  ("IODEPTH", .integer 32 .iodepth fun x job => { job with iodepth := x }),
  ("BATCH_SUBMIT", .integer 32 .batchSubmit fun x job => { job with batchSubmit := x }),
  ("BATCH_COMPLETE", .integer 32 .batchComplete fun x job => { job with batchComplete := x }),
  ("IOSIZE", .iosize .total),
  ("IOSIZE_ALIGN", .iosizeAlign .total),
  ("WRITE_SIZE", .iosize .write),
  ("WRITE_SIZE_ALIGN", .iosizeAlign .write),
  ("READ_SIZE", .iosize .read),
  ("READ_SIZE_ALIGN", .iosizeAlign .read),
  ("DEALLOC_SIZE", .iosize .deallocate),
  ("DEALLOC_SIZE_ALIGN", .iosizeAlign .deallocate),
  ("WRITE_ZEROES_SIZE", .iosize .writeZeroes),
  ("WRITE_ZEROES_SIZE_ALIGN", .iosizeAlign .writeZeroes),
  ("WRITE_UNCOR_SIZE", .iosize .writeUncorrect),
  ("WRITE_UNCOR_SIZE_ALIGN", .iosizeAlign .writeUncorrect),
  ("SLBA", .slba),
  ("SLBA_ALIGN", .bytes .slbaAlign fun x job => { job with slbaAlign := x }),
  ("SEPARATE_STREAM", .bool .separateStream fun x job => { job with separateStream := x }),
  ("LBA_RANGE", .lbaRange),
  ("OPERATION", .operation),
  ("AMOUNT", .amount),
  ("AMOUNT_SCALE", .integer 32 .amountScale fun x job => { job with amountScale := x }),
  ("UNWR_READ", .unwrRead),
  ("DEALLOC_READ", .deallocRead),
  ("FLUSH_PASSTHRU", .bool .flushPassthru fun x job => { job with flushPassthru := x }),
  ("RESET", .reset),
  ("STREAM", .stream),
  ("PRACT", .double .pract fun x job => { job with pract := x }),
  ("PRCHK", .integer 8 .prchk fun x job => { job with prchk := x }),
  ("INJECT_TAG_ERROR", .double .injectTagError fun x job => { job with injectTagError := x }),
  ("TIMEOUT", .integer 32 .timeout fun x job => { job with timeout := x }),
  ("STOP_ON_TIMEOUT", .bool .stopOnTimeout fun x job => { job with stopOnTimeout := x }),
  ("POWERCTL_DEV", .sharedChars .powerctlDev fun x params => { params with
    -- no terminator is written, so the end of a longer value stays
    powerctlDev := x ++ params.powerctlDev.drop x.length }),
  ("SPOR_LEVEL", .sharedNumber .sporLevel fun x params => { params with sporLevel := x }),
  ("SKIP_IOENGINE_EXIT", .sharedNumber .skipIoengineExit fun x params =>
    { params with skipIoengineExit := x }),
  ("HISTORY", .integer 32 .history fun x job => { job with history := x })]

/-- Their properties. -/
def properties : List (String × Property) := conversions.map (Prod.map id (·.property))

/-- The property of a key. -/
def propertyOf (key : List Byte) : Option Property :=
  (properties.find? fun entry => ascii entry.1 == tokenStrupr key).map (·.2)

/-! ## Handlers -/

/-- What the handlers read and write. -/
structure Params where
  /-- `getenv`, whose texts `token_strupr` changes as well -/
  env : List Byte → Option (List Byte)
  shared : GlobalParams
  bounds : IosizeBounds
  defaultJob : JobConfig
  jobs : List JobConfig

namespace Params

/-- `parser->job_params` -/
def job (s : Params) : JobConfig := s.jobs.getLastD s.defaultJob

/-- What `parser->job_params` points to is written. -/
def setJob (s : Params) (job : JobConfig) : Params :=
  if s.jobs = [] then { s with defaultJob := job }
  else { s with jobs := s.jobs.dropLast ++ [job] }

end Params

/-- `on_section_defined` -/
def onSectionDefined (name : List Byte) (s : Params) : Except HandlerError Params :=
  if 64 ≤ name.length then .error .undefined
  else .ok { s with jobs := s.jobs ++ [{ s.defaultJob with name := name }] }

/-- `on_property_defined`, for a property that its key is that of. -/
def Property.define (property : Property) (x : List Byte) (s : Params) :
    Except HandlerError Params := do
  match property with
  | .text field => return s.setJob (← setText field x s.job)
  | .value setter => return s.setJob (← setter.set x s.job)
  | .iosize op =>
    let sizes ← parseIosize x
    let iosize := { s.job.iosizes op with iosizeMin := sizes.1, iosizeMax := sizes.2 }
    let job := { s.job with iosizes := Function.update s.job.iosizes op iosize }
    let bounds := if op.Gathered then s.bounds.widen sizes else s.bounds
    return { s.setJob job with bounds := bounds }
  | .shared set => return { s with shared := ← set x s.shared }

/-- `on_property_defined`, with what is in place of the value after it. -/
def onPropertyDefined (key value : List Byte) (s : Params) :
    Except HandlerError (Params × List Byte) :=
  match propertyOf key with
  | none => .error (.parsingError "invalid property key")
  | some property => do return (← property.define value s, property.left value)

/-- `env_key` in `on_env_refered`. -/
def envKey (reference : List Byte) : List Byte := (reference.drop 2).take (reference.length - 3)

/-- The length of a token is a `u16`. -/
def tokenPart (text : List Byte) : List Byte := text.take (text.length % 2 ^ 16)

/-- A call of a handler. For a reference, the text that changes is the variable's. -/
def handle (s : Params) (call : HandlerCall) : Except HandlerError Params :=
  match call with
  | .sectionDefined name => onSectionDefined name s
  | .propertyDefined key value => do return (← onPropertyDefined key value s).1
  | .envRefered key reference =>
    match s.env (envKey reference) with
    | none => .error (.parsingError "undefined environment variable")
    | some text => do
      let (s, left) ← onPropertyDefined key (tokenPart text) s
      return { s with
        env := Function.update s.env (envKey reference)
          (some (left ++ text.drop (text.length % 2 ^ 16))) }

end ChamberSpo

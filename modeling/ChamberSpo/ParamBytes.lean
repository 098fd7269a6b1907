import ChamberSpo.Properties
import ChamberSpo.StructLayout

/-!
# Parameters in memory

`struct job_params` and `struct global_params` as bytes, and what `on_section_defined` and
`on_property_defined` write to them.

* `jobLayout`, `sharedLayout` — where the fields are.
* `FieldProperty` — what the property of a key writes; `fieldProperties` has all the keys.
* `ParamBytes.handle` — a call of a handler. It copies the length of a token, whatever the length
  of the field is.
-/

namespace ChamberSpo

/-! ## Layouts -/

namespace JobField

/-- An array of `n` characters. -/
def chars (field : JobField) (n : ℕ) : Member JobField := { name := field, size := n, align := 1 }

/-- A number of some bytes. -/
def number (field : JobField) (n : ℕ) : Member JobField := { name := field, size := n, align := n }

/-- An entry of `iosizes`. -/
def iosize (op : IosizeOpcode) : List (Member JobField) :=
  [number (.iosizeMin op) 8, number (.iosizeMax op) 8, number (.iosizeAlign op) 4,
    number (.iosizePadding op) 4]

/-- `struct job_params`, where a `bool` is an `int`. -/
def members : List (Member JobField) :=
  [chars .name 64, chars .ioengine 64, chars .ioengineParam 256, chars .controller 256,
    number .nsid 4, chars .journalFile 256, number .journalFileMmap 4, number .journalShm 4,
    chars .dependency 64, number .dependencyJobIdx 4, number .delay 8, number .lbaOverlap 4,
    number .randomizeHeader 4, number .compare 4, number .compareHeaderOnly 4,
    number .stopOnMiscompare 4, number .injectMiscompare 8, number .stopOnError 4,
    number .iodepth 4, number .batchSubmit 4, number .batchComplete 4, number .seed 4,
    number .slbaType 4, number .slba 8, number .slbaAlign 4, number .separateStream 4,
    number .flushPassthru 4] ++
  iosize .total ++ iosize .read ++ iosize .write ++ iosize .deallocate ++ iosize .writeZeroes ++
  iosize .writeUncorrect ++
  [{ name := .operations, size := 8 * 4, align := 4 }, number .lbaRangeBeginPercent 1,
    number .lbaRangeSizePercent 1, number .lbaRangeBegin 8, number .lbaRangeSize 8,
    number .amountType 4, number .amountBytesPercent 1, number .amount 8, number .amountScale 4,
    number .unwrReadResultType 4, number .unwrReadValueType 4, number .deallocReadResultType 4,
    number .deallocReadValueType 4, number .resetMin 4, number .resetMax 4, number .numStreams 4,
    number .injectTagError 8, number .timeout 4, number .stopOnTimeout 4, number .pract 8,
    number .prchk 1, number .history 4, number .nsInfo 8]

theorem align_pos : ∀ m ∈ members, 0 < m.align := by decide

theorem mem_members : ∀ field, ∃ m ∈ members, m.name = field := by
  intro field
  refine (List.mem_map (f := Member.name)).mp ?_
  cases field with
  | iosizeMin op => cases op <;> decide
  | iosizeMax op => cases op <;> decide
  | iosizeAlign op => cases op <;> decide
  | iosizePadding op => cases op <;> decide
  | _ => decide

end JobField

/-- `struct job_params` -/
def jobLayout : StructLayout JobField where
  members := JobField.members
  align_pos := JobField.align_pos
  mem := JobField.mem_members

namespace SharedField

/-- `struct global_params` -/
def members : List (Member SharedField) :=
  [⟨.iolog, 256, 1⟩, ⟨.smartlog, 256, 1⟩, ⟨.errorlog, 256, 1⟩, ⟨.iotrace, 256, 1⟩,
    ⟨.powerctlDev, 256, 1⟩, ⟨.sporLevel, 4, 4⟩, ⟨.skipIoengineExit, 4, 4⟩, ⟨.jobParams, 8, 8⟩,
    ⟨.njobs, 4, 4⟩]

theorem align_pos : ∀ m ∈ members, 0 < m.align := by decide

theorem mem_members : ∀ field, ∃ m ∈ members, m.name = field := by
  intro field
  refine (List.mem_map (f := Member.name)).mp ?_
  cases field <;> decide

end SharedField

/-- `struct global_params` -/
def sharedLayout : StructLayout SharedField where
  members := SharedField.members
  align_pos := SharedField.align_pos
  mem := SharedField.mem_members

/-! ## Assignments -/

/-- The number of a constant of `enum slba_type`. -/
def SlbaType.num : SlbaType → ℕ
  | .seq => 0
  | .uniform => 1
  | .zipf => 2
  | .pareto => 3
  | .fixed => 4
  | .jesd219 => 5
  | .replay => 6

/-- The number of a constant of `enum amount_type`. -/
def AmountType.num : AmountType → ℕ
  | .infinite => 0
  | .time => 1
  | .io => 2
  | .byte => 3

/-- The number of a constant of `enum unwr_read_result_type`. -/
def UnwrReadResultType.num : UnwrReadResultType → ℕ
  | .dontcare => 0
  | .auto => 1
  | .error => 2
  | .value => 3

/-- The number of a constant of `enum dealloc_read_result_type`. -/
def DeallocReadResultType.num : DeallocReadResultType → ℕ
  | .dontcare => 0
  | .auto => 1
  | .error => 2
  | .value => 3

/-- `enum bio_opcode` in order. -/
def bioOpcodes : List BioOpcode :=
  [.read, .write, .flush, .deallocate, .writeZeroes, .writeUncorrect, .identify, .fwDownload]

/-- How floating-point numbers stand in memory, of which nothing else is said. -/
structure FloatFormat where
  double : Decimal → BitVec 64
  float : Decimal → BitVec 32

/-! ## Properties -/

/-- Which letters of a value a property makes capital. -/
inductive Strupr where
  | none
  | whole
  /-- the names of operations -/
  | names
  deriving DecidableEq, Repr

/-- What is in place of the value then. -/
def Strupr.left : Strupr → List Byte → List Byte
  | .none, value => value
  | .whole, value => tokenStrupr value
  | .names, value => struprNames true value

/-- What the property of a key writes. -/
inductive FieldProperty where
  /-- an array of characters of the job -/
  | text (field : JobField)
  /-- fields of the job, from a value that is converted -/
  | value (fields : List JobField) (strupr : Strupr)
    (stores : Buf → List Byte → Except HandlerError (List (FieldStore JobField)))
  /-- an array of characters that the jobs share -/
  | sharedText (field : SharedField)
  /-- one that gets no terminator -/
  | sharedChars (field : SharedField)
  /-- a number that the jobs share -/
  | sharedNumber (field : SharedField)

/-- What `parse_slba` assigns. -/
def SlbaParam.store (fmt : FloatFormat) (slba : SlbaParam) : FieldStore JobField where
  field := .slba
  bytes old :=
    match slba with
    | .zipf theta => old.store 0 (fmt.float theta)
    | .pareto scale shape => (old.store 0 (fmt.float scale)).store 4 (fmt.float shape)
    | .fixed lba => old.store 0 lba
    | .jesd219 enterprise sectorSize =>
      (old.store 0 (BitVec.ofNat 32 enterprise.toNat)).store 4 sectorSize

/-- What `parse_slba` assigns. -/
def SlbaValue.stores (fmt : FloatFormat) (value : SlbaValue) : List (FieldStore JobField) :=
  match value with
  | .type slbaType => [.enum .slbaType slbaType.num]
  | .param slbaType slba => [.enum .slbaType slbaType.num, slba.store fmt]
  | .unknown => []

/-- A bound of `LBA_RANGE`. -/
def RangeValue.stores (percentField bytesField : JobField) (value : RangeValue) :
    List (FieldStore JobField) :=
  match value with
  | .percent x => [.percent percentField x]
  | .bytes x => [.noPercent percentField, .number bytesField x]

/-- What `parse_amount` assigns. -/
def AmountValue.stores (amount : AmountValue) : List (FieldStore JobField) :=
  match amount with
  | .infinite => [.enum .amountType AmountType.infinite.num]
  | .time x => [.enum .amountType AmountType.time.num, .number .amount x]
  | .io x => [.enum .amountType AmountType.io.num, .number .amount x]
  | .percent x => [.enum .amountType AmountType.byte.num, .percent .amountBytesPercent x]
  | .bytes x => [.enum .amountType AmountType.byte.num, .number .amount x]

/-- What `parse_unwr_read` assigns. -/
def ReadResult.unwrStores (result : ReadResult) : List (FieldStore JobField) :=
  match result with
  | .dontcare => [.enum .unwrReadResultType UnwrReadResultType.dontcare.num]
  | .auto => [.enum .unwrReadResultType UnwrReadResultType.auto.num]
  | .error => [.enum .unwrReadResultType UnwrReadResultType.error.num]
  | .value ones => [.enum .unwrReadResultType UnwrReadResultType.value.num,
      .enum .unwrReadValueType ones.toNat]

/-- What `parse_dealloc_read` assigns. -/
def ReadResult.deallocStores (result : ReadResult) : List (FieldStore JobField) :=
  match result with
  | .dontcare => [.enum .deallocReadResultType DeallocReadResultType.dontcare.num]
  | .auto => [.enum .deallocReadResultType DeallocReadResultType.auto.num]
  | .error => [.enum .deallocReadResultType DeallocReadResultType.error.num]
  | .value ones => [.enum .deallocReadResultType DeallocReadResultType.value.num,
      .enum .deallocReadValueType
        (if ones then deallocReadValueTypeOnes else deallocReadValueTypeZeroes)]

/-- The array `operations`. -/
def operationsStore (operations : BioOpcode → BitVec 32) : FieldStore JobField where
  field := .operations
  bytes _ i := leBytes (operations (bioOpcodes.getD (i / 4) .read)).toNat (i % 4)

namespace FieldProperty

/-- A value that is converted without a look at the job. -/
def converted {α : Type} (fields : List JobField) (strupr : Strupr)
    (parse : List Byte → Except HandlerError α) (stores : α → List (FieldStore JobField)) :
    FieldProperty :=
  .value fields strupr fun _ x => do return stores (← parse x)

/-- A value that is converted from its text in upper case. -/
def upper {α : Type} (fields : List JobField) (parse : List Byte → Except HandlerError α)
    (stores : α → List (FieldStore JobField)) : FieldProperty :=
  converted fields .whole (fun x => parse (tokenStrupr x)) stores

/-- `to_bool` -/
def bool (field : JobField) : FieldProperty :=
  upper [field] toBool fun x => [.enum field x.toNat]

/-- `to_seconds` -/
def seconds (field : JobField) : FieldProperty := upper [field] toSeconds fun x => [.number field x]

/-- `to_bytes`, to a `u32` -/
def bytes (field : JobField) : FieldProperty :=
  upper [field] toBytes fun x => [.number field (x.setWidth 32)]

/-- `to_integer`, to a number of `w` bits -/
def integer (w : ℕ) (field : JobField) : FieldProperty :=
  converted [field] .none toInteger fun x => [.number field (x.setWidth w)]

/-- `to_double` -/
def double (fmt : FloatFormat) (field : JobField) : FieldProperty :=
  converted [field] .none toDouble fun x => [.number field (fmt.double x)]

/-- `parse_iosize` -/
def iosize (op : IosizeOpcode) : FieldProperty :=
  converted [.iosizeMin op, .iosizeMax op] .whole parseIosize fun sizes =>
    [.number (.iosizeMin op) sizes.1, .number (.iosizeMax op) sizes.2]

/-- `SLBA` -/
def slba (fmt : FloatFormat) : FieldProperty :=
  upper [.slbaType, .slba] parseSlba (·.stores fmt)

/-- `LBA_RANGE` -/
def lbaRange : FieldProperty :=
  upper [.lbaRangeBeginPercent, .lbaRangeBegin, .lbaRangeSizePercent, .lbaRangeSize] parseLbaRange
    fun range => range.1.stores .lbaRangeBeginPercent .lbaRangeBegin ++
      range.2.stores .lbaRangeSizePercent .lbaRangeSize

/-- `OPERATION` -/
def operation : FieldProperty :=
  converted [.operations] .names parseOperation fun operations =>
    [operationsStore operations]

/-- `AMOUNT` -/
def amount : FieldProperty :=
  upper [.amountType, .amountBytesPercent, .amount] parseAmount (·.stores)

/-- `UNWR_READ` -/
def unwrRead : FieldProperty :=
  upper [.unwrReadResultType, .unwrReadValueType] parseReadResult (·.unwrStores)

/-- `DEALLOC_READ` -/
def deallocRead : FieldProperty :=
  upper [.deallocReadResultType, .deallocReadValueType] parseReadResult (·.deallocStores)

/-- `RESET` -/
def reset : FieldProperty :=
  converted [.resetMin, .resetMax] .none parseReset fun periods =>
    [.number .resetMin periods.1, .number .resetMax periods.2]

/-- `STREAM` -/
def stream : FieldProperty :=
  converted [.numStreams] .none parseStream fun x => [.number .numStreams x]

/-- `JOURNAL_SHM` -/
def journalShm : FieldProperty :=
  .value [.journalShm] .none fun job x =>
    if job (jobLayout.offset .journalFile) ≠ 0 then
      .error (.parsingError "JOURNAL_FILE and JOURNAL_SHM are mutually exclusive")
    else do return [.number .journalShm ((← toInteger x).setWidth 32)]

/-- What is in place of the value after the property. -/
def left (property : FieldProperty) (value : List Byte) : List Byte :=
  match property with
  | .value _ strupr _ => strupr.left value
  | .text _ | .sharedText _ | .sharedChars _ | .sharedNumber _ => value

end FieldProperty

/-- The field of a text. -/
def JobText.jobField : JobText → JobField
  | .ioengine => .ioengine
  | .ioengineParam => .ioengineParam
  | .controller => .controller
  | .dependency => .dependency
  | .journalFile => .journalFile

/-- What a conversion writes. -/
def Conversion.fieldProperty (fmt : FloatFormat) : Conversion → FieldProperty
  | .text field => .text field.jobField
  | .bool field .. => .bool field
  | .seconds field .. => .seconds field
  | .bytes field .. => .bytes field
  | .integer w field .. => .integer w field
  | .double field .. => .double fmt field
  | .iosize op => .iosize op
  | .iosizeAlign op => .bytes (.iosizeAlign op)
  | .slba => .slba fmt
  | .lbaRange => .lbaRange
  | .operation => .operation
  | .amount => .amount
  | .unwrRead => .unwrRead
  | .deallocRead => .deallocRead
  | .reset => .reset
  | .stream => .stream
  | .journalShm => .journalShm
  | .sharedText field _ => .sharedText field
  | .sharedChars field _ => .sharedChars field
  | .sharedNumber field _ => .sharedNumber field

/-- The keys that `on_property_defined` knows. -/
def fieldProperties (fmt : FloatFormat) : List (String × FieldProperty) :=
  conversions.map (Prod.map id (·.fieldProperty fmt))

/-- The property of a key. -/
def fieldPropertyOf (fmt : FloatFormat) (key : List Byte) : Option FieldProperty :=
  ((fieldProperties fmt).find? fun entry => ascii entry.1 == tokenStrupr key).map (·.2)

theorem Conversion.left_fieldProperty (fmt : FloatFormat) (value : List Byte)
    (conversion : Conversion) :
    (conversion.fieldProperty fmt).left value = conversion.property.left value := by
  cases conversion <;> rfl

/-- The same is left of a value as by the properties of `Property`. -/
theorem map_left_fieldProperties (fmt : FloatFormat) (value : List Byte) :
    (fieldProperties fmt).map (Prod.map id (·.left value)) =
      properties.map (Prod.map id (·.left value)) := by
  rw [fieldProperties, properties, List.map_map, List.map_map]
  refine List.map_congr_left fun entry _ => ?_
  exact congrArg (Prod.mk entry.1) (entry.2.left_fieldProperty fmt value)

/-! ## Handlers -/

/-- What the handlers read and write, in bytes. What is behind a structure is the memory that
follows it. -/
structure ParamBytes where
  /-- `getenv`, whose texts `token_strupr` changes as well -/
  env : List Byte → Option (List Byte)
  shared : Buf
  defaultJob : Buf
  jobs : List Buf

/-- `sizeof (struct job_params)` -/
def sizeofJobParams : ℕ := jobLayout.offset .nsInfo + jobLayout.size .nsInfo

/-- What `realloc` gives for the job of a section: where the jobs are then, and the memory. -/
structure Realloc where
  jobParams : BitVec 64
  memory : Buf

namespace ParamBytes

/-- `*parser->job_params` -/
def job (s : ParamBytes) : Buf := s.jobs.getLastD s.defaultJob

/-- What `parser->job_params` points to is written. -/
def setJob (s : ParamBytes) (job : Buf) : ParamBytes :=
  if s.jobs = [] then { s with defaultJob := job }
  else { s with jobs := s.jobs.dropLast ++ [job] }

@[simp] theorem job_setJob (s : ParamBytes) (job : Buf) : (s.setJob job).job = job := by
  by_cases hjobs : s.jobs = []
  · rw [setJob, if_pos hjobs, ParamBytes.job, hjobs]
    rfl
  · rw [setJob, if_neg hjobs, ParamBytes.job]
    exact List.getLastD_concat

@[simp] theorem shared_setJob (s : ParamBytes) (job : Buf) : (s.setJob job).shared = s.shared := by
  rw [setJob]
  split <;> rfl

@[simp] theorem env_setJob (s : ParamBytes) (job : Buf) : (s.setJob job).env = s.env := by
  rw [setJob]
  split <;> rfl

@[simp] theorem dropLast_jobs_setJob (s : ParamBytes) (job : Buf) :
    (s.setJob job).jobs.dropLast = s.jobs.dropLast := by
  by_cases hjobs : s.jobs = []
  · rw [setJob, if_pos hjobs]
  · rw [setJob, if_neg hjobs]
    exact List.dropLast_concat

theorem length_jobs_setJob (s : ParamBytes) (job : Buf) :
    (s.setJob job).jobs.length = s.jobs.length := by
  by_cases hjobs : s.jobs = []
  · rw [setJob, if_pos hjobs]
  · have hpos := List.length_pos_iff.mpr hjobs
    rw [setJob, if_neg hjobs, List.length_append, List.length_dropLast, List.length_singleton]
    omega

theorem defaultJob_setJob (s : ParamBytes) (job : Buf) (hjobs : s.jobs ≠ []) :
    (s.setJob job).defaultJob = s.defaultJob := by
  rw [setJob, if_neg hjobs]

/-- `memcpy` of the default parameters to the memory of a new job. -/
def newJob (s : ParamBytes) (fresh : Realloc) : Buf :=
  fresh.memory.copy 0 s.defaultJob sizeofJobParams

/-- `on_section_defined` -/
def onSectionDefined (fresh : Realloc) (name : List Byte) (s : ParamBytes) : ParamBytes :=
  let njobs : BitVec 32 := s.shared.load 32 (sharedLayout.offset .njobs)
  { s with
    jobs := s.jobs ++ [jobLayout.copyText (s.newJob fresh) .name name]
    shared := [.number .jobParams fresh.jobParams, .number .njobs (njobs + 1)].foldl
      sharedLayout.assign s.shared }

end ParamBytes

/-- `on_property_defined`, for a property that its key is that of. -/
def FieldProperty.define (property : FieldProperty) (x : List Byte) (s : ParamBytes) :
    Except HandlerError ParamBytes := do
  match property with
  | .text field =>
    if field = .journalFile ∧ s.job.load 32 (jobLayout.offset .journalShm) ≠ 0 then
      .error (.parsingError "JOURNAL_FILE and JOURNAL_SHM are mutually exclusive")
    else .ok (s.setJob (jobLayout.copyText s.job field x))
  | .value _ _ stores => return s.setJob ((← stores s.job x).foldl jobLayout.assign s.job)
  | .sharedText field => .ok { s with shared := sharedLayout.copyText s.shared field x }
  | .sharedChars field =>
    .ok { s with shared := sharedLayout.copyChars s.shared field x }
  | .sharedNumber field =>
    let store : FieldStore SharedField := .number field ((← toInteger x).setWidth 32)
    return { s with shared := sharedLayout.assign s.shared store }

namespace ParamBytes

/-- `on_property_defined`, with what is in place of the value after it. -/
def onPropertyDefined (fmt : FloatFormat) (key value : List Byte) (s : ParamBytes) :
    Except HandlerError (ParamBytes × List Byte) :=
  match fieldPropertyOf fmt key with
  | none => .error (.parsingError "invalid property key")
  | some property => do return (← property.define value s, property.left value)

/-- A call of a handler. For a reference, the text that changes is the variable's. -/
def handle (fmt : FloatFormat) (fresh : Realloc) (s : ParamBytes) (call : HandlerCall) :
    Except HandlerError ParamBytes :=
  match call with
  | .sectionDefined name => .ok (s.onSectionDefined fresh name)
  | .propertyDefined key value => do return (← s.onPropertyDefined fmt key value).1
  | .envRefered key reference =>
    match s.env (envKey reference) with
    | none => .error (.parsingError "undefined environment variable")
    | some text => do
      let (s, left) ← s.onPropertyDefined fmt key (tokenPart text)
      return { s with
        env := Function.update s.env (envKey reference)
          (some (left ++ text.drop (text.length % 2 ^ 16))) }

end ParamBytes

end ChamberSpo

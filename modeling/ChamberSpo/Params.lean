import ChamberSpo.Types

/-!
# The parameters of a test

`struct job_params` and `struct global_params` with all the fields that the parser writes, before
anything is resolved. `JobParams` of `ChamberSpo.Types` is what the generator and the verifier
read of a job.

* `JobConfig` — the parameters of a job.
* `GlobalParams` — what the jobs share.
* `JobConfig.default` — the parameters `parse_param` starts from.
* `JobField`, `SharedField` — the fields by name.

A `char` array holds a string without its terminator; a `u8`, `u32` or `u64` is a bit vector.
-/

namespace ChamberSpo

/-- The bytes of a string constant of the source. -/
def ascii (s : String) : List Byte := s.toList.map fun c => BitVec.ofNat 8 c.toNat

/-! ## Enumerations -/

/-- `enum iosize_opcode` -/
inductive IosizeOpcode where
  | total
  | read
  | write
  | deallocate
  | writeZeroes
  | writeUncorrect
  deriving DecidableEq, Repr

/-- The number of an entry of `iosizes`. -/
def IosizeOpcode.num : IosizeOpcode → ℕ
  | .total => 0
  | .read => 1
  | .write => 2
  | .deallocate => 3
  | .writeZeroes => 4
  | .writeUncorrect => 5

/-- `enum amount_type` -/
inductive AmountType where
  | infinite
  | time
  | io
  | byte
  deriving DecidableEq, Repr

/-- `enum dealloc_read_result_type` -/
inductive DeallocReadResultType where
  | dontcare
  | auto
  | error
  | value
  deriving DecidableEq, Repr

/-- A `double`, as `to_double` computes it: `significant * 0.1 ^ digits`. -/
structure Decimal where
  significant : BitVec 64
  digits : ℕ
  deriving DecidableEq, Repr

/-- The bytes of a `double` that is cleared. -/
def Decimal.zero : Decimal := { significant := 0, digits := 0 }

/-- The union `slba`: the member that was written last. -/
inductive SlbaParam where
  | zipf (theta : Decimal)
  | pareto (scale shape : Decimal)
  | fixed (lba : BitVec 64)
  | jesd219 (enterprise : Bool) (sectorSize : BitVec 32)
  deriving DecidableEq, Repr

/-- An entry of `iosizes`. -/
structure Iosize where
  iosizeMin : BitVec 64
  iosizeMax : BitVec 64
  iosizeAlign : BitVec 32
  deriving DecidableEq, Repr

/-- An entry that nothing was written to. -/
def Iosize.zero : Iosize := { iosizeMin := 0, iosizeMax := 0, iosizeAlign := 0 }

/-! ## Jobs -/

/-- `struct job_params` -/
structure JobConfig where
  name : List Byte
  ioengine : List Byte
  ioengineParam : List Byte
  controller : List Byte
  nsid : BitVec 32
  journalFile : List Byte
  journalFileMmap : Bool
  journalShm : BitVec 32
  dependency : List Byte
  dependencyJobIdx : ℕ
  delay : BitVec 64
  lbaOverlap : Bool
  randomizeHeader : Bool
  compare : Bool
  compareHeaderOnly : Bool
  stopOnMiscompare : Bool
  injectMiscompare : Decimal
  stopOnError : Bool
  iodepth : BitVec 32
  batchSubmit : BitVec 32
  batchComplete : BitVec 32
  seed : BitVec 32
  slbaType : SlbaType
  slba : SlbaParam
  slbaAlign : BitVec 32
  separateStream : Bool
  flushPassthru : Bool
  iosizes : IosizeOpcode → Iosize
  operations : BioOpcode → BitVec 32
  lbaRangeBeginPercentEnable : Bool
  lbaRangeBeginPercent : BitVec 7
  lbaRangeSizePercentEnable : Bool
  lbaRangeSizePercent : BitVec 7
  lbaRangeBegin : BitVec 64
  lbaRangeSize : BitVec 64
  amountType : AmountType
  amountBytesPercentEnabled : Bool
  amountBytesPercent : BitVec 7
  /-- the union of `seconds`, `ios` and `bytes`, which have one type -/
  amount : BitVec 64
  amountScale : BitVec 32
  unwrReadResultType : UnwrReadResultType
  unwrReadValueType : UnwrReadValueType
  deallocReadResultType : DeallocReadResultType
  deallocReadValueType : ℕ
  resetMin : BitVec 32
  resetMax : BitVec 32
  numStreams : BitVec 32
  injectTagError : Decimal
  timeout : BitVec 32
  stopOnTimeout : Bool
  pract : Decimal
  prchk : BitVec 8
  history : BitVec 32

/-- `parser.default_job_params`, as `parse_param` sets it up. -/
def JobConfig.default : JobConfig where
  name := ascii "NONAME"
  ioengine := []
  ioengineParam := []
  controller := []
  nsid := 0
  journalFile := []
  journalFileMmap := false
  journalShm := 0
  dependency := []
  dependencyJobIdx := 0
  delay := 0
  lbaOverlap := false
  randomizeHeader := false
  compare := false
  compareHeaderOnly := false
  stopOnMiscompare := false
  injectMiscompare := .zero
  stopOnError := false
  iodepth := 1
  batchSubmit := 0
  batchComplete := 1
  seed := 0
  slbaType := .seq
  slba := .fixed 0
  slbaAlign := 0
  separateStream := false
  flushPassthru := false
  iosizes _ := .zero
  operations _ := 0
  lbaRangeBeginPercentEnable := false
  lbaRangeBeginPercent := 0
  lbaRangeSizePercentEnable := true
  lbaRangeSizePercent := 100
  lbaRangeBegin := 0
  lbaRangeSize := 0
  amountType := .infinite
  amountBytesPercentEnabled := false
  amountBytesPercent := 0
  amount := 0
  amountScale := 1
  unwrReadResultType := .value
  unwrReadValueType := .ones
  deallocReadResultType := .value
  deallocReadValueType := deallocReadValueTypeOnes
  resetMin := 0
  resetMax := 0
  numStreams := 0
  injectTagError := .zero
  timeout := 0
  stopOnTimeout := false
  pract := { significant := 5, digits := 1 }
  prchk := 7
  history := 0

/-- The fields of `struct job_params`. Bit-fields that share a byte are one field. -/
inductive JobField where
  | name
  | ioengine
  | ioengineParam
  | controller
  | nsid
  | journalFile
  | journalFileMmap
  | journalShm
  | dependency
  | dependencyJobIdx
  | delay
  | lbaOverlap
  | randomizeHeader
  | compare
  | compareHeaderOnly
  | stopOnMiscompare
  | injectMiscompare
  | stopOnError
  | iodepth
  | batchSubmit
  | batchComplete
  | seed
  | slbaType
  | slba
  | slbaAlign
  | separateStream
  | flushPassthru
  | iosizeMin (op : IosizeOpcode)
  | iosizeMax (op : IosizeOpcode)
  | iosizeAlign (op : IosizeOpcode)
  /-- the end of an entry of `iosizes`, where nothing is -/
  | iosizePadding (op : IosizeOpcode)
  | operations
  | lbaRangeBeginPercent
  | lbaRangeSizePercent
  | lbaRangeBegin
  | lbaRangeSize
  | amountType
  | amountBytesPercent
  | amount
  | amountScale
  | unwrReadResultType
  | unwrReadValueType
  | deallocReadResultType
  | deallocReadValueType
  | resetMin
  | resetMax
  | numStreams
  | injectTagError
  | timeout
  | stopOnTimeout
  | pract
  | prchk
  | history
  | nsInfo
  deriving DecidableEq, Repr

/-! ## What the jobs share -/

/-- `struct global_params`, less the jobs. -/
structure GlobalParams where
  iolog : List Byte
  smartlog : List Byte
  errorlog : List Byte
  iotrace : List Byte
  powerctlDev : List Byte
  sporLevel : BitVec 32
  skipIoengineExit : BitVec 32
  deriving DecidableEq, Repr

/-- The parameters that `parse_param` clears. -/
def GlobalParams.zero : GlobalParams where
  iolog := []
  smartlog := []
  errorlog := []
  iotrace := []
  powerctlDev := []
  sporLevel := 0
  skipIoengineExit := 0

/-- The fields of `struct global_params`. -/
inductive SharedField where
  | iolog
  | smartlog
  | errorlog
  | iotrace
  | powerctlDev
  | sporLevel
  | skipIoengineExit
  | jobParams
  | njobs
  deriving DecidableEq, Repr

/-- `iosize_min` and `iosize_max`, the least and the greatest size that `parse_iosize` saw. -/
structure IosizeBounds where
  min : BitVec 32
  max : BitVec 32
  deriving DecidableEq, Repr

/-- Before any size was seen. -/
def IosizeBounds.none : IosizeBounds := { min := 0xFFFFFFFF, max := 0 }

end ChamberSpo

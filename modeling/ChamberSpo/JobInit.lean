import ChamberSpo.Iogen
import ChamberSpo.Validate

/-!
# Setting up a job

`iogen_job_init`: from the parameters of a job and its namespace to the job as it is started.

* `initLbas` — the table `lbas`, with an entry for each `iosize_opcode`.
* `createOprLottery` — a slot for each percent of the operations.
* `JobConfig.jobParams` — what the generator and the verifier read of the parameters.
* `iogenJobInit` — the job.

The table has six entries, and is read at places beyond. What lies there is an argument.
-/

namespace ChamberSpo

/-! ## Sizes -/

/-- An entry of `lbas`, in `u32`s. -/
structure LbasEntry where
  minLbas : BitVec 32
  maxLbas : BitVec 32
  lbasDist : BitVec 32
  deriving DecidableEq, Repr

/-- The entry for sizes in bytes. -/
def lbasEntry (lbaShift : ℕ) (iosize : Iosize) : LbasEntry :=
  let minLbas := (iosize.iosizeMin >>> lbaShift).setWidth 32
  let maxLbas := (iosize.iosizeMax >>> lbaShift).setWidth 32
  { minLbas := minLbas, maxLbas := maxLbas, lbasDist := maxLbas - minLbas }

/-- No size was configured. -/
def Iosize.Unset (iosize : Iosize) : Prop := iosize.iosizeMin = 0 ∧ iosize.iosizeMax = 0

instance (iosize : Iosize) : Decidable iosize.Unset :=
  inferInstanceAs (Decidable (iosize.iosizeMin = 0 ∧ iosize.iosizeMax = 0))

/-- The entry at the start of the loop, when the job is cleared. -/
def LbasEntry.zero : LbasEntry := { minLbas := 0, maxLbas := 0, lbasDist := 0 }

/-- The loop over `lbas`, before its check: the entry of an operation without sizes is that of
all. -/
def fillLbas (lbaShift : ℕ) (iosizes : IosizeOpcode → Iosize) (i : IosizeOpcode) : LbasEntry :=
  let total := if (iosizes .total).Unset then .zero else lbasEntry lbaShift (iosizes .total)
  if (iosizes i).Unset then total else lbasEntry lbaShift (iosizes i)

/-- The entries of the table. -/
def IosizeOpcode.all : List IosizeOpcode :=
  [.total, .read, .write, .deallocate, .writeZeroes, .writeUncorrect]

/-- The table `lbas`; `none` when a size is zero. -/
def initLbas (lbaShift : ℕ) (iosizes : IosizeOpcode → Iosize) :
    Option (IosizeOpcode → LbasEntry) :=
  let lbas := fillLbas lbaShift iosizes
  if ∃ i ∈ IosizeOpcode.all, (lbas i).minLbas = 0 ∨ (lbas i).maxLbas = 0 then none
  else some lbas

/-- The entry at an index of a table that has one for each `iosize_opcode`. -/
def IosizeOpcode.ofNum : ℕ → Option IosizeOpcode
  | 0 => some .total
  | 1 => some .read
  | 2 => some .write
  | 3 => some .deallocate
  | 4 => some .writeZeroes
  | 5 => some .writeUncorrect
  | _ => none

/-- What is read at an index of such a table, and what lies behind it. -/
def tableAt {α : Type} (table : IosizeOpcode → α) (beyond : ℕ → α) (n : ℕ) : α :=
  match IosizeOpcode.ofNum n with
  | some i => table i
  | none => beyond n

/-- The entry, as the generator reads it. -/
def LbasEntry.lbasRange (e : LbasEntry) : LbasRange where
  minLbas := e.minLbas.toNat
  lbasDist := e.lbasDist.toNat

/-! ## Operations -/

/-- The opcodes in the order of their numbers. -/
def BioOpcode.all : List BioOpcode :=
  [.read, .write, .flush, .deallocate, .writeZeroes, .writeUncorrect, .identify, .fwDownload]

/-- The slots that an operation fills, one for each percent of its weight. -/
def lotterySlots (operations : BioOpcode → BitVec 32) : List BioOpcode :=
  BioOpcode.all.flatMap fun op => List.replicate (operations op).toNat op

/-- `create_opr_lottery`: the 100 slots, of which the last ones are left cleared if the weights
are less; `none` when they are more than there are slots. -/
def createOprLottery (operations : BioOpcode → BitVec 32) : Option (ℕ → BioOpcode) :=
  let slots := lotterySlots operations
  if 100 < slots.length then none else some fun k => slots.getD k .read

/-! ## Parameters -/

/-- What lies behind the tables of a job in memory. -/
structure Beyond where
  lbas : ℕ → LbasRange
  iosizeAlign : ℕ → ℕ

/-- `slba.fixed.lba`, where it was the last to be written. -/
def SlbaParam.fixedLba : SlbaParam → BitVec 64
  | .fixed lba => lba
  | .zipf _ | .pareto _ _ | .jesd219 _ _ => 0

/-- The amount that `amount_type` selects. -/
def JobConfig.selectedAmount (config : JobConfig) : Amount :=
  match config.amountType with
  | .infinite => .infinite
  | .time => .time
  | .io => .io config.amount.toNat
  | .byte => .byte config.amount.toNat

/-- What the generator and the verifier read of the parameters. -/
def JobConfig.jobParams (config : JobConfig) (beyond : Beyond) : JobParams where
  lbaOverlap := config.lbaOverlap
  compare := config.compare
  compareHeaderOnly := config.compareHeaderOnly
  stopOnMiscompare := config.stopOnMiscompare
  stopOnError := config.stopOnError
  iodepth := config.iodepth.toNat
  slbaType := config.slbaType
  fixedLba := config.slba.fixedLba.toNat
  slbaAlign := config.slbaAlign.toNat
  separateStream := config.separateStream
  iosizeAlign := tableAt (fun i => (config.iosizes i).iosizeAlign.toNat) beyond.iosizeAlign
  amount := config.selectedAmount
  unwrReadResultType := config.unwrReadResultType
  unwrReadValueType := config.unwrReadValueType
  deallocReadValueType := config.deallocReadValueType
  numStreams := config.numStreams.toNat
  injectTagError := config.injectTagError.significant != 0
  prchk := config.prchk.toNat
  history := config.history.toNat

/-! ## The job -/

/-- `iogen_job_init`, once the engine is there: `none` when it returns an error. The bios of the
pool are as `create_bio_pool` allocates them. -/
def iogenJobInit (ns : NamespaceInfo) (config : JobConfig) (beyond : Beyond)
    (bioPool : ℕ → Bio) (identify : Buf) : Option IogenJob := do
  let oprLottery ← createOprLottery config.operations
  let lbas ← initLbas ns.lbaShift config.iosizes
  return {
    params := config.jobParams beyond
    state := .init
    iogenState := .init
    oprLottery := oprLottery
    lbas := tableAt (fun i => (lbas i).lbasRange) beyond.lbas
    slbaAlign := (config.slbaAlign >>> ns.lbaShift).toNat
    lbaRangeBegin := (config.lbaRangeBegin >>> ns.lbaShift).toNat
    lbaRangeSize := (config.lbaRangeSize >>> ns.lbaShift).toNat
    slbaNext := fun _ => 0
    replayHistIdx := 0
    replayHistCnt := 0
    bioPool := bioPool
    bioFree := List.range config.iodepth.toNat
    bioInflight := []
    numInflight := 0
    sumOps := 0
    sumBytes := 0
    timeout := false
    view := { identify := identify, identifyValid := false, iogenResult := 0 } }

/-- What `iogen_job_init` sets for good: nothing that the generator does changes it. -/
structure IogenJob.SetUp (job : IogenJob) (ns : NamespaceInfo) (config : JobConfig)
    (beyond : Beyond) (lbas : IosizeOpcode → LbasEntry) : Prop where
  params : job.params = config.jobParams beyond
  oprLottery : createOprLottery config.operations = some job.oprLottery
  initLbas : initLbas ns.lbaShift config.iosizes = some lbas
  lbas : job.lbas = tableAt (fun i => (lbas i).lbasRange) beyond.lbas
  slbaAlign : job.slbaAlign = (config.slbaAlign >>> ns.lbaShift).toNat
  lbaRangeBegin : job.lbaRangeBegin = (config.lbaRangeBegin >>> ns.lbaShift).toNat
  lbaRangeSize : job.lbaRangeSize = (config.lbaRangeSize >>> ns.lbaShift).toNat

/-- A job that was set up. -/
theorem iogenJobInit_setUp {ns : NamespaceInfo} {config : JobConfig} {beyond : Beyond}
    {bioPool : ℕ → Bio} {identify : Buf} {job : IogenJob}
    (h : iogenJobInit ns config beyond bioPool identify = some job) :
    ∃ lbas, job.SetUp ns config beyond lbas := by
  simp only [iogenJobInit, Option.bind_eq_bind, Option.bind_eq_some_iff, Option.pure_def,
    Option.some.injEq] at h
  obtain ⟨oprLottery, hlottery, lbas, hlbas, rfl⟩ := h
  exact ⟨lbas, rfl, hlottery, hlbas, rfl, rfl, rfl, rfl⟩

/-- The streams of a job that was set up begin at the first LBA, whatever the parameters say. -/
theorem iogenJobInit_slbaNext {ns : NamespaceInfo} {config : JobConfig} {beyond : Beyond}
    {bioPool : ℕ → Bio} {identify : Buf} {job : IogenJob}
    (h : iogenJobInit ns config beyond bioPool identify = some job) :
    job.slbaNext = fun _ => 0 := by
  simp only [iogenJobInit, Option.bind_eq_bind, Option.bind_eq_some_iff, Option.pure_def,
    Option.some.injEq] at h
  obtain ⟨-, -, -, -, rfl⟩ := h
  rfl

/-- Every bio of the pool is free. -/
theorem iogenJobInit_pool {ns : NamespaceInfo} {config : JobConfig} {beyond : Beyond}
    {bioPool : ℕ → Bio} {identify : Buf} {job : IogenJob}
    (h : iogenJobInit ns config beyond bioPool identify = some job) :
    job.bioFree = List.range job.params.iodepth ∧ job.bioInflight = [] ∧ job.numInflight = 0 ∧
      job.bioPool = bioPool := by
  simp only [iogenJobInit, Option.bind_eq_bind, Option.bind_eq_some_iff, Option.pure_def,
    Option.some.injEq] at h
  obtain ⟨-, -, -, -, rfl⟩ := h
  exact ⟨rfl, rfl, rfl, rfl⟩

/-- The namespace that the null engine identifies. -/
def NamespaceInfo.null : NamespaceInfo where
  dataSize := 4096
  metaSize := 0
  blockSize := 4096
  extendedLba := false
  nlbs := 10000000
  lbaShift := 12
  piType := 0
  piLoc := 0
  nhist := 0
  randomizeHeader := false
  nine_le_lbaShift := by decide
  lbaShift_lt := by decide
  dataSize_eq := rfl
  blockSize_eq := rfl
  size_lt := by decide
  nhist_lt := no_entry_lt

/-- A verifier of the namespace of the null engine, with nothing locked. -/
def Iover.null : Iover :=
  .init .null (fun _ _ => 0) (fun _ => .zero) (fun _ => .ones) .zero 0

/-- Nothing behind the tables. -/
def Beyond.zero : Beyond where
  lbas _ := { minLbas := 0, lbasDist := 0 }
  iosizeAlign _ := 0

/-- What `iogen_job_init` makes of a job of the null engine. -/
def nullJob (config : JobConfig) : Option IogenJob :=
  iogenJobInit .null config .zero (fun _ => .plain .read 0 0 fun _ => 0) fun _ => 0

end ChamberSpo

import ChamberSpo.Datagen
import ChamberSpo.LbaLock

/-!
# The data model

The structures of `block.h`, `bio.h`, `iover.h`, `namespace.h` and `params.h`, with the fields
that the verifier reads. LBAs, sizes and counters are naturals; fields whose width matters
(timestamps, descriptors, what is stored in a buffer or in the journal) are bit vectors.

* `BlockDesc` — what the verifier believes about an LBA; its 3-bit state field has eight values,
  five of them named.
* `NamespaceInfo` — the geometry `namespace_add` establishes, with the relations it establishes
  as fields.
* `JobParams`, `Bio` — a job's parameters and one block I/O.
* `Iover` — the verifier of a namespace, which all its jobs share.
-/

namespace ChamberSpo

/-! ## Blocks -/

-- the literals of the unnamed states and of the two sequential streams
instance neZero_three : NeZero 3 := ⟨by decide⟩

instance neZero_two : NeZero 2 := ⟨by decide⟩

/-- `enum block_state`, as the 3-bit field of a descriptor holds it. -/
inductive BlockState where
  | unwritten
  | dealloc
  | uncor
  | zeroes
  | data
  /-- the values 5 to 7, which have no name -/
  | undef (k : Fin 3)
  deriving DecidableEq, Repr

/-- `struct block_desc` -/
structure BlockDesc where
  timestamp : BitVec 16
  state : BlockState
  pattern : BitVec 5
  flags : Byte
  deriving DecidableEq, Repr

/-- A descriptor of zero bytes. -/
def BlockDesc.zero : BlockDesc := { timestamp := 0, state := .unwritten, pattern := 0, flags := 0 }

/-- `struct hist_desc`, with `bd[BD_CURR]` and `bd[BD_NEXT]`. -/
structure HistDesc where
  lba : BitVec 64
  curr : BlockDesc
  next : BlockDesc
  deriving DecidableEq, Repr

/-! ## Parameters -/

/-- `enum unwr_read_result_type` -/
inductive UnwrReadResultType where
  | dontcare
  | auto
  | error
  | value
  deriving DecidableEq, Repr

/-- `enum unwr_read_value_type` -/
inductive UnwrReadValueType where
  | zeroes
  | ones
  deriving DecidableEq, Repr

/-- `dealloc_read_value_type_zeroes` -/
def deallocReadValueTypeZeroes : ℕ := 0

/-- `dealloc_read_value_type_ones` -/
def deallocReadValueTypeOnes : ℕ := 1

/-- `dealloc_read_value_type_last` -/
def deallocReadValueTypeLast : ℕ := 2

/-- `enum slba_type` -/
inductive SlbaType where
  | seq
  | uniform
  | zipf
  | pareto
  | fixed
  | jesd219
  | replay
  deriving DecidableEq, Repr

/-- `enum amount_type`, with the `amount` it selects. -/
inductive Amount where
  | infinite
  | time
  | io (ios : ℕ)
  | byte (bytes : ℕ)
  deriving DecidableEq, Repr

/-- `enum bio_opcode` -/
inductive BioOpcode where
  | read
  | write
  | flush
  | deallocate
  | writeZeroes
  | writeUncorrect
  | identify
  | fwDownload
  deriving DecidableEq, Repr

/-- The number of an opcode, as it is compared and used as an index. -/
def BioOpcode.num : BioOpcode → ℕ
  | .read => 0
  | .write => 1
  | .flush => 2
  | .deallocate => 3
  | .writeZeroes => 4
  | .writeUncorrect => 5
  | .identify => 6
  | .fwDownload => 7

/-- `struct job_params` -/
structure JobParams where
  lbaOverlap : Bool
  compare : Bool
  compareHeaderOnly : Bool
  stopOnMiscompare : Bool
  stopOnError : Bool
  iodepth : ℕ
  slbaType : SlbaType
  /-- `slba.fixed.lba` -/
  fixedLba : ℕ
  slbaAlign : ℕ
  separateStream : Bool
  /-- `iosizes[op].iosize_align` -/
  iosizeAlign : ℕ → ℕ
  amount : Amount
  unwrReadResultType : UnwrReadResultType
  unwrReadValueType : UnwrReadValueType
  /-- a value of the enumeration, tested bit by bit in one place -/
  deallocReadValueType : ℕ
  numStreams : ℕ
  /-- whether `inject_tag_error` is set -/
  injectTagError : Bool
  prchk : ℕ
  history : ℕ

/-- `struct namespace_info`, as `namespace_add` fills it in. -/
structure NamespaceInfo where
  dataSize : ℕ
  metaSize : ℕ
  blockSize : ℕ
  extendedLba : Bool
  nlbs : ℕ
  lbaShift : ℕ
  piType : ℕ
  piLoc : ℕ
  nhist : ℕ
  randomizeHeader : Bool
  /-- smaller LBA sizes are refused -/
  nine_le_lbaShift : 9 ≤ lbaShift
  /-- `lbads` is a byte -/
  lbaShift_lt : lbaShift < 256
  dataSize_eq : dataSize = 2 ^ lbaShift
  blockSize_eq : blockSize = dataSize + if extendedLba then metaSize else 0
  /-- `nlbs << lba_shift` is computed as a `u64` -/
  size_lt : nlbs * dataSize < 2 ^ 64
  /-- `nhist` is a `u32` -/
  nhist_lt : nhist < 2 ^ 32

/-- `struct bio` -/
structure Bio where
  opcode : BioOpcode
  slba : ℕ
  nlbs : ℕ
  iosize : ℕ
  offset : ℕ
  dataSize : ℕ
  /-- the bytes at `bio->data_buf`, which an identify fills -/
  dataBuf : Buf
  /-- the bytes at `bio->data` -/
  data : Buf
  metaSize : ℕ
  /-- the bytes at `bio->meta` -/
  metaBuf : Buf
  /-- the descriptors at the time the command was issued -/
  blockDesc : ℕ → BlockDesc
  streamId : ℕ
  result : Int
  expectedResult : Int
  pract : Bool
  prchk : ℕ
  apptag : BitVec 16
  reftag : BitVec 32
  timeout : Bool
  histIdx : ℕ

/-- The `hist_idx` of a bio that is no history replay. -/
def noHistIdx : ℕ := 0xFFFFFFFF

/-- The LBAs of a bio. -/
def Bio.range (bio : Bio) : Set ℕ := {x | bio.slba ≤ x ∧ x < bio.slba + bio.nlbs}

theorem Bio.mem_range {bio : Bio} {x : ℕ} :
    x ∈ bio.range ↔ bio.slba ≤ x ∧ x < bio.slba + bio.nlbs := Iff.rfl

instance (bio : Bio) (x : ℕ) : Decidable (x ∈ bio.range) :=
  inferInstanceAs (Decidable (bio.slba ≤ x ∧ x < bio.slba + bio.nlbs))

/-! ## The journal -/

/-- `struct journal_header` -/
structure JournalHeader where
  magic : BitVec 32
  sn : Fin 20 → Byte
  eui64 : Fin 8 → Byte
  dataSizeShift : BitVec 16
  metaSize : BitVec 16
  nlbs : BitVec 64
  nhist : BitVec 32
  histIdx : BitVec 32
  deriving DecidableEq

/-- `struct journal_footer` -/
structure JournalFooter where
  hostWrites : Fin 16 → Byte
  timestamp : BitVec 64
  rsvd : BitVec 32
  magic : BitVec 32
  deriving DecidableEq

/-! ## The verifier -/

/-- `struct iover`. The descriptors and the history are arrays; only what lies below `nlbs` and
below `nhist` is there. -/
structure Iover where
  ns : NamespaceInfo
  nthreads : ℕ
  blockDesc : ℕ → BlockDesc
  histDesc : ℕ → HistDesc
  /-- `journal.header` -/
  header : JournalHeader
  lbaLock : LockWords
  timestamp : BitVec 64
  datagen : Datagen
  /-- `iover_init` sets up the generator for the data size of the namespace -/
  datagen_dataSize : datagen.dataSize = ns.dataSize

/-- The small namespaces of concrete runs have eight LBAs. -/
theorem eight_lbas_lt : 8 * 512 < 2 ^ 64 := by decide

/-- They keep no history, -/
theorem no_entry_lt : 0 < 2 ^ 32 := by decide

/-- or a ring of two entries. -/
theorem two_entries_lt : 2 < 2 ^ 32 := by decide

namespace NamespaceInfo

variable (ns : NamespaceInfo)

/-- A block has room for its two headers. -/
theorem le_dataSize : 512 ≤ ns.dataSize := by
  rw [ns.dataSize_eq]
  exact Nat.pow_le_pow_right (by decide : 0 < 2) ns.nine_le_lbaShift

theorem dataSize_le_blockSize : ns.dataSize ≤ ns.blockSize := by
  rw [ns.blockSize_eq]
  exact Nat.le_add_right _ _

/-- LBAs are far from the end of the 64-bit range. -/
theorem nlbs_lt : ns.nlbs < 2 ^ 55 := by
  have h := ns.size_lt
  have hle := Nat.mul_le_mul_left ns.nlbs ns.le_dataSize
  omega

/-- A namespace of 512-byte LBAs without metadata. -/
def plain (nlbs nhist : ℕ) (h : nlbs * 512 < 2 ^ 64) (hh : nhist < 2 ^ 32) : NamespaceInfo where
  dataSize := 512
  metaSize := 0
  blockSize := 512
  extendedLba := false
  nlbs := nlbs
  lbaShift := 9
  piType := 0
  piLoc := 0
  nhist := nhist
  randomizeHeader := false
  nine_le_lbaShift := le_rfl
  lbaShift_lt := by decide
  dataSize_eq := rfl
  blockSize_eq := rfl
  size_lt := h
  nhist_lt := hh

end NamespaceInfo

/-- A history entry of `0xFF` bytes, as a new ring has them. -/
def HistDesc.ones : HistDesc where
  lba := BitVec.allOnes 64
  curr := { timestamp := BitVec.allOnes 16, state := .undef 2, pattern := BitVec.allOnes 5,
            flags := BitVec.allOnes 8 }
  next := { timestamp := BitVec.allOnes 16, state := .undef 2, pattern := BitVec.allOnes 5,
            flags := BitVec.allOnes 8 }

/-- `iover->datagen` as `iover_init` sets it up. -/
def initDatagen (ns : NamespaceInfo) (masks : ℕ → Buf) : Datagen :=
  let dg := datagenInit ns.dataSize (by have := ns.le_dataSize; simp only [blockHeaderSize]; omega)
    ns.randomizeHeader masks
  if ns.metaSize ≠ 0 then
    { dg with
      metaSize := ns.metaSize
      piOffset := if ns.piLoc = 1 then 0 else ns.metaSize - 8
      piType := 1 }
  else dg

theorem initDatagen_dataSize (ns : NamespaceInfo) (masks : ℕ → Buf) :
    (initDatagen ns masks).dataSize = ns.dataSize := by
  simp only [initDatagen]
  split <;> rfl

/-- The verifier `iover_init` sets up over descriptors and a history that are already there. -/
def Iover.init (ns : NamespaceInfo) (masks : ℕ → Buf) (blockDesc : ℕ → BlockDesc)
    (histDesc : ℕ → HistDesc) (header : JournalHeader) (timestamp : BitVec 64) : Iover where
  ns := ns
  nthreads := 0
  blockDesc := blockDesc
  histDesc := histDesc
  header := header
  lbaLock := fun _ => 0
  timestamp := timestamp
  datagen := initDatagen ns masks
  datagen_dataSize := initDatagen_dataSize ns masks

/-! ## Plain values -/

/-- The header of a journal that is not there. -/
def JournalHeader.zero : JournalHeader where
  magic := 0
  sn := fun _ => 0
  eui64 := fun _ => 0
  dataSizeShift := 0
  metaSize := 0
  nlbs := 0
  nhist := 0
  histIdx := 0

/-- A verifier of eight plain LBAs that have the descriptor `d`. -/
def Iover.plain (d : BlockDesc) : Iover :=
  .init (.plain 8 0 eight_lbas_lt no_entry_lt) (fun _ _ => 0) (fun _ => d) (fun _ => .ones) .zero
    0

/-- A job that compares everything it reads, without overlap. -/
def JobParams.plain : JobParams where
  lbaOverlap := false
  compare := true
  compareHeaderOnly := false
  stopOnMiscompare := true
  stopOnError := true
  iodepth := 2
  slbaType := .uniform
  fixedLba := 0
  slbaAlign := 0
  separateStream := false
  iosizeAlign := fun _ => 0
  amount := .infinite
  unwrReadResultType := .value
  unwrReadValueType := .zeroes
  deallocReadValueType := deallocReadValueTypeZeroes
  numStreams := 0
  injectTagError := false
  prchk := 0
  history := 0

/-- A bio over a range, with its data. -/
def Bio.plain (opcode : BioOpcode) (slba nlbs : ℕ) (data : Buf) : Bio where
  opcode := opcode
  slba := slba
  nlbs := nlbs
  iosize := nlbs * 512
  offset := slba * 512
  dataSize := nlbs * 512
  dataBuf := data
  data := data
  metaSize := 0
  metaBuf := fun _ => 0
  blockDesc := fun _ => .zero
  streamId := 0
  result := 0
  expectedResult := 0
  pract := false
  prchk := 0
  apptag := 0
  reftag := 0
  timeout := false
  histIdx := noHistIdx

end ChamberSpo

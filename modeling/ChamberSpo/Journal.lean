import ChamberSpo.Layout
import ChamberSpo.Types

/-!
# The journal

The verifier keeps its descriptors and its history in a journal, which outlives the process: a
header, a descriptor for each LBA, the history ring, and a footer. The journal is a file that is
mapped, a file that is read and written, or a segment of shared memory (`Backend`).

* `journalLayout` — the journal as bytes, made of the packed structures of `block.h` and
  `iover.h`.
* `createJournalFile`, `createJournalShm` — a new journal. `createAgree_iff` says when the two
  make the same one.
* `validateJournal`, `ioverInit`, `ioverExit` — a run of the verifier opens the journal and
  leaves it behind. `persists_iff` says when nothing is lost in between.

Everything the process is given by the system is an argument (`Env`): what fresh memory holds,
and how many bytes `pread` and `pwrite` transfer.
-/

namespace ChamberSpo

/-! ## The structures in memory -/

/-- The 3-bit state field of a descriptor. -/
def BlockState.ofBits (v : BitVec 3) : BlockState :=
  match v.toNat with
  | 0 => .unwritten
  | 1 => .dealloc
  | 2 => .uncor
  | 3 => .zeroes
  | 4 => .data
  | k => .undef (Fin.ofNat 3 (k - 5))

/-- The value of the state field. -/
def BlockState.toBits : BlockState → BitVec 3
  | .unwritten => 0
  | .dealloc => 1
  | .uncor => 2
  | .zeroes => 3
  | .data => 4
  | .undef k => BitVec.ofNat 3 (5 + k)

theorem BlockState.toBits_ofBits (v : BitVec 3) : (BlockState.ofBits v).toBits = v := by
  revert v
  decide

theorem BlockState.ofBits_toBits (s : BlockState) : .ofBits s.toBits = s := by
  cases s with
  | undef k => revert k; decide
  | _ => rfl

/-- The fields of `struct block_desc`; state and pattern share a byte, the state in its low
bits. -/
def blockDescEquiv : BitVec 16 × Byte × Byte ≃ BlockDesc where
  toFun p := ⟨p.1, .ofBits (p.2.1.extractLsb' 0 3), p.2.1.extractLsb' 3 5, p.2.2⟩
  invFun d := (d.timestamp, d.pattern ++ d.state.toBits, d.flags)
  left_inv p := by
    have hbyte : ∀ v : Byte, v.extractLsb' 3 5 ++ v.extractLsb' 0 3 = v := fun v => by
      refine BitVec.eq_of_getLsbD_eq ?_
      intro i hi
      rw [BitVec.getLsbD_append, BitVec.getLsbD_extractLsb', BitVec.getLsbD_extractLsb']
      grind
    simp only [BlockState.toBits_ofBits, hbyte]
  right_inv d := by
    simp only [BitVec.extractLsb'_append_eq_left, BitVec.extractLsb'_append_eq_right,
      BlockState.ofBits_toBits]

/-- `struct block_desc` -/
def blockDescLayout : Layout BlockDesc :=
  ((Layout.word 16 (by decide)).pair ((Layout.word 8 (by decide)).pair
    (Layout.word 8 (by decide)))).map blockDescEquiv

/-- The fields of `struct hist_desc`. -/
def histDescEquiv : BitVec 64 × BlockDesc × BlockDesc ≃ HistDesc where
  toFun p := ⟨p.1, p.2.1, p.2.2⟩
  invFun h := (h.lba, h.curr, h.next)
  left_inv _ := rfl
  right_inv _ := rfl

/-- `struct hist_desc` -/
def histDescLayout : Layout HistDesc :=
  ((Layout.word 64 (by decide)).pair (blockDescLayout.pair blockDescLayout)).map histDescEquiv

/-- The fields of `struct journal_header`. -/
def journalHeaderEquiv :
    BitVec 32 × (Fin 20 → Byte) × (Fin 8 → Byte) × BitVec 16 × BitVec 16 × BitVec 64 × BitVec 32 ×
      BitVec 32 ≃ JournalHeader where
  toFun p := ⟨p.1, p.2.1, p.2.2.1, p.2.2.2.1, p.2.2.2.2.1, p.2.2.2.2.2.1, p.2.2.2.2.2.2.1,
    p.2.2.2.2.2.2.2⟩
  invFun h := (h.magic, h.sn, h.eui64, h.dataSizeShift, h.metaSize, h.nlbs, h.nhist, h.histIdx)
  left_inv _ := rfl
  right_inv _ := rfl

/-- `struct journal_header` -/
def journalHeaderLayout : Layout JournalHeader :=
  ((Layout.word 32 (by decide)).pair <| ((Layout.word 8 (by decide)).array 20).pair <|
    ((Layout.word 8 (by decide)).array 8).pair <| (Layout.word 16 (by decide)).pair <|
    (Layout.word 16 (by decide)).pair <| (Layout.word 64 (by decide)).pair <|
    (Layout.word 32 (by decide)).pair (Layout.word 32 (by decide))).map journalHeaderEquiv

/-- The fields of `struct journal_footer`. -/
def journalFooterEquiv : (Fin 16 → Byte) × BitVec 64 × BitVec 32 × BitVec 32 ≃ JournalFooter where
  toFun p := ⟨p.1, p.2.1, p.2.2.1, p.2.2.2⟩
  invFun f := (f.hostWrites, f.timestamp, f.rsvd, f.magic)
  left_inv _ := rfl
  right_inv _ := rfl

/-- `struct journal_footer` -/
def journalFooterLayout : Layout JournalFooter :=
  (((Layout.word 8 (by decide)).array 16).pair <| (Layout.word 64 (by decide)).pair <|
    (Layout.word 32 (by decide)).pair (Layout.word 32 (by decide))).map journalFooterEquiv

/-- The assertions of `__check_size`. -/
theorem check_size : journalHeaderLayout.size = 52 ∧ journalFooterLayout.size = 32 ∧
    blockDescLayout.size = 4 ∧ histDescLayout.size = 16 := ⟨rfl, rfl, rfl, rfl⟩

/-- An unwritten LBA has a descriptor of zero bytes. -/
theorem blockDescLayout_write_zero :
    ∀ i < blockDescLayout.size, blockDescLayout.write .zero i = 0 := by
  decide

/-- An empty entry of the history has `0xFF` bytes. -/
theorem histDescLayout_write_ones :
    ∀ i < histDescLayout.size, histDescLayout.write .ones i = 0xFF := by
  decide

/-- What is at `journal.base`. -/
structure Journal (ns : NamespaceInfo) where
  header : JournalHeader
  blockDesc : Fin ns.nlbs → BlockDesc
  histDesc : Fin ns.nhist → HistDesc
  footer : JournalFooter

/-- The parts of a journal. -/
def journalEquiv (ns : NamespaceInfo) :
    JournalHeader × (Fin ns.nlbs → BlockDesc) × (Fin ns.nhist → HistDesc) × JournalFooter ≃
      Journal ns where
  toFun p := ⟨p.1, p.2.1, p.2.2.1, p.2.2.2⟩
  invFun j := (j.header, j.blockDesc, j.histDesc, j.footer)
  left_inv _ := rfl
  right_inv _ := rfl

/-- The journal of a namespace. -/
def journalLayout (ns : NamespaceInfo) : Layout (Journal ns) :=
  (journalHeaderLayout.pair <| (blockDescLayout.array ns.nlbs).pair <|
    (histDescLayout.array ns.nhist).pair journalFooterLayout).map (journalEquiv ns)

/-- `iover->block_desc - journal.base` -/
def blockDescAt : ℕ := journalHeaderLayout.size

/-- `iover->hist_desc - journal.base` -/
def histDescAt (ns : NamespaceInfo) : ℕ := blockDescAt + blockDescLayout.size * ns.nlbs

/-- `journal.footer - journal.base` -/
def journalFooterAt (ns : NamespaceInfo) : ℕ := histDescAt ns + histDescLayout.size * ns.nhist

/-- `__get_journal_size` -/
def getJournalSize (ns : NamespaceInfo) : ℕ :=
  journalHeaderLayout.size + blockDescLayout.size * ns.nlbs + histDescLayout.size * ns.nhist +
    journalFooterLayout.size

variable {ns : NamespaceInfo}

/-- The journal takes up exactly its size. -/
theorem journalLayout_size (ns : NamespaceInfo) : (journalLayout ns).size = getJournalSize ns := by
  simp only [journalLayout, Layout.map_size, Layout.pair_size, Layout.array_size, getJournalSize]
  omega

/-- **The places of the parts of a journal.** -/
theorem journalLayout_read (ns : NamespaceInfo) (b : Buf) :
    (journalLayout ns).read b =
      { header := journalHeaderLayout.get b 0
        blockDesc := (blockDescLayout.array ns.nlbs).get b blockDescAt
        histDesc := (histDescLayout.array ns.nhist).get b (histDescAt ns)
        footer := journalFooterLayout.get b (journalFooterAt ns) } := by
  have hzero : b.shift 0 = b := funext fun i => congrArg b (Nat.zero_add i)
  simp only [journalLayout, Layout.map_read, Layout.pair_read, Layout.get, hzero, Buf.shift_shift,
    Layout.array_size, journalEquiv, Equiv.coe_fn_mk, blockDescAt, histDescAt, journalFooterAt,
    Nat.add_assoc]

/-! ## A new journal -/

/-- `JOURNAL_HEADER_MAGIC` -/
def journalHeaderMagic : BitVec 32 := 0x19850830

/-- `JOURNAL_FOOTER_MAGIC` -/
def journalFooterMagic : BitVec 32 := 0x20160528

/-- The header that is filled in over `header`. -/
def createHeader (ns : NamespaceInfo) (header : JournalHeader) : JournalHeader :=
  { header with
    magic := journalHeaderMagic
    dataSizeShift := BitVec.ofNat 16 ns.lbaShift
    metaSize := 0
    nlbs := BitVec.ofNat 64 ns.nlbs
    nhist := BitVec.ofNat 32 ns.nhist
    histIdx := 0 }

/-- The footer of a new journal. -/
def createFooter : JournalFooter where
  hostWrites := fun _ => 0
  timestamp := 0
  rsvd := 0
  magic := journalFooterMagic

/-- A file that is written from its start on. -/
structure JournalFile where
  bytes : Buf
  size : ℕ

/-- A `write` of `n` bytes, all of which are written; otherwise no journal is made. -/
def JournalFile.append (file : JournalFile) (b : Buf) (n : ℕ) : JournalFile where
  bytes := file.bytes.copy file.size b n
  size := file.size + n

/-- `buf_byte` -/
def bufByte : ℕ := 2 ^ 20

/-- The loop of `__create_journal_file`, which writes the same buffer again and again. -/
def createLoop (buf : Buf) (remainedByte : ℕ) (file : JournalFile) : JournalFile :=
  if remainedByte = 0 then file
  else
    let writeByte := min remainedByte bufByte
    createLoop buf (remainedByte - writeByte) (file.append buf writeByte)
termination_by remainedByte
decreasing_by
  have : 0 < bufByte := by decide
  omega

/-- `file_byte` -/
def fileByte (ns : NamespaceInfo) : ℕ :=
  ns.nlbs * blockDescLayout.size + ns.nhist * histDescLayout.size

/-- `__create_journal_file`; `buf` is what `malloc` returns. -/
def createJournalFile (ns : NamespaceInfo) (buf : Buf) : JournalFile :=
  let file : JournalFile := { bytes := fun _ => 0, size := 0 }
  let file := file.append (journalHeaderLayout.write (createHeader ns .zero))
    journalHeaderLayout.size
  let file := createLoop buf (fileByte ns) file
  file.append (journalFooterLayout.write createFooter) journalFooterLayout.size

/-- `__create_journal_shm`, in a segment that holds `base`. -/
def createJournalShm (ns : NamespaceInfo) (base : Buf) : Buf :=
  let base := journalHeaderLayout.put base 0 (createHeader ns (journalHeaderLayout.get base 0))
  let base := base.fill blockDescAt 0 (blockDescLayout.size * ns.nlbs)
  let base := base.fill (histDescAt ns) 0xFF (histDescLayout.size * ns.nhist)
  journalFooterLayout.put base (journalFooterAt ns) createFooter

/-- **What the loop writes**: the buffer, over and over, behind what is there. -/
theorem createLoop_spec (buf : Buf) (remainedByte : ℕ) (file : JournalFile) :
    (createLoop buf remainedByte file).size = file.size + remainedByte ∧
      (∀ i < remainedByte,
        (createLoop buf remainedByte file).bytes (file.size + i) = buf (i % bufByte)) ∧
      ∀ i < file.size, (createLoop buf remainedByte file).bytes i = file.bytes i := by
  have hpos : 0 < bufByte := by decide
  induction remainedByte using Nat.strong_induction_on generalizing file with
  | _ remainedByte ih =>
    rw [createLoop]
    split
    · rename_i hzero
      exact ⟨by omega, fun i hi => by omega, fun _ _ => rfl⟩
    · rename_i hne
      obtain ⟨hsize, hnew, hold⟩ := ih (remainedByte - min remainedByte bufByte) (by omega)
        (file.append buf (min remainedByte bufByte))
      simp only [JournalFile.append] at hsize hnew hold ⊢
      refine ⟨by omega, ?_, ?_⟩
      · intro i hi
        rcases Nat.lt_or_ge i (min remainedByte bufByte) with hlt | hge
        · rw [hold _ (by omega), Buf.copy_in hlt, Nat.mod_eq_of_lt (by omega)]
        · -- a later chunk, which only comes after a whole buffer
          obtain ⟨k, rfl⟩ := Nat.exists_eq_add_of_le hge
          have hfull : min remainedByte bufByte = bufByte := by omega
          rw [← Nat.add_assoc, hnew k (by omega), hfull, Nat.add_mod_left]
      · intro i hi
        rw [hold _ (by omega), Buf.copy_out (.inl hi)]

/-- The journal in a new file. -/
theorem createJournalFile_spec (ns : NamespaceInfo) (buf : Buf) :
    (createJournalFile ns buf).size = getJournalSize ns ∧
      journalHeaderLayout.get (createJournalFile ns buf).bytes 0 = createHeader ns .zero ∧
      (∀ i < fileByte ns,
        (createJournalFile ns buf).bytes (blockDescAt + i) = buf (i % bufByte)) ∧
      journalFooterLayout.get (createJournalFile ns buf).bytes (journalFooterAt ns)
        = createFooter := by
  obtain ⟨hsize, hnew, hold⟩ := createLoop_spec buf (fileByte ns)
    (JournalFile.append { bytes := fun _ => 0, size := 0 }
      (journalHeaderLayout.write (createHeader ns .zero)) journalHeaderLayout.size)
  have hat : journalFooterAt ns = journalHeaderLayout.size + fileByte ns := by
    simp only [journalFooterAt, histDescAt, blockDescAt, fileByte, Nat.mul_comm]
    omega
  simp only [createJournalFile]
  generalize createLoop buf (fileByte ns) _ = file at hsize hnew hold ⊢
  simp only [JournalFile.append, Nat.zero_add] at hsize hnew hold ⊢
  refine ⟨?_, ?_, ?_, ?_⟩
  · simp only [hsize, getJournalSize, fileByte, Nat.mul_comm]
    omega
  · refine (journalHeaderLayout.get_congr fun i hi => ?_).trans
      (journalHeaderLayout.get_put (fun _ => 0) 0 _)
    rw [Nat.zero_add, Buf.copy_out (.inl (by omega)), hold i hi]
    rfl
  · intro i hi
    rw [Buf.copy_out (.inl (by rw [blockDescAt]; omega))]
    exact hnew i hi
  · rw [hat, ← hsize]
    exact journalFooterLayout.get_put file.bytes file.size createFooter

/-- The journal in a new segment: only what its header had in `sn` and `eui64` is left. -/
theorem createJournalShm_read (ns : NamespaceInfo) (base : Buf) :
    (journalLayout ns).read (createJournalShm ns base) =
      { header := createHeader ns (journalHeaderLayout.get base 0)
        blockDesc := fun _ => .zero
        histDesc := fun _ => .ones
        footer := createFooter } := by
  have hat : blockDescAt + blockDescLayout.size * ns.nlbs = histDescAt ns := rfl
  have hfooter : histDescAt ns + histDescLayout.size * ns.nhist = journalFooterAt ns := rfl
  rw [journalLayout_read, createJournalShm]
  simp only [Journal.mk.injEq]
  refine ⟨?_, ?_, ?_, ?_⟩
  · refine (journalHeaderLayout.get_congr fun i hi => ?_).trans
      (journalHeaderLayout.get_put base 0 _)
    have hi' : i < blockDescAt := hi
    rw [Nat.zero_add, Layout.put, Buf.copy_out (.inl (by omega)), Buf.fill,
      Buf.copy_out (.inl (by omega)), Buf.fill, Buf.copy_out (.inl hi')]
  · refine (Layout.array_read_const ns.nlbs blockDescLayout_write_zero).mpr ?_
    intro i hi
    rw [Buf.shift_apply, Layout.put, Buf.copy_out (.inl (by omega)), Buf.fill,
      Buf.copy_out (.inl (by omega)), Buf.fill, Buf.copy_in hi]
  · refine (Layout.array_read_const ns.nhist histDescLayout_write_ones).mpr ?_
    intro i hi
    rw [Buf.shift_apply, Layout.put, Buf.copy_out (.inl (by omega)), Buf.fill, Buf.copy_in hi]
  · exact journalFooterLayout.get_put _ _ _

/-! ## Opening a journal -/

/-- What `__validate_journal` complains about: it expects what the header says of the namespace. -/
inductive JournalError where
  /-- `invalid journal file format, header not found` -/
  | noHeader
  /-- `expected logical block size is <%u>, but was <%u>`, of which these are the logarithms -/
  | blockSize (expected was : ℕ)
  /-- `expected number of lbas is <%llu>, but was <%llu>` -/
  | nlbs (expected was : ℕ)
  /-- `expected number of history is <%u>, but was <%u>` -/
  | nhist (expected was : ℕ)
  /-- `invalid journal file format, footer not found` -/
  | noFooter
  deriving DecidableEq, Repr

/-- `__validate_journal` -/
def validateJournal (ns : NamespaceInfo) (base : Buf) : Option JournalError :=
  let header := journalHeaderLayout.get base 0
  if header.magic ≠ journalHeaderMagic then some .noHeader
  else if header.dataSizeShift.toNat ≠ ns.lbaShift then
    some (.blockSize header.dataSizeShift.toNat ns.lbaShift)
  else if header.nlbs.toNat ≠ ns.nlbs then some (.nlbs header.nlbs.toNat ns.nlbs)
  else if header.nhist.toNat ≠ ns.nhist then some (.nhist header.nhist.toNat ns.nhist)
  else if (journalFooterLayout.get base (journalFooterAt ns)).magic ≠ journalFooterMagic then
    some .noFooter
  else none

/-- The journal belongs to the namespace. -/
structure Journal.Accepted (j : Journal ns) : Prop where
  magic : j.header.magic = journalHeaderMagic
  dataSizeShift : j.header.dataSizeShift.toNat = ns.lbaShift
  nlbs : j.header.nlbs.toNat = ns.nlbs
  nhist : j.header.nhist.toNat = ns.nhist
  footer : j.footer.magic = journalFooterMagic

/-- What `__validate_journal` lets pass. -/
theorem validateJournal_eq_none_iff {base : Buf} :
    validateJournal ns base = none ↔ ((journalLayout ns).read base).Accepted := by
  rw [journalLayout_read, validateJournal]
  refine ⟨?_, ?_⟩
  · intro h
    simp only [ite_eq_iff, reduceCtorEq, and_false, and_true, false_or, ne_eq,
      not_not] at h
    obtain ⟨hmagic, hshift, hnlbs, hnhist, hfooter⟩ := h
    exact ⟨hmagic, hshift, hnlbs, hnhist, hfooter⟩
  · intro h
    obtain ⟨hmagic, hshift, hnlbs, hnhist, hfooter⟩ := h
    simp only at hmagic hshift hnlbs hnhist hfooter
    simp only [hmagic, hshift, hnlbs, hnhist, hfooter, ne_eq, not_true_eq_false, if_false]

/-- A header that was filled in belongs to its namespace. -/
theorem accepted_create (header : JournalHeader) (blockDesc : Fin ns.nlbs → BlockDesc)
    (histDesc : Fin ns.nhist → HistDesc) :
    Journal.Accepted ⟨createHeader ns header, blockDesc, histDesc, createFooter⟩ where
  magic := rfl
  dataSizeShift := by
    have := ns.lbaShift_lt
    simp only [createHeader, BitVec.toNat_ofNat]
    omega
  nlbs := by
    have := ns.nlbs_lt
    simp only [createHeader, BitVec.toNat_ofNat]
    omega
  nhist := by
    have := ns.nhist_lt
    simp only [createHeader, BitVec.toNat_ofNat]
    omega
  footer := rfl

/-- Where the journal is kept: `journal_file` with `journal_file_mmap`, `journal_file` without,
or `journal_shm`. -/
inductive Backend where
  | mmap
  | file
  | shm
  deriving DecidableEq, Repr

/-- How many bytes a `pread` or a `pwrite` at an offset transfers, of those it is asked for. -/
structure Transfer where
  count : ℕ → ℕ → ℕ
  /-- the file is there, and there is something to transfer -/
  pos : ∀ offset n, 0 < n → 0 < count offset n
  le : ∀ offset n, count offset n ≤ n

/-- What the process is given by the system. -/
structure Env where
  /-- the masks that `datagen_init` draws -/
  masks : ℕ → Buf
  /-- what `malloc` returns -/
  heap : Buf
  /-- a new segment of shared memory -/
  segment : Buf
  transfer : Transfer

/-- The loops over `pread` and over `pwrite`: all of the journal is copied, piece by piece. -/
def transferLoop (io : Transfer) (size : ℕ) (src dst : Buf) (offset : ℕ) : Buf :=
  if offset < size then
    let n := io.count offset (size - offset)
    transferLoop io size src (dst.copy offset (src.shift offset) n) (offset + n)
  else dst
termination_by size - offset
decreasing_by
  have := io.pos offset (size - offset) (by omega)
  omega

/-- **The loops transfer every byte**, whatever the pieces. -/
theorem transferLoop_apply (io : Transfer) (size : ℕ) (src dst : Buf) (offset i : ℕ) :
    transferLoop io size src dst offset i = if offset ≤ i ∧ i < size then src i else dst i := by
  fun_induction transferLoop io size src dst offset with
  | case1 dst offset hlt n ih =>
    have hpos : 0 < n := io.pos offset (size - offset) (by omega)
    have hle : n ≤ size - offset := io.le offset (size - offset)
    rw [ih]
    by_cases hlow : i < offset ∨ size ≤ i
    · rw [if_neg (by omega), if_neg (by omega), Buf.copy_out (by omega)]
    · rw [if_pos (show offset ≤ i ∧ i < size by omega)]
      split
      · rfl
      · -- a byte of this piece
        obtain ⟨k, rfl⟩ := Nat.exists_eq_add_of_le (show offset ≤ i by omega)
        rw [Buf.copy_in (by omega), Buf.shift_apply]
  | case2 dst offset hge => rw [if_neg (by omega)]

/-- The journal in the memory of the process. -/
def Iover.journal (iover : Iover) (footer : JournalFooter) : Journal iover.ns :=
  ⟨iover.header, fun lba => iover.blockDesc lba, fun i => iover.histDesc i, footer⟩

/-- A verifier whose journal is open. -/
structure JournaledIover where
  iover : Iover
  /-- `*journal.footer` -/
  footer : JournalFooter
  /-- `__validate_journal` let the journal pass, and what it looked at is not changed any more -/
  accepted : (iover.journal footer).Accepted

/-- The verifier over the journal at `journal.base`. -/
def Journal.iover (j : Journal ns) (masks : ℕ → Buf) : Iover :=
  .init ns masks (fun lba => if h : lba < ns.nlbs then j.blockDesc ⟨lba, h⟩ else .zero)
    (fun i => if h : i < ns.nhist then j.histDesc ⟨i, h⟩ else .ones) j.header j.footer.timestamp

/-- The bytes at `journal.base` once the journal is there. -/
def loadJournal (backend : Backend) (ns : NamespaceInfo) (env : Env) (store : Buf) : Buf :=
  match backend with
  | .mmap | .shm => store
  | .file => transferLoop env.transfer (getJournalSize ns) store env.heap 0

/-- The journal is made if it is not there. -/
def openJournal (backend : Backend) (ns : NamespaceInfo) (env : Env) : Option Buf → Buf
  | some store => store
  | none => match backend with
    | .mmap | .file => (createJournalFile ns env.heap).bytes
    | .shm => createJournalShm ns env.segment

/-- The end of `iover_init`: the journal at `base` is looked at, and the verifier laid over it. -/
def useJournal (ns : NamespaceInfo) (masks : ℕ → Buf) (base : Buf) :
    Except JournalError JournaledIover :=
  match h : validateJournal ns base with
  | some e => .error e
  | none => .ok {
      iover := ((journalLayout ns).read base).iover masks
      footer := ((journalLayout ns).read base).footer
      accepted := by
        obtain ⟨hmagic, hshift, hnlbs, hnhist, hfooter⟩ := validateJournal_eq_none_iff.mp h
        exact ⟨hmagic, hshift, hnlbs, hnhist, hfooter⟩ }

/-- `iover_init`, with a journal. -/
def ioverInit (backend : Backend) (ns : NamespaceInfo) (env : Env) (store : Option Buf) :
    Except JournalError JournaledIover :=
  useJournal ns env.masks (loadJournal backend ns env (openJournal backend ns env store))

/-- `iover_exit`, with a journal: what is left in the file or the segment. -/
def ioverExit (backend : Backend) (env : Env) (v : JournaledIover) (store : Buf) : Buf :=
  let layout := journalLayout v.iover.ns
  match backend with
  | .mmap => layout.put store 0 (v.iover.journal { v.footer with timestamp := v.iover.timestamp })
  | .file =>
    let base := layout.put env.heap 0
      (v.iover.journal { v.footer with timestamp := v.iover.timestamp })
    transferLoop env.transfer (getJournalSize v.iover.ns) base store 0
  -- only a file gets the timestamp
  | .shm => layout.put store 0 (v.iover.journal v.footer)

/-! ## From one run to the next -/

/-- Loading a journal loses nothing. -/
theorem read_loadJournal (backend : Backend) (ns : NamespaceInfo) (env : Env) (store : Buf) :
    (journalLayout ns).read (loadJournal backend ns env store) = (journalLayout ns).read store := by
  refine (journalLayout ns).read_congr ?_
  intro i hi
  rw [journalLayout_size] at hi
  cases backend with
  | file => rw [loadJournal, transferLoop_apply, if_pos ⟨Nat.zero_le i, hi⟩]
  | _ => rfl

/-- A journal that belongs to the namespace passes. -/
theorem useJournal_of_accepted (base : Buf) (h : ((journalLayout ns).read base).Accepted)
    (masks : ℕ → Buf) : ∃ w, useJournal ns masks base = .ok w ∧
      w.iover = ((journalLayout ns).read base).iover masks ∧
      w.footer = ((journalLayout ns).read base).footer := by
  have hnone := validateJournal_eq_none_iff.mpr h
  simp only [useJournal]
  split
  · rename_i e herror
    exact absurd (herror.symm.trans hnone) (Option.some_ne_none e)
  · exact ⟨_, rfl, rfl, rfl⟩

/-- **A journal that belongs to the namespace is opened.** -/
theorem ioverInit_of_read (backend : Backend) (env : Env) {j : Journal ns} {store : Buf}
    (haccepted : j.Accepted)
    (hread : (journalLayout ns).read store = j) :
    ∃ w, ioverInit backend ns env (some store) = .ok w ∧ w.iover = j.iover env.masks ∧
      w.footer = j.footer := by
  have hload := (read_loadJournal backend ns env store).trans hread
  obtain ⟨w, hw, hiover, hfooter⟩ := useJournal_of_accepted _ (hload.symm ▸ haccepted) env.masks
  exact ⟨w, hw, hload ▸ hiover, hload ▸ hfooter⟩

/-- The footer that `iover_exit` leaves behind. -/
def exitFooter (backend : Backend) (v : JournaledIover) : JournalFooter :=
  { v.footer with
    timestamp := if backend = .shm then v.footer.timestamp else v.iover.timestamp }

/-- **What `iover_exit` leaves behind** is the journal of the process, with that footer. -/
theorem read_ioverExit (backend : Backend) (env : Env) (v : JournaledIover) (store : Buf) :
    (journalLayout v.iover.ns).read (ioverExit backend env v store)
      = v.iover.journal (exitFooter backend v) := by
  have hzero : ∀ b : Buf, b.shift 0 = b := fun b => funext fun i => congrArg b (Nat.zero_add i)
  have hput : ∀ (b : Buf) (j : Journal v.iover.ns),
      (journalLayout v.iover.ns).read ((journalLayout v.iover.ns).put b 0 j) = j := fun b j => by
    have h := (journalLayout v.iover.ns).get_put b 0 j
    rwa [Layout.get, hzero] at h
  cases backend with
  | mmap => exact hput _ _
  | shm => exact hput _ _
  | file =>
    refine Eq.trans ((journalLayout v.iover.ns).read_congr ?_) (hput env.heap _)
    intro i hi
    rw [journalLayout_size] at hi
    rw [ioverExit, transferLoop_apply, if_pos ⟨Nat.zero_le i, hi⟩]
    rfl

/-- The next run finds what this one had, and no timestamp that this one has used. -/
def Persists (backend : Backend) (env env' : Env) (v : JournaledIover) (store : Buf) : Prop :=
  ∃ w, ioverInit backend v.iover.ns env' (some (ioverExit backend env v store)) = .ok w ∧
    (∀ lba < v.iover.ns.nlbs, w.iover.blockDesc lba = v.iover.blockDesc lba) ∧
    (∀ i < v.iover.ns.nhist, w.iover.histDesc i = v.iover.histDesc i) ∧
    w.iover.header.histIdx = v.iover.header.histIdx ∧ v.iover.timestamp ≤ w.iover.timestamp

/-- **The next run**: everything is there, the timestamp as the footer has it. -/
theorem ioverInit_ioverExit (backend : Backend) (env env' : Env) (v : JournaledIover)
    (store : Buf) :
    ∃ w, ioverInit backend v.iover.ns env' (some (ioverExit backend env v store)) = .ok w ∧
      (∀ lba < v.iover.ns.nlbs, w.iover.blockDesc lba = v.iover.blockDesc lba) ∧
      (∀ i < v.iover.ns.nhist, w.iover.histDesc i = v.iover.histDesc i) ∧
      w.iover.header = v.iover.header ∧
      w.iover.timestamp = (exitFooter backend v).timestamp := by
  have haccepted : (v.iover.journal (exitFooter backend v)).Accepted :=
    ⟨v.accepted.magic, v.accepted.dataSizeShift, v.accepted.nlbs, v.accepted.nhist,
      v.accepted.footer⟩
  obtain ⟨w, hinit, hiover, -⟩ := ioverInit_of_read backend env' haccepted
    (read_ioverExit backend env v store)
  refine ⟨w, hinit, ?_, ?_, ?_, ?_⟩
  · intro lba hlba
    rw [hiover]
    exact dif_pos hlba
  · intro i hi
    rw [hiover]
    exact dif_pos hi
  · rw [hiover]
    rfl
  · rw [hiover]
    rfl

/-- **The journal persists** but for the timestamp, which only a file keeps. -/
theorem persists_iff (backend : Backend) (env env' : Env) (v : JournaledIover) (store : Buf) :
    Persists backend env env' v store ↔
      backend ≠ .shm ∨ v.iover.timestamp ≤ v.footer.timestamp := by
  obtain ⟨w, hinit, hdesc, hhist, hheader, htimestamp⟩ :=
    ioverInit_ioverExit backend env env' v store
  have hle : v.iover.timestamp ≤ w.iover.timestamp ↔
      backend ≠ .shm ∨ v.iover.timestamp ≤ v.footer.timestamp := by
    rw [htimestamp, exitFooter]
    by_cases hb : backend = .shm
    · simp [hb]
    · simp [hb]
  rw [← hle]
  refine ⟨?_, ?_⟩
  · rintro ⟨w', hinit', -, -, -, h⟩
    obtain rfl := Except.ok.inj (hinit'.symm.trans hinit)
    exact h
  · exact fun h => ⟨w, hinit, hdesc, hhist, congrArg JournalHeader.histIdx hheader, h⟩

/-- A new segment of shared memory after one write. -/
def writtenIover : JournaledIover where
  iover := .init (.plain 8 0 eight_lbas_lt no_entry_lt) (fun _ _ => 0) (fun _ => .zero)
    (fun _ => .ones) (createHeader (.plain 8 0 eight_lbas_lt no_entry_lt) .zero) 1
  footer := createFooter
  accepted := accepted_create .zero _ _

/-- The next run begins at timestamp 0 again. -/
theorem not_persists_shm : ∃ env store, ¬ Persists .shm env env writtenIover store := by
  let env : Env := ⟨fun _ _ => 0, fun _ => 0, fun _ => 0, ⟨fun _ n => n, fun _ _ h => h,
    fun _ _ => le_rfl⟩⟩
  refine ⟨env, fun _ => 0, ?_⟩
  rintro ⟨w, hinit, -, -, -, hle⟩
  obtain ⟨w', hinit', -, -, -, htimestamp⟩ :=
    ioverInit_ioverExit .shm env env writtenIover fun _ => 0
  obtain rfl := Except.ok.inj (hinit.symm.trans hinit')
  rw [htimestamp] at hle
  exact absurd hle (by decide)

/-! ## Two ways to a new journal -/

/-- A new file has the size of a journal and passes as one, no LBA is written in it, and it is
the journal that a new segment would have. -/
def CreateAgree (ns : NamespaceInfo) (buf base : Buf) : Prop :=
  (createJournalFile ns buf).size = getJournalSize ns ∧
    validateJournal ns (createJournalFile ns buf).bytes = none ∧
    (∀ lba, ((journalLayout ns).read (createJournalFile ns buf).bytes).blockDesc lba = .zero) ∧
    (journalLayout ns).read (createJournalFile ns buf).bytes
      = (journalLayout ns).read (createJournalShm ns base)

/-- The bytes of a header that `__create_journal_shm` leaves as they are. -/
theorem createHeader_eq_iff (ns : NamespaceInfo) (base : Buf) :
    createHeader ns .zero = createHeader ns (journalHeaderLayout.get base 0) ↔
      ∀ i, 4 ≤ i → i < 32 → base i = 0 := by
  have hsn : ∀ k : Fin 20, (journalHeaderLayout.get base 0).sn k = base (4 + k) := fun k => by
    apply (Layout.word_read_byte _).trans
    simp only [Buf.shift_apply]
    congr 1
    simp
  have heui64 : ∀ k : Fin 8, (journalHeaderLayout.get base 0).eui64 k = base (24 + k) :=
    fun k => by
      apply (Layout.word_read_byte _).trans
      simp only [Buf.shift_apply]
      congr 1
      simp only [Layout.word_size, Layout.array_size]
      omega
  simp only [createHeader, JournalHeader.mk.injEq, and_true, true_and, JournalHeader.zero,
    funext_iff, hsn, heui64]
  refine ⟨?_, ?_⟩
  · rintro ⟨h, h'⟩ i hlow hhigh
    rcases Nat.lt_or_ge i 24 with hi | hi
    · have hk := h ⟨i - 4, by omega⟩
      rwa [Nat.add_sub_cancel' hlow, eq_comm] at hk
    · have hk := h' ⟨i - 24, by omega⟩
      rwa [Nat.add_sub_cancel' hi, eq_comm] at hk
  · intro h
    exact ⟨fun k => (h _ (by omega) (by omega)).symm, fun k => (h _ (by omega) (by omega)).symm⟩

/-- **When the two agree**: the buffer that is written to the file holds the descriptors and the
history as they should be, and the segment is empty where the header is not filled in. -/
theorem createAgree_iff (ns : NamespaceInfo) (buf base : Buf) :
    CreateAgree ns buf base ↔
      (∀ i < 4 * ns.nlbs, buf (i % 2 ^ 20) = 0) ∧
      (∀ i < 16 * ns.nhist, buf ((4 * ns.nlbs + i) % 2 ^ 20) = 0xFF) ∧
      ∀ i, 4 ≤ i → i < 32 → base i = 0 := by
  obtain ⟨hsize, hheader, hbytes, hfooter⟩ := createJournalFile_spec ns buf
  have hfileByte : fileByte ns = 4 * ns.nlbs + 16 * ns.nhist := by
    rw [Nat.mul_comm 4, Nat.mul_comm 16]
    rfl
  -- the two areas of the file, in terms of the buffer
  have hzero : ((blockDescLayout.array ns.nlbs).get (createJournalFile ns buf).bytes blockDescAt
      = fun _ => .zero) ↔ ∀ i < 4 * ns.nlbs, buf (i % 2 ^ 20) = 0 := by
    refine (Layout.array_read_const ns.nlbs blockDescLayout_write_zero).trans (forall₂_congr ?_)
    intro i hi
    have hi' : i < 4 * ns.nlbs := hi
    rw [Buf.shift_apply, hbytes i (by omega)]
    rfl
  have hones : ((histDescLayout.array ns.nhist).get (createJournalFile ns buf).bytes (histDescAt ns)
      = fun _ => .ones) ↔ ∀ i < 16 * ns.nhist, buf ((4 * ns.nlbs + i) % 2 ^ 20) = 0xFF := by
    refine (Layout.array_read_const ns.nhist histDescLayout_write_ones).trans (forall₂_congr ?_)
    intro i hi
    have hi' : i < 16 * ns.nhist := hi
    have hat : histDescAt ns + i = blockDescAt + (4 * ns.nlbs + i) := Nat.add_assoc _ _ _
    rw [Buf.shift_apply, hat, hbytes _ (by omega)]
    rfl
  have hread := journalLayout_read ns (createJournalFile ns buf).bytes
  rw [hheader, hfooter] at hread
  have hvalid : validateJournal ns (createJournalFile ns buf).bytes = none :=
    validateJournal_eq_none_iff.mpr (hread ▸ accepted_create .zero _ _)
  rw [← hzero, ← hones, ← createHeader_eq_iff ns base, CreateAgree, createJournalShm_read, hread]
  simp only [hsize, hvalid, true_and, Journal.mk.injEq, and_true]
  refine ⟨?_, ?_⟩
  · rintro ⟨-, hh, hd, hi⟩
    exact ⟨hd, hi, hh⟩
  · rintro ⟨hd, hi, hh⟩
    exact ⟨fun lba => congrFun hd lba, hh, hd, hi⟩

/-- A file that is made of an empty buffer has a history of LBA 0. -/
theorem not_createAgree_zero :
    ¬ CreateAgree (.plain 8 1 eight_lbas_lt (by decide)) (fun _ => 0) fun _ => 0 := by
  rintro ⟨-, -, -, hread⟩
  obtain ⟨-, -, hbytes, -⟩ := createJournalFile_spec (.plain 8 1 eight_lbas_lt (by decide))
    fun _ => 0
  rw [createJournalShm_read, journalLayout_read] at hread
  have hones := (Layout.array_read_const 1 histDescLayout_write_ones).mp
    (congrArg Journal.histDesc hread) 0 (by decide)
  exact absurd ((hbytes 32 (by decide)).symm.trans hones) (by decide)

end ChamberSpo

import ChamberSpo.Verify

/-!
# Issuing and completing a block I/O

What `iover.c` does to the verifier when a bio is generated and when it completes.

* `ioverGenerateData` — locks the range, and fills a write with a fresh timestamp.
* `commitBlockState`, `commitBlockStateUnwritten`, `backupHistState` — the descriptors and the
  history ring.
* `ioverSubmit` — the completion: `unlockLbas`, then `submitTail`.

`none` stands for `exit(0)`, which `iover.c` calls on a written block that has lost its header.
`blockData_generate` says what a generated write holds, `commitBlockState_eq` what a commit does
to every descriptor.
-/

namespace ChamberSpo

open Bitmap

/-! ## Loops over the LBAs of a bio -/

/-- `for (lba_offset...)` with an array update at `slba + lba_offset`. -/
def updateLbas {α : Type*} (slba nlbs : ℕ) (g : ℕ → α → α) (a : ℕ → α) : ℕ → α :=
  (List.range nlbs).foldl (fun a o => Function.update a (slba + o) (g o (a (slba + o)))) a

/-- Every entry of the range is updated once, the others are not. -/
theorem updateLbas_apply {α : Type*} (slba nlbs : ℕ) (g : ℕ → α → α) (a : ℕ → α) (x : ℕ) :
    updateLbas slba nlbs g a x
      = if slba ≤ x ∧ x < slba + nlbs then g (x - slba) (a x) else a x := by
  induction nlbs with
  | zero => rw [if_neg (by omega)]; rfl
  | succ n ih =>
    rw [updateLbas, List.range_succ, List.foldl_append, List.foldl_cons, List.foldl_nil,
      ← updateLbas, Function.update_apply]
    by_cases hx : x = slba + n
    · subst hx
      rw [if_pos rfl, ih, if_neg (by omega), if_pos ⟨Nat.le_add_right _ _, by omega⟩,
        Nat.add_sub_cancel_left]
    · rw [if_neg hx, ih]
      exact if_congr (by omega) rfl rfl

/-! ## Generating the data -/

/-- The data and the metadata buffer of a write. -/
structure WriteBufs where
  data : Buf
  metaBuf : Buf

/-- `pattern = (iover->timestamp + lba) % iover->datagen.npatterns;` -/
def writePattern (iover : Iover) (lba : ℕ) : Byte :=
  BitVec.ofNat 8 ((iover.timestamp + BitVec.ofNat 64 lba).toNat % iover.datagen.npatterns)

/-- The protection information of a block that is not to be checked: one write in ten. -/
def escapePi (iover : Iover) (metadata : Buf) : Buf :=
  let off := if iover.ns.piLoc ≠ 0 then 0 else iover.ns.metaSize - 8
  let metadata := metadata.store (off + 2) (0xFFFF : BitVec 16)
  if iover.ns.piType = 3 then metadata.store (off + 4) (0xFFFFFFFF : BitVec 32) else metadata

/-- The body of the loop of `iover_generate_data` over the blocks of a write, where `pattern` was
computed with another read of `iover->timestamp`. -/
def fillBlock (iover : Iover) (bio : Bio) (escape : ℕ → Bool) (pattern : Byte) (bufs : WriteBufs)
    (lbaOffset : ℕ) : WriteBufs :=
  let lba := bio.slba + lbaOffset
  let at' := getBlockSize iover bio * lbaOffset
  let block := datagenSetData iover.datagen (bufs.data.shift at') (BitVec.ofNat 64 lba)
    iover.timestamp pattern
  let data := bufs.data.copy at' block iover.ns.dataSize
  if 0 < iover.ns.metaSize ∧ ¬ metaStripped iover bio then
    let metaAt := if iover.ns.extendedLba then at' + iover.ns.dataSize
      else iover.ns.metaSize * lbaOffset
    let old := (if iover.ns.extendedLba then data else bufs.metaBuf).shift metaAt
    let metadata := datagenSetMeta iover.datagen old block (BitVec.ofNat 64 lba)
    let metadata := if escape lbaOffset then escapePi iover metadata else metadata
    if iover.ns.extendedLba then
      { bufs with data := data.copy metaAt metadata iover.ns.metaSize }
    else { data := data, metaBuf := bufs.metaBuf.copy metaAt metadata iover.ns.metaSize }
  else { bufs with data := data }

/-- The body of the loop of `iover_generate_data`, with one read of `iover->timestamp` for both. -/
def generateBlock (iover : Iover) (bio : Bio) (escape : ℕ → Bool) (bufs : WriteBufs)
    (lbaOffset : ℕ) : WriteBufs :=
  fillBlock iover bio escape (writePattern iover (bio.slba + lbaOffset)) bufs lbaOffset

/-- The tags of a command, from the protection information of its first LBA. -/
def setTags (iover : Iover) (bio : Bio) : Bio :=
  if iover.ns.piType ≠ 0 ∧ iover.ns.metaSize ≠ 0 then
    let prInfo := (datagenSetPi iover.datagen (fun _ => 0) 0 (BitVec.ofNat 64 bio.slba)).2
    { bio with apptag := htons (prInfo.load 16 2), reftag := htonl (prInfo.load 32 4) }
  else bio

/-- Whether a bio takes the lock: `!lba_overlap && opcode < bio_identify`. -/
def takesLock (params : JobParams) (bio : Bio) : Bool :=
  !params.lbaOverlap && bio.opcode.num < BioOpcode.identify.num

/-- The rest of `iover_generate_data`, once the range is locked. -/
def fillData (iover : Iover) (params : JobParams) (bio : Bio) (escape : ℕ → Bool) : Iover × Bio :=
  let bio := setTags iover bio
  match bio.opcode with
  | .read =>
    if params.compare ∧ params.lbaOverlap then
      (iover, { bio with blockDesc := fun o =>
        if o < bio.nlbs then iover.blockDesc (bio.slba + o) else bio.blockDesc o })
    else (iover, bio)
  | .write =>
    if params.compare then
      let iover := { iover with timestamp := iover.timestamp + 1 }
      let bufs := (List.range bio.nlbs).foldl (generateBlock iover bio escape)
        { data := bio.data, metaBuf := bio.metaBuf }
      (iover, { bio with data := bufs.data, metaBuf := bufs.metaBuf })
    else (iover, bio)
  | _ => (iover, bio)

/-- `iover_generate_data`. `escape` says for which blocks `rand() % 10` was zero. -/
def ioverGenerateData (iover : Iover) (params : JobParams) (bio : Bio) (escape : ℕ → Bool) :
    Int × Iover × Bio :=
  let (res, lbaLock) := if takesLock params bio then tryLockLbas iover.lbaLock bio.slba bio.nlbs
    else (0, iover.lbaLock)
  let iover := { iover with lbaLock := lbaLock }
  if res ≠ 0 then (res, iover, bio) else (0, fillData iover params bio escape)

/-! ## The descriptors and the history -/

/-- The descriptor of a written block, from the header that stands in it. -/
def writtenDesc (state : BlockState) (info : HeaderInfo) (d : BlockDesc) : BlockDesc :=
  { d with
    state := state
    pattern := info.pattern.setWidth 5
    timestamp := info.timestamp.setWidth 16 }

/-- The loop over the blocks of a write that puts their LBAs in `state`. -/
def commitWritten (iover : Iover) (bio : Bio) (state : BlockState) : Option Iover := do
  let blockDesc ← (List.range bio.nlbs).foldlM (fun bd o => do
    let info ← datagenGetHeader iover.datagen (blockData iover bio o)
    return Function.update bd (bio.slba + o) (writtenDesc state info (bd (bio.slba + o))))
    iover.blockDesc
  return { iover with blockDesc := blockDesc }

/-- The loop over the LBAs of a bio that puts them in `state`. -/
def commitState (iover : Iover) (bio : Bio) (state : BlockState) : Iover :=
  { iover with blockDesc :=
      updateLbas bio.slba bio.nlbs (fun _ d => { d with state := state }) iover.blockDesc }

/-- `commit_block_state` -/
def commitBlockState (iover : Iover) (params : JobParams) (bio : Bio) : Option Iover :=
  match bio.opcode with
  | .write => if params.compare then commitWritten iover bio .data else some iover
  | .deallocate => some (if params.compare then commitState iover bio .dealloc else iover)
  | .writeZeroes => some (if params.compare then commitState iover bio .zeroes else iover)
  | .writeUncorrect => some (if params.compare then commitState iover bio .uncor else iover)
  | _ => some iover

/-- `commit_block_state_unwritten` -/
def commitBlockStateUnwritten (iover : Iover) (params : JobParams) (bio : Bio) : Option Iover :=
  if params.compare then commitWritten iover bio .unwritten else some iover

/-- One record of `backup_hist_state`. `BD_CURR` is copied from the descriptor of LBA 0. -/
def histAppend (iover : Iover) (lba : ℕ) (next : BlockDesc → BlockDesc) : Iover :=
  let idx := iover.header.histIdx
  let hd := iover.histDesc idx.toNat
  let hd : HistDesc :=
    { lba := BitVec.ofNat 64 lba, curr := iover.blockDesc 0, next := next hd.next }
  { iover with
    histDesc := Function.update iover.histDesc idx.toNat hd
    header := { iover.header with histIdx := (idx + 1) % iover.header.nhist } }

/-- The loop of `backup_hist_state` for an opcode whose records say `state`. -/
def histAppendLbas (iover : Iover) (bio : Bio) (state : BlockState) : Iover :=
  (List.range bio.nlbs).foldl
    (fun iover o => histAppend iover (bio.slba + o) fun d => { d with state := state }) iover

/-- `backup_hist_state` -/
def backupHistState (iover : Iover) (params : JobParams) (bio : Bio) : Option Iover :=
  if params.history = 0 ∨ params.compare = false then some iover
  else match bio.opcode with
  | .write => (List.range bio.nlbs).foldlM (fun iover o => do
      let info ← datagenGetHeader iover.datagen (blockData iover bio o)
      return histAppend iover (bio.slba + o) (writtenDesc .data info)) iover
  | .deallocate => some (histAppendLbas iover bio .dealloc)
  | .writeZeroes => some (histAppendLbas iover bio .zeroes)
  -- the number of the opcode is stored for the state
  | .writeUncorrect => some (histAppendLbas iover bio (.undef 0))
  | _ => some iover

/-! ## Completion -/

/-- `iover_check_written`: whether the range has an LBA with a known content. -/
def ioverCheckWritten (iover : Iover) (bio : Bio) : Bool :=
  (List.range bio.nlbs).any fun o =>
    match (iover.blockDesc (bio.slba + o)).state with
    | .uncor | .data | .zeroes => true
    | .unwritten | .dealloc | .undef _ => false

/-- What `iover_submit` touches outside of the verifier. -/
structure JobView where
  /-- `job->identify` -/
  identify : Buf
  identifyValid : Bool
  /-- `job->iogen->result` -/
  iogenResult : Int

/-- What `iover_submit` leaves behind. -/
structure SubmitResult where
  res : Int
  iover : Iover
  job : JobView
  /-- `bio->result` -/
  bioResult : Int

/-- `iover_submit` after `unlock_lbas`. -/
def submitTail (iover : Iover) (params : JobParams) (job : JobView) (bio : Bio) :
    Option SubmitResult :=
  if bio.result ≠ bio.expectedResult ∧ checkReadError iover params bio = 0
      ∧ ioverCheckWritten iover bio ∧ params.stopOnError then
    some ⟨-1, iover, job, bio.result⟩
  else if bio.result ≠ 0 ∨ params.compare = false then some ⟨0, iover, job, bio.result⟩
  else match bio.opcode with
  | .identify =>
    if job.identifyValid then
      let res := memcmp job.identify bio.dataBuf 4096
      some ⟨res, iover, job, if res ≠ 0 then res else bio.result⟩
    else some ⟨0, iover, { job with identify := job.identify.copy 0 bio.dataBuf 4096,
                                    identifyValid := true }, bio.result⟩
  | .read =>
    if 0 < iover.nthreads then some ⟨0, iover, job, bio.result⟩
    else
      let (res, iover) := if bio.histIdx ≠ noHistIdx then verifyHistRead iover params bio
        else (verifyBioRead iover params bio, iover)
      if res ≠ 0 ∧ params.stopOnMiscompare = false then
        some ⟨0, iover, { job with iogenResult := 1 }, bio.result⟩
      else some ⟨res, iover, job, bio.result⟩
  | _ => do
    let iover ← commitBlockState iover params bio
    return ⟨0, iover, job, bio.result⟩

/-- The verifier after the `unlock_lbas` of `iover_submit`, which every opcode runs. -/
def submitUnlock (iover : Iover) (params : JobParams) (bio : Bio) : Iover :=
  if params.lbaOverlap then iover
  else { iover with lbaLock := unlockLbas iover.lbaLock bio.slba bio.nlbs }

/-- `iover_submit` -/
def ioverSubmit (iover : Iover) (params : JobParams) (job : JobView) (bio : Bio) :
    Option SubmitResult :=
  submitTail (submitUnlock iover params bio) params job bio

/-! ## What a generated write holds -/

section Generate

variable {iover : Iover} {params : JobParams} {bio : Bio} {escape : ℕ → Bool}

theorem dataSize_le_getBlockSize (iover : Iover) (bio : Bio) :
    iover.ns.dataSize ≤ getBlockSize iover bio := by
  simp only [getBlockSize]
  split
  · exact le_rfl
  · exact iover.ns.dataSize_le_blockSize

/-- A block that is written does not depend on what the buffer held before. -/
theorem datagenSetData_base (dg : Datagen) (b b' : Buf) (lba t : BitVec 64) (p : Byte) {i : ℕ}
    (hi : i < dg.dataSize) : datagenSetData dg b lba t p i = datagenSetData dg b' lba t p i := by
  have h := (hasHeader_and_body_iff dg (datagenSetData dg b lba t p) ⟨lba, t, p⟩ b' 0).mp
    ⟨hasHeader_setData b, fun _ hj => datagenSetData_body b hj⟩ i hi
  rw [h, Datagen.xorRsvd]
  split
  · exact BitVec.xor_zero
  · rfl

/-- The block that is written for an LBA. -/
def writtenBlock (iover : Iover) (lba : ℕ) : Buf :=
  datagenSetData iover.datagen (fun _ => 0) (BitVec.ofNat 64 lba) iover.timestamp
    (writePattern iover lba)

/-- A turn of the loop writes its block and nothing before it. -/
theorem fillBlock_data (iover : Iover) (bio : Bio) (escape : ℕ → Bool) (pattern : Byte)
    (bufs : WriteBufs) (o : ℕ) :
    (∀ i < iover.ns.dataSize, (fillBlock iover bio escape pattern bufs o).data
        (getBlockSize iover bio * o + i) = datagenSetData iover.datagen (fun _ => 0)
          (BitVec.ofNat 64 (bio.slba + o)) iover.timestamp pattern i) ∧
      ∀ j < getBlockSize iover bio * o,
        (fillBlock iover bio escape pattern bufs o).data j = bufs.data j := by
  have hblock : ∀ i < iover.ns.dataSize, bufs.data.copy (getBlockSize iover bio * o)
      (datagenSetData iover.datagen (bufs.data.shift (getBlockSize iover bio * o))
        (BitVec.ofNat 64 (bio.slba + o)) iover.timestamp pattern)
      iover.ns.dataSize (getBlockSize iover bio * o + i) = datagenSetData iover.datagen
        (fun _ => 0) (BitVec.ofNat 64 (bio.slba + o)) iover.timestamp pattern i :=
    fun i hi => (Buf.copy_in hi).trans
      (datagenSetData_base _ _ _ _ _ _ (iover.datagen_dataSize.symm ▸ hi))
  simp only [fillBlock]
  refine ⟨?_, ?_⟩
  · intro i hi
    split
    · by_cases hext : iover.ns.extendedLba
      · simp only [hext, if_true]
        rw [Buf.copy_out (.inl (by omega))]
        exact hblock i hi
      · simp only [hext, Bool.false_eq_true, if_false]
        exact hblock i hi
    · exact hblock i hi
  · intro j hj
    split
    · by_cases hext : iover.ns.extendedLba
      · simp only [hext, if_true]
        rw [Buf.copy_out (.inl (by omega)), Buf.copy_out (.inl hj)]
      · simp only [hext, Bool.false_eq_true, if_false]
        rw [Buf.copy_out (.inl hj)]
    · exact Buf.copy_out (.inl hj)

/-- **The loop writes every block of its range.** -/
theorem foldl_generateBlock (iover : Iover) (bio : Bio) (escape : ℕ → Bool) (bufs : WriteBufs)
    (n : ℕ) :
    ∀ o < n, ∀ i < iover.ns.dataSize,
      ((List.range n).foldl (generateBlock iover bio escape) bufs).data
          (getBlockSize iover bio * o + i) = writtenBlock iover (bio.slba + o) i := by
  induction n with
  | zero => exact fun o ho => absurd ho (Nat.not_lt_zero o)
  | succ n ih =>
    intro o ho i hi
    rw [List.range_succ, List.foldl_append, List.foldl_cons, List.foldl_nil, generateBlock]
    obtain ⟨hnew, hold⟩ := fillBlock_data iover bio escape (writePattern iover (bio.slba + n))
      ((List.range n).foldl (generateBlock iover bio escape) bufs) n
    rcases Nat.lt_or_ge o n with hon | hon
    · -- an earlier block ends before this one starts
      have hsize := dataSize_le_getBlockSize iover bio
      have hmul := Nat.mul_le_mul_left (getBlockSize iover bio) (Nat.succ_le_of_lt hon)
      rw [Nat.mul_succ] at hmul
      rw [hold _ (by omega)]
      exact ih o hon i hi
    · obtain rfl : o = n := by omega
      exact hnew i hi

/-- The verifier after a bio has been filled: a write that is to be compared has its own
timestamp. -/
theorem fillData_fst : (fillData iover params bio escape).1
    = if bio.opcode = .write ∧ params.compare then { iover with timestamp := iover.timestamp + 1 }
      else iover := by
  have hop : (setTags iover bio).opcode = bio.opcode := by unfold setTags; split <;> rfl
  simp only [fillData]
  simp only [hop]
  cases bio.opcode with
  | write => cases params.compare <;> rfl
  | read =>
    simp only [reduceCtorEq, false_and, if_false]
    split <;> rfl
  | _ => rfl

/-- Filling a bio leaves the command as it is. -/
structure Bio.SameCommand (bio bio' : Bio) : Prop where
  opcode : bio'.opcode = bio.opcode
  slba : bio'.slba = bio.slba
  nlbs : bio'.nlbs = bio.nlbs
  pract : bio'.pract = bio.pract
  result : bio'.result = bio.result
  expectedResult : bio'.expectedResult = bio.expectedResult
  histIdx : bio'.histIdx = bio.histIdx

theorem setTags_sameCommand (iover : Iover) (bio : Bio) : bio.SameCommand (setTags iover bio) := by
  simp only [setTags]
  split <;> exact ⟨rfl, rfl, rfl, rfl, rfl, rfl, rfl⟩

theorem fillData_sameCommand : bio.SameCommand (fillData iover params bio escape).2 := by
  obtain ⟨h₁, h₂, h₃, h₄, h₅, h₆, h₇⟩ := setTags_sameCommand iover bio
  rw [fillData]
  simp only
  split
  · split <;> exact ⟨h₁, h₂, h₃, h₄, h₅, h₆, h₇⟩
  · split <;> exact ⟨h₁, h₂, h₃, h₄, h₅, h₆, h₇⟩
  · exact ⟨h₁, h₂, h₃, h₄, h₅, h₆, h₇⟩

/-- **What a generated write holds**: for each of its LBAs the block with the fresh timestamp. -/
theorem blockData_fillData (hop : bio.opcode = .write) (hc : params.compare = true) {o i : ℕ}
    (ho : o < bio.nlbs) (hi : i < iover.ns.dataSize) :
    blockData iover (fillData iover params bio escape).2 o i
      = writtenBlock { iover with timestamp := iover.timestamp + 1 } (bio.slba + o) i := by
  have hsame := setTags_sameCommand iover bio
  have hop' : (setTags iover bio).opcode = .write := hsame.opcode.trans hop
  have hfill := foldl_generateBlock { iover with timestamp := iover.timestamp + 1 }
    (setTags iover bio) escape ⟨(setTags iover bio).data, (setTags iover bio).metaBuf⟩ bio.nlbs
    o ho i hi
  rw [hsame.slba] at hfill
  rw [← hfill, ← hsame.nlbs]
  simp only [fillData]
  simp only [hop', hc, if_true]
  rfl

/-- The pattern of a write is one of the generator's. -/
theorem writePattern_lt (iover : Iover) (lba : ℕ) :
    (writePattern iover lba).toNat < iover.datagen.npatterns := by
  have hpos := iover.datagen.npatterns_pos
  have hle := iover.datagen.npatterns_le
  have hlt := Nat.mod_lt (iover.timestamp + BitVec.ofNat 64 lba).toNat hpos
  rw [writePattern, BitVec.toNat_ofNat, Nat.mod_eq_of_lt (by omega)]
  exact hlt

/-- Any buffer that agrees with a written block is decoded to its LBA and its timestamp. -/
theorem datagenGetHeader_of_writtenBlock {lba : ℕ} {data : Buf}
    (h : ∀ i < iover.ns.dataSize, data i = writtenBlock iover lba i) :
    datagenGetHeader iover.datagen data
      = some ⟨BitVec.ofNat 64 lba, iover.timestamp, writePattern iover lba⟩ := by
  rw [datagenGetHeader_congr fun i hi => h i (iover.datagen_dataSize ▸ hi)]
  exact datagenGetHeader_setData _ (writePattern_lt iover lba)

/-- **`iover_generate_data` that fails** had a range that was not free, and changes nothing. -/
theorem ioverGenerateData_failed (hn : bio.nlbs < 2 ^ 32) {out : Int × Iover × Bio}
    (h : ioverGenerateData iover params bio escape = out) (hres : out.1 ≠ 0) :
    out.2 = (iover, bio) := by
  subst h
  simp only [ioverGenerateData] at hres ⊢
  cases htake : takesLock params bio
  · simp [htake] at hres
  · by_cases hfree : Disjoint (lockBits bio.slba bio.nlbs) (bits iover.lbaLock)
    · simp [htake, (tryLockLbas_of_free hn hfree).1] at hres
    · simp [tryLockLbas_of_conflict hn hfree]

/-- **`iover_generate_data` that succeeds** took the lock, if the bio takes one, and filled the
bio. -/
theorem ioverGenerateData_ok (hn : bio.nlbs < 2 ^ 32) {iover' : Iover} {bio' : Bio}
    (h : ioverGenerateData iover params bio escape = (0, iover', bio')) :
    ∃ lbaLock', (iover', bio') = fillData { iover with lbaLock := lbaLock' } params bio escape
      ∧ if takesLock params bio then
          Disjoint (lockBits bio.slba bio.nlbs) (bits iover.lbaLock)
            ∧ bits lbaLock' = bits iover.lbaLock ∪ lockBits bio.slba bio.nlbs
        else lbaLock' = iover.lbaLock := by
  simp only [ioverGenerateData] at h
  cases htake : takesLock params bio
  · simp only [htake, Bool.false_eq_true, if_false, ne_eq, not_true_eq_false, Prod.mk.injEq,
      true_and] at h
    exact ⟨iover.lbaLock, h.symm, by simp⟩
  · by_cases hfree : Disjoint (lockBits bio.slba bio.nlbs) (bits iover.lbaLock)
    · obtain ⟨hres, hbits⟩ := tryLockLbas_of_free hn hfree
      simp only [htake, if_true, hres, ne_eq, not_true_eq_false, if_false, Prod.mk.injEq,
        true_and] at h
      exact ⟨_, h.symm, by simpa using ⟨hfree, hbits⟩⟩
    · simp [htake, tryLockLbas_of_conflict hn hfree] at h

/-- The command that comes out is the one that went in. -/
theorem ioverGenerateData_sameCommand (hn : bio.nlbs < 2 ^ 32) {iover' : Iover} {bio' : Bio}
    (h : ioverGenerateData iover params bio escape = (0, iover', bio')) : bio.SameCommand bio' := by
  obtain ⟨lbaLock', hfill, -⟩ := ioverGenerateData_ok hn h
  rw [show bio' = (iover', bio').2 from rfl, hfill]
  exact fillData_sameCommand

end Generate

/-! ## What a commit does -/

/-- Two verifiers of one namespace, with one generator. -/
structure Iover.SameFormat (a b : Iover) : Prop where
  ns : b.ns = a.ns
  datagen : b.datagen = a.datagen

theorem Iover.SameFormat.refl (a : Iover) : a.SameFormat a := ⟨rfl, rfl⟩

theorem Iover.SameFormat.trans {a b c : Iover} (h : a.SameFormat b) (h' : b.SameFormat c) :
    a.SameFormat c := ⟨h'.ns.trans h.ns, h'.datagen.trans h.datagen⟩

section Commit

variable {iover iover' : Iover} {params : JobParams} {bio : Bio}

/-- The descriptor of LBA `x` after a command that succeeded on it. -/
def descAfter (iover : Iover) (bio : Bio) (x : ℕ) (d : BlockDesc) : BlockDesc :=
  match bio.opcode with
  | .write =>
    match datagenGetHeader iover.datagen (blockData iover bio (x - bio.slba)) with
    | some info => writtenDesc .data info d
    | none => d
  | .deallocate => { d with state := .dealloc }
  | .writeZeroes => { d with state := .zeroes }
  | .writeUncorrect => { d with state := .uncor }
  | _ => d

/-- Where the blocks of a bio stand depends on the format of a block alone. -/
theorem blockData_congr (h : iover.SameFormat iover') : blockData iover' = blockData iover := by
  funext bio o
  rw [blockData, blockData, getBlockSize, getBlockSize, h.ns]

/-- It depends on the format of a block, not on the state of the verifier. -/
theorem descAfter_congr (h : iover.SameFormat iover') : descAfter iover' = descAfter iover := by
  funext bio x d
  rw [descAfter, descAfter, h.datagen, blockData_congr h]

/-- The loop over written blocks, when it gets through: every block decoded, and its LBA has the
descriptor of its header. -/
theorem foldlM_writtenDesc (iover : Iover) (bio : Bio) (state : BlockState) (n : ℕ)
    (a b : ℕ → BlockDesc)
    (h : (List.range n).foldlM (fun bd o => do
      let info ← datagenGetHeader iover.datagen (blockData iover bio o)
      return Function.update bd (bio.slba + o) (writtenDesc state info (bd (bio.slba + o)))) a
        = some b) :
    b = updateLbas bio.slba n (fun o d =>
      match datagenGetHeader iover.datagen (blockData iover bio o) with
      | some info => writtenDesc state info d
      | none => d) a := by
  induction n generalizing b with
  | zero =>
    rw [List.range_zero, List.foldlM_nil] at h
    exact (Option.some.inj h).symm
  | succ n ih =>
    rw [List.range_succ, List.foldlM_append, Option.bind_eq_bind, Option.bind_eq_some_iff] at h
    obtain ⟨c, hc, hlast⟩ := h
    obtain rfl := ih c hc
    simp only [List.foldlM_cons, List.foldlM_nil, Option.bind_eq_bind, Option.bind_eq_some_iff,
      Option.pure_def, Option.some.injEq] at hlast
    obtain ⟨d, ⟨info, hinfo, rfl⟩, rfl⟩ := hlast
    rw [updateLbas, updateLbas, List.range_succ, List.foldl_append, List.foldl_cons,
      List.foldl_nil, hinfo]

/-- The loop gets through when every block decodes. -/
theorem foldlM_writtenDesc_isSome (iover : Iover) (bio : Bio) (state : BlockState) (n : ℕ)
    (a : ℕ → BlockDesc)
    (h : ∀ o < n, (datagenGetHeader iover.datagen (blockData iover bio o)).isSome) :
    ((List.range n).foldlM (fun bd o => do
      let info ← datagenGetHeader iover.datagen (blockData iover bio o)
      return Function.update bd (bio.slba + o) (writtenDesc state info (bd (bio.slba + o)))) a
        ).isSome := by
  induction n with
  | zero => rfl
  | succ n ih =>
    obtain ⟨b, hb⟩ := Option.isSome_iff_exists.mp (ih fun o ho => h o (by omega))
    obtain ⟨info, hinfo⟩ := Option.isSome_iff_exists.mp (h n (by omega))
    rw [List.range_succ, List.foldlM_append, hb]
    simp [hinfo]

/-- The descriptors after a commit. -/
def committedDesc (iover : Iover) (params : JobParams) (bio : Bio) (x : ℕ) : BlockDesc :=
  if params.compare = true ∧ x ∈ bio.range then
    descAfter iover bio x (iover.blockDesc x)
  else iover.blockDesc x

/-- **What a commit does**: the LBAs of the bio get their new descriptor, and nothing else
changes. -/
theorem commitBlockState_eq (h : commitBlockState iover params bio = some iover') :
    iover' = { iover with blockDesc := committedDesc iover params bio } := by
  have hoff : params.compare = false → committedDesc iover params bio = iover.blockDesc := by
    intro hc
    funext x
    rw [committedDesc, hc, if_neg (by simp)]
  have hstate : ∀ state, (∀ x d, descAfter iover bio x d = { d with state := state }) →
      some (if params.compare = true then commitState iover bio state else iover) = some iover' →
      iover' = { iover with blockDesc := committedDesc iover params bio } := by
    intro state hafter h
    rw [← Option.some.inj h]
    cases hc : params.compare
    · rw [hoff hc]
      rfl
    · rw [if_pos rfl, commitState]
      congr 1
      funext x
      rw [updateLbas_apply, committedDesc, hafter, hc]
      exact if_congr (by simp [Bio.mem_range]) rfl rfl
  simp only [commitBlockState] at h
  cases hop : bio.opcode with
  | write =>
    simp only [hop] at h
    cases hc : params.compare
    · simp only [hc, Bool.false_eq_true, if_false, Option.some.injEq] at h
      rw [hoff hc, ← h]
    · simp only [hc, if_true, commitWritten, Option.bind_eq_bind, Option.bind_eq_some_iff,
        Option.pure_def, Option.some.injEq] at h
      obtain ⟨bd, hbd, rfl⟩ := h
      obtain rfl := foldlM_writtenDesc iover bio .data _ _ _ hbd
      congr 1
      funext x
      rw [updateLbas_apply, committedDesc, descAfter, hop, hc]
      exact if_congr (by simp [Bio.mem_range]) rfl rfl
  | deallocate => simp only [hop] at h; exact hstate .dealloc (fun x d => by rw [descAfter, hop]) h
  | writeZeroes => simp only [hop] at h; exact hstate .zeroes (fun x d => by rw [descAfter, hop]) h
  | writeUncorrect => simp only [hop] at h; exact hstate .uncor (fun x d => by rw [descAfter, hop]) h
  | _ =>
    simp only [hop, Option.some.injEq] at h
    have hnone : committedDesc iover params bio = iover.blockDesc := by
      funext x
      rw [committedDesc, descAfter, hop]
      exact ite_self _
    rw [hnone, ← h]

/-- A commit gets through when the written blocks have kept their headers. -/
theorem commitBlockState_isSome
    (h : bio.opcode = .write → params.compare = true →
      ∀ o < bio.nlbs, (datagenGetHeader iover.datagen (blockData iover bio o)).isSome) :
    (commitBlockState iover params bio).isSome := by
  simp only [commitBlockState]
  split
  · rename_i hop
    split
    · rename_i hc
      obtain ⟨bd, hbd⟩ := Option.isSome_iff_exists.mp
        (foldlM_writtenDesc_isSome iover bio .data bio.nlbs iover.blockDesc (h hop hc))
      rw [commitWritten, hbd]
      rfl
    · rfl
  all_goals rfl

/-- `commit_block_state_unwritten` leaves an LBA alone or puts it in state unwritten. -/
theorem commitBlockStateUnwritten_spec (h : commitBlockStateUnwritten iover params bio = some iover') :
    ∃ bd, iover' = { iover with blockDesc := bd } ∧
      ∀ x, bd x = iover.blockDesc x ∨ (bd x).state = .unwritten := by
  simp only [commitBlockStateUnwritten] at h
  split at h
  · simp only [commitWritten, Option.bind_eq_bind, Option.bind_eq_some_iff, Option.pure_def,
      Option.some.injEq] at h
    obtain ⟨bd, hbd, rfl⟩ := h
    refine ⟨bd, rfl, ?_⟩
    intro x
    rw [foldlM_writtenDesc iover bio .unwritten _ _ _ hbd, updateLbas_apply]
    split
    · split
      · exact .inr rfl
      · exact .inl rfl
    · exact .inl rfl
  · exact ⟨iover.blockDesc, (Option.some.inj h).symm, fun x => .inl rfl⟩

end Commit

/-- What `backup_hist_state` may change: the entries of the ring and the journal header. -/
def Iover.SameButHist (a b : Iover) : Prop :=
  ∃ histDesc header, b = { a with histDesc := histDesc, header := header }

theorem Iover.SameButHist.refl (a : Iover) : a.SameButHist a := ⟨a.histDesc, a.header, rfl⟩

theorem Iover.SameButHist.trans {a b c : Iover} (h : a.SameButHist b) (h' : b.SameButHist c) :
    a.SameButHist c := by
  obtain ⟨_, _, rfl⟩ := h
  obtain ⟨hd, hdr, rfl⟩ := h'
  exact ⟨hd, hdr, rfl⟩

theorem histAppend_sameButHist (iover : Iover) (lba : ℕ) (next : BlockDesc → BlockDesc) :
    iover.SameButHist (histAppend iover lba next) := ⟨_, _, rfl⟩

theorem histAppendLbas_sameButHist (iover : Iover) (bio : Bio) (state : BlockState) :
    iover.SameButHist (histAppendLbas iover bio state) := by
  have hloop : ∀ (l : List ℕ) (a : Iover), a.SameButHist (l.foldl (fun iover o =>
      histAppend iover (bio.slba + o) fun d => { d with state := state }) a) := by
    intro l
    induction l with
    | nil => exact fun a => .refl a
    | cons o l ih => exact fun a => (histAppend_sameButHist a _ _).trans (ih _)
  exact hloop _ iover

/-- **`backup_hist_state`** keeps everything but the history. -/
theorem backupHistState_sameButHist {iover iover' : Iover} {params : JobParams} {bio : Bio}
    (h : backupHistState iover params bio = some iover') : iover.SameButHist iover' := by
  have hloop : ∀ (l : List ℕ) (a : Iover), l.foldlM (fun (a : Iover) o => do
      let info ← datagenGetHeader a.datagen (blockData a bio o)
      return histAppend a (bio.slba + o) (writtenDesc .data info)) a = some iover' →
      a.SameButHist iover' := by
    intro l
    induction l with
    | nil =>
      intro a ha
      obtain rfl := Option.some.inj ha
      exact .refl a
    | cons o l ih =>
      intro a ha
      simp only [List.foldlM_cons, Option.bind_eq_bind, Option.bind_eq_some_iff, Option.pure_def,
        Option.some.injEq] at ha
      obtain ⟨b, ⟨info, -, rfl⟩, hb⟩ := ha
      exact (histAppend_sameButHist a _ _).trans (ih _ hb)
  simp only [backupHistState] at h
  split at h
  · obtain rfl := Option.some.inj h
    exact .refl _
  · split at h
    · exact hloop _ iover h
    all_goals
      obtain rfl := Option.some.inj h
      first | exact .refl _ | exact histAppendLbas_sameButHist ..

/-! ## What a completion does -/

section SubmitTail

variable {iover : Iover} {params : JobParams} {job : JobView} {bio : Bio} {r : SubmitResult}

/-- Two states of the verifier that differ in descriptors only: those of the LBAs, and those in
the history. -/
structure Iover.SameCore (a b : Iover) : Prop where
  ns : b.ns = a.ns
  nthreads : b.nthreads = a.nthreads
  header : b.header = a.header
  lbaLock : b.lbaLock = a.lbaLock
  timestamp : b.timestamp = a.timestamp
  datagen : b.datagen = a.datagen
  histLba : ∀ i, (b.histDesc i).lba = (a.histDesc i).lba

theorem Iover.SameCore.refl (a : Iover) : a.SameCore a :=
  ⟨rfl, rfl, rfl, rfl, rfl, rfl, fun _ => rfl⟩

theorem Iover.SameCore.trans {a b c : Iover} (h : a.SameCore b) (h' : b.SameCore c) :
    a.SameCore c :=
  ⟨h'.ns.trans h.ns, h'.nthreads.trans h.nthreads, h'.header.trans h.header,
    h'.lbaLock.trans h.lbaLock, h'.timestamp.trans h.timestamp, h'.datagen.trans h.datagen,
    fun i => (h'.histLba i).trans (h.histLba i)⟩

theorem forwardFix_sameCore (lba : ℕ) (res : Int) (bd : BlockDesc) :
    iover.SameCore (forwardFix iover lba res bd) := by
  simp only [forwardFix]
  split <;> exact ⟨rfl, rfl, rfl, rfl, rfl, rfl, fun _ => rfl⟩

theorem setHistNext_sameCore (iover : Iover) (idx : ℕ) (next : BlockDesc) :
    iover.SameCore { iover with
      histDesc := Function.update iover.histDesc idx { iover.histDesc idx with next := next } } := by
  refine ⟨rfl, rfl, rfl, rfl, rfl, rfl, ?_⟩
  intro i
  simp only [Function.update_apply]
  split
  · rename_i hi
    rw [hi]
  · rfl

theorem verifyHistReadStep_sameCore (h : HistRead) (o : ℕ) :
    h.iover.SameCore (verifyHistReadStep params bio h o).iover := by
  simp only [verifyHistReadStep]
  exact (setHistNext_sameCore _ _ _).trans (forwardFix_sameCore _ _ _)

/-- A history read fixes descriptors, and its own history entry. -/
theorem verifyHistRead_sameCore : iover.SameCore (verifyHistRead iover params bio).2 := by
  have hloop : ∀ (l : List ℕ) (h : HistRead),
      h.iover.SameCore (l.foldl (verifyHistReadStep params bio) h).iover := by
    intro l
    induction l with
    | nil => exact fun h => .refl _
    | cons o l ih => exact fun h => (verifyHistReadStep_sameCore h o).trans (ih _)
  simp only [verifyHistRead]
  split
  · exact .refl _
  · exact hloop (List.range bio.nlbs) ⟨0, 0, iover⟩

/-- Commands that leave the descriptors alone. -/
theorem committedDesc_of_read (h : bio.opcode = .read ∨ bio.opcode = .identify ∨
    bio.opcode = .flush ∨ bio.opcode = .fwDownload) :
    committedDesc iover params bio = iover.blockDesc := by
  funext x
  rw [committedDesc, descAfter]
  rcases h with h | h | h | h <;> rw [h] <;> exact ite_self _

/-- **A completion changes descriptors and history entries only.** -/
theorem submitTail_sameCore (h : submitTail iover params job bio = some r) :
    iover.SameCore r.iover := by
  simp only [submitTail] at h
  split at h
  · obtain rfl := Option.some.inj h
    exact .refl _
  · split at h
    · obtain rfl := Option.some.inj h
      exact .refl _
    · cases hop : bio.opcode with
      | identify =>
        simp only [hop] at h
        split at h <;> obtain rfl := Option.some.inj h <;> exact .refl _
      | read =>
        simp only [hop] at h
        split at h
        · obtain rfl := Option.some.inj h
          exact .refl _
        · split at h
          · split at h <;> obtain rfl := Option.some.inj h <;> exact verifyHistRead_sameCore
          · split at h <;> obtain rfl := Option.some.inj h <;> exact .refl _
      | _ =>
        simp only [hop, Option.bind_eq_bind, Option.bind_eq_some_iff, Option.pure_def,
          Option.some.injEq] at h
        obtain ⟨iover', hcommit, rfl⟩ := h
        rw [commitBlockState_eq hcommit]
        exact ⟨rfl, rfl, rfl, rfl, rfl, rfl, fun _ => rfl⟩

/-- A history read fixes the descriptors of its own LBAs. -/
theorem verifyHistRead_frame {x : ℕ} (hx : x ∉ bio.range) :
    (verifyHistRead iover params bio).2.blockDesc x = iover.blockDesc x := by
  have hstep : ∀ (h : HistRead) (o : ℕ), o < bio.nlbs →
      (verifyHistReadStep params bio h o).iover.blockDesc x = h.iover.blockDesc x := by
    intro h o ho
    have hne : x ≠ bio.slba + o := by
      rintro rfl
      exact hx ⟨Nat.le_add_right _ _, by omega⟩
    simp only [verifyHistReadStep, forwardFix]
    split
    · exact Function.update_of_ne hne ..
    · rfl
  have hloop : ∀ (l : List ℕ), (∀ o ∈ l, o < bio.nlbs) → ∀ h : HistRead,
      (l.foldl (verifyHistReadStep params bio) h).iover.blockDesc x = h.iover.blockDesc x := by
    intro l
    induction l with
    | nil => exact fun _ h => rfl
    | cons o l ih =>
      intro hl h
      rw [List.foldl_cons, ih (fun o' ho' => hl o' (List.mem_cons_of_mem _ ho'))]
      exact hstep h o (hl o List.mem_cons_self)
  simp only [verifyHistRead]
  split
  · rfl
  · exact hloop _ (fun _ => List.mem_range.mp) _

/-- **A completion changes the descriptors of its own LBAs only**, and an identify none. -/
theorem submitTail_frame (h : submitTail iover params job bio = some r) {x : ℕ}
    (hx : bio.opcode = .identify ∨ x ∉ bio.range) : r.iover.blockDesc x = iover.blockDesc x := by
  simp only [submitTail] at h
  split at h
  · obtain rfl := Option.some.inj h
    rfl
  · split at h
    · obtain rfl := Option.some.inj h
      rfl
    · cases hop : bio.opcode with
      | identify =>
        simp only [hop] at h
        split at h <;> obtain rfl := Option.some.inj h <;> rfl
      | read =>
        have hx := hx.resolve_left (by rw [hop]; decide)
        simp only [hop] at h
        split at h
        · obtain rfl := Option.some.inj h
          rfl
        · split at h
          · split at h <;> obtain rfl := Option.some.inj h <;> exact verifyHistRead_frame hx
          · split at h <;> obtain rfl := Option.some.inj h <;> rfl
      | _ =>
        have hx := hx.resolve_left (by rw [hop]; decide)
        simp only [hop, Option.bind_eq_bind, Option.bind_eq_some_iff, Option.pure_def,
          Option.some.injEq] at h
        obtain ⟨iover', hcommit, rfl⟩ := h
        rw [commitBlockState_eq hcommit]
        exact if_neg fun hmem => hx hmem.2

/-- What a completion changes outside of the verifier: an identify is saved, or a read that was
wrong is noted. -/
theorem submitTail_job (h : submitTail iover params job bio = some r) :
    r.job = job
      ∨ (bio.opcode = .identify ∧ r.job = { job with
          identify := job.identify.copy 0 bio.dataBuf 4096
          identifyValid := true })
      ∨ (bio.opcode = .read ∧ r.job = { job with iogenResult := 1 }) := by
  simp only [submitTail] at h
  split at h
  · obtain rfl := Option.some.inj h
    exact .inl rfl
  · split at h
    · obtain rfl := Option.some.inj h
      exact .inl rfl
    · cases hop : bio.opcode with
      | identify =>
        simp only [hop] at h
        split at h <;> obtain rfl := Option.some.inj h
        · exact .inl rfl
        · exact .inr (.inl ⟨rfl, rfl⟩)
      | read =>
        simp only [hop] at h
        split at h
        · obtain rfl := Option.some.inj h
          exact .inl rfl
        · split at h
          · split at h <;> obtain rfl := Option.some.inj h
            · exact .inr (.inr ⟨rfl, rfl⟩)
            · exact .inl rfl
          · split at h <;> obtain rfl := Option.some.inj h
            · exact .inr (.inr ⟨rfl, rfl⟩)
            · exact .inl rfl
      | _ =>
        simp only [hop, Option.bind_eq_bind, Option.bind_eq_some_iff, Option.pure_def,
          Option.some.injEq] at h
        obtain ⟨iover', -, rfl⟩ := h
        exact .inl rfl

/-- A completion sets the result of the generator at most once it has failed. -/
theorem submitTail_iogenResult (h : submitTail iover params job bio = some r) :
    r.job.iogenResult = job.iogenResult ∨ bio.opcode = .read ∧ r.job.iogenResult = 1 := by
  rcases submitTail_job h with hjob | ⟨-, hjob⟩ | ⟨hread, hjob⟩
  · rw [hjob]
    exact .inl rfl
  · rw [hjob]
    exact .inl rfl
  · rw [hjob]
    exact .inr ⟨hread, rfl⟩

/-- **A completion that lets the job go on** commits exactly when the command succeeded. -/
theorem submitTail_blockDesc (h : submitTail iover params job bio = some r) (hres : r.res = 0)
    (hidx : bio.opcode = .read → bio.histIdx = noHistIdx) :
    r.iover.blockDesc
      = if bio.result = 0 then committedDesc iover params bio else iover.blockDesc := by
  simp only [submitTail] at h
  split at h
  · obtain rfl := Option.some.inj h
    exact absurd hres (by simp)
  · split at h
    · rename_i hskip
      obtain rfl := Option.some.inj h
      split
      · rename_i hzero
        have hoff : params.compare = false := hskip.resolve_left (not_not.mpr hzero)
        funext x
        rw [committedDesc, hoff, if_neg (by simp)]
      · rfl
    · rename_i hgo
      obtain ⟨hzero, -⟩ := not_or.mp hgo
      rw [if_pos (not_not.mp hzero)]
      cases hop : bio.opcode with
      | identify =>
        rw [committedDesc_of_read (by simp [hop])]
        simp only [hop] at h
        split at h <;> obtain rfl := Option.some.inj h <;> rfl
      | read =>
        rw [committedDesc_of_read (by simp [hop])]
        simp only [hop] at h
        split at h
        · obtain rfl := Option.some.inj h
          rfl
        · simp only [hidx hop, ne_eq, not_true_eq_false, if_false] at h
          split at h <;> obtain rfl := Option.some.inj h <;> rfl
      | _ =>
        simp only [hop, Option.bind_eq_bind, Option.bind_eq_some_iff, Option.pure_def,
          Option.some.injEq] at h
        obtain ⟨iover', hcommit, rfl⟩ := h
        rw [commitBlockState_eq hcommit]

/-- The result of a successful read of a job that is not replaying history. -/
theorem submitTail_read (hop : bio.opcode = .read) (hidx : bio.histIdx = noHistIdx)
    (hzero : bio.result = 0) (hexp : bio.expectedResult = 0)
    (hv : verifyBioRead iover params bio = 0) :
    submitTail iover params job bio = some ⟨0, iover, job, 0⟩ := by
  simp only [submitTail]
  simp only [hop, hidx, hzero, hexp, hv, ne_eq, not_true_eq_false, false_and, if_false, false_or,
    ite_self]

/-- The completion of a write whose blocks still have their headers. -/
theorem submitTail_write (iover : Iover) (params : JobParams) (job : JobView) (bio : Bio)
    (hop : bio.opcode = .write) (hzero : bio.result = 0) (hexp : bio.expectedResult = 0)
    (hc : params.compare = true)
    (hdec : ∀ o < bio.nlbs, (datagenGetHeader iover.datagen (blockData iover bio o)).isSome) :
    ∃ iover', submitTail iover params job bio = some ⟨0, iover', job, 0⟩ := by
  have hcommit : (commitBlockState iover params bio).isSome :=
    commitBlockState_isSome fun _ _ => hdec
  obtain ⟨iover', hcommit⟩ := Option.isSome_iff_exists.mp hcommit
  refine ⟨iover', ?_⟩
  simp only [submitTail]
  simp only [hop, hzero, hexp, hc, hcommit, ne_eq, not_true_eq_false, false_and, if_false, false_or,
    Bool.true_eq_false, Option.bind_eq_bind, Option.bind_some, Option.pure_def]

end SubmitTail

end ChamberSpo

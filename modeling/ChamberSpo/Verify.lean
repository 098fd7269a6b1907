import ChamberSpo.Types

/-!
# Checking what was read

The checks of `iover.c`, from the header of one block to a whole read.

* `verifyBlockHeader`, `verifyBlockBody`, `verifyBlockData` — an LBA in state data.
* `verifyWriteZeroesBlock`, `verifyDeallocBlock`, `verifyUnwrittenBlock` — the other states.
* `verifyBioRead`, `verifyHistRead` — the loops over the LBAs of a read.

`verifyBlockData_accepts_iff` says exactly which blocks are accepted for an LBA in state data,
`verifyBioRead_eq_zero_iff` which reads are accepted as a whole.
-/

namespace ChamberSpo

/-! ## Blocks of data -/

/-- `get_block_size` -/
def getBlockSize (iover : Iover) (bio : Bio) : ℕ :=
  if bio.pract ∧ iover.ns.metaSize = 8 then iover.ns.dataSize else iover.ns.blockSize

/-- `bio->data + get_block_size(iover, bio) * lba_offset` -/
def blockData (iover : Iover) (bio : Bio) (lbaOffset : ℕ) : Buf :=
  bio.data.shift (getBlockSize iover bio * lbaOffset)

/-- Whether the metadata is stripped by the controller, so that none is transferred. -/
def metaStripped (iover : Iover) (bio : Bio) : Bool := bio.pract && iover.ns.metaSize == 8

/-- Where the metadata of an LBA stands in the buffers. -/
def blockMeta (iover : Iover) (bio : Bio) (lbaOffset : ℕ) : Buf :=
  if iover.ns.extendedLba then (blockData iover bio lbaOffset).shift iover.ns.dataSize
  else bio.metaBuf.shift (iover.ns.metaSize * lbaOffset)

/-- The timestamps that are accepted besides the one of the descriptor when LBAs may overlap:
those between the issue of the read and now. -/
def overlapAccepts (issue cur : BlockDesc) (readTimestamp : BitVec 16) : Bool :=
  if issue.timestamp ≤ cur.timestamp then
    issue.timestamp ≤ readTimestamp && readTimestamp ≤ cur.timestamp
  else
    -- timestamp wrapped around; the sum is an `int`
    !(readTimestamp < issue.timestamp && cur.timestamp.toNat + (2 ^ 16 - 1) < readTimestamp.toNat)

/-- `verify_block_header`: the pattern it stores, `none` when it returns `-1`. -/
def verifyBlockHeader (iover : Iover) (params : JobParams) (bio : Bio) (lbaOffset : ℕ)
    (cur : BlockDesc) : Option Byte :=
  match datagenGetHeader iover.datagen (blockData iover bio lbaOffset) with
  | none => none
  | some info =>
    if info.lba ≠ BitVec.ofNat 64 (bio.slba + lbaOffset) then none
    else if info.timestamp.setWidth 16 ≠ cur.timestamp then
      if params.lbaOverlap ∧ overlapAccepts (bio.blockDesc lbaOffset) cur
          (info.timestamp.setWidth 16) then
        some info.pattern
      else none
    else some info.pattern

/-- `verify_block_body` -/
def verifyBlockBody (iover : Iover) (bio : Bio) (lbaOffset : ℕ) (pattern : Byte) : Int :=
  if memcmp ((blockData iover bio lbaOffset).shift blockHeaderSize)
      (iover.datagen.patterns pattern.toNat).body iover.datagen.bodySize ≠ 0 then -1
  else 0

/-- `verify_block_data` -/
def verifyBlockData (iover : Iover) (params : JobParams) (bio : Bio) (lbaOffset : ℕ)
    (cur : BlockDesc) : Int :=
  match verifyBlockHeader iover params bio lbaOffset cur with
  | none => -1
  | some pattern =>
    if params.compareHeaderOnly then 0 else verifyBlockBody iover bio lbaOffset pattern

/-- `verify_block_meta` -/
def verifyBlockMeta (iover : Iover) (bio : Bio) (lbaOffset : ℕ) : Int :=
  datagenCompareMeta iover.datagen (blockMeta iover bio lbaOffset) (blockData iover bio lbaOffset)
    (BitVec.ofNat 64 (bio.slba + lbaOffset))

/-! ## Constant blocks -/

/-- `is_all`. The pointer is not advanced: every turn looks at the first byte. -/
def isAll (data : Buf) (val : Byte) : ℕ → Bool
  | 0 => true
  | size + 1 => if data 0 ≠ val then false else isAll data val size

/-- `is_all_ones` -/
def isAllOnes (data : Buf) (size : ℕ) : Bool := isAll data 0xFF size

/-- `is_all_zeroes` -/
def isAllZeroes (data : Buf) (size : ℕ) : Bool := isAll data 0x00 size

/-- What `is_all` finds out. -/
theorem isAll_iff {data : Buf} {val : Byte} {size : ℕ} :
    isAll data val size = true ↔ size = 0 ∨ data 0 = val := by
  induction size with
  | zero => simp [isAll]
  | succ n ih =>
    rw [isAll]
    split
    · rename_i h
      simp [h]
    · rename_i h
      rw [not_not] at h
      rw [ih]
      simp [h]

/-- `identify_dealloc_block` -/
def identifyDeallocBlock (iover : Iover) (params : JobParams) (bio : Bio) (lbaOffset : ℕ)
    (cur : BlockDesc) : Int :=
  let dataSize := iover.ns.dataSize
  let data := blockData iover bio lbaOffset
  if params.deallocReadValueType &&& deallocReadValueTypeZeroes ≠ 0 ∧ isAllZeroes data dataSize then
    deallocReadValueTypeZeroes
  else if params.deallocReadValueType &&& deallocReadValueTypeOnes ≠ 0 ∧ isAllOnes data dataSize then
    deallocReadValueTypeOnes
  else if params.deallocReadValueType &&& deallocReadValueTypeLast ≠ 0 then
    match datagenGetHeader iover.datagen data with
    | none => -1
    | some info =>
      if info.lba = BitVec.ofNat 64 (bio.slba + lbaOffset) ∧
          info.timestamp = cur.timestamp.setWidth 64 ∧
          verifyBlockBody iover bio lbaOffset info.pattern = 0 then
        deallocReadValueTypeLast
      else -1
  else -1

/-- `verify_write_zeroes_block` -/
def verifyWriteZeroesBlock (iover : Iover) (bio : Bio) (lbaOffset : ℕ) : Int :=
  if isAllZeroes (blockData iover bio lbaOffset) iover.ns.dataSize then 0 else -1

/-- `verify_dealloc_block`, and the descriptor it may change. -/
def verifyDeallocBlock (iover : Iover) (params : JobParams) (bio : Bio) (lbaOffset : ℕ)
    (cur : BlockDesc) : Int × BlockDesc :=
  let dataSize := iover.ns.dataSize
  let data := blockData iover bio lbaOffset
  if params.deallocReadValueType = deallocReadValueTypeLast then
    -- the result of `verify_block_data` is stored and not returned
    let _res := verifyBlockData iover params bio lbaOffset cur
    (0, cur)
  else if params.deallocReadValueType = deallocReadValueTypeZeroes then
    if isAllZeroes data dataSize then (0, cur) else (-1, cur)
  else if params.deallocReadValueType = deallocReadValueTypeOnes then
    if isAllOnes data dataSize then (0, cur) else (-1, cur)
  else
    let res := identifyDeallocBlock iover params bio lbaOffset cur
    if 0 < res then (0, { cur with pattern := BitVec.ofInt 5 res }) else (0, cur)

/-- `get_metadata` -/
def getMetadata (iover : Iover) (bio : Bio) (lbaOffset : ℕ) : Option Buf :=
  if iover.ns.metaSize = 0 then none
  else if metaStripped iover bio then none
  else some (blockMeta iover bio lbaOffset)

/-- The metadata check of `verify_unwritten_block`, for unwritten blocks that read as zeroes. -/
def verifyUnwrittenMeta (iover : Iover) (data metadata : Buf) : Int :=
  let metaSize := iover.ns.metaSize
  if iover.ns.piType ≠ 0 then
    let pi := if iover.ns.piLoc = 0 then metadata.shift (metaSize - 8) else metadata
    if isAllOnes pi 8 then
      if 8 < metaSize then
        let rest := if iover.ns.piLoc = 0 then metadata else metadata.shift 8
        if isAllZeroes rest (metaSize - 8) then 0 else -1
      else 0
    else -1
  else
    -- the data is looked at again, not the metadata
    if isAllZeroes data iover.ns.dataSize then 0 else -1

/-- `verify_unwritten_block` -/
def verifyUnwrittenBlock (iover : Iover) (params : JobParams) (bio : Bio) (lbaOffset : ℕ) : Int :=
  let dataSize := iover.ns.dataSize
  let data := blockData iover bio lbaOffset
  if params.unwrReadResultType = .value then
    match params.unwrReadValueType with
    | .zeroes =>
      if isAllZeroes data dataSize then
        match getMetadata iover bio lbaOffset with
        | none => 0
        | some metadata => verifyUnwrittenMeta iover data metadata
      else -1
    | .ones => if isAllOnes data dataSize then 0 else -1
  else 0

/-! ## Whole reads -/

/-- Whether the state of an LBA is not known because commands may overlap. -/
def overlapSkips (params : JobParams) (bio : Bio) (lbaOffset : ℕ) : Bool :=
  params.lbaOverlap && (bio.blockDesc lbaOffset).state == .unwritten

/-- `check_read_error`: whether the read covers an LBA that is marked uncorrectable. -/
def checkReadError (iover : Iover) (params : JobParams) (bio : Bio) : Int :=
  if (List.range bio.nlbs).any fun lbaOffset =>
      !overlapSkips params bio lbaOffset
        && (iover.blockDesc (bio.slba + lbaOffset)).state == .uncor then -1
  else 0

/-- `if (res && !final_res) final_res = res;` -/
def accumulate (finalRes res : Int) : Int := if res ≠ 0 ∧ finalRes = 0 then res else finalRes

/-- The check of an LBA in state data in `verify_bio_read`. -/
def verifyDataLba (iover : Iover) (params : JobParams) (bio : Bio) (lbaOffset : ℕ)
    (cur : BlockDesc) : Int :=
  let res := verifyBlockData iover params bio lbaOffset cur
  if res = 0 ∧ 0 < iover.ns.metaSize ∧ ¬ metaStripped iover bio then
    verifyBlockMeta iover bio lbaOffset
  else res

/-- The body of the loop of `verify_bio_read`. -/
def verifyBioReadStep (iover : Iover) (params : JobParams) (bio : Bio) (finalRes : Int)
    (lbaOffset : ℕ) : Int :=
  if overlapSkips params bio lbaOffset then finalRes
  else
    let cur := iover.blockDesc (bio.slba + lbaOffset)
    match cur.state with
    | .unwritten => accumulate finalRes (verifyUnwrittenBlock iover params bio lbaOffset)
    | .dealloc => accumulate finalRes (verifyDeallocBlock iover params bio lbaOffset cur).1
    | .uncor => finalRes
    | .data => accumulate finalRes (verifyDataLba iover params bio lbaOffset cur)
    | .zeroes =>
      let _res := verifyWriteZeroesBlock iover bio lbaOffset
      finalRes
    | .undef _ => finalRes

/-- `verify_bio_read` -/
def verifyBioRead (iover : Iover) (params : JobParams) (bio : Bio) : Int :=
  (List.range bio.nlbs).foldl (verifyBioReadStep iover params bio) 0

/-- The variables of the loop of `verify_hist_read`: `final_res`, `res[BD_NEXT]` and the
verifier. -/
structure HistRead where
  finalRes : Int
  res : Int
  iover : Iover

/-- The check of `bd[BD_NEXT]` in `verify_hist_read`: `res[BD_NEXT]`, which was `res` before, and
the descriptor. -/
def verifyHistDesc (iover : Iover) (params : JobParams) (bio : Bio) (lbaOffset : ℕ) (res : Int)
    (bd : BlockDesc) : Int × BlockDesc :=
  match bd.state with
  | .unwritten => (verifyUnwrittenBlock iover params bio lbaOffset, bd)
  | .dealloc => verifyDeallocBlock iover params bio lbaOffset bd
  -- `res` keeps the value of the LBA before
  | .uncor => (res, bd)
  -- `res == 0` compares the array `res`, so the metadata is not looked at
  | .data => (verifyBlockData iover params bio lbaOffset bd, bd)
  | .zeroes => (verifyWriteZeroesBlock iover bio lbaOffset, bd)
  | .undef _ => (res, bd)

/-- The forward fixing of `verify_hist_read`. -/
def forwardFix (iover : Iover) (lba : ℕ) (res : Int) (bd : BlockDesc) : Iover :=
  if res = 0 then { iover with blockDesc := Function.update iover.blockDesc lba bd } else iover

/-- The body of the loop of `verify_hist_read`, for `BD_NEXT`, the one descriptor it looks at. -/
def verifyHistReadStep (params : JobParams) (bio : Bio) (h : HistRead) (lbaOffset : ℕ) : HistRead :=
  let hd := h.iover.histDesc bio.histIdx
  let out := verifyHistDesc h.iover params bio lbaOffset h.res hd.next
  let histDesc := Function.update h.iover.histDesc bio.histIdx { hd with next := out.2 }
  { finalRes := if out.1 ≠ 0 then -1 else h.finalRes
    res := out.1
    iover := forwardFix { h.iover with histDesc := histDesc } (bio.slba + lbaOffset) out.1 out.2 }

/-- `verify_hist_read` -/
def verifyHistRead (iover : Iover) (params : JobParams) (bio : Bio) : Int × Iover :=
  if verifyBioRead iover params bio = 0 then (0, iover)
  else
    let h := (List.range bio.nlbs).foldl (verifyHistReadStep params bio) ⟨0, 0, iover⟩
    (h.finalRes, h.iover)

/-! ## Which blocks of data are accepted -/

section VerifyBlockData

variable {iover : Iover} {params : JobParams} {bio : Bio} {lbaOffset : ℕ} {cur : BlockDesc}

theorem verifyBlockBody_eq_zero_iff {pattern : Byte} :
    verifyBlockBody iover bio lbaOffset pattern = 0 ↔
      ∀ i < iover.datagen.bodySize, blockData iover bio lbaOffset (blockHeaderSize + i)
        = (iover.datagen.patterns pattern.toNat).body i := by
  rw [verifyBlockBody]
  split
  · rename_i h
    rw [Ne, memcmp_eq_zero_iff] at h
    exact ⟨fun h' => absurd h' (by decide), fun h' => absurd h' h⟩
  · rename_i h
    rw [Ne, not_not, memcmp_eq_zero_iff] at h
    exact ⟨fun _ => h, fun _ => rfl⟩

/-- Without overlap the header must decode, to the LBA and to the timestamp of the descriptor. -/
theorem verifyBlockHeader_eq_some_iff (ho : params.lbaOverlap = false) {pattern : Byte} :
    verifyBlockHeader iover params bio lbaOffset cur = some pattern ↔
      ∃ t : BitVec 64, datagenGetHeader iover.datagen (blockData iover bio lbaOffset)
          = some ⟨BitVec.ofNat 64 (bio.slba + lbaOffset), t, pattern⟩
        ∧ t.setWidth 16 = cur.timestamp := by
  rw [verifyBlockHeader]
  cases hdec : datagenGetHeader iover.datagen (blockData iover bio lbaOffset) with
  | none => simp
  | some info =>
    obtain ⟨lba, t, p⟩ := info
    by_cases hl : lba = BitVec.ofNat 64 (bio.slba + lbaOffset)
    · by_cases ht : t.setWidth 16 = cur.timestamp
      · simp only [hl, ht, ne_eq, not_true_eq_false, if_false, Option.some.injEq,
          HeaderInfo.mk.injEq, true_and]
        exact ⟨fun hp => ⟨t, ⟨rfl, hp⟩, ht⟩, fun ⟨_, ⟨_, hp⟩, _⟩ => hp⟩
      · simp only [hl, ht, ho, ne_eq, not_true_eq_false, not_false_eq_true, if_false, if_true,
          Bool.false_eq_true, false_and, reduceCtorEq, Option.some.injEq, HeaderInfo.mk.injEq,
          true_and, false_iff, not_exists, not_and]
        rintro t' ⟨rfl, -⟩ ht'
        exact ht ht'
    · simp [hl]

/-- **The check of a block**, without overlap: header, LBA, timestamp, and the body of the pattern
the block itself names. -/
theorem verifyBlockData_eq_zero_iff_header (ho : params.lbaOverlap = false)
    (hc : params.compareHeaderOnly = false) :
    verifyBlockData iover params bio lbaOffset cur = 0 ↔
      ∃ t pattern, datagenGetHeader iover.datagen (blockData iover bio lbaOffset)
          = some ⟨BitVec.ofNat 64 (bio.slba + lbaOffset), t, pattern⟩
        ∧ t.setWidth 16 = cur.timestamp ∧ verifyBlockBody iover bio lbaOffset pattern = 0 := by
  rw [verifyBlockData]
  refine ⟨?_, ?_⟩
  · intro h
    cases hh : verifyBlockHeader iover params bio lbaOffset cur with
    | none => simp [hh] at h
    | some pattern =>
      simp only [hh, hc, Bool.false_eq_true, if_false] at h
      obtain ⟨t, hdec, ht⟩ := (verifyBlockHeader_eq_some_iff ho).mp hh
      exact ⟨t, pattern, hdec, ht, h⟩
  · rintro ⟨t, pattern, hdec, ht, hbody⟩
    rw [(verifyBlockHeader_eq_some_iff ho).mpr ⟨t, hdec, ht⟩]
    simp only [hc, Bool.false_eq_true, if_false]
    exact hbody

/-- A block that was written for the LBA with the descriptor's timestamp is accepted. -/
theorem verifyBlockData_of_setData (ho : params.lbaOverlap = false) {t : BitVec 64} {p : Byte}
    (hp : p.toNat < iover.datagen.npatterns) (ht : t.setWidth 16 = cur.timestamp)
    (hblock : ∀ i < iover.ns.dataSize, blockData iover bio lbaOffset i
      = datagenSetData iover.datagen (fun _ => 0) (BitVec.ofNat 64 (bio.slba + lbaOffset)) t p i) :
    verifyBlockData iover params bio lbaOffset cur = 0 := by
  have hsize := iover.datagen.dataSize_eq
  rw [iover.datagen_dataSize] at hsize
  have hdec : datagenGetHeader iover.datagen (blockData iover bio lbaOffset)
      = some ⟨BitVec.ofNat 64 (bio.slba + lbaOffset), t, p⟩ := by
    rw [datagenGetHeader_congr fun i hi => hblock i (iover.datagen_dataSize ▸ hi)]
    exact datagenGetHeader_setData _ hp
  have hbody : verifyBlockBody iover bio lbaOffset p = 0 := by
    refine verifyBlockBody_eq_zero_iff.mpr ?_
    intro i hi
    rw [hblock _ (by omega)]
    exact datagenSetData_body _ hi
  rw [verifyBlockData, (verifyBlockHeader_eq_some_iff ho).mpr ⟨t, hdec, ht⟩]
  simp only [hbody, ite_self]

/-- **Which blocks are accepted**: exactly those that are written for this LBA with some timestamp
that agrees with the descriptor in its low 16 bits, in some pattern, up to the reserved byte of
the two headers. Neither the pattern nor that byte is compared with anything. -/
theorem verifyBlockData_accepts_iff (base : Buf) (ho : params.lbaOverlap = false)
    (hc : params.compareHeaderOnly = false) :
    verifyBlockData iover params bio lbaOffset cur = 0 ↔
      ∃ (t : BitVec 64) (pattern rsvd : Byte), pattern.toNat < iover.datagen.npatterns ∧
        t.setWidth 16 = cur.timestamp ∧
        ∀ i < iover.ns.dataSize, blockData iover bio lbaOffset i
          = iover.datagen.xorRsvd (datagenSetData iover.datagen base
              (BitVec.ofNat 64 (bio.slba + lbaOffset)) t pattern) rsvd i := by
  rw [verifyBlockData_eq_zero_iff_header ho hc, ← iover.datagen_dataSize]
  refine exists₂_congr ?_
  intro t pattern
  rw [datagenGetHeader_eq_some, verifyBlockBody_eq_zero_iff]
  have hiff := hasHeader_and_body_iff iover.datagen (blockData iover bio lbaOffset)
    ⟨BitVec.ofNat 64 (bio.slba + lbaOffset), t, pattern⟩ base
  refine ⟨?_, ?_⟩
  · rintro ⟨⟨hp, rsvd, hh⟩, ht, hbody⟩
    exact ⟨rsvd, hp, ht, (hiff rsvd).mp ⟨hh, hbody⟩⟩
  · rintro ⟨rsvd, hp, ht, hblock⟩
    obtain ⟨hh, hbody⟩ := (hiff rsvd).mpr hblock
    exact ⟨⟨hp, rsvd, hh⟩, ht, hbody⟩

/-- The first block of a plain verifier. -/
theorem blockData_plain (d : BlockDesc) (op : BioOpcode) (slba nlbs : ℕ) (data : Buf) :
    blockData (.plain d) (.plain op slba nlbs data) 0 = data := by
  funext i
  rw [blockData, Nat.mul_zero, Buf.shift_apply, Nat.zero_add]
  rfl

/-- A block of zeroes of pattern 0 is accepted by a descriptor of pattern 1: the descriptor's
pattern is compared with nothing. -/
theorem verifyBlockData_accepts_other_pattern :
    verifyBlockData (.plain ⟨0, .data, 1, 0⟩) .plain
        (.plain .read 0 1 (datagenSetData (Iover.plain ⟨0, .data, 1, 0⟩).datagen (fun _ => 0) 0 0 0))
        0 ⟨0, .data, 1, 0⟩ = 0
      ∧ ¬ ∃ t : BitVec 64, t.setWidth 16 = 0 ∧
        ∀ i < (Iover.plain ⟨0, .data, 1, 0⟩).ns.dataSize,
          datagenSetData (Iover.plain ⟨0, .data, 1, 0⟩).datagen (fun _ => 0) 0 0 0 i
            = datagenSetData (Iover.plain ⟨0, .data, 1, 0⟩).datagen (fun _ => 0) 0 t 1 i := by
  refine ⟨?_, ?_⟩
  · rw [verifyBlockData_eq_zero_iff_header rfl rfl, blockData_plain]
    refine ⟨0, 0, datagenGetHeader_setData _ (by decide), rfl, ?_⟩
    rw [verifyBlockBody_eq_zero_iff, blockData_plain]
    exact fun i hi => datagenSetData_body _ hi
  · rintro ⟨t, -, h⟩
    -- the first byte of a block is its pattern
    have h0 := h 0 (by decide)
    rw [datagenSetData_header _ (by decide), datagenSetData_header _ (by decide),
      Datagen.maskHeader_zero, Datagen.maskHeader_zero] at h0
    replace h0 : (0 : Byte) = 1 := h0
    exact absurd h0 (by decide)

/-- A block of pattern 3 with a reserved byte that is not zero is accepted. -/
theorem verifyBlockData_accepts_rsvd :
    verifyBlockData (.plain ⟨5, .data, 1, 0⟩) .plain
      (.plain .read 0 1 ((Iover.plain ⟨5, .data, 1, 0⟩).datagen.xorRsvd
        (datagenSetData (Iover.plain ⟨5, .data, 1, 0⟩).datagen (fun _ => 0) 0 5 3) 7))
      0 ⟨5, .data, 1, 0⟩ = 0 :=
  (verifyBlockData_accepts_iff (fun _ => 0) rfl rfl).mpr
    ⟨5, 3, 7, by decide, by decide, fun i _ => congrFun (blockData_plain _ _ _ _ _) i⟩

end VerifyBlockData

/-! ## Which reads are accepted -/

section VerifyBioRead

variable {iover : Iover} {params : JobParams} {bio : Bio} {lbaOffset : ℕ}

/-- What the LBA at an offset contributes to the result of a read. -/
def lbaResult (iover : Iover) (params : JobParams) (bio : Bio) (lbaOffset : ℕ) : Int :=
  let cur := iover.blockDesc (bio.slba + lbaOffset)
  match cur.state with
  | .unwritten => verifyUnwrittenBlock iover params bio lbaOffset
  | .dealloc => (verifyDeallocBlock iover params bio lbaOffset cur).1
  | .data => verifyDataLba iover params bio lbaOffset cur
  | .uncor | .zeroes | .undef _ => 0

theorem accumulate_zero (finalRes : Int) : accumulate finalRes 0 = finalRes := by
  rw [accumulate, if_neg (by simp)]

/-- A result stays once it is there. -/
theorem accumulate_ne_zero_iff {finalRes res : Int} :
    accumulate finalRes res ≠ 0 ↔ finalRes ≠ 0 ∨ res ≠ 0 := by
  simp only [accumulate]
  split <;> simp only [ne_eq] <;> tauto

/-- Without overlap a turn of the loop accumulates the result of its LBA. -/
theorem verifyBioReadStep_eq (ho : params.lbaOverlap = false) (finalRes : Int) :
    verifyBioReadStep iover params bio finalRes lbaOffset
      = accumulate finalRes (lbaResult iover params bio lbaOffset) := by
  rw [verifyBioReadStep, overlapSkips, ho, Bool.false_and, if_neg Bool.false_ne_true, lbaResult]
  cases hstate : (iover.blockDesc (bio.slba + lbaOffset)).state <;>
    simp only [hstate, accumulate_zero]

/-- The loop reports a mismatch when some LBA does. -/
theorem foldl_accumulate_ne_zero_iff (g : ℕ → Int) (l : List ℕ) (a : Int) :
    l.foldl (fun finalRes o => accumulate finalRes (g o)) a ≠ 0 ↔ a ≠ 0 ∨ ∃ o ∈ l, g o ≠ 0 := by
  induction l generalizing a with
  | nil => simp
  | cons o l ih =>
    rw [List.foldl_cons, ih, accumulate_ne_zero_iff, or_assoc]
    simp only [List.mem_cons, exists_eq_or_imp]

/-- **The result of a read**, without overlap: it is refused when some LBA contributes. -/
theorem verifyBioRead_ne_zero_iff (iover : Iover) (bio : Bio)
    (ho : params.lbaOverlap = false) :
    verifyBioRead iover params bio ≠ 0 ↔
      ∃ lbaOffset < bio.nlbs, lbaResult iover params bio lbaOffset ≠ 0 := by
  have hstep : verifyBioReadStep iover params bio
      = fun finalRes o => accumulate finalRes (lbaResult iover params bio o) := by
    funext finalRes o
    exact verifyBioReadStep_eq ho finalRes
  rw [verifyBioRead, hstep, foldl_accumulate_ne_zero_iff]
  simp only [ne_eq, not_true_eq_false, false_or, List.mem_range]

theorem verifyBioRead_eq_zero_iff (ho : params.lbaOverlap = false) :
    verifyBioRead iover params bio = 0 ↔
      ∀ lbaOffset < bio.nlbs, lbaResult iover params bio lbaOffset = 0 := by
  have h := not_congr (verifyBioRead_ne_zero_iff iover bio ho)
  simpa only [ne_eq, not_not, not_exists, not_and] using h

/-- The configured check of a deallocated LBA fails. -/
def DeallocCheckFails (iover : Iover) (params : JobParams) (bio : Bio) (lbaOffset : ℕ)
    (cur : BlockDesc) : Prop :=
  if params.deallocReadValueType = deallocReadValueTypeLast then
    verifyBlockData iover params bio lbaOffset cur ≠ 0
  else if params.deallocReadValueType = deallocReadValueTypeZeroes then
    isAllZeroes (blockData iover bio lbaOffset) iover.ns.dataSize = false
  else if params.deallocReadValueType = deallocReadValueTypeOnes then
    isAllOnes (blockData iover bio lbaOffset) iover.ns.dataSize = false
  else identifyDeallocBlock iover params bio lbaOffset cur < 0

/-- The check that goes with the state of an LBA finds it bad, in a read that succeeded. -/
def BadLba (iover : Iover) (params : JobParams) (bio : Bio) (lbaOffset : ℕ) : Prop :=
  let cur := iover.blockDesc (bio.slba + lbaOffset)
  match cur.state with
  | .unwritten => verifyUnwrittenBlock iover params bio lbaOffset ≠ 0
  | .dealloc => DeallocCheckFails iover params bio lbaOffset cur
  | .uncor => True
  | .data => verifyBlockData iover params bio lbaOffset cur ≠ 0 ∨
      (0 < iover.ns.metaSize ∧ ¬ metaStripped iover bio ∧ verifyBlockMeta iover bio lbaOffset ≠ 0)
  | .zeroes => isAllZeroes (blockData iover bio lbaOffset) iover.ns.dataSize = false
  | .undef _ => False

/-- The result of the check of an LBA goes nowhere: it is in state uncorrectable or zeroes, or
deallocated and the value it reads as is neither all zeroes nor all ones. -/
def CheckDropped (iover : Iover) (params : JobParams) (bio : Bio) (lbaOffset : ℕ) : Prop :=
  match (iover.blockDesc (bio.slba + lbaOffset)).state with
  | .uncor | .zeroes => True
  | .dealloc => params.deallocReadValueType ≠ deallocReadValueTypeZeroes ∧
      params.deallocReadValueType ≠ deallocReadValueTypeOnes
  | .unwritten | .data | .undef _ => False

/-- The data check reports the block or its metadata. -/
theorem verifyDataLba_ne_zero_iff {cur : BlockDesc} :
    verifyDataLba iover params bio lbaOffset cur ≠ 0 ↔
      verifyBlockData iover params bio lbaOffset cur ≠ 0 ∨
      (0 < iover.ns.metaSize ∧ ¬ metaStripped iover bio ∧
        verifyBlockMeta iover bio lbaOffset ≠ 0) := by
  unfold verifyDataLba
  simp only
  split <;> tauto

/-- The result of `verify_dealloc_block` is that of a comparison with a constant. -/
theorem verifyDeallocBlock_ne_zero_iff {cur : BlockDesc} :
    (verifyDeallocBlock iover params bio lbaOffset cur).1 ≠ 0 ↔
      DeallocCheckFails iover params bio lbaOffset cur ∧
        ¬ (params.deallocReadValueType ≠ deallocReadValueTypeZeroes ∧
          params.deallocReadValueType ≠ deallocReadValueTypeOnes) := by
  simp only [verifyDeallocBlock, DeallocCheckFails]
  by_cases hl : params.deallocReadValueType = deallocReadValueTypeLast
  · simp only [hl, if_true]
    exact ⟨fun h => absurd rfl h, fun h => absurd ⟨by decide, by decide⟩ h.2⟩
  · by_cases hz : params.deallocReadValueType = deallocReadValueTypeZeroes
    · simp only [hz, if_neg (show ¬ deallocReadValueTypeZeroes = deallocReadValueTypeLast by decide),
        if_true]
      cases isAllZeroes (blockData iover bio lbaOffset) iover.ns.dataSize <;> simp
    · by_cases h1 : params.deallocReadValueType = deallocReadValueTypeOnes
      · simp only [h1, if_neg (show ¬ deallocReadValueTypeOnes = deallocReadValueTypeLast by decide),
          if_neg (show ¬ deallocReadValueTypeOnes = deallocReadValueTypeZeroes by decide), if_true]
        cases isAllOnes (blockData iover bio lbaOffset) iover.ns.dataSize <;> simp
      · simp only [hl, hz, h1, if_false]
        split <;> simp [hz, h1]

/-- What an LBA contributes: its check fails, and the result of the check is not dropped. -/
theorem lbaResult_ne_zero_iff :
    lbaResult iover params bio lbaOffset ≠ 0 ↔
      BadLba iover params bio lbaOffset ∧ ¬ CheckDropped iover params bio lbaOffset := by
  unfold lbaResult BadLba CheckDropped
  simp only
  cases (iover.blockDesc (bio.slba + lbaOffset)).state with
  | unwritten => simp
  | dealloc => exact verifyDeallocBlock_ne_zero_iff
  | uncor => simp
  | data => simpa using verifyDataLba_ne_zero_iff
  | zeroes => simp
  | undef k => simp

/-- **When no detected miscompare is dropped.** The result of a successful read is non-zero
exactly when its range has a bad LBA, if and only if one of the bad LBAs is of a kind whose check
counts, or none is of a kind whose check is dropped. -/
theorem no_miscompare_dropped_iff (ho : params.lbaOverlap = false) :
    (verifyBioRead iover params bio ≠ 0 ↔ ∃ o < bio.nlbs, BadLba iover params bio o) ↔
      ((∃ o < bio.nlbs, BadLba iover params bio o ∧ ¬ CheckDropped iover params bio o) ∨
        ∀ o < bio.nlbs, BadLba iover params bio o → ¬ CheckDropped iover params bio o) := by
  rw [verifyBioRead_ne_zero_iff iover bio ho]
  simp only [lbaResult_ne_zero_iff]
  refine ⟨?_, ?_⟩
  · intro h
    by_cases hrep : ∃ o < bio.nlbs, BadLba iover params bio o ∧ ¬ CheckDropped iover params bio o
    · exact .inl hrep
    · exact .inr fun o ho hbad => absurd (h.mpr ⟨o, ho, hbad⟩) hrep
  · rintro (⟨o, ho, hbad, hrep⟩ | h)
    · exact ⟨fun _ => ⟨o, ho, hbad⟩, fun _ => ⟨o, ho, hbad, hrep⟩⟩
    · exact ⟨fun ⟨o, ho, hbad, _⟩ => ⟨o, ho, hbad⟩, fun ⟨o, ho, hbad⟩ => ⟨o, ho, hbad, h o ho hbad⟩⟩

/-- A read of ones from a deallocated LBA, which is to read as zeroes, is reported. -/
theorem no_miscompare_dropped_dealloc :
    verifyBioRead (.plain ⟨0, .dealloc, 0, 0⟩) .plain (.plain .read 0 1 fun _ => 1) ≠ 0 := by
  have hbad : BadLba (.plain ⟨0, .dealloc, 0, 0⟩) .plain (.plain .read 0 1 fun _ => 1) 0 := by
    refine Bool.eq_false_iff.mpr ?_
    intro h
    rcases isAll_iff.mp h with h | h
    · exact absurd h (by decide)
    · rw [blockData_plain] at h
      exact absurd h (by decide)
  have hkept : ¬ CheckDropped (.plain ⟨0, .dealloc, 0, 0⟩) .plain (.plain .read 0 1 fun _ => 1) 0 :=
    fun hdropped => hdropped.1 rfl
  exact ((no_miscompare_dropped_iff rfl).mpr (.inl ⟨0, by decide, hbad, hkept⟩)).mpr
    ⟨0, by decide, hbad⟩

/-- A read of ones from an LBA in state zeroes is accepted, though its check fails. -/
theorem verifyBioRead_drops_zeroes :
    verifyBioRead (.plain ⟨0, .zeroes, 0, 0⟩) .plain (.plain .read 0 1 fun _ => 1) = 0 ∧
      ∃ o < 1, BadLba (.plain ⟨0, .zeroes, 0, 0⟩) .plain (.plain .read 0 1 fun _ => 1) o := by
  refine ⟨rfl, 0, by decide, Bool.eq_false_iff.mpr ?_⟩
  intro h
  rcases isAll_iff.mp h with h | h
  · exact absurd h (by decide)
  · rw [blockData_plain] at h
    exact absurd h (by decide)

end VerifyBioRead

end ChamberSpo

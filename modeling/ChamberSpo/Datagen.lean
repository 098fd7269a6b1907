import Mathlib.Tactic.IntervalCases
import ChamberSpo.CrcT10dif

/-!
# The block data generator

`datagen.c`: what a written block looks like, and how a block that was read is decoded.

A block is a 20-byte header, a body that depends on the pattern alone, and the header again.
With `randomize_header` every header byte but the first, the pattern, is xored with a mask that
depends on the pattern.

* `BlockHeader.bytes`, `BlockHeader.ofBytes` — the packed layout, and its round trips.
* `datagenSetData`, `datagenGetHeader` — `datagen_set_data`, `datagen_get_header`.
* `datagenGetHeader_eq_some` — exactly which blocks the decoder accepts, and what it reads off
  them: the reserved byte of the header is the one thing it does not look at.
* `datagenSetMeta`, `datagenCompareMeta` — the metadata with its protection information.
-/

namespace ChamberSpo

/-! ## The header -/

/-- `struct block_header` -/
structure BlockHeader where
  pattern : Byte
  startMarker : Byte
  timestamp : BitVec 64
  lba : BitVec 64
  rsvd : Byte
  finishMarker : Byte
  deriving DecidableEq, Repr

/-- `sizeof (struct block_header)` -/
abbrev blockHeaderSize : ℕ := 20

/-- `BLOCK_HEADER_START_MARKER` -/
def blockHeaderStartMarker : Byte := 0x12

/-- `BLOCK_HEADER_FINISH_MARKER` -/
def blockHeaderFinishMarker : Byte := 0x34

namespace BlockHeader

/-- The packed bytes of a header. -/
def bytes (h : BlockHeader) : Buf := fun i =>
  if i = 0 then h.pattern
  else if i = 1 then h.startMarker
  else if i < 10 then leBytes h.timestamp.toNat (i - 2)
  else if i < 18 then leBytes h.lba.toNat (i - 10)
  else if i = 18 then h.rsvd
  else h.finishMarker

/-- The header that stands at the start of a buffer. -/
def ofBytes (b : Buf) : BlockHeader where
  pattern := b 0
  startMarker := b 1
  timestamp := b.load 64 2
  lba := b.load 64 10
  rsvd := b 18
  finishMarker := b 19

theorem bytes_timestamp (h : BlockHeader) {i : ℕ} (hi : i < 8) :
    h.bytes (2 + i) = leBytes h.timestamp.toNat i := by
  rw [bytes, if_neg (by omega), if_neg (by omega), if_pos (by omega), Nat.add_sub_cancel_left]

theorem bytes_lba (h : BlockHeader) {i : ℕ} (hi : i < 8) :
    h.bytes (10 + i) = leBytes h.lba.toNat i := by
  rw [bytes, if_neg (by omega), if_neg (by omega), if_neg (by omega), if_pos (by omega),
    Nat.add_sub_cancel_left]

/-- A header is read back from its bytes. -/
@[simp] theorem ofBytes_bytes (h : BlockHeader) : ofBytes h.bytes = h := by
  have ht : h.bytes.load 64 2 = h.timestamp :=
    Buf.load_of_bytes (by decide) fun i hi => h.bytes_timestamp hi
  have hl : h.bytes.load 64 10 = h.lba :=
    Buf.load_of_bytes (by decide) fun i hi => h.bytes_lba hi
  rw [ofBytes, ht, hl]
  rfl

/-- The bytes are those of the header read from them. -/
theorem bytes_ofBytes (b : Buf) {i : ℕ} (hi : i < blockHeaderSize) :
    (ofBytes b).bytes i = b i := by
  have ht : ∀ j < 8, (ofBytes b).bytes (2 + j) = b (2 + j) := fun j hj => by
    rw [bytes_timestamp _ hj]
    exact Buf.leBytes_load (by decide) hj
  have hl : ∀ j < 8, (ofBytes b).bytes (10 + j) = b (10 + j) := fun j hj => by
    rw [bytes_lba _ hj]
    exact Buf.leBytes_load (by decide) hj
  rcases Nat.lt_or_ge i 2 with h | h
  · interval_cases i <;> rfl
  · rcases Nat.lt_or_ge i 10 with h' | h'
    · simpa [Nat.add_sub_cancel' h] using ht (i - 2) (by omega)
    · rcases Nat.lt_or_ge i 18 with h'' | h''
      · simpa [Nat.add_sub_cancel' h'] using hl (i - 10) (by omega)
      · simp only [blockHeaderSize] at hi
        interval_cases i <;> rfl

/-- A header depends on its own bytes only. -/
theorem ofBytes_congr {a b : Buf} (h : ∀ i < blockHeaderSize, a i = b i) :
    ofBytes a = ofBytes b := by
  rw [ofBytes, ofBytes, h 0 (by decide), h 1 (by decide), h 18 (by decide), h 19 (by decide),
    Buf.load_congr (a := a) (b := b) fun i hi => h (2 + i) (by simp only [blockHeaderSize]; omega),
    Buf.load_congr (a := a) (b := b) fun i hi => h (10 + i) (by simp only [blockHeaderSize]; omega)]

end BlockHeader

/-! ## The generator -/

/-- `struct datagen_pattern` -/
structure DatagenPattern where
  headerMask : Buf
  body : Buf

/-- `struct datagen`, with the relations `datagen_init` establishes. -/
structure Datagen where
  npatterns : ℕ
  patterns : ℕ → DatagenPattern
  dataSize : ℕ
  bodySize : ℕ
  metaSize : ℕ
  piOffset : ℕ
  piType : ℕ
  randomizeHeader : Bool
  npatterns_pos : 0 < npatterns
  /-- a descriptor has five bits for the pattern -/
  npatterns_le : npatterns ≤ 2 ^ 5
  dataSize_eq : dataSize = bodySize + 2 * blockHeaderSize

/-- `NUM_PATTERNS` -/
def numPatterns : ℕ := 8

/-- `PI_SIZE` -/
def piSize : ℕ := 8

/-- The bytes of an array of 16-bit words of which the first `n / 2` are set. -/
def wordBytes (n : ℕ) (words : ℕ → ℕ) : Buf := fun i =>
  if i < n / 2 * 2 then leBytes (words (i / 2) % 2 ^ 16) (i % 2) else 0

/-- `create_body_data_pattern` -/
def createBodyDataPattern (bodySize : ℕ) : ℕ → Buf
  | 0 => fun _ => 0x00
  | 1 => fun _ => 0x55
  | 2 => fun _ => 0xAA
  | 3 => fun _ => 0xFF
  | 4 => fun i => BitVec.ofNat 8 i
  | 5 => wordBytes bodySize fun i => i
  | 6 => fun i => BitVec.ofNat 8 (bodySize - i - 1)
  | 7 => wordBytes bodySize fun i => bodySize - i - 1
  | _ => fun _ => 0

/-- `datagen_init`. `masks` is what `rng_fill` delivers; a header is masked only on request. -/
def datagenInit (dataSize : ℕ) (h : 2 * blockHeaderSize ≤ dataSize) (randomizeHeader : Bool)
    (masks : ℕ → Buf) : Datagen where
  npatterns := numPatterns
  patterns k :=
    { headerMask := if randomizeHeader then masks k else fun _ => 0
      body := createBodyDataPattern (dataSize - 2 * blockHeaderSize) k }
  dataSize := dataSize
  bodySize := dataSize - 2 * blockHeaderSize
  metaSize := 0
  piOffset := 0
  piType := 0
  randomizeHeader := randomizeHeader
  npatterns_pos := by decide
  npatterns_le := by decide
  dataSize_eq := by omega

/-- `randomize_header`, and `derandomize_header`, which is the same function. -/
def randomizeHeader (src mask : Buf) : Buf := fun i => if i = 0 then src i else src i ^^^ mask i

/-- What `datagen_get_header` returns through its pointers. -/
structure HeaderInfo where
  lba : BitVec 64
  timestamp : BitVec 64
  pattern : Byte
  deriving DecidableEq, Repr

namespace Datagen

variable (dg : Datagen)

/-- The mask step of a header of pattern `p`, in either direction. -/
def maskHeader (p : Byte) (src : Buf) : Buf :=
  if dg.randomizeHeader then ChamberSpo.randomizeHeader src (dg.patterns p.toNat).headerMask
  else src

/-- Where the second header of a block starts. -/
def footerOffset : ℕ := dg.dataSize - blockHeaderSize

end Datagen

/-- `datagen_get_header`: `none` when it returns `-1`. -/
def datagenGetHeader (dg : Datagen) (data : Buf) : Option HeaderInfo :=
  if dg.npatterns ≤ (data 0).toNat then none
  else
    let headerBytes := dg.maskHeader (data 0) data
    let footerBytes := dg.maskHeader (data 0) (data.shift dg.footerOffset)
    let header := BlockHeader.ofBytes headerBytes
    if header.startMarker ≠ blockHeaderStartMarker ∨ header.finishMarker ≠ blockHeaderFinishMarker
    then none
    else if memcmp headerBytes footerBytes blockHeaderSize ≠ 0 then none
    else some { lba := header.lba, timestamp := header.timestamp, pattern := header.pattern }

/-- The header `datagen_set_header` builds. -/
def blockHeader (lba timestamp : BitVec 64) (pattern : Byte) : BlockHeader where
  pattern := pattern
  startMarker := blockHeaderStartMarker
  timestamp := timestamp
  lba := lba
  rsvd := 0
  finishMarker := blockHeaderFinishMarker

/-- `datagen_set_header` -/
def datagenSetHeader (dg : Datagen) (data : Buf) (lba timestamp : BitVec 64) (pattern : Byte) :
    Buf :=
  let header := dg.maskHeader pattern (blockHeader lba timestamp pattern).bytes
  (data.copy 0 header blockHeaderSize).copy dg.footerOffset header blockHeaderSize

/-- `datagen_set_body` -/
def datagenSetBody (dg : Datagen) (data : Buf) (pattern : Byte) : Buf :=
  data.copy blockHeaderSize (dg.patterns pattern.toNat).body dg.bodySize

/-- `datagen_set_data` -/
def datagenSetData (dg : Datagen) (data : Buf) (lba timestamp : BitVec 64) (pattern : Byte) :
    Buf :=
  datagenSetBody dg (datagenSetHeader dg data lba timestamp pattern) pattern

/-! ## What the decoder accepts -/

namespace Datagen

variable (dg : Datagen) {p : Byte} {a b data : Buf} {h : BlockHeader} {i : ℕ}

/-- The pattern is not masked: the mask depends on it. -/
theorem maskHeader_zero (src : Buf) : dg.maskHeader p src 0 = src 0 := by
  simp only [maskHeader]
  split <;> rfl

/-- A masked byte depends on the byte alone. -/
theorem maskHeader_congr (h : a i = b i) : dg.maskHeader p a i = dg.maskHeader p b i := by
  simp only [maskHeader]
  split
  · simp only [ChamberSpo.randomizeHeader]
    rw [h]
  · exact h

/-- Masking twice is masking not at all. -/
@[simp] theorem maskHeader_maskHeader (src : Buf) :
    dg.maskHeader p (dg.maskHeader p src) = src := by
  simp only [maskHeader]
  split
  · funext i
    simp only [ChamberSpo.randomizeHeader]
    split
    · rfl
    · rw [BitVec.xor_assoc, BitVec.xor_self, BitVec.xor_zero]
  · rfl

/-- Masking is injective, byte by byte. -/
theorem maskHeader_eq_iff : dg.maskHeader p a i = b i ↔ a i = dg.maskHeader p b i := by
  refine ⟨?_, ?_⟩
  · intro h
    rw [← dg.maskHeader_congr (p := p) h, maskHeader_maskHeader]
  · intro h
    rw [dg.maskHeader_congr (p := p) h, maskHeader_maskHeader]

/-- The header `h` stands at both ends of a block. -/
def HasHeader (data : Buf) (h : BlockHeader) : Prop :=
  ∀ i < blockHeaderSize, data i = dg.maskHeader h.pattern h.bytes i ∧
    data (dg.footerOffset + i) = dg.maskHeader h.pattern h.bytes i

/-- The first byte of a block is the pattern. -/
theorem HasHeader.pattern (hh : dg.HasHeader data h) : data 0 = h.pattern := by
  rw [(hh 0 (by decide)).1, maskHeader_zero]
  rfl

end Datagen

/-- The header of a written block, with a reserved byte that may be anything. -/
def BlockHeader.withRsvd (info : HeaderInfo) (rsvd : Byte) : BlockHeader :=
  { blockHeader info.lba info.timestamp info.pattern with rsvd := rsvd }

variable {dg : Datagen} {data data' : Buf} {info : HeaderInfo}

/-- A block with a header in it is decoded to what the header says. -/
theorem datagenGetHeader_of_hasHeader {rsvd : Byte} (hp : info.pattern.toNat < dg.npatterns)
    (h : dg.HasHeader data (.withRsvd info rsvd)) : datagenGetHeader dg data = some info := by
  have hp0 : data 0 = info.pattern := h.pattern
  have hhead : ∀ i < blockHeaderSize, dg.maskHeader info.pattern data i
      = (BlockHeader.withRsvd info rsvd).bytes i := fun i hi =>
    dg.maskHeader_eq_iff.mpr (h i hi).1
  have hfoot : ∀ i < blockHeaderSize, dg.maskHeader info.pattern (data.shift dg.footerOffset) i
      = (BlockHeader.withRsvd info rsvd).bytes i := fun i hi =>
    dg.maskHeader_eq_iff.mpr (h i hi).2
  have hdec : BlockHeader.ofBytes (dg.maskHeader info.pattern data) = .withRsvd info rsvd := by
    rw [BlockHeader.ofBytes_congr hhead, BlockHeader.ofBytes_bytes]
  have hcmp : memcmp (dg.maskHeader info.pattern data)
      (dg.maskHeader info.pattern (data.shift dg.footerOffset)) blockHeaderSize = 0 :=
    memcmp_eq_zero_iff.mpr fun i hi => (hhead i hi).trans (hfoot i hi).symm
  simp only [datagenGetHeader]
  rw [hp0, if_neg (by omega)]
  simp only [hdec, hcmp]
  rfl

/-- **What the decoder accepts**: a block with a known pattern whose two headers are the ones
that are written for the LBA and the timestamp it reads, up to the reserved byte. -/
theorem datagenGetHeader_eq_some :
    datagenGetHeader dg data = some info ↔
      info.pattern.toNat < dg.npatterns ∧ ∃ rsvd, dg.HasHeader data (.withRsvd info rsvd) := by
  refine ⟨?_, fun ⟨hp, rsvd, hh⟩ => datagenGetHeader_of_hasHeader hp hh⟩
  intro h
  rw [datagenGetHeader] at h
  split at h
  · cases h
  · rename_i hp
    simp only at h
    split at h
    · cases h
    · rename_i hmark
      split at h
      · cases h
      · rename_i hcmp
        obtain rfl := Option.some.inj h
        obtain ⟨hstart, hfinish⟩ := not_or.mp hmark
        rw [not_not] at hcmp hstart hfinish
        have hpat : (BlockHeader.ofBytes (dg.maskHeader (data 0) data)).pattern = data 0 :=
          dg.maskHeader_zero data
        refine ⟨by simp only [hpat]; omega,
          (BlockHeader.ofBytes (dg.maskHeader (data 0) data)).rsvd, fun i hi => ?_⟩
        -- the header with the fields that were read is the one that was read
        have hsame : BlockHeader.withRsvd
            { lba := (BlockHeader.ofBytes (dg.maskHeader (data 0) data)).lba
              timestamp := (BlockHeader.ofBytes (dg.maskHeader (data 0) data)).timestamp
              pattern := (BlockHeader.ofBytes (dg.maskHeader (data 0) data)).pattern }
            (BlockHeader.ofBytes (dg.maskHeader (data 0) data)).rsvd
              = BlockHeader.ofBytes (dg.maskHeader (data 0) data) := by
          rw [BlockHeader.withRsvd, blockHeader, ← hstart, ← hfinish]
        rw [hsame, hpat]
        have hbytes := BlockHeader.bytes_ofBytes (dg.maskHeader (data 0) data) hi
        exact ⟨dg.maskHeader_eq_iff.mp hbytes.symm,
          dg.maskHeader_eq_iff.mp ((memcmp_eq_zero_iff.mp hcmp i hi).symm.trans hbytes.symm)⟩

/-- The decoder looks at the block only. -/
theorem datagenGetHeader_congr (h : ∀ i < dg.dataSize, data i = data' i) :
    datagenGetHeader dg data = datagenGetHeader dg data' := by
  have hsize := dg.dataSize_eq
  have hsame : ∀ hd, dg.HasHeader data hd ↔ dg.HasHeader data' hd := fun hd =>
    forall₂_congr fun i hi => by
      simp only [blockHeaderSize, Datagen.footerOffset] at hi hsize ⊢
      rw [h i (by omega), h (dg.dataSize - 20 + i) (by omega)]
  refine Option.ext ?_
  intro info
  rw [datagenGetHeader_eq_some, datagenGetHeader_eq_some]
  simp only [hsame]

/-! ## What is written -/

section SetData

variable {lba timestamp : BitVec 64} {p : Byte} {i : ℕ}

/-- The first header of a written block. -/
theorem datagenSetData_header (data : Buf) (hi : i < blockHeaderSize) :
    datagenSetData dg data lba timestamp p i
      = dg.maskHeader p (blockHeader lba timestamp p).bytes i := by
  have hsize := dg.dataSize_eq
  simp only [blockHeaderSize] at hi hsize
  rw [datagenSetData, datagenSetBody, Buf.copy_out (.inl hi), datagenSetHeader,
    Buf.copy_out (.inl (by simp only [Datagen.footerOffset, blockHeaderSize]; omega))]
  exact Buf.copy_zero hi

/-- The body of a written block. -/
theorem datagenSetData_body (data : Buf) (hi : i < dg.bodySize) :
    datagenSetData dg data lba timestamp p (blockHeaderSize + i) = (dg.patterns p.toNat).body i :=
  Buf.copy_in hi

/-- The second header of a written block. -/
theorem datagenSetData_footer (data : Buf) (hi : i < blockHeaderSize) :
    datagenSetData dg data lba timestamp p (dg.footerOffset + i)
      = dg.maskHeader p (blockHeader lba timestamp p).bytes i := by
  have hsize := dg.dataSize_eq
  rw [datagenSetData, datagenSetBody, Buf.copy_out (.inr ?_)]
  · exact Buf.copy_in hi
  · simp only [blockHeaderSize, Datagen.footerOffset] at hi hsize ⊢
    omega

/-- A written block carries its header. -/
theorem hasHeader_setData (data : Buf) :
    dg.HasHeader (datagenSetData dg data lba timestamp p) (.withRsvd ⟨lba, timestamp, p⟩ 0) :=
  fun _ hi => ⟨datagenSetData_header data hi, datagenSetData_footer data hi⟩

/-- **Round trip**: a written block is decoded to what was written. -/
theorem datagenGetHeader_setData (data : Buf) (hp : p.toNat < dg.npatterns) :
    datagenGetHeader dg (datagenSetData dg data lba timestamp p) = some ⟨lba, timestamp, p⟩ :=
  datagenGetHeader_of_hasHeader hp (hasHeader_setData data)

/-- A block with `rsvd` xored into the reserved byte of both headers. -/
def Datagen.xorRsvd (dg : Datagen) (data : Buf) (rsvd : Byte) : Buf :=
  fun i => if i = 18 ∨ i = dg.dataSize - 2 then data i ^^^ rsvd else data i

/-- The reserved byte reaches one byte of the masked header. -/
theorem Datagen.maskHeader_withRsvd (dg : Datagen) (info : HeaderInfo) (rsvd : Byte) (i : ℕ) :
    dg.maskHeader info.pattern (BlockHeader.withRsvd info rsvd).bytes i
      = if i = 18 then dg.maskHeader info.pattern
            (blockHeader info.lba info.timestamp info.pattern).bytes i ^^^ rsvd
        else dg.maskHeader info.pattern
            (blockHeader info.lba info.timestamp info.pattern).bytes i := by
  split
  · rename_i h
    subst h
    have hr : (BlockHeader.withRsvd info rsvd).bytes 18 = rsvd := rfl
    have h0 : (blockHeader info.lba info.timestamp info.pattern).bytes 18 = 0#8 := rfl
    simp only [maskHeader]
    split
    · simp only [ChamberSpo.randomizeHeader]
      rw [if_neg (by decide), if_neg (by decide), hr, h0, BitVec.zero_xor, BitVec.xor_comm]
    · rw [hr, h0, BitVec.zero_xor]
  · rename_i h
    apply dg.maskHeader_congr
    simp only [BlockHeader.bytes]
    rw [if_neg h, if_neg h]
    rfl

/-- **A block with a given header and the body of its pattern** is the one that is written for
this LBA, timestamp and pattern, up to the reserved byte. -/
theorem hasHeader_and_body_iff (dg : Datagen) (data : Buf) (info : HeaderInfo) (base : Buf)
    (rsvd : Byte) :
    (dg.HasHeader data (.withRsvd info rsvd) ∧
      ∀ i < dg.bodySize, data (blockHeaderSize + i) = (dg.patterns info.pattern.toNat).body i) ↔
    ∀ i < dg.dataSize, data i
      = dg.xorRsvd (datagenSetData dg base info.lba info.timestamp info.pattern) rsvd i := by
  have hsize := dg.dataSize_eq
  have hfo : dg.footerOffset = dg.dataSize - blockHeaderSize := rfl
  -- both headers and the body of the written block, with the reserved byte in place
  have hhead : ∀ i < blockHeaderSize,
      dg.xorRsvd (datagenSetData dg base info.lba info.timestamp info.pattern) rsvd i
        = dg.maskHeader info.pattern (BlockHeader.withRsvd info rsvd).bytes i := fun i hi => by
    rw [Datagen.xorRsvd, datagenSetData_header base hi, Datagen.maskHeader_withRsvd]
    simp only [blockHeaderSize] at hi hsize
    exact if_congr (by omega) rfl rfl
  have hfoot : ∀ i < blockHeaderSize,
      dg.xorRsvd (datagenSetData dg base info.lba info.timestamp info.pattern) rsvd
          (dg.footerOffset + i)
        = dg.maskHeader info.pattern (BlockHeader.withRsvd info rsvd).bytes i := fun i hi => by
    rw [Datagen.xorRsvd, datagenSetData_footer base hi, Datagen.maskHeader_withRsvd]
    simp only [blockHeaderSize] at hi hsize hfo
    exact if_congr (by omega) rfl rfl
  have hbody : ∀ i < dg.bodySize,
      dg.xorRsvd (datagenSetData dg base info.lba info.timestamp info.pattern) rsvd
          (blockHeaderSize + i) = (dg.patterns info.pattern.toNat).body i := fun i hi => by
    rw [Datagen.xorRsvd, datagenSetData_body base hi]
    simp only [blockHeaderSize] at hi hsize ⊢
    rw [if_neg (by omega)]
  simp only [blockHeaderSize] at hsize hfo hhead hfoot hbody ⊢
  refine ⟨?_, ?_⟩
  · rintro ⟨hh, hb⟩ i hi
    rcases Nat.lt_or_ge i 20 with h | h
    · rw [hhead i h, (hh i h).1]
      rfl
    · rcases Nat.lt_or_ge i (20 + dg.bodySize) with h' | h'
      · obtain ⟨j, rfl⟩ := Nat.exists_eq_add_of_le h
        rw [hbody j (by omega), hb j (by omega)]
      · obtain ⟨j, rfl⟩ := Nat.exists_eq_add_of_le (show dg.footerOffset ≤ i by omega)
        rw [hfoot j (by omega), (hh j (by simp only [blockHeaderSize]; omega)).2]
        rfl
  · intro h
    refine ⟨?_, ?_⟩
    · intro i hi
      simp only [blockHeaderSize] at hi
      rw [h i (by omega), h (dg.footerOffset + i) (by omega), hhead i hi, hfoot i hi]
      exact ⟨rfl, rfl⟩
    · intro i hi
      rw [h (20 + i) (by omega), hbody i hi]

end SetData

/-! ## Metadata

`struct pr_info` stands at `pi_offset` of the metadata: guard, application tag, reference tag. -/

/-- `htons`, and `ntohs`, on a little-endian machine. -/
def htons (x : BitVec 16) : BitVec 16 := x.extractLsb' 0 8 ++ x.extractLsb' 8 8

/-- `htonl`, and `ntohl`, on a little-endian machine. -/
def htonl (x : BitVec 32) : BitVec 32 := htons (x.extractLsb' 0 16) ++ htons (x.extractLsb' 16 16)

/-- `datagen_set_pi`, which leaves the buffer alone when it returns `-1`. -/
def datagenSetPi (dg : Datagen) (prInfo : Buf) (off : ℕ) (lba : BitVec 64) : Int × Buf :=
  match dg.piType with
  | 1 => (0, (prInfo.store (off + 4) (htonl (lba.setWidth 32))).store (off + 2) (0xFAD0 : BitVec 16))
  | 2 => (0, (prInfo.store (off + 4) (htonl ((lba <<< 1).setWidth 32))).store (off + 2)
      (0xFAD0 : BitVec 16))
  | 3 => (0, (prInfo.store (off + 4) (lba.setWidth 32)).store (off + 2) (lba.setWidth 16))
  | _ => (-1, prInfo)

/-- `datagen_set_meta` -/
def datagenSetMeta (dg : Datagen) (metadata data : Buf) (lba : BitVec 64) : Buf :=
  let withPi := (datagenSetPi dg metadata dg.piOffset lba).2
  let guarded := withPi.store dg.piOffset (htons (crcT10difGeneric 0 data dg.dataSize))
  if piSize < dg.metaSize then
    if dg.piOffset ≠ 0 then
      let copied := guarded.copy 0 data dg.piOffset
      copied.store dg.piOffset
        (htons (crcT10difGeneric (htons (copied.load 16 dg.piOffset)) copied dg.piOffset))
    else guarded.copy piSize data (dg.metaSize - piSize)
  else guarded

/-- `datagen_compare_meta`. The bytes of `expect` that are compared are all set before. -/
def datagenCompareMeta (dg : Datagen) (metadata data : Buf) (lba : BitVec 64) : Int :=
  let app : BitVec 16 := metadata.load 16 (dg.piOffset + 2)
  let ref : BitVec 32 := metadata.load 32 (dg.piOffset + 4)
  let compare := memcmp (datagenSetMeta dg (fun _ => 0) data lba) metadata dg.metaSize
  match dg.piType with
  | 1 | 2 => if app = 0xFFFF then 0 else compare
  | 3 => if app = 0xFFFF ∧ ref = 0xFFFFFFFF then 0 else compare
  | _ => -1

end ChamberSpo

import ChamberSpo.Datagen

/-!
# Blocks as an encoding

A block stands for an LBA, a timestamp and a pattern: `datagen_set_data` writes it, and
`datagen_get_header` reads it.

* `Datagen.Writes` — a block is the one that is written for a triple.
* `decodedRsvd` — the byte of a header that is written as zero and not looked at.

`datagen_codec` says that the two are inverse to each other: on what is written, and on what is
accepted with that byte zero and the body of its pattern.
-/

namespace ChamberSpo

variable {dg : Datagen} {block block' : Buf} {info info' : HeaderInfo}

/-- The reserved byte of the header, as it is decoded. -/
def decodedRsvd (dg : Datagen) (block : Buf) : Byte :=
  (BlockHeader.ofBytes (dg.maskHeader (block 0) block)).rsvd

/-- The block is written for a triple, whatever the buffer held before. -/
def Datagen.Writes (dg : Datagen) (info : HeaderInfo) (block : Buf) : Prop :=
  ∃ base, ∀ i < dg.dataSize,
    block i = datagenSetData dg base info.lba info.timestamp info.pattern i

/-- The body of the block is that of a pattern. -/
def Datagen.HasBody (dg : Datagen) (block : Buf) (pattern : Byte) : Prop :=
  ∀ i < dg.bodySize, block (blockHeaderSize + i) = (dg.patterns pattern.toNat).body i

theorem Datagen.xorRsvd_zero (dg : Datagen) (data : Buf) : dg.xorRsvd data 0 = data := by
  funext i
  simp only [Datagen.xorRsvd]
  split
  · exact BitVec.xor_zero
  · rfl

/-- Whatever was in the buffer before is overwritten. -/
theorem Datagen.Writes.eq (h : dg.Writes info block) (base : Buf) {i : ℕ} (hi : i < dg.dataSize) :
    block i = datagenSetData dg base info.lba info.timestamp info.pattern i := by
  obtain ⟨base', hblock⟩ := h
  have hsame := (hasHeader_and_body_iff dg block info base 0).mp
    ((hasHeader_and_body_iff dg block info base' 0).mpr fun j hj => by
      rw [hblock j hj, Datagen.xorRsvd_zero]) i hi
  rwa [Datagen.xorRsvd_zero] at hsame

/-- **Encode, then decode.** -/
theorem datagenGetHeader_of_writes (h : dg.Writes info block)
    (hp : info.pattern.toNat < dg.npatterns) : datagenGetHeader dg block = some info := by
  obtain ⟨base, hblock⟩ := h
  rw [datagenGetHeader_congr hblock]
  exact datagenGetHeader_setData base hp

/-- The reserved byte that is decoded is the one that stands in the header. -/
theorem decodedRsvd_of_hasHeader {rsvd : Byte} (h : dg.HasHeader block (.withRsvd info rsvd)) :
    decodedRsvd dg block = rsvd := by
  have hpattern : block 0 = info.pattern := h.pattern
  have hbyte : dg.maskHeader info.pattern block 18 = (BlockHeader.withRsvd info rsvd).bytes 18 :=
    dg.maskHeader_eq_iff.mpr (h 18 (by decide)).1
  rw [decodedRsvd, hpattern]
  exact hbyte

/-- **Decode, then encode**: what the decoder accepts was written for what it decodes, if the byte
it does not look at is zero and the body is that of the pattern. -/
theorem writes_of_datagenGetHeader (h : datagenGetHeader dg block = some info)
    (hrsvd : decodedRsvd dg block = 0) (hbody : dg.HasBody block info.pattern) :
    dg.Writes info block := by
  obtain ⟨-, rsvd, hheader⟩ := datagenGetHeader_eq_some.mp h
  obtain rfl : rsvd = 0 := (decodedRsvd_of_hasHeader hheader).symm.trans hrsvd
  refine ⟨fun _ => 0, ?_⟩
  intro i hi
  rw [(hasHeader_and_body_iff dg block info (fun _ => 0) 0).mp ⟨hheader, hbody⟩ i hi,
    Datagen.xorRsvd_zero]

/-- Distinct triples give distinct blocks. -/
theorem info_eq_of_writes (h : dg.Writes info block) (h' : dg.Writes info' block')
    (hp : info.pattern.toNat < dg.npatterns) (hp' : info'.pattern.toNat < dg.npatterns)
    (hsame : ∀ i < dg.dataSize, block i = block' i) : info = info' := by
  have hdecode := datagenGetHeader_of_writes h hp
  rw [datagenGetHeader_congr hsame, datagenGetHeader_of_writes h' hp'] at hdecode
  exact (Option.some.inj hdecode).symm

/-- **Blocks are an encoding** of an LBA, a timestamp and a pattern: what is written is decoded to
it, distinct triples give distinct blocks, and what is decoded was written. -/
theorem datagen_codec (dg : Datagen) :
    (∀ base lba timestamp pattern, pattern.toNat < dg.npatterns →
      datagenGetHeader dg (datagenSetData dg base lba timestamp pattern) =
        some ⟨lba, timestamp, pattern⟩) ∧
    (∀ (base base' : Buf) (info info' : HeaderInfo), info.pattern.toNat < dg.npatterns →
      info'.pattern.toNat < dg.npatterns → info ≠ info' →
      ∃ i < dg.dataSize, datagenSetData dg base info.lba info.timestamp info.pattern i ≠
        datagenSetData dg base' info'.lba info'.timestamp info'.pattern i) ∧
    ∀ block info, datagenGetHeader dg block = some info → decodedRsvd dg block = 0 →
      dg.HasBody block info.pattern → ∀ base, ∀ i < dg.dataSize,
        block i = datagenSetData dg base info.lba info.timestamp info.pattern i := by
  refine ⟨fun base lba timestamp pattern hp => datagenGetHeader_setData base hp,
    fun base base' info info' hp hp' hne => ?_, fun block info hdecode hrsvd hbody base i hi => ?_⟩
  · by_contra hsame
    apply hne
    refine info_eq_of_writes ⟨base, fun _ _ => rfl⟩ ⟨base', fun _ _ => rfl⟩ hp hp' ?_
    intro i hi
    by_contra hi'
    exact hsame ⟨i, hi, hi'⟩
  · exact (writes_of_datagenGetHeader hdecode hrsvd hbody).eq base hi

/-- The generator of a namespace with blocks of 512 bytes and masked headers. -/
def maskedDatagen : Datagen := datagenInit 512 (by decide) true fun _ i => BitVec.ofNat 8 (7 * i)

/-- A block of pattern 3, with a masked header. -/
theorem datagen_codec_masked :
    datagenGetHeader maskedDatagen (datagenSetData maskedDatagen (fun _ => 0) 5 9 3) =
      some ⟨5, 9, 3⟩ :=
  (datagen_codec maskedDatagen).1 (fun _ => 0) 5 9 3 (by decide)

end ChamberSpo

import ChamberSpo.Crc
import ChamberSpo.ProtectionInfo

/-!
# What the guard tag finds

`crc_t10dif_generic` goes through the bytes with a table; bit by bit it is the remainder by the
polynomial `0x8BB7` (`crcT10difGeneric_eq`). So two buffers that differ within 16 consecutive bits
have different checksums, wherever the bits are and however long the buffers
(`crcT10difGeneric_ne_of_burst`), and `datagen_compare_meta` finds such a difference between a block
and the one that its metadata was written for, unless the tags of type 3 switch it off
(`escapes_setMeta`).
-/

namespace ChamberSpo

/-- The polynomial of the T10-DIF checksum, without its first term. -/
def t10DifPoly : BitVec 16 := 0x8BB7

/-- Bit `i` of a buffer, the most significant bit of each byte first. -/
def bitAt (b : Buf) (i : ℕ) : Bool := (b (i / 8)).getMsbD (i % 8)

/-- The bits of the first `n` bytes. -/
def bufBits (b : Buf) (n : ℕ) : List Bool := (List.range (8 * n)).map (bitAt b)

/-! ## The table and the bits -/

theorem shift_t10DifPoly (c : BitVec 16) :
    Crc.shift t10DifPoly c = if c.msb then c <<< 1 ^^^ 0x8BB7 else c <<< 1 := rfl

theorem crcByte_eq_iterate (c : BitVec 16) (n : ℕ) :
    crcByte c n = (Crc.shift t10DifPoly)^[n] c := by
  induction n generalizing c with
  | zero => rfl
  | succ n ih => rw [crcByte, ih, Function.iterate_succ_apply, shift_t10DifPoly]

/-- An entry of the table: eight moves of the byte in the high half. -/
theorem t10DifCrcTable_getD {entry : BitVec 16} (h : entry.toNat < 256) :
    t10DifCrcTable.getD entry.toNat 0 = (Crc.shift t10DifPoly)^[8] (entry <<< 8) := by
  rw [t10DifCrcTable_eq, List.getD_eq_getElem _ _ (by simpa using h), List.getElem_map,
    List.getElem_range, BitVec.ofNat_toNat, BitVec.setWidth_eq, crcByte_eq_iterate]

/-- The bits of a byte stand in the high half of the register. -/
theorem align_byte : ∀ v : Byte,
    Crc.align 16 ((List.range 8).map v.getMsbD) = v.setWidth 16 <<< 8 := by
  decide +kernel

/-- The bits of the low half of the register. -/
theorem getLsbD_low (x : BitVec 16) (i : ℕ) :
    (x &&& 0xff).getLsbD i = (x.getLsbD i && decide (i < 8)) := by
  have hmask : ∀ k : Fin 16, (0xff : BitVec 16).getLsbD k = decide (k.val < 8) := by decide
  rw [BitVec.getLsbD_and]
  by_cases hi : i < 16
  · rw [hmask ⟨i, hi⟩]
  · rw [BitVec.getLsbD_of_ge x i (by omega), Bool.false_and, Bool.false_and]

/-- Moved up by a byte, only the low half is left. -/
theorem low_shiftLeft (x : BitVec 16) : (x &&& 0xff) <<< 8 = x <<< 8 := by
  refine BitVec.eq_of_getLsbD_eq ?_
  intro i hi
  rw [BitVec.getLsbD_shiftLeft, BitVec.getLsbD_shiftLeft, getLsbD_low]
  by_cases hlt : i - 8 < 8
  · simp [hlt]
  · omega

/-- A register and a byte that is added to its high half, taken apart at the middle. -/
theorem xor_byte_eq (crc : BitVec 16) (v : Byte) :
    crc ^^^ v.setWidth 16 <<< 8
      = ((crc >>> 8 ^^^ v.setWidth 16) &&& 0xff) <<< 8 ^^^ (crc &&& 0xff) := by
  rw [low_shiftLeft]
  refine BitVec.eq_of_getLsbD_eq ?_
  intro i hi
  simp only [BitVec.getLsbD_xor, BitVec.getLsbD_shiftLeft, BitVec.getLsbD_ushiftRight, getLsbD_low,
    hi, decide_true, Bool.true_and]
  by_cases hlow : i < 8
  · simp [hlow]
  · simp [hlow, Nat.add_sub_cancel' (Nat.not_lt.mp hlow)]

/-- **One lookup is eight bits.** -/
theorem crc_lookup (crc : BitVec 16) (v : Byte) :
    crc <<< 8 ^^^ t10DifCrcTable.getD ((crc >>> 8 ^^^ v.setWidth 16) &&& 0xff).toNat 0
      = Crc.remainder t10DifPoly crc ((List.range 8).map v.getMsbD) := by
  have hentry : ((crc >>> 8 ^^^ v.setWidth 16) &&& 0xff).toNat < 256 := by
    rw [BitVec.toNat_and]
    exact Nat.lt_succ_of_le Nat.and_le_right
  have hlow : (Crc.shift t10DifPoly)^[8] (crc &&& 0xff) = (crc &&& 0xff) <<< 8 := by
    refine Crc.iterate_shift_of_clear ?_
    intro i hi
    rw [BitVec.getMsbD_eq_getLsbD, getLsbD_low, decide_eq_false (show ¬ 16 - 1 - i < 8 by omega),
      Bool.and_false, Bool.and_false]
  rw [t10DifCrcTable_getD hentry, Crc.remainder_eq _ _ (by simp), align_byte, xor_byte_eq,
    List.length_map, List.length_range, Crc.iterate_shift_xor, hlow, low_shiftLeft crc,
    BitVec.xor_comm]

theorem bufBits_succ (b : Buf) (n : ℕ) :
    bufBits b (n + 1) = (List.range 8).map (b 0).getMsbD ++ bufBits (b.shift 1) n := by
  have hrange : List.range (8 * (n + 1)) = List.range 8 ++ (List.range (8 * n)).map (8 + ·) := by
    rw [show 8 * (n + 1) = 8 + 8 * n by omega, List.range_add]
  rw [bufBits, hrange, List.map_append, List.map_map, bufBits]
  congr 1
  refine List.map_congr_left ?_
  intro i _
  rw [Function.comp_apply, bitAt, bitAt, Buf.shift_apply, show (8 + i) / 8 = 1 + i / 8 by omega,
    Nat.add_mod_left]

/-- **The checksum is the remainder** of the bits of the buffer. -/
theorem crcT10difGeneric_eq (crc : BitVec 16) (b : Buf) (n : ℕ) :
    crcT10difGeneric crc b n = Crc.remainder t10DifPoly crc (bufBits b n) := by
  induction n generalizing crc b with
  | zero => rfl
  | succ n ih => rw [crcT10difGeneric, ih, bufBits_succ, Crc.remainder_append, crc_lookup]

/-! ## Bursts -/

/-- Two buffers of `n` bytes differ, and in no bits but the 16 from bit `k` on. -/
structure Burst (n k : ℕ) (a b : Buf) : Prop where
  differ : ∃ i < 8 * n, bitAt a i ≠ bitAt b i
  within : ∀ i < 8 * n, bitAt a i ≠ bitAt b i → k ≤ i ∧ i < k + 16

/-- The bits before, in, and behind a burst. -/
theorem bufBits_split (b : Buf) (n k : ℕ) :
    bufBits b n = (bufBits b n).take k ++ ((bufBits b n).drop k).take 16 ++
      (bufBits b n).drop (k + 16) := by
  rw [List.append_assoc, ← List.drop_drop, List.take_append_drop, List.take_append_drop]

/-- **A burst changes the checksum**, whatever the register held before. -/
theorem crcT10difGeneric_ne_of_burst {n k : ℕ} {a b : Buf} (h : Burst n k a b) (crc : BitVec 16) :
    crcT10difGeneric crc a n ≠ crcT10difGeneric crc b n := by
  have hget : ∀ (c : Buf) i (hi : i < (bufBits c n).length), (bufBits c n)[i] = bitAt c i := by
    intro c i hi
    simp only [bufBits, List.getElem_map, List.getElem_range]
  have hlen : ∀ c : Buf, (bufBits c n).length = 8 * n := by
    intro c
    rw [bufBits, List.length_map, List.length_range]
  have hsame : ∀ i < 8 * n, i < k ∨ k + 16 ≤ i → bitAt a i = bitAt b i := by
    intro i hi hout
    by_contra hne
    obtain ⟨hk, hk'⟩ := h.within i hi hne
    omega
  have hbefore : (bufBits a n).take k = (bufBits b n).take k := by
    refine List.ext_getElem (by simp [hlen]) ?_
    intro i hi hi'
    rw [List.length_take, hlen] at hi
    rw [List.getElem_take, List.getElem_take, hget, hget]
    exact hsame i (by omega) (.inl (by omega))
  have hafter : (bufBits a n).drop (k + 16) = (bufBits b n).drop (k + 16) := by
    refine List.ext_getElem (by simp [hlen]) ?_
    intro i hi hi'
    rw [List.length_drop, hlen] at hi
    rw [List.getElem_drop, List.getElem_drop, hget, hget]
    exact hsame (k + 16 + i) (by omega) (.inr (by omega))
  have hne : ((bufBits a n).drop k).take 16 ≠ ((bufBits b n).drop k).take 16 := by
    intro heq
    obtain ⟨i, hi, hdiff⟩ := h.differ
    have hall : bufBits a n = bufBits b n := by
      rw [bufBits_split a n k, bufBits_split b n k, hbefore, heq, hafter]
    refine hdiff ?_
    rw [← hget a i (by rwa [hlen]), ← hget b i (by rwa [hlen])]
    simp only [hall]
  rw [crcT10difGeneric_eq, crcT10difGeneric_eq, bufBits_split a n k, bufBits_split b n k, hbefore,
    hafter]
  refine Crc.remainder_ne_of_burst (by decide) crc _ _ ?_ ?_ hne
  · simp [hlen]
  · exact (List.length_take_le ..)

/-! ## The metadata -/

/-- The bytes of a half-word, exchanged twice. -/
theorem htons_htons (x : BitVec 16) : htons (htons x) = x := by
  have hlow : (htons x).extractLsb' 0 8 = x.extractLsb' 8 8 := by
    refine BitVec.eq_of_getLsbD_eq ?_
    intro i hi
    rw [htons, BitVec.getLsbD_extractLsb', Nat.zero_add, BitVec.getLsbD_append]
    simp only [hi, decide_true, Bool.true_and, if_true]
  have hhigh : (htons x).extractLsb' 8 8 = x.extractLsb' 0 8 := by
    refine BitVec.eq_of_getLsbD_eq ?_
    intro i hi
    rw [htons, BitVec.getLsbD_extractLsb', BitVec.getLsbD_append]
    simp [hi]
  rw [htons, hlow, hhigh]
  refine BitVec.eq_of_getLsbD_eq ?_
  intro i hi
  rw [BitVec.getLsbD_append, BitVec.getLsbD_extractLsb', BitVec.getLsbD_extractLsb']
  by_cases hlt : i < 8
  · simp [hlt]
  · simp [hlt, show i - 8 < 8 by omega, Nat.add_sub_cancel' (Nat.not_lt.mp hlt)]

theorem htons_injective : Function.Injective htons := by
  intro x y h
  rw [← htons_htons x, h, htons_htons]

section Meta

variable {dg : Datagen}

/-- The guard that `datagen_set_meta` writes: over the block, and on over the bytes before it. -/
theorem guard_setMeta (h : dg.Layout) (old data : Buf) (lba : BitVec 64) :
    (datagenSetMeta dg old data lba).load 16 dg.piOffset
      = htons (crcT10difGeneric (crcT10difGeneric 0 data dg.dataSize) data dg.piOffset) := by
  have hpi := h.piSize_le
  simp only [datagenSetMeta]
  by_cases hlarge : piSize < dg.metaSize
  · rw [if_pos hlarge]
    by_cases hoff : dg.piOffset = 0
    · -- the bytes that are copied stand behind the protection information
      rw [if_neg (not_not.mpr hoff)]
      have hload : ∀ b : Buf, (b.copy piSize data (dg.metaSize - piSize)).load 16 dg.piOffset
          = (b.load 16 dg.piOffset : BitVec 16) := by
        intro b
        refine Buf.load_congr ?_
        intro i hi
        exact Buf.copy_out (.inl (by rw [hoff, piSize]; omega))
      rw [hload, Buf.load_store (by decide), hoff]
      rfl
    · rw [if_pos hoff, Buf.load_store (by decide)]
      have hload : ∀ b : Buf, (b.copy 0 data dg.piOffset).load 16 dg.piOffset
          = (b.load 16 dg.piOffset : BitVec 16) := by
        intro b
        refine Buf.load_congr ?_
        intro i hi
        exact Buf.copy_out (.inr (by omega))
      have hcopied : ∀ (b : Buf) crc,
          crcT10difGeneric crc (b.copy 0 data dg.piOffset) dg.piOffset
            = crcT10difGeneric crc data dg.piOffset := by
        intro b crc
        refine crcT10difGeneric_congr ?_
        intro i hi
        exact Buf.copy_zero hi
      rw [hload, Buf.load_store (by decide), htons_htons, hcopied]
  · rw [if_neg hlarge, Buf.load_store (by decide)]
    have hoff : dg.piOffset = 0 := by
      rcases h.piOffset with hoff | hoff
      · exact hoff
      · omega
    rw [hoff]
    rfl

/-- The bytes before the protection information are those of the block. -/
theorem setMeta_before (h : dg.Layout) (old data : Buf) (lba : BitVec 64) {i : ℕ}
    (hi : i < dg.piOffset) : datagenSetMeta dg old data lba i = data i := by
  have hpi := h.piSize_le
  have hoff : dg.piOffset ≠ 0 := by omega
  have hlast := h.piOffset.resolve_left hoff
  have hlarge : piSize < dg.metaSize := by omega
  simp only [datagenSetMeta]
  rw [if_pos hlarge, if_pos hoff, Buf.store, Buf.copy_out (.inl hi), Buf.copy_zero hi]

/-- The tags are those of `datagen_set_pi`. -/
theorem setMeta_tags (old data : Buf) (lba : BitVec 64) {i : ℕ}
    (hlow : dg.piOffset + 2 ≤ i) (hhigh : i < dg.piOffset + piSize) :
    datagenSetMeta dg old data lba i = (datagenSetPi dg old dg.piOffset lba).2 i := by
  have hguarded : ∀ (b : Buf) (x : BitVec 16), b.store dg.piOffset x i = b i := by
    intro b x
    exact Buf.copy_out (.inr (by omega))
  simp only [datagenSetMeta]
  by_cases hlarge : piSize < dg.metaSize
  · rw [if_pos hlarge]
    by_cases hoff : dg.piOffset = 0
    · rw [if_neg (not_not.mpr hoff), Buf.copy_out (.inl (by omega)), hguarded]
    · rw [if_pos hoff, hguarded, Buf.copy_out (.inr (by omega)), hguarded]
  · rw [if_neg hlarge, hguarded]

/-- What the tags are, where the type of the protection information is known. -/
theorem load_tags (b : Buf) (off : ℕ) (ref : BitVec 32) (app : BitVec 16) :
    ((b.store (off + 4) ref).store (off + 2) app).load 16 (off + 2) = app ∧
      ((b.store (off + 4) ref).store (off + 2) app).load 32 (off + 4) = ref := by
  refine ⟨Buf.load_store (by decide) .., ?_⟩
  have hload : ((b.store (off + 4) ref).store (off + 2) app).load 32 (off + 4)
      = ((b.store (off + 4) ref).load 32 (off + 4) : BitVec 32) := by
    refine Buf.load_congr ?_
    intro i hi
    exact Buf.copy_out (.inr (by omega))
  rw [hload, Buf.load_store (by decide)]

/-- **When the check is off**: for type 3 alone, and for one LBA in each 2^32. -/
theorem escapes_setMeta (h : dg.Layout) (old data : Buf) (lba : BitVec 64) :
    dg.Escapes (datagenSetMeta dg old data lba) ↔
      dg.piType = 3 ∧ lba.setWidth 32 = (0xFFFFFFFF : BitVec 32) := by
  have happ : (datagenSetMeta dg old data lba).load 16 (dg.piOffset + 2)
      = ((datagenSetPi dg old dg.piOffset lba).2.load 16 (dg.piOffset + 2) : BitVec 16) := by
    refine Buf.load_congr ?_
    intro i hi
    exact setMeta_tags old data lba (by omega) (by rw [piSize]; omega)
  have href : (datagenSetMeta dg old data lba).load 32 (dg.piOffset + 4)
      = ((datagenSetPi dg old dg.piOffset lba).2.load 32 (dg.piOffset + 4) : BitVec 32) := by
    refine Buf.load_congr ?_
    intro i hi
    exact setMeta_tags old data lba (by omega) (by rw [piSize]; omega)
  rw [Datagen.Escapes, happ, href, datagenSetPi]
  rcases h.piType with ht | ht | ht
  · simp only [ht, (load_tags ..).1]
    exact ⟨fun hboth => absurd hboth.1 (by decide), fun hboth => absurd hboth.1 (by decide)⟩
  · simp only [ht, (load_tags ..).1]
    exact ⟨fun hboth => absurd hboth.1 (by decide), fun hboth => absurd hboth.1 (by decide)⟩
  · simp only [ht, (load_tags ..).1, (load_tags ..).2, true_and, forall_const]
    refine ⟨fun hboth => hboth.2, fun hall => ⟨?_, hall⟩⟩
    have hlow : lba.setWidth 16 = (lba.setWidth 32).setWidth 16 :=
      (BitVec.setWidth_setWidth_of_le lba (by decide)).symm
    rw [hlow, hall]
    rfl

/-- **A burst is found**: a block that differs from the one that its metadata was written for, and
within 16 consecutive bits, is not accepted. -/
theorem burst_rejected (h : dg.Layout) {old data data' : Buf} {lba : BitVec 64} {k : ℕ}
    (hburst : Burst dg.dataSize k data data')
    (hesc : ¬ dg.Escapes (datagenSetMeta dg old data lba)) :
    datagenCompareMeta dg (datagenSetMeta dg old data lba) data' lba ≠ 0 := by
  intro hzero
  have hcmp := ((datagenCompareMeta_eq_zero h _ _ _).mp hzero).resolve_left hesc
  rw [memcmp_eq_zero_iff] at hcmp
  have hpi := h.piSize_le
  -- what stands before the protection information is a copy, so the blocks agree there
  have hbefore : ∀ i < dg.piOffset, data i = data' i := by
    intro i hi
    have hlt : i < dg.metaSize := by
      rcases h.piOffset with hoff | hoff <;> omega
    rw [← setMeta_before h old data lba hi, ← setMeta_before h (fun _ => 0) data' lba hi]
    exact (hcmp i hlt).symm
  have hguard : (datagenSetMeta dg old data lba).load 16 dg.piOffset
      = ((datagenSetMeta dg (fun _ => 0) data' lba).load 16 dg.piOffset : BitVec 16) := by
    refine Buf.load_congr ?_
    intro i hi
    refine (hcmp _ ?_).symm
    rw [piSize] at hpi
    rcases h.piOffset with hoff | hoff
    · omega
    · rw [piSize] at hoff
      omega
  rw [guard_setMeta h, guard_setMeta h] at hguard
  have hcrc := htons_injective hguard
  -- and the same bytes have gone into both registers after the blocks
  rw [← crcT10difGeneric_congr hbefore, crcT10difGeneric_eq _ data dg.piOffset,
    crcT10difGeneric_eq _ data dg.piOffset] at hcrc
  exact crcT10difGeneric_ne_of_burst hburst 0 (Crc.remainder_injective (by decide) _ hcrc)

/-- **What the guard tag is for**: the checksum is the remainder by the polynomial, and no burst
leaves it as it is; so of a block that differs from the one that its metadata was written for, and
within 16 consecutive bits, `datagen_compare_meta` accepts none but those at an LBA for which type 3
switches the check off. -/
theorem datagenCompareMeta_burst (h : dg.Layout) {data data' : Buf} {k : ℕ}
    (hburst : Burst dg.dataSize k data data') :
    (∀ crc b n, crcT10difGeneric crc b n = Crc.remainder t10DifPoly crc (bufBits b n)) ∧
      (∀ n j a b, Burst n j a b → ∀ crc, crcT10difGeneric crc a n ≠ crcT10difGeneric crc b n) ∧
      ∀ old lba, datagenCompareMeta dg (datagenSetMeta dg old data lba) data' lba = 0 ↔
        dg.piType = 3 ∧ lba.setWidth 32 = (0xFFFFFFFF : BitVec 32) := by
  refine ⟨crcT10difGeneric_eq, fun n j a b h => crcT10difGeneric_ne_of_burst h, ?_⟩
  intro old lba
  rw [← escapes_setMeta h old data lba]
  constructor
  · intro hzero
    by_contra hesc
    exact burst_rejected h hburst hesc hzero
  · intro hesc
    exact (datagenCompareMeta_eq_zero h _ _ _).mpr (.inl hesc)

end Meta

/-- A block of zeroes with one bit of byte 3 set. -/
def flipped : Buf := fun i => if i = 3 then 0x10 else 0

theorem burst_flipped : Burst 64 24 (fun _ => 0) flipped := by
  have hbits : ∀ i < 8 * 64, bitAt (fun _ => 0) i ≠ bitAt flipped i ↔ i = 27 := by decide +kernel
  refine ⟨⟨27, by decide, (hbits 27 (by decide)).mpr rfl⟩, ?_⟩
  intro i hi hne
  rw [(hbits i hi).mp hne]
  decide

/-- The bit is found at LBA 5, and at the last LBA of type 3 it is not. -/
theorem datagenCompareMeta_burst_flipped :
    datagenCompareMeta lastPi (datagenSetMeta lastPi (fun _ => 0) (fun _ => 0) 5) flipped 5 ≠ 0 ∧
      datagenCompareMeta lastPi (datagenSetMeta lastPi (fun _ => 0) (fun _ => 0) 0xFFFFFFFF) flipped
        0xFFFFFFFF = 0 := by
  refine ⟨?_, ?_⟩
  · intro hzero
    have hcompare := (datagenCompareMeta_burst lastPi_layout burst_flipped).2.2 (fun _ => 0) 5
    exact absurd (hcompare.mp hzero).2 (by decide)
  · exact ((datagenCompareMeta_burst lastPi_layout burst_flipped).2.2 _ 0xFFFFFFFF).mpr ⟨rfl, rfl⟩

end ChamberSpo

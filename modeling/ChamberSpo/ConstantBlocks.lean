import ChamberSpo.Verify

/-!
# Blocks that are all zeroes or all ones

`is_all` compares the first byte of a block over and over. The checks for LBAs that were written
with zeroes, are unwritten or deallocated all rest on it.

* `AllBytes` — what `is_all` is asked for.
* `ConstantChecks` — the checks look at every byte, and at those of the metadata.
* `FirstByteTells` — where the bytes that they look at are right, all bytes are.

`constantChecks_iff` says that the one holds of a block exactly if the other does.
-/

namespace ChamberSpo

/-- Bytes that are all the same. -/
def AllBytes (data : Buf) (val : Byte) (size : ℕ) : Prop := ∀ i < size, data i = val

/-- The byte that `UNWR_READ=VALUE` configures. -/
def UnwrReadValueType.byte : UnwrReadValueType → Byte
  | .zeroes => 0x00
  | .ones => 0xFF

/-- The byte that `DEALLOC_READ=VALUE` configures, if it configures one. -/
def deallocByte (deallocReadValueType : ℕ) : Option Byte :=
  if deallocReadValueType = deallocReadValueTypeZeroes then some 0x00
  else if deallocReadValueType = deallocReadValueTypeOnes then some 0xFF
  else none

/-- The protection information in the metadata of an LBA. -/
def piBytes (iover : Iover) (metadata : Buf) : Buf :=
  if iover.ns.piLoc = 0 then metadata.shift (iover.ns.metaSize - 8) else metadata

/-- The metadata without its protection information. -/
def restBytes (iover : Iover) (metadata : Buf) : Buf :=
  if iover.ns.piLoc = 0 then metadata else metadata.shift 8

/-- The metadata of an unwritten LBA: protection information of ones, and a constant. -/
def UnwrMeta (iover : Iover) (metadata : Buf) (val : Byte) : Prop :=
  if iover.ns.piType ≠ 0 then
    AllBytes (piBytes iover metadata) 0xFF 8 ∧
      AllBytes (restBytes iover metadata) val (iover.ns.metaSize - 8)
  else AllBytes metadata val iover.ns.metaSize

/-- An LBA reads as an unwritten one does. -/
structure UnwrConstant (iover : Iover) (bio : Bio) (lbaOffset : ℕ) (val : Byte) : Prop where
  data : AllBytes (blockData iover bio lbaOffset) val iover.ns.dataSize
  metadata : ∀ metadata, getMetadata iover bio lbaOffset = some metadata →
    UnwrMeta iover metadata val

/-- The bytes of the metadata that the check looks at, where unwritten LBAs read as zeroes. -/
def UnwrMetaLooks (iover : Iover) (metadata : Buf) : Prop :=
  iover.ns.piType ≠ 0 → piBytes iover metadata 0 = 0xFF ∧
    (8 < iover.ns.metaSize → restBytes iover metadata 0 = 0x00)

/-- The bytes that the check of an unwritten LBA looks at are right. -/
def UnwrLooks (iover : Iover) (params : JobParams) (bio : Bio) (lbaOffset : ℕ) : Prop :=
  blockData iover bio lbaOffset 0 = params.unwrReadValueType.byte ∧
    (params.unwrReadValueType = .zeroes → ∀ metadata,
      getMetadata iover bio lbaOffset = some metadata → UnwrMetaLooks iover metadata)

/-- **The checks look at every byte.** -/
structure ConstantChecks (iover : Iover) (params : JobParams) (bio : Bio) (lbaOffset : ℕ)
    (cur : BlockDesc) : Prop where
  writeZeroes : verifyWriteZeroesBlock iover bio lbaOffset = 0 ↔
    AllBytes (blockData iover bio lbaOffset) 0x00 iover.ns.dataSize
  unwritten : params.unwrReadResultType = .value →
    (verifyUnwrittenBlock iover params bio lbaOffset = 0 ↔
      UnwrConstant iover bio lbaOffset params.unwrReadValueType.byte)
  dealloc : ∀ val, deallocByte params.deallocReadValueType = some val →
    ((verifyDeallocBlock iover params bio lbaOffset cur).1 = 0 ↔
      AllBytes (blockData iover bio lbaOffset) val iover.ns.dataSize)

/-- Where the bytes that are looked at are right, so are the others. -/
structure FirstByteTells (iover : Iover) (params : JobParams) (bio : Bio) (lbaOffset : ℕ) :
    Prop where
  writeZeroes : blockData iover bio lbaOffset 0 = 0x00 →
    AllBytes (blockData iover bio lbaOffset) 0x00 iover.ns.dataSize
  unwritten : params.unwrReadResultType = .value → UnwrLooks iover params bio lbaOffset →
    UnwrConstant iover bio lbaOffset params.unwrReadValueType.byte
  dealloc : ∀ val, deallocByte params.deallocReadValueType = some val →
    blockData iover bio lbaOffset 0 = val →
      AllBytes (blockData iover bio lbaOffset) val iover.ns.dataSize

section Checks

variable {iover : Iover} {params : JobParams} {bio : Bio} {lbaOffset : ℕ} {cur : BlockDesc}

theorem dataSize_ne_zero (iover : Iover) : iover.ns.dataSize ≠ 0 := by
  have hle := iover.ns.le_dataSize
  omega

/-- `is_all` of a range that is not empty. -/
theorem isAll_iff_first {data : Buf} {val : Byte} {size : ℕ} (hs : size ≠ 0) :
    isAll data val size = true ↔ data 0 = val := by
  rw [isAll_iff, or_iff_right hs]

theorem isAllZeroes_iff_first {data : Buf} {size : ℕ} (hs : size ≠ 0) :
    isAllZeroes data size = true ↔ data 0 = 0x00 := isAll_iff_first hs

theorem isAllOnes_iff_first {data : Buf} {size : ℕ} (hs : size ≠ 0) :
    isAllOnes data size = true ↔ data 0 = 0xFF := isAll_iff_first hs

theorem AllBytes.first {data : Buf} {val : Byte} {size : ℕ} (h : AllBytes data val size)
    (hs : size ≠ 0) : data 0 = val :=
  h 0 (Nat.pos_of_ne_zero hs)

/-- A check, and what is checked after it. -/
theorem check_and_iff {c : Bool} {rest : Int} :
    (if c = true then rest else -1) = 0 ↔ c = true ∧ rest = 0 := by
  cases c with
  | false => simp
  | true => simp

theorem verifyWriteZeroesBlock_eq_zero_iff :
    verifyWriteZeroesBlock iover bio lbaOffset = 0 ↔ blockData iover bio lbaOffset 0 = 0x00 := by
  rw [verifyWriteZeroesBlock, check_and_iff, isAllZeroes_iff_first (dataSize_ne_zero iover)]
  exact and_iff_left rfl

theorem verifyDeallocBlock_eq_zero_iff {val : Byte}
    (h : deallocByte params.deallocReadValueType = some val) :
    (verifyDeallocBlock iover params bio lbaOffset cur).1 = 0 ↔
      blockData iover bio lbaOffset 0 = val := by
  have hcheck : ∀ c : Bool, (if c = true then (0, cur) else (-1, cur) : Int × BlockDesc).1 = 0 ↔
      c = true := fun c => by cases c <;> simp
  simp only [deallocByte] at h
  simp only [verifyDeallocBlock]
  by_cases hz : params.deallocReadValueType = deallocReadValueTypeZeroes
  · rw [if_pos hz] at h
    obtain rfl := Option.some.inj h
    have hlast : ¬ deallocReadValueTypeZeroes = deallocReadValueTypeLast := by decide
    simp only [hz, if_neg hlast, if_true]
    rw [hcheck, isAllZeroes_iff_first (dataSize_ne_zero iover)]
  · rw [if_neg hz] at h
    by_cases ho : params.deallocReadValueType = deallocReadValueTypeOnes
    · rw [if_pos ho] at h
      obtain rfl := Option.some.inj h
      have hlast : ¬ deallocReadValueTypeOnes = deallocReadValueTypeLast := by decide
      have hzero : ¬ deallocReadValueTypeOnes = deallocReadValueTypeZeroes := by decide
      simp only [ho, if_neg hlast, if_neg hzero, if_true]
      rw [hcheck, isAllOnes_iff_first (dataSize_ne_zero iover)]
    · rw [if_neg ho] at h
      cases h

/-- What the check of the metadata looks at, once the data was looked at. -/
theorem verifyUnwrittenMeta_eq_zero_iff {data metadata : Buf} (hdata : data 0 = 0x00) :
    verifyUnwrittenMeta iover data metadata = 0 ↔ UnwrMetaLooks iover metadata := by
  simp only [verifyUnwrittenMeta, UnwrMetaLooks]
  by_cases hpi : iover.ns.piType ≠ 0
  · simp only [if_pos hpi]
    rw [check_and_iff, isAllOnes_iff_first (by decide)]
    refine Iff.trans ?_ (forall_prop_of_true hpi).symm
    apply and_congr Iff.rfl
    by_cases hsize : 8 < iover.ns.metaSize
    · rw [if_pos hsize, check_and_iff, isAllZeroes_iff_first (by omega)]
      exact ⟨fun h _ => h.1, fun h => ⟨h hsize, rfl⟩⟩
    · rw [if_neg hsize]
      exact ⟨fun _ h => absurd h hsize, fun _ => rfl⟩
  · simp only [if_neg hpi]
    rw [check_and_iff, isAllZeroes_iff_first (dataSize_ne_zero iover)]
    exact ⟨fun _ h => absurd h hpi, fun _ => ⟨hdata, rfl⟩⟩

theorem verifyUnwrittenBlock_eq_zero_iff (h : params.unwrReadResultType = .value) :
    verifyUnwrittenBlock iover params bio lbaOffset = 0 ↔ UnwrLooks iover params bio lbaOffset := by
  simp only [verifyUnwrittenBlock, UnwrLooks]
  rw [if_pos h]
  cases htype : params.unwrReadValueType with
  | zeroes =>
    simp only [true_implies]
    rw [check_and_iff, isAllZeroes_iff_first (dataSize_ne_zero iover)]
    refine and_congr_right ?_
    intro hdata
    cases hmeta : getMetadata iover bio lbaOffset with
    | none => exact ⟨fun _ _ hm => (nomatch hm), fun _ => rfl⟩
    | some metadata =>
      rw [verifyUnwrittenMeta_eq_zero_iff hdata]
      refine ⟨fun hlooks m hm => Option.some.inj hm ▸ hlooks, fun hall => hall metadata rfl⟩
  | ones =>
    simp only
    rw [check_and_iff, isAllOnes_iff_first (dataSize_ne_zero iover)]
    exact and_congr_right fun _ => ⟨fun _ hz => absurd hz (by decide), fun _ => rfl⟩

/-- Right metadata looks right. -/
theorem UnwrMeta.looks {metadata : Buf} (h : UnwrMeta iover metadata 0x00) :
    UnwrMetaLooks iover metadata := by
  intro hpi
  rw [UnwrMeta, if_pos hpi] at h
  exact ⟨h.1.first (by decide), fun hsize => h.2.first (by omega)⟩

/-- A block that is right looks right. -/
theorem UnwrConstant.looks
    (h : UnwrConstant iover bio lbaOffset params.unwrReadValueType.byte) :
    UnwrLooks iover params bio lbaOffset := by
  refine ⟨h.data.first (dataSize_ne_zero iover), ?_⟩
  intro hz metadata hmeta
  have hright := h.metadata metadata hmeta
  rw [hz] at hright
  exact hright.looks

/-- **When the checks look at every byte**: where the bytes that they do look at are wrong, or all
bytes are right. -/
theorem constantChecks_iff (cur : BlockDesc) :
    ConstantChecks iover params bio lbaOffset cur ↔
      FirstByteTells iover params bio lbaOffset := by
  have hsize := dataSize_ne_zero iover
  refine ⟨?_, ?_⟩
  · intro h
    refine ⟨?_, ?_, ?_⟩
    · intro hfirst
      exact h.writeZeroes.mp (verifyWriteZeroesBlock_eq_zero_iff.mpr hfirst)
    · intro hvalue hlooks
      exact (h.unwritten hvalue).mp ((verifyUnwrittenBlock_eq_zero_iff hvalue).mpr hlooks)
    · intro val hval hfirst
      exact (h.dealloc val hval).mp ((verifyDeallocBlock_eq_zero_iff hval).mpr hfirst)
  · intro h
    refine ⟨?_, ?_, ?_⟩
    · rw [verifyWriteZeroesBlock_eq_zero_iff]
      exact ⟨h.writeZeroes, fun hall => hall.first hsize⟩
    · intro hvalue
      rw [verifyUnwrittenBlock_eq_zero_iff hvalue]
      exact ⟨h.unwritten hvalue, fun hright => hright.looks⟩
    · intro val hval
      rw [verifyDeallocBlock_eq_zero_iff hval]
      exact ⟨h.dealloc val hval, fun hall => hall.first hsize⟩

/-- **A block of which the first byte is zero passes for a block of zeroes.** -/
theorem not_constantChecks_second :
    ¬ ConstantChecks (.plain ⟨0, .zeroes, 0, 0⟩) .plain
      (.plain .read 0 1 fun i => if i = 0 then 0 else 1) 0 ⟨0, .zeroes, 0, 0⟩ := by
  intro h
  have haccepts : verifyWriteZeroesBlock (.plain ⟨0, .zeroes, 0, 0⟩)
      (.plain .read 0 1 fun i => if i = 0 then 0 else 1) 0 = 0 := by
    rw [verifyWriteZeroesBlock_eq_zero_iff, blockData_plain]
    rfl
  have hsecond := h.writeZeroes.mp haccepts 1 (by decide)
  rw [blockData_plain] at hsecond
  exact absurd hsecond (by decide)

end Checks

end ChamberSpo

import ChamberSpo.Datagen

/-!
# Protection information

What `datagen_set_meta` writes and what `datagen_compare_meta` accepts, for the layouts of the
metadata that a namespace can have.

* `Datagen.Layout` — protection information in the first or the last bytes of metadata that fit
  the scratch buffer of `datagen_compare_meta`.
* `Datagen.Escapes` — the tags that switch the check off.
* `datagenMeta_exact` — exactly the metadata is written, and what is accepted is what would be
  written, or has the escape tags.
-/

namespace ChamberSpo

/-- The size of `expect` in `datagen_compare_meta`. -/
def expectSize : ℕ := 64

namespace Datagen

/-- Protection information of a known type, in the first or the last bytes of the metadata. -/
structure Layout (dg : Datagen) : Prop where
  piType : dg.piType = 1 ∨ dg.piType = 2 ∨ dg.piType = 3
  piSize_le : piSize ≤ dg.metaSize
  metaSize_le : dg.metaSize ≤ expectSize
  metaSize_le_dataSize : dg.metaSize ≤ dg.dataSize
  piOffset : dg.piOffset = 0 ∨ dg.piOffset = dg.metaSize - piSize

/-- Tags that are not checked. -/
def Escapes (dg : Datagen) (metadata : Buf) : Prop :=
  metadata.load 16 (dg.piOffset + 2) = (0xFFFF : BitVec 16) ∧
    (dg.piType = 3 → metadata.load 32 (dg.piOffset + 4) = (0xFFFFFFFF : BitVec 32))

end Datagen

variable {dg : Datagen}

/-- The tags are written. -/
theorem writes_setPi (h : dg.Layout) (off : ℕ) (lba : BitVec 64) :
    Buf.Writes (fun metadata => (datagenSetPi dg metadata off lba).2)
      fun i => off + 2 ≤ i ∧ i < off + piSize := by
  have htags : ∀ (ref : BitVec 32) (app : BitVec 16),
      Buf.Writes (fun metadata : Buf => (metadata.store (off + 4) ref).store (off + 2) app)
        fun i => off + 2 ≤ i ∧ i < off + piSize := fun ref app => by
    refine ((Buf.Writes.id.store (off + 4) ref).store (off + 2) app).congr ?_
    intro i
    simp only [piSize, false_or]
    omega
  simp only [datagenSetPi]
  rcases h.piType with ht | ht | ht
  · rw [ht]
    exact htags _ _
  · rw [ht]
    exact htags _ _
  · rw [ht]
    exact htags _ _

/-- The guard that is written last covers what stands before it, and continues the one before. -/
theorem guard_congr {a b : Buf} {off : ℕ} (h : ∀ i < off + 2, a i = b i) :
    htons (crcT10difGeneric (htons (a.load 16 off)) a off) =
      htons (crcT10difGeneric (htons (b.load 16 off)) b off) := by
  have hload : a.load 16 off = b.load 16 off :=
    Buf.load_congr fun i hi => h (off + i) (by omega)
  have hcrc : ∀ crc, crcT10difGeneric crc a off = crcT10difGeneric crc b off := fun _ =>
    crcT10difGeneric_congr fun i hi => h i (by omega)
  rw [hload, hcrc]

/-- **What `datagen_set_meta` writes**: the metadata, and nothing else. -/
theorem writes_setMeta (h : dg.Layout) (data : Buf) (lba : BitVec 64) :
    Buf.Writes (fun metadata => datagenSetMeta dg metadata data lba) fun i => i < dg.metaSize := by
  have hpi := h.piSize_le
  have hguarded := (writes_setPi h dg.piOffset lba).store dg.piOffset
    (htons (crcT10difGeneric 0 data dg.dataSize))
  simp only [datagenSetMeta]
  by_cases hlarge : piSize < dg.metaSize
  · by_cases hoff : dg.piOffset = 0
    · simp only [if_pos hlarge, hoff, ne_eq, not_true, if_false]
      rw [hoff] at hguarded
      refine (hguarded.copy piSize data (dg.metaSize - piSize)).congr ?_
      intro i
      simp only [piSize] at hpi ⊢
      omega
    · -- the bytes before the protection information, and a guard that covers them
      simp only [if_pos hlarge, ne_eq, hoff, not_false_eq_true, if_true]
      have hcopied := hguarded.copy 0 data dg.piOffset
      have hlast := h.piOffset.resolve_left hoff
      refine (hcopied.storeOf dg.piOffset (fun copied =>
        htons (crcT10difGeneric (htons (copied.load 16 dg.piOffset)) copied dg.piOffset))
        fun a b => guard_congr fun i hi => hcopied.inside a b i ?_).congr fun i => ?_
      · omega
      · simp only [piSize] at hpi hlast ⊢
        omega
  · simp only [if_neg hlarge]
    have hsize : dg.metaSize = piSize := Nat.le_antisymm (Nat.not_lt.mp hlarge) hpi
    have hoff : dg.piOffset = 0 := h.piOffset.elim (fun hoff => hoff) fun hoff => by
      rw [hoff, hsize, Nat.sub_self]
    refine hguarded.congr ?_
    intro i
    simp only [piSize] at hsize ⊢
    omega

/-- Only type 3 looks at the reference tag. -/
theorem Datagen.escapes_iff (hne : dg.piType ≠ 3) (metadata : Buf) :
    dg.Escapes metadata ↔ metadata.load 16 (dg.piOffset + 2) = (0xFFFF : BitVec 16) :=
  ⟨fun h => h.1, fun h => ⟨h, fun hthree => absurd hthree hne⟩⟩

/-- `datagen_compare_meta` compares unless the tags say not to. -/
theorem datagenCompareMeta_eq_zero (h : dg.Layout) (metadata data : Buf) (lba : BitVec 64) :
    datagenCompareMeta dg metadata data lba = 0 ↔
      dg.Escapes metadata ∨
        memcmp (datagenSetMeta dg (fun _ => 0) data lba) metadata dg.metaSize = 0 := by
  have hite : ∀ {p : Prop} [Decidable p] (c : Int), (if p then 0 else c) = 0 ↔ p ∨ c = 0 := by
    intro p _ c
    rw [ite_eq_left_iff, or_iff_not_imp_left]
  rcases h.piType with ht | ht | ht
  · rw [Datagen.escapes_iff (by rw [ht]; decide), ← hite]
    simp only [datagenCompareMeta, ht]
  · rw [Datagen.escapes_iff (by rw [ht]; decide), ← hite]
    simp only [datagenCompareMeta, ht]
  · have hesc : dg.Escapes metadata ↔ metadata.load 16 (dg.piOffset + 2) = (0xFFFF : BitVec 16) ∧
        metadata.load 32 (dg.piOffset + 4) = (0xFFFFFFFF : BitVec 32) :=
      and_congr_right fun _ => ⟨fun himp => himp ht, fun href _ => href⟩
    rw [hesc, ← hite]
    simp only [datagenCompareMeta, ht]

/-- **Metadata is exact**: `datagen_set_meta` writes all of it, whatever was there before, and
nothing else, neither of a buffer nor behind the scratch buffer; `datagen_compare_meta` accepts
what would be written, and the escape tags. -/
theorem datagenMeta_exact (h : dg.Layout) (data : Buf) (lba : BitVec 64) :
    Buf.Writes (fun metadata => datagenSetMeta dg metadata data lba) (fun i => i < dg.metaSize) ∧
      (∀ expect : Buf, ∀ i ≥ expectSize, datagenSetMeta dg expect data lba i = expect i) ∧
      ∀ metadata old : Buf, datagenCompareMeta dg metadata data lba = 0 ↔
        (∀ i < dg.metaSize, metadata i = datagenSetMeta dg old data lba i) ∨
          dg.Escapes metadata := by
  have hwrites := writes_setMeta h data lba
  refine ⟨hwrites, ?_, ?_⟩
  · intro expect i hi
    have hle := h.metaSize_le
    exact hwrites.outside expect i (by omega)
  · intro metadata old
    rw [datagenCompareMeta_eq_zero h, memcmp_eq_zero_iff, or_comm]
    refine or_congr_left (forall₂_congr ?_)
    intro i hi
    have hsame : datagenSetMeta dg (fun _ => 0) data lba i = datagenSetMeta dg old data lba i :=
      hwrites.inside _ old i hi
    rw [hsame]
    exact eq_comm

/-- A generator for blocks of 64 bytes with 16 bytes of metadata, of which the last 8 are
protection information of type 3. -/
def lastPi : Datagen :=
  { datagenInit 64 (by decide) false fun _ _ => 0 with metaSize := 16, piOffset := 8, piType := 3 }

theorem lastPi_layout : lastPi.Layout :=
  ⟨by decide, by decide, by decide, by decide, by decide⟩

/-- What it writes for a block of zeroes and LBA 5 is accepted, and reaches up to byte 16. -/
theorem datagenMeta_exact_lastPi :
    datagenCompareMeta lastPi (datagenSetMeta lastPi (fun _ => 0xFF) (fun _ => 0) 5) (fun _ => 0) 5
        = 0 ∧
      datagenSetMeta lastPi (fun _ => 0xFF) (fun _ => 0) 5 16 = 0xFF := by
  obtain ⟨hwrites, -, haccepts⟩ := datagenMeta_exact lastPi_layout (fun _ => 0) 5
  refine ⟨(haccepts _ fun _ => 0xFF).mpr (.inl fun _ _ => rfl), ?_⟩
  exact hwrites.outside (fun _ => 0xFF) 16 (by decide)

end ChamberSpo

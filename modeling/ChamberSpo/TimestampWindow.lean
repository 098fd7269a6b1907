import ChamberSpo.Verify

/-!
# Timestamps when LBAs overlap

A read that overlaps with writes may find any timestamp that was given out between its issue and
its completion. Timestamps have 16 bits, so this is a window on a circle.

* `InWindow` — a timestamp is in the window from one to another.
* `verifyBlockHeader_overlap` — the check, in terms of the three timestamps.

`overlap_window_iff` says when the check and the window agree: unless the counter has wrapped around
and the timestamp is in the gap, where the check accepts it.
-/

namespace ChamberSpo

/-- `r` is on the way from `i` to `c`, counting up and around. -/
def InWindow {w : ℕ} (i c r : BitVec w) : Prop := r - i ≤ c - i

instance {w : ℕ} (i c r : BitVec w) : Decidable (InWindow i c r) :=
  inferInstanceAs (Decidable (r - i ≤ c - i))

section Window

variable {i c r : BitVec 16}

/-- A window that does not wrap around is an interval. -/
theorem inWindow_of_le (h : i ≤ c) : InWindow i c r ↔ i ≤ r ∧ r ≤ c := by
  simp only [InWindow]
  bv_omega

/-- A window that wraps around is all but a gap. -/
theorem inWindow_of_lt (h : c < i) : InWindow i c r ↔ ¬ (c < r ∧ r < i) := by
  simp only [InWindow]
  bv_omega

/-- The end is in the window. -/
theorem inWindow_end (i c : BitVec 16) : InWindow i c c := BitVec.le_refl _

/-- **What the comparison accepts**: a window that does not wrap around, or anything. -/
theorem overlapAccepts_iff {issue cur : BlockDesc} :
    overlapAccepts issue cur r = true ↔
      (issue.timestamp ≤ cur.timestamp → InWindow issue.timestamp cur.timestamp r) := by
  simp only [overlapAccepts]
  split
  · rename_i hle
    rw [inWindow_of_le hle, Bool.and_eq_true, decide_eq_true_iff, decide_eq_true_iff]
    exact ⟨fun h _ => h, fun h => h hle⟩
  · rename_i hlt
    -- a `u16` is not greater than `U16_MAX` and something
    have hbound : ¬ cur.timestamp.toNat + (2 ^ 16 - 1) < r.toNat := by
      have hr := r.isLt
      omega
    simp only [hbound, decide_false, Bool.and_false, Bool.not_false, true_iff]
    exact fun hle => absurd hle hlt

end Window

section Header

variable {iover : Iover} {params : JobParams} {bio : Bio} {lbaOffset : ℕ} {cur : BlockDesc}
  {info : HeaderInfo}

/-- **The check of a block header with overlap**, where the LBA is right. -/
theorem verifyBlockHeader_overlap (ho : params.lbaOverlap = true)
    (hdec : datagenGetHeader iover.datagen (blockData iover bio lbaOffset) = some info)
    (hlba : info.lba = BitVec.ofNat 64 (bio.slba + lbaOffset)) :
    (verifyBlockHeader iover params bio lbaOffset cur).isSome = true ↔
      info.timestamp.setWidth 16 = cur.timestamp ∨
        overlapAccepts (bio.blockDesc lbaOffset) cur (info.timestamp.setWidth 16) = true := by
  simp only [verifyBlockHeader, hdec, hlba, ho, ne_eq, not_true_eq_false, if_false, true_and]
  by_cases htime : info.timestamp.setWidth 16 = cur.timestamp
  · simp [htime]
  · by_cases haccepts : overlapAccepts (bio.blockDesc lbaOffset) cur
        (info.timestamp.setWidth 16) = true
    · simp [htime, haccepts]
    · simp [htime, haccepts]

/-- **When the check is the window**: unless the counter wrapped around and the timestamp is in the
gap that the window leaves. -/
theorem overlap_window_iff (ho : params.lbaOverlap = true)
    (hdec : datagenGetHeader iover.datagen (blockData iover bio lbaOffset) = some info)
    (hlba : info.lba = BitVec.ofNat 64 (bio.slba + lbaOffset)) :
    ((verifyBlockHeader iover params bio lbaOffset cur).isSome = true ↔
        InWindow (bio.blockDesc lbaOffset).timestamp cur.timestamp
          (info.timestamp.setWidth 16)) ↔
      ¬ (cur.timestamp < info.timestamp.setWidth 16 ∧
        info.timestamp.setWidth 16 < (bio.blockDesc lbaOffset).timestamp) := by
  rw [verifyBlockHeader_overlap ho hdec hlba, overlapAccepts_iff]
  generalize info.timestamp.setWidth 16 = r
  by_cases hle : (bio.blockDesc lbaOffset).timestamp ≤ cur.timestamp
  · have hgap : ¬ (cur.timestamp < r ∧ r < (bio.blockDesc lbaOffset).timestamp) := by
      bv_omega
    refine ⟨fun _ => hgap, fun _ => ⟨?_, fun h => .inr fun _ => h⟩⟩
    rintro (rfl | h)
    · exact inWindow_end _ _
    · exact h hle
  · rw [inWindow_of_lt (BitVec.not_le.mp hle)]
    exact ⟨fun h => h.mp (.inr fun h' => absurd h' hle), fun h => ⟨fun _ => h, fun _ =>
      .inr fun h' => absurd h' hle⟩⟩

end Header

/-! ## A counter that wrapped around -/

/-- A read of LBA 0 that was issued at a timestamp. -/
def overlapRead (issue read : BitVec 16) : Bio :=
  { Bio.plain .read 0 1 (datagenSetData (Iover.plain ⟨0, .data, 0, 0⟩).datagen (fun _ => 0) 0
      (read.setWidth 64) 0) with
    blockDesc := fun _ => ⟨issue, .data, 0, 0⟩ }

/-- A job whose LBAs may overlap. -/
def overlapParams : JobParams := { JobParams.plain with lbaOverlap := true }

theorem datagenGetHeader_overlapRead (issue read : BitVec 16) :
    datagenGetHeader (Iover.plain ⟨0, .data, 0, 0⟩).datagen
        (blockData (.plain ⟨0, .data, 0, 0⟩) (overlapRead issue read) 0) =
      some ⟨0, read.setWidth 64, 0⟩ := by
  have hdata : blockData (.plain ⟨0, .data, 0, 0⟩) (overlapRead issue read) 0 =
      datagenSetData (Iover.plain ⟨0, .data, 0, 0⟩).datagen (fun _ => 0) 0 (read.setWidth 64) 0 :=
    blockData_plain _ .read 0 1 _
  rw [hdata]
  exact datagenGetHeader_setData _ (by decide)

/-- A timestamp in between is accepted, also after a wrap, and one from before the read was issued
is not. -/
theorem verifyBlockHeader_window :
    (verifyBlockHeader (.plain ⟨0, .data, 0, 0⟩) overlapParams (overlapRead 65000 65001) 0
        ⟨5, .data, 0, 0⟩).isSome = true ∧
      (verifyBlockHeader (.plain ⟨0, .data, 0, 0⟩) overlapParams (overlapRead 10 5) 0
        ⟨20, .data, 0, 0⟩).isSome = false := by
  have hin := (@overlap_window_iff (.plain ⟨0, .data, 0, 0⟩) overlapParams (overlapRead 65000 65001)
    0 ⟨5, .data, 0, 0⟩ _ rfl (datagenGetHeader_overlapRead 65000 65001) rfl).mpr (by decide)
  have hout := (@overlap_window_iff (.plain ⟨0, .data, 0, 0⟩) overlapParams (overlapRead 10 5)
    0 ⟨20, .data, 0, 0⟩ _ rfl (datagenGetHeader_overlapRead 10 5) rfl).mpr (by decide)
  refine ⟨hin.mpr (by decide), Bool.eq_false_iff.mpr fun h => ?_⟩
  exact absurd (hout.mp h) (by decide)

/-- **After a wrap, a timestamp that was not given out is accepted**: issued at 65000, completed at
5, and read with timestamp 100. -/
theorem verifyBlockHeader_accepts_gap :
    (verifyBlockHeader (.plain ⟨0, .data, 0, 0⟩) overlapParams (overlapRead 65000 100) 0
        ⟨5, .data, 0, 0⟩).isSome = true ∧ ¬ InWindow (65000 : BitVec 16) 5 100 := by
  refine ⟨?_, ?_⟩
  · rw [verifyBlockHeader_overlap rfl (datagenGetHeader_overlapRead 65000 100) rfl,
      overlapAccepts_iff]
    exact .inr fun hle => absurd (hle : (65000 : BitVec 16) ≤ 5) (by decide)
  · decide

end ChamberSpo

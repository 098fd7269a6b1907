import ChamberSpo.ConstantBlocks

/-!
# Checking a replayed record

`verify_hist_read` reads an LBA that a command may or may not have reached before the power was
lost. What was read has to agree with the descriptor of the LBA or with the one that its record
says comes next.

* `DescMatches` — what an LBA with a descriptor reads as.
* `ReplayRight` — what is accepted matches one of the two, and the descriptor moves on if it is
  the second.
* `CurrLooks`, `NextLooks` — what the check looks at in the data.

`replayRight_iff` says that the check is right where what looks right is right.
-/

namespace ChamberSpo

/-- What was read is what an LBA with the descriptor `d` reads as. The result type of `UNWR_READ` says
whether an unwritten LBA has a value at all; a deallocated one always has that of `DEALLOC_READ`, as
the verifier does not know a result type for it. -/
def DescMatches (iover : Iover) (params : JobParams) (bio : Bio) (lbaOffset : ℕ)
    (d : BlockDesc) : Prop :=
  match d.state with
  | .unwritten =>
    match params.unwrReadResultType with
    | .dontcare | .auto => True
    | .error => False
    | .value => UnwrConstant iover bio lbaOffset params.unwrReadValueType.byte
  | .dealloc => ∀ val, deallocByte params.deallocReadValueType = some val →
      AllBytes (blockData iover bio lbaOffset) val iover.ns.dataSize
  -- a read of it fails
  | .uncor => False
  | .data => verifyDataLba iover params bio lbaOffset d = 0
  | .zeroes => AllBytes (blockData iover bio lbaOffset) 0x00 iover.ns.dataSize
  | .undef _ => False

/-- **The check of a replayed LBA is right.** -/
structure ReplayRight (iover : Iover) (params : JobParams) (bio : Bio) (out : Int × Iover) :
    Prop where
  res : out.1 = 0 ↔ DescMatches iover params bio 0 (iover.blockDesc bio.slba) ∨
    DescMatches iover params bio 0 (iover.histDesc bio.histIdx).next
  forward : DescMatches iover params bio 0 (iover.histDesc bio.histIdx).next →
    ¬ DescMatches iover params bio 0 (iover.blockDesc bio.slba) →
      out.2.blockDesc
        = Function.update iover.blockDesc bio.slba (iover.histDesc bio.histIdx).next
  unchanged : ¬ (DescMatches iover params bio 0 (iover.histDesc bio.histIdx).next ∧
      ¬ DescMatches iover params bio 0 (iover.blockDesc bio.slba)) →
    out.2.blockDesc = iover.blockDesc

/-- What `verify_bio_read` looks at agrees with the descriptor of the LBA. -/
def CurrLooks (iover : Iover) (params : JobParams) (bio : Bio) : Prop :=
  overlapSkips params bio 0 = true ∨
    match (iover.blockDesc bio.slba).state with
    | .unwritten => params.unwrReadResultType = .value → UnwrLooks iover params bio 0
    | .dealloc => deallocByte params.deallocReadValueType = some (blockData iover bio 0 0)
    | .data => verifyDataLba iover params bio 0 (iover.blockDesc bio.slba) = 0
    | .uncor | .zeroes | .undef _ => True

/-- What `verify_hist_read` looks at after that agrees with the record. -/
def NextLooks (iover : Iover) (params : JobParams) (bio : Bio) : Prop :=
  match (iover.histDesc bio.histIdx).next.state with
  | .unwritten => params.unwrReadResultType = .value → UnwrLooks iover params bio 0
  | .dealloc => deallocByte params.deallocReadValueType = some (blockData iover bio 0 0)
  | .data => verifyBlockData iover params bio 0 (iover.histDesc bio.histIdx).next = 0
  | .zeroes => blockData iover bio 0 0 = 0x00
  | .uncor | .undef _ => True

section Replay

variable {iover : Iover} {params : JobParams} {bio : Bio} {lbaOffset : ℕ} {val : Byte}

theorem verifyUnwrittenBlock_eq_zero_iff_looks :
    verifyUnwrittenBlock iover params bio lbaOffset = 0 ↔
      (params.unwrReadResultType = .value → UnwrLooks iover params bio lbaOffset) := by
  by_cases hvalue : params.unwrReadResultType = .value
  · rw [verifyUnwrittenBlock_eq_zero_iff hvalue]
    exact ⟨fun h _ => h, fun h => h hvalue⟩
  · rw [verifyUnwrittenBlock, if_neg hvalue]
    exact ⟨fun _ h => absurd h hvalue, fun _ => rfl⟩

theorem verifyDeallocBlock_eq_zero_iff_looks {cur : BlockDesc}
    (hval : deallocByte params.deallocReadValueType = some val) :
    (verifyDeallocBlock iover params bio lbaOffset cur).1 = 0 ↔
      deallocByte params.deallocReadValueType = some (blockData iover bio lbaOffset 0) := by
  rw [verifyDeallocBlock_eq_zero_iff hval, hval, Option.some.injEq]
  exact eq_comm

/-- Where a value is configured, the descriptor of a deallocated LBA stays as it is. -/
theorem verifyDeallocBlock_snd {cur : BlockDesc}
    (hval : deallocByte params.deallocReadValueType = some val) :
    (verifyDeallocBlock iover params bio lbaOffset cur).2 = cur := by
  simp only [verifyDeallocBlock]
  by_cases hlast : params.deallocReadValueType = deallocReadValueTypeLast
  · simp only [if_pos hlast]
  · by_cases hz : params.deallocReadValueType = deallocReadValueTypeZeroes
    · simp only [if_neg hlast, if_pos hz]
      split <;> rfl
    · by_cases ho : params.deallocReadValueType = deallocReadValueTypeOnes
      · simp only [if_neg hlast, if_neg hz, if_pos ho]
        split <;> rfl
      · rw [deallocByte, if_neg hz, if_neg ho] at hval
        cases hval

/-- `verify_bio_read` of one LBA. -/
theorem verifyBioRead_eq_zero_iff_looks (hn : bio.nlbs = 1)
    (hval : deallocByte params.deallocReadValueType = some val) :
    verifyBioRead iover params bio = 0 ↔ CurrLooks iover params bio := by
  have hread : verifyBioRead iover params bio = verifyBioReadStep iover params bio 0 0 := by
    rw [verifyBioRead, hn]
    rfl
  have hacc : ∀ res : Int, accumulate 0 res = 0 ↔ res = 0 := by
    intro res
    have hne : accumulate 0 res ≠ 0 ↔ (0 : Int) ≠ 0 ∨ res ≠ 0 := accumulate_ne_zero_iff
    simpa using not_congr hne
  rw [hread, verifyBioReadStep, CurrLooks]
  by_cases hskip : overlapSkips params bio 0 = true
  · simp [hskip]
  · rw [if_neg hskip, or_iff_right hskip]
    simp only [Nat.add_zero]
    cases (iover.blockDesc bio.slba).state with
    | unwritten => exact (hacc _).trans verifyUnwrittenBlock_eq_zero_iff_looks
    | dealloc => exact (hacc _).trans (verifyDeallocBlock_eq_zero_iff_looks hval)
    | data => exact hacc _
    | uncor => simp
    | zeroes => simp
    | undef k => simp

/-- The check of the record of one LBA. -/
theorem verifyHistDesc_iff_looks (iover : Iover) (bio : Bio)
    (hval : deallocByte params.deallocReadValueType = some val) :
    ((verifyHistDesc iover params bio 0 0 (iover.histDesc bio.histIdx).next).1 = 0 ↔
        NextLooks iover params bio) ∧
      (verifyHistDesc iover params bio 0 0 (iover.histDesc bio.histIdx).next).2
        = (iover.histDesc bio.histIdx).next := by
  simp only [verifyHistDesc, NextLooks]
  cases (iover.histDesc bio.histIdx).next.state with
  | unwritten => exact ⟨verifyUnwrittenBlock_eq_zero_iff_looks, rfl⟩
  | dealloc => exact ⟨verifyDeallocBlock_eq_zero_iff_looks hval, verifyDeallocBlock_snd hval⟩
  | data => exact ⟨Iff.rfl, rfl⟩
  | zeroes => exact ⟨verifyWriteZeroesBlock_eq_zero_iff, rfl⟩
  | uncor => simp
  | undef k => simp

/-- **What `verify_hist_read` does** with one LBA. -/
theorem verifyHistRead_one (iover : Iover) (hn : bio.nlbs = 1)
    (hval : deallocByte params.deallocReadValueType = some val) :
    ((verifyHistRead iover params bio).1 = 0 ↔
        CurrLooks iover params bio ∨ NextLooks iover params bio) ∧
      (¬ CurrLooks iover params bio → NextLooks iover params bio →
        (verifyHistRead iover params bio).2.blockDesc
          = Function.update iover.blockDesc bio.slba (iover.histDesc bio.histIdx).next) ∧
      (CurrLooks iover params bio ∨ ¬ NextLooks iover params bio →
        (verifyHistRead iover params bio).2.blockDesc = iover.blockDesc) := by
  have hcurr : verifyBioRead iover params bio = 0 ↔ CurrLooks iover params bio :=
    verifyBioRead_eq_zero_iff_looks hn hval
  obtain ⟨hnext, hdesc⟩ := verifyHistDesc_iff_looks iover bio hval
  rw [verifyHistRead]
  by_cases hlooks : CurrLooks iover params bio
  · rw [if_pos (hcurr.mpr hlooks)]
    exact ⟨⟨fun _ => .inl hlooks, fun _ => rfl⟩, fun h => absurd hlooks h, fun _ => rfl⟩
  · rw [if_neg fun h => hlooks (hcurr.mp h), hn]
    simp only [List.range_one, List.foldl_cons, List.foldl_nil, verifyHistReadStep, hdesc,
      Nat.add_zero]
    by_cases hright : NextLooks iover params bio
    · have hzero := hnext.mpr hright
      simp only [hzero, forwardFix]
      exact ⟨⟨fun _ => .inr hright, fun _ => rfl⟩, fun _ _ => rfl,
        fun h => absurd hright (h.resolve_left hlooks)⟩
    · have hne : (verifyHistDesc iover params bio 0 0 (iover.histDesc bio.histIdx).next).1 ≠ 0 :=
        fun h => hright (hnext.mp h)
      simp only [if_pos hne, forwardFix, if_neg hne]
      refine ⟨⟨fun h => absurd h (by decide), ?_⟩, fun _ h => absurd h hright, fun _ => trivial⟩
      intro h
      exact absurd h (not_or.mpr ⟨hlooks, hright⟩)

/-! ## What matches looks right -/

theorem unwritten_looks (h : match params.unwrReadResultType with
      | .dontcare | .auto => True
      | .error => False
      | .value => UnwrConstant iover bio lbaOffset params.unwrReadValueType.byte) :
    params.unwrReadResultType = .value → UnwrLooks iover params bio lbaOffset := by
  intro hvalue
  rw [hvalue] at h
  exact h.looks

theorem dealloc_looks (hval : deallocByte params.deallocReadValueType = some val)
    (h : ∀ val, deallocByte params.deallocReadValueType = some val →
      AllBytes (blockData iover bio lbaOffset) val iover.ns.dataSize) :
    deallocByte params.deallocReadValueType = some (blockData iover bio lbaOffset 0) := by
  rw [(h val hval).first (dataSize_ne_zero iover)]
  exact hval

theorem DescMatches.currLooks (hval : deallocByte params.deallocReadValueType = some val)
    (h : DescMatches iover params bio 0 (iover.blockDesc bio.slba)) :
    CurrLooks iover params bio := by
  apply Or.inr
  simp only [DescMatches] at h
  cases hstate : (iover.blockDesc bio.slba).state with
  | unwritten =>
    simp only [hstate] at h
    exact unwritten_looks h
  | dealloc =>
    simp only [hstate] at h
    exact dealloc_looks hval h
  | data =>
    simp only [hstate] at h
    exact h
  | uncor => trivial
  | zeroes => trivial
  | undef k => trivial

theorem DescMatches.nextLooks (hval : deallocByte params.deallocReadValueType = some val)
    (h : DescMatches iover params bio 0 (iover.histDesc bio.histIdx).next) :
    NextLooks iover params bio := by
  simp only [DescMatches] at h
  simp only [NextLooks]
  cases hstate : (iover.histDesc bio.histIdx).next.state with
  | unwritten =>
    simp only [hstate] at h
    exact unwritten_looks h
  | dealloc =>
    simp only [hstate] at h
    exact dealloc_looks hval h
  | data =>
    -- the metadata is only looked at where the data is right
    simp only [hstate] at h
    by_contra hbad
    exact verifyDataLba_ne_zero_iff.mpr (.inl hbad) h
  | uncor => trivial
  | zeroes =>
    simp only [hstate] at h
    exact h.first (dataSize_ne_zero iover)
  | undef k => trivial

end Replay

/-- **When the check of a replayed LBA is right**: what looks right to `verify_bio_read` matches
the descriptor of the LBA, and what does not, but then looks right for the record, matches the
record. -/
theorem replayRight_iff {iover : Iover} {params : JobParams} {bio : Bio} {val : Byte}
    (hn : bio.nlbs = 1) (hval : deallocByte params.deallocReadValueType = some val) :
    ReplayRight iover params bio (verifyHistRead iover params bio) ↔
      (CurrLooks iover params bio → DescMatches iover params bio 0 (iover.blockDesc bio.slba)) ∧
        (¬ CurrLooks iover params bio → NextLooks iover params bio →
          DescMatches iover params bio 0 (iover.histDesc bio.histIdx).next) := by
  obtain ⟨hres, hforward, hunchanged⟩ := verifyHistRead_one iover hn hval
  have hcurr : DescMatches iover params bio 0 (iover.blockDesc bio.slba) →
    CurrLooks iover params bio := DescMatches.currLooks hval
  have hnext : DescMatches iover params bio 0 (iover.histDesc bio.histIdx).next →
    NextLooks iover params bio := DescMatches.nextLooks hval
  refine ⟨?_, ?_⟩
  · intro h
    refine ⟨?_, ?_⟩
    · intro hlooks
      by_contra hc
      have hm := (h.res.mp (hres.mpr (.inl hlooks))).resolve_left hc
      -- the descriptor would have to move on, and it stays
      have hmoved := h.forward hm hc
      rw [hunchanged (.inl hlooks)] at hmoved
      have hsame := congrFun hmoved bio.slba
      rw [Function.update_self] at hsame
      rw [← hsame] at hm
      exact hc hm
    · intro hwrong hlooks
      exact (h.res.mp (hres.mpr (.inr hlooks))).resolve_left fun hc => hwrong (hcurr hc)
  · rintro ⟨hcurrRight, hnextRight⟩
    refine ⟨hres.trans ⟨?_, ?_⟩, ?_, ?_⟩
    · intro h
      by_cases hlooks : CurrLooks iover params bio
      · exact .inl (hcurrRight hlooks)
      · exact .inr (hnextRight hlooks (h.resolve_left hlooks))
    · intro h
      exact h.imp hcurr hnext
    · intro hm hc
      exact hforward (fun hlooks => hc (hcurrRight hlooks)) (hnext hm)
    · intro hm
      apply hunchanged
      by_contra hmoves
      rw [not_or, not_not] at hmoves
      exact hm ⟨hnextRight hmoves.1 hmoves.2, fun hc => hmoves.1 (hcurr hc)⟩

/-! ## A record of an uncorrectable LBA -/

/-- A verifier where LBA 0 is deallocated, and a record says that it is to be uncorrectable: that of a
write uncorrectable, whose opcode `backup_hist_state` takes for a state. -/
def uncorVerifier : Iover :=
  .init (.plain 8 1 eight_lbas_lt (by decide)) (fun _ _ => 0) (fun _ => ⟨0, .dealloc, 0, 0⟩)
    (fun _ => ⟨0, ⟨0, .dealloc, 0, 0⟩, ⟨0, .undef 0, 0, 0⟩⟩) { JournalHeader.zero with nhist := 1 } 0

/-- The read that replays the record. -/
def replayRead (data : Buf) : Bio := { Bio.plain .read 0 1 data with histIdx := 0 }

/-- The check of zeroes, which a deallocated LBA reads as, is right. -/
theorem replayRight_zeroes :
    ReplayRight uncorVerifier .plain (replayRead fun _ => 0x00)
      (verifyHistRead uncorVerifier .plain (replayRead fun _ => 0x00)) := by
  have hval : deallocByte JobParams.plain.deallocReadValueType = some 0x00 := by decide
  refine (replayRight_iff rfl hval).mpr ⟨?_, ?_⟩
  · intro _ val hdealloc i _
    exact Option.some.inj (hval.symm.trans hdealloc)
  · intro hwrong
    exact absurd (.inr hval) hwrong

/-- **Anything is accepted** for a record of an uncorrectable LBA, and the LBA has its state from then
on. -/
theorem not_replayRight_uncor :
    ¬ ReplayRight uncorVerifier .plain (replayRead fun _ => 0x01)
      (verifyHistRead uncorVerifier .plain (replayRead fun _ => 0x01)) := by
  intro h
  have hval : deallocByte JobParams.plain.deallocReadValueType = some 0x00 := by decide
  have hn : (replayRead fun _ => 0x01).nlbs = 1 := rfl
  obtain ⟨hres, -, -⟩ := verifyHistRead_one uncorVerifier hn hval
  rcases h.res.mp (hres.mpr (.inr trivial)) with hc | hm
  · exact absurd (hc 0x00 hval 0 (by decide)) (by decide)
  · exact hm

end ChamberSpo

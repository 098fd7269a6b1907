import ChamberSpo.Bitmap
import ChamberSpo.Buffer

/-!
# The FTL checker

`ftl_checker` reads the map table of an FTL, builds the bitmap of valid physical addresses and the
valid counts of their groups, and compares the bitmap with the one of the FTL.

* `selfCheckVbtblWrite`, `selfCheckVctblWrite` — one address in the tables.
* `buildStep`, `buildTables`, `compareTables`, `selfCheck` — the passes.
* `Built` — what the tables say after some of the LBAs.

`none` stands for an access outside of a table. `selfCheck_iff` says that there is none, which maps
pass, and what the valid counts are.
-/

namespace ChamberSpo

open Bitmap

/-! ## The program -/

/-- `mpa_t` -/
abbrev Mpa := BitVec 32

/-- `INVALID_MPA` -/
def invalidMpa : Mpa := 0xFFFFFFFF

/-- `UNMAPPED_MPA` -/
def unmappedMpa : Mpa := 0xFFFFFFF0

/-- `UNCORRECTABLE_MPA` -/
def uncorrectableMpa : Mpa := 0xFFFFFFF1

/-- An address that stands for a place in the storage. -/
def Mpa.Ordinary (mpa : Mpa) : Prop :=
  mpa ≠ invalidMpa ∧ mpa ≠ unmappedMpa ∧ mpa ≠ uncorrectableMpa

instance (mpa : Mpa) : Decidable mpa.Ordinary :=
  inferInstanceAs (Decidable (mpa ≠ invalidMpa ∧ mpa ≠ unmappedMpa ∧ mpa ≠ uncorrectableMpa))

/-- What a file holds. -/
structure FileData where
  size : ℕ
  bytes : Buf

/-- `self_chk_ctx_t`, with the files in place of their names; `none` for one that cannot be
read. -/
structure SelfChkCtx where
  vbTblSize : BitVec 32
  vcTblSize : BitVec 32
  orgMapTbl : ℕ → Mpa
  storageMaxLba : BitVec 32
  ftlNotifyGroupOffset : BitVec 32
  bitmapFile : Option FileData
  validCntFile : Option FileData

/-- A word of `_read_data_from_file`. -/
def FileData.word (file : FileData) (idx : ℕ) : Option (BitVec 32) :=
  if 4 * idx + 4 ≤ file.size then some (file.bytes.load 32 (4 * idx)) else none

/-- `_self_check_vbtbl_write` -/
def selfCheckVbtblWrite (ctx : SelfChkCtx) (vbTable : Bitmap 32) (mpa : Mpa) :
    Option (Int × Bitmap 32) :=
  -- 32 bits in a word, and 4 bytes
  let dwAddr := ((mpa >>> 5) <<< 2).toNat / 4
  let bitIdx := (mpa &&& 0x1F).toNat
  if 4 * dwAddr + 4 ≤ ctx.vbTblSize.toNat then
    let dw := vbTable dwAddr
    if dw &&& (1#32 <<< bitIdx) ≠ 0 then some (-1, vbTable)
    else some (0, Function.update vbTable dwAddr (dw ||| (1#32 <<< bitIdx)))
  else none

/-- The group of an address, of which `vc_table` counts the valid ones. -/
def SelfChkCtx.group (ctx : SelfChkCtx) (mpa : Mpa) : ℕ := (mpa >>> ctx.ftlNotifyGroupOffset).toNat

/-- `_self_check_vctbl_write`, whose shift has no value if it is by more bits than there are. -/
def selfCheckVctblWrite (ctx : SelfChkCtx) (vcTable : ℕ → BitVec 32) (mpa : Mpa) :
    Option (ℕ → BitVec 32) :=
  let idx := ctx.group mpa
  if ctx.ftlNotifyGroupOffset < 32 ∧ 4 * idx + 4 ≤ ctx.vcTblSize.toNat then
    let val := vcTable idx
    some (Function.update vcTable idx (val + 1))
  else none

/-- The tables, and the variables of `_build_vbtbl_vctbl_from_mtbl`. -/
structure BuildState where
  vbTable : Bitmap 32
  vcTable : ℕ → BitVec 32
  iMpa : BitVec 32
  uMpa : BitVec 32
  ucMpa : BitVec 32
  retVal : Int

/-- The tables as `_self_check_init` clears them. -/
def BuildState.init : BuildState where
  vbTable _ := 0
  vcTable _ := 0
  iMpa := 0
  uMpa := 0
  ucMpa := 0
  retVal := 0

/-- The body of the loop of `_build_vbtbl_vctbl_from_mtbl`. -/
def buildStep (ctx : SelfChkCtx) (s : BuildState) (lba : ℕ) : Option BuildState :=
  let mpa := ctx.orgMapTbl lba
  if mpa = invalidMpa then some { s with iMpa := s.iMpa + 1 }
  else if mpa = unmappedMpa then some { s with uMpa := s.uMpa + 1 }
  else if mpa = uncorrectableMpa then some { s with ucMpa := s.ucMpa + 1 }
  else do
    let (res, vbTable) ← selfCheckVbtblWrite ctx s.vbTable mpa
    let vcTable ← selfCheckVctblWrite ctx s.vcTable mpa
    return { s with
      vbTable := vbTable
      vcTable := vcTable
      retVal := if res = -1 then -1 else s.retVal }

/-- `_build_vbtbl_vctbl_from_mtbl` -/
def buildTables (ctx : SelfChkCtx) : Option BuildState :=
  (List.range ctx.storageMaxLba.toNat).foldlM (buildStep ctx) .init

/-- The loop of `_compare_vbtbl_vctbl_from_chktbl` over the words of the bitmap. -/
def compareWords (vbTable : Bitmap 32) (orgVbTbl : FileData) : List ℕ → Option Int
  | [] => some 0
  | vbIdx :: rest => do
    let orgValue ← orgVbTbl.word vbIdx
    let xorResult := vbTable vbIdx ^^^ orgValue
    let decideResult := vbTable vbIdx &&& xorResult
    if decideResult ≠ 0 then return -1 else compareWords vbTable orgVbTbl rest

/-- `_compare_vbtbl_vctbl_from_chktbl`; `CHECK_VC` is 0. -/
def compareTables (ctx : SelfChkCtx) (vbTable : Bitmap 32) : Option Int :=
  match ctx.bitmapFile, ctx.validCntFile with
  | some orgVbTbl, some _ =>
    if ctx.vbTblSize ≠ 0 then compareWords vbTable orgVbTbl (List.range (ctx.vbTblSize.toNat / 4))
    else some 0
  | _, _ => some (-1)

/-- The check of `main`. -/
def selfCheck (ctx : SelfChkCtx) : Option Int := do
  let built ← buildTables ctx
  if built.retVal < 0 then return -1 else compareTables ctx built.vbTable

/-! ## One address -/

/-- The bit of an address in the bitmap file. -/
def FileData.Holds (file : FileData) (mpa : Mpa) : Prop :=
  (file.bytes (mpa.toNat / 8)).getLsbD (mpa.toNat % 8) = true

instance (file : FileData) (mpa : Mpa) : Decidable (file.Holds mpa) :=
  inferInstanceAs (Decidable (_ = true))

/-- The tables have room for the map. -/
structure SelfChkCtx.Fits (ctx : SelfChkCtx) : Prop where
  pos : 0 < ctx.vbTblSize.toNat
  dvd : 4 ∣ ctx.vbTblSize.toNat
  mpa : ∀ lba < ctx.storageMaxLba.toNat, (ctx.orgMapTbl lba).Ordinary →
    (ctx.orgMapTbl lba).toNat < 8 * ctx.vbTblSize.toNat
  group : ∀ lba < ctx.storageMaxLba.toNat, (ctx.orgMapTbl lba).Ordinary →
    ctx.ftlNotifyGroupOffset < 32 ∧ 4 * ctx.group (ctx.orgMapTbl lba) + 4 ≤ ctx.vcTblSize.toNat

section Write

variable {ctx : SelfChkCtx} {mpa : Mpa}

theorem dwAddr_eq (mpa : Mpa) : ((mpa >>> 5) <<< 2).toNat / 4 = mpa.toNat / 32 := by
  have hlt := mpa.isLt
  rw [BitVec.toNat_shiftLeft, BitVec.toNat_ushiftRight, Nat.shiftLeft_eq, Nat.shiftRight_eq_div_pow]
  omega

theorem bitIdx_eq (mpa : Mpa) : (mpa &&& 0x1F).toNat = mpa.toNat % 32 := by
  rw [BitVec.toNat_and]
  exact Nat.and_two_pow_sub_one_eq_mod mpa.toNat 5

/-- The word of one bit has the bit of the address. -/
theorem wordBits_mpa (mpa : Mpa) :
    wordBits (mpa.toNat / 32) (1#32 <<< (mpa.toNat % 32)) = {mpa.toNat} := by
  rw [wordBits_one_shiftLeft _ (Nat.mod_lt _ (by decide)), Nat.div_add_mod]

/-- **An address in the bitmap**, if there is a word for it: it is added, and an error if it was
there. -/
theorem selfCheckVbtblWrite_room (ctx : SelfChkCtx) (vbTable : Bitmap 32)
    (hroom : 4 * (mpa.toNat / 32) + 4 ≤ ctx.vbTblSize.toNat) :
    ∃ res vbTable', selfCheckVbtblWrite ctx vbTable mpa = some (res, vbTable') ∧
      bits vbTable' = bits vbTable ∪ {mpa.toNat} ∧
      (res = -1 ↔ mpa.toNat ∈ bits vbTable) := by
  have htest : vbTable (mpa.toNat / 32) &&& (1#32 <<< (mpa.toNat % 32)) = 0 ↔
      mpa.toNat ∉ bits vbTable := by
    rw [and_eq_zero_iff, wordBits_mpa, Set.disjoint_singleton_left]
  simp only [selfCheckVbtblWrite]
  simp only [dwAddr_eq, bitIdx_eq, if_pos hroom]
  by_cases hmem : mpa.toNat ∈ bits vbTable
  · rw [if_pos fun h => htest.mp h hmem]
    refine ⟨-1, vbTable, rfl, ?_, fun _ => hmem, fun _ => rfl⟩
    exact (Set.union_eq_left.mpr (Set.singleton_subset_iff.mpr hmem)).symm
  · rw [if_neg (not_not.mpr (htest.mpr hmem))]
    refine ⟨0, _, rfl, ?_, fun h => absurd h (by decide), fun h => absurd h hmem⟩
    rw [bits_or, wordBits_mpa]

/-- There is a word for every address below the end of the table. -/
theorem selfCheckVbtblWrite_spec (vbTable : Bitmap 32) (hdvd : 4 ∣ ctx.vbTblSize.toNat)
    (hmpa : mpa.toNat < 8 * ctx.vbTblSize.toNat) :
    ∃ res vbTable', selfCheckVbtblWrite ctx vbTable mpa = some (res, vbTable') ∧
      bits vbTable' = bits vbTable ∪ {mpa.toNat} ∧
      (res = -1 ↔ mpa.toNat ∈ bits vbTable) :=
  selfCheckVbtblWrite_room ctx vbTable (by omega)

end Write

/-! ## The build -/

/-- The number of LBAs below `n` with a property. -/
def countLbas (p : ℕ → Prop) [DecidablePred p] (n : ℕ) : ℕ :=
  (List.range n).countP fun lba => decide (p lba)

theorem countLbas_succ (p : ℕ → Prop) [DecidablePred p] (n : ℕ) :
    countLbas p (n + 1) = countLbas p n + if p n then 1 else 0 := by
  rw [countLbas, List.range_succ, List.countP_append, countLbas, List.countP_singleton]
  simp only [decide_eq_true_eq]

theorem countLbas_le (p : ℕ → Prop) [DecidablePred p] (n : ℕ) : countLbas p n ≤ n := by
  have hle : countLbas p n ≤ (List.range n).length := List.countP_le_length
  rwa [List.length_range] at hle

/-- The LBA is mapped into a group. -/
def SelfChkCtx.MapsInto (ctx : SelfChkCtx) (idx lba : ℕ) : Prop :=
  (ctx.orgMapTbl lba).Ordinary ∧ ctx.group (ctx.orgMapTbl lba) = idx

instance (ctx : SelfChkCtx) (idx : ℕ) : DecidablePred (ctx.MapsInto idx) := fun lba =>
  inferInstanceAs (Decidable ((ctx.orgMapTbl lba).Ordinary ∧ ctx.group (ctx.orgMapTbl lba) = idx))

/-- No two LBAs below `n` share an ordinary address. -/
def SelfChkCtx.NoSharing (ctx : SelfChkCtx) (n : ℕ) : Prop :=
  ∀ lba < n, ∀ lba' < n, (ctx.orgMapTbl lba).Ordinary →
    ctx.orgMapTbl lba = ctx.orgMapTbl lba' → lba = lba'

/-- **The tables after the first `n` LBAs.** -/
structure Built (ctx : SelfChkCtx) (n : ℕ) (s : BuildState) : Prop where
  vbTable : ∀ x, x ∈ bits s.vbTable ↔
    ∃ lba < n, (ctx.orgMapTbl lba).Ordinary ∧ (ctx.orgMapTbl lba).toNat = x
  vcTable : ∀ idx, (s.vcTable idx).toNat = countLbas (ctx.MapsInto idx) n
  iMpa : s.iMpa.toNat = countLbas (fun lba => ctx.orgMapTbl lba = invalidMpa) n
  uMpa : s.uMpa.toNat = countLbas (fun lba => ctx.orgMapTbl lba = unmappedMpa) n
  ucMpa : s.ucMpa.toNat = countLbas (fun lba => ctx.orgMapTbl lba = uncorrectableMpa) n
  retVal : s.retVal = 0 ∧ ctx.NoSharing n ∨ s.retVal = -1 ∧ ¬ ctx.NoSharing n

section Build

variable {ctx : SelfChkCtx} {n : ℕ} {s : BuildState}

theorem Built.init : Built ctx 0 .init where
  vbTable x := by
    rw [BuildState.init, bits_zero]
    simp
  vcTable _ := rfl
  iMpa := rfl
  uMpa := rfl
  ucMpa := rfl
  retVal := .inl ⟨rfl, fun _ h => absurd h (Nat.not_lt_zero _)⟩

/-- A counter that counts another LBA. -/
theorem toNat_count {c : BitVec 32} {p : ℕ → Prop} [DecidablePred p] (hn : n < 2 ^ 32 - 1)
    (h : c.toNat = countLbas p n) :
    (if p n then c + 1 else c).toNat = countLbas p (n + 1) := by
  have hle := countLbas_le p n
  rw [countLbas_succ]
  split
  · rw [BitVec.toNat_add, h]
    exact Nat.mod_eq_of_lt (show countLbas p n + 1 < 2 ^ 32 by omega)
  · exact h

/-- An LBA that is not mapped leaves the tables as they are. -/
theorem noSharing_succ_of_not (hn : ¬ (ctx.orgMapTbl n).Ordinary) :
    ctx.NoSharing (n + 1) ↔ ctx.NoSharing n := by
  refine ⟨?_, ?_⟩
  · intro h lba hlba lba' hlba'
    exact h lba (Nat.lt_succ_of_lt hlba) lba' (Nat.lt_succ_of_lt hlba')
  · intro h lba hlba lba' hlba' hord heq
    rcases Nat.lt_succ_iff_lt_or_eq.mp hlba with hlt | rfl
    · rcases Nat.lt_succ_iff_lt_or_eq.mp hlba' with hlt' | rfl
      · exact h lba hlt lba' hlt' hord heq
      · rw [heq] at hord
        exact absurd hord hn
    · exact absurd hord hn

/-- An LBA that is mapped shares its address if the address was there. -/
theorem noSharing_succ (hn : (ctx.orgMapTbl n).Ordinary) :
    ctx.NoSharing (n + 1) ↔ ctx.NoSharing n ∧
      ¬ ∃ lba < n, (ctx.orgMapTbl lba).Ordinary ∧
        (ctx.orgMapTbl lba).toNat = (ctx.orgMapTbl n).toNat := by
  refine ⟨?_, ?_⟩
  · intro h
    refine ⟨fun lba hlba lba' hlba' => h lba (Nat.lt_succ_of_lt hlba) lba'
      (Nat.lt_succ_of_lt hlba'), ?_⟩
    rintro ⟨lba, hlba, hord, heq⟩
    have hsame := h lba (Nat.lt_succ_of_lt hlba) n (Nat.lt_succ_self n) hord
      (BitVec.eq_of_toNat_eq heq)
    omega
  · rintro ⟨h, hnew⟩ lba hlba lba' hlba' hord heq
    rcases Nat.lt_succ_iff_lt_or_eq.mp hlba with hlt | rfl
    · rcases Nat.lt_succ_iff_lt_or_eq.mp hlba' with hlt' | rfl
      · exact h lba hlt lba' hlt' hord heq
      · exact absurd ⟨lba, hlt, hord, congrArg BitVec.toNat heq⟩ hnew
    · rcases Nat.lt_succ_iff_lt_or_eq.mp hlba' with hlt' | rfl
      · rw [heq] at hord
        exact absurd ⟨lba', hlt', hord, congrArg BitVec.toNat heq.symm⟩ hnew
      · rfl

/-- What a turn of the loop does with an LBA. -/
structure StepsTo (ctx : SelfChkCtx) (s : BuildState) (lba : ℕ) (s' : BuildState) : Prop where
  vbTable : ∀ x, x ∈ bits s'.vbTable ↔ x ∈ bits s.vbTable ∨
    (ctx.orgMapTbl lba).Ordinary ∧ (ctx.orgMapTbl lba).toNat = x
  vcTable : ∀ idx, s'.vcTable idx
    = if ctx.MapsInto idx lba then s.vcTable idx + 1 else s.vcTable idx
  iMpa : s'.iMpa = if ctx.orgMapTbl lba = invalidMpa then s.iMpa + 1 else s.iMpa
  uMpa : s'.uMpa = if ctx.orgMapTbl lba = unmappedMpa then s.uMpa + 1 else s.uMpa
  ucMpa : s'.ucMpa = if ctx.orgMapTbl lba = uncorrectableMpa then s.ucMpa + 1 else s.ucMpa
  shared : (ctx.orgMapTbl lba).Ordinary → (ctx.orgMapTbl lba).toNat ∈ bits s.vbTable →
    s'.retVal = -1
  fresh : ¬ ((ctx.orgMapTbl lba).Ordinary ∧ (ctx.orgMapTbl lba).toNat ∈ bits s.vbTable) →
    s'.retVal = s.retVal

/-- A turn that only counts. -/
theorem StepsTo.of_not_ordinary {lba : ℕ} {s' : BuildState}
    (hno : ¬ (ctx.orgMapTbl lba).Ordinary) (hvb : s'.vbTable = s.vbTable)
    (hvc : s'.vcTable = s.vcTable) (hret : s'.retVal = s.retVal)
    (hi : s'.iMpa = if ctx.orgMapTbl lba = invalidMpa then s.iMpa + 1 else s.iMpa)
    (hu : s'.uMpa = if ctx.orgMapTbl lba = unmappedMpa then s.uMpa + 1 else s.uMpa)
    (huc : s'.ucMpa = if ctx.orgMapTbl lba = uncorrectableMpa then s.ucMpa + 1 else s.ucMpa) :
    StepsTo ctx s lba s' where
  vbTable x := by rw [hvb, or_iff_left fun h => hno h.1]
  vcTable idx := by rw [hvc, if_neg fun h => hno h.1]
  iMpa := hi
  uMpa := hu
  ucMpa := huc
  shared hord _ := absurd hord hno
  fresh _ := hret

theorem buildStep_spec (hfit : ctx.Fits) {lba : ℕ} (hlba : lba < ctx.storageMaxLba.toNat) :
    ∃ s', buildStep ctx s lba = some s' ∧ StepsTo ctx s lba s' := by
  rw [buildStep]
  simp only
  by_cases hi : ctx.orgMapTbl lba = invalidMpa
  · rw [if_pos hi]
    refine ⟨_, rfl, .of_not_ordinary (fun h => h.1 hi) rfl rfl rfl (if_pos hi).symm ?_ ?_⟩
    · rw [hi]
      exact (if_neg (by decide)).symm
    · rw [hi]
      exact (if_neg (by decide)).symm
  · rw [if_neg hi]
    by_cases hu : ctx.orgMapTbl lba = unmappedMpa
    · rw [if_pos hu]
      refine ⟨_, rfl, .of_not_ordinary (fun h => h.2.1 hu) rfl rfl rfl (if_neg hi).symm
        (if_pos hu).symm ?_⟩
      rw [hu]
      exact (if_neg (by decide)).symm
    · rw [if_neg hu]
      by_cases huc : ctx.orgMapTbl lba = uncorrectableMpa
      · rw [if_pos huc]
        exact ⟨_, rfl, .of_not_ordinary (fun h => h.2.2 huc) rfl rfl rfl (if_neg hi).symm
          (if_neg hu).symm (if_pos huc).symm⟩
      · rw [if_neg huc]
        have hord : (ctx.orgMapTbl lba).Ordinary := ⟨hi, hu, huc⟩
        obtain ⟨res, vbTable, hwrite, hbits, hres⟩ :=
          selfCheckVbtblWrite_spec s.vbTable hfit.dvd (hfit.mpa lba hlba hord)
        have hvc : selfCheckVctblWrite ctx s.vcTable (ctx.orgMapTbl lba)
            = some (Function.update s.vcTable (ctx.group (ctx.orgMapTbl lba))
              (s.vcTable (ctx.group (ctx.orgMapTbl lba)) + 1)) :=
          if_pos (hfit.group lba hlba hord)
        rw [hwrite, hvc]
        refine ⟨_, rfl, fun x => ?_, fun idx => ?_, (if_neg hi).symm, (if_neg hu).symm,
          (if_neg huc).symm, fun _ hmem => if_pos (hres.mpr hmem),
          fun hnot => if_neg fun h => hnot ⟨hord, hres.mp h⟩⟩
        · change x ∈ bits vbTable ↔ _
          rw [hbits, Set.mem_union, Set.mem_singleton_iff, and_iff_right hord, eq_comm]
        · change Function.update _ _ _ idx = _
          by_cases hidx : ctx.group (ctx.orgMapTbl lba) = idx
          · rw [if_pos ⟨hord, hidx⟩, ← hidx, Function.update_self]
          · rw [if_neg fun h => hidx h.2, Function.update_of_ne fun h => hidx h.symm]

/-- **One LBA** keeps the tables right. -/
theorem Built.step {s' : BuildState} (h : Built ctx n s) (hn : n < 2 ^ 32 - 1)
    (hstep : StepsTo ctx s n s') : Built ctx (n + 1) s' where
  vbTable x := by
    rw [hstep.vbTable, h.vbTable, Nat.exists_lt_succ_right]
  vcTable idx := by
    rw [hstep.vcTable]
    exact toNat_count (p := ctx.MapsInto idx) hn (h.vcTable idx)
  iMpa := by
    rw [hstep.iMpa]
    exact toNat_count (p := fun lba => ctx.orgMapTbl lba = invalidMpa) hn h.iMpa
  uMpa := by
    rw [hstep.uMpa]
    exact toNat_count (p := fun lba => ctx.orgMapTbl lba = unmappedMpa) hn h.uMpa
  ucMpa := by
    rw [hstep.ucMpa]
    exact toNat_count (p := fun lba => ctx.orgMapTbl lba = uncorrectableMpa) hn h.ucMpa
  retVal := by
    have hmem := h.vbTable (ctx.orgMapTbl n).toNat
    by_cases hord : (ctx.orgMapTbl n).Ordinary
    · rw [noSharing_succ hord]
      by_cases hold : ∃ lba < n, (ctx.orgMapTbl lba).Ordinary ∧
          (ctx.orgMapTbl lba).toNat = (ctx.orgMapTbl n).toNat
      · exact .inr ⟨hstep.shared hord (hmem.mpr hold), fun hno => hno.2 hold⟩
      · rw [hstep.fresh fun hand => hold (hmem.mp hand.2), and_iff_left hold]
        exact h.retVal
    · rw [hstep.fresh fun hand => hord hand.1, noSharing_succ_of_not hord]
      exact h.retVal

/-- **The build** gets through, and its tables are right. -/
theorem buildTables_spec (hfit : ctx.Fits) :
    ∃ s, buildTables ctx = some s ∧ Built ctx ctx.storageMaxLba.toNat s := by
  have hloop : ∀ n ≤ ctx.storageMaxLba.toNat,
      ∃ s, (List.range n).foldlM (buildStep ctx) .init = some s ∧ Built ctx n s := by
    intro n
    induction n with
    | zero => exact fun _ => ⟨_, rfl, .init⟩
    | succ n ih =>
      intro hn
      obtain ⟨s, hs, hbuilt⟩ := ih (Nat.le_of_succ_le hn)
      obtain ⟨s', hs', hstep⟩ := buildStep_spec (s := s) hfit (Nat.lt_of_succ_le hn)
      have hlt := ctx.storageMaxLba.isLt
      refine ⟨s', ?_, hbuilt.step (by omega) hstep⟩
      rw [List.range_succ, List.foldlM_append, hs]
      change buildStep ctx s n >>= _ = _
      rw [hs']
      rfl
  exact hloop _ le_rfl

end Build

/-! ## The comparison -/

section Compare

variable {ctx : SelfChkCtx} {file : FileData}

/-- The words of a file. -/
def FileData.words (file : FileData) : Bitmap 32 := fun idx => file.bytes.load 32 (4 * idx)

theorem mem_bits_words (mpa : Mpa) : mpa.toNat ∈ bits file.words ↔ file.Holds mpa := by
  have hbyte : 4 * (mpa.toNat / 32) + mpa.toNat % 32 / 8 = mpa.toNat / 8 := by omega
  have hbit : mpa.toNat % 32 % 8 = mpa.toNat % 8 := by omega
  rw [mem_bits, FileData.words, Buf.getLsbD_load (by decide) _ _ (Nat.mod_lt _ (by decide)), hbyte,
    hbit]
  exact Iff.rfl

/-- The loop finds out whether the words have bits that the file has not. -/
theorem compareWords_spec (vbTable : Bitmap 32) (file : FileData) (idxs : List ℕ)
    (hroom : ∀ idx ∈ idxs, 4 * idx + 4 ≤ file.size) :
    ∃ res, compareWords vbTable file idxs = some res ∧
      (res = 0 ↔ ∀ x ∈ bits vbTable, x / 32 ∈ idxs → x ∈ bits file.words) := by
  induction idxs with
  | nil => exact ⟨0, rfl, by simp⟩
  | cons idx idxs ih =>
    obtain ⟨res, hres, hiff⟩ := ih fun k hk => hroom k (List.mem_cons_of_mem _ hk)
    have hword : file.word idx = some (file.words idx) :=
      if_pos (hroom idx List.mem_cons_self)
    have hand := and_xor_eq_zero_iff vbTable file.words idx
    rw [compareWords, hword]
    change ∃ res, (if vbTable idx &&& (vbTable idx ^^^ file.words idx) ≠ 0 then some (-1)
      else compareWords vbTable file idxs) = some res ∧ _
    by_cases hzero : vbTable idx &&& (vbTable idx ^^^ file.words idx) = 0
    · rw [if_neg (not_not.mpr hzero)]
      refine ⟨res, hres, hiff.trans ⟨?_, ?_⟩⟩
      · intro h x hx hmem
        rcases List.mem_cons.mp hmem with heq | hmem
        · exact hand.mp hzero x hx heq
        · exact h x hx hmem
      · intro h x hx hmem
        exact h x hx (List.mem_cons_of_mem _ hmem)
    · rw [if_pos hzero]
      refine ⟨-1, rfl, fun h => absurd h (by decide), fun h => absurd (hand.mpr ?_) hzero⟩
      exact fun x hx heq => h x hx (heq ▸ List.mem_cons_self)

/-- **The comparison** gets through, and finds out whether the file has the bits of the table. -/
theorem compareTables_spec (vbTable : Bitmap 32) (hfit : ctx.Fits)
    (hfile : ctx.bitmapFile = some file) (hsize : file.size = ctx.vbTblSize.toNat)
    (hvc : ctx.validCntFile.isSome) :
    ∃ res, compareTables ctx vbTable = some res ∧
      (res = 0 ↔ ∀ x ∈ bits vbTable, x < 8 * ctx.vbTblSize.toNat → x ∈ bits file.words) := by
  obtain ⟨vcFile, hvc⟩ := Option.isSome_iff_exists.mp hvc
  have hne : ctx.vbTblSize ≠ 0 := by
    intro h
    have hpos := hfit.pos
    rw [h] at hpos
    exact absurd hpos (by decide)
  have hdvd := hfit.dvd
  obtain ⟨res, hres, hiff⟩ := compareWords_spec vbTable file
    (List.range (ctx.vbTblSize.toNat / 4)) (by
      intro idx hidx
      have hlt := List.mem_range.mp hidx
      omega)
  refine ⟨res, ?_, hiff.trans (forall₂_congr ?_)⟩
  · rw [compareTables, hfile, hvc]
    simp only [if_pos hne]
    exact hres
  · intro x _
    have hrange : x / 32 ∈ List.range (ctx.vbTblSize.toNat / 4) ↔
        x < 8 * ctx.vbTblSize.toNat := by
      rw [List.mem_range]
      omega
    rw [hrange]

end Compare

/-- **The check passes** exactly if no two LBAs share an address and the bitmap file has the bits
of all of them; and it counts the LBAs of each group. -/
theorem selfCheck_iff {ctx : SelfChkCtx} {file : FileData} (hfit : ctx.Fits)
    (hfile : ctx.bitmapFile = some file) (hsize : file.size = ctx.vbTblSize.toNat)
    (hvc : ctx.validCntFile.isSome) :
    ∃ built res, buildTables ctx = some built ∧ selfCheck ctx = some res ∧
      (res = 0 ↔
        (∀ lba < ctx.storageMaxLba.toNat, ∀ lba' < ctx.storageMaxLba.toNat,
          (ctx.orgMapTbl lba).Ordinary → ctx.orgMapTbl lba = ctx.orgMapTbl lba' → lba = lba') ∧
        ∀ lba < ctx.storageMaxLba.toNat, (ctx.orgMapTbl lba).Ordinary →
          file.Holds (ctx.orgMapTbl lba)) ∧
      ∀ idx, 4 * idx + 4 ≤ ctx.vcTblSize.toNat →
        (built.vcTable idx).toNat = (List.range ctx.storageMaxLba.toNat).countP fun lba =>
          decide ((ctx.orgMapTbl lba).Ordinary ∧ ctx.group (ctx.orgMapTbl lba) = idx) := by
  obtain ⟨built, hbuild, hbuilt⟩ := buildTables_spec hfit
  obtain ⟨res, hres, hiff⟩ := compareTables_spec built.vbTable hfit hfile hsize hvc
  -- what the bitmap holds, said of the LBAs
  have hheld : (∀ x ∈ bits built.vbTable, x < 8 * ctx.vbTblSize.toNat → x ∈ bits file.words) ↔
      ∀ lba < ctx.storageMaxLba.toNat, (ctx.orgMapTbl lba).Ordinary →
        file.Holds (ctx.orgMapTbl lba) := by
    refine ⟨?_, ?_⟩
    · intro h lba hlba hord
      rw [← mem_bits_words]
      exact h _ ((hbuilt.vbTable _).mpr ⟨lba, hlba, hord, rfl⟩) (hfit.mpa lba hlba hord)
    · intro h x hx _
      obtain ⟨lba, hlba, hord, rfl⟩ := (hbuilt.vbTable x).mp hx
      exact (mem_bits_words _).mpr (h lba hlba hord)
  rw [selfCheck, hbuild]
  change ∃ b r, _ ∧ (if built.retVal < 0 then some (-1) else compareTables ctx built.vbTable)
    = some r ∧ _
  rcases hbuilt.retVal with ⟨hret, hno⟩ | ⟨hret, hno⟩
  · rw [hret, if_neg (lt_irrefl 0)]
    refine ⟨built, res, rfl, hres, (hiff.trans hheld).trans ?_, fun idx _ => hbuilt.vcTable idx⟩
    exact (and_iff_right hno).symm
  · rw [hret, if_pos (by decide)]
    refine ⟨built, -1, rfl, rfl, ⟨fun h => absurd h (by decide), fun h => absurd h.1 hno⟩,
      fun idx _ => hbuilt.vcTable idx⟩

/-- A map of four LBAs, of which two are mapped, and a bitmap file that has their bits. -/
def plainCtx : SelfChkCtx where
  vbTblSize := 8
  vcTblSize := 8
  orgMapTbl lba := if lba = 0 then 33 else if lba = 1 then 5 else unmappedMpa
  storageMaxLba := 4
  ftlNotifyGroupOffset := 5
  bitmapFile := some ⟨8, fun i => if i = 0 then 0x20 else if i = 4 then 0x02 else 0⟩
  validCntFile := some ⟨8, fun _ => 0⟩

theorem plainCtx_fits : plainCtx.Fits where
  pos := by decide
  dvd := by decide
  mpa := by decide
  group := by decide

/-- The check of the four LBAs passes, and finds one LBA in each of the first two groups. -/
theorem selfCheck_plainCtx : ∃ built, buildTables plainCtx = some built ∧
    selfCheck plainCtx = some 0 ∧ (built.vcTable 0).toNat = 1 ∧ (built.vcTable 1).toNat = 1 := by
  obtain ⟨built, res, hbuild, hres, hiff, hcount⟩ := selfCheck_iff plainCtx_fits rfl rfl rfl
  obtain rfl : res = 0 := hiff.mpr ⟨by decide, by decide⟩
  exact ⟨built, hbuild, hres, (hcount 0 (by decide)).trans (by decide),
    (hcount 1 (by decide)).trans (by decide)⟩

end ChamberSpo

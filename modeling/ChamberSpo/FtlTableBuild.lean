import ChamberSpo.FtlChecker

/-!
# How the tables of the FTL checker are built

`_self_check_init` takes three sizes from the command line and maps a file, and
`_build_vbtbl_vctbl_from_mtbl` then uses what it reads in the file as an index. Here the tables are
the memory that `malloc` returned, and the map is as long as its file is.

* `selfCheckInit`, `buildFromMtbl` — the functions, with the messages about duplicates.
* `CheckTables.Inside` — an LBA for which every access is inside of its table.
* `Reported` — the duplicates that are reported for the first LBAs.

`none` stands for an access outside of a table, or a shift by more bits than there are.
`selfCheckInit_safe_iff` says when there is none and the bitmap is clear, and `buildFromMtbl_owners_iff`
when the duplicates name the first owner.
-/

namespace ChamberSpo

open Bitmap

/-! ## The program -/

/-- The numbers that `_self_check_init` takes from the command line. -/
structure CheckArgs where
  storageMaxLba : BitVec 32
  vbTblSize : BitVec 32
  vcTblSize : BitVec 32
  ftlNotifyGroupOffset : BitVec 32

/-- The bytes that `_self_check_init` asks for, for the bitmap. -/
def CheckArgs.vbAllocSize (args : CheckArgs) : BitVec 32 :=
  if args.vbTblSize = 0 then args.storageMaxLba * 3 / 8 else args.vbTblSize

/-- The tables, and the map that they are built from. -/
structure CheckTables where
  args : CheckArgs
  vbTable : Buf
  vcTable : Buf
  orgMapTbl : FileData

/-- `_self_check_init`, with what its calls of `malloc` return and the file that is mapped; `none`
for `-1`. -/
def selfCheckInit (args : CheckArgs) (vbTable vcTable : Option Buf) (mapFile : Option FileData) :
    Option CheckTables := do
  let vbTable ← vbTable
  let vcTable ← vcTable
  -- the size of the command line, which is not the one that was asked for if it is 0
  let vbTable := vbTable.fill 0 0 args.vbTblSize.toNat
  let vcTable := vcTable.fill 0 0 args.vcTblSize.toNat
  let orgMapTbl ← mapFile
  return { args := args, vbTable := vbTable, vcTable := vcTable, orgMapTbl := orgMapTbl }

/-- What the functions that write into the tables are given, with the size of the memory. -/
def CheckTables.ctx (t : CheckTables) : SelfChkCtx where
  vbTblSize := t.args.vbAllocSize
  vcTblSize := t.args.vcTblSize
  orgMapTbl := t.orgMapTbl.words
  storageMaxLba := t.args.storageMaxLba
  ftlNotifyGroupOffset := t.args.ftlNotifyGroupOffset
  bitmapFile := none
  validCntFile := none

/-- What is printed about a duplicate. -/
structure Duplicate where
  lba : ℕ
  lba2 : ℕ
  mpa : Mpa
  deriving DecidableEq

/-- The tables and the variables of `_build_vbtbl_vctbl_from_mtbl`, and what it has printed. -/
structure BuildRun where
  built : BuildState
  duplicates : List Duplicate

/-- The tables before the first LBA. -/
def BuildRun.start (t : CheckTables) : BuildRun where
  built := { BuildState.init with
    vbTable := fun k => t.vbTable.load 32 (4 * k)
    vcTable := fun k => t.vcTable.load 32 (4 * k) }
  duplicates := []

/-- The search for `lba2`, over those that are left. It compares with `org_map_tbl[lba]`. -/
def findLba2 (t : CheckTables) (mpa : Mpa) (lba : ℕ) : List ℕ → Option ℕ
  | [] => some t.args.storageMaxLba.toNat
  | lba2 :: rest => do
    let other ← t.orgMapTbl.word lba
    if mpa = other then return lba2 else findLba2 t mpa lba rest

/-- The message about an address whose bit was set. -/
def reportDuplicate (t : CheckTables) (duplicates : List Duplicate) (lba : ℕ) (mpa : Mpa)
    (res : Int) : Option (List Duplicate) :=
  if res = -1 then do
    let lba2 ← findLba2 t mpa lba (List.range t.args.storageMaxLba.toNat)
    return duplicates ++ [⟨lba, lba2, mpa⟩]
  else some duplicates

/-- The body of the loop of `_build_vbtbl_vctbl_from_mtbl`. -/
def buildLba (t : CheckTables) (s : BuildRun) (lba : ℕ) : Option BuildRun := do
  let mpa ← t.orgMapTbl.word lba
  if mpa = invalidMpa then
    return { s with built := { s.built with iMpa := s.built.iMpa + 1 } }
  else if mpa = unmappedMpa then
    return { s with built := { s.built with uMpa := s.built.uMpa + 1 } }
  else if mpa = uncorrectableMpa then
    return { s with built := { s.built with ucMpa := s.built.ucMpa + 1 } }
  else
    let (res, vbTable) ← selfCheckVbtblWrite t.ctx s.built.vbTable mpa
    let duplicates ← reportDuplicate t s.duplicates lba mpa res
    let vcTable ← selfCheckVctblWrite t.ctx s.built.vcTable mpa
    return {
      built := { s.built with
        vbTable := vbTable
        vcTable := vcTable
        retVal := if res = -1 then -1 else s.built.retVal }
      duplicates := duplicates }

/-- `_build_vbtbl_vctbl_from_mtbl` -/
def buildFromMtbl (t : CheckTables) : Option BuildRun :=
  (List.range t.args.storageMaxLba.toNat).foldlM (buildLba t) (.start t)

/-! ## One LBA -/

/-- The entry of an LBA in the map. -/
def CheckTables.map (t : CheckTables) (lba : ℕ) : Mpa := t.orgMapTbl.words lba

/-- The word that an address is in is in the bitmap, and the count of its group in the counts. -/
structure CheckArgs.Room (args : CheckArgs) (mpa : Mpa) : Prop where
  vb : 4 * (mpa.toNat / 32) + 4 ≤ args.vbAllocSize.toNat
  shift : args.ftlNotifyGroupOffset.toNat < 32
  vc : 4 * (mpa >>> args.ftlNotifyGroupOffset).toNat + 4 ≤ args.vcTblSize.toNat

/-- The entry is in the file, and there is room for it in the tables. -/
structure CheckTables.Inside (t : CheckTables) (lba : ℕ) : Prop where
  read : 4 * lba + 4 ≤ t.orgMapTbl.size
  room : (t.map lba).Ordinary → t.args.Room (t.map lba)

/-- The bits of the bitmap before the first LBA. -/
def CheckTables.oldBits (t : CheckTables) : Set ℕ := bits fun k => t.vbTable.load 32 (4 * k)

section Step

variable {t : CheckTables} {s s' : BuildRun} {lba : ℕ} {mpa : Mpa}

theorem word_eq_some_iff : t.orgMapTbl.word lba = some mpa ↔
    4 * lba + 4 ≤ t.orgMapTbl.size ∧ t.map lba = mpa := by
  rw [FileData.word]
  split
  · rename_i hread
    rw [Option.some_inj, and_iff_right hread]
    exact Iff.rfl
  · rename_i hread
    exact iff_of_false (fun h => by cases h) fun h => hread h.1

/-- The search ends at once. -/
theorem findLba2_eq (hword : t.orgMapTbl.word lba = some mpa)
    (hlba : lba < t.args.storageMaxLba.toNat) :
    findLba2 t mpa lba (List.range t.args.storageMaxLba.toNat) = some 0 := by
  obtain ⟨n, hn⟩ : ∃ n, t.args.storageMaxLba.toNat = n + 1 := ⟨_, (Nat.succ_pred (by omega)).symm⟩
  rw [hn, List.range_succ_eq_map, findLba2, hword]
  change (if mpa = mpa then some 0 else _) = some 0
  rw [if_pos rfl]

theorem reportDuplicate_eq (duplicates : List Duplicate) (res : Int)
    (hword : t.orgMapTbl.word lba = some mpa) (hlba : lba < t.args.storageMaxLba.toNat) :
    reportDuplicate t duplicates lba mpa res
      = some (if res = -1 then duplicates ++ [⟨lba, 0, mpa⟩] else duplicates) := by
  rw [reportDuplicate]
  split
  · rw [findLba2_eq hword hlba]
    rfl
  · rfl

/-- What a turn of the loop does with an LBA. -/
structure BuildsLba (t : CheckTables) (s : BuildRun) (lba : ℕ) (s' : BuildRun) : Prop where
  vbTable : ∀ x, x ∈ bits s'.built.vbTable ↔ x ∈ bits s.built.vbTable ∨
    (t.map lba).Ordinary ∧ (t.map lba).toNat = x
  old : (t.map lba).Ordinary → (t.map lba).toNat ∈ bits s.built.vbTable →
    s'.duplicates = s.duplicates ++ [⟨lba, 0, t.map lba⟩]
  fresh : ¬ ((t.map lba).Ordinary ∧ (t.map lba).toNat ∈ bits s.built.vbTable) →
    s'.duplicates = s.duplicates

/-- **One LBA** gets through if every access is inside. -/
theorem buildLba_spec (hlba : lba < t.args.storageMaxLba.toNat) (hin : t.Inside lba) :
    ∃ s', buildLba t s lba = some s' ∧ BuildsLba t s lba s' := by
  have hword : t.orgMapTbl.word lba = some (t.map lba) := word_eq_some_iff.mpr ⟨hin.read, rfl⟩
  have hcounted : ∀ built : BuildState, built.vbTable = s.built.vbTable →
      ¬ (t.map lba).Ordinary → BuildsLba t s lba { s with built := built } := by
    intro built hvb hno
    refine ⟨fun x => ?_, fun hord => absurd hord hno, fun _ => rfl⟩
    change x ∈ bits built.vbTable ↔ _
    rw [hvb, or_iff_left fun h => hno h.1]
  rw [buildLba, hword]
  change ∃ s', (if t.map lba = invalidMpa then _ else _) = some s' ∧ _
  by_cases hi : t.map lba = invalidMpa
  · rw [if_pos hi]
    exact ⟨_, rfl, hcounted _ rfl fun h => h.1 hi⟩
  · rw [if_neg hi]
    by_cases hu : t.map lba = unmappedMpa
    · rw [if_pos hu]
      exact ⟨_, rfl, hcounted _ rfl fun h => h.2.1 hu⟩
    · rw [if_neg hu]
      by_cases huc : t.map lba = uncorrectableMpa
      · rw [if_pos huc]
        exact ⟨_, rfl, hcounted _ rfl fun h => h.2.2 huc⟩
      · have hord : (t.map lba).Ordinary := ⟨hi, hu, huc⟩
        have hroom := hin.room hord
        obtain ⟨res, vbTable, hwrite, hbits, hres⟩ :=
          selfCheckVbtblWrite_room t.ctx s.built.vbTable hroom.vb
        obtain ⟨vcTable, hvc⟩ : ∃ vcTable,
            selfCheckVctblWrite t.ctx s.built.vcTable (t.map lba) = some vcTable :=
          ⟨_, if_pos ⟨BitVec.lt_def.mpr hroom.shift, hroom.vc⟩⟩
        have hreport := reportDuplicate_eq s.duplicates res hword hlba
        rw [if_neg huc, hwrite]
        simp only [Option.bind_eq_bind, Option.bind_some, hreport, hvc]
        refine ⟨_, rfl, fun x => ?_, fun _ hmem => if_pos (hres.mpr hmem), fun hnot => ?_⟩
        · change x ∈ bits vbTable ↔ _
          rw [hbits, Set.mem_union, Set.mem_singleton_iff, and_iff_right hord, eq_comm]
        · exact if_neg fun hdup => hnot ⟨hord, hres.mp hdup⟩

theorem room_of_selfCheckVbtblWrite {ctx : SelfChkCtx} {vbTable : Bitmap 32}
    {res : Int × Bitmap 32} (h : selfCheckVbtblWrite ctx vbTable mpa = some res) :
    4 * (mpa.toNat / 32) + 4 ≤ ctx.vbTblSize.toNat := by
  by_contra hout
  simp only [selfCheckVbtblWrite] at h
  rw [dwAddr_eq, if_neg hout] at h
  cases h

/-- It does not get through otherwise. -/
theorem inside_of_buildLba (h : buildLba t s lba = some s') : t.Inside lba := by
  obtain ⟨mpa, hword, h⟩ := Option.bind_eq_some_iff.mp h
  obtain ⟨hread, rfl⟩ := word_eq_some_iff.mp hword
  refine ⟨hread, fun hord => ?_⟩
  rw [if_neg hord.1, if_neg hord.2.1, if_neg hord.2.2] at h
  obtain ⟨⟨res, vbTable⟩, hwrite, h⟩ := Option.bind_eq_some_iff.mp h
  obtain ⟨_, -, h⟩ := Option.bind_eq_some_iff.mp h
  obtain ⟨_, hcount, -⟩ := Option.bind_eq_some_iff.mp h
  have hgroup : t.args.ftlNotifyGroupOffset < 32 ∧
      4 * t.ctx.group (t.map lba) + 4 ≤ t.args.vcTblSize.toNat := by
    by_contra hout
    have hno : selfCheckVctblWrite t.ctx s.built.vcTable (t.map lba) = none := if_neg hout
    rw [hno] at hcount
    cases hcount
  exact ⟨room_of_selfCheckVbtblWrite hwrite, BitVec.lt_def.mp hgroup.1, hgroup.2⟩

end Step

/-! ## All LBAs -/

/-- The duplicates that are reported for the first `n` LBAs: all of an address that was there
before, and `lba2` is 0. -/
structure Reported (t : CheckTables) (n : ℕ) (s : BuildRun) : Prop where
  vbTable : ∀ x, x ∈ bits s.built.vbTable ↔
    x ∈ t.oldBits ∨ ∃ lba < n, (t.map lba).Ordinary ∧ (t.map lba).toNat = x
  mem : ∀ d ∈ s.duplicates, d.lba < n ∧ (t.map d.lba).Ordinary ∧ d.lba2 = 0 ∧ d.mpa = t.map d.lba
  shared : ∀ lba < n, ∀ lba' < lba, (t.map lba).Ordinary → t.map lba' = t.map lba →
    ⟨lba, 0, t.map lba⟩ ∈ s.duplicates
  earlier : ∀ d ∈ s.duplicates, (t.map d.lba).toNat ∈ t.oldBits ∨
    ∃ lba < d.lba, t.map lba = t.map d.lba
  countOld : ∀ mpa : Mpa, mpa.Ordinary → mpa.toNat ∈ t.oldBits →
    s.duplicates.countP (fun d => d.mpa = mpa) = countLbas (fun lba => t.map lba = mpa) n
  countNew : ∀ mpa : Mpa, mpa.Ordinary → mpa.toNat ∉ t.oldBits →
    s.duplicates.countP (fun d => d.mpa = mpa) = countLbas (fun lba => t.map lba = mpa) n - 1

section Run

variable {t : CheckTables} {n : ℕ} {s s' : BuildRun}

theorem Reported.start : Reported t 0 (.start t) where
  vbTable x := by
    refine ⟨fun h => .inl h, ?_⟩
    rintro (h | ⟨_, hlt, _⟩)
    · exact h
    · exact absurd hlt (Nat.not_lt_zero _)
  mem _ h := absurd h List.not_mem_nil
  shared _ h := absurd h (Nat.not_lt_zero _)
  earlier _ h := absurd h List.not_mem_nil
  countOld _ _ _ := rfl
  countNew _ _ _ := rfl

/-- An address is held by an LBA if the count says so. -/
theorem countLbas_pos_iff (p : ℕ → Prop) [DecidablePred p] (n : ℕ) :
    0 < countLbas p n ↔ ∃ lba < n, p lba := by
  rw [countLbas, List.countP_pos_iff]
  simp only [List.mem_range, decide_eq_true_eq]

/-- One LBA more that holds an address, or not. -/
theorem countP_append_duplicate (duplicates : List Duplicate) (lba : ℕ) (mpa mpa' : Mpa) :
    (duplicates ++ [Duplicate.mk lba 0 mpa']).countP (fun d => d.mpa = mpa)
      = duplicates.countP (fun d => d.mpa = mpa) + if mpa' = mpa then 1 else 0 := by
  rw [List.countP_append, List.countP_singleton]
  simp only [decide_eq_true_eq]

/-- **One LBA** keeps the reports right. -/
theorem Reported.step (h : Reported t n s) (hstep : BuildsLba t s n s') :
    Reported t (n + 1) s' := by
  have hvb : ∀ x, x ∈ bits s'.built.vbTable ↔
      x ∈ t.oldBits ∨ ∃ lba < n + 1, (t.map lba).Ordinary ∧ (t.map lba).toNat = x := by
    intro x
    rw [hstep.vbTable, h.vbTable, or_assoc, Nat.exists_lt_succ_right]
  -- the bit is set if it was before, or by an LBA that holds the address too
  have hset : (t.map n).Ordinary → ((t.map n).toNat ∈ bits s.built.vbTable ↔
      (t.map n).toNat ∈ t.oldBits ∨ ∃ lba < n, t.map lba = t.map n) := by
    intro hord
    rw [h.vbTable]
    refine or_congr_right ⟨?_, ?_⟩
    · rintro ⟨lba, hlba, -, heq⟩
      exact ⟨lba, hlba, BitVec.eq_of_toNat_eq heq⟩
    · rintro ⟨lba, hlba, heq⟩
      exact ⟨lba, hlba, heq ▸ hord, congrArg BitVec.toNat heq⟩
  by_cases hdup : (t.map n).Ordinary ∧ (t.map n).toNat ∈ bits s.built.vbTable
  · obtain ⟨hord, hmem⟩ := hdup
    have hdups := hstep.old hord hmem
    refine ⟨hvb, ?_, ?_, ?_, ?_, ?_⟩
    · intro d hd
      rw [hdups] at hd
      rcases List.mem_append.mp hd with hold | hnew
      · obtain ⟨hlt, hrest⟩ := h.mem d hold
        exact ⟨Nat.lt_succ_of_lt hlt, hrest⟩
      · obtain rfl := List.mem_singleton.mp hnew
        exact ⟨Nat.lt_succ_self n, hord, rfl, rfl⟩
    · intro lba hlba lba' hlba' hord' heq
      rw [hdups]
      rcases Nat.lt_succ_iff_lt_or_eq.mp hlba with hlt | rfl
      · exact List.mem_append_left _ (h.shared lba hlt lba' hlba' hord' heq)
      · exact List.mem_append_right _ List.mem_cons_self
    · intro d hd
      rw [hdups] at hd
      rcases List.mem_append.mp hd with hold | hnew
      · exact h.earlier d hold
      · obtain rfl := List.mem_singleton.mp hnew
        exact (hset hord).mp hmem
    · intro mpa hmpa hold
      rw [hdups, countP_append_duplicate, countLbas_succ, h.countOld mpa hmpa hold]
    · intro mpa hmpa hno
      rw [hdups, countP_append_duplicate, countLbas_succ, h.countNew mpa hmpa hno]
      split
      · rename_i heq
        have hpos : 0 < countLbas (fun lba => t.map lba = mpa) n := by
          rw [countLbas_pos_iff, ← heq]
          exact ((hset hord).mp hmem).resolve_left (heq ▸ hno)
        omega
      · rfl
  · have hdups := hstep.fresh hdup
    refine ⟨hvb, ?_, ?_, ?_, ?_, ?_⟩
    · intro d hd
      obtain ⟨hlt, hrest⟩ := h.mem d (hdups ▸ hd)
      exact ⟨Nat.lt_succ_of_lt hlt, hrest⟩
    · intro lba hlba lba' hlba' hord' heq
      rw [hdups]
      rcases Nat.lt_succ_iff_lt_or_eq.mp hlba with hlt | rfl
      · exact h.shared lba hlt lba' hlba' hord' heq
      · exact absurd ⟨hord', (hset hord').mpr (.inr ⟨lba', hlba', heq⟩)⟩ hdup
    · intro d hd
      exact h.earlier d (hdups ▸ hd)
    · intro mpa hmpa hold
      rw [hdups, countLbas_succ, h.countOld mpa hmpa hold, if_neg, Nat.add_zero]
      rintro rfl
      exact hdup ⟨hmpa, (hset hmpa).mpr (.inl hold)⟩
    · intro mpa hmpa hno
      rw [hdups, countLbas_succ, h.countNew mpa hmpa hno]
      split
      · rename_i heq
        have hzero : ¬ 0 < countLbas (fun lba => t.map lba = mpa) n := by
          rw [countLbas_pos_iff, ← heq]
          rintro hex
          exact hdup ⟨heq ▸ hmpa, (hset (heq ▸ hmpa)).mpr (.inr hex)⟩
        omega
      · rfl

/-- **The build** gets through exactly if every access is inside, and then the reports are right. -/
theorem buildFromMtbl_spec (hin : ∀ lba < t.args.storageMaxLba.toNat, t.Inside lba) :
    ∃ s, buildFromMtbl t = some s ∧ Reported t t.args.storageMaxLba.toNat s := by
  have hloop : ∀ n ≤ t.args.storageMaxLba.toNat,
      ∃ s, (List.range n).foldlM (buildLba t) (.start t) = some s ∧ Reported t n s := by
    intro n
    induction n with
    | zero => exact fun _ => ⟨_, rfl, .start⟩
    | succ n ih =>
      intro hn
      obtain ⟨s, hs, hreported⟩ := ih (Nat.le_of_succ_le hn)
      obtain ⟨s', hs', hstep⟩ := buildLba_spec (s := s) (Nat.lt_of_succ_le hn)
        (hin n (Nat.lt_of_succ_le hn))
      refine ⟨s', ?_, hreported.step hstep⟩
      rw [List.range_succ, List.foldlM_append, hs]
      change buildLba t s n >>= _ = _
      rw [hs']
      rfl
  exact hloop _ le_rfl

theorem inside_of_buildFromMtbl (h : buildFromMtbl t = some s) :
    ∀ lba < t.args.storageMaxLba.toNat, t.Inside lba := by
  have hloop : ∀ n s, (List.range n).foldlM (buildLba t) (.start t) = some s →
      ∀ lba < n, t.Inside lba := by
    intro n
    induction n with
    | zero => exact fun _ _ _ hlba => absurd hlba (Nat.not_lt_zero _)
    | succ n ih =>
      intro s hs lba hlba
      rw [List.range_succ, List.foldlM_append] at hs
      obtain ⟨before, hbefore, hs⟩ := Option.bind_eq_some_iff.mp hs
      obtain ⟨after, hafter, -⟩ := Option.bind_eq_some_iff.mp hs
      rcases Nat.lt_succ_iff_lt_or_eq.mp hlba with hlt | rfl
      · exact ih before hbefore lba hlt
      · exact inside_of_buildLba hafter
  exact hloop _ s h

end Run

/-! ## Safety -/

/-- What `_self_check_init` leaves, when it has memory and a file. -/
theorem selfCheckInit_eq (args : CheckArgs) (vbTable vcTable : Buf) (mapFile : FileData) :
    selfCheckInit args (some vbTable) (some vcTable) (some mapFile) = some {
      args := args
      vbTable := vbTable.fill 0 0 args.vbTblSize.toNat
      vcTable := vcTable.fill 0 0 args.vcTblSize.toNat
      orgMapTbl := mapFile } := rfl

/-- The bitmap that was allocated is clear. -/
def CheckTables.Clear (t : CheckTables) : Prop :=
  ∀ i < t.args.vbAllocSize.toNat, t.vbTable i = 0

/-- The memory is cleared if its size was given. -/
theorem clear_iff (args : CheckArgs) (vbTable vcTable : Buf) (mapFile : FileData) :
    CheckTables.Clear ⟨args, vbTable.fill 0 0 args.vbTblSize.toNat, vcTable, mapFile⟩ ↔
      (args.vbTblSize = 0 → ∀ i < args.vbAllocSize.toNat, vbTable i = 0) := by
  by_cases hzero : args.vbTblSize = 0
  · rw [forall_prop_of_true hzero, CheckTables.Clear, hzero]
    refine forall₂_congr fun i _ => ?_
    change (vbTable.copy 0 (fun _ => 0) 0) i = 0 ↔ _
    rw [Buf.copy_out (.inr (Nat.zero_le i))]
  · refine iff_of_true ?_ fun h => absurd h hzero
    have hsize : args.vbAllocSize = args.vbTblSize := if_neg hzero
    intro i hi
    exact Buf.fill_zero (hsize ▸ hi)

/-- **The build is safe** exactly if the size of the bitmap was given or the memory for it happened
to be clear, the file has an entry for each LBA, and each that is an address has its bit and its
count in the tables. -/
theorem selfCheckInit_safe_iff (args : CheckArgs) (vbTable vcTable : Buf) (mapFile : FileData) :
    ∃ t, selfCheckInit args (some vbTable) (some vcTable) (some mapFile) = some t ∧
      ((∀ i < args.vbAllocSize.toNat, t.vbTable i = 0) ∧
        (∃ s, buildFromMtbl t = some s ∧
          ((∃ lba < args.storageMaxLba.toNat, (t.map lba).Ordinary ∧ ¬ args.Room (t.map lba)) →
            s.built.retVal < 0)) ↔
        (args.vbTblSize = 0 → ∀ i < args.vbAllocSize.toNat, vbTable i = 0) ∧
          ∀ lba < args.storageMaxLba.toNat, 4 * lba + 4 ≤ mapFile.size ∧
            (Mpa.Ordinary (mapFile.words lba) → args.Room (mapFile.words lba))) := by
  refine ⟨_, selfCheckInit_eq args vbTable vcTable mapFile, and_congr (clear_iff _ _ _ _) ⟨?_, ?_⟩⟩
  · rintro ⟨s, hbuild, -⟩ lba hlba
    have hin := inside_of_buildFromMtbl hbuild lba hlba
    exact ⟨hin.read, hin.room⟩
  · intro hin
    obtain ⟨s, hbuild, -⟩ := buildFromMtbl_spec
      (t := ⟨args, vbTable.fill 0 0 args.vbTblSize.toNat, vcTable.fill 0 0 args.vcTblSize.toNat,
        mapFile⟩) fun lba hlba => ⟨(hin lba hlba).1, (hin lba hlba).2⟩
    refine ⟨s, hbuild, ?_⟩
    rintro ⟨lba, hlba, hord, hout⟩
    exact absurd ((hin lba hlba).2 hord) hout

/-- A map whose one entry is beyond the tables of 8 bytes. -/
def beyondArgs : CheckArgs := ⟨1, 8, 8, 13⟩

/-- The check does not find the entry, and uses it as an index. -/
theorem selfCheckInit_beyond :
    ¬ ∀ (args : CheckArgs) (vbTable vcTable : Buf) (mapFile : FileData) (t : CheckTables),
      selfCheckInit args (some vbTable) (some vcTable) (some mapFile) = some t →
      (∀ i < args.vbAllocSize.toNat, t.vbTable i = 0) ∧
        ∃ s, buildFromMtbl t = some s ∧
          ((∃ lba < args.storageMaxLba.toNat, (t.map lba).Ordinary ∧ ¬ args.Room (t.map lba)) →
            s.built.retVal < 0) := by
  intro h
  obtain ⟨-, s, hbuild, -⟩ := h beyondArgs (fun _ => 0) (fun _ => 0) ⟨4, fun _ => 1⟩ _ rfl
  have hroom := (inside_of_buildFromMtbl hbuild 0 Nat.one_pos).room (by decide)
  exact absurd hroom.vb (by decide)

/-! ## The duplicates -/

/-- **The reports name the first owner** exactly if no bit of an address of the map was set before,
and every address that two LBAs hold is that of the first LBA. For an address with `k` of them
there are `k - 1` reports. -/
theorem buildFromMtbl_owners_iff {t : CheckTables}
    (hin : ∀ lba < t.args.storageMaxLba.toNat, t.Inside lba) :
    ∃ s, buildFromMtbl t = some s ∧
      ((∀ d ∈ s.duplicates, d.lba ≠ d.lba2 ∧ d.lba < t.args.storageMaxLba.toNat ∧
          d.lba2 < t.args.storageMaxLba.toNat ∧ t.map d.lba = d.mpa ∧ t.map d.lba2 = d.mpa ∧
          ∀ lba < d.lba2, t.map lba ≠ d.mpa) ∧
        (∀ mpa : Mpa, mpa.Ordinary →
          1 ≤ countLbas (fun lba => t.map lba = mpa) t.args.storageMaxLba.toNat →
          s.duplicates.countP (fun d => d.mpa = mpa)
            = countLbas (fun lba => t.map lba = mpa) t.args.storageMaxLba.toNat - 1) ↔
        (∀ lba < t.args.storageMaxLba.toNat, (t.map lba).Ordinary →
          (t.map lba).toNat ∉ bits fun k => t.vbTable.load 32 (4 * k)) ∧
        ∀ lba < t.args.storageMaxLba.toNat, ∀ lba' < lba, (t.map lba).Ordinary →
          t.map lba' = t.map lba → t.map 0 = t.map lba) := by
  obtain ⟨s, hbuild, h⟩ := buildFromMtbl_spec hin
  refine ⟨s, hbuild, ?_, ?_⟩
  · rintro ⟨hname, hcount⟩
    refine ⟨?_, ?_⟩
    · intro lba hlba hord hold
      have hpos : 0 < countLbas (fun l => t.map l = t.map lba) t.args.storageMaxLba.toNat :=
        (countLbas_pos_iff _ _).mpr ⟨lba, hlba, rfl⟩
      have hall := h.countOld (t.map lba) hord hold
      have hless := hcount (t.map lba) hord hpos
      omega
    · intro lba hlba lba' hlba' hord heq
      exact (hname _ (h.shared lba hlba lba' hlba' hord heq)).2.2.2.2.1
  · rintro ⟨hclear, hfirst⟩
    refine ⟨?_, ?_⟩
    · intro d hd
      obtain ⟨hlba, hord, hlba2, hmpa⟩ := h.mem d hd
      obtain ⟨lba', hlba', heq⟩ := (h.earlier d hd).resolve_left (hclear d.lba hlba hord)
      have hzero := hfirst d.lba hlba lba' hlba' hord heq
      rw [hlba2, hmpa]
      exact ⟨by omega, hlba, by omega, rfl, hzero, fun _ hlt => absurd hlt (Nat.not_lt_zero _)⟩
    · intro mpa hmpa hpos
      obtain ⟨lba, hlba, rfl⟩ := (countLbas_pos_iff _ _).mp hpos
      exact h.countNew _ hmpa (hclear lba hlba hmpa)

/-- A bitmap of one word, a count of one group, and a map of three LBAs. -/
def threeTables (mpa₀ mpa₁ mpa₂ : Byte) : CheckTables where
  args := ⟨3, 4, 4, 13⟩
  vbTable _ := 0
  vcTable _ := 0
  orgMapTbl :=
    ⟨12, fun i => if i = 0 then mpa₀ else if i = 4 then mpa₁ else if i = 8 then mpa₂ else 0⟩

/-- There is room for addresses of the first word and the first group. -/
theorem threeTables_inside {mpa₀ mpa₁ mpa₂ : Byte}
    (hvb : ∀ lba < 3, ((threeTables mpa₀ mpa₁ mpa₂).map lba).toNat / 32 = 0)
    (hvc : ∀ lba < 3, ((threeTables mpa₀ mpa₁ mpa₂).map lba >>> (13 : BitVec 32)).toNat = 0) :
    ∀ lba < 3, (threeTables mpa₀ mpa₁ mpa₂).Inside lba := by
  intro lba hlba
  have hread : 4 * lba + 4 ≤ 12 := by omega
  refine ⟨hread, fun _ => ⟨?_, ?_, ?_⟩⟩
  · rw [hvb lba hlba]
    exact le_rfl
  · change 13 < 32
    omega
  · change 4 * ((threeTables mpa₀ mpa₁ mpa₂).map lba >>> (13 : BitVec 32)).toNat + 4 ≤ 4
    rw [hvc lba hlba]

/-- The first LBA holds the address that is shared. -/
theorem buildFromMtbl_owners_first : ∃ s, buildFromMtbl (threeTables 5 5 9) = some s ∧
    s.duplicates.countP (fun d => d.mpa = 5) = 1 ∧
      ∀ d ∈ s.duplicates, d.lba ≠ d.lba2 ∧ ∀ lba < d.lba2, (threeTables 5 5 9).map lba ≠ d.mpa := by
  obtain ⟨s, hbuild, hiff⟩ := buildFromMtbl_owners_iff (t := threeTables 5 5 9)
    (threeTables_inside (by decide) (by decide))
  have hclear : ∀ lba < 3, Mpa.Ordinary ((threeTables 5 5 9).map lba) →
      ¬ ((threeTables 5 5 9).vbTable.load 32
        (4 * (((threeTables 5 5 9).map lba).toNat / 32))).getLsbD
          (((threeTables 5 5 9).map lba).toNat % 32) = true := by decide
  have hfirst : ∀ lba < 3, ∀ lba' < lba, Mpa.Ordinary ((threeTables 5 5 9).map lba) →
      (threeTables 5 5 9).map lba' = (threeTables 5 5 9).map lba →
      (threeTables 5 5 9).map 0 = (threeTables 5 5 9).map lba := by decide
  obtain ⟨hname, hcount⟩ := hiff.mpr ⟨hclear, hfirst⟩
  refine ⟨s, hbuild, hcount 5 (by decide) (by decide), fun d hd => ?_⟩
  obtain ⟨hne, -, -, -, -, hleast⟩ := hname d hd
  exact ⟨hne, hleast⟩

/-- The address that two LBAs share is not that of the first, and still that is reported. -/
theorem buildFromMtbl_owners_later :
    ¬ ∀ t : CheckTables, (∀ lba < t.args.storageMaxLba.toNat, t.Inside lba) →
      ∃ s, buildFromMtbl t = some s ∧
        ∀ d ∈ s.duplicates, t.map d.lba = d.mpa ∧ t.map d.lba2 = d.mpa := by
  intro h
  have hin : ∀ lba < 3, (threeTables 9 5 5).Inside lba :=
    threeTables_inside (by decide) (by decide)
  obtain ⟨s, hbuild, howners⟩ := h (threeTables 9 5 5) hin
  obtain ⟨s', hbuild', hreported⟩ := buildFromMtbl_spec (t := threeTables 9 5 5) hin
  obtain rfl := Option.some_inj.mp (hbuild.symm.trans hbuild')
  have hmem := hreported.shared 2 (by decide) 1 (by decide) (by decide) (by decide)
  exact absurd (howners _ hmem).2 (by decide)

end ChamberSpo

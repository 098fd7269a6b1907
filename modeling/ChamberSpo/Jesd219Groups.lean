import ChamberSpo.Jesd219

/-!
# The groups of JESD219

What `jesd219_gen` picks when the ratios of the groups are exact.

* `exactGroup` — the groups of a namespace: 5, 15 and 80 percent of it.
* `Jesd219Kept` — the groups cover the namespace, nothing is truncated to 32 bits, and the LBA is
  in the group that was drawn.
* `RoundsFit` — the draws for which it is (`jesd219Kept_iff`).
-/

namespace ChamberSpo

/-- Where a group starts and how large it is, in percent of the namespace. -/
def LbaGroupIdx.percent : LbaGroupIdx → ℕ × ℕ
  | .a => (0, 5)
  | .b => (5, 15)
  | .c => (5 + 15, 80)

/-- The start of a group, without truncation. -/
def groupStart (nlbs : ℕ) (idx : LbaGroupIdx) : ℕ := nlbs * idx.percent.1 / 100

/-- The size of a group, without truncation. -/
def groupSize (nlbs : ℕ) (idx : LbaGroupIdx) : ℕ := nlbs * idx.percent.2 / 100

section Groups

-- the conversion to a `u32` of what does not fit, as in `lbaGroup`
variable (outside : ℕ → BitVec 32)

/-- The conversion of an exact number to a `u32`. -/
def toU32 (v : ℕ) : BitVec 32 := if v < 2 ^ 32 then BitVec.ofNat 32 v else outside v

/-- The `switch` of `jesd219_gen`, like `lbaGroup` with exact ratios. -/
def exactGroup (nlbs : ℕ) (idx : LbaGroupIdx) : LbaGroup where
  startLba := toU32 outside (groupStart nlbs idx)
  size := toU32 outside (groupSize nlbs idx)

end Groups

/-- The end of a group. -/
def LbaGroup.stop (group : LbaGroup) : ℕ := group.startLba.toNat + group.size.toNat

/-- The groups follow each other and cover the namespace, up to the rounding of their borders. -/
structure CoverNamespace (groups : LbaGroupIdx → LbaGroup) (nlbs : ℕ) : Prop where
  first : (groups .a).startLba.toNat = 0
  second : (groups .b).startLba.toNat = (groups .a).stop
  third_ge : (groups .b).stop ≤ (groups .c).startLba.toNat
  third_le : (groups .c).startLba.toNat ≤ (groups .b).stop + 1
  stop_le : (groups .c).stop ≤ nlbs
  le_stop : nlbs ≤ (groups .c).stop + 1

/-- The rounds that the loop of `jesd219_gen` makes. -/
def loopRounds (group : LbaGroup) (sectorSize nlbs : ℕ) : List (ℕ × ℕ) → List (ℕ × ℕ)
  | [] => []
  | words :: rest =>
    words :: match jesd219Round group sectorSize words with
      | none => []
      | some (slba, nbls) =>
        if slba + nbls ≤ nlbs then [] else loopRounds group sectorSize nlbs rest

/-- No start LBA of the loop is truncated, and what it returns starts in the group and ends in the
namespace. -/
structure LoopKept (group : LbaGroup) (sectorSize nlbs : ℕ) (rounds : List (ℕ × ℕ)) : Prop where
  fits : ∀ words ∈ loopRounds group sectorSize nlbs rounds,
    words.1 % group.size.toNat + group.startLba.toNat < 2 ^ 32
  inside : ∀ slba nbls, jesd219Loop group sectorSize nlbs rounds = some (slba, nbls) →
    group.startLba.toNat ≤ slba ∧ slba < group.stop ∧ slba + nbls ≤ nlbs

/-- What is meant to hold of a call of `jesd219_gen`. -/
structure Jesd219Kept (outside : ℕ → BitVec 32) (nlbs sectorSize : ℕ) (well : WellDraws) :
    Prop where
  cover : CoverNamespace (exactGroup outside nlbs) nlbs
  start_eq : ∀ idx, (exactGroup outside nlbs idx).startLba.toNat = groupStart nlbs idx
  size_eq : ∀ idx, (exactGroup outside nlbs idx).size.toNat = groupSize nlbs idx
  loop : LoopKept (exactGroup outside nlbs (getLbaGrpIdx (well.group % 100))) sectorSize nlbs
    well.rounds

/-! ## The draws that fit -/

/-- The start of a round in a group, without truncation. -/
def roundStart (start size : ℕ) (words : ℕ × ℕ) : ℕ := words.1 % size + start

/-- The number of LBAs of a round. -/
def roundNbls (sectorSize : ℕ) (words : ℕ × ℕ) : ℕ :=
  if sectorSize = sizeOfSector then getNumOfMu (words.2 % 100) else getNumOfMu4k (words.2 % 100)

/-- Whether the LBA of a round is aligned to 4096 bytes. -/
def Aligns (sectorSize : ℕ) (words : ℕ × ℕ) : Prop :=
  sectorSize = sizeOfSector ∧ 8 ≤ roundNbls sectorSize words

instance (sectorSize : ℕ) (words : ℕ × ℕ) : Decidable (Aligns sectorSize words) :=
  inferInstanceAs (Decidable (_ ∧ _))

/-- The LBA of a round, without truncation. -/
def roundSlba (start size sectorSize : ℕ) (words : ℕ × ℕ) : ℕ :=
  if Aligns sectorSize words then roundStart start size words - roundStart start size words % 8
  else roundStart start size words

/-- A round is the last one if it ends in the namespace, or if the sectors have another size. -/
def Ends (start size sectorSize nlbs : ℕ) (words : ℕ × ℕ) : Prop :=
  sectorSize = sizeOfSector ∨ sectorSize = sizeOfSector4k →
    roundSlba start size sectorSize words + roundNbls sectorSize words ≤ nlbs

instance (start size sectorSize nlbs : ℕ) (words : ℕ × ℕ) :
    Decidable (Ends start size sectorSize nlbs words) :=
  inferInstanceAs (Decidable (_ → _))

/-- The rounds up to the last one. -/
def roundsMade (start size sectorSize nlbs : ℕ) : List (ℕ × ℕ) → List (ℕ × ℕ)
  | [] => []
  | words :: rest =>
    words :: if Ends start size sectorSize nlbs words then []
      else roundsMade start size sectorSize nlbs rest

/-- The draws of a call stay below 32 bits, and what is aligned stays in its group. -/
structure RoundsFit (start size sectorSize nlbs : ℕ) (rounds : List (ℕ × ℕ)) : Prop where
  fits : ∀ words ∈ roundsMade start size sectorSize nlbs rounds,
    roundStart start size words < 2 ^ 32
  aligned : ∀ words ∈ roundsMade start size sectorSize nlbs rounds,
    Ends start size sectorSize nlbs words → Aligns sectorSize words →
      roundStart start size words % 8 ≤ words.1 % size

variable {group : LbaGroup} {sectorSize nlbs start size : ℕ}

/-- A group without truncation. -/
structure LbaGroup.Is (group : LbaGroup) (start size : ℕ) : Prop where
  startLba : group.startLba.toNat = start
  size : group.size.toNat = size

/-- A round that fits is what it is without truncation. -/
theorem jesd219Round_eq (hgroup : group.Is start size) {words : ℕ × ℕ}
    (hfits : roundStart start size words < 2 ^ 32) :
    jesd219Round group sectorSize words =
      if sectorSize = sizeOfSector ∨ sectorSize = sizeOfSector4k then
        some (roundSlba start size sectorSize words, roundNbls sectorSize words)
      else none := by
  have hstart : startLba group words.1 = roundStart start size words := by
    rw [startLba, hgroup.startLba, hgroup.size]
    exact Nat.mod_eq_of_lt hfits
  have height : 4096 / sizeOfSector = 8 := rfl
  simp only [jesd219Round, hstart, height, roundSlba, Aligns, roundNbls]
  by_cases hsmall : sectorSize = sizeOfSector
  · simp only [hsmall, if_true, true_and, true_or]
    split
    · rename_i hpart
      rw [if_neg (Nat.not_le.mpr hpart)]
    · rename_i hwhole
      rw [if_pos (Nat.not_lt.mp hwhole)]
  · simp only [hsmall, if_false, false_and, false_or]

/-- As long as the rounds fit, the loop makes those that it would make without truncation. -/
theorem loopRounds_fit_iff (hgroup : group.Is start size) (rounds : List (ℕ × ℕ)) :
    (∀ words ∈ loopRounds group sectorSize nlbs rounds, roundStart start size words < 2 ^ 32) ↔
      ∀ words ∈ roundsMade start size sectorSize nlbs rounds,
        roundStart start size words < 2 ^ 32 := by
  induction rounds with
  | nil => exact Iff.rfl
  | cons words rest ih =>
    simp only [loopRounds, roundsMade, List.forall_mem_cons]
    refine and_congr_right ?_
    intro hfits
    rw [jesd219Round_eq hgroup hfits]
    by_cases hsector : sectorSize = sizeOfSector ∨ sectorSize = sizeOfSector4k
    · have hends : Ends start size sectorSize nlbs words ↔
          roundSlba start size sectorSize words + roundNbls sectorSize words ≤ nlbs :=
        ⟨fun h => h hsector, fun h _ => h⟩
      simp only [if_pos hsector, hends]
      split
      · exact Iff.rfl
      · exact ih
    · have hends : Ends start size sectorSize nlbs words := fun h => absurd h hsector
      simp only [if_neg hsector, if_pos hends]

/-- And comes out of the last of them. -/
theorem jesd219Loop_eq_some (hgroup : group.Is start size) {rounds : List (ℕ × ℕ)}
    (hfits : ∀ words ∈ roundsMade start size sectorSize nlbs rounds,
      roundStart start size words < 2 ^ 32) (slba nbls : ℕ) :
    jesd219Loop group sectorSize nlbs rounds = some (slba, nbls) ↔
      (sectorSize = sizeOfSector ∨ sectorSize = sizeOfSector4k) ∧
        ∃ words ∈ roundsMade start size sectorSize nlbs rounds,
          Ends start size sectorSize nlbs words ∧
          slba = roundSlba start size sectorSize words ∧ nbls = roundNbls sectorSize words := by
  induction rounds with
  | nil =>
    refine ⟨?_, ?_⟩
    · intro h
      cases h
    · rintro ⟨-, words, hwords, -⟩
      exact absurd hwords List.not_mem_nil
  | cons words rest ih =>
    simp only [roundsMade, List.forall_mem_cons] at hfits ⊢
    obtain ⟨hfirst, hrest⟩ := hfits
    rw [jesd219Loop, jesd219Round_eq hgroup hfirst]
    by_cases hsector : sectorSize = sizeOfSector ∨ sectorSize = sizeOfSector4k
    · simp only [if_pos hsector]
      by_cases hends : Ends start size sectorSize nlbs words
      · rw [if_pos hends, if_pos (hends hsector), Option.some.injEq, Prod.mk.injEq]
        refine ⟨fun h => ⟨hsector, words, List.mem_cons_self, hends, h.1.symm, h.2.symm⟩, ?_⟩
        rintro ⟨-, words', hwords, -, rfl, rfl⟩
        rw [List.mem_singleton.mp hwords]
        exact ⟨rfl, rfl⟩
      · have hgoes : ¬ roundSlba start size sectorSize words + roundNbls sectorSize words ≤ nlbs :=
          fun hle => hends fun _ => hle
        simp only [if_neg hgoes, List.mem_cons, exists_eq_or_imp, hends, false_and, false_or]
        rw [if_neg hends] at hrest
        exact ih hrest
    · simp only [if_neg hsector]
      refine ⟨?_, fun h => absurd h.1 hsector⟩
      intro h
      cases h

/-- The LBA of a round is not before the group if the alignment leaves it there. -/
theorem le_roundSlba_iff {words : ℕ × ℕ} :
    start ≤ roundSlba start size sectorSize words ↔
      (Aligns sectorSize words → roundStart start size words % 8 ≤ words.1 % size) := by
  rw [roundSlba, roundStart]
  split
  · rename_i haligns
    have hle := Nat.mod_le (words.1 % size + start) 8
    simp only [haligns, true_imp_iff]
    omega
  · rename_i hno
    exact ⟨fun _ haligns => absurd haligns hno, fun _ => Nat.le_add_left _ _⟩

/-- And never behind it. -/
theorem roundSlba_lt (hsize : 0 < size) (words : ℕ × ℕ) :
    roundSlba start size sectorSize words < start + size := by
  have hlt := Nat.mod_lt words.1 hsize
  rw [roundSlba, roundStart]
  split <;> omega

/-- **Which draws keep to a group.** -/
theorem loopKept_iff (hgroup : group.Is start size) (hsize : 0 < size) (rounds : List (ℕ × ℕ)) :
    LoopKept group sectorSize nlbs rounds ↔ RoundsFit start size sectorSize nlbs rounds := by
  have hstop : group.stop = start + size := by rw [LbaGroup.stop, hgroup.startLba, hgroup.size]
  have hfits : (∀ words ∈ loopRounds group sectorSize nlbs rounds,
      words.1 % group.size.toNat + group.startLba.toNat < 2 ^ 32) ↔
        ∀ words ∈ roundsMade start size sectorSize nlbs rounds,
          roundStart start size words < 2 ^ 32 := by
    rw [hgroup.startLba, hgroup.size]
    exact loopRounds_fit_iff hgroup rounds
  refine ⟨fun h => ⟨hfits.mp h.fits, fun words hwords hends haligns => ?_⟩,
    fun h => ⟨hfits.mpr h.fits, fun slba nbls hloop => ?_⟩⟩
  · have hsome := (jesd219Loop_eq_some hgroup (hfits.mp h.fits) _ _).mpr
      ⟨.inl haligns.1, words, hwords, hends, rfl, rfl⟩
    have hle := (h.inside _ _ hsome).1
    rw [hgroup.startLba] at hle
    exact le_roundSlba_iff.mp hle haligns
  · obtain ⟨hsector, words, hwords, hends, rfl, rfl⟩ :=
      (jesd219Loop_eq_some hgroup h.fits _ _).mp hloop
    rw [hgroup.startLba, hstop]
    exact ⟨le_roundSlba_iff.mpr (h.aligned words hwords hends), roundSlba_lt hsize words,
      hends hsector⟩

/-! ## The groups -/

theorem toU32_toNat {outside : ℕ → BitVec 32} {v : ℕ} :
    (toU32 outside v).toNat = v ↔ v < 2 ^ 32 := by
  refine ⟨?_, ?_⟩
  · intro h
    rw [← h]
    exact (toU32 outside v).isLt
  · intro h
    rw [toU32, if_pos h, BitVec.toNat_ofNat, Nat.mod_eq_of_lt h]

/-- No group is truncated if the size of the third is not. -/
theorem exactGroup_is {nlbs : ℕ} (outside : ℕ → BitVec 32) (h : nlbs * 80 / 100 < 2 ^ 32)
    (idx : LbaGroupIdx) :
    (exactGroup outside nlbs idx).Is (groupStart nlbs idx) (groupSize nlbs idx) := by
  refine ⟨toU32_toNat.mpr ?_, toU32_toNat.mpr ?_⟩ <;>
    cases idx <;> simp only [groupStart, groupSize, LbaGroupIdx.percent] <;> omega

/-- The borders of the groups. -/
theorem coverNamespace_of_is {groups : LbaGroupIdx → LbaGroup}
    (h : ∀ idx, (groups idx).Is (groupStart nlbs idx) (groupSize nlbs idx)) :
    CoverNamespace groups nlbs := by
  have hstart := fun idx => (h idx).startLba
  have hsize := fun idx => (h idx).size
  simp only [groupStart, groupSize] at hstart hsize
  refine ⟨?_, ?_, ?_, ?_, ?_, ?_⟩ <;>
    simp only [LbaGroup.stop, hstart, hsize, LbaGroupIdx.percent] <;> omega

/-- **Which calls of `jesd219_gen` are right**: the third group has fewer than `2 ^ 32` LBAs, and
the draws fit. -/
theorem jesd219Kept_iff (outside : ℕ → BitVec 32) (sectorSize : ℕ) (well : WellDraws)
    (hnlbs : 20 ≤ nlbs) :
    Jesd219Kept outside nlbs sectorSize well ↔
      nlbs * 80 / 100 < 2 ^ 32 ∧
        RoundsFit (groupStart nlbs (getLbaGrpIdx (well.group % 100)))
          (groupSize nlbs (getLbaGrpIdx (well.group % 100))) sectorSize nlbs well.rounds := by
  have hsize : ∀ idx, 0 < groupSize nlbs idx := by
    intro idx
    cases idx <;> simp only [groupSize, LbaGroupIdx.percent] <;> omega
  refine ⟨?_, fun ⟨hthird, hrounds⟩ => ?_⟩
  · intro h
    have hthird : nlbs * 80 / 100 < 2 ^ 32 := toU32_toNat.mp (h.size_eq .c)
    exact ⟨hthird, (loopKept_iff (exactGroup_is outside hthird _) (hsize _) _).mp h.loop⟩
  · have hgroups := exactGroup_is outside hthird
    exact ⟨coverNamespace_of_is hgroups, fun idx => (hgroups idx).startLba,
      fun idx => (hgroups idx).size, (loopKept_iff (hgroups _) (hsize _) _).mpr hrounds⟩

/-- Draws of the second group: its first LBA, and 4096 bytes. -/
def firstOfSecond : WellDraws := { group := 50, rounds := [(0, 10)] }

/-- With 4096-byte sectors they are right. -/
theorem jesd219Kept_4k : 20 ≤ 1000 ∧
    Jesd219Kept (fun _ => 0) 1000 sizeOfSector4k firstOfSecond :=
  ⟨by decide, (jesd219Kept_iff (fun _ => 0) sizeOfSector4k firstOfSecond (by decide)).mpr
    ⟨by decide, by decide, by decide⟩⟩

/-- With 512-byte sectors the alignment leaves the group: LBA 48 is in the first one. And the third
group of `2 ^ 33` LBAs has more than 32 bits. -/
theorem not_jesd219Kept : ¬ Jesd219Kept (fun _ => 0) 1000 sizeOfSector firstOfSecond ∧
    ∀ outside, ¬ Jesd219Kept outside (2 ^ 33) sizeOfSector4k firstOfSecond := by
  refine ⟨?_, ?_⟩
  · intro h
    have hloop : jesd219Loop (exactGroup (fun _ => 0) 1000 .b) sizeOfSector 1000 [(0, 10)] =
        some (48, 8) := by decide
    exact absurd (h.loop.inside 48 8 hloop).1 (by decide)
  · intro outside h
    exact absurd (toU32_toNat.mp (h.size_eq .c)) (by decide)

end ChamberSpo

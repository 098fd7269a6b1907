import ChamberSpo.Params

/-!
# The workload of JESD219

`jesd219_gen`: an LBA and a number of LBAs, drawn from one of three groups of the namespace until
they end in it.

* `Double` — the floating-point numbers that the groups are computed with.
* `LbaGroup` — a group, in `u32`s.
* `jesd219Gen` — the loop, with the words of `WELLRNG512` as an argument.
* `Jesd219Picks` — what comes out of a round.
-/

namespace ChamberSpo

/-! ## Floating point -/

/-- A `double` that is not negative: `significand / 2 ^ exponent`. -/
structure Double where
  significand : ℕ
  exponent : ℕ

/-- The nearest number of 53 bits, and of two the even one. -/
def roundTo53 (m : ℕ) : ℕ :=
  let ulp := 2 ^ (Nat.log2 m + 1 - 53)
  let down := m / ulp
  let up := ulp < 2 * (m % ulp) ∨ ulp = 2 * (m % ulp) ∧ down % 2 = 1
  (if up then down + 1 else down) * ulp

/-- The conversion of an integer. -/
def Double.ofNat (n : ℕ) : Double := { significand := roundTo53 n, exponent := 0 }

def Double.mul (a b : Double) : Double where
  significand := roundTo53 (a.significand * b.significand)
  exponent := a.exponent + b.exponent

def Double.add (a b : Double) : Double where
  significand := roundTo53 (a.significand * 2 ^ b.exponent + b.significand * 2 ^ a.exponent)
  exponent := a.exponent + b.exponent

/-- The integer part. -/
def Double.trunc (a : Double) : ℕ := a.significand / 2 ^ a.exponent

/-! ## Groups -/

/-- `RATIO_LBA_SPACE_GROUP_A`, the `double` next to 0.05 -/
def ratioLbaSpaceGroupA : Double := { significand := 7205759403792794, exponent := 57 }

/-- `RATIO_LBA_SPACE_GROUP_B`, next to 0.15 -/
def ratioLbaSpaceGroupB : Double := { significand := 5404319552844595, exponent := 55 }

/-- `RATIO_LBA_SPACE_GROUP_C`, next to 0.80 -/
def ratioLbaSpaceGroupC : Double := { significand := 7205759403792794, exponent := 53 }

/-- `LBA_GROUP_IDX_A` to `LBA_GROUP_IDX_C` -/
inductive LbaGroupIdx where
  | a
  | b
  | c
  deriving DecidableEq, Repr

/-- `lba_group_start_lba` and `lba_group_size`, two `u32`s -/
structure LbaGroup where
  startLba : BitVec 32
  size : BitVec 32

/-- `_get_lba_grp_idx_in_jesd219_workload` -/
def getLbaGrpIdx (randVal : ℕ) : LbaGroupIdx :=
  if randVal < 50 then .a else if randVal < 50 + 30 then .b else .c

/-- The first bound above a random number decides. -/
def belowBound (bounds : List (ℕ × ℕ)) (last randVal : ℕ) : ℕ :=
  ((bounds.find? fun b => decide (randVal < b.1)).map (·.2)).getD last

/-- `SIZE_OF_SECTOR` -/
def sizeOfSector : ℕ := 512

/-- `SIZE_OF_SECTOR_4K` -/
def sizeOfSector4k : ℕ := 4096

/-- `_get_num_of_mu_in_jesd219_workload` -/
def getNumOfMu (randVal : ℕ) : ℕ :=
  belowBound [(4, 512 / sizeOfSector), (5, 1024 / sizeOfSector), (6, 1536 / sizeOfSector),
    (7, 2048 / sizeOfSector), (8, 2560 / sizeOfSector), (9, 3072 / sizeOfSector),
    (10, 3584 / sizeOfSector), (77, 4 * 2 ^ 10 / sizeOfSector), (87, 8 * 2 ^ 10 / sizeOfSector),
    (94, 16 * 2 ^ 10 / sizeOfSector), (97, 32 * 2 ^ 10 / sizeOfSector)]
    (64 * 2 ^ 10 / sizeOfSector) randVal

/-- `_get_num_of_mu_in_jesd219_workload_4k` -/
def getNumOfMu4k (randVal : ℕ) : ℕ :=
  belowBound [(77, 4 * 2 ^ 10 / sizeOfSector4k), (87, 8 * 2 ^ 10 / sizeOfSector4k),
    (94, 16 * 2 ^ 10 / sizeOfSector4k), (97, 32 * 2 ^ 10 / sizeOfSector4k)]
    (64 * 2 ^ 10 / sizeOfSector4k) randVal

/-! ## The generator -/

/-- The words that `jesd219_gen` takes from `WELLRNG512`: one for the group, and two for each
round of the loop. -/
structure WellDraws where
  group : ℕ
  rounds : List (ℕ × ℕ)

/-- The sector size of the union `slba`, where it was the last to be written. -/
def SlbaParam.sectorSize : SlbaParam → ℕ
  | .jesd219 _ sectorSize => sectorSize.toNat
  | .zipf _ | .pareto _ _ | .fixed _ => 0

section Groups

-- the conversion to a `u32` of what does not fit, of which C says nothing
variable (outside : ℕ → BitVec 32)

/-- The conversion of a `double` to a `u32`. -/
def Double.toU32 (a : Double) : BitVec 32 :=
  if a.trunc < 2 ^ 32 then BitVec.ofNat 32 a.trunc else outside a.trunc

/-- The `switch` of `jesd219_gen`. -/
def lbaGroup (nlbs : ℕ) : LbaGroupIdx → LbaGroup
  | .a => {
    startLba := 0
    size := ((Double.ofNat nlbs).mul ratioLbaSpaceGroupA).toU32 outside }
  | .b => {
    startLba := ((Double.ofNat nlbs).mul ratioLbaSpaceGroupA).toU32 outside
    size := ((Double.ofNat nlbs).mul ratioLbaSpaceGroupB).toU32 outside }
  | .c => {
    startLba := ((Double.ofNat nlbs).mul
      (ratioLbaSpaceGroupA.add ratioLbaSpaceGroupB)).toU32 outside
    size := ((Double.ofNat nlbs).mul ratioLbaSpaceGroupC).toU32 outside }

end Groups

/-- `start_lba` -/
def startLba (group : LbaGroup) (word : ℕ) : ℕ :=
  (word % group.size.toNat + group.startLba.toNat) % 2 ^ 32

/-- A round of the loop: `slba` and `nbls`, or `none` when the process exits. -/
def jesd219Round (group : LbaGroup) (sectorSize : ℕ) (words : ℕ × ℕ) : Option (ℕ × ℕ) :=
  let start := startLba group words.1
  if sectorSize = sizeOfSector then
    let numOfSector := getNumOfMu (words.2 % 100)
    if numOfSector < 4096 / sizeOfSector then some (start, numOfSector)
    else some (start - start % (4096 / sizeOfSector), numOfSector)
  else if sectorSize = sizeOfSector4k then some (start, getNumOfMu4k (words.2 % 100))
  else none

/-- The loop of `jesd219_gen`; `none` also when it is still going. -/
def jesd219Loop (group : LbaGroup) (sectorSize nlbs : ℕ) : List (ℕ × ℕ) → Option (ℕ × ℕ)
  | [] => none
  | words :: rest =>
    match jesd219Round group sectorSize words with
    | none => none
    | some (slba, nbls) =>
      if slba + nbls ≤ nlbs then some (slba, nbls) else jesd219Loop group sectorSize nlbs rest

/-- `jesd219_gen`: what `jesd219_slba` and `jesd219_nlbs` return. -/
def jesd219Gen (outside : ℕ → BitVec 32) (nlbs sectorSize : ℕ) (well : WellDraws) :
    Option (ℕ × ℕ) :=
  jesd219Loop (lbaGroup outside nlbs (getLbaGrpIdx (well.group % 100))) sectorSize nlbs well.rounds

/-! ## What it picks -/

/-- The sizes of a sector size. -/
def payloads (sectorSize : ℕ) : List ℕ :=
  if sectorSize = sizeOfSector then [1, 2, 3, 4, 5, 6, 7, 8, 16, 32, 64, 128] else [1, 2, 4, 8, 16]

/-- What a round picks: with small sectors, 4096 bytes and more are aligned to 4096 bytes. -/
structure Jesd219Picks (sectorSize slba nbls : ℕ) : Prop where
  payload : nbls ∈ payloads sectorSize
  lt : slba < 2 ^ 32
  aligned : sectorSize = sizeOfSector → 8 ≤ nbls → 8 ∣ slba

theorem belowBound_mem {bounds : List (ℕ × ℕ)} {last : ℕ} {sizes : List ℕ}
    (h : ∀ n ∈ last :: bounds.map (·.2), n ∈ sizes) (randVal : ℕ) :
    belowBound bounds last randVal ∈ sizes := by
  apply h
  simp only [belowBound]
  cases hfind : bounds.find? fun b => decide (randVal < b.1) with
  | none => exact List.mem_cons_self
  | some b =>
    apply List.mem_cons_of_mem
    exact List.mem_map_of_mem (List.mem_of_find?_eq_some hfind)

theorem getNumOfMu_mem (randVal : ℕ) : getNumOfMu randVal ∈ payloads sizeOfSector :=
  belowBound_mem (by decide) _

theorem getNumOfMu4k_mem (randVal : ℕ) : getNumOfMu4k randVal ∈ payloads sizeOfSector4k :=
  belowBound_mem (by decide) _

theorem jesd219Round_picks {group : LbaGroup} {sectorSize slba nbls : ℕ} {words : ℕ × ℕ}
    (h : jesd219Round group sectorSize words = some (slba, nbls)) :
    Jesd219Picks sectorSize slba nbls := by
  have hlt : startLba group words.1 < 2 ^ 32 := Nat.mod_lt _ (by decide)
  rw [jesd219Round] at h
  simp only at h
  by_cases hsmall : sectorSize = sizeOfSector
  · subst hsmall
    have hmem := getNumOfMu_mem (words.2 % 100)
    rw [if_pos rfl] at h
    split at h
    · rename_i hpart
      obtain ⟨rfl, rfl⟩ := Prod.mk.inj (Option.some.inj h)
      exact ⟨hmem, hlt, fun _ hge => absurd hge (Nat.not_le.mpr hpart)⟩
    · obtain ⟨rfl, rfl⟩ := Prod.mk.inj (Option.some.inj h)
      exact ⟨hmem, (Nat.sub_le ..).trans_lt hlt, fun _ _ => Nat.dvd_sub_mod _⟩
  · rw [if_neg hsmall] at h
    split at h
    · rename_i h4k
      subst h4k
      obtain ⟨rfl, rfl⟩ := Prod.mk.inj (Option.some.inj h)
      exact ⟨getNumOfMu4k_mem _, hlt, fun hs => absurd hs hsmall⟩
    · cases h

/-- **What `jesd219_gen` returns** was picked, and ends in the namespace. -/
theorem jesd219Loop_spec {group : LbaGroup} {sectorSize nlbs slba nbls : ℕ}
    {rounds : List (ℕ × ℕ)}
    (h : jesd219Loop group sectorSize nlbs rounds = some (slba, nbls)) :
    Jesd219Picks sectorSize slba nbls ∧ slba + nbls ≤ nlbs := by
  induction rounds with
  | nil => cases h
  | cons words rest ih =>
    rw [jesd219Loop] at h
    cases hround : jesd219Round group sectorSize words with
    | none =>
      rw [hround] at h
      cases h
    | some picked =>
      obtain ⟨slba', nbls'⟩ := picked
      rw [hround] at h
      simp only at h
      split at h
      · rename_i hle
        obtain ⟨rfl, rfl⟩ := Prod.mk.inj (Option.some.inj h)
        exact ⟨jesd219Round_picks hround, hle⟩
      · exact ih h

theorem payloads_lt {sectorSize n : ℕ} (h : n ∈ payloads sectorSize) : n < 2 ^ 32 := by
  have hle : ∀ m ∈ payloads sectorSize, m ≤ 128 := by
    simp only [payloads]
    split <;> decide
  exact (hle n h).trans_lt (by decide)

end ChamberSpo

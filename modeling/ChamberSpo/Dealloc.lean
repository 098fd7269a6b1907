import Mathlib.Algebra.Order.Floor.Div
import Mathlib.Data.BitVec
import Mathlib.Data.Set.Lattice
import Mathlib.Order.CompletePartialOrder
import Mathlib.Order.Interval.Set.LinearOrder

/-!
# The ranges of a deallocate

`spdkio_dealloc` cuts the blocks of a bio into the ranges of a Dataset Management command. How many
ranges there are is a quotient that is rounded up, and the ranges come from a loop that subtracts.

* `deallocRanges` — the loop, which writes one range behind the other.
* `Tiles` — ranges that are the blocks from one LBA up to another, in order.
* `deallocRanges_spec` — the loop writes as many ranges as the quotient says, and they tile.
-/

namespace ChamberSpo

/-- `EINVAL` -/
def einval : Int := 22

/-- `struct spdk_nvme_dsm_range` -/
structure DsmRange where
  attributes : BitVec 32
  length : BitVec 32
  startingLba : BitVec 64

/-- What `spdkio_dealloc` uses of `struct bio`. -/
structure DeallocBio where
  slba : BitVec 64
  nlbs : BitVec 32
  /-- the array at `data` -/
  data : ℕ → DsmRange

/-- What `spdkio_dealloc` gives to `spdk_nvme_ns_cmd_dataset_management`. -/
structure DsmCommand where
  ranges : ℕ → DsmRange
  numRanges : BitVec 16

/-- The loop of `spdkio_dealloc`, and the range behind it. `range` is an index into the data;
`none` when the fuel does not last. -/
def deallocRanges (maxBlocks : BitVec 32) :
    ℕ → BitVec 64 → BitVec 64 → ℕ → (ℕ → DsmRange) → Option (ℕ → DsmRange)
  | 0, _, _, _, _ => none
  | fuel + 1, offset, remaining, range, data =>
    if maxBlocks.setWidth 64 < remaining then
      deallocRanges maxBlocks fuel (offset + maxBlocks.setWidth 64)
        (remaining - maxBlocks.setWidth 64) (range + 1)
        (Function.update data range
          { attributes := 0, length := maxBlocks, startingLba := offset })
    else
      some (Function.update data range
        { attributes := 0, length := remaining.setWidth 32, startingLba := offset })

/-- `spdkio_dealloc`, where `maxBlocks` is `SPDK_NVME_DATASET_MANAGEMENT_RANGE_MAX_BLOCKS`. The
error is the code of a bio that is rejected. -/
def spdkioDealloc (maxBlocks : BitVec 32) (fuel : ℕ) (bio : DeallocBio) :
    Option (Except Int DsmCommand) :=
  let numRanges : BitVec 64 :=
    (bio.nlbs.setWidth 64 + maxBlocks.setWidth 64 - 1) / maxBlocks.setWidth 64
  if 64 < numRanges then some (.error (-einval))
  else do
    let data ← deallocRanges maxBlocks fuel bio.slba (bio.nlbs.setWidth 64) 0 bio.data
    return .ok { ranges := data, numRanges := numRanges.setWidth 16 }

/-! ## Ranges that tile -/

/-- The blocks of a range. -/
def DsmRange.blocks (range : DsmRange) : Set ℕ :=
  Set.Ico range.startingLba.toNat (range.startingLba.toNat + range.length.toNat)

/-- The ranges that the device is told about. -/
def DsmCommand.toList (cmd : DsmCommand) : List DsmRange :=
  (List.range cmd.numRanges.toNat).map cmd.ranges

/-- The ranges are the blocks from `first` up to `last`, one range after the other, and none is
longer than `max`. -/
def Tiles (max : ℕ) : ℕ → ℕ → List DsmRange → Prop
  | first, last, [] => first = last
  | first, last, range :: ranges =>
    range.startingLba.toNat = first ∧ 1 ≤ range.length.toNat ∧ range.length.toNat ≤ max ∧
      Tiles max (first + range.length.toNat) last ranges

section Tiles

variable {max first last : ℕ} {ranges : List DsmRange}

theorem Tiles.le (h : Tiles max first last ranges) : first ≤ last := by
  induction ranges generalizing first with
  | nil => exact le_of_eq h
  | cons range ranges ih =>
    obtain ⟨-, -, -, hrest⟩ := h
    exact le_trans (Nat.le_add_right _ _) (ih hrest)

theorem Tiles.length_of_mem (h : Tiles max first last ranges) {range : DsmRange}
    (hrange : range ∈ ranges) : 1 ≤ range.length.toNat ∧ range.length.toNat ≤ max := by
  induction ranges generalizing first with
  | nil => exact absurd hrange List.not_mem_nil
  | cons head ranges ih =>
    obtain ⟨-, hpos, hmax, hrest⟩ := h
    rcases List.mem_cons.mp hrange with rfl | hmem
    · exact ⟨hpos, hmax⟩
    · exact ih hrest hmem

/-- The ranges have the blocks between the two LBAs, and no others. -/
theorem Tiles.iUnion_blocks (h : Tiles max first last ranges) :
    ⋃ range ∈ ranges, range.blocks = Set.Ico first last := by
  induction ranges generalizing first with
  | nil =>
    obtain rfl : first = last := h
    simp
  | cons range ranges ih =>
    obtain ⟨hfirst, -, -, hrest⟩ := h
    have hunion : ⋃ r ∈ range :: ranges, r.blocks = range.blocks ∪ ⋃ r ∈ ranges, r.blocks := by
      simp only [List.mem_cons, Set.iUnion_iUnion_eq_or_left]
    rw [hunion, ih hrest, DsmRange.blocks, hfirst]
    exact Set.Ico_union_Ico_eq_Ico (Nat.le_add_right _ _) hrest.le

/-- Every range begins where those before it have ended. -/
theorem Tiles.first_le (h : Tiles max first last ranges) {range : DsmRange}
    (hrange : range ∈ ranges) : first ≤ range.startingLba.toNat := by
  induction ranges generalizing first with
  | nil => exact absurd hrange List.not_mem_nil
  | cons head ranges ih =>
    obtain ⟨hfirst, -, -, hrest⟩ := h
    rcases List.mem_cons.mp hrange with rfl | hmem
    · exact le_of_eq hfirst.symm
    · exact le_trans (Nat.le_add_right _ _) (ih hrest hmem)

theorem Tiles.pairwise (h : Tiles max first last ranges) :
    ranges.Pairwise fun range range' =>
      range.startingLba.toNat + range.length.toNat ≤ range'.startingLba.toNat := by
  induction ranges generalizing first with
  | nil => exact List.Pairwise.nil
  | cons range ranges ih =>
    obtain ⟨hfirst, -, -, hrest⟩ := h
    refine List.Pairwise.cons ?_ (ih hrest)
    intro range' hrange'
    rw [hfirst]
    exact hrest.first_le hrange'

/-- Ranges of which one ends before the other begins have no block in common. -/
theorem DsmRange.disjoint_blocks {range range' : DsmRange}
    (hle : range.startingLba.toNat + range.length.toNat ≤ range'.startingLba.toNat) :
    Disjoint range.blocks range'.blocks := by
  rw [Set.disjoint_left]
  intro x hx hx'
  have hlt : x < range.startingLba.toNat + range.length.toNat := hx.2
  have hge : range'.startingLba.toNat ≤ x := hx'.1
  omega

end Tiles

/-! ## The loop -/

section Loop

variable {maxBlocks : BitVec 32}

/-- A quotient that is rounded up, of what more than one range is needed for. -/
theorem ceilDiv_of_lt {max remaining : ℕ} (hmax : 0 < max) (hlt : max < remaining) :
    remaining ⌈/⌉ max = (remaining - max) ⌈/⌉ max + 1 := by
  rw [Nat.ceilDiv_eq_add_pred_div, Nat.ceilDiv_eq_add_pred_div, ← Nat.add_div_right _ hmax]
  congr 1
  omega

theorem ceilDiv_of_le {max remaining : ℕ} (hpos : 0 < remaining) (hle : remaining ≤ max) :
    remaining ⌈/⌉ max = 1 := by
  rw [Nat.ceilDiv_eq_add_pred_div]
  exact Nat.div_eq_of_lt_le (by omega) (by omega)

/-- **The loop** writes as many ranges as the quotient says, from `range` on, and they tile. Each
turn takes at least a block, so that there is fuel enough when there is one for each block. -/
theorem deallocRanges_spec (hmax : 1 ≤ maxBlocks.toNat) (fuel range : ℕ)
    (offset remaining : BitVec 64) (data : ℕ → DsmRange) (hpos : 1 ≤ remaining.toNat)
    (hnarrow : remaining.toNat < 2 ^ 32) (hend : offset.toNat + remaining.toNat ≤ 2 ^ 64)
    (hfuel : remaining.toNat ≤ fuel) :
    ∃ data', deallocRanges maxBlocks fuel offset remaining range data = some data' ∧
      Tiles maxBlocks.toNat offset.toNat (offset.toNat + remaining.toNat)
        ((List.range' range (remaining.toNat ⌈/⌉ maxBlocks.toNat)).map data') ∧
      ∀ i, i < range ∨ range + remaining.toNat ⌈/⌉ maxBlocks.toNat ≤ i → data' i = data i := by
  have hwide : (maxBlocks.setWidth 64).toNat = maxBlocks.toNat :=
    BitVec.toNat_setWidth_of_le (by omega)
  induction fuel generalizing offset remaining range data with
  | zero => omega
  | succ fuel ih =>
    rw [deallocRanges]
    by_cases hlt : maxBlocks.toNat < remaining.toNat
    · have hgo : maxBlocks.setWidth 64 < remaining := by rwa [BitVec.lt_def, hwide]
      rw [if_pos hgo]
      have hoffset : (offset + maxBlocks.setWidth 64).toNat = offset.toNat + maxBlocks.toNat := by
        rw [BitVec.toNat_add, hwide, Nat.mod_eq_of_lt (by omega)]
      have hremaining : (remaining - maxBlocks.setWidth 64).toNat
          = remaining.toNat - maxBlocks.toNat := by
        rw [BitVec.toNat_sub_of_le (by rw [BitVec.le_def, hwide]; omega), hwide]
      obtain ⟨data', hdata', htiles, hframe⟩ := ih (range + 1) (offset + maxBlocks.setWidth 64)
        (remaining - maxBlocks.setWidth 64)
        (Function.update data range ⟨0, maxBlocks, offset⟩)
        (by omega) (by omega) (by omega) (by omega)
      rw [hremaining] at htiles hframe
      rw [hoffset] at htiles
      have hfirst : data' range = { attributes := 0, length := maxBlocks, startingLba := offset } :=
        (hframe range (.inl (Nat.lt_succ_self range))).trans (Function.update_self _ _ _)
      refine ⟨data', hdata', ?_, ?_⟩
      · rw [ceilDiv_of_lt hmax hlt, List.range'_succ, List.map_cons, hfirst]
        refine ⟨rfl, hmax, le_rfl, ?_⟩
        have hlast : offset.toNat + maxBlocks.toNat + (remaining.toNat - maxBlocks.toNat)
            = offset.toNat + remaining.toNat := by omega
        rwa [hlast] at htiles
      · intro i hi
        rw [ceilDiv_of_lt hmax hlt] at hi
        rw [hframe i (by omega), Function.update_of_ne (by omega)]
    · have hstop : ¬ maxBlocks.setWidth 64 < remaining := by rwa [BitVec.lt_def, hwide]
      have hone : remaining.toNat ⌈/⌉ maxBlocks.toNat = 1 := ceilDiv_of_le hpos (by omega)
      have hlength : (remaining.setWidth 32).toNat = remaining.toNat := by
        rw [BitVec.toNat_setWidth, Nat.mod_eq_of_lt hnarrow]
      rw [if_neg hstop, hone]
      refine ⟨_, rfl, ?_, ?_⟩
      · rw [List.range'_one, List.map_singleton, Function.update_self]
        refine ⟨rfl, ?_, ?_, ?_⟩
        · rwa [hlength]
        · rw [hlength]
          exact Nat.le_of_not_lt hlt
        · rw [hlength]
          rfl
      · intro i hi
        exact Function.update_of_ne (by omega) _ _

end Loop

/-! ## The command -/

/-- The quotient of the words is that of the numbers. -/
theorem toNat_numRanges (maxBlocks : BitVec 32) {nlbs : BitVec 32} (hnlbs : 1 ≤ nlbs.toNat) :
    ((nlbs.setWidth 64 + maxBlocks.setWidth 64 - 1) / maxBlocks.setWidth 64).toNat
      = nlbs.toNat ⌈/⌉ maxBlocks.toNat := by
  have hmax : (maxBlocks.setWidth 64).toNat = maxBlocks.toNat :=
    BitVec.toNat_setWidth_of_le (by omega)
  have hwide : (nlbs.setWidth 64).toNat = nlbs.toNat := BitVec.toNat_setWidth_of_le (by omega)
  have hsum : (nlbs.setWidth 64 + maxBlocks.setWidth 64).toNat
      = nlbs.toNat + maxBlocks.toNat := by
    rw [BitVec.toNat_add, hwide, hmax, Nat.mod_eq_of_lt (by omega)]
  have hone : (1 : BitVec 64).toNat = 1 := rfl
  rw [BitVec.toNat_udiv, BitVec.toNat_sub_of_le (by rw [BitVec.le_def, hsum, hone]; omega), hsum,
    hmax, hone, Nat.ceilDiv_eq_add_pred_div]

/-- The ranges of a command that tile are ascending and disjoint. -/
theorem Tiles.ascending {max first last : ℕ} {ranges : List DsmRange}
    (h : Tiles max first last ranges) :
    ranges.Pairwise fun range range' => Disjoint range.blocks range'.blocks ∧
      range.startingLba.toNat < range'.startingLba.toNat := by
  refine List.Pairwise.imp_of_mem ?_ h.pairwise
  intro range range' hrange _ hle
  have hpos := (h.length_of_mem hrange).1
  exact ⟨DsmRange.disjoint_blocks hle, by omega⟩

/-- **A deallocate** of any blocks is rejected if it takes more than 64 ranges. Otherwise the
ranges that the device is told about are ascending and disjoint, none is empty or longer than the
longest that there can be, and they have exactly the blocks of the bio; and no others are
written. -/
theorem spdkioDealloc_tiles (maxBlocks : BitVec 32) (hmax : 1 ≤ maxBlocks.toNat) (bio : DeallocBio)
    (hnlbs : 1 ≤ bio.nlbs.toNat) (hend : bio.slba.toNat + bio.nlbs.toNat ≤ 2 ^ 64) :
    ∃ fuel result, spdkioDealloc maxBlocks fuel bio = some result ∧
      (result = .error (-einval) ↔ 64 < bio.nlbs.toNat ⌈/⌉ maxBlocks.toNat) ∧
      (64 < bio.nlbs.toNat ⌈/⌉ maxBlocks.toNat ∨ ∃ cmd, result = .ok cmd ∧
        cmd.toList.Pairwise (fun range range' => Disjoint range.blocks range'.blocks ∧
          range.startingLba.toNat < range'.startingLba.toNat) ∧
        (∀ range ∈ cmd.toList, 1 ≤ range.length.toNat ∧ range.length.toNat ≤ maxBlocks.toNat) ∧
        ⋃ range ∈ cmd.toList, range.blocks
          = Set.Ico bio.slba.toNat (bio.slba.toNat + bio.nlbs.toNat) ∧
        cmd.numRanges.toNat = bio.nlbs.toNat ⌈/⌉ maxBlocks.toNat ∧
        ∀ i, cmd.numRanges.toNat ≤ i → cmd.ranges i = bio.data i) := by
  have hwide : (bio.nlbs.setWidth 64).toNat = bio.nlbs.toNat :=
    BitVec.toNat_setWidth_of_le (by omega)
  have hcount := toNat_numRanges maxBlocks hnlbs
  refine ⟨bio.nlbs.toNat, ?_⟩
  rw [spdkioDealloc]
  generalize (bio.nlbs.setWidth 64 + maxBlocks.setWidth 64 - 1) / maxBlocks.setWidth 64
    = numRanges at hcount ⊢
  have hmany : 64 < numRanges ↔ 64 < bio.nlbs.toNat ⌈/⌉ maxBlocks.toNat := by
    rw [BitVec.lt_def, hcount]
    exact Iff.rfl
  by_cases hreject : 64 < numRanges
  · rw [if_pos hreject]
    exact ⟨_, rfl, iff_of_true rfl (hmany.mp hreject), .inl (hmany.mp hreject)⟩
  · rw [if_neg hreject]
    obtain ⟨data, hdata, htiles, hframe⟩ := deallocRanges_spec hmax bio.nlbs.toNat 0 bio.slba
      (bio.nlbs.setWidth 64) bio.data (by rwa [hwide]) (by rw [hwide]; exact bio.nlbs.isLt)
      (by rwa [hwide]) (le_of_eq hwide)
    rw [hwide] at htiles hframe
    have hfew : ¬ 64 < bio.nlbs.toNat ⌈/⌉ maxBlocks.toNat := fun h => hreject (hmany.mpr h)
    have hnum : (numRanges.setWidth 16).toNat = bio.nlbs.toNat ⌈/⌉ maxBlocks.toNat := by
      rw [BitVec.toNat_setWidth, hcount, Nat.mod_eq_of_lt (by omega)]
    have hlist : (List.range (numRanges.setWidth 16).toNat).map data
        = (List.range' 0 (bio.nlbs.toNat ⌈/⌉ maxBlocks.toNat)).map data := by
      rw [hnum, List.range_eq_range']
    rw [← hlist] at htiles
    rw [hdata]
    refine ⟨_, rfl, iff_of_false (fun h => by cases h) hfew, .inr ⟨_, rfl, htiles.ascending,
      fun range hrange => htiles.length_of_mem hrange, htiles.iUnion_blocks, hnum, ?_⟩⟩
    intro i hi
    rw [hnum] at hi
    exact hframe i (.inr (by omega))

/-- A deallocate of five blocks, of which two are in a range. -/
theorem spdkioDealloc_tiles_five : ∃ fuel cmd,
    spdkioDealloc 2 fuel ⟨10, 5, fun _ => ⟨0, 0, 0⟩⟩ = some (.ok cmd) ∧
      cmd.numRanges.toNat = 3 ∧ ⋃ range ∈ cmd.toList, range.blocks = Set.Ico 10 15 := by
  have hthree : 5 ⌈/⌉ 2 = 3 := Nat.ceilDiv_eq_add_pred_div 5 2
  obtain ⟨fuel, result, hresult, -, hmany | ⟨cmd, rfl, -, -, hunion, hnum, -⟩⟩ :=
    spdkioDealloc_tiles 2 (Nat.le_succ 1) ⟨10, 5, fun _ => ⟨0, 0, 0⟩⟩
      (Nat.le_add_left 1 4) (Nat.le_of_ble_eq_true rfl)
  · have hlt : 64 < 5 ⌈/⌉ 2 := hmany
    omega
  · exact ⟨fuel, cmd, hresult, hnum.trans hthree, hunion⟩

end ChamberSpo

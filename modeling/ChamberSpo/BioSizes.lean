import ChamberSpo.BioBuffers
import ChamberSpo.SeqStream

/-!
# The bytes of a bio

`generate_bio` computes the bytes of a bio from the number of its LBAs, before it knows what
`history_slba` makes of it. The buffers were allocated for `iosize_max`, which neither an alignment
of the sizes nor the payloads of JESD219 keep to.

* `NamespaceInfo.ioBytes`, `NamespaceInfo.ioMeta` — the bytes of some LBAs, in `u32`s.
* `FitsBuffers` — a bio has as many bytes as its LBAs, and the buffers have room for it.
* `RoomFor` — the buffers have room for some LBAs.
* `SizesFit` — the reads and writes of a job fit.
* `SizesHold` — there is room for each size that the job has.

`sizesFit_iff` says that the reads and writes of a job fit exactly if there is room for its sizes.
-/

namespace ChamberSpo

open Function Bitmap

/-! ## Bytes -/

namespace NamespaceInfo

variable (ns : NamespaceInfo)

/-- The controller inserts and strips the metadata. -/
def strips (pract : Bool) : Bool := decide (ns.piType ≠ 0) && pract && ns.metaSize == 8

/-- What `get_block_size` returns. -/
def lbaBytes (stripped : Bool) : ℕ := if stripped then ns.dataSize else ns.blockSize

/-- `iosize` of some LBAs -/
def ioBytes (stripped : Bool) (n : ℕ) : ℕ :=
  n * 2 ^ ns.lbaShift % 2 ^ 32 + if !stripped && ns.extendedLba then n * ns.metaSize % 2 ^ 32 else 0

/-- `meta_size` of some LBAs -/
def ioMeta (stripped : Bool) (n : ℕ) : ℕ :=
  if !stripped && !ns.extendedLba then n * ns.metaSize % 2 ^ 32 else 0

end NamespaceInfo

section Room

variable (ns : NamespaceInfo) (iosizeMax : BitVec 32) (offset : ℕ) (stripped : Bool) (n : ℕ)

/-- **There is room for some LBAs**: a descriptor for each, and their bytes, which do not wrap
around where they are a part of the data. -/
structure RoomFor : Prop where
  pos : 0 < n
  blockDesc : n ≤ blockDescLen ns iosizeMax
  noWrap : ns.extendedLba = true → stripped = false → n * ns.metaSize < 2 ^ 32
  data : n * ns.lbaBytes stripped ≤ dataRoom ns iosizeMax offset
  metaData : ns.ioMeta stripped n ≤ (metaBufSize ns iosizeMax).toNat

/-- There is room for one LBA, and the bytes of some LBAs come to those of one. -/
structure RoomForOne : Prop where
  blockDesc : 0 < blockDescLen ns iosizeMax
  bytes : ns.ioBytes stripped n = ns.lbaBytes stripped
  data : ns.lbaBytes stripped ≤ dataRoom ns iosizeMax offset
  metaData : ns.ioMeta stripped n ≤ (metaBufSize ns iosizeMax).toNat

end Room

/-- **A bio fits its buffers**: it has LBAs, as many bytes as these have, and there is room for the
bytes, the metadata and the descriptors. -/
structure FitsBuffers (iosizeMax : BitVec 32) (offset : ℕ) (iover : Iover) (bio : Bio) : Prop where
  pos : 1 ≤ bio.nlbs
  iosize : bio.iosize = bio.nlbs * getBlockSize iover bio
  data : bio.iosize ≤ dataRoom iover.ns iosizeMax offset
  metaData : bio.metaSize ≤ (metaBufSize iover.ns iosizeMax).toNat
  blockDesc : bio.nlbs ≤ blockDescLen iover.ns iosizeMax

section Arithmetic

variable {ns : NamespaceInfo} {iosizeMax : BitVec 32} {offset : ℕ} {stripped : Bool} {n : ℕ}

theorem blockDescLen_eq (ns : NamespaceInfo) (iosizeMax : BitVec 32) :
    blockDescLen ns iosizeMax = iosizeMax.toNat / 2 ^ ns.lbaShift := by
  rw [blockDescLen, BitVec.toNat_ushiftRight, Nat.shiftRight_eq_div_pow]

/-- The LBAs that have a descriptor are no more bytes than `iosize_max`. -/
theorem data_le_iosizeMax (h : n ≤ blockDescLen ns iosizeMax) :
    n * 2 ^ ns.lbaShift ≤ iosizeMax.toNat := by
  rw [blockDescLen_eq] at h
  exact (Nat.le_div_iff_mul_le (Nat.two_pow_pos _)).mp h

/-- The bytes of LBAs that have a descriptor are exact unless the metadata wraps around. -/
theorem ioBytes_eq_iff (h : n ≤ blockDescLen ns iosizeMax) :
    ns.ioBytes stripped n = n * ns.lbaBytes stripped ↔
      (ns.extendedLba = true → stripped = false → n * ns.metaSize < 2 ^ 32) := by
  have hlt : n * 2 ^ ns.lbaShift < 2 ^ 32 := (data_le_iosizeMax h).trans_lt iosizeMax.isLt
  rw [NamespaceInfo.ioBytes, NamespaceInfo.lbaBytes, ns.blockSize_eq, ns.dataSize_eq,
    Nat.mod_eq_of_lt hlt]
  cases stripped with
  | true =>
    simp
  | false =>
    cases hext : ns.extendedLba with
    | false => simp
    | true =>
      have hiff : n * ns.metaSize % 2 ^ 32 = n * ns.metaSize ↔ n * ns.metaSize < 2 ^ 32 :=
        ⟨fun heq => heq ▸ Nat.mod_lt _ (by decide), Nat.mod_eq_of_lt⟩
      simp only [Bool.not_false, Bool.and_true, if_true, Bool.false_eq_true, if_false,
        Nat.mul_add, Nat.add_left_cancel_iff, forall_const, hiff]

theorem metaBytes_toNat (ns : NamespaceInfo) (iosizeMax : BitVec 32) :
    (metaBytes ns iosizeMax).toNat = ns.metaSize * blockDescLen ns iosizeMax % 2 ^ 32 := by
  rw [metaBytes, BitVec.toNat_mul, BitVec.toNat_ofNat, Nat.mod_mul_mod]
  rfl

/-- The sizes of the buffers do not wrap around. -/
def SizesInWord (ns : NamespaceInfo) (iosizeMax : BitVec 32) : Prop :=
  max iosizeMax.toNat 4096 + ns.metaSize * blockDescLen ns iosizeMax + 16 < 2 ^ 32

/-- Then there is room for the data and, in an extended format, for the metadata. -/
theorem le_dataRoom (hword : SizesInWord ns iosizeMax) (hoffset : offset ∈ bufOffsets) :
    iosizeMax.toNat + (if ns.extendedLba then ns.metaSize * blockDescLen ns iosizeMax else 0) ≤
      dataRoom ns iosizeMax offset := by
  have hoff : offset ≤ 16 := by
    simp only [bufOffsets, List.mem_cons, List.not_mem_nil, or_false] at hoffset
    omega
  have hmeta := metaBytes_toNat ns iosizeMax
  rw [SizesInWord] at hword
  generalize ns.metaSize * blockDescLen ns iosizeMax = m at hword hmeta ⊢
  rw [Nat.mod_eq_of_lt (by omega)] at hmeta
  have hsize : (if iosizeMax.toNat < 4096 then (4096 : BitVec 32) else iosizeMax).toNat =
      max iosizeMax.toNat 4096 := by
    split
    · rw [max_eq_right (by omega)]
      rfl
    · rw [max_eq_left (by omega)]
  rw [dataRoom, dataBufSize]
  generalize (if iosizeMax.toNat < 4096 then (4096 : BitVec 32) else iosizeMax) = size at hsize
  cases ns.extendedLba with
  | true =>
    simp only [if_true]
    rw [BitVec.toNat_add, BitVec.toNat_add, hsize, hmeta]
    change _ ≤ (((max iosizeMax.toNat 4096 + m) % 2 ^ 32 + 16) % 2 ^ 32) - offset
    omega
  | false =>
    simp only [Bool.false_eq_true, if_false]
    rw [BitVec.toNat_add, hsize]
    change _ ≤ ((max iosizeMax.toNat 4096 + 16) % 2 ^ 32) - offset
    omega

/-- **Where the sizes do not wrap around** there is room for all LBAs that have a descriptor. -/
theorem roomFor_iff (hword : SizesInWord ns iosizeMax) (hoffset : offset ∈ bufOffsets) :
    RoomFor ns iosizeMax offset stripped n ↔ 0 < n ∧ n ≤ blockDescLen ns iosizeMax := by
  refine ⟨fun h => ⟨h.pos, h.blockDesc⟩, ?_⟩
  rintro ⟨hpos, hlen⟩
  have hroom := le_dataRoom hword hoffset
  have hdata := data_le_iosizeMax hlen
  have hmeta : n * ns.metaSize ≤ ns.metaSize * blockDescLen ns iosizeMax := by
    rw [Nat.mul_comm n]
    exact Nat.mul_le_mul_left _ hlen
  have hbuf := metaBytes_toNat ns iosizeMax
  rw [SizesInWord] at hword
  generalize ns.metaSize * blockDescLen ns iosizeMax = m at hword hroom hmeta hbuf
  rw [Nat.mod_eq_of_lt (by omega)] at hbuf
  have hlt : n * ns.metaSize < 2 ^ 32 := by omega
  refine ⟨hpos, hlen, fun _ _ => hlt, ?_, ?_⟩
  · rw [NamespaceInfo.lbaBytes, ns.blockSize_eq, ns.dataSize_eq]
    cases hext : ns.extendedLba with
    | true =>
      rw [hext, if_pos rfl] at hroom
      cases stripped with
      | true => exact hdata.trans (by omega)
      | false =>
        simp only [Bool.false_eq_true, if_false, if_true, Nat.mul_add]
        omega
    | false =>
      rw [hext] at hroom
      cases stripped with
      | true => exact hdata.trans hroom
      | false => exact hdata.trans hroom
  · rw [NamespaceInfo.ioMeta, metaBufSize]
    cases ns.extendedLba with
    | true => simp
    | false =>
      cases stripped with
      | true => simp
      | false =>
        simp only [Bool.not_false, Bool.and_self, if_true, Bool.false_eq_true, if_false]
        rw [Nat.mod_eq_of_lt hlt, hbuf]
        exact hmeta

end Arithmetic

/-! ## What is measured -/

/-- A bio has the bytes that were computed for some LBAs. -/
structure Measures (iover : Iover) (stripped : Bool) (n : ℕ) (bio : Bio) : Prop where
  iosize : bio.iosize = iover.ns.ioBytes stripped n
  metaSize : bio.metaSize = iover.ns.ioMeta stripped n
  blockSize : getBlockSize iover bio = iover.ns.lbaBytes stripped

section Measures

variable {iosizeMax : BitVec 32} {offset : ℕ} {iover : Iover} {job : IogenJob} {draws : GenDraws}
  {stripped : Bool} {n : ℕ} {bio : Bio}

/-- A bio of as many LBAs fits if there is room for them. -/
theorem Measures.fits_iff (h : Measures iover stripped n bio) (hn : bio.nlbs = n) :
    FitsBuffers iosizeMax offset iover bio ↔ RoomFor iover.ns iosizeMax offset stripped n := by
  refine ⟨?_, ?_⟩
  · intro hfits
    have hlen : n ≤ blockDescLen iover.ns iosizeMax := hn ▸ hfits.blockDesc
    have hbytes := hfits.iosize
    rw [hn, h.iosize, h.blockSize] at hbytes
    refine ⟨hn ▸ hfits.pos, hlen, (ioBytes_eq_iff hlen).mp hbytes, ?_, ?_⟩
    · rw [← hbytes, ← h.iosize]
      exact hfits.data
    · rw [← h.metaSize]
      exact hfits.metaData
  · intro hroom
    have hbytes := (ioBytes_eq_iff hroom.blockDesc).mpr hroom.noWrap
    refine ⟨hn ▸ hroom.pos, ?_, ?_, ?_, hn ▸ hroom.blockDesc⟩
    · rw [h.iosize, h.blockSize, hn]
      exact hbytes
    · rw [h.iosize, hbytes]
      exact hroom.data
    · rw [h.metaSize]
      exact hroom.metaData

/-- A bio of one LBA fits if the bytes are those of one. -/
theorem Measures.fits_one_iff (h : Measures iover stripped n bio) (hone : bio.nlbs = 1) :
    FitsBuffers iosizeMax offset iover bio ↔
      RoomForOne iover.ns iosizeMax offset stripped n := by
  refine ⟨?_, ?_⟩
  · intro hfits
    have hbytes := hfits.iosize
    rw [hone, Nat.one_mul, h.iosize, h.blockSize] at hbytes
    have hlen := hfits.blockDesc
    rw [hone] at hlen
    refine ⟨hlen, hbytes, ?_, ?_⟩
    · rw [← hbytes, ← h.iosize]
      exact hfits.data
    · rw [← h.metaSize]
      exact hfits.metaData
  · intro hroom
    refine ⟨hone.ge, ?_, ?_, ?_, hone.le.trans hroom.blockDesc⟩
    · rw [hone, Nat.one_mul, h.iosize, h.blockSize]
      exact hroom.bytes
    · rw [h.iosize, hroom.bytes]
      exact hroom.data
    · rw [h.metaSize]
      exact hroom.metaData

/-- A replay leaves the bytes as they were. -/
theorem Measures.replayed (h : Measures iover stripped n bio) :
    Measures iover stripped n { bio with opcode := .read, nlbs := 1 } :=
  ⟨h.iosize, h.metaSize, h.blockSize⟩

/-- What `generate_bio` fills in first has the bytes of its LBAs. -/
theorem drawnBio_measures (iover : Iover) (job : IogenJob) (draws : GenDraws) (bio : Bio) :
    Measures iover (iover.ns.strips draws.pract) (drawnBio iover job draws bio).nlbs
      (drawnBio iover job draws bio) := by
  have hstrips : (decide (iover.ns.piType ≠ 0 ∧ iover.ns.metaSize ≠ 0) && draws.pract &&
      iover.ns.metaSize == 8) = iover.ns.strips draws.pract := by
    rw [NamespaceInfo.strips]
    by_cases hmeta : iover.ns.metaSize = 8
    · simp [hmeta]
    · have height : (iover.ns.metaSize == 8) = false := beq_false_of_ne hmeta
      simp [height]
  refine ⟨?_, ?_, ?_⟩
  · rw [NamespaceInfo.ioBytes, ← hstrips]
    simp only [drawnBio, sizeBio]
    split
    · rfl
    · exact (Nat.add_zero _).symm
  · rw [NamespaceInfo.ioMeta, ← hstrips]
    rfl
  · rw [NamespaceInfo.lbaBytes, ← hstrips, getBlockSize]
    simp only [drawnBio, sizeBio, Bool.and_eq_true, beq_iff_eq]

end Measures

/-! ## What is returned -/

/-- The fields of a bio that its size shows in. -/
structure Bio.SameSize (a b : Bio) : Prop where
  opcode : b.opcode = a.opcode
  nlbs : b.nlbs = a.nlbs
  iosize : b.iosize = a.iosize
  metaSize : b.metaSize = a.metaSize
  pract : b.pract = a.pract

theorem Bio.SameSize.refl (a : Bio) : a.SameSize a := ⟨rfl, rfl, rfl, rfl, rfl⟩

theorem Bio.SameSize.trans {a b c : Bio} (h : a.SameSize b) (h' : b.SameSize c) : a.SameSize c :=
  ⟨h'.opcode.trans h.opcode, h'.nlbs.trans h.nlbs, h'.iosize.trans h.iosize,
    h'.metaSize.trans h.metaSize, h'.pract.trans h.pract⟩

/-- What becomes of a bio that is placed: a replay makes it a read of one LBA. -/
def Bio.placedBy (slbaType : SlbaType) (bio : Bio) : Bio :=
  if slbaType = .replay then { bio with opcode := .read, nlbs := 1 } else bio

theorem Bio.SameSize.placedBy {a b : Bio} (h : a.SameSize b) (slbaType : SlbaType) :
    (a.placedBy slbaType).SameSize (b.placedBy slbaType) := by
  rw [Bio.placedBy, Bio.placedBy]
  split
  · exact ⟨rfl, rfl, h.iosize, h.metaSize, h.pract⟩
  · exact h

theorem Bio.placedBy_placedBy (slbaType : SlbaType) (bio : Bio) :
    (bio.placedBy slbaType).placedBy slbaType = bio.placedBy slbaType := by
  simp only [Bio.placedBy]
  split
  · rfl
  · rfl

section Returned

variable {iover iover' : Iover} {job job' : IogenJob} {draws : GenDraws} {bio : Bio} {id : ℕ}

theorem setTags_sameSize (iover : Iover) (bio : Bio) : bio.SameSize (setTags iover bio) := by
  rw [setTags]
  split
  · exact ⟨rfl, rfl, rfl, rfl, rfl⟩
  · exact ⟨rfl, rfl, rfl, rfl, rfl⟩

theorem ioverGenerateData_sameSize (iover : Iover) (params : JobParams) (bio : Bio)
    (escape : ℕ → Bool) : bio.SameSize (ioverGenerateData iover params bio escape).2.2 := by
  have hfill : ∀ iover, bio.SameSize (fillData iover params bio escape).2 := by
    intro iover
    obtain ⟨h₁, h₂, h₃, h₄, h₅⟩ := setTags_sameSize iover bio
    rw [fillData]
    simp only
    split
    · split <;> exact ⟨h₁, h₂, h₃, h₄, h₅⟩
    · split <;> exact ⟨h₁, h₂, h₃, h₄, h₅⟩
    · exact ⟨h₁, h₂, h₃, h₄, h₅⟩
  rw [ioverGenerateData]
  generalize (if takesLock params bio then tryLockLbas iover.lbaLock bio.slba bio.nlbs
    else (0, iover.lbaLock)) = lock
  obtain ⟨res, lbaLock⟩ := lock
  simp only
  split
  · exact .refl bio
  · exact hfill _

theorem dressBio_sameSize (iover : Iover) (job : IogenJob) (draws : GenDraws) (bio : Bio) :
    bio.SameSize (dressBio iover job draws bio) := by
  rw [dressBio]
  split
  · exact ⟨rfl, rfl, rfl, rfl, rfl⟩
  · exact ⟨rfl, rfl, rfl, rfl, rfl⟩

/-- **An attempt** ends the replay, or makes the bio what it is when it is placed. -/
theorem chooseSlba_sameSize (iover : Iover) (job : IogenJob) (bio : Bio) (draw jesd219Slba : ℕ) :
    job.params.slbaType = .replay ∧
        (chooseSlba iover job bio draw jesd219Slba).2.2.opcode = .flush ∨
      (bio.placedBy job.params.slbaType).SameSize
        (chooseSlba iover job bio draw jesd219Slba).2.2 := by
  by_cases hreplay : job.params.slbaType = .replay
  · have hchoose : (chooseSlba iover job bio draw jesd219Slba).2.2 =
        (historySlba iover job bio).2 := by
      rw [chooseSlba, hreplay]
    rw [hchoose, historySlba, hreplay, Bio.placedBy, if_pos rfl]
    split
    · exact .inl ⟨rfl, rfl⟩
    · exact .inr ⟨rfl, rfl, rfl, rfl, rfl⟩
  · obtain ⟨slba, hbio⟩ := chooseSlba_bio iover bio hreplay draw jesd219Slba
    rw [hbio, Bio.placedBy, if_neg hreplay]
    exact .inr ⟨rfl, rfl, rfl, rfl, rfl⟩

/-- **The loop of `generate_bio`** that fills in no flush. -/
theorem generateLoop_sameSize (draws : GenDraws) (left : ℕ) (iover : Iover) (job : IogenJob)
    (bio : Bio) (hready : (generateLoop draws left iover job bio).ready = true)
    (hop : (generateLoop draws left iover job bio).bio.opcode ≠ .flush) :
    (bio.placedBy job.params.slbaType).SameSize (generateLoop draws left iover job bio).bio := by
  induction left generalizing iover job bio with
  | zero => exact absurd hready (by simp [generateLoop])
  | succ left ih =>
    have hparams := chooseSlba_params iover job bio (draws.slba left) draws.jesd219Slba
    have hchosen := chooseSlba_sameSize iover job bio (draws.slba left) draws.jesd219Slba
    rw [generateLoop] at hready hop ⊢
    generalize chooseSlba iover job bio (draws.slba left) draws.jesd219Slba = c
      at hparams hchosen hready hop ⊢
    obtain ⟨ok, job', bio'⟩ := c
    simp only at hparams hchosen hready hop ⊢
    rw [hparams] at hready hop ⊢
    split at hready
    · cases hready
    rename_i hok
    rw [if_neg hok] at hop ⊢
    split at hready
    · rename_i hend
      rw [if_pos hend] at hop
      exact absurd hend.2 hop
    rename_i hgoes
    rw [if_neg hgoes] at hop ⊢
    have hsame := hchosen.resolve_left hgoes
    have hfilled := ioverGenerateData_sameSize iover job.params (placeBio iover job' bio')
      (draws.escape left)
    have hplaced : bio'.SameSize (placeBio iover job' bio') := ⟨rfl, rfl, rfl, rfl, rfl⟩
    generalize ioverGenerateData iover job.params (placeBio iover job' bio') (draws.escape left) = g
      at hfilled hready hop ⊢
    obtain ⟨res, iover₂, bio₂⟩ := g
    simp only at hfilled hready hop ⊢
    have hbio₂ := hsame.trans (hplaced.trans hfilled)
    split at hready
    · rename_i hres
      rw [if_pos hres] at hop ⊢
      have hrest := ih iover₂ job' bio₂ hready hop
      rw [hparams] at hrest
      have hagain := hbio₂.placedBy job.params.slbaType
      rw [Bio.placedBy_placedBy] at hagain
      exact hagain.trans hrest
    · rename_i hres
      rw [if_neg hres]
      exact hbio₂.trans ⟨rfl, rfl, rfl, rfl, rfl⟩

/-- **What `generate_bio` returns**, but for a flush, has the bytes of what it filled in first. -/
theorem generateBio_sameSize (h : generateBio iover job draws = (some id, iover', job'))
    (hop : (job'.bioPool id).opcode ≠ .flush) :
    job.oprLottery (draws.rand % 100) ≠ .flush ∧
      ((drawnBio iover job draws (job.bioPool id)).placedBy job.params.slbaType).SameSize
        (job'.bioPool id) := by
  rw [generateBio] at h
  split at h
  · cases h
  rename_i id' rest hfree
  simp only at h
  split at h
  · rename_i hready
    simp only [Prod.mk.injEq, Option.some.injEq] at h
    obtain ⟨rfl, -, rfl⟩ := h
    simp only [update_self] at hop ⊢
    have hdress := dressBio_sameSize iover job draws (fillBio iover job draws (job.bioPool id')).bio
    rw [hdress.opcode] at hop
    by_cases hflush : job.oprLottery (draws.rand % 100) = .flush
    · have hfill : (fillBio iover job draws (job.bioPool id')).bio.opcode = .flush := by
        rw [fillBio]
        simp only [if_pos hflush]
        exact hflush
      exact absurd hfill hop
    · rw [fillBio_of_ne _ _ hflush] at hready hop hdress ⊢
      exact ⟨hflush, (generateLoop_sameSize draws 3 iover job _ hready hop).trans hdress⟩
  · cases h

end Returned

/-! ## The sizes of a job -/

/-- The division of an operation is not by zero. -/
def ArithOp.Divides : ArithOp → Prop
  | .mod _ b => b ≠ 0
  | .sub _ _ => True

theorem ArithOp.Ok.divides {op : ArithOp} (h : op.Ok) : op.Divides := by
  cases op with
  | mod a b => exact h
  | sub a b => trivial

/-- A number of LBAs that a job can choose for an operation, where the program does not divide by
zero. -/
structure JobPlan.Chooses (ns : NamespaceInfo) (plan : JobPlan) (op : BioOpcode) (n : ℕ) :
    Prop where
  has : plan.Has ns op
  gives : plan.Gives ns op n
  dist : ((plan.lbas op.num).lbasDist + 1) % 2 ^ 32 ≠ 0
  range : plan.params.slbaType = .uniform ∨ plan.params.slbaType = .zipf →
    (plan.lbaRangeSize + 2 ^ 64 - n) % 2 ^ 64 ≠ 0

section Sizes

-- `pract` says which outcomes the draw for the protection information has
variable (outside : ℕ → BitVec 32) (sectorSize : ℕ) (pract : Bool → Prop) (ns : NamespaceInfo)
  (iosizeMax : BitVec 32) (offset : ℕ) (plan : JobPlan)

/-- A number of LBAs that JESD219 gives for a namespace. -/
def Jesd219Gives (n : ℕ) : Prop :=
  ∃ well slba, (lbaGroup outside ns.nlbs (getLbaGrpIdx (well.group % 100))).size ≠ 0 ∧
    jesd219Gen outside ns.nlbs sectorSize well = some (slba, n)

/-- A call of `generate_bio` for a job: with what it can draw, and no division by zero. -/
structure Call (iover : Iover) (job : IogenJob) (draws : GenDraws) (well : WellDraws) : Prop where
  sameNs : iover.ns = ns
  samePlan : job.plan = plan
  drawn : draws.Drawn outside sectorSize iover job well
  pract : pract draws.pract
  divides : ∀ op ∈ generateBioOps outside sectorSize iover job draws well, op.Divides

/-- **The sizes of a job are consistent**: each read and each write that `generate_bio` returns fits
its buffers, in all states of the job. -/
def SizesFit : Prop :=
  ∀ iover job draws well id iover' job',
    Call outside sectorSize pract ns plan iover job draws well →
    generateBio iover job draws = (some id, iover', job') →
    (job'.bioPool id).opcode = .read ∨ (job'.bioPool id).opcode = .write →
    FitsBuffers iosizeMax offset iover (job'.bioPool id)

/-- **There is room for the sizes of a job**: for those of its reads and writes, or those of
JESD219. A replay has one LBA only, and needs the bytes of one, whatever operation was drawn. -/
structure SizesHold : Prop where
  chosen : plan.params.slbaType ≠ .jesd219 → plan.params.slbaType ≠ .replay → ∀ op n,
    op = .read ∨ op = .write → plan.Chooses ns op n → ∀ b, pract b →
      RoomFor ns iosizeMax offset (ns.strips b) n
  jesd219 : plan.params.slbaType = .jesd219 →
    (∃ op, (op = .read ∨ op = .write) ∧ plan.Has ns op) → ∀ n,
      Jesd219Gives outside sectorSize ns n → ∀ b, pract b →
        RoomFor ns iosizeMax offset (ns.strips b) n
  replay : plan.params.slbaType = .replay → ∀ op n, plan.Chooses ns op n → ∀ b, pract b →
    RoomForOne ns iosizeMax offset (ns.strips b) n

end Sizes

/-! ## Calls -/

section Calls

variable {outside : ℕ → BitVec 32} {sectorSize : ℕ} {pract : Bool → Prop} {ns : NamespaceInfo}
  {iosizeMax : BitVec 32} {offset : ℕ} {plan : JobPlan} {iover iover' : Iover}
  {job job' : IogenJob} {draws : GenDraws} {well : WellDraws} {bio : Bio} {id : ℕ}

theorem Bio.SameSize.fits_iff {a b : Bio} (h : a.SameSize b) :
    FitsBuffers iosizeMax offset iover b ↔ FitsBuffers iosizeMax offset iover a := by
  have hblock : getBlockSize iover b = getBlockSize iover a := by
    rw [getBlockSize, getBlockSize, h.pract]
  refine ⟨?_, ?_⟩
  · rintro ⟨h₁, h₂, h₃, h₄, h₅⟩
    rw [h.nlbs] at h₁ h₂ h₅
    rw [h.iosize] at h₂ h₃
    exact ⟨h₁, hblock ▸ h₂, h₃, h.metaSize ▸ h₄, h₅⟩
  · rintro ⟨h₁, h₂, h₃, h₄, h₅⟩
    rw [← h.nlbs] at h₁ h₂ h₅
    rw [← h.iosize] at h₂ h₃
    exact ⟨h₁, hblock ▸ h₂, h₃, h.metaSize ▸ h₄, h₅⟩

/-- The operations of a call that fills in no flush. -/
theorem mem_generateBioOps {rest : List ℕ} (hfree : job.bioFree = id :: rest)
    (hop : job.oprLottery (draws.rand % 100) ≠ .flush) {op : ArithOp} :
    op ∈ generateBioOps outside sectorSize iover job draws well ↔
      op = .mod draws.rand 100 ∨
      op ∈ chooseNlbsOps outside sectorSize iover job
        (drawnBio iover job draws (job.bioPool id)).opcode draws well ∨
      op ∈ generateLoopOps draws 3 iover job (drawnBio iover job draws (job.bioPool id)) := by
  rw [generateBioOps, hfree]
  simp only [if_neg hop, List.mem_cons, List.mem_append]
  rfl

/-- The loop begins with the choice of an LBA. -/
theorem mem_generateLoopOps (left : ℕ) {op : ArithOp}
    (h : op ∈ chooseSlbaOps iover job bio (draws.slba left)) :
    op ∈ generateLoopOps draws (left + 1) iover job bio := by
  rw [generateLoopOps]
  simp only
  split
  · exact h
  split
  · exact h
  split
  · exact List.mem_append_left _ (List.mem_append_left _ h)
  · exact List.mem_append_left _ (List.mem_append_left _ h)

/-- A size divides by no zero if its entry does not. -/
theorem chooseNlbsOps_divides {op : BioOpcode} (hjesd : job.params.slbaType ≠ .jesd219)
    (hdist : ((job.lbas op.num).lbasDist + 1) % 2 ^ 32 ≠ 0) :
    ∀ o ∈ chooseNlbsOps outside sectorSize iover job op draws well, o.Divides := by
  intro o ho
  rw [chooseNlbsOps, if_neg hjesd] at ho
  rcases List.mem_append.mp ho with ho | ho
  · split at ho
    · rw [List.mem_singleton.mp ho]
      exact hdist
    · cases ho
  · split at ho
    · rw [List.mem_singleton.mp ho]
      trivial
    · cases ho

/-- So does an LBA, if the range is not as long as the bio. -/
theorem chooseSlbaOps_divides
    (hrange : job.params.slbaType = .uniform ∨ job.params.slbaType = .zipf →
      (job.lbaRangeSize + 2 ^ 64 - bio.nlbs) % 2 ^ 64 ≠ 0) (draw : ℕ) :
    ∀ o ∈ chooseSlbaOps iover job bio draw, o.Divides := by
  intro o ho
  rw [chooseSlbaOps] at ho
  split at ho
  · rename_i htype
    rcases List.mem_pair.mp ho with rfl | rfl
    · trivial
    · exact hrange (.inl htype)
  · rename_i htype
    rcases List.mem_pair.mp ho with rfl | rfl
    · trivial
    · exact hrange (.inr htype)
  · rw [historySlbaOps] at ho
    split at ho
    · cases ho
    · rcases List.mem_pair.mp ho with rfl | rfl
      · split <;> trivial
      · trivial
  all_goals cases ho

/-- What is drawn first is a number of LBAs of the operation. -/
theorem Call.chooses (h : Call outside sectorSize pract ns plan iover job draws well)
    {rest : List ℕ} (hfree : job.bioFree = id :: rest)
    (hop : job.oprLottery (draws.rand % 100) ≠ .flush)
    (hjesd : plan.params.slbaType ≠ .jesd219) :
    plan.Chooses ns (drawnBio iover job draws (job.bioPool id)).opcode
      (drawnBio iover job draws (job.bioPool id)).nlbs := by
  obtain ⟨rfl, rfl, hdrawn, -, hdivides⟩ := h
  have hjesd : job.params.slbaType ≠ .jesd219 := hjesd
  refine ⟨⟨drawnBio_opcode_ne _ hop, draws.rand % 100, Nat.mod_lt _ (by decide), rfl⟩,
    chooseNlbs_gives hjesd hdrawn.rand _, ?_, fun htype => ?_⟩
  · by_cases hdist : 0 < (job.lbas (drawnBio iover job draws (job.bioPool id)).opcode.num).lbasDist
    · apply hdivides (.mod (draws.rand / 2 ^ 7) _)
      rw [mem_generateBioOps hfree hop]
      right
      left
      rw [chooseNlbsOps, if_neg hjesd]
      simp only [if_pos hdist]
      exact List.mem_cons_self
    · have hzero := Nat.eq_zero_of_not_pos hdist
      change ((job.lbas _).lbasDist + 1) % 2 ^ 32 ≠ 0
      rw [hzero]
      decide
  · apply hdivides (.mod (draws.slba 2) _)
    rw [mem_generateBioOps hfree hop]
    right
    right
    apply mem_generateLoopOps
    have htype : job.params.slbaType = .uniform ∨ job.params.slbaType = .zipf := htype
    rw [chooseSlbaOps]
    rcases htype with htype | htype
    · rw [htype]
      exact List.mem_cons_of_mem _ List.mem_cons_self
    · rw [htype]
      exact List.mem_cons_of_mem _ List.mem_cons_self

/-- Of JESD219 it is one that it gives. -/
theorem Call.jesd219Gives (h : Call outside sectorSize pract ns plan iover job draws well)
    {rest : List ℕ} (hfree : job.bioFree = id :: rest)
    (hop : job.oprLottery (draws.rand % 100) ≠ .flush)
    (hjesd : plan.params.slbaType = .jesd219) :
    Jesd219Gives outside sectorSize ns (drawnBio iover job draws (job.bioPool id)).nlbs := by
  obtain ⟨rfl, rfl, hdrawn, -, hdivides⟩ := h
  have hjesd : job.params.slbaType = .jesd219 := hjesd
  have hgen := hdrawn.jesd219 hjesd
  have hnlbs : (drawnBio iover job draws (job.bioPool id)).nlbs = draws.jesd219Nlbs := by
    change chooseNlbs iover job _ draws = _
    rw [chooseNlbs, if_pos hjesd]
    exact Nat.mod_eq_of_lt (payloads_lt (jesd219Loop_spec hgen).1.payload)
  rw [hnlbs]
  refine ⟨well, draws.jesd219Slba, ?_, hgen⟩
  intro hzero
  rw [jesd219Gen] at hgen
  cases hrounds : well.rounds with
  | nil =>
    rw [hrounds, jesd219Loop] at hgen
    cases hgen
  | cons words rounds =>
    have hmod : ArithOp.Divides (.mod words.1
        (lbaGroup outside iover.ns.nlbs (getLbaGrpIdx (well.group % 100))).size.toNat) := by
      apply hdivides
      rw [mem_generateBioOps hfree hop, chooseNlbsOps, if_pos hjesd, hrounds, jesd219LoopOps]
      right
      left
      exact List.mem_cons_self
    rw [hzero] at hmod
    exact hmod rfl

/-- **If there is room for the sizes** of a job, its reads and writes fit. -/
theorem SizesHold.fits (hold : SizesHold outside sectorSize pract ns iosizeMax offset plan) :
    SizesFit outside sectorSize pract ns iosizeMax offset plan := by
  intro iover job draws well id iover' job' hcall hgen hop
  have hflush : (job'.bioPool id).opcode ≠ .flush := by
    rcases hop with hop | hop
    · rw [hop]
      decide
    · rw [hop]
      decide
  obtain ⟨hlottery, hsame⟩ := generateBio_sameSize hgen hflush
  obtain ⟨rest, hfree, -⟩ := generateBio_some hgen
  have hmeasures := drawnBio_measures iover job draws (job.bioPool id)
  have htype : job.params.slbaType = plan.params.slbaType := by
    rw [← hcall.samePlan]
    rfl
  rw [hsame.fits_iff]
  rw [htype] at hsame ⊢
  by_cases hreplay : plan.params.slbaType = .replay
  · have hjesd : plan.params.slbaType ≠ .jesd219 := by
      rw [hreplay]
      decide
    rw [Bio.placedBy, if_pos hreplay]
    rw [hmeasures.replayed.fits_one_iff rfl, hcall.sameNs]
    exact hold.replay hreplay _ _ (hcall.chooses hfree hlottery hjesd) _ hcall.pract
  · rw [Bio.placedBy, if_neg hreplay] at hsame ⊢
    rw [hsame.opcode] at hop
    rw [hmeasures.fits_iff rfl, hcall.sameNs]
    by_cases hjesd : plan.params.slbaType = .jesd219
    · refine hold.jesd219 hjesd ⟨_, hop, ?_⟩ _ (hcall.jesd219Gives hfree hlottery hjesd) _
        hcall.pract
      obtain ⟨rfl, rfl, -⟩ := hcall
      exact ⟨drawnBio_opcode_ne _ hlottery, draws.rand % 100, Nat.mod_lt _ (by decide), rfl⟩
    · exact hold.chosen hjesd hreplay _ _ hop (hcall.chooses hfree hlottery hjesd) _ hcall.pract

end Calls

/-! ## A call for each size -/

/-- A verifier of a namespace, with nothing locked. -/
def freshIover (ns : NamespaceInfo) : Iover :=
  .init ns (fun _ _ => 0) (fun _ => .zero) (fun _ => { lba := 0, curr := .zero, next := .zero })
    .zero 0

/-- A job of a plan, whose writes are ahead of its reads. -/
def JobPlan.job (plan : JobPlan) : IogenJob where
  params := plan.params
  state := .running
  iogenState := .running
  oprLottery := plan.oprLottery
  lbas := plan.lbas
  slbaAlign := plan.slbaAlign
  lbaRangeBegin := plan.lbaRangeBegin
  lbaRangeSize := plan.lbaRangeSize
  slbaNext s := if s = 0 then 2 ^ 32 else 0
  replayHistIdx := 0
  replayHistCnt := 1
  bioPool _ := .plain .read 0 0 fun _ => 0
  bioFree := [0]
  bioInflight := []
  numInflight := 0
  sumOps := 0
  sumBytes := 0
  timeout := false
  view := ⟨fun _ => 0, false, 0⟩

section Fresh

variable {outside : ℕ → BitVec 32} {sectorSize : ℕ} {pract : Bool → Prop} {ns : NamespaceInfo}
  {iosizeMax : BitVec 32} {offset : ℕ} {plan : JobPlan} {draws : GenDraws} {well : WellDraws}
  {bio : Bio}

/-- The job chooses an LBA for any bio. -/
theorem chooseSlba_fresh (ns : NamespaceInfo) (plan : JobPlan) (hn : bio.nlbs < 2 ^ 32)
    (hop : bio.opcode ≠ .flush) (draw jesd219Slba : ℕ) : ∃ job' bio',
      chooseSlba (freshIover ns) plan.job bio draw jesd219Slba = (true, job', bio') ∧
        job'.params = plan.params ∧ bio'.nlbs < 2 ^ 32 ∧ bio'.opcode ≠ .flush := by
  have hjob : plan.job.params = plan.params := rfl
  rw [chooseSlba]
  cases htype : plan.job.params.slbaType with
  | seq =>
    have hok : (seqSlba plan.job bio).1 = true := by
      have hnext : ¬ 2 ^ 32 ≤ (0 + bio.nlbs) % 2 ^ 64 := by omega
      rw [seqSlba]
      by_cases hread : plan.job.params.separateStream = true ∧ bio.opcode = .read
      · have hzero : plan.job.slbaNext 0 = 2 ^ 32 := rfl
        have hone : plan.job.slbaNext 1 = 0 := rfl
        simp only [if_pos hread, hzero, hone, ite_self, decide_eq_false hnext]
        rfl
      · simp only [if_neg hread]
        rfl
    exact ⟨_, _, Prod.ext hok rfl, rfl, hn, hop⟩
  | replay =>
    have hgoes : historyEnd (freshIover ns) plan.job = false := rfl
    simp only [historySlba, hgoes, Bool.false_eq_true, if_false]
    exact ⟨_, _, rfl, rfl, (by decide : 1 < 2 ^ 32), (by decide : BioOpcode.read ≠ .flush)⟩
  | _ => exact ⟨_, _, rfl, rfl, hn, hop⟩

theorem not_refused_fresh (params : JobParams) (bio : Bio) :
    ¬ Refused (freshIover ns) params bio := by
  rintro ⟨-, hconflict⟩
  apply hconflict
  have hbits : bits (freshIover ns).lbaLock = ∅ := bits_zero
  rw [hbits]
  exact Set.disjoint_empty _

/-- The loop comes to its end at the first attempt, and what it divides by was chosen before. -/
theorem generateLoop_fresh (hn : bio.nlbs < 2 ^ 32) (hop : bio.opcode ≠ .flush)
    (hrange : ∀ op ∈ chooseSlbaOps (freshIover ns) plan.job bio (draws.slba 2), op.Divides) :
    (generateLoop draws 3 (freshIover ns) plan.job bio).ready = true ∧
      (generateLoop draws 3 (freshIover ns) plan.job bio).bio.opcode ≠ .flush ∧
      ∀ op ∈ generateLoopOps draws 3 (freshIover ns) plan.job bio, op.Divides := by
  obtain ⟨job', bio', hchoose, hparams, hn', hop'⟩ :=
    chooseSlba_fresh ns plan hn hop (draws.slba 2) draws.jesd219Slba
  have hplaced : (placeBio (freshIover ns) job' bio').nlbs < 2 ^ 32 := hn'
  obtain ⟨iover₂, bio₂, hout⟩ :=
    ioverGenerateData_accepted hplaced (not_refused_fresh job'.params _) (draws.escape 2)
  have hsame := ioverGenerateData_sameSize (freshIover ns) job'.params
    (placeBio (freshIover ns) job' bio') (draws.escape 2)
  rw [hout] at hsame
  have hgoes : ¬ (job'.params.slbaType = .replay ∧ bio'.opcode = .flush) := fun h => hop' h.2
  have hplace : ∀ op ∈ placeOps (freshIover ns) job', op.Divides := by
    intro op hmem
    rw [placeOps] at hmem
    split at hmem
    · rw [List.mem_singleton.mp hmem]
      trivial
    · cases hmem
  have hmeasure : ∀ op ∈ measureOps job' draws bio₂, op.Divides := by
    intro op hmem
    rw [measureOps] at hmem
    split at hmem
    · rename_i hstreams
      rw [List.mem_singleton.mp hmem]
      exact hstreams.2
    · cases hmem
  refine ⟨?_, ?_, ?_⟩
  · rw [generateLoop, hchoose]
    simp only [hout, if_neg hgoes]
    rfl
  · rw [generateLoop, hchoose]
    simp only [hout, if_neg hgoes]
    exact hsame.opcode.trans_ne hop'
  · rw [generateLoopOps, hchoose]
    simp only [hout, if_neg hgoes]
    intro op hmem
    rcases List.mem_append.mp hmem with hmem | hmem
    · rcases List.mem_append.mp hmem with hmem | hmem
      · exact hrange op hmem
      · exact hplace op hmem
    · exact hmeasure op hmem

/-- What the job fills in first. -/
def freshBio (ns : NamespaceInfo) (plan : JobPlan) (draws : GenDraws) : Bio :=
  drawnBio (freshIover ns) plan.job draws (plan.job.bioPool 0)

theorem freshBio_opcode {op : BioOpcode} {k : ℕ} (hk : draws.rand % 100 = k)
    (hop : sizedOpcode ns.lbaShift (plan.oprLottery k) = op) :
    (freshBio ns plan draws).opcode = op := by
  rw [← hop, ← hk]
  rfl

/-- Only a flush becomes a flush. -/
theorem lottery_ne_flush {op : BioOpcode} {k : ℕ} (hk : draws.rand % 100 = k)
    (hop : sizedOpcode ns.lbaShift (plan.oprLottery k) = op) (hflush : op ≠ .flush) :
    plan.oprLottery (draws.rand % 100) ≠ .flush := by
  intro hz
  rw [hk] at hz
  rw [hz] at hop
  apply hflush
  rw [← hop]
  simp [sizedOpcode]

/-- The draws of a call that divides by no zero. -/
structure FreshCall (outside : ℕ → BitVec 32) (sectorSize : ℕ) (pract : Bool → Prop)
    (ns : NamespaceInfo) (plan : JobPlan) (draws : GenDraws) (well : WellDraws) : Prop where
  drawn : draws.Drawn outside sectorSize (freshIover ns) plan.job well
  pract : pract draws.pract
  lottery : plan.oprLottery (draws.rand % 100) ≠ .flush
  nlbs : ∀ op ∈ chooseNlbsOps outside sectorSize (freshIover ns) plan.job
    (freshBio ns plan draws).opcode draws well, op.Divides
  slba : ∀ op ∈ chooseSlbaOps (freshIover ns) plan.job (freshBio ns plan draws) (draws.slba 2),
    op.Divides

/-- **The job returns** what it filled in first. -/
theorem FreshCall.returns (h : FreshCall outside sectorSize pract ns plan draws well) :
    Call outside sectorSize pract ns plan (freshIover ns) plan.job draws well ∧
      ∃ iover' job', generateBio (freshIover ns) plan.job draws = (some 0, iover', job') ∧
        ((freshBio ns plan draws).placedBy plan.params.slbaType).SameSize (job'.bioPool 0) := by
  have hfree : plan.job.bioFree = 0 :: [] := rfl
  have hlottery : plan.job.oprLottery (draws.rand % 100) ≠ .flush := h.lottery
  have hne : (freshBio ns plan draws).opcode ≠ .flush := drawnBio_opcode_ne _ hlottery
  obtain ⟨hready, hop, hdivides⟩ := generateLoop_fresh (drawnBio_nlbs_lt ..) hne h.slba
  refine ⟨⟨rfl, rfl, h.drawn, h.pract, ?_⟩, ?_⟩
  · intro op hmem
    rw [mem_generateBioOps hfree hlottery] at hmem
    rcases hmem with rfl | hmem | hmem
    · exact (by decide : 100 ≠ 0)
    · exact h.nlbs op hmem
    · exact hdivides op hmem
  · have hfill : fillBio (freshIover ns) plan.job draws (plan.job.bioPool 0) =
        generateLoop draws 3 (freshIover ns) plan.job (freshBio ns plan draws) :=
      fillBio_of_ne _ _ hlottery
    obtain ⟨job', hgen, -, -, hio⟩ := generateBio_ready hfree hfill hready
    have hne' : (job'.bioPool 0).opcode ≠ .flush := hio.opcode.trans_ne hop
    exact ⟨_, job', hgen, (generateBio_sameSize hgen hne').2⟩

theorem SizesFit.fresh (hfit : SizesFit outside sectorSize pract ns iosizeMax offset plan)
    (h : FreshCall outside sectorSize pract ns plan draws well)
    (hop : ((freshBio ns plan draws).placedBy plan.params.slbaType).opcode = .read ∨
      ((freshBio ns plan draws).placedBy plan.params.slbaType).opcode = .write) :
    FitsBuffers iosizeMax offset (freshIover ns)
      ((freshBio ns plan draws).placedBy plan.params.slbaType) := by
  obtain ⟨hcall, iover', job', hgen, hsame⟩ := h.returns
  rw [← hsame.opcode] at hop
  rw [← hsame.fits_iff]
  exact hfit _ _ _ _ _ _ _ hcall hgen hop

/-- A random number that chooses a size is one for which it is chosen. -/
theorem chooseNlbs_eq {iover : Iover} {job : IogenJob} {op : BioOpcode} {q : ℕ}
    (hjesd : job.params.slbaType ≠ .jesd219) (hq : q ≤ (job.lbas op.num).lbasDist)
    (hrand : draws.rand / 2 ^ 7 = q) : chooseNlbs iover job op draws =
      job.plan.alignSize iover.ns op (((job.lbas op.num).minLbas + q) % 2 ^ 32) := by
  have hsize : (if 0 < (job.lbas op.num).lbasDist then
        ((job.lbas op.num).minLbas + draws.rand / 2 ^ 7 % ((job.lbas op.num).lbasDist + 1)) % 2 ^ 32
      else (job.lbas op.num).minLbas % 2 ^ 32) = ((job.lbas op.num).minLbas + q) % 2 ^ 32 := by
    split
    · rw [hrand, Nat.mod_eq_of_lt (Nat.lt_succ_of_le hq)]
    · obtain rfl : q = 0 := by omega
      rfl
  simp only [chooseNlbs]
  rw [if_neg hjesd]
  simp only [hsize]
  rfl

/-- **Each size that can be chosen** is that of some call. -/
theorem exists_freshCall {op : BioOpcode} {n : ℕ} {b : Bool}
    (hjesd : plan.params.slbaType ≠ .jesd219) (h : plan.Chooses ns op n) (hb : pract b) : ∃ draws well,
      FreshCall outside sectorSize pract ns plan draws well ∧ draws.pract = b ∧
        (freshBio ns plan draws).opcode = op ∧ (freshBio ns plan draws).nlbs = n := by
  obtain ⟨⟨hflush, k, hk, hop⟩, ⟨q, hq, rfl⟩, hdist, hrange⟩ := h
  obtain ⟨rand, hlt, hdiv, hmod⟩ := exists_draw (q := q) (by omega) hk
  let draws : GenDraws := { GenDraws.const 0 with rand := rand, pract := b }
  have hopcode : (freshBio ns plan draws).opcode = op := freshBio_opcode hmod hop
  have hnlbs : (freshBio ns plan draws).nlbs =
      plan.alignSize ns op (((plan.lbas op.num).minLbas + q) % 2 ^ 32) := by
    have hchosen : (freshBio ns plan draws).nlbs =
        chooseNlbs (freshIover ns) plan.job (freshBio ns plan draws).opcode draws := rfl
    rw [hchosen, hopcode]
    exact chooseNlbs_eq hjesd (hq.trans (Nat.min_le_left ..)) hdiv
  have hlottery : plan.oprLottery (draws.rand % 100) ≠ .flush := lottery_ne_flush hmod hop hflush
  have hrange' : plan.job.params.slbaType = .uniform ∨ plan.job.params.slbaType = .zipf →
      (plan.job.lbaRangeSize + 2 ^ 64 - (freshBio ns plan draws).nlbs) % 2 ^ 64 ≠ 0 := by
    rw [hnlbs]
    exact hrange
  refine ⟨draws, .none, ⟨⟨hlt, fun _ _ => ?_, fun h => absurd h hjesd⟩, hb, hlottery, ?_, ?_⟩, rfl,
    hopcode, hnlbs⟩
  · exact (by decide : 0 < 2 ^ 31)
  · rw [hopcode]
    exact chooseNlbsOps_divides hjesd hdist
  · exact chooseSlbaOps_divides hrange' _

/-- And so is each size that JESD219 gives. -/
theorem exists_freshCall_jesd219 {op : BioOpcode} {n : ℕ} {b : Bool}
    (hjesd : plan.params.slbaType = .jesd219) (hhas : plan.Has ns op)
    (h : Jesd219Gives outside sectorSize ns n) (hb : pract b) : ∃ draws well,
      FreshCall outside sectorSize pract ns plan draws well ∧ draws.pract = b ∧
        (freshBio ns plan draws).opcode = op ∧ (freshBio ns plan draws).nlbs = n := by
  obtain ⟨hflush, k, hk, hop⟩ := hhas
  obtain ⟨well, slba, hsize, hgen⟩ := h
  let draws : GenDraws :=
    { GenDraws.const 0 with rand := k, jesd219Nlbs := n, jesd219Slba := slba, pract := b }
  have hmod : draws.rand % 100 = k := Nat.mod_eq_of_lt hk
  have hlottery : plan.oprLottery (draws.rand % 100) ≠ .flush := lottery_ne_flush hmod hop hflush
  have hopcode : (freshBio ns plan draws).opcode = op := freshBio_opcode hmod hop
  have hnlbs : (freshBio ns plan draws).nlbs = n := by
    change chooseNlbs (freshIover ns) plan.job _ draws = n
    rw [chooseNlbs]
    exact (if_pos hjesd).trans
      (Nat.mod_eq_of_lt (payloads_lt (jesd219Loop_spec hgen).1.payload))
  have hrange : plan.job.params.slbaType = .uniform ∨ plan.job.params.slbaType = .zipf →
      (plan.job.lbaRangeSize + 2 ^ 64 - (freshBio ns plan draws).nlbs) % 2 ^ 64 ≠ 0 := by
    rintro (htype | htype)
    · cases hjesd.symm.trans htype
    · cases hjesd.symm.trans htype
  refine ⟨draws, well, ⟨⟨?_, fun _ _ => ?_, fun _ => hgen⟩, hb, hlottery, ?_, ?_⟩, rfl, hopcode,
    hnlbs⟩
  · exact hk.trans (by decide)
  · exact (by decide : 0 < 2 ^ 31)
  · have hjesd' : plan.job.params.slbaType = .jesd219 := hjesd
    rw [chooseNlbsOps, if_pos hjesd']
    exact fun o ho => (jesd219LoopOps_ok hsize _ o ho).divides
  · exact chooseSlbaOps_divides hrange _

/-- **If the reads and writes of a job fit**, there is room for its sizes. -/
theorem SizesFit.hold (hfit : SizesFit outside sectorSize pract ns iosizeMax offset plan) :
    SizesHold outside sectorSize pract ns iosizeMax offset plan := by
  have hroom : plan.params.slbaType ≠ .replay → ∀ draws well,
      FreshCall outside sectorSize pract ns plan draws well →
      (freshBio ns plan draws).opcode = .read ∨ (freshBio ns plan draws).opcode = .write →
        RoomFor ns iosizeMax offset (ns.strips draws.pract) (freshBio ns plan draws).nlbs := by
    intro hreplay draws well hcall hop
    have hfits := hfit.fresh hcall
    rw [Bio.placedBy, if_neg hreplay] at hfits
    exact ((drawnBio_measures ..).fits_iff rfl).mp (hfits hop)
  refine ⟨fun hjesd hreplay op n hop hchooses b hb => ?_, fun hjesd hops n hgives b hb => ?_,
    fun hreplay op n hchooses b hb => ?_⟩
  · obtain ⟨draws, well, hcall, rfl, rfl, rfl⟩ := exists_freshCall hjesd hchooses hb
    exact hroom hreplay draws well hcall hop
  · obtain ⟨op, hop, hhas⟩ := hops
    have hreplay : plan.params.slbaType ≠ .replay := by
      rw [hjesd]
      decide
    obtain ⟨draws, well, hcall, rfl, rfl, rfl⟩ := exists_freshCall_jesd219 hjesd hhas hgives hb
    exact hroom hreplay draws well hcall hop
  · have hjesd : plan.params.slbaType ≠ .jesd219 := by
      rw [hreplay]
      decide
    obtain ⟨draws, well, hcall, rfl, rfl, rfl⟩ := exists_freshCall hjesd hchooses hb
    have hfits := hfit.fresh hcall
    rw [Bio.placedBy, if_pos hreplay] at hfits
    have hmeasures : Measures (freshIover ns) (ns.strips draws.pract) (freshBio ns plan draws).nlbs
        (freshBio ns plan draws) := drawnBio_measures ..
    exact (hmeasures.replayed.fits_one_iff rfl).mp (hfits (.inl rfl))

/-- **Which jobs have consistent sizes**: those for whose sizes there is room. -/
theorem sizesFit_iff (outside : ℕ → BitVec 32) (sectorSize : ℕ) (pract : Bool → Prop)
    (ns : NamespaceInfo) (iosizeMax : BitVec 32) (offset : ℕ) (plan : JobPlan) :
    SizesFit outside sectorSize pract ns iosizeMax offset plan ↔
      SizesHold outside sectorSize pract ns iosizeMax offset plan :=
  ⟨SizesFit.hold, SizesHold.fits⟩

/-- **Sizes that fit**: those that are not aligned and keep to `iosize_max`, in buffers whose sizes
do not wrap around. -/
theorem sizesFit_of_entries (hword : SizesInWord ns iosizeMax) (hoffset : offset ∈ bufOffsets)
    (hjesd : plan.params.slbaType ≠ .jesd219) (hreplay : plan.params.slbaType ≠ .replay)
    (halign : ∀ op : BioOpcode, op = .read ∨ op = .write → plan.params.iosizeAlign op.num = 0)
    (hentry : ∀ op, op = .read ∨ op = .write → plan.Has ns op → 0 < (plan.lbas op.num).minLbas ∧
      (plan.lbas op.num).minLbas + (plan.lbas op.num).lbasDist ≤ blockDescLen ns iosizeMax) :
    SizesFit outside sectorSize pract ns iosizeMax offset plan := by
  refine SizesHold.fits ⟨?_, fun h => absurd h hjesd, fun h => absurd h hreplay⟩
  intro _ _ op n hop hchooses b _
  obtain ⟨hhas, ⟨q, hq, hn⟩, -, -⟩ := hchooses
  obtain ⟨hmin, hmax⟩ := hentry op hop hhas
  have hlt : blockDescLen ns iosizeMax < 2 ^ 32 := BitVec.isLt _
  rw [JobPlan.alignSize, if_neg (not_not_intro (halign op hop)), Nat.mod_eq_of_lt (by omega)] at hn
  rw [roomFor_iff hword hoffset, hn]
  omega

end Fresh

/-! ## An alignment -/

/-- Reads of 4K with `IOSIZE_ALIGN=8K`. -/
def iosizeAlignJob : JobConfig :=
  { JobConfig.plain 4096 4096 with
    operations := readOperations
    slbaType := .fixed
    iosizes := update (fun _ => .zero) .total
      { iosizeMin := 4096, iosizeMax := 4096, iosizeAlign := 8192 } }

/-- **An alignment of 8K makes 4K two blocks**, for which no buffer was allocated. -/
theorem not_sizesFit_aligned : ∃ nsis bound job,
    validate (.null { min := 4096, max := 4096 }) [iosizeAlignJob] = .ok (nsis, [bound]) ∧
      nullJob bound.params = some job ∧ ∀ outside sectorSize pract offset, (∃ b, pract b) →
        ¬ SizesFit outside sectorSize pract .null 4096 offset job.plan := by
  have hjob : ∃ nsis bound job,
      validate (.null { min := 4096, max := 4096 }) [iosizeAlignJob] = .ok (nsis, [bound]) ∧
        nullJob bound.params = some job ∧ job.params.slbaType = .fixed ∧
          job.oprLottery 0 = .read ∧ job.lbas 0 = ⟨1, 0⟩ ∧ job.params.iosizeAlign 0 = 8192 :=
    ⟨_, _, _, rfl, rfl, rfl, rfl, rfl, rfl⟩
  obtain ⟨nsis, bound, job, hvalidate, hnull, htype, hread, hlbas, halign⟩ := hjob
  refine ⟨nsis, bound, job, hvalidate, hnull, ?_⟩
  rintro outside sectorSize pract offset ⟨b, hb⟩ hfit
  have hchooses : job.plan.Chooses .null .read 2 := by
    refine ⟨⟨by decide, 0, by decide, ?_⟩, ⟨0, Nat.zero_le _, ?_⟩, ?_, ?_⟩
    · change sizedOpcode 12 (job.oprLottery 0) = .read
      rw [hread]
      decide
    · have hlbas' : job.plan.lbas BioOpcode.read.num = ⟨1, 0⟩ := hlbas
      have halign' : job.plan.params.iosizeAlign BioOpcode.read.num = 8192 := halign
      rw [JobPlan.alignSize, hlbas', halign']
      decide
    · have hlbas' : job.plan.lbas BioOpcode.read.num = ⟨1, 0⟩ := hlbas
      rw [hlbas']
      decide
    · rintro (huniform | hzipf)
      · cases htype.symm.trans huniform
      · cases htype.symm.trans hzipf
  have hjesd : job.plan.params.slbaType ≠ .jesd219 := htype.trans_ne (by decide)
  have hreplay : job.plan.params.slbaType ≠ .replay := htype.trans_ne (by decide)
  have hroom := hfit.hold.chosen hjesd hreplay .read 2 (.inl rfl) hchooses b hb
  exact absurd hroom.blockDesc (by decide)

end ChamberSpo

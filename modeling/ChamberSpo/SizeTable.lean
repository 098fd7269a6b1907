import ChamberSpo.JobInit

/-!
# The sizes of a bio

`iogen_job_init` fills the table `lbas` in the order of `enum iosize_opcode`, which begins with the
size for all operations. `generate_bio` reads it in the order of `enum bio_opcode`, which does not:
a read finds the sizes of all operations, a write those of reads.

* `configuredSize` — the sizes that were configured for an operation.
* `SizeAgrees` — the bios of an operation have them.
* `SizeFits` — the entry that is read lies within them.

`sizesAgree_iff` says that the one holds of a job exactly if the other does.
-/

namespace ChamberSpo

open Function

/-! ## What was configured -/

/-- The size parameters of an operation. -/
def BioOpcode.iosizeOpcode : BioOpcode → IosizeOpcode
  | .read => .read
  | .write => .write
  | .deallocate => .deallocate
  | .writeZeroes => .writeZeroes
  | .writeUncorrect => .writeUncorrect
  | .flush | .identify | .fwDownload => .total

/-- The sizes configured for an operation, which are those for all if there are none of its
own. -/
def configuredSize (iosizes : IosizeOpcode → Iosize) (op : BioOpcode) : Iosize :=
  if (iosizes op.iosizeOpcode).Unset then iosizes .total else iosizes op.iosizeOpcode

/-- A number of LBAs is not less than the least size, and not more than the greatest. -/
def Iosize.Allows (iosize : Iosize) (lbaShift n : ℕ) : Prop :=
  iosize.iosizeMin.toNat ≤ n * 2 ^ lbaShift ∧ n * 2 ^ lbaShift ≤ iosize.iosizeMax.toNat

/-- The opcode that `generate_bio` makes of the one it has drawn. -/
def sizedOpcode (lbaShift : ℕ) (op : BioOpcode) : BioOpcode :=
  if op = .writeUncorrect ∧ lbaShift = 9 then .write else op

/-- The lottery yields an operation. -/
def Yields (operations : BioOpcode → BitVec 32) (op : BioOpcode) : Prop :=
  ∃ lottery, createOprLottery operations = some lottery ∧ ∃ k < 100, lottery k = op

/-- The bios of an operation have the sizes that were configured for it. -/
structure SizeAgrees (iover : Iover) (job : IogenJob) (config : JobConfig) (op : BioOpcode) :
    Prop where
  /-- `lbas[bio->opcode]` is in the table -/
  inTable : (sizedOpcode iover.ns.lbaShift op).num < IosizeOpcode.all.length
  /-- `lbas_dist + 1` is no zero -/
  dist : (job.lbas (sizedOpcode iover.ns.lbaShift op).num).lbasDist + 1 < 2 ^ 32
  /-- `rand48` is a number of 31 bits -/
  size : ∀ (draws : GenDraws) (bio : Bio), draws.rand < 2 ^ 31 →
    job.oprLottery (draws.rand % 100) = op →
    (configuredSize config.iosizes op).Allows iover.ns.lbaShift
      (sizeBio iover job draws { bio with opcode := op }).nlbs

/-- The most LBAs that an entry gives: a random number adds 24 bits. -/
def LbasEntry.most (e : LbasEntry) : ℕ := e.minLbas.toNat + min e.lbasDist.toNat (2 ^ 24 - 1)

/-- The entry at the number of an opcode lies within the sizes configured for it. -/
def SizeFits (lbaShift : ℕ) (iosizes : IosizeOpcode → Iosize) (op : BioOpcode) : Prop :=
  ∃ i, IosizeOpcode.ofNum (sizedOpcode lbaShift op).num = some i ∧
    let e := fillLbas lbaShift iosizes i
    e.lbasDist.toNat + 1 < 2 ^ 32 ∧ e.most < 2 ^ 32 ∧
      (configuredSize iosizes op).Allows lbaShift e.minLbas.toNat ∧
      (configuredSize iosizes op).Allows lbaShift e.most

/-! ## What is chosen -/

/-- The bits that choose the opcode and those that choose the size do not get in each other's
way. -/
theorem exists_draw {q k : ℕ} (hq : q < 2 ^ 24) (hk : k < 100) :
    ∃ rand < 2 ^ 31, rand / 2 ^ 7 = q ∧ rand % 100 = k :=
  ⟨128 * q + (k + 72 * (q % 100)) % 100, by omega, by omega, by omega⟩

section Choose

variable {ns : NamespaceInfo} {config : JobConfig} {beyond : Beyond}
  {lbas : IosizeOpcode → LbasEntry} {iover : Iover} {job : IogenJob} {op : BioOpcode}
  {draws : GenDraws} {bio : Bio} {i : IosizeOpcode}

theorem ofNum_lt {n : ℕ} (h : IosizeOpcode.ofNum n = some i) : n < IosizeOpcode.all.length := by
  simp only [IosizeOpcode.ofNum] at h
  split at h <;> cases h <;> decide

theorem exists_ofNum {n : ℕ} (h : n < IosizeOpcode.all.length) :
    ∃ i, IosizeOpcode.ofNum n = some i := by
  have h6 : n < 6 := h
  interval_cases n <;> exact ⟨_, rfl⟩

theorem tableAt_of_ofNum {α : Type} {table : IosizeOpcode → α} {beyond : ℕ → α} {n : ℕ}
    (h : IosizeOpcode.ofNum n = some i) : tableAt table beyond n = table i := by
  rw [tableAt, h]

/-- A table that `iogen_job_init` accepts has sizes. -/
theorem initLbas_spec {lbaShift : ℕ} {iosizes : IosizeOpcode → Iosize}
    (h : initLbas lbaShift iosizes = some lbas) :
    lbas = fillLbas lbaShift iosizes ∧ ∀ i, (lbas i).minLbas ≠ 0 ∧ (lbas i).maxLbas ≠ 0 := by
  unfold initLbas at h
  simp only at h
  split at h
  · cases h
  rename_i hnone
  obtain rfl := Option.some.inj h
  refine ⟨rfl, ?_⟩
  intro i
  have hi : i ∈ IosizeOpcode.all := by cases i <;> decide
  refine ⟨fun hmin => hnone ⟨i, hi, .inl hmin⟩, fun hmax => hnone ⟨i, hi, .inr hmax⟩⟩

/-- The sizes configured for an operation are none of them zero. -/
theorem configuredSize_pos {lbaShift : ℕ} {iosizes : IosizeOpcode → Iosize}
    (h : initLbas lbaShift iosizes = some lbas) (op : BioOpcode) :
    0 < (configuredSize iosizes op).iosizeMin.toNat := by
  obtain ⟨rfl, hne⟩ := initLbas_spec h
  have hentry : ∃ i, fillLbas lbaShift iosizes i = lbasEntry lbaShift (configuredSize iosizes op) := by
    by_cases hunset : (iosizes op.iosizeOpcode).Unset
    · refine ⟨.total, ?_⟩
      have htotal : ¬ (iosizes .total).Unset := by
        intro ht
        apply (hne .total).1
        rw [fillLbas, if_pos ht, if_pos ht]
        rfl
      rw [fillLbas, if_neg htotal, configuredSize, if_pos hunset]
    · refine ⟨op.iosizeOpcode, ?_⟩
      rw [fillLbas, if_neg hunset, configuredSize, if_neg hunset]
  obtain ⟨i, hi⟩ := hentry
  have hmin := (hne i).1
  rw [hi] at hmin
  rw [Nat.pos_iff_ne_zero]
  intro hz
  apply hmin
  have hz' : (configuredSize iosizes op).iosizeMin = 0 := BitVec.eq_of_toNat_eq hz
  simp [lbasEntry, hz']

/-- The number of LBAs that is chosen for an operation without alignment. -/
theorem sizeBio_nlbs (hset : job.SetUp ns config beyond lbas) (hjesd : config.slbaType ≠ .jesd219)
    (halign : ∀ i, (config.iosizes i).iosizeAlign = 0)
    (hi : IosizeOpcode.ofNum (sizedOpcode iover.ns.lbaShift op).num = some i) :
    (sizeBio iover job draws { bio with opcode := op }).nlbs =
      ((lbas i).minLbas.toNat + draws.rand / 2 ^ 7 % ((lbas i).lbasDist.toNat + 1)) % 2 ^ 32 := by
  have hrange : job.lbas (sizedOpcode iover.ns.lbaShift op).num = (lbas i).lbasRange := by
    rw [hset.lbas, tableAt_of_ofNum hi]
  have hal : job.params.iosizeAlign (sizedOpcode iover.ns.lbaShift op).num = 0 := by
    rw [hset.params]
    simp only [JobConfig.jobParams, tableAt_of_ofNum hi, halign]
    rfl
  have hno : job.params.slbaType ≠ .jesd219 := by rwa [hset.params]
  have hnlbs : (sizeBio iover job draws { bio with opcode := op }).nlbs =
      chooseNlbs iover job (sizedOpcode iover.ns.lbaShift op) draws := rfl
  rw [hnlbs, chooseNlbs, if_neg hno]
  simp only [hrange, hal, ne_eq, not_true_eq_false, if_false, LbasEntry.lbasRange]
  split
  · rfl
  · rename_i hd
    rw [Nat.eq_zero_of_not_pos hd, Nat.zero_add, Nat.mod_one, Nat.add_zero]

/-- Some random number chooses any number of LBAs up to the most. -/
theorem SizeAgrees.allows (h : SizeAgrees iover job config op)
    (hset : job.SetUp iover.ns config beyond lbas) (hjesd : config.slbaType ≠ .jesd219)
    (halign : ∀ i, (config.iosizes i).iosizeAlign = 0) (hyields : ∃ k < 100, job.oprLottery k = op)
    (hi : IosizeOpcode.ofNum (sizedOpcode iover.ns.lbaShift op).num = some i) {q : ℕ}
    (hq : q ≤ min (lbas i).lbasDist.toNat (2 ^ 24 - 1)) :
    (configuredSize config.iosizes op).Allows iover.ns.lbaShift
      (((lbas i).minLbas.toNat + q) % 2 ^ 32) := by
  obtain ⟨k, hk, hop⟩ := hyields
  obtain ⟨rand, hlt, hdiv, hmod⟩ := exists_draw (q := q) (by omega) hk
  let draws : GenDraws :=
    { rand := rand, jesd219Nlbs := 0, jesd219Slba := 0, pract := false, slba := fun _ => 0,
      escape := fun _ _ => false, tagError := false }
  have hsize := h.size draws (.plain .read 0 0 fun _ => 0) hlt (by rw [hmod, hop])
  have hself : q % ((lbas i).lbasDist.toNat + 1) = q := Nat.mod_eq_of_lt (by omega)
  rwa [sizeBio_nlbs hset hjesd halign hi, hdiv, hself] at hsize

/-- **An operation has its sizes** exactly if the entry that is read lies within them. -/
theorem sizeAgrees_iff (hset : job.SetUp iover.ns config beyond lbas)
    (hjesd : config.slbaType ≠ .jesd219) (halign : ∀ i, (config.iosizes i).iosizeAlign = 0)
    (hyields : ∃ k < 100, job.oprLottery k = op) :
    SizeAgrees iover job config op ↔ SizeFits iover.ns.lbaShift config.iosizes op := by
  obtain ⟨rfl, -⟩ := initLbas_spec hset.initLbas
  refine ⟨?_, ?_⟩
  · intro h
    obtain ⟨i, hi⟩ := exists_ofNum h.inTable
    have hdist := h.dist
    rw [hset.lbas, tableAt_of_ofNum hi] at hdist
    have hallows := fun q => h.allows (q := q) hset hjesd halign hyields hi
    have hlt := (fillLbas iover.ns.lbaShift config.iosizes i).minLbas.isLt
    have hmost : (fillLbas iover.ns.lbaShift config.iosizes i).most < 2 ^ 32 := by
      by_contra hge
      simp only [LbasEntry.most] at hge
      -- one of the draws would come to no LBAs at all
      have hzero := (hallows
        (2 ^ 32 - (fillLbas iover.ns.lbaShift config.iosizes i).minLbas.toNat) (by omega)).1
      rw [Nat.add_sub_cancel' hlt.le, Nat.mod_self, Nat.zero_mul] at hzero
      exact absurd (configuredSize_pos hset.initLbas op) (Nat.not_lt.mpr hzero)
    have hleast := hallows 0 (Nat.zero_le _)
    rw [Nat.add_zero, Nat.mod_eq_of_lt hlt] at hleast
    have hgreatest := hallows _ le_rfl
    rw [← LbasEntry.most, Nat.mod_eq_of_lt hmost] at hgreatest
    exact ⟨i, hi, hdist, hmost, hleast, hgreatest⟩
  · rintro ⟨i, hi, hdist, hmost, hleast, hgreatest⟩
    refine ⟨ofNum_lt hi, ?_, ?_⟩
    · rw [hset.lbas, tableAt_of_ofNum hi]
      exact hdist
    · intro draws bio hrand _
      rw [sizeBio_nlbs hset hjesd halign hi]
      have hle : draws.rand / 2 ^ 7 %
            ((fillLbas iover.ns.lbaShift config.iosizes i).lbasDist.toNat + 1) ≤
          min (fillLbas iover.ns.lbaShift config.iosizes i).lbasDist.toNat (2 ^ 24 - 1) := by
        apply le_min
        · exact Nat.le_of_lt_succ (Nat.mod_lt _ (Nat.succ_pos _))
        · exact (Nat.mod_le ..).trans (by omega)
      have hsum := Nat.add_le_add_left hle
        (fillLbas iover.ns.lbaShift config.iosizes i).minLbas.toNat
      rw [Nat.mod_eq_of_lt (hsum.trans_lt hmost)]
      refine ⟨?_, ?_⟩
      · exact hleast.1.trans (Nat.mul_le_mul_right _ (Nat.le_add_right ..))
      · exact (Nat.mul_le_mul_right _ hsum).trans hgreatest.2

/-- Where no record is replayed, choosing an LBA leaves the rest of the bio alone. -/
theorem chooseSlba_bio (iover : Iover) (bio : Bio) (hreplay : job.params.slbaType ≠ .replay)
    (draw jesd219Slba : ℕ) : ∃ slba,
      (chooseSlba iover job bio draw jesd219Slba).2.2 = { bio with slba := slba } := by
  simp only [chooseSlba]
  cases htype : job.params.slbaType with
  | replay => exact absurd htype hreplay
  | seq => exact ⟨_, rfl⟩
  | _ => exact ⟨_, rfl⟩

theorem chooseSlba_params (iover : Iover) (job : IogenJob) (bio : Bio) (draw jesd219Slba : ℕ) :
    (chooseSlba iover job bio draw jesd219Slba).2.1.params = job.params := by
  simp only [chooseSlba]
  cases job.params.slbaType with
  | replay => exact (historySlba_samePool iover job bio).params
  | _ => rfl

/-- The attempts to place a bio leave its size alone. -/
theorem generateLoop_nlbs (left : ℕ) (hn : bio.nlbs < 2 ^ 32)
    (hreplay : job.params.slbaType ≠ .replay) :
    (generateLoop draws left iover job bio).bio.nlbs = bio.nlbs := by
  induction left generalizing iover job bio with
  | zero => rfl
  | succ left ih =>
    obtain ⟨slba, hbio⟩ := chooseSlba_bio iover bio hreplay (draws.slba left) draws.jesd219Slba
    have hparams := (chooseSlba_params iover job bio (draws.slba left) draws.jesd219Slba)
    rw [generateLoop]
    generalize chooseSlba iover job bio (draws.slba left) draws.jesd219Slba = c at hbio hparams
    obtain ⟨ok, job', bio'⟩ := c
    simp only at hbio hparams ⊢
    subst hbio
    split
    · rfl
    split
    · rename_i hr
      exact absurd (hparams ▸ hr.1) hreplay
    have hnlbs : (placeBio iover job' { bio with slba := slba }).nlbs = bio.nlbs := rfl
    generalize placeBio iover job' { bio with slba := slba } = placed at hnlbs
    cases hgen : ioverGenerateData iover job'.params placed (draws.escape left) with
    | mk res out =>
      obtain ⟨iover', filled⟩ := out
      by_cases hres : res = 0
      · subst hres
        exact (ioverGenerateData_sameCommand (hnlbs ▸ hn) hgen).nlbs.trans hnlbs
      · have hout := ioverGenerateData_failed (hnlbs ▸ hn) hgen hres
        obtain rfl : filled = placed := congrArg Prod.snd hout
        simp only [ne_eq, hres, not_false_eq_true, if_true]
        exact (ih (hnlbs ▸ hn) (hparams ▸ hreplay)).trans hnlbs

/-- **The bio that is generated** has the size that was chosen for its operation. -/
theorem generateBio_nlbs {iover' : Iover} {job' : IogenJob} {id : ℕ}
    (hreplay : job.params.slbaType ≠ .replay)
    (h : generateBio iover job draws = (some id, iover', job'))
    (hop : job.oprLottery (draws.rand % 100) ≠ .flush) :
    (job'.bioPool id).nlbs = (sizeBio iover job draws
      { job.bioPool id with
        histIdx := noHistIdx
        opcode := job.oprLottery (draws.rand % 100) }).nlbs := by
  rw [generateBio] at h
  split at h
  · cases h
  rename_i id' rest hfree
  simp only at h
  split at h
  · simp only [Prod.mk.injEq, Option.some.injEq] at h
    obtain ⟨rfl, -, rfl⟩ := h
    simp only [update_self]
    rw [(dressBio_sameIo iover job draws _).nlbs, fillBio]
    simp only [if_neg hop]
    exact generateLoop_nlbs 3 (chooseNlbs_lt ..) hreplay
  · cases h

/-- The operations of a job are those of its lottery. -/
theorem IogenJob.SetUp.yields (hset : job.SetUp ns config beyond lbas)
    (h : Yields config.operations op) : ∃ k < 100, job.oprLottery k = op := by
  obtain ⟨lottery, hlottery, hop⟩ := h
  obtain rfl := Option.some.inj (hset.oprLottery.symm.trans hlottery)
  exact hop

/-- **Which jobs have the sizes that were configured**: those for which, whatever the lottery
yields, the entry that is read lies within the sizes of the operation. What is chosen is what the
bio has. -/
theorem sizesAgree_iff (hset : job.SetUp iover.ns config beyond lbas)
    (hjesd : config.slbaType ≠ .jesd219) (hreplay : config.slbaType ≠ .replay)
    (halign : ∀ i, (config.iosizes i).iosizeAlign = 0) :
    ((∀ op, Yields config.operations op → op ≠ .flush → SizeAgrees iover job config op) ↔
        ∀ op, Yields config.operations op → op ≠ .flush →
          SizeFits iover.ns.lbaShift config.iosizes op) ∧
      ∀ draws id iover' job', generateBio iover job draws = (some id, iover', job') →
        job.oprLottery (draws.rand % 100) ≠ .flush →
          (job'.bioPool id).nlbs = (sizeBio iover job draws
            { job.bioPool id with
              histIdx := noHistIdx
              opcode := job.oprLottery (draws.rand % 100) }).nlbs := by
  refine ⟨⟨fun h op hop hflush => ?_, fun h op hop hflush => ?_⟩, fun draws id iover' job' hgen hop =>
    generateBio_nlbs (by rwa [hset.params]) hgen hop⟩
  · exact (sizeAgrees_iff hset hjesd halign (hset.yields hop)).mp (h op hop hflush)
  · exact (sizeAgrees_iff hset hjesd halign (hset.yields hop)).mpr (h op hop hflush)

end Choose

/-! ## Reads and writes -/

/-- Half reads, half writes. -/
def halfOperations : BioOpcode → BitVec 32
  | .read | .write => 50
  | _ => 0

/-- `IOSIZE=16K` and `READ_SIZE=4K`. -/
def smallReadJob : JobConfig :=
  { JobConfig.plain 16384 16384 with
    operations := halfOperations
    slbaType := .uniform
    iosizes := fun
      | .total => { iosizeMin := 16384, iosizeMax := 16384, iosizeAlign := 0 }
      | .read => { iosizeMin := 4096, iosizeMax := 4096, iosizeAlign := 0 }
      | _ => .zero }

/-- `IOSIZE=4096`, half reads, half writes. -/
def halfJob : JobConfig := { wholeJob with operations := halfOperations }

theorem yields_halfOperations {op : BioOpcode} (h : Yields halfOperations op) :
    op = .read ∨ op = .write := by
  obtain ⟨lottery, hlottery, k, hk, rfl⟩ := h
  obtain rfl := Option.some.inj (hlottery.symm.trans rfl)
  revert k
  decide

/-- A job with one size for all operations has it for reads and for writes. -/
theorem sizesAgree_halfJob : ∃ job, nullJob halfJob = some job ∧
    Yields halfJob.operations .read ∧ Yields halfJob.operations .write ∧
    ∀ op, Yields halfJob.operations op → op ≠ .flush → SizeAgrees .null job halfJob op := by
  have hjob : ∃ job, nullJob halfJob = some job := ⟨_, rfl⟩
  obtain ⟨job, hjob⟩ := hjob
  obtain ⟨lbas, hset⟩ := iogenJobInit_setUp hjob
  have hset : job.SetUp Iover.null.ns halfJob .zero lbas := hset
  have halign : ∀ i, (halfJob.iosizes i).iosizeAlign = 0 := fun i => by cases i <;> rfl
  have hagree := sizesAgree_iff hset (by decide) (by decide) halign
  refine ⟨job, hjob, ⟨_, rfl, 0, by decide, rfl⟩, ⟨_, rfl, 50, by decide, rfl⟩, hagree.1.mpr ?_⟩
  intro op hop _
  -- the entry that is read is that of the operation before, which has the same sizes
  obtain rfl | rfl := yields_halfOperations hop
  · exact ⟨_, rfl, by decide, by decide, ⟨by decide, by decide⟩, ⟨by decide, by decide⟩⟩
  · exact ⟨_, rfl, by decide, by decide, ⟨by decide, by decide⟩, ⟨by decide, by decide⟩⟩

/-- **Reads have the size of all operations, and writes that of reads**: with `IOSIZE=16K` and
`READ_SIZE=4K`, which is accepted, reads have 16K and writes 4K. -/
theorem not_sizeAgrees_smallRead :
    (∃ r, validate (.null .none) [smallReadJob] = .ok r) ∧
      ∃ job, nullJob smallReadJob = some job ∧ Yields smallReadJob.operations .read ∧
        Yields smallReadJob.operations .write ∧
        ¬ SizeAgrees .null job smallReadJob .read ∧ ¬ SizeAgrees .null job smallReadJob .write := by
  have hjob : ∃ job, nullJob smallReadJob = some job := ⟨_, rfl⟩
  obtain ⟨job, hjob⟩ := hjob
  obtain ⟨lbas, hset⟩ := iogenJobInit_setUp hjob
  have hread : Yields smallReadJob.operations .read := ⟨_, rfl, 0, by decide, rfl⟩
  have hwrite : Yields smallReadJob.operations .write := ⟨_, rfl, 50, by decide, rfl⟩
  have halign : ∀ i, (smallReadJob.iosizes i).iosizeAlign = 0 := fun i => by cases i <;> rfl
  have hiff : ∀ op, Yields smallReadJob.operations op →
      (SizeAgrees .null job smallReadJob op ↔ SizeFits 12 smallReadJob.iosizes op) :=
    fun op hop => sizeAgrees_iff hset (by decide) halign (hset.yields hop)
  refine ⟨⟨_, rfl⟩, job, hjob, hread, hwrite, ?_, ?_⟩
  · intro h
    obtain ⟨i, hi, -, -, hleast, -⟩ := (hiff _ hread).mp h
    cases hi
    exact absurd hleast.2 (by decide)
  · intro h
    obtain ⟨i, hi, -, -, hleast, -⟩ := (hiff _ hwrite).mp h
    cases hi
    exact absurd hleast.1 (by decide)

end ChamberSpo

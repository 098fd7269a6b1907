import ChamberSpo.LbaRange

/-!
# The stream of a sequential job

A sequential job goes through its range from one bio to the next. `generate_bio` moves on before it
knows whether the range of the bio is locked, and `iogen_job_init` starts at the first LBA, whatever
the parameters say.

* `seqStart`, `seqNext` — where a bio starts, and where the stream is then.
* `Refused` — an attempt finds its range locked.
* `StreamStep` — the steps of a job, with the bios that it has issued so far.
* `Contiguous` — each bio starts where the one before it ended.
* `KeepsPlace` — no step leaves the stream at another place than the bios do.

`contiguous_of_keepsPlace` says that in runs of such steps the bios are contiguous.
-/

namespace ChamberSpo

open Function Bitmap

/-! ## Places -/

/-- Where a bio starts: at the place of the stream, or at 0 if it ends beyond the range. -/
def seqStart (size place nlbs : ℕ) : ℕ := if size < (place + nlbs) % 2 ^ 64 then 0 else place

/-- The place of the stream behind it. -/
def seqNext (size place nlbs : ℕ) : ℕ := (seqStart size place nlbs + nlbs) % 2 ^ 64

/-- In numbers that do not wrap around. -/
theorem seqStart_eq (size : ℕ) {place nlbs : ℕ} (hplace : place < 2 ^ 56) (hn : nlbs < 2 ^ 32) :
    seqStart size place nlbs = if place + nlbs ≤ size then place else 0 := by
  rw [seqStart, Nat.mod_eq_of_lt (by omega)]
  by_cases hroom : place + nlbs ≤ size
  · rw [if_neg (Nat.not_lt.mpr hroom), if_pos hroom]
  · rw [if_pos (Nat.not_le.mp hroom), if_neg hroom]

/-- The attempt at a place: the bio, once it is there. -/
def JobPlan.placed (plan : JobPlan) (bio : Bio) (place : ℕ) : Bio :=
  { bio with
    slba := (seqStart plan.lbaRangeSize place bio.nlbs + plan.lbaRangeBegin) % 2 ^ 64 }

/-- The place of a stream after some attempts. -/
def JobPlan.placeAfter (plan : JobPlan) (nlbs place : ℕ) : ℕ → ℕ
  | 0 => place
  | k + 1 => plan.placeAfter nlbs (seqNext plan.lbaRangeSize place nlbs) k

/-- An LBA of the bio is locked, and it is to take the lock. -/
def Refused (iover : Iover) (params : JobParams) (bio : Bio) : Prop :=
  takesLock params bio = true ∧ ¬ Disjoint (lockBits bio.slba bio.nlbs) (bits iover.lbaLock)

/-- A sequential job with one stream and without an alignment. -/
structure JobPlan.Plain (plan : JobPlan) (ns : NamespaceInfo) : Prop where
  seq : plan.params.slbaType = .seq
  single : plan.params.separateStream = false
  aligned : plan.params.slbaAlign ≤ ns.dataSize

section Attempts

variable {iover : Iover} {job : IogenJob} {bio : Bio} {draws : GenDraws}

theorem ioverGenerateData_refused (hn : bio.nlbs < 2 ^ 32) {params : JobParams}
    (h : Refused iover params bio) (escape : ℕ → Bool) :
    ioverGenerateData iover params bio escape = (-1, iover, bio) := by
  simp [ioverGenerateData, h.1, tryLockLbas_of_conflict hn h.2]

/-- What the verifier generates was not refused. -/
theorem not_refused_of_generated (hn : bio.nlbs < 2 ^ 32) {params : JobParams} {escape : ℕ → Bool}
    (h : (ioverGenerateData iover params bio escape).1 = 0) : ¬ Refused iover params bio := by
  intro hrefused
  rw [ioverGenerateData_refused hn hrefused] at h
  cases h

theorem ioverGenerateData_accepted (hn : bio.nlbs < 2 ^ 32) {params : JobParams}
    (h : ¬ Refused iover params bio) (escape : ℕ → Bool) :
    ∃ iover' bio', ioverGenerateData iover params bio escape = (0, iover', bio') := by
  have hzero : (ioverGenerateData iover params bio escape).1 = 0 := by
    simp only [ioverGenerateData]
    by_cases htake : takesLock params bio = true
    · have hfree : Disjoint (lockBits bio.slba bio.nlbs) (bits iover.lbaLock) := by
        by_contra hconflict
        exact h ⟨htake, hconflict⟩
      simp [htake, (tryLockLbas_of_free hn hfree).1]
    · simp [htake]
  exact ⟨_, _, Prod.ext hzero rfl⟩

/-- The job once its stream has moved on. -/
def IogenJob.moved (job : IogenJob) (nlbs : ℕ) : IogenJob :=
  { job with
    slbaNext := update job.slbaNext 0 (seqNext job.lbaRangeSize (job.slbaNext 0) nlbs) }

theorem IogenJob.slbaNext_moved (job : IogenJob) (nlbs : ℕ) :
    (job.moved nlbs).slbaNext 0 = seqNext job.lbaRangeSize (job.slbaNext 0) nlbs := by
  simp only [IogenJob.moved, update_self]

/-- An attempt of a sequential job. -/
theorem chooseSlba_seq (hplain : job.plan.Plain iover.ns) (draw jesd219Slba : ℕ) :
    chooseSlba iover job bio draw jesd219Slba = (true, job.moved bio.nlbs, { bio with
      slba := seqStart job.lbaRangeSize (job.slbaNext 0) bio.nlbs }) := by
  have hseq : job.params.slbaType = .seq := hplain.seq
  have hsingle : job.params.separateStream = false := hplain.single
  rw [chooseSlba, hseq]
  simp only [seqSlba, hsingle]
  rfl

/-- The bio of the attempt. -/
theorem placeBio_seq (hplain : job.plan.Plain iover.ns) (place : ℕ) :
    placeBio iover (job.moved bio.nlbs) { bio with
      slba := seqStart job.lbaRangeSize place bio.nlbs } = job.plan.placed bio place := by
  have haligned : ¬ iover.ns.dataSize < (job.moved bio.nlbs).params.slbaAlign :=
    Nat.not_lt.mpr hplain.aligned
  rw [placeBio, if_neg haligned]
  rfl

/-- **An attempt that is refused**: the stream has moved on, and the next attempt is there. -/
theorem generateLoop_refused (hplain : job.plan.Plain iover.ns) (hn : bio.nlbs < 2 ^ 32)
    (left : ℕ) (h : Refused iover job.params (job.plan.placed bio (job.slbaNext 0))) :
    generateLoop draws (left + 1) iover job bio =
      generateLoop draws left iover (job.moved bio.nlbs)
        (job.plan.placed bio (job.slbaNext 0)) := by
  have hn' : (job.plan.placed bio (job.slbaNext 0)).nlbs < 2 ^ 32 := hn
  have hout : ioverGenerateData iover (job.moved bio.nlbs).params
      (job.plan.placed bio (job.slbaNext 0)) (draws.escape left) =
        (-1, iover, job.plan.placed bio (job.slbaNext 0)) :=
    ioverGenerateData_refused hn' h (draws.escape left)
  have hreplay : ¬ ((job.moved bio.nlbs).params.slbaType = .replay ∧ bio.opcode = .flush) := by
    rintro ⟨hr, -⟩
    cases hr.symm.trans hplain.seq
  rw [generateLoop, chooseSlba_seq hplain]
  simp only [placeBio_seq hplain, hout, if_neg hreplay]
  rfl

/-- Attempts that are all refused: each is where the one before it has left the stream. -/
theorem generateLoop_all_refused (draws : GenDraws) (left : ℕ)
    (hplain : job.plan.Plain iover.ns) (hn : bio.nlbs < 2 ^ 32)
    (h : ∀ k < left, Refused iover job.params
      (job.plan.placed bio (job.plan.placeAfter bio.nlbs (job.slbaNext 0) k))) :
    ∃ job' bio', generateLoop draws left iover job bio = ⟨false, iover, job', bio'⟩ ∧
      job'.plan = job.plan ∧
      job'.slbaNext 0 = job.plan.placeAfter bio.nlbs (job.slbaNext 0) left := by
  induction left generalizing job bio with
  | zero => exact ⟨job, bio, rfl, rfl, rfl⟩
  | succ left ih =>
    have hmoved := job.slbaNext_moved bio.nlbs
    have hrest : ∀ k < left, Refused iover (job.moved bio.nlbs).params
        ((job.moved bio.nlbs).plan.placed (job.plan.placed bio (job.slbaNext 0))
          ((job.moved bio.nlbs).plan.placeAfter bio.nlbs ((job.moved bio.nlbs).slbaNext 0) k)) := by
      intro k hk
      rw [hmoved]
      exact h (k + 1) (Nat.succ_lt_succ hk)
    have hplain' : (job.moved bio.nlbs).plan.Plain iover.ns := hplain
    have hn' : (job.plan.placed bio (job.slbaNext 0)).nlbs < 2 ^ 32 := hn
    obtain ⟨job', bio', hloop, hplan, hnext⟩ := ih hplain' hn' hrest
    refine ⟨job', bio', ?_, hplan, ?_⟩
    · rw [generateLoop_refused hplain hn left (h 0 (Nat.succ_pos left))]
      exact hloop
    · rw [hnext, hmoved]
      rfl

/-- **An attempt that is not**: the bio is the one of the attempt. -/
theorem generateLoop_accepted (draws : GenDraws) (hplain : job.plan.Plain iover.ns)
    (hn : bio.nlbs < 2 ^ 32) (left : ℕ)
    (h : ¬ Refused iover job.params (job.plan.placed bio (job.slbaNext 0))) :
    ∃ iover' bio', generateLoop draws (left + 1) iover job bio =
        ⟨true, iover', (measureBio iover' (job.moved bio.nlbs) draws bio').1,
          (measureBio iover' (job.moved bio.nlbs) draws bio').2⟩ ∧
      iover'.ns = iover.ns ∧ (job.plan.placed bio (job.slbaNext 0)).SameCommand bio' := by
  have hn' : (job.plan.placed bio (job.slbaNext 0)).nlbs < 2 ^ 32 := hn
  obtain ⟨iover', bio', hout⟩ := ioverGenerateData_accepted hn' h (draws.escape left)
  have hreplay : ¬ ((job.moved bio.nlbs).params.slbaType = .replay ∧ bio.opcode = .flush) := by
    rintro ⟨hr, -⟩
    cases hr.symm.trans hplain.seq
  refine ⟨iover', bio', ?_, ioverGenerateData_ns hn' hout, ioverGenerateData_sameCommand hn' hout⟩
  have hout' : ioverGenerateData iover (job.moved bio.nlbs).params
      (job.plan.placed bio (job.slbaNext 0)) (draws.escape left) = (0, iover', bio') := hout
  rw [generateLoop, chooseSlba_seq hplain]
  simp only [placeBio_seq hplain, hout', if_neg hreplay]
  rfl

end Attempts

/-! ## Calls -/

/-- The bio of a call, before its LBA is chosen. -/
def drawnBio (iover : Iover) (job : IogenJob) (draws : GenDraws) (bio : Bio) : Bio :=
  sizeBio iover job draws
    { bio with histIdx := noHistIdx, opcode := job.oprLottery (draws.rand % 100) }

section Calls

variable {iover : Iover} {job : IogenJob} {draws : GenDraws} {id : ℕ} {rest : List ℕ}

theorem drawnBio_nlbs_lt (iover : Iover) (job : IogenJob) (draws : GenDraws) (bio : Bio) :
    (drawnBio iover job draws bio).nlbs < 2 ^ 32 := chooseNlbs_lt ..

theorem drawnBio_opcode_ne (bio : Bio) (hop : job.oprLottery (draws.rand % 100) ≠ .flush) :
    (drawnBio iover job draws bio).opcode ≠ .flush := by
  simp only [drawnBio, sizeBio]
  split
  · decide
  · exact hop

/-- A call that has filled the first bio of the list returns it. -/
theorem generateBio_ready (hfree : job.bioFree = id :: rest) {gen : Gen}
    (hfill : fillBio iover job draws (job.bioPool id) = gen) (hready : gen.ready = true) :
    ∃ job', generateBio iover job draws = (some id, gen.iover, job') ∧
      job'.plan = gen.job.plan ∧ job'.slbaNext = gen.job.slbaNext ∧
      gen.bio.SameIo (job'.bioPool id) := by
  rw [generateBio, hfree]
  simp only [hfill, hready]
  refine ⟨_, rfl, rfl, rfl, ?_⟩
  change gen.bio.SameIo (update job.bioPool id (dressBio iover job draws gen.bio) id)
  rw [update_self]
  exact dressBio_sameIo ..

/-- One that has not returns nothing. -/
theorem generateBio_not_ready (hfree : job.bioFree = id :: rest) {gen : Gen}
    (hfill : fillBio iover job draws (job.bioPool id) = gen) (hready : gen.ready = false) :
    ∃ job', generateBio iover job draws = (none, gen.iover, job') ∧
      job'.plan = gen.job.plan ∧ job'.slbaNext = gen.job.slbaNext := by
  rw [generateBio, hfree]
  simp only [hfill, hready]
  exact ⟨_, rfl, rfl, rfl⟩

/-- A flush has no LBA. -/
theorem generateBio_flush (iover : Iover) (hfree : job.bioFree = id :: rest)
    (hop : job.oprLottery (draws.rand % 100) = .flush) :
    ∃ job', generateBio iover job draws = (some id, iover, job') ∧ job'.plan = job.plan ∧
      job'.slbaNext = job.slbaNext ∧ (job'.bioPool id).opcode = .flush := by
  have hfill : ∃ bio, fillBio iover job draws (job.bioPool id) = ⟨true, iover, job, bio⟩ ∧
      bio.opcode = .flush := ⟨_, if_pos hop, hop⟩
  obtain ⟨bio, hfill, hflush⟩ := hfill
  obtain ⟨job', hgen, hplan, hnext, hio⟩ := generateBio_ready hfree hfill rfl
  exact ⟨job', hgen, hplan, hnext, hio.opcode.trans hflush⟩

theorem fillBio_of_ne (iover : Iover) (bio : Bio)
    (hop : job.oprLottery (draws.rand % 100) ≠ .flush) :
    fillBio iover job draws bio = generateLoop draws 3 iover job (drawnBio iover job draws bio) :=
  if_neg hop

/-- **A call whose first attempt is not refused** returns the bio of this attempt. -/
theorem generateBio_accepted (hplain : job.plan.Plain iover.ns) (hfree : job.bioFree = id :: rest)
    (hop : job.oprLottery (draws.rand % 100) ≠ .flush) {bio : Bio}
    (hbio : drawnBio iover job draws (job.bioPool id) = bio)
    (h : ¬ Refused iover job.params (job.plan.placed bio (job.slbaNext 0))) :
    ∃ iover' job', generateBio iover job draws = (some id, iover', job') ∧
      iover'.ns = iover.ns ∧ job'.plan = job.plan ∧
      job'.slbaNext 0 = seqNext job.lbaRangeSize (job.slbaNext 0) bio.nlbs ∧
      (job'.bioPool id).opcode ≠ .flush ∧
      (job'.bioPool id).slba = (job.plan.placed bio (job.slbaNext 0)).slba ∧
      (job'.bioPool id).nlbs = bio.nlbs := by
  have hn : bio.nlbs < 2 ^ 32 := hbio ▸ drawnBio_nlbs_lt ..
  have hne : bio.opcode ≠ .flush := hbio ▸ drawnBio_opcode_ne _ hop
  obtain ⟨iover', bio', hloop, hns, hsame⟩ :=
    generateLoop_accepted draws hplain hn 2 h
  have hfill := fillBio_of_ne iover (job.bioPool id) hop
  rw [hbio, hloop] at hfill
  obtain ⟨job', hgen, hplan, hnext, hio⟩ := generateBio_ready hfree hfill rfl
  refine ⟨iover', job', hgen, hns, hplan, ?_, ?_, ?_, ?_⟩
  · rw [hnext]
    exact job.slbaNext_moved bio.nlbs
  · exact (hio.opcode.trans hsame.opcode).trans_ne hne
  · exact hio.slba.trans hsame.slba
  · exact hio.nlbs.trans hsame.nlbs

/-- **A call whose attempts are all refused** returns nothing, and the stream has moved on. -/
theorem generateBio_refused (hplain : job.plan.Plain iover.ns) (hfree : job.bioFree = id :: rest)
    (hop : job.oprLottery (draws.rand % 100) ≠ .flush) {bio : Bio}
    (hbio : drawnBio iover job draws (job.bioPool id) = bio)
    (h : ∀ k < 3, Refused iover job.params
      (job.plan.placed bio (job.plan.placeAfter bio.nlbs (job.slbaNext 0) k))) :
    ∃ job', generateBio iover job draws = (none, iover, job') ∧ job'.plan = job.plan ∧
      job'.slbaNext 0 = job.plan.placeAfter bio.nlbs (job.slbaNext 0) 3 := by
  have hn : bio.nlbs < 2 ^ 32 := hbio ▸ drawnBio_nlbs_lt ..
  obtain ⟨job₂, bio₂, hloop, hplan, hnext⟩ := generateLoop_all_refused draws 3 hplain hn h
  have hfill := fillBio_of_ne iover (job.bioPool id) hop
  rw [hbio, hloop] at hfill
  obtain ⟨job', hgen, hplan', hnext'⟩ := generateBio_not_ready hfree hfill rfl
  exact ⟨job', hgen, hplan'.trans hplan, (congrFun hnext' 0).trans hnext⟩

end Calls

/-! ## Runs -/

namespace JobPlan

variable (plan : JobPlan)

/-- A bio starts where another one ended, or at the begin of the range if it would end beyond. -/
def Follows (a b : Bio) : Prop :=
  b.slba = if a.slba + a.nlbs + b.nlbs ≤ plan.lbaRangeBegin + plan.lbaRangeSize then
      a.slba + a.nlbs
    else plan.lbaRangeBegin

/-- **Bios without a gap**, the last one first: the first is at the LBA of the parameters, and each
other one follows the one before it. -/
inductive Contiguous : List Bio → Prop
  | none : Contiguous []
  | first {b : Bio} : b.slba = plan.lbaRangeBegin + plan.params.fixedLba → Contiguous [b]
  | next {a b : Bio} {issued : List Bio} : Contiguous (a :: issued) → plan.Follows a b →
    Contiguous (b :: a :: issued)

end JobPlan

/-- The bio that a step issues, but for a flush. -/
def issuedBy (s : Iover × IogenJob) (a : GenLabel) : List Bio :=
  match a with
  | .generate draws _ =>
    match generateBio s.1 s.2 draws with
    | (some id, _, job) => if (job.bioPool id).opcode = .flush then [] else [job.bioPool id]
    | (none, _) => []
  | _ => []

/-- The steps of a job, with the bios that it has issued, the last one first. -/
inductive StreamStep (outside : ℕ → BitVec 32) (sectorSize : ℕ) :
    (Iover × IogenJob) × List Bio → GenLabel → (Iover × IogenJob) × List Bio → Prop
  | step {s t : Iover × IogenJob} {a : GenLabel} (issued : List Bio) :
    GenStep outside sectorSize s a t →
    StreamStep outside sectorSize (s, issued) a (t, issuedBy s a ++ issued)

/-- An attempt does not leave a gap: the first bio is at the LBA of the parameters, and there is no
bio in the way of this one, or there are so many that the stream comes back to where it was. -/
structure AttemptKept (iover : Iover) (job : IogenJob) (bio : Bio) (issued : List Bio) : Prop where
  first : issued = [] → job.slbaNext 0 = job.params.fixedLba ∧
    (job.params.fixedLba = 0 ∨ job.params.fixedLba + bio.nlbs ≤ job.lbaRangeSize)
  unlocked : ¬ Refused iover job.params (job.plan.placed bio (job.slbaNext 0)) ∨
    (∀ k < 3, Refused iover job.params
      (job.plan.placed bio (job.plan.placeAfter bio.nlbs (job.slbaNext 0) k))) ∧
    job.plan.placeAfter bio.nlbs (job.slbaNext 0) 3 = job.slbaNext 0

/-- **A step leaves no gap**: no range is locked that the stream comes to, and a reset finds the
stream at the LBA of the parameters. -/
def KeepsPlace (s : (Iover × IogenJob) × List Bio) : GenLabel → Prop
  | .generate draws _ => ∀ id rest, s.1.2.bioFree = id :: rest →
    s.1.2.oprLottery (draws.rand % 100) ≠ .flush →
    AttemptKept s.1.1 s.1.2 (drawnBio s.1.1 s.1.2 draws (s.1.2.bioPool id)) s.2
  | .reinit => s.2 ≠ [] → s.1.2.slbaNext 0 = s.1.2.params.fixedLba
  | _ => True

/-- The stream is where the last bio ended. -/
def IogenJob.At (job : IogenJob) (bio : Bio) : Prop :=
  bio.slba + bio.nlbs = job.lbaRangeBegin + job.slbaNext 0 ∧ job.slbaNext 0 < 2 ^ 56

/-- What a run keeps. -/
structure OnPlace (ns : NamespaceInfo) (plan : JobPlan) (s : (Iover × IogenJob) × List Bio) :
    Prop where
  sameNs : s.1.1.ns = ns
  samePlan : s.1.2.plan = plan
  contiguous : plan.Contiguous s.2
  place : ∀ bio ∈ s.2.head?, s.1.2.At bio

section Run

variable {outside : ℕ → BitVec 32} {sectorSize : ℕ} {ns : NamespaceInfo} {plan : JobPlan}
  {s t : (Iover × IogenJob) × List Bio} {a : GenLabel}

/-- A step that issues nothing and leaves the stream where it is. -/
theorem OnPlace.keep (h : OnPlace ns plan s) (hns : t.1.1.ns = s.1.1.ns)
    (hplan : t.1.2.plan = s.1.2.plan) (hissued : t.2 = s.2)
    (hnext : s.2 ≠ [] → t.1.2.slbaNext 0 = s.1.2.slbaNext 0) : OnPlace ns plan t := by
  refine ⟨hns.trans h.sameNs, hplan.trans h.samePlan, hissued ▸ h.contiguous, ?_⟩
  intro bio hbio
  rw [hissued] at hbio
  have hne : s.2 ≠ [] := by
    intro hnil
    rw [hnil] at hbio
    cases hbio
  have hbegin : t.1.2.lbaRangeBegin = s.1.2.lbaRangeBegin := congrArg JobPlan.lbaRangeBegin hplan
  have hat := h.place bio hbio
  rw [IogenJob.At] at hat ⊢
  rw [hnext hne, hbegin]
  exact hat

/-- **A bio that is issued** follows the one before it. -/
theorem OnPlace.issue (h : OnPlace ns plan s) (hw : plan.WellFormed ns) {bio b : Bio}
    (hn : bio.nlbs < 2 ^ 32) (hkept : AttemptKept s.1.1 s.1.2 bio s.2) (hns : t.1.1.ns = s.1.1.ns)
    (hplan : t.1.2.plan = s.1.2.plan)
    (hnext : t.1.2.slbaNext 0 = seqNext plan.lbaRangeSize (s.1.2.slbaNext 0) bio.nlbs)
    (hslba : b.slba = (plan.placed bio (s.1.2.slbaNext 0)).slba) (hnlbs : b.nlbs = bio.nlbs)
    (hissued : t.2 = b :: s.2) : OnPlace ns plan t := by
  have hfixed : plan.params.fixedLba = s.1.2.params.fixedLba := by rw [← h.samePlan]; rfl
  have hsize : plan.lbaRangeSize = s.1.2.lbaRangeSize := by rw [← h.samePlan]; rfl
  have hbegin : plan.lbaRangeBegin = s.1.2.lbaRangeBegin := by rw [← h.samePlan]; rfl
  have hbegin' : plan.lbaRangeBegin = t.1.2.lbaRangeBegin := by
    rw [← h.samePlan, ← hplan]
    rfl
  have hsizelt := hw.size_lt
  have hbeginlt := hw.begin_lt
  -- the stream is at the LBA of the parameters, or where the last bio ended
  have hplace : s.1.2.slbaNext 0 < 2 ^ 56 := by
    cases hlist : s.2 with
    | nil =>
      obtain ⟨hstart, hfits⟩ := hkept.first hlist
      omega
    | cons a issued => exact (h.place a (by rw [hlist]; rfl)).2
  have hstart := seqStart_eq plan.lbaRangeSize hplace hn
  generalize hx : seqStart plan.lbaRangeSize (s.1.2.slbaNext 0) bio.nlbs = x at hstart
  have hxlt : x ≤ plan.lbaRangeSize := by
    rw [hstart]
    split
    · omega
    · exact Nat.zero_le _
  have hslba' : b.slba = plan.lbaRangeBegin + x := by
    rw [hslba, JobPlan.placed, hx]
    change (x + plan.lbaRangeBegin) % 2 ^ 64 = _
    omega
  have hnext' : t.1.2.slbaNext 0 = x + bio.nlbs := by
    rw [hnext, seqNext, hx]
    omega
  refine ⟨hns.trans h.sameNs, hplan.trans h.samePlan, ?_, ?_⟩
  · rw [hissued]
    cases hlist : s.2 with
    | nil =>
      obtain ⟨hfirst, hfits⟩ := hkept.first hlist
      apply JobPlan.Contiguous.first
      rw [hslba', hstart, hfirst, hfixed]
      split
      · rfl
      · omega
    | cons a issued =>
      have hcontiguous := h.contiguous
      rw [hlist] at hcontiguous
      obtain ⟨hend, -⟩ := h.place a (by rw [hlist]; rfl)
      apply hcontiguous.next
      rw [JobPlan.Follows, hslba', hnlbs, hend, ← hbegin, hstart]
      by_cases hroom : s.1.2.slbaNext 0 + bio.nlbs ≤ plan.lbaRangeSize
      · rw [if_pos hroom, if_pos (by omega)]
      · rw [if_neg hroom, if_neg (by omega)]
        rfl
  · intro bio' hbio'
    rw [hissued] at hbio'
    obtain rfl := Option.some.inj hbio'
    refine ⟨?_, ?_⟩
    · rw [hslba', hnlbs, hnext', ← hbegin', Nat.add_assoc]
    · omega

/-- A call leaves no gap. -/
theorem OnPlace.generate {draws : GenDraws} {well : WellDraws} (h : OnPlace ns plan s)
    (hw : plan.WellFormed ns) (hplain : plan.Plain ns)
    (hok : KeepsPlace s (.generate draws well)) (ht : t.1 = (generateBio s.1.1 s.1.2 draws).2)
    (hissued : t.2 = issuedBy s.1 (.generate draws well) ++ s.2) : OnPlace ns plan t := by
  obtain ⟨⟨iover, job⟩, issued⟩ := s
  obtain ⟨t, issued'⟩ := t
  simp only at ht hissued hok
  have hplain' : job.plan.Plain iover.ns := by
    rw [h.samePlan, h.sameNs]
    exact hplain
  cases hfree : job.bioFree with
  | nil =>
    have hgen : generateBio iover job draws = (none, iover, job) := by rw [generateBio, hfree]
    simp only [issuedBy, hgen] at ht hissued
    exact h.keep (by rw [ht]) (by rw [ht]) hissued fun _ => by rw [ht]
  | cons id rest =>
    by_cases hop : job.oprLottery (draws.rand % 100) = .flush
    · obtain ⟨job', hgen, hplan, hnext, hflush⟩ := generateBio_flush iover hfree hop
      simp only [issuedBy, hgen, if_pos hflush] at ht hissued
      refine h.keep (by rw [ht]) (by rw [ht]; exact hplan) hissued ?_
      intro _
      rw [ht]
      exact congrFun hnext 0
    have hkept := hok id rest hfree hop
    have hn := drawnBio_nlbs_lt iover job draws (job.bioPool id)
    generalize hbio : drawnBio iover job draws (job.bioPool id) = bio at hkept hn
    rcases hkept.unlocked with hfirst | ⟨hrefused, hback⟩
    · obtain ⟨iover', job', hgen, hns, hplan, hnext, hne, hslba, hnlbs⟩ :=
        generateBio_accepted hplain' hfree hop hbio hfirst
      simp only [issuedBy, hgen, if_neg hne] at ht hissued
      have hsize : plan.lbaRangeSize = job.lbaRangeSize := by rw [← h.samePlan]; rfl
      refine h.issue hw hn hkept (by rw [ht]; exact hns) (by rw [ht]; exact hplan) ?_ ?_ hnlbs
        hissued
      · rw [ht, hsize]
        exact hnext
      · rw [← h.samePlan]
        exact hslba
    · obtain ⟨job', hgen, hplan, hnext⟩ := generateBio_refused hplain' hfree hop hbio hrefused
      simp only [issuedBy, hgen] at ht hissued
      refine h.keep (by rw [ht]) (by rw [ht]; exact hplan) hissued ?_
      intro _
      rw [ht]
      exact hnext.trans hback

/-- **A step** that leaves no gap. -/
theorem OnPlace.step (h : OnPlace ns plan s) (hw : plan.WellFormed ns) (hplain : plan.Plain ns)
    (hstep : guarded (StreamStep outside sectorSize) KeepsPlace s a t) : OnPlace ns plan t := by
  obtain ⟨hok, hstep⟩ := hstep
  cases hstep with
  | step issued hstep =>
    cases a with
    | generate draws well =>
      cases hstep with
      | generate hdrawn => exact h.generate hw hplain hok rfl rfl
    | reinit =>
      cases hstep with
      | reinit iover job =>
        have hseq : job.params.slbaType = .seq := by
          have hplan : job.plan = plan := h.samePlan
          rw [← hplan] at hplain
          exact hplain.seq
        refine h.keep rfl rfl rfl ?_
        intro hne
        have hnext : (iogenJobReinit job).slbaNext = fun _ => job.params.fixedLba := by
          rw [iogenJobReinit, if_pos hseq]
        rw [hnext]
        exact (hok hne).symm
    | _ =>
      have hsame := hstep.samePlan rfl
      exact h.keep hsame.ns hsame.plan rfl fun _ => congrFun hsame.slbaNext 0

/-- **A sequential job leaves no gaps** in the runs whose steps leave none: the first bio is at the
LBA of the parameters, and each other one follows the one before it. -/
theorem contiguous_of_keepsPlace {config : JobConfig} {beyond : Beyond} {bioPool : ℕ → Bio}
    {identify : Buf} {iover : Iover} {job : IogenJob} {labels : List GenLabel}
    {s : Iover × IogenJob} {issued : List Bio}
    (hinit : iogenJobInit iover.ns config beyond bioPool identify = some job)
    (hseq : config.slbaType = .seq) (hsingle : config.separateStream = false)
    (haligned : config.slbaAlign.toNat ≤ iover.ns.dataSize)
    (hrun : Run (guarded (StreamStep outside config.slba.sectorSize) KeepsPlace)
      ((iover, job), []) labels (s, issued)) :
    job.plan.Contiguous issued := by
  obtain ⟨lbas, hset⟩ := iogenJobInit_setUp hinit
  have hw := hset.wellFormed (by rw [hseq]; decide)
  have hparams : job.plan.params = config.jobParams beyond := hset.params
  have hplain : job.plan.Plain iover.ns := by
    refine ⟨?_, ?_, ?_⟩
    · rw [hparams]
      exact hseq
    · rw [hparams]
      exact hsingle
    · rw [hparams]
      exact haligned
  have hfirst : OnPlace iover.ns job.plan ((iover, job), []) :=
    ⟨rfl, rfl, .none, fun bio hbio => by cases hbio⟩
  exact (hrun.invariant (fun _ _ _ h hstep => h.step hw hplain hstep) hfirst).contiguous

end Run

/-! ## Two streams -/

/-- Reads of 4K, `SLBA=SEQ:lba` and a range of 4M. -/
def seqJob (lba : BitVec 64) : JobConfig :=
  { JobConfig.plain 4096 4096 with
    operations := readOperations
    slbaType := .seq
    slba := .fixed lba
    lbaRangeSizePercentEnable := false
    lbaRangeSize := 4194304 }

theorem validate_seqJob : ∀ lba ∈ [(0 : BitVec 64), 100], ∃ nsis bound job,
    validate (.null .none) [seqJob lba] = .ok (nsis, [bound]) ∧ bound.params = seqJob lba ∧
      nullJob (seqJob lba) = some job := by
  simp only [List.forall_mem_cons, List.not_mem_nil, false_implies, implies_true, and_true]
  exact ⟨⟨_, _, _, rfl, rfl, rfl⟩, ⟨_, _, _, rfl, rfl, rfl⟩⟩

theorem drawn_const {s : Iover × IogenJob} (hseq : s.2.params.slbaType = .seq) (sectorSize : ℕ) :
    (GenDraws.const 0).Drawn (fun _ => 0) sectorSize s.1 s.2 .none := by
  refine ⟨by decide, ?_, ?_⟩
  · intro huniform
    cases huniform.symm.trans hseq
  · intro hjesd
    cases hjesd.symm.trans hseq

/-- The first bio of the pool, with what the device has read. -/
def readBio (job : IogenJob) : Bio := { job.bioPool 0 with data := fun _ => 0xA5 }

/-- A read in the first bio of the pool, from `generate_bio` to `bio_end`. -/
def serveRead (s : Iover × IogenJob) : Option (Iover × IogenJob) := do
  let (_, s) := generateBio s.1 s.2 (.const 0)
  let (iover, job) ← enqueueBio false s.1 s.2 0
  bioEnd iover (answerBio job 0 (readBio job)) 0

theorem serveRead_steps {outside : ℕ → BitVec 32} {sectorSize : ℕ} {s t : Iover × IogenJob}
    (hdrawn : (GenDraws.const 0).Drawn outside sectorSize s.1 s.2 .none)
    (h : serveRead s = some t) : ∃ s₁ s₂ s₃ bio,
      GenStep outside sectorSize s (.generate (.const 0) .none) s₁ ∧
      GenStep outside sectorSize s₁ (.enqueue false 0) s₂ ∧
      GenStep outside sectorSize s₂ (.answer 0 bio) s₃ ∧
      GenStep outside sectorSize s₃ (.bioEnd 0) t := by
  obtain ⟨s₂, henqueue, hend⟩ := Option.bind_eq_some_iff.mp h
  exact ⟨_, s₂, _, readBio s₂.2, .generate hdrawn, .enqueue henqueue, .answer .., .bioEnd hend⟩

/-- With `SLBA=SEQ:0` a read is served, and the LBA behind it is not locked. -/
theorem serveRead_seq0 {job : IogenJob} (hjob : nullJob (seqJob 0) = some job) : ∃ t,
    serveRead (.null, iogenJobBegin .null job) = some t ∧ t.2.params.slbaType = .seq ∧
      t.2.bioFree = [0] ∧
      (issuedBy (.null, iogenJobBegin .null job) (.generate (.const 0) .none)).map (·.slba) = [0] ∧
      (issuedBy t (.generate (.const 0) .none)).map (·.slba) = [1] ∧
      ¬ Refused t.1 t.2.params (t.2.plan.placed (drawnBio t.1 t.2 (.const 0) (t.2.bioPool 0))
        (t.2.slbaNext 0)) := by
  have hserved : ((nullJob (seqJob 0)).bind fun job =>
      (serveRead (.null, iogenJobBegin .null job)).map fun t => (t.2.params.slbaType, t.2.bioFree,
        (issuedBy (.null, iogenJobBegin .null job) (.generate (.const 0) .none)).map (·.slba),
        (issuedBy t (.generate (.const 0) .none)).map (·.slba),
        (ioverGenerateData t.1 t.2.params (t.2.plan.placed
          (drawnBio t.1 t.2 (.const 0) (t.2.bioPool 0)) (t.2.slbaNext 0)) fun _ => false).1)) =
      some (.seq, [0], [0], [1], 0) := by
    decide +kernel
  rw [hjob] at hserved
  obtain ⟨t, ht, heq⟩ := Option.map_eq_some_iff.mp hserved
  obtain ⟨hseq, heq⟩ := Prod.mk.inj heq
  obtain ⟨hfree, heq⟩ := Prod.mk.inj heq
  obtain ⟨hfirst, heq⟩ := Prod.mk.inj heq
  obtain ⟨hsecond, hgenerated⟩ := Prod.mk.inj heq
  have hn : (t.2.plan.placed (drawnBio t.1 t.2 (.const 0) (t.2.bioPool 0)) (t.2.slbaNext 0)).nlbs
      < 2 ^ 32 := drawnBio_nlbs_lt ..
  exact ⟨t, ht, hseq, hfree, hfirst, hsecond, not_refused_of_generated hn hgenerated⟩

/-- Two reads with `SLBA=SEQ:0`, of which the second is generated when the first has ended: it
follows that one. -/
theorem contiguous_seq0 : ∃ nsis bound job bio s issued,
    validate (.null .none) [seqJob 0] = .ok (nsis, [bound]) ∧ nullJob bound.params = some job ∧
      Run (guarded (StreamStep (fun _ => 0) bound.params.slba.sectorSize) KeepsPlace)
        ((Iover.null, job), []) [.begin, .generate (.const 0) .none, .enqueue false 0,
          .answer 0 bio, .bioEnd 0, .generate (.const 0) .none] (s, issued) ∧
      issued.map (·.slba) = [1, 0] ∧ job.plan.Contiguous issued := by
  obtain ⟨nsis, bound, job, hvalidate, hbound, hjob⟩ := validate_seqJob 0 (by decide)
  obtain ⟨lbas, hset⟩ := iogenJobInit_setUp hjob
  have hnext := iogenJobInit_slbaNext hjob
  have hfixed : job.params.fixedLba = 0 := by rw [hset.params]; rfl
  have hseq : job.params.slbaType = .seq := by rw [hset.params]; rfl
  obtain ⟨t, hserved, hseq', hfree, hslba, hslba', hunlocked⟩ := serveRead_seq0 hjob
  obtain ⟨s₁, s₂, s₃, bio, hgenerate, henqueue, hanswer, hend⟩ :=
    serveRead_steps (drawn_const hseq (seqJob 0).slba.sectorSize) hserved
  generalize hissued : issuedBy (.null, iogenJobBegin .null job) (.generate (.const 0) .none) =
    issued at hslba
  have hfirst : KeepsPlace ((.null, iogenJobBegin .null job), []) (.generate (.const 0) .none) := by
    intro id rest _ _
    refine ⟨fun _ => ⟨(congrFun hnext 0).trans hfixed.symm, .inl hfixed⟩, .inl ?_⟩
    intro hrefused
    have hbits : bits Iover.null.lbaLock = ∅ := bits_zero
    exact hrefused.2 (hbits ▸ Set.disjoint_empty _)
  have hsecond : KeepsPlace (t, issued) (.generate (.const 0) .none) := by
    intro id rest hid _
    obtain ⟨rfl, -⟩ := List.cons.inj (hfree.symm.trans hid)
    refine ⟨?_, .inl hunlocked⟩
    rintro rfl
    cases hslba
  have hrun : Run (guarded (StreamStep (fun _ => 0) (seqJob 0).slba.sectorSize) KeepsPlace)
      ((Iover.null, job), []) [.begin, .generate (.const 0) .none, .enqueue false 0,
        .answer 0 bio, .bioEnd 0, .generate (.const 0) .none]
      ((generateBio t.1 t.2 (.const 0)).2, issuedBy t (.generate (.const 0) .none) ++ issued) := by
    subst hissued
    rw [← List.append_nil (issuedBy (.null, iogenJobBegin .null job) _)] at hsecond ⊢
    exact .cons ⟨trivial, .step [] (.begin .null job)⟩ <| .cons ⟨hfirst, .step [] hgenerate⟩ <|
      .cons ⟨trivial, .step _ henqueue⟩ <| .cons ⟨trivial, .step _ hanswer⟩ <|
      .cons ⟨trivial, .step _ hend⟩ <|
      .single ⟨hsecond, .step _ (.generate (drawn_const hseq' _))⟩
  refine ⟨nsis, bound, job, bio, _, _, hvalidate, hbound ▸ hjob, hbound ▸ hrun, ?_, ?_⟩
  · rw [List.map_append, hslba, hslba']
    rfl
  · have hinit : iogenJobInit Iover.null.ns (seqJob 0) .zero
        (fun _ => .plain .read 0 0 fun _ => 0) (fun _ => 0) = some job := hjob
    exact contiguous_of_keepsPlace hinit rfl rfl (by decide) hrun

/-- **`SLBA=SEQ:100` begins at LBA 0.** -/
theorem not_contiguous_seq100 : ∃ nsis bound job s issued,
    validate (.null .none) [seqJob 100] = .ok (nsis, [bound]) ∧ nullJob bound.params = some job ∧
      Run (StreamStep (fun _ => 0) bound.params.slba.sectorSize)
        ((Iover.null, job), []) [.begin, .generate (.const 0) .none] (s, issued) ∧
      ¬ job.plan.Contiguous issued := by
  obtain ⟨nsis, bound, job, hvalidate, hbound, hjob⟩ := validate_seqJob 100 (by decide)
  obtain ⟨lbas, hset⟩ := iogenJobInit_setUp hjob
  have hseq : job.params.slbaType = .seq := by rw [hset.params]; rfl
  have hrun : Run (StreamStep (fun _ => 0) (seqJob 100).slba.sectorSize)
      ((Iover.null, job), []) [.begin, .generate (.const 0) .none]
      ((generateBio .null (iogenJobBegin .null job) (.const 0)).2,
        issuedBy (.null, iogenJobBegin .null job) (.generate (.const 0) .none) ++ []) := by
    refine .cons (.step [] (.begin .null job)) (.single (.step [] (.generate ?_)))
    exact drawn_const (s := (.null, iogenJobBegin .null job)) hseq _
  refine ⟨nsis, bound, job, _, _, hvalidate, hbound ▸ hjob, hbound ▸ hrun, ?_⟩
  intro h
  have hissued : ((nullJob (seqJob 100)).map fun job =>
      ((issuedBy (.null, iogenJobBegin .null job) (.generate (.const 0) .none)).map (·.slba),
        job.lbaRangeBegin, job.params.fixedLba)) = some ([0], 0, 100) := by decide +kernel
  rw [hjob] at hissued
  obtain ⟨hslba, hfirst⟩ := Prod.mk.inj (Option.some.inj hissued)
  obtain ⟨hbegin, hfixed⟩ := Prod.mk.inj hfirst
  obtain ⟨b, hb, hzero⟩ := List.map_eq_singleton_iff.mp hslba
  rw [hb] at h
  cases h with
  | first heq =>
    rw [hzero] at heq
    change 0 = job.lbaRangeBegin + job.params.fixedLba at heq
    rw [hbegin, hfixed] at heq
    cases heq

end ChamberSpo

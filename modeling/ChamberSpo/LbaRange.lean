import ChamberSpo.Jesd219
import ChamberSpo.SizeTable
import ChamberSpo.Transition

/-!
# The range of a job

`generate_bio` keeps the LBAs of a bio in the range of its job, and moves them afterwards: it aligns
the first one, and adds the begin of the range to an LBA that `jesd219_gen` or the history ring has
for the whole namespace.

* `ArithOp` — the operations on unsigned numbers that may go wrong, and those of `generate_bio`.
* `JobPlan` — what `iogen_job_init` sets for good.
* `Fits` — the sizes, the positions and the alignment of a job go together.
* `GenStep` — what happens to a job between two calls of `generate_bio`.

`contained_of_fits` says that where they do, all bios of a run are in the range.
-/

namespace ChamberSpo

open Function

/-! ## Unsigned arithmetic -/

/-- An operation that C leaves undefined, or that wraps around. -/
inductive ArithOp where
  | mod (a b : ℕ)
  | sub (a b : ℕ)

/-- No division by zero, and no result below zero. -/
def ArithOp.Ok : ArithOp → Prop
  | .mod _ b => b ≠ 0
  | .sub a b => b ≤ a

/-- The operations of the loop in `jesd219_gen`. -/
def jesd219LoopOps (group : LbaGroup) (sectorSize nlbs : ℕ) : List (ℕ × ℕ) → List ArithOp
  | [] => []
  | words :: rest =>
    let start := startLba group words.1
    [.mod words.1 group.size.toNat, .sub start (start % (4096 / sizeOfSector))] ++
      match jesd219Round group sectorSize words with
      | none => []
      | some (slba, nbls) =>
        if slba + nbls ≤ nlbs then [] else jesd219LoopOps group sectorSize nlbs rest

/-- The operations that choose a number of LBAs. -/
def chooseNlbsOps (outside : ℕ → BitVec 32) (sectorSize : ℕ) (iover : Iover) (job : IogenJob)
    (opcode : BioOpcode) (draws : GenDraws) (well : WellDraws) : List ArithOp :=
  if job.params.slbaType = .jesd219 then
    jesd219LoopOps (lbaGroup outside iover.ns.nlbs (getLbaGrpIdx (well.group % 100))) sectorSize
      iover.ns.nlbs well.rounds
  else
    let range := job.lbas opcode.num
    let align := job.params.iosizeAlign opcode.num
    (if 0 < range.lbasDist then [.mod (draws.rand / 2 ^ 7) ((range.lbasDist + 1) % 2 ^ 32)]
      else []) ++
    -- `ALIGN` takes one from the alignment
    (if align ≠ 0 then [.sub (align / 2 ^ iover.ns.lbaShift) 1] else [])

/-- The operations of `history_slba`. -/
def historySlbaOps (iover : Iover) (job : IogenJob) : List ArithOp :=
  if historyEnd iover job then []
  else
    [if job.replayHistIdx = 0 then .sub iover.header.nhist.toNat 1
      else .sub job.replayHistIdx.toNat 1,
    .sub job.replayHistCnt.toNat 1]

/-- The operations of the `switch` over the slba type. -/
def chooseSlbaOps (iover : Iover) (job : IogenJob) (bio : Bio) (draw : ℕ) : List ArithOp :=
  match job.params.slbaType with
  | .uniform | .zipf =>
    [.sub job.lbaRangeSize bio.nlbs,
      .mod draw ((job.lbaRangeSize + 2 ^ 64 - bio.nlbs) % 2 ^ 64)]
  | .replay => historySlbaOps iover job
  | .seq | .pareto | .fixed | .jesd219 => []

/-- The operations that align an LBA. -/
def placeOps (iover : Iover) (job : IogenJob) : List ArithOp :=
  if iover.ns.dataSize < job.params.slbaAlign then [.sub job.slbaAlign 1] else []

/-- The operations that follow the loop of `generate_bio`. -/
def measureOps (job : IogenJob) (draws : GenDraws) (bio : Bio) : List ArithOp :=
  if bio.opcode = .write ∧ job.params.numStreams ≠ 0 then
    [.mod (draws.rand / 2 ^ 17) job.params.numStreams]
  else []

/-- The operations of the loop, in the order of `generateLoop`. -/
def generateLoopOps (draws : GenDraws) : ℕ → Iover → IogenJob → Bio → List ArithOp
  | 0, _, _, _ => []
  | left + 1, iover, job, bio =>
    let ops := chooseSlbaOps iover job bio (draws.slba left)
    let (ok, job, bio) := chooseSlba iover job bio (draws.slba left) draws.jesd219Slba
    if ok = false then ops
    else if job.params.slbaType = .replay ∧ bio.opcode = .flush then ops
    else
      let ops := ops ++ placeOps iover job
      let bio := placeBio iover job bio
      let (res, iover, bio) := ioverGenerateData iover job.params bio (draws.escape left)
      if res ≠ 0 then ops ++ generateLoopOps draws left iover job bio
      else ops ++ measureOps job draws bio

/-- The operations of `generate_bio`. -/
def generateBioOps (outside : ℕ → BitVec 32) (sectorSize : ℕ) (iover : Iover) (job : IogenJob)
    (draws : GenDraws) (well : WellDraws) : List ArithOp :=
  match job.bioFree with
  | [] => []
  | id :: _ =>
    let bio := { job.bioPool id with
      histIdx := noHistIdx
      opcode := job.oprLottery (draws.rand % 100) }
    .mod draws.rand 100 ::
      if bio.opcode = .flush then []
      else
        let sized := sizeBio iover job draws bio
        chooseNlbsOps outside sectorSize iover job sized.opcode draws well ++
          generateLoopOps draws 3 iover job sized

/-- What a call can draw: `rand48` has 31 bits, and `jesd219_gen` returns. -/
structure GenDraws.Drawn (draws : GenDraws) (outside : ℕ → BitVec 32) (sectorSize : ℕ)
    (iover : Iover) (job : IogenJob) (well : WellDraws) : Prop where
  rand : draws.rand < 2 ^ 31
  uniform : job.params.slbaType = .uniform → ∀ k, draws.slba k < 2 ^ 31
  jesd219 : job.params.slbaType = .jesd219 →
    jesd219Gen outside iover.ns.nlbs sectorSize well = some (draws.jesd219Slba, draws.jesd219Nlbs)

/-! ## The plan of a job -/

/-- The fields of a job that `iogen_job_init` sets for good. -/
structure JobPlan where
  params : JobParams
  oprLottery : ℕ → BioOpcode
  lbas : ℕ → LbasRange
  slbaAlign : ℕ
  lbaRangeBegin : ℕ
  lbaRangeSize : ℕ

def IogenJob.plan (job : IogenJob) : JobPlan where
  params := job.params
  oprLottery := job.oprLottery
  lbas := job.lbas
  slbaAlign := job.slbaAlign
  lbaRangeBegin := job.lbaRangeBegin
  lbaRangeSize := job.lbaRangeSize

namespace JobPlan

variable (ns : NamespaceInfo) (plan : JobPlan)

/-- A bio is in the range. -/
structure Contains (bio : Bio) : Prop where
  begin_le : plan.lbaRangeBegin ≤ bio.slba
  le_end : bio.slba + bio.nlbs ≤ plan.lbaRangeBegin + plan.lbaRangeSize

/-- An operation with LBAs that the job has. -/
def Has (op : BioOpcode) : Prop :=
  op ≠ .flush ∧ ∃ k < 100, sizedOpcode ns.lbaShift (plan.oprLottery k) = op

/-- A number of LBAs, aligned as the sizes of an operation are. -/
def alignSize (op : BioOpcode) (n : ℕ) : ℕ :=
  if plan.params.iosizeAlign op.num ≠ 0 then
    alignTo 32 n (plan.params.iosizeAlign op.num / 2 ^ ns.lbaShift)
  else n

/-- A size of the entry at the number of an operation, to which a random number adds 24 bits. -/
def Gives (op : BioOpcode) (n : ℕ) : Prop :=
  ∃ q ≤ min (plan.lbas op.num).lbasDist (2 ^ 24 - 1),
    n = plan.alignSize ns op (((plan.lbas op.num).minLbas + q) % 2 ^ 32)

/-- The stream of an operation, in a sequential job. -/
def stream (op : BioOpcode) : Fin 2 := if plan.params.separateStream ∧ op = .read then 1 else 0

/-- The LBAs that a stream comes to: the sizes of its operations, added up as far as the range
goes. -/
inductive Reaches (s : Fin 2) : ℕ → Prop
  | zero : Reaches s 0
  | again : Reaches s plan.params.fixedLba
  | next {op : BioOpcode} {x n : ℕ} : Reaches s x → plan.Has ns op → plan.stream op = s →
    plan.Gives ns op n → x + n ≤ plan.lbaRangeSize → Reaches s (x + n)

/-- An LBA, aligned if the job has an alignment. -/
def alignSlba (x : ℕ) : ℕ :=
  if ns.dataSize < plan.params.slbaAlign then alignTo 64 x plan.slbaAlign else x

/-- There is room for a number of LBAs, also once the first is aligned. -/
def Room (x n : ℕ) : Prop := plan.alignSlba ns x + n ≤ plan.lbaRangeSize

end JobPlan

/-- The sizes of a job, the LBAs it may choose and its alignment go together. -/
structure Fits (outside : ℕ → BitVec 32) (sectorSize : ℕ) (iover : Iover) (job : IogenJob) :
    Prop where
  /-- `lbas_dist + 1` is no zero -/
  dist : job.params.slbaType ≠ .jesd219 → ∀ op, job.plan.Has iover.ns op →
    ((job.lbas op.num).lbasDist + 1) % 2 ^ 32 ≠ 0
  /-- an alignment of the sizes is an LBA at least -/
  align : job.params.slbaType ≠ .jesd219 → ∀ op, job.plan.Has iover.ns op →
    job.params.iosizeAlign op.num = 0 ∨ iover.ns.dataSize ≤ job.params.iosizeAlign op.num
  seq : job.params.slbaType = .seq → ∀ op n, job.plan.Has iover.ns op →
    job.plan.Gives iover.ns op n → n ≤ job.lbaRangeSize ∧
      ∀ x, job.plan.Reaches iover.ns (job.plan.stream op) x → x + n < 2 ^ 64 ∧
        (x + n ≤ job.lbaRangeSize → job.plan.Room iover.ns x n)
  uniform : job.params.slbaType = .uniform → ∀ op n, job.plan.Has iover.ns op →
    job.plan.Gives iover.ns op n → n < job.lbaRangeSize ∧
      ∀ x < 2 ^ 31, x + n < job.lbaRangeSize → job.plan.Room iover.ns x n
  zipf : job.params.slbaType = .zipf → ∀ op n, job.plan.Has iover.ns op →
    job.plan.Gives iover.ns op n → n < job.lbaRangeSize ∧
      ∀ x, x + n < job.lbaRangeSize → job.plan.Room iover.ns x n
  fixed : job.params.slbaType = .fixed → ∀ op n, job.plan.Has iover.ns op →
    job.plan.Gives iover.ns op n → job.plan.Room iover.ns job.params.fixedLba n
  /-- the groups are of the namespace, not of the range -/
  jesd219 : job.params.slbaType = .jesd219 →
    (∀ idx, (lbaGroup outside iover.ns.nlbs idx).size ≠ 0) ∧
      ∀ x n, Jesd219Picks sectorSize x n → x + n ≤ iover.ns.nlbs → job.plan.Room iover.ns x n
  /-- and so are the records, of those from the current one down and of all the ring -/
  replay : job.params.slbaType = .replay → iover.header.nhist ≠ 0 ∧
    ∀ k, k ≤ job.replayHistIdx ∨ k < iover.header.nhist →
      (iover.histDesc k.toNat).lba ≠ 0xFFFFFFFFFFFFFFFF →
        job.plan.Room iover.ns (iover.histDesc k.toNat).lba.toNat 1

/-! ## An attempt -/

/-- A sequential job is where its streams come to. -/
def IogenJob.OnStream (ns : NamespaceInfo) (job : IogenJob) : Prop :=
  job.params.slbaType = .seq → ∀ s, job.plan.Reaches ns s (job.slbaNext s)

/-- What an attempt starts from: an operation of the job, and a size that it has. -/
structure Sized (sectorSize : ℕ) (iover : Iover) (job : IogenJob) (draws : GenDraws) (bio : Bio) :
    Prop where
  lt : bio.nlbs < 2 ^ 32
  flush : bio.opcode ≠ .flush
  given : job.params.slbaType ≠ .jesd219 → job.params.slbaType ≠ .replay →
    job.plan.Has iover.ns bio.opcode ∧ job.plan.Gives iover.ns bio.opcode bio.nlbs
  jesd219 : job.params.slbaType = .jesd219 →
    Jesd219Picks sectorSize draws.jesd219Slba bio.nlbs ∧
      draws.jesd219Slba + bio.nlbs ≤ iover.ns.nlbs

section Attempt

variable {outside : ℕ → BitVec 32} {sectorSize : ℕ} {iover : Iover} {job job' : IogenJob}
  {bio : Bio} {draws : GenDraws} {well : WellDraws}

/-- The number of LBAs that is chosen is one of the entry. -/
theorem chooseNlbs_gives (hjesd : job.params.slbaType ≠ .jesd219) (hrand : draws.rand < 2 ^ 31)
    (op : BioOpcode) : job.plan.Gives iover.ns op (chooseNlbs iover job op draws) := by
  have hsize : ∃ q ≤ min (job.lbas op.num).lbasDist (2 ^ 24 - 1),
      (if 0 < (job.lbas op.num).lbasDist then
        ((job.lbas op.num).minLbas + draws.rand / 2 ^ 7 % ((job.lbas op.num).lbasDist + 1)) % 2 ^ 32
      else (job.lbas op.num).minLbas % 2 ^ 32) = ((job.lbas op.num).minLbas + q) % 2 ^ 32 := by
    split
    · refine ⟨_, le_min ?_ ?_, rfl⟩
      · exact Nat.le_of_lt_succ (Nat.mod_lt _ (Nat.succ_pos _))
      · exact (Nat.mod_le ..).trans (by omega)
    · exact ⟨0, Nat.zero_le _, rfl⟩
  obtain ⟨q, hq, hnlbs⟩ := hsize
  refine ⟨q, hq, ?_⟩
  simp only [chooseNlbs]
  rw [if_neg hjesd]
  simp only [hnlbs]
  rfl

/-- A job that fits does so at any LBA of its streams, and at any record that is not beyond. -/
theorem Fits.of_plan (h : Fits outside sectorSize iover job) (hplan : job'.plan = job.plan)
    (hidx : ∀ k, k ≤ job'.replayHistIdx ∨ k < iover.header.nhist →
      k ≤ job.replayHistIdx ∨ k < iover.header.nhist) :
    Fits outside sectorSize iover job' := by
  cases job
  cases job'
  simp only [IogenJob.plan, JobPlan.mk.injEq] at hplan
  obtain ⟨rfl, rfl, rfl, rfl, rfl, rfl⟩ := hplan
  exact ⟨h.dist, h.align, h.seq, h.uniform, h.zipf, h.fixed, h.jesd219,
    fun hr => ⟨(h.replay hr).1, fun k hk => (h.replay hr).2 k (hidx k hk)⟩⟩

/-- The size that an attempt starts from is one for the next. -/
theorem Sized.of_plan (h : Sized sectorSize iover job draws bio) (hplan : job'.plan = job.plan)
    {bio' : Bio} (hop : bio'.opcode = bio.opcode) (hn : bio'.nlbs = bio.nlbs) :
    Sized sectorSize iover job' draws bio' := by
  have hparams : job'.params = job.params := congrArg JobPlan.params hplan
  refine ⟨hn ▸ h.lt, hop ▸ h.flush, ?_, ?_⟩
  · rw [hparams, hplan, hop, hn]
    exact h.given
  · rw [hparams, hn]
    exact h.jesd219

/-- What an attempt leaves: no operation went wrong, and where there is an LBA, there is room. -/
structure Attempt (outside : ℕ → BitVec 32) (sectorSize : ℕ) (iover : Iover) (job : IogenJob)
    (ops : List ArithOp) (ok : Bool) (job' : IogenJob) (bio' : Bio) : Prop where
  ops : ∀ op ∈ ops, op.Ok
  room : ok = true → ¬ (job.params.slbaType = .replay ∧ bio'.opcode = .flush) →
    job.plan.Room iover.ns bio'.slba bio'.nlbs
  plan : job'.plan = job.plan
  fits : Fits outside sectorSize iover job'
  onStream : job'.OnStream iover.ns

/-- A sequential job takes the next LBA of the stream, or the first if there is no room. -/
theorem seqSlba_spec (hn : bio.nlbs ≤ job.lbaRangeSize)
    (hlt : job.slbaNext (job.plan.stream bio.opcode) + bio.nlbs < 2 ^ 64) :
    ∃ x next, (x = 0 ∨ x = job.slbaNext (job.plan.stream bio.opcode)) ∧
      x + bio.nlbs ≤ job.lbaRangeSize ∧
      (next = job.slbaNext ∨
        next = update job.slbaNext (job.plan.stream bio.opcode) (x + bio.nlbs)) ∧
      (seqSlba job bio).2 = ({ job with slbaNext := next }, { bio with slba := x }) := by
  have hchoose : ∃ x, (if job.lbaRangeSize <
        (job.slbaNext (job.plan.stream bio.opcode) + bio.nlbs) % 2 ^ 64 then 0
      else job.slbaNext (job.plan.stream bio.opcode)) = x ∧
      (x = 0 ∨ x = job.slbaNext (job.plan.stream bio.opcode)) ∧ x + bio.nlbs ≤ job.lbaRangeSize := by
    rw [Nat.mod_eq_of_lt hlt]
    split
    · exact ⟨0, rfl, .inl rfl, by rwa [Nat.zero_add]⟩
    · rename_i hroom
      exact ⟨_, rfl, .inr rfl, Nat.not_lt.mp hroom⟩
  obtain ⟨x, hx, hcases, hle⟩ := hchoose
  have hnext : (x + bio.nlbs) % 2 ^ 64 = x + bio.nlbs := by
    apply Nat.mod_eq_of_lt
    rcases hcases with rfl | rfl
    · exact (Nat.add_le_add_right (Nat.zero_le _) _).trans_lt hlt
    · exact hlt
  have hstream : (if job.params.separateStream ∧ bio.opcode = .read then 1 else 0) =
      job.plan.stream bio.opcode := rfl
  simp only [seqSlba, hstream, hx, hnext]
  refine ⟨x, _, hcases, hle, ?_, rfl⟩
  split
  · exact .inr rfl
  · exact .inl rfl

/-- **An attempt of a sequential job.** -/
theorem seqSlba_attempt (h : Fits outside sectorSize iover job) (hs : job.OnStream iover.ns)
    (htype : job.params.slbaType = .seq) (hsized : Sized sectorSize iover job draws bio) :
    Attempt outside sectorSize iover job [] (seqSlba job bio).1 (seqSlba job bio).2.1
      (seqSlba job bio).2.2 := by
  obtain ⟨hhas, hgives⟩ := hsized.given (by rw [htype]; decide) (by rw [htype]; decide)
  obtain ⟨hle, hfits⟩ := h.seq htype _ _ hhas hgives
  have hreach := hs htype (job.plan.stream bio.opcode)
  obtain ⟨x, next, hx, hend, hnext, hout⟩ := seqSlba_spec hle (hfits _ hreach).1
  have hreach' : job.plan.Reaches iover.ns (job.plan.stream bio.opcode) x := by
    rcases hx with rfl | rfl
    · exact .zero
    · exact hreach
  have hstream : ∀ s, job.plan.Reaches iover.ns s (next s) := by
    intro s
    rcases hnext with rfl | rfl
    · exact hs htype s
    · by_cases heq : s = job.plan.stream bio.opcode
      · subst heq
        rw [update_self]
        exact hreach'.next hhas rfl hgives hend
      · rw [update_of_ne heq]
        exact hs htype s
  rw [hout]
  exact ⟨nofun, fun _ _ => (hfits x hreach').2 hend, rfl, h.of_plan rfl fun _ hk => hk,
    fun _ s => hstream s⟩

/-- A record is in the range of the ring, and so is the one before it. -/
theorem historySlba_attempt (h : Fits outside sectorSize iover job)
    (htype : job.params.slbaType = .replay) :
    Attempt outside sectorSize iover job (historySlbaOps iover job) true
      (historySlba iover job bio).1 (historySlba iover job bio).2 := by
  obtain ⟨hnhist, hrecords⟩ := h.replay htype
  have hseq : ∀ {job' : IogenJob}, job'.plan = job.plan → job'.OnStream iover.ns := by
    intro job' hplan ht
    have hparams : job'.params = job.params := congrArg JobPlan.params hplan
    rw [hparams, htype] at ht
    cases ht
  unfold historySlba historySlbaOps
  by_cases hend : historyEnd iover job = true
  · rw [if_pos hend, if_pos hend]
    exact ⟨nofun, fun _ hflush => absurd ⟨htype, rfl⟩ hflush, rfl, h.of_plan rfl fun _ hk => hk,
      hseq rfl⟩
  · rw [if_neg hend, if_neg hend]
    simp only [historyEnd, Bool.or_eq_true, beq_iff_eq, not_or] at hend
    have hcnt : 1 ≤ job.replayHistCnt.toNat := Nat.one_le_iff_ne_zero.mpr fun hz =>
      hend.2 (BitVec.eq_of_toNat_eq hz)
    refine ⟨?_, fun _ _ => hrecords _ (.inl (BitVec.le_refl _)) hend.1, rfl,
      h.of_plan rfl fun k hk => ?_, hseq rfl⟩
    · simp only [List.forall_mem_cons, List.not_mem_nil, false_implies, implies_true, and_true]
      refine ⟨?_, hcnt⟩
      split
      · exact Nat.one_le_iff_ne_zero.mpr fun hz => hnhist (BitVec.eq_of_toNat_eq hz)
      · rename_i hidx
        exact Nat.one_le_iff_ne_zero.mpr fun hz => hidx (BitVec.eq_of_toNat_eq hz)
    · simp only [historyNext] at hk
      rcases hk with hk | hk
      · split at hk
        · right
          bv_omega
        · left
          bv_omega
      · exact .inr hk

/-- An LBA that is drawn leaves room for the bio. -/
theorem draw_lt {n range : ℕ} (draw : ℕ) (hn : n < range) (hrange : range < 2 ^ 64) :
    draw % ((range + 2 ^ 64 - n) % 2 ^ 64) + n < range ∧ (range + 2 ^ 64 - n) % 2 ^ 64 ≠ 0 := by
  have hmod : (range + 2 ^ 64 - n) % 2 ^ 64 = range - n := by omega
  rw [hmod]
  have hlt := Nat.mod_lt draw (Nat.sub_pos_of_lt hn)
  exact ⟨by omega, by omega⟩

/-- **An attempt of a job that fits.** -/
theorem chooseSlba_attempt (h : Fits outside sectorSize iover job) (hs : job.OnStream iover.ns)
    (hpareto : job.params.slbaType ≠ .pareto) (hrange : job.lbaRangeSize < 2 ^ 64)
    (hsized : Sized sectorSize iover job draws bio) (draw : ℕ)
    (hdraw : job.params.slbaType = .uniform → draw < 2 ^ 31) :
    Attempt outside sectorSize iover job (chooseSlbaOps iover job bio draw)
      (chooseSlba iover job bio draw draws.jesd219Slba).1
      (chooseSlba iover job bio draw draws.jesd219Slba).2.1
      (chooseSlba iover job bio draw draws.jesd219Slba).2.2 := by
  have hops : ∀ {n : ℕ}, n < job.lbaRangeSize →
      ∀ op ∈ [ArithOp.sub job.lbaRangeSize n,
        .mod draw ((job.lbaRangeSize + 2 ^ 64 - n) % 2 ^ 64)], op.Ok := by
    intro n hn op hop
    rcases List.mem_pair.mp hop with rfl | rfl
    · exact hn.le
    · exact (draw_lt draw hn hrange).2
  unfold chooseSlba chooseSlbaOps
  cases htype : job.params.slbaType with
  | seq => exact seqSlba_attempt h hs htype hsized
  | uniform =>
    obtain ⟨hhas, hgives⟩ := hsized.given (by rw [htype]; decide) (by rw [htype]; decide)
    obtain ⟨hn, hroom⟩ := h.uniform htype _ _ hhas hgives
    refine ⟨hops hn, fun _ _ => hroom _ ?_ (draw_lt draw hn hrange).1, rfl, h, hs⟩
    exact (Nat.mod_le ..).trans_lt (hdraw htype)
  | zipf =>
    obtain ⟨hhas, hgives⟩ := hsized.given (by rw [htype]; decide) (by rw [htype]; decide)
    obtain ⟨hn, hroom⟩ := h.zipf htype _ _ hhas hgives
    exact ⟨hops hn, fun _ _ => hroom _ (draw_lt draw hn hrange).1, rfl, h, hs⟩
  | pareto => exact absurd htype hpareto
  | fixed =>
    obtain ⟨hhas, hgives⟩ := hsized.given (by rw [htype]; decide) (by rw [htype]; decide)
    exact ⟨nofun, fun _ _ => h.fixed htype _ _ hhas hgives, rfl, h, hs⟩
  | jesd219 =>
    obtain ⟨hpicks, hle⟩ := hsized.jesd219 htype
    exact ⟨nofun, fun _ _ => (h.jesd219 htype).2 _ _ hpicks hle, rfl, h, hs⟩
  | replay => exact historySlba_attempt h htype

end Attempt

/-! ## A call -/

/-- What `iogen_job_init` makes of the range and of the alignment. -/
structure JobPlan.WellFormed (ns : NamespaceInfo) (plan : JobPlan) : Prop where
  begin_lt : plan.lbaRangeBegin < 2 ^ 55
  size_lt : plan.lbaRangeSize < 2 ^ 55
  align_pos : ns.dataSize < plan.params.slbaAlign → 0 < plan.slbaAlign
  type : plan.params.slbaType ≠ .pareto

/-- What a call leaves: no operation went wrong, and what it returns is in the range. -/
structure Gen.InRange (g : Gen) (iover : Iover) (job : IogenJob) (ops : List ArithOp) : Prop where
  ops : ∀ op ∈ ops, op.Ok
  contains : g.ready = true → g.bio.opcode ≠ .flush → job.plan.Contains g.bio
  plan : g.job.plan = job.plan
  ns : g.iover.ns = iover.ns
  onStream : g.job.OnStream iover.ns

section Call

variable {outside : ℕ → BitVec 32} {sectorSize : ℕ} {iover : Iover} {job job' : IogenJob}
  {bio : Bio} {draws : GenDraws} {well : WellDraws}

/-- Where there is room, aligning the LBA and adding the begin of the range stays in it. -/
theorem placeBio_contains (hw : job.plan.WellFormed iover.ns)
    (hroom : job.plan.Room iover.ns bio.slba bio.nlbs) :
    job.plan.Contains (placeBio iover job bio) := by
  have hslba : (placeBio iover job bio).slba =
      (job.plan.alignSlba iover.ns bio.slba + job.lbaRangeBegin) % 2 ^ 64 := rfl
  have hnlbs : (placeBio iover job bio).nlbs = bio.nlbs := rfl
  have hbegin : job.lbaRangeBegin < 2 ^ 55 := hw.begin_lt
  have hsize : job.lbaRangeSize < 2 ^ 55 := hw.size_lt
  have hend : job.plan.alignSlba iover.ns bio.slba + bio.nlbs ≤ job.lbaRangeSize := hroom
  have hsum : job.plan.alignSlba iover.ns bio.slba + job.lbaRangeBegin < 2 ^ 64 := by omega
  refine ⟨?_, ?_⟩
  · rw [hslba, Nat.mod_eq_of_lt hsum]
    exact Nat.le_add_left ..
  · rw [hslba, hnlbs, Nat.mod_eq_of_lt hsum]
    change _ ≤ job.lbaRangeBegin + job.lbaRangeSize
    omega

theorem placeOps_ok (hw : job.plan.WellFormed iover.ns) : ∀ op ∈ placeOps iover job, op.Ok := by
  simp only [placeOps]
  split
  · rename_i halign
    intro op hop
    rw [List.mem_singleton.mp hop]
    exact hw.align_pos halign
  · nofun

theorem measureOps_ok (job : IogenJob) (draws : GenDraws) (bio : Bio) :
    ∀ op ∈ measureOps job draws bio, op.Ok := by
  simp only [measureOps]
  split
  · rename_i hstreams
    intro op hop
    rw [List.mem_singleton.mp hop]
    exact hstreams.2
  · nofun

/-- `iover_generate_data` stays with the namespace. -/
theorem ioverGenerateData_ns (hn : bio.nlbs < 2 ^ 32) {escape : ℕ → Bool} {iover' : Iover}
    {bio' : Bio} (h : ioverGenerateData iover job.params bio escape = (0, iover', bio')) :
    iover'.ns = iover.ns := by
  obtain ⟨lbaLock, hfill, -⟩ := ioverGenerateData_ok hn h
  have hns : iover' = (fillData { iover with lbaLock := lbaLock } job.params bio escape).1 :=
    congrArg Prod.fst hfill
  rw [hns, fillData_fst]
  split <;> rfl

/-- An attempt that does not come to the end of the records leaves a size for the next. -/
theorem chooseSlba_sized (draw : ℕ)
    (hplan : (chooseSlba iover job bio draw draws.jesd219Slba).2.1.plan = job.plan)
    (hsized : Sized sectorSize iover job draws bio)
    (hend : ¬ (job.params.slbaType = .replay ∧
      (chooseSlba iover job bio draw draws.jesd219Slba).2.2.opcode = .flush)) :
    Sized sectorSize iover (chooseSlba iover job bio draw draws.jesd219Slba).2.1 draws
      (chooseSlba iover job bio draw draws.jesd219Slba).2.2 := by
  have hparams := chooseSlba_params iover job bio draw draws.jesd219Slba
  by_cases hreplay : job.params.slbaType = .replay
  · have hbio : (chooseSlba iover job bio draw draws.jesd219Slba).2.2 =
        (historySlba iover job bio).2 := by
      rw [chooseSlba, hreplay]
    rcases historySlba_bio iover job bio with ⟨hflush, -⟩ | ⟨hread, hone⟩
    · exact absurd ⟨hreplay, hbio ▸ hflush⟩ hend
    · rw [← hbio] at hread hone
      refine ⟨hone ▸ by decide, hread ▸ by decide, ?_, ?_⟩
      · intro _ hr
        rw [hparams] at hr
        exact absurd hreplay hr
      · intro hj
        rw [hparams, hreplay] at hj
        cases hj
  · obtain ⟨slba, hbio⟩ := chooseSlba_bio iover bio hreplay draw draws.jesd219Slba
    exact hsized.of_plan hplan (by rw [hbio]) (by rw [hbio])

/-- **The loop of `generate_bio`**, of a job that fits: each attempt leaves room for the bio, and
what the next one needs. -/
theorem generateLoop_inRange (hw : job.plan.WellFormed iover.ns)
    (hdraw : job.params.slbaType = .uniform → ∀ k, draws.slba k < 2 ^ 31) (left : ℕ)
    (h : Fits outside sectorSize iover job) (hs : job.OnStream iover.ns)
    (hsized : Sized sectorSize iover job draws bio) :
    (generateLoop draws left iover job bio).InRange iover job
      (generateLoopOps draws left iover job bio) := by
  induction left generalizing job bio with
  | zero =>
    exact ⟨fun _ hop => absurd hop List.not_mem_nil,
      fun hready => absurd hready Bool.false_ne_true, rfl, rfl, hs⟩
  | succ left ih =>
    have hrange : job.lbaRangeSize < 2 ^ 64 := hw.size_lt.trans (by decide)
    have hattempt := chooseSlba_attempt h hs hw.type hrange hsized (draws.slba left)
      fun ht => hdraw ht left
    have hnext := chooseSlba_sized (draws.slba left) hattempt.plan hsized
    have hparams := chooseSlba_params iover job bio (draws.slba left) draws.jesd219Slba
    rw [generateLoop, generateLoopOps]
    generalize chooseSlba iover job bio (draws.slba left) draws.jesd219Slba = c
      at hattempt hnext hparams
    obtain ⟨ok, job', bio'⟩ := c
    simp only at hattempt hnext hparams ⊢
    by_cases hok : ok = false
    · rw [if_pos hok, if_pos hok]
      exact ⟨hattempt.ops, fun hready => absurd hready Bool.false_ne_true, hattempt.plan, rfl,
        hattempt.onStream⟩
    rw [if_neg hok, if_neg hok]
    by_cases hend : job'.params.slbaType = .replay ∧ bio'.opcode = .flush
    · rw [if_pos hend, if_pos hend]
      exact ⟨hattempt.ops, fun _ hflush => absurd hend.2 hflush, hattempt.plan, rfl,
        hattempt.onStream⟩
    rw [if_neg hend, if_neg hend]
    rw [hparams] at hend
    have hsized' := hnext hend
    have hroom := hattempt.room (Bool.not_eq_false _ |>.mp hok) hend
    rw [← hattempt.plan] at hroom hw
    have hcontains := placeBio_contains hw hroom
    have hops : ∀ op ∈ chooseSlbaOps iover job bio (draws.slba left) ++ placeOps iover job',
        op.Ok := fun op hop => (List.mem_append.mp hop).elim (hattempt.ops op)
      (placeOps_ok hw op)
    have hn : (placeBio iover job' bio').nlbs < 2 ^ 32 := hsized'.lt
    cases hgen : ioverGenerateData iover job'.params (placeBio iover job' bio')
      (draws.escape left) with
    | mk res out =>
      obtain ⟨iover', filled⟩ := out
      by_cases hres : res = 0
      · subst hres
        have hsame := ioverGenerateData_sameCommand hn hgen
        simp only [ne_eq, not_true_eq_false, if_false]
        refine ⟨fun op hop => ?_, fun _ _ => ?_, hattempt.plan, ioverGenerateData_ns hn hgen,
          hattempt.onStream⟩
        · exact (List.mem_append.mp hop).elim (hops op) (measureOps_ok job' draws filled op)
        · rw [← hattempt.plan]
          exact ⟨hsame.slba ▸ hcontains.begin_le, by
            have hle := hcontains.le_end
            rw [← hsame.slba, ← hsame.nlbs] at hle
            exact hle⟩
      · have hout := ioverGenerateData_failed hn hgen hres
        obtain rfl : iover' = iover := congrArg Prod.fst hout
        obtain rfl : filled = placeBio iover' job' bio' := congrArg Prod.snd hout
        simp only [ne_eq, hres, not_false_eq_true, if_true]
        have hrest := ih hw (hparams ▸ hdraw) hattempt.fits hattempt.onStream
          (hsized'.of_plan rfl rfl rfl : Sized sectorSize iover' job' draws
            (placeBio iover' job' bio'))
        refine ⟨fun op hop => ?_, fun hready hflush => ?_, hrest.plan.trans hattempt.plan, hrest.ns,
          hrest.onStream⟩
        · exact (List.mem_append.mp hop).elim (hops op) (hrest.ops op)
        · rw [← hattempt.plan]
          exact hrest.contains hready hflush

/-- The operations of the loop in `jesd219_gen`, for a group with LBAs. -/
theorem jesd219LoopOps_ok {group : LbaGroup} {nlbs : ℕ} (hsize : group.size ≠ 0)
    (rounds : List (ℕ × ℕ)) : ∀ o ∈ jesd219LoopOps group sectorSize nlbs rounds, o.Ok := by
  induction rounds with
  | nil => nofun
  | cons words rest ih =>
    intro o ho
    rw [jesd219LoopOps] at ho
    rcases List.mem_append.mp ho with ho | ho
    · rcases List.mem_pair.mp ho with rfl | rfl
      · exact fun hz => hsize (BitVec.eq_of_toNat_eq hz)
      · exact Nat.mod_le ..
    · split at ho
      · cases ho
      · split at ho
        · cases ho
        · exact ih o ho

/-- The operations that choose a size. -/
theorem chooseNlbsOps_ok (h : Fits outside sectorSize iover job) {op : BioOpcode}
    (hhas : job.plan.Has iover.ns op) :
    ∀ o ∈ chooseNlbsOps outside sectorSize iover job op draws well, o.Ok := by
  simp only [chooseNlbsOps]
  by_cases hjesd : job.params.slbaType = .jesd219
  · rw [if_pos hjesd]
    exact jesd219LoopOps_ok ((h.jesd219 hjesd).1 _) _
  · rw [if_neg hjesd]
    intro o ho
    rcases List.mem_append.mp ho with ho | ho
    · split at ho
      · rw [List.mem_singleton.mp ho]
        exact h.dist hjesd op hhas
      · cases ho
    · split at ho
      · rename_i halign
        rw [List.mem_singleton.mp ho]
        have hle := (h.align hjesd op hhas).resolve_left halign
        rw [iover.ns.dataSize_eq] at hle
        exact (Nat.one_le_div_iff (Nat.two_pow_pos _)).mpr hle
      · cases ho

/-- What `generate_bio` fills in first is a size of the operation that the lottery yields. -/
theorem sizeBio_sized (hdrawn : draws.Drawn outside sectorSize iover job well)
    (hop : bio.opcode = job.oprLottery (draws.rand % 100)) (hflush : bio.opcode ≠ .flush) :
    Sized sectorSize iover job draws (sizeBio iover job draws bio) := by
  have hopcode : (sizeBio iover job draws bio).opcode =
      sizedOpcode iover.ns.lbaShift bio.opcode := rfl
  have hnlbs : (sizeBio iover job draws bio).nlbs =
      chooseNlbs iover job (sizeBio iover job draws bio).opcode draws := rfl
  have hsized : (sizeBio iover job draws bio).opcode ≠ .flush := by
    rw [hopcode, sizedOpcode]
    split
    · decide
    · exact hflush
  refine ⟨chooseNlbs_lt .., hsized, fun hjesd _ => ⟨⟨hsized, draws.rand % 100,
    Nat.mod_lt _ (by decide), ?_⟩, chooseNlbs_gives hjesd hdrawn.rand _⟩, fun hjesd => ?_⟩
  · rw [hopcode, hop]
    rfl
  · have hspec := jesd219Loop_spec (hdrawn.jesd219 hjesd)
    rw [hnlbs, chooseNlbs, if_pos hjesd, Nat.mod_eq_of_lt (payloads_lt hspec.1.payload)]
    exact hspec

/-- **What is asked of a call of `generate_bio`**: the bio it returns is in the range, unless it is a
flush, and no operation goes wrong. -/
structure Contained (outside : ℕ → BitVec 32) (sectorSize : ℕ) (iover : Iover) (job : IogenJob)
    (draws : GenDraws) (well : WellDraws) : Prop where
  contains : ∀ id iover' job', generateBio iover job draws = (some id, iover', job') →
    (job'.bioPool id).opcode ≠ .flush → job.plan.Contains (job'.bioPool id)
  ops : ∀ op ∈ generateBioOps outside sectorSize iover job draws well, op.Ok

/-- What `generate_bio` fills in is a flush, or it comes out of the loop. -/
theorem fillBio_inRange (hw : job.plan.WellFormed iover.ns)
    (hdrawn : draws.Drawn outside sectorSize iover job well)
    (h : Fits outside sectorSize iover job) (hs : job.OnStream iover.ns) {id : ℕ} {rest : List ℕ}
    (hfree : job.bioFree = id :: rest) : (fillBio iover job draws (job.bioPool id)).InRange iover job
      (generateBioOps outside sectorSize iover job draws well) := by
  have hten : ArithOp.Ok (.mod draws.rand 100) := by
    change 100 ≠ 0
    decide
  let bio : Bio := { job.bioPool id with
    histIdx := noHistIdx
    opcode := job.oprLottery (draws.rand % 100) }
  have hops : generateBioOps outside sectorSize iover job draws well =
      .mod draws.rand 100 :: if bio.opcode = .flush then [] else
        chooseNlbsOps outside sectorSize iover job (sizeBio iover job draws bio).opcode draws
          well ++ generateLoopOps draws 3 iover job (sizeBio iover job draws bio) := by
    rw [generateBioOps, hfree]
  rw [hops]
  rw [fillBio]
  simp only
  by_cases hflush : bio.opcode = .flush
  · rw [if_pos hflush, if_pos hflush]
    refine ⟨?_, fun _ hne => absurd hflush hne, rfl, rfl, hs⟩
    intro op hop
    rw [List.mem_singleton.mp hop]
    exact hten
  · rw [if_neg hflush, if_neg hflush]
    have hsized : Sized sectorSize iover job draws (sizeBio iover job draws bio) :=
      sizeBio_sized hdrawn rfl hflush
    have hloop := generateLoop_inRange hw hdrawn.uniform 3 h hs hsized
    refine ⟨?_, hloop.contains, hloop.plan, hloop.ns, hloop.onStream⟩
    intro op hop
    rcases List.mem_cons.mp hop with rfl | hop
    · exact hten
    · refine (List.mem_append.mp hop).elim (chooseNlbsOps_ok h ?_ op) (hloop.ops op)
      exact ⟨hsized.flush, _, Nat.mod_lt _ (by decide), rfl⟩

/-- **A call of `generate_bio`**, of a job that fits. -/
theorem generateBio_inRange (hw : job.plan.WellFormed iover.ns)
    (hdrawn : draws.Drawn outside sectorSize iover job well)
    (h : Fits outside sectorSize iover job) (hs : job.OnStream iover.ns) :
    Contained outside sectorSize iover job draws well ∧
      (generateBio iover job draws).2.1.ns = iover.ns ∧
      (generateBio iover job draws).2.2.plan = job.plan ∧
      (generateBio iover job draws).2.2.OnStream iover.ns := by
  cases hfree : job.bioFree with
  | nil =>
    have hgen : generateBio iover job draws = (none, iover, job) := by
      rw [generateBio, hfree]
    have hops : generateBioOps outside sectorSize iover job draws well = [] := by
      rw [generateBioOps, hfree]
    rw [hgen]
    refine ⟨⟨?_, ?_⟩, rfl, rfl, hs⟩
    · intro id iover' job' heq
      rw [hgen] at heq
      cases heq
    · intro op hop
      rw [hops] at hop
      exact absurd hop List.not_mem_nil
  | cons id rest =>
    have hgen : generateBio iover job draws =
        (let gen := fillBio iover job draws (job.bioPool id)
        if gen.ready then
          (some id, gen.iover, { gen.job with
            sumOps := gen.job.sumOps + 1
            bioPool := update job.bioPool id (dressBio iover job draws gen.bio)
            bioFree := rest })
        else (none, gen.iover, { gen.job with bioPool := update job.bioPool id gen.bio })) := by
      rw [generateBio, hfree]
    have hfill := fillBio_inRange hw hdrawn h hs hfree
    rw [hgen]
    generalize fillBio iover job draws (job.bioPool id) = gen at hgen hfill
    simp only at hgen ⊢
    by_cases hready : gen.ready = true
    · rw [if_pos hready] at hgen ⊢
      refine ⟨⟨?_, hfill.ops⟩, hfill.ns, hfill.plan, hfill.onStream⟩
      intro id' iover' job' heq hne
      rw [hgen] at heq
      obtain ⟨rfl, -, rfl⟩ := by simpa only [Prod.mk.injEq, Option.some.injEq] using heq
      have hio := dressBio_sameIo iover job draws gen.bio
      simp only [update_self] at hne ⊢
      rw [hio.opcode] at hne
      have hcontains := hfill.contains hready hne
      exact ⟨hio.slba ▸ hcontains.begin_le, by
        rw [hio.slba, hio.nlbs]
        exact hcontains.le_end⟩
    · rw [if_neg hready] at hgen ⊢
      refine ⟨⟨?_, hfill.ops⟩, hfill.ns, hfill.plan, hfill.onStream⟩
      intro id' iover' job' heq
      rw [hgen] at heq
      cases heq

end Call

/-! ## A run of a job -/

/-- What happens to a job, and to the verifier of its namespace. -/
inductive GenLabel where
  | begin
  | generate (draws : GenDraws) (well : WellDraws)
  | enqueue (spor3 : Bool) (id : ℕ)
  | answer (id : ℕ) (bio : Bio)
  | bioEnd (id : ℕ)
  | stop
  | reinit
  /-- the other jobs of the namespace, and the clock -/
  | others

/-- The steps of a job, in any order. -/
inductive GenStep (outside : ℕ → BitVec 32) (sectorSize : ℕ) :
    Iover × IogenJob → GenLabel → Iover × IogenJob → Prop
  | begin (iover : Iover) (job : IogenJob) :
    GenStep outside sectorSize (iover, job) .begin (iover, iogenJobBegin iover job)
  | generate {iover : Iover} {job : IogenJob} {draws : GenDraws} {well : WellDraws} :
    draws.Drawn outside sectorSize iover job well →
    GenStep outside sectorSize (iover, job) (.generate draws well) (generateBio iover job draws).2
  | enqueue {iover : Iover} {job : IogenJob} {spor3 : Bool} {id : ℕ} {s : Iover × IogenJob} :
    enqueueBio spor3 iover job id = some s →
    GenStep outside sectorSize (iover, job) (.enqueue spor3 id) s
  | answer (iover : Iover) (job : IogenJob) (id : ℕ) (bio : Bio) :
    GenStep outside sectorSize (iover, job) (.answer id bio) (iover, answerBio job id bio)
  | bioEnd {iover : Iover} {job : IogenJob} {id : ℕ} {s : Iover × IogenJob} :
    bioEnd iover job id = some s → GenStep outside sectorSize (iover, job) (.bioEnd id) s
  | stop (iover : Iover) (job : IogenJob) :
    GenStep outside sectorSize (iover, job) .stop (iover, (iogenJobShouldStop job).2)
  | reinit (iover : Iover) (job : IogenJob) :
    GenStep outside sectorSize (iover, job) .reinit (iover, iogenJobReinit job)
  | others {iover : Iover} {job : IogenJob} {iover' : Iover} (timeout : Bool) :
    iover'.ns = iover.ns →
    GenStep outside sectorSize (iover, job) .others (iover', { job with timeout := timeout })

/-- A step that neither calls `generate_bio` nor resets the job. -/
def GenLabel.staysOnPlan : GenLabel → Bool
  | .generate _ _ | .reinit => false
  | _ => true

/-- A call of `generate_bio` is made by a job that fits. -/
def MeetsFits (outside : ℕ → BitVec 32) (sectorSize : ℕ) (s : Iover × IogenJob) :
    GenLabel → Prop
  | .generate _ _ => Fits outside sectorSize s.1 s.2
  | _ => True

/-- What a run keeps: the namespace, the plan and the streams. -/
structure OnPlan (ns : NamespaceInfo) (plan : JobPlan) (s : Iover × IogenJob) : Prop where
  sameNs : s.1.ns = ns
  samePlan : s.2.plan = plan
  onStream : s.2.OnStream ns

section Run

variable {outside : ℕ → BitVec 32} {sectorSize : ℕ} {ns : NamespaceInfo} {plan : JobPlan}
  {s t : Iover × IogenJob} {a : GenLabel}

/-- A step stays with the namespace, the plan and the next LBAs. -/
structure SamePlan (s t : Iover × IogenJob) : Prop where
  ns : t.1.ns = s.1.ns
  plan : t.2.plan = s.2.plan
  slbaNext : t.2.slbaNext = s.2.slbaNext

theorem enqueueBio_samePlan {spor3 : Bool} {id : ℕ} (h : enqueueBio spor3 s.1 s.2 id = some t) :
    SamePlan s t := by
  obtain ⟨iover', job'⟩ := t
  obtain ⟨⟨hd, hdr, bd, rfl⟩, rfl⟩ := enqueueBio_iover h
  exact ⟨rfl, rfl, rfl⟩

theorem bioEnd_samePlan {id : ℕ} (h : bioEnd s.1 s.2 id = some t) : SamePlan s t := by
  obtain ⟨iover', job'⟩ := t
  rcases bioEnd_cases h with ⟨-, r, hsubmit, rfl, rfl⟩ | ⟨-, rfl, rfl⟩
  · have hns : r.iover.ns = s.1.ns := by
      rw [(submitTail_sameCore hsubmit).ns]
      simp only [submitUnlock]
      split <;> rfl
    exact ⟨hns, rfl, rfl⟩
  · exact ⟨rfl, rfl, rfl⟩

/-- All steps do so but two: a call of `generate_bio` and a reset. -/
theorem GenStep.samePlan (h : GenStep outside sectorSize s a t)
    (hstays : a.staysOnPlan = true) : SamePlan s t := by
  cases h with
  | begin iover job =>
    simp only [iogenJobBegin]
    split <;> exact ⟨rfl, rfl, rfl⟩
  | generate hdrawn => cases hstays
  | enqueue he => exact enqueueBio_samePlan he
  | answer iover job id bio => exact ⟨rfl, rfl, rfl⟩
  | bioEnd he => exact bioEnd_samePlan he
  | stop iover job =>
    simp only [iogenJobShouldStop]
    split
    · exact ⟨rfl, rfl, rfl⟩
    · split <;> exact ⟨rfl, rfl, rfl⟩
  | reinit iover job => cases hstays
  | others timeout hns => exact ⟨hns, rfl, rfl⟩

/-- What leaves the next LBAs alone keeps a job on its streams. -/
theorem OnPlan.keep (h : OnPlan ns plan s) (hsame : SamePlan s t) : OnPlan ns plan t := by
  have hparams : t.2.params = s.2.params := congrArg JobPlan.params hsame.plan
  refine ⟨hsame.ns.trans h.sameNs, hsame.plan.trans h.samePlan, ?_⟩
  intro ht stream
  rw [hsame.plan, hsame.slbaNext]
  exact h.onStream (hparams ▸ ht) stream

/-- **A step** of a job that fits when it generates a bio. -/
theorem OnPlan.step (h : OnPlan ns plan s) (hw : plan.WellFormed ns)
    (hstep : guarded (GenStep outside sectorSize) (MeetsFits outside sectorSize) s a t) :
    OnPlan ns plan t := by
  obtain ⟨hok, hstep⟩ := hstep
  cases a with
  | generate draws well =>
    cases hstep with
    | generate hdrawn =>
      obtain ⟨hns, hplan, hstream⟩ := h
      subst hns hplan
      obtain ⟨-, hns', hplan', hstream'⟩ := generateBio_inRange hw hdrawn hok hstream
      exact ⟨hns', hplan', hstream'⟩
  | reinit =>
    cases hstep with
    | reinit iover job =>
      refine ⟨h.sameNs, h.samePlan, ?_⟩
      intro ht stream
      have hseq : job.params.slbaType = .seq := ht
      have hnext : (iogenJobReinit job).slbaNext = fun _ => job.params.fixedLba := by
        rw [iogenJobReinit, if_pos hseq]
      rw [hnext]
      exact .again
  | _ => exact h.keep (hstep.samePlan rfl)

/-- What `iogen_job_init` makes of the parameters. -/
theorem IogenJob.SetUp.wellFormed {config : JobConfig} {beyond : Beyond}
    {lbas : IosizeOpcode → LbasEntry} {job : IogenJob} (h : job.SetUp ns config beyond lbas)
    (hpareto : config.slbaType ≠ .pareto) : job.plan.WellFormed ns := by
  have hshift : ∀ b : BitVec 64, (b >>> ns.lbaShift).toNat < 2 ^ 55 := by
    intro b
    rw [BitVec.toNat_ushiftRight, Nat.shiftRight_eq_div_pow]
    have hpow : 2 ^ 9 ≤ 2 ^ ns.lbaShift := Nat.pow_le_pow_right (by decide) ns.nine_le_lbaShift
    have hlt := b.isLt
    exact Nat.div_lt_of_lt_mul (hlt.trans_le (by omega))
  have hparams : job.plan.params = config.jobParams beyond := h.params
  refine ⟨?_, ?_, ?_, ?_⟩
  · change job.lbaRangeBegin < 2 ^ 55
    rw [h.lbaRangeBegin]
    exact hshift _
  · change job.lbaRangeSize < 2 ^ 55
    rw [h.lbaRangeSize]
    exact hshift _
  · intro halign
    have hslba : job.plan.slbaAlign = (config.slbaAlign >>> ns.lbaShift).toNat := h.slbaAlign
    have hlt : ns.dataSize < config.slbaAlign.toNat := by
      rw [hparams] at halign
      exact halign
    rw [hslba, BitVec.toNat_ushiftRight, Nat.shiftRight_eq_div_pow]
    rw [ns.dataSize_eq] at hlt
    exact Nat.div_pos hlt.le (Nat.two_pow_pos _)
  · rw [hparams]
    exact hpareto

/-- **Where the sizes, the LBAs and the alignment of a job go together, its bios are in its
range**: in every run in which it fits when it generates a bio. -/
theorem contained_of_fits {config : JobConfig} {beyond : Beyond} {bioPool : ℕ → Bio}
    {identify : Buf} {iover iover' : Iover} {job job' : IogenJob} {labels : List GenLabel}
    {draws : GenDraws} {well : WellDraws}
    (hinit : iogenJobInit iover.ns config beyond bioPool identify = some job)
    (hpareto : config.slbaType ≠ .pareto)
    (hrun : Run (guarded (GenStep outside config.slba.sectorSize)
      (MeetsFits outside config.slba.sectorSize)) (iover, job) labels (iover', job'))
    (hstep : guarded (GenStep outside config.slba.sectorSize)
      (MeetsFits outside config.slba.sectorSize) (iover', job') (.generate draws well) t) :
    Contained outside config.slba.sectorSize iover' job' draws well := by
  obtain ⟨lbas, hset⟩ := iogenJobInit_setUp hinit
  have hw := hset.wellFormed hpareto
  have hnext := iogenJobInit_slbaNext hinit
  have hfirst : OnPlan iover.ns job.plan (iover, job) :=
    ⟨rfl, rfl, fun _ _ => by rw [hnext]; exact .zero⟩
  obtain ⟨hns, hplan, hstream⟩ := hrun.invariant (fun _ _ _ h hst => h.step hw hst) hfirst
  obtain ⟨hok, hstep⟩ := hstep
  simp only at hns hplan hstream
  rw [← hns, ← hplan] at hw
  rw [← hns] at hstream
  cases hstep with
  | generate hdrawn => exact (generateBio_inRange hw hdrawn hok hstream).1

end Run

/-! ## Aligned starts -/

/-- Reads, and nothing else. -/
def readOperations : BioOpcode → BitVec 32
  | .read => 100
  | _ => 0

/-- `SLBA_TYPE=uniform`, `SLBA_ALIGN=64K` and a range of 128K. -/
def alignedJob (iosize : BitVec 64) : JobConfig :=
  { JobConfig.plain iosize iosize with
    operations := readOperations
    slbaType := .uniform
    slbaAlign := 65536
    lbaRangeSizePercentEnable := false
    lbaRangeSize := 131072 }

/-- The same LBA is drawn in each attempt. -/
def GenDraws.const (slba : ℕ) : GenDraws where
  rand := 0
  jesd219Nlbs := 0
  jesd219Slba := 0
  pract := false
  slba _ := slba
  escape _ _ := false
  tagError := false

/-- No words of `WELLRNG512`. -/
def WellDraws.none : WellDraws where
  group := 0
  rounds := []

theorem createOprLottery_read :
    ∃ lottery, createOprLottery readOperations = some lottery ∧ ∀ k < 100, lottery k = .read :=
  ⟨_, rfl, by decide +kernel⟩

/-- Reads of 64K fit a range of 128K when they start at a multiple of 64K. -/
theorem alignedJob_fits {job : IogenJob} {lbas : IosizeOpcode → LbasEntry}
    (hset : job.SetUp .null (alignedJob 65536) .zero lbas) :
    Fits (fun _ => 0) (alignedJob 65536).slba.sectorSize .null job := by
  have hparams := hset.params
  have htype : job.params.slbaType = .uniform := by rw [hparams]; rfl
  have hsize : job.lbaRangeSize = 32 := by rw [hset.lbaRangeSize]; rfl
  have hread : ∀ op, job.plan.Has .null op → op = .read := by
    rintro op ⟨-, k, hk, rfl⟩
    obtain ⟨lottery, hlottery, hall⟩ := createOprLottery_read
    obtain rfl := Option.some.inj (hset.oprLottery.symm.trans hlottery)
    have hop : job.plan.oprLottery k = .read := hall k hk
    rw [hop]
    rfl
  have hlbas : job.lbas BioOpcode.read.num = { minLbas := 16, lbasDist := 0 } := by
    rw [hset.lbas, tableAt_of_ofNum (i := .total) rfl, (initLbas_spec hset.initLbas).1]
    rfl
  have halign : job.params.iosizeAlign BioOpcode.read.num = 0 := by rw [hparams]; rfl
  have hgives : ∀ n, job.plan.Gives .null .read n → n = 16 := by
    rintro n ⟨q, hq, rfl⟩
    have hrange : job.plan.lbas BioOpcode.read.num = { minLbas := 16, lbasDist := 0 } := hlbas
    have hplan : job.plan.params.iosizeAlign BioOpcode.read.num = 0 := halign
    rw [hrange] at hq ⊢
    rw [JobPlan.alignSize, hplan, if_neg (not_not_intro rfl),
      Nat.le_zero.mp (hq.trans (Nat.min_le_left ..))]
    rfl
  have hno : ∀ {type : SlbaType}, type ≠ .uniform → job.params.slbaType ≠ type :=
    fun hne h => hne (h ▸ htype)
  refine ⟨fun _ op hop => ?_, fun _ op hop => ?_, fun h => absurd h (hno (by decide)),
    fun _ op n hop hn => ?_, fun h => absurd h (hno (by decide)),
    fun h => absurd h (hno (by decide)), fun h => absurd h (hno (by decide)),
    fun h => absurd h (hno (by decide))⟩
  · rw [hread op hop, hlbas]
    decide
  · rw [hread op hop]
    exact .inl halign
  · obtain rfl := hread op hop
    obtain rfl := hgives n hn
    rw [hsize]
    refine ⟨by decide, ?_⟩
    intro x _ hx
    have hslba : job.plan.alignSlba .null x = alignTo 64 x 16 := by
      change (if _ < job.params.slbaAlign then alignTo 64 x job.slbaAlign else x) = _
      rw [hparams, hset.slbaAlign]
      rfl
    have hroom : ∀ x < 16, alignTo 64 x 16 + 16 ≤ 32 := by decide
    change job.plan.alignSlba .null x + 16 ≤ job.lbaRangeSize
    rw [hslba, hsize]
    exact hroom x (by omega)

theorem validate_alignedJob : ∀ iosize ∈ [(4096 : BitVec 64), 65536], ∃ nsis bound,
    validate (.null .none) [alignedJob iosize] = .ok (nsis, [bound]) ∧
      bound.params = alignedJob iosize := by
  simp only [List.forall_mem_cons, List.not_mem_nil, false_implies, implies_true, and_true]
  exact ⟨⟨_, _, rfl, rfl⟩, ⟨_, _, rfl, rfl⟩⟩

/-- Reads of 64K that start at a multiple of 64K are in their range. -/
theorem contained_of_fits_aligned : ∃ nsis bound job,
    validate (.null .none) [alignedJob 65536] = .ok (nsis, [bound]) ∧
      nullJob bound.params = some job ∧
      Contained (fun _ => 0) bound.params.slba.sectorSize .null (iogenJobBegin .null job)
        (.const 17) .none := by
  have hjob : ∃ job, nullJob (alignedJob 65536) = some job := ⟨_, rfl⟩
  obtain ⟨job, hjob⟩ := hjob
  obtain ⟨lbas, hset⟩ := iogenJobInit_setUp hjob
  have hfits := alignedJob_fits hset
  have htype : job.params.slbaType = .uniform := by rw [hset.params]; rfl
  obtain ⟨nsis, bound, hvalidate, hbound⟩ := validate_alignedJob 65536 (by decide)
  refine ⟨nsis, bound, job, hvalidate, hbound ▸ hjob, ?_⟩
  rw [hbound]
  have hinit : iogenJobInit Iover.null.ns (alignedJob 65536) .zero
      (fun _ => .plain .read 0 0 fun _ => 0) (fun _ => 0) = some job := hjob
  refine contained_of_fits hinit (by decide) (.single ⟨?_, .begin .null job⟩)
    ⟨hfits.of_plan rfl fun _ hk => hk, .generate ⟨by decide, ?_, ?_⟩⟩
  · exact True.intro
  · exact fun _ _ => (by decide : 17 < 2 ^ 31)
  · intro hj
    change job.params.slbaType = .jesd219 at hj
    rw [htype] at hj
    cases hj

/-- **The alignment moves a bio out of the range**: with `IOSIZE=4K`, LBA 17 of 32 is drawn and
becomes LBA 32. -/
theorem not_contained_aligned : ∃ nsis bound job,
    validate (.null .none) [alignedJob 4096] = .ok (nsis, [bound]) ∧
      nullJob bound.params = some job ∧
      (GenDraws.const 17).Drawn (fun _ => 0) bound.params.slba.sectorSize .null job .none ∧
      ¬ Contained (fun _ => 0) bound.params.slba.sectorSize .null job (.const 17) .none := by
  have hjob : ∃ job, nullJob (alignedJob 4096) = some job := ⟨_, rfl⟩
  obtain ⟨job, hjob⟩ := hjob
  obtain ⟨lbas, hset⟩ := iogenJobInit_setUp hjob
  have htype : job.params.slbaType = .uniform := by rw [hset.params]; rfl
  have hsize : job.lbaRangeSize = 32 := by rw [hset.lbaRangeSize]; rfl
  have hbegin : job.lbaRangeBegin = 0 := by rw [hset.lbaRangeBegin]; rfl
  obtain ⟨nsis, bound, hvalidate, hbound⟩ := validate_alignedJob 4096 (by decide)
  refine ⟨nsis, bound, job, hvalidate, hbound ▸ hjob, ?_⟩
  rw [hbound]
  refine ⟨⟨by decide, fun _ _ => (by decide : 17 < 2 ^ 31), ?_⟩, ?_⟩
  · intro hj
    rw [htype] at hj
    cases hj
  · intro h
    have hgen : ((nullJob (alignedJob 4096)).map fun job =>
        let out := generateBio .null job (.const 17)
        (out.1, (out.2.2.bioPool 0).opcode, (out.2.2.bioPool 0).slba,
          (out.2.2.bioPool 0).nlbs)) = some (some 0, .read, 32, 1) := by decide +kernel
    rw [hjob, Option.map_some] at hgen
    cases hout : generateBio .null job (.const 17) with
    | mk id out =>
      rw [hout] at hgen
      simp only [Option.some.injEq, Prod.mk.injEq] at hgen
      obtain ⟨rfl, hop, hslba, hnlbs⟩ := hgen
      have hle := (h.contains 0 out.1 out.2 hout (hop ▸ by decide)).le_end
      rw [hslba, hnlbs] at hle
      change 32 + 1 ≤ job.lbaRangeBegin + job.lbaRangeSize at hle
      rw [hbegin, hsize] at hle
      exact absurd hle (by decide)

end ChamberSpo

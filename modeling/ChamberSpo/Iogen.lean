import ChamberSpo.NamespaceRun
import ChamberSpo.StaleData

/-!
# The workload generator

What `iogen.c` does to a job: it takes bios from the free list of the job's pool, puts them in
flight, and takes them back when they complete.

* `generateBio` — a bio for the next command, with up to three attempts to lock its range.
* `bioEnd` — the completion of a bio, which hands it to `ioverSubmit`.
* `iogenJobReinit`, `iogenJobBegin`, `iogenJobShouldStop`, `iogenJobEnd` — the rest of a job.

Everything that is drawn at random is an argument (`GenDraws`). `generateBio_generates` connects
this module to `Ns.Step`: what comes out of `generateBio` is what the interleaving of jobs issues.
-/

namespace ChamberSpo

open Bitmap

/-! ## Jobs -/

/-- `enum iogen_job_state` -/
inductive IogenJobState where
  | init
  | waiting
  | running
  | done
  | reset
  | aborting
  | aborted
  deriving DecidableEq, Repr

/-- The value of `iogen_job_state_done`. -/
def IogenJobState.doneNum : ℕ := 3

/-- `enum iogen_state` -/
inductive IogenState where
  | init
  | running
  | done
  | aborting
  | aborted
  deriving DecidableEq, Repr

/-- The state that a number stands for. -/
def IogenState.ofNum : ℕ → IogenState
  | 0 => .init
  | 1 => .running
  | 2 => .done
  | 3 => .aborting
  | _ => .aborted

/-- An entry of `lbas`: how many LBAs the bios of an opcode have. -/
structure LbasRange where
  minLbas : ℕ
  lbasDist : ℕ

/-- `struct iogen_job`, with `state` and `result` of the generator it belongs to. -/
structure IogenJob where
  params : JobParams
  state : IogenJobState
  /-- `iogen->state` -/
  iogenState : IogenState
  oprLottery : ℕ → BioOpcode
  lbas : ℕ → LbasRange
  slbaAlign : ℕ
  lbaRangeBegin : ℕ
  lbaRangeSize : ℕ
  slbaNext : Fin 2 → ℕ
  replayHistIdx : BitVec 32
  replayHistCnt : BitVec 32
  bioPool : ℕ → Bio
  /-- the numbers of the bios on the list, first to last -/
  bioFree : List ℕ
  bioInflight : List ℕ
  numInflight : ℕ
  sumOps : ℕ
  sumBytes : ℕ
  timeout : Bool
  /-- `identify`, `identify_valid` and `iogen->result` -/
  view : JobView

/-- What a call of `generate_bio` draws. -/
structure GenDraws where
  /-- `rand48` -/
  rand : ℕ
  /-- `jesd219_nlbs` and `jesd219_slba` -/
  jesd219Nlbs : ℕ
  jesd219Slba : ℕ
  /-- whether the draw for the protection information is below `pract` -/
  pract : Bool
  /-- the draws of an attempt: `rand48` or `hash64(rng_zipf_int)`, and the blocks to escape -/
  slba : ℕ → ℕ
  escape : ℕ → ℕ → Bool
  /-- whether the draw for an injected tag error is below its rate -/
  tagError : Bool

/-! ## Generating a bio -/

/-- `ALIGN`, for a variable of `w` bits. -/
def alignTo (w x a : ℕ) : ℕ :=
  let mask : BitVec w := BitVec.ofNat w a - 1
  ((BitVec.ofNat w x + mask) &&& ~~~mask).toNat

/-- The number of LBAs that `generate_bio` chooses, a `u32`. -/
def chooseNlbs (iover : Iover) (job : IogenJob) (opcode : BioOpcode) (draws : GenDraws) : ℕ :=
  if job.params.slbaType = .jesd219 then draws.jesd219Nlbs % 2 ^ 32
  else
    let range := job.lbas opcode.num
    let nlbs := if 0 < range.lbasDist then
        (range.minLbas + draws.rand / 2 ^ 7 % (range.lbasDist + 1)) % 2 ^ 32
      else range.minLbas % 2 ^ 32
    let align := job.params.iosizeAlign opcode.num
    if align ≠ 0 then alignTo 32 nlbs (align / 2 ^ iover.ns.lbaShift) else nlbs

/-- The sizes and the protection information of a bio, before its LBA is chosen. -/
def sizeBio (iover : Iover) (job : IogenJob) (draws : GenDraws) (bio : Bio) : Bio :=
  let opcode := if bio.opcode = .writeUncorrect ∧ iover.ns.lbaShift = 9 then .write else bio.opcode
  let nlbs := chooseNlbs iover job opcode draws
  let protected' := decide (iover.ns.piType ≠ 0 ∧ iover.ns.metaSize ≠ 0)
  let pract := protected' && draws.pract
  let iosize := nlbs * 2 ^ iover.ns.lbaShift % 2 ^ 32
  let metaBytes := nlbs * iover.ns.metaSize % 2 ^ 32
  let stripped := pract && iover.ns.metaSize == 8
  { bio with
    opcode := opcode
    nlbs := nlbs
    iosize := if !stripped && iover.ns.extendedLba then iosize + metaBytes else iosize
    pract := pract
    prchk := if protected' then job.params.prchk else 0
    metaSize := if !stripped && !iover.ns.extendedLba then metaBytes else 0 }

/-- Whether `history_slba` finds no entry to replay. -/
def historyEnd (iover : Iover) (job : IogenJob) : Bool :=
  (iover.histDesc job.replayHistIdx.toNat).lba == 0xFFFFFFFFFFFFFFFF || job.replayHistCnt == 0

/-- The job once `history_slba` has taken an entry. -/
def historyNext (iover : Iover) (job : IogenJob) : IogenJob :=
  { job with
    replayHistIdx := if job.replayHistIdx = 0 then iover.header.nhist - 1
      else job.replayHistIdx - 1
    replayHistCnt := job.replayHistCnt - 1
    -- the constant is one of the states of a job
    iogenState := if job.replayHistCnt - 1 = 0 then .ofNum IogenJobState.doneNum
      else job.iogenState }

/-- `history_slba` -/
def historySlba (iover : Iover) (job : IogenJob) (bio : Bio) : IogenJob × Bio :=
  if historyEnd iover job then ({ job with iogenState := .done }, { bio with opcode := .flush })
  else
    (historyNext iover job, { bio with
      opcode := .read
      nlbs := 1
      slba := (iover.histDesc job.replayHistIdx.toNat).lba.toNat
      histIdx := job.replayHistIdx.toNat })

/-- The next LBA of a sequential job; `false` when a stream of reads has caught up with the
writes. -/
def seqSlba (job : IogenJob) (bio : Bio) : Bool × IogenJob × Bio :=
  let stream : Fin 2 := if job.params.separateStream ∧ bio.opcode = .read then 1 else 0
  let slba := job.slbaNext stream
  let slba := if job.lbaRangeSize < (slba + bio.nlbs) % 2 ^ 64 then 0 else slba
  let next := (slba + bio.nlbs) % 2 ^ 64
  let ok := !(stream == 1 && job.slbaNext 0 ≤ next)
  (ok, { job with
      slbaNext := if ok then Function.update job.slbaNext stream next else job.slbaNext },
    { bio with slba := slba })

/-- The `switch` over the slba type; `false` when it makes `generate_bio` return `NULL`. -/
def chooseSlba (iover : Iover) (job : IogenJob) (bio : Bio) (draw jesd219Slba : ℕ) :
    Bool × IogenJob × Bio :=
  match job.params.slbaType with
  | .seq => seqSlba job bio
  | .uniform | .zipf =>
    (true, job, { bio with
      slba := draw % ((job.lbaRangeSize + 2 ^ 64 - bio.nlbs) % 2 ^ 64) })
  | .pareto => (true, job, bio)
  | .fixed => (true, job, { bio with slba := job.params.fixedLba })
  | .jesd219 => (true, job, { bio with slba := jesd219Slba })
  | .replay =>
    let (job, bio) := historySlba iover job bio
    (true, job, bio)

/-- What `generate_bio` has when it comes to its end. -/
structure Gen where
  /-- `false` when it returns `NULL` -/
  ready : Bool
  iover : Iover
  job : IogenJob
  bio : Bio

/-- The alignment and the base of the range. -/
def placeBio (iover : Iover) (job : IogenJob) (bio : Bio) : Bio :=
  let slba := if iover.ns.dataSize < job.params.slbaAlign then alignTo 64 bio.slba job.slbaAlign
    else bio.slba
  { bio with slba := (slba + job.lbaRangeBegin) % 2 ^ 64 }

/-- What follows the loop of `generate_bio`. -/
def measureBio (iover : Iover) (job : IogenJob) (draws : GenDraws) (bio : Bio) : IogenJob × Bio :=
  ({ job with sumBytes := job.sumBytes + bio.iosize },
    { bio with
      offset := bio.slba * 2 ^ iover.ns.lbaShift % 2 ^ 64
      dataSize := bio.iosize
      streamId := if bio.opcode = .write then
          if job.params.numStreams = 0 then 0
          else 1 + draws.rand / 2 ^ 17 % job.params.numStreams
        else bio.streamId })

/-- The loop of `generate_bio`, with the attempts that are left. -/
def generateLoop (draws : GenDraws) : ℕ → Iover → IogenJob → Bio → Gen
  | 0, iover, job, bio => ⟨false, iover, job, bio⟩
  | left + 1, iover, job, bio =>
    let (ok, job, bio) := chooseSlba iover job bio (draws.slba left) draws.jesd219Slba
    if ok = false then ⟨false, iover, job, bio⟩
    else if job.params.slbaType = .replay ∧ bio.opcode = .flush then
      ⟨true, iover, job, { bio with nlbs := 0, iosize := 0 }⟩
    else
      let bio := placeBio iover job bio
      let (res, iover, bio) := ioverGenerateData iover job.params bio (draws.escape left)
      if res ≠ 0 then generateLoop draws left iover job bio
      else
        let (job, bio) := measureBio iover job draws bio
        ⟨true, iover, job, bio⟩

/-- The exit of `generate_bio`: whether the command is meant to fail. -/
def dressBio (iover : Iover) (job : IogenJob) (draws : GenDraws) (bio : Bio) : Bio :=
  if bio.opcode.num < BioOpcode.identify.num ∧ iover.ns.piType ≠ 0 ∧ job.params.injectTagError ∧
      draws.tagError ∧ (bio.pract = false ∨ bio.opcode = .read) then
    { bio with timeout := false, expectedResult := -1, apptag := bio.apptag ^^^ 0x5555 }
  else { bio with timeout := false, expectedResult := 0 }

/-- `generate_bio` from the choice of the opcode to its exit. -/
def fillBio (iover : Iover) (job : IogenJob) (draws : GenDraws) (bio : Bio) : Gen :=
  let bio := { bio with histIdx := noHistIdx, opcode := job.oprLottery (draws.rand % 100) }
  if bio.opcode = .flush then ⟨true, iover, job, { bio with nlbs := 0, iosize := 0 }⟩
  else generateLoop draws 3 iover job (sizeBio iover job draws bio)

/-- `generate_bio`: the number of the bio, `none` when it returns `NULL`. It is called with a bio
on the free list. -/
def generateBio (iover : Iover) (job : IogenJob) (draws : GenDraws) :
    Option ℕ × Iover × IogenJob :=
  match job.bioFree with
  | [] => (none, iover, job)
  | id :: rest =>
    let gen := fillBio iover job draws (job.bioPool id)
    if gen.ready then
      (some id, gen.iover, { gen.job with
        sumOps := gen.job.sumOps + 1
        bioPool := Function.update job.bioPool id (dressBio iover job draws gen.bio)
        bioFree := rest })
    else (none, gen.iover, { gen.job with bioPool := Function.update job.bioPool id gen.bio })

/-! ## What comes out of it -/

/-- Generating a bio leaves the lists, the pool and the rest of the job in place. -/
structure IogenJob.SamePool (a b : IogenJob) : Prop where
  params : b.params = a.params
  bioPool : b.bioPool = a.bioPool
  bioFree : b.bioFree = a.bioFree
  bioInflight : b.bioInflight = a.bioInflight
  numInflight : b.numInflight = a.numInflight
  view : b.view = a.view

theorem IogenJob.SamePool.refl (a : IogenJob) : a.SamePool a := ⟨rfl, rfl, rfl, rfl, rfl, rfl⟩

theorem IogenJob.SamePool.trans {a b c : IogenJob} (h : a.SamePool b) (h' : b.SamePool c) :
    a.SamePool c :=
  ⟨h'.params.trans h.params, h'.bioPool.trans h.bioPool, h'.bioFree.trans h.bioFree,
    h'.bioInflight.trans h.bioInflight, h'.numInflight.trans h.numInflight, h'.view.trans h.view⟩

section Generate

variable {iover : Iover} {job : IogenJob} {bio : Bio} {draws : GenDraws}

theorem alignTo_lt (w x a : ℕ) : alignTo w x a < 2 ^ w := BitVec.isLt _

theorem chooseNlbs_lt (iover : Iover) (job : IogenJob) (opcode : BioOpcode) (draws : GenDraws) :
    chooseNlbs iover job opcode draws < 2 ^ 32 := by
  have hmod : ∀ n : ℕ, n % 2 ^ 32 < 2 ^ 32 := fun n => Nat.mod_lt _ (by decide)
  rw [chooseNlbs]
  split
  · exact hmod _
  · simp only
    split
    · exact alignTo_lt _ _ _
    · split <;> exact hmod _

/-- What an attempt starts from: a `u32` of LBAs, and an opcode and a history entry that belong to
the job. -/
structure Choice (params : JobParams) (bio : Bio) : Prop where
  nlbs_lt : bio.nlbs < 2 ^ 32
  replay : params.slbaType = .replay → bio.opcode = .read ∨ bio.opcode = .flush
  noFlush : params.slbaType ≠ .replay → bio.opcode ≠ .flush
  histIdx : params.slbaType ≠ .replay → bio.histIdx = noHistIdx

theorem historySlba_samePool (iover : Iover) (job : IogenJob) (bio : Bio) :
    job.SamePool (historySlba iover job bio).1 := by
  simp only [historySlba]
  split
  · exact ⟨rfl, rfl, rfl, rfl, rfl, rfl⟩
  · exact ⟨rfl, rfl, rfl, rfl, rfl, rfl⟩

/-- `history_slba` makes a bio a read of one LBA or a flush. -/
theorem historySlba_bio (iover : Iover) (job : IogenJob) (bio : Bio) :
    (historySlba iover job bio).2.opcode = .flush ∧
        (historySlba iover job bio).2.nlbs = bio.nlbs ∨
      (historySlba iover job bio).2.opcode = .read ∧ (historySlba iover job bio).2.nlbs = 1 := by
  simp only [historySlba]
  split
  · exact .inl ⟨rfl, rfl⟩
  · exact .inr ⟨rfl, rfl⟩

/-- **An attempt** leaves the pool alone and keeps what it started from. -/
theorem chooseSlba_spec (iover : Iover) (draw jesd219Slba : ℕ) (hn : bio.nlbs < 2 ^ 32)
    (hop : job.params.slbaType ≠ .replay → bio.opcode ≠ .flush ∧ bio.histIdx = noHistIdx) :
    job.SamePool (chooseSlba iover job bio draw jesd219Slba).2.1 ∧
      Choice job.params (chooseSlba iover job bio draw jesd219Slba).2.2 := by
  have hkeep : ∀ slba, job.params.slbaType ≠ .replay →
      Choice job.params { bio with slba := slba } := fun slba hr =>
    ⟨hn, fun h => absurd h hr, fun _ => (hop hr).1, fun _ => (hop hr).2⟩
  simp only [chooseSlba]
  cases htype : job.params.slbaType with
  | seq => exact ⟨⟨rfl, rfl, rfl, rfl, rfl, rfl⟩, hkeep _ (by rw [htype]; decide)⟩
  | replay =>
    refine ⟨historySlba_samePool iover job bio, ?_, ?_, fun h => absurd htype h,
      fun h => absurd htype h⟩
    · rcases historySlba_bio iover job bio with ⟨-, h⟩ | ⟨-, h⟩
      · exact h ▸ hn
      · exact h ▸ by decide
    · intro _
      rcases historySlba_bio iover job bio with ⟨h, -⟩ | ⟨h, -⟩
      · exact .inr h
      · exact .inl h
  | _ => exact ⟨.refl _, hkeep _ (by rw [htype]; decide)⟩

/-- What is filled in after the range is locked does not change the command or its buffers. -/
theorem Generates.dress {iover' : Iover} {params : JobParams} {bio' : Bio}
    (h : Generates iover params iover' bio) (hio : bio.SameIo bio') :
    Generates iover params iover' bio' := by
  rcases h with ⟨before, escape, filled, hn, hop, hgen, hfilled⟩ | ⟨hop, hnlbs, hsame⟩
  · exact .inl ⟨before, escape, filled, hn, hop, hgen, hfilled.trans hio⟩
  · exact .inr ⟨hio.opcode.trans hop, hio.nlbs.trans hnlbs, hsame⟩

/-- What `generate_bio` may have at its end: a bio of the job, which is generated as in `Ns.Step`,
or none, and then the verifier is as it was. -/
structure Gen.Spec (g : Gen) (iover : Iover) (job : IogenJob) : Prop where
  pool : job.SamePool g.job
  ready : g.ready = true → Generates iover job.params g.iover g.bio ∧ job.params.Issues g.bio
  failed : g.ready = false → g.iover = iover

/-- **The attempts of `generate_bio`**: those that fail leave the verifier as it was, and the one
that succeeds generates a bio of the job. -/
theorem generateLoop_spec (draws : GenDraws) (left : ℕ) (hn : bio.nlbs < 2 ^ 32)
    (hop : job.params.slbaType ≠ .replay → bio.opcode ≠ .flush ∧ bio.histIdx = noHistIdx) :
    (generateLoop draws left iover job bio).Spec iover job := by
  induction left generalizing job bio with
  | zero => exact ⟨.refl _, nofun, fun _ => rfl⟩
  | succ left ih =>
    obtain ⟨hpool, hchoice⟩ :=
      chooseSlba_spec iover (draws.slba left) draws.jesd219Slba hn hop
    rw [generateLoop]
    generalize chooseSlba iover job bio (draws.slba left) draws.jesd219Slba = c at hpool hchoice
    obtain ⟨ok, job', bio'⟩ := c
    simp only at hpool hchoice ⊢
    by_cases hok : ok = false
    · rw [if_pos hok]
      exact ⟨hpool, nofun, fun _ => rfl⟩
    rw [if_neg hok]
    by_cases hend : job'.params.slbaType = .replay ∧ bio'.opcode = .flush
    · rw [if_pos hend]
      exact ⟨hpool, fun _ => ⟨.inr ⟨hend.2, rfl, rfl⟩, fun _ => .inr hend.2,
        fun hr => absurd (hpool.params ▸ hend.1) hr⟩, nofun⟩
    rw [if_neg hend]
    -- the range of a read or of a command of another job is to be locked
    have hflush : bio'.opcode ≠ .flush := by
      by_cases hr : job.params.slbaType = .replay
      · exact fun h => hend ⟨hpool.params ▸ hr, h⟩
      · exact hchoice.noFlush hr
    have hn' : (placeBio iover job' bio').nlbs < 2 ^ 32 := hchoice.nlbs_lt
    cases hgen : ioverGenerateData iover job'.params (placeBio iover job' bio')
      (draws.escape left) with
    | mk res out =>
      obtain ⟨iover', filled⟩ := out
      by_cases hres : res = 0
      · subst hres
        have hsame := ioverGenerateData_sameCommand hn' hgen
        rw [hpool.params] at hgen
        simp only [ne_eq, not_true_eq_false, if_false]
        refine ⟨⟨hpool.params, hpool.bioPool, hpool.bioFree, hpool.bioInflight, hpool.numInflight,
          hpool.view⟩, fun _ => ⟨.inl ⟨placeBio iover job' bio', _, filled, hn', hflush, hgen,
            rfl, rfl, rfl, rfl, rfl, rfl, rfl, rfl⟩, fun hr => ?_, fun hr => ?_⟩, nofun⟩
        · exact (hchoice.replay hr).imp hsame.opcode.trans hsame.opcode.trans
        · exact hsame.histIdx.trans (hchoice.histIdx hr)
      · have hout := ioverGenerateData_failed hn' hgen hres
        obtain rfl : iover' = iover := congrArg Prod.fst hout
        obtain rfl : filled = placeBio iover' job' bio' := congrArg Prod.snd hout
        have hnext : (generateLoop draws left iover' job' (placeBio iover' job' bio')).Spec iover'
            job' := ih hchoice.nlbs_lt fun hr =>
          ⟨hflush, hchoice.histIdx (hpool.params ▸ hr)⟩
        have hready := hnext.ready
        rw [hpool.params] at hready
        simp only [ne_eq, hres, not_false_eq_true, if_true]
        exact ⟨hpool.trans hnext.pool, hready, hnext.failed⟩

/-- A bio of the lottery: a flush, or what the attempts make of it. -/
theorem fillBio_spec (iover : Iover) (job : IogenJob) (draws : GenDraws) (bio : Bio) :
    (fillBio iover job draws bio).Spec iover job := by
  rw [fillBio]
  simp only
  split
  · rename_i hop
    exact ⟨.refl _, fun _ => ⟨.inr ⟨hop, rfl, rfl⟩, fun _ => .inr hop, fun _ => rfl⟩, nofun⟩
  · rename_i hop
    refine generateLoop_spec draws 3 (chooseNlbs_lt ..) fun _ => ⟨?_, rfl⟩
    simp only [sizeBio]
    split
    · decide
    · exact hop

/-- The exit of `generate_bio` leaves the command as it is. -/
theorem dressBio_sameIo (iover : Iover) (job : IogenJob) (draws : GenDraws) (bio : Bio) :
    bio.SameIo (dressBio iover job draws bio) := by
  simp only [dressBio]
  split <;> exact ⟨rfl, rfl, rfl, rfl, rfl, rfl, rfl, rfl⟩

/-- **What `generate_bio` returns**: the first bio of the free list, filled in the pool as a bio of
the job. -/
theorem generateBio_some {iover' : Iover} {job' : IogenJob} {id : ℕ}
    (h : generateBio iover job draws = (some id, iover', job')) :
    ∃ rest, job.bioFree = id :: rest ∧ job'.bioFree = rest ∧
      (∀ j, j ≠ id → job'.bioPool j = job.bioPool j) ∧
      job'.params = job.params ∧ job'.bioInflight = job.bioInflight ∧
      job'.numInflight = job.numInflight ∧ job'.view = job.view ∧
      Generates iover job.params iover' (job'.bioPool id) ∧
      job.params.Issues (job'.bioPool id) := by
  rw [generateBio] at h
  split at h
  · cases h
  · rename_i id' rest hfree
    have hspec := fillBio_spec iover job draws (job.bioPool id')
    generalize fillBio iover job draws (job.bioPool id') = gen at h hspec
    simp only at h
    split at h
    · rename_i hready
      simp only [Prod.mk.injEq, Option.some.injEq] at h
      obtain ⟨rfl, rfl, rfl⟩ := h
      obtain ⟨hgen, hissues⟩ := hspec.ready hready
      have hio := dressBio_sameIo iover job draws gen.bio
      refine ⟨rest, hfree, rfl, fun j hj => Function.update_of_ne hj .., hspec.pool.params,
        hspec.pool.bioInflight, hspec.pool.numInflight, hspec.pool.view, ?_, ?_⟩
      · simp only [Function.update_self]
        exact hgen.dress hio
      · simp only [Function.update_self]
        exact ⟨fun hr => (hissues.replay hr).imp hio.opcode.trans hio.opcode.trans,
          fun hr => hio.histIdx.trans (hissues.histIdx hr)⟩
    · cases h

/-- When it returns `NULL`, the verifier is as it was, and so is the job but for the first bio of
the free list. -/
theorem generateBio_none {iover' : Iover} {job' : IogenJob}
    (h : generateBio iover job draws = (none, iover', job')) :
    iover' = iover ∧ job'.params = job.params ∧ job'.bioFree = job.bioFree ∧
      job'.bioInflight = job.bioInflight ∧ job'.numInflight = job.numInflight ∧
      job'.view = job.view ∧ ∀ id, id ∉ job.bioFree → job'.bioPool id = job.bioPool id := by
  rw [generateBio] at h
  split at h
  · simp only [Prod.mk.injEq, true_and] at h
    obtain ⟨rfl, rfl⟩ := h
    exact ⟨rfl, rfl, rfl, rfl, rfl, rfl, fun _ _ => rfl⟩
  · rename_i id' rest hfree
    have hspec := fillBio_spec iover job draws (job.bioPool id')
    generalize fillBio iover job draws (job.bioPool id') = gen at h hspec
    simp only at h
    split at h
    · cases h
    · rename_i hready
      simp only [Prod.mk.injEq, true_and] at h
      obtain ⟨rfl, rfl⟩ := h
      refine ⟨hspec.failed (Bool.eq_false_iff.mpr hready), hspec.pool.params, hspec.pool.bioFree,
        hspec.pool.bioInflight, hspec.pool.numInflight, hspec.pool.view, fun id hid => ?_⟩
      refine Function.update_of_ne ?_ ..
      rintro rfl
      exact hid (hfree ▸ List.mem_cons_self)

end Generate

/-! ## In flight and back -/

/-- A bio is put in flight. -/
def startBio (job : IogenJob) (id : ℕ) : IogenJob :=
  { job with bioInflight := id :: job.bioInflight, numInflight := job.numInflight + 1 }

/-- What a test of `spor_level` 3 does to the descriptors of a write that it submits. -/
def demoteWrite (spor3 : Bool) (iover : Iover) (params : JobParams) (bio : Bio) : Option Iover :=
  if spor3 ∧ bio.opcode = .write then commitBlockStateUnwritten iover params bio else some iover

/-- `iogen_job_runner` once the engine took the bio; `none` when the process exits. -/
def enqueueBio (spor3 : Bool) (iover : Iover) (job : IogenJob) (id : ℕ) :
    Option (Iover × IogenJob) := do
  let iover ← backupHistState iover job.params (job.bioPool id)
  let iover ← demoteWrite spor3 iover job.params (job.bioPool id)
  return (iover, startBio job id)

/-- The device's answer, as `bio_end` finds it in the pool. -/
def answerBio (job : IogenJob) (id : ℕ) (bio : Bio) : IogenJob :=
  { job with bioPool := Function.update job.bioPool id bio }

/-- A bio goes from the list of those in flight back to the free ones. -/
def releaseBio (job : IogenJob) (id : ℕ) : IogenJob :=
  { job with
    bioInflight := job.bioInflight.erase id
    bioFree := id :: job.bioFree
    numInflight := job.numInflight - 1 }

/-- `bio_end`; `none` when the process exits. -/
def bioEnd (iover : Iover) (job : IogenJob) (id : ℕ) : Option (Iover × IogenJob) :=
  if (job.bioPool id).opcode.num ≤ BioOpcode.identify.num then do
    let r ← ioverSubmit iover job.params job.view (job.bioPool id)
    if r.res ≠ 0 then none
    else return (r.iover, releaseBio { job with view := r.job } id)
  else some (iover, releaseBio job id)

/-- `iogen_job_reinit`, once the engine is up again: every bio is free. The buffers, which it
clears too, are filled again before they are used. -/
def iogenJobReinit (job : IogenJob) : IogenJob :=
  { job with
    bioFree := List.range job.params.iodepth
    bioInflight := []
    numInflight := 0
    slbaNext := if job.params.slbaType = .seq then fun _ => job.params.fixedLba else job.slbaNext }

/-- Submitting a bio changes the history and the descriptors. -/
theorem enqueueBio_iover {spor3 : Bool} {iover iover' : Iover} {job job' : IogenJob} {id : ℕ}
    (h : enqueueBio spor3 iover job id = some (iover', job')) :
    (∃ hd hdr bd, iover' = { iover with histDesc := hd, header := hdr, blockDesc := bd }) ∧
      job' = startBio job id := by
  simp only [enqueueBio, Option.bind_eq_bind, Option.bind_eq_some_iff, Option.pure_def,
    Option.some.injEq, Prod.mk.injEq] at h
  obtain ⟨iover₁, hback, iover₂, hdemote, rfl, rfl⟩ := h
  obtain ⟨hd, hdr, rfl⟩ := backupHistState_sameButHist hback
  refine ⟨⟨hd, hdr, ?_⟩, rfl⟩
  simp only [demoteWrite] at hdemote
  split at hdemote
  · obtain ⟨bd, rfl, -⟩ := commitBlockStateUnwritten_spec hdemote
    exact ⟨bd, rfl⟩
  · obtain rfl := Option.some.inj hdemote
    exact ⟨iover.blockDesc, rfl⟩

/-- Submitting a bio does not touch the lock. -/
theorem enqueueBio_spec {spor3 : Bool} {iover iover' : Iover} {job job' : IogenJob} {id : ℕ}
    (h : enqueueBio spor3 iover job id = some (iover', job')) :
    iover'.lbaLock = iover.lbaLock ∧ job' = startBio job id := by
  obtain ⟨⟨hd, hdr, bd, rfl⟩, hjob⟩ := enqueueBio_iover h
  exact ⟨rfl, hjob⟩

/-- A bio that ends is released, once the verifier has looked at it. -/
theorem bioEnd_cases {iover iover' : Iover} {job job' : IogenJob} {id : ℕ}
    (h : bioEnd iover job id = some (iover', job')) :
    ((job.bioPool id).opcode.num ≤ BioOpcode.identify.num ∧ ∃ r,
        submitTail (submitUnlock iover job.params (job.bioPool id)) job.params job.view
          (job.bioPool id) = some r ∧
        iover' = r.iover ∧ job' = releaseBio { job with view := r.job } id) ∨
      (BioOpcode.identify.num < (job.bioPool id).opcode.num ∧ iover' = iover ∧
        job' = releaseBio job id) := by
  simp only [bioEnd] at h
  split at h
  · rename_i hop
    simp only [Option.bind_eq_bind, Option.bind_eq_some_iff, Option.pure_def] at h
    obtain ⟨r, hsubmit, h⟩ := h
    split at h
    · cases h
    · simp only [Option.some.injEq, Prod.mk.injEq] at h
      exact .inl ⟨hop, r, hsubmit, h.1.symm, h.2.symm⟩
  · rename_i hop
    simp only [Option.some.injEq, Prod.mk.injEq] at h
    exact .inr ⟨Nat.not_le.mp hop, h.1.symm, h.2.symm⟩

/-- **What `bio_end` does to the lock and the lists.** -/
theorem bioEnd_spec {iover iover' : Iover} {job job' : IogenJob} {id : ℕ}
    (ho : job.params.lbaOverlap = false) (hn : (job.bioPool id).nlbs < 2 ^ 32)
    (h : bioEnd iover job id = some (iover', job')) :
    bits iover'.lbaLock = (if (job.bioPool id).opcode.num ≤ BioOpcode.identify.num then
        bits iover.lbaLock \ lockBits (job.bioPool id).slba (job.bioPool id).nlbs
      else bits iover.lbaLock) ∧
      job'.params = job.params ∧ job'.bioPool = job.bioPool ∧
      job'.bioInflight = job.bioInflight.erase id ∧ job'.bioFree = id :: job.bioFree := by
  rcases bioEnd_cases h with ⟨hop, r, hsubmit, rfl, rfl⟩ | ⟨hop, rfl, rfl⟩
  · have hlock := (submitTail_sameCore hsubmit).lbaLock
    rw [submitUnlock, ho, if_neg Bool.false_ne_true] at hlock
    rw [if_pos hop, hlock]
    exact ⟨bits_unlockLbas hn _ _, rfl, rfl, rfl, rfl⟩
  · rw [if_neg (Nat.not_le.mpr hop)]
    exact ⟨rfl, rfl, rfl, rfl, rfl⟩

/-! ## A job from begin to end -/

/-- `iogen_job_begin`, when the engine is ready. -/
def iogenJobBegin (iover : Iover) (job : IogenJob) : IogenJob :=
  if 0 < iover.ns.nhist then
    { job with
      state := .running
      replayHistIdx := iover.header.histIdx
      replayHistCnt := iover.header.nhist }
  else { job with state := .running }

/-- `iogen_job_should_stop` -/
def iogenJobShouldStop (job : IogenJob) : Bool × IogenJob :=
  if job.iogenState ≠ .running then (true, { job with state := .aborting })
  else match job.params.amount with
  | .time => (job.timeout, job)
  | .io ios => (ios ≤ job.sumOps, job)
  | .byte bytes => (bytes ≤ job.sumBytes, job)
  | .infinite => (false, job)

/-- `iogen_job_end` -/
def iogenJobEnd (job : IogenJob) : IogenJob :=
  { job with state := if job.state = .aborting then .aborted else .done }

end ChamberSpo

import ChamberSpo.Acct
import ChamberSpo.Iogen
import ChamberSpo.Params
import ChamberSpo.Transition

/-!
# The remaining time of a job

`iogen_job_eta` estimates how long a job will still run, from its amount and what it has generated
so far. The thread of the job counts each command when it generates it, and compares the counters
with the amount before the next one.

* `iogenJobEta` — the estimate, in seconds.
* `EtaStep` — the thread of the job, as far as the estimate sees it.
* `EtaJob.EtaExact` — no difference is below zero, and nothing is cut off.
-/

namespace ChamberSpo

/-! ## The estimate -/

/-- What `iogen_job_eta` and `iogen_job_should_stop` read of a job. -/
structure EtaJob where
  amountType : AmountType
  /-- the union of `seconds`, `ios` and `bytes` -/
  amount : BitVec 64
  state : IogenJobState
  /-- `iogen->state` -/
  iogenState : IogenState
  timeout : Bool
  beginTs : Timespec
  /-- `acct.sum.ops` -/
  ops : BitVec 64
  /-- `acct.sum.bytes` -/
  bytes : BitVec 64

/-- `U32_MAX` -/
def u32Max : BitVec 32 := BitVec.allOnes 32

/-- `elapsed_seconds` -/
def EtaJob.elapsedSeconds (job : EtaJob) (nowTs : Timespec) : BitVec 32 :=
  (timespecSub nowTs job.beginTs / nsecPerSec).setWidth 32

/-- The estimate for an amount of commands or of bytes, with the counter of them. -/
def etaByRate (amount progress : BitVec 64) (elapsedSeconds : BitVec 32) : BitVec 32 :=
  if 0 < elapsedSeconds then
    let rate := progress / elapsedSeconds.setWidth 64
    if 0 < rate then ((amount - progress) / rate).setWidth 32 else u32Max
  else u32Max

/-- `iogen_job_eta` -/
def iogenJobEta (job : EtaJob) (nowTs : Timespec) : BitVec 32 :=
  if job.state = .running then
    let elapsedSeconds := job.elapsedSeconds nowTs
    match job.amountType with
    | .time =>
      if job.amount < elapsedSeconds.setWidth 64 then u32Max
      else (job.amount - elapsedSeconds.setWidth 64).setWidth 32
    | .io => etaByRate job.amount job.ops elapsedSeconds
    | .byte => etaByRate job.amount job.bytes elapsedSeconds
    | .infinite => u32Max
  else u32Max

/-- `iogen_job_should_stop` -/
def EtaJob.shouldStop (job : EtaJob) : Bool × EtaJob :=
  if job.iogenState ≠ .running then (true, { job with state := .aborting })
  else match job.amountType with
  | .time => (job.timeout, job)
  | .io => (job.amount ≤ job.ops, job)
  | .byte => (job.amount ≤ job.bytes, job)
  | .infinite => (false, job)

/-! ## The thread of the job -/

/-- Where `iogen_job_runner` stands. -/
inductive EtaPc where
  /-- before `iogen_job_should_stop` -/
  | loop
  | body
  | resetting
  /-- it has generated a bio -/
  | taken
  /-- the loop is over, and bios are in flight -/
  | leaving
  | ended
  deriving DecidableEq, Repr

structure EtaRun where
  job : EtaJob
  pc : EtaPc

inductive EtaLabel where
  | enter
  | reset
  | resume
  | generate (iosize : BitVec 64)
  | pass
  | next
  | stop
  | leave
  | finish
  | timer
  | iogen (state : IogenState)

/-- `iogen_job_runner`, and what other threads write -/
inductive EtaStep : EtaRun → EtaLabel → EtaRun → Prop
  | enter {job job' : EtaJob} :
    job.shouldStop = (false, job') → EtaStep ⟨job, .loop⟩ .enter ⟨job', .body⟩
  | reset (job : EtaJob) :
    EtaStep ⟨job, .body⟩ .reset ⟨{ job with state := .reset }, .resetting⟩
  | resume (job : EtaJob) :
    EtaStep ⟨job, .resetting⟩ .resume ⟨{ job with state := .running }, .body⟩
  /-- `generate_bio`; the `iosize` of a flush is 0 -/
  | generate (job : EtaJob) (iosize : BitVec 64) :
    EtaStep ⟨job, .body⟩ (.generate iosize)
      ⟨{ job with ops := job.ops + 1, bytes := job.bytes + iosize }, .taken⟩
  /-- there is no bio, and the engine is polled -/
  | pass (job : EtaJob) : EtaStep ⟨job, .body⟩ .pass ⟨job, .loop⟩
  | next (job : EtaJob) : EtaStep ⟨job, .taken⟩ .next ⟨job, .loop⟩
  | stop {job job' : EtaJob} :
    job.shouldStop = (true, job') → EtaStep ⟨job, .loop⟩ .stop ⟨job', .leaving⟩
  /-- the engine failed -/
  | leave (job : EtaJob) (pc : EtaPc) :
    pc = .body ∨ pc = .taken → EtaStep ⟨job, pc⟩ .leave ⟨job, .leaving⟩
  | finish (job : EtaJob) :
    EtaStep ⟨job, .leaving⟩ .finish
      ⟨{ job with state := if job.state = .aborting then .aborted else .done }, .ended⟩
  | timer (job : EtaJob) (pc : EtaPc) :
    EtaStep ⟨job, pc⟩ .timer ⟨{ job with timeout := true }, pc⟩
  | iogen (job : EtaJob) (pc : EtaPc) (state : IogenState) :
    EtaStep ⟨job, pc⟩ (.iogen state) ⟨{ job with iogenState := state }, pc⟩

/-- A job that `iogen_job_begin` has begun. -/
def EtaRun.start (amountType : AmountType) (amount : BitVec 64) (iogenState : IogenState)
    (timeout : Bool) (beginTs : Timespec) : EtaRun where
  job :=
    { amountType := amountType
      amount := amount
      state := .running
      iogenState := iogenState
      timeout := timeout
      beginTs := beginTs
      ops := 0
      bytes := 0 }
  pc := .loop

/-! ## The counters -/

/-- The counters are those of `IogenJob`, as words. -/
structure EtaJob.Counts (job : EtaJob) (iogenJob : IogenJob) : Prop where
  ops : job.ops = BitVec.ofNat 64 iogenJob.sumOps
  bytes : job.bytes = BitVec.ofNat 64 iogenJob.sumBytes

section Counters

variable {iover iover' : Iover} {iogenJob iogenJob' : IogenJob} {draws : GenDraws} {id : ℕ}

theorem chooseSlba_counts (iover : Iover) (iogenJob : IogenJob) (bio : Bio)
    (draw jesd219Slba : ℕ) :
    (chooseSlba iover iogenJob bio draw jesd219Slba).2.1.sumOps = iogenJob.sumOps ∧
      (chooseSlba iover iogenJob bio draw jesd219Slba).2.1.sumBytes = iogenJob.sumBytes := by
  simp only [chooseSlba]
  cases iogenJob.params.slbaType with
  | seq => exact ⟨rfl, rfl⟩
  | replay =>
    simp only [historySlba]
    split <;> exact ⟨rfl, rfl⟩
  | _ => exact ⟨rfl, rfl⟩

/-- The loop of `generate_bio` adds the bytes of the bio that it comes out with. -/
theorem generateLoop_counts (left : ℕ) (iover : Iover) (iogenJob : IogenJob) (bio : Bio)
    (hready : (generateLoop draws left iover iogenJob bio).ready = true) :
    (generateLoop draws left iover iogenJob bio).job.sumOps = iogenJob.sumOps ∧
      (generateLoop draws left iover iogenJob bio).job.sumBytes
        = iogenJob.sumBytes + (generateLoop draws left iover iogenJob bio).bio.iosize := by
  induction left generalizing iover iogenJob bio with
  | zero => cases hready
  | succ left ih =>
    have hchoose := chooseSlba_counts iover iogenJob bio (draws.slba left) draws.jesd219Slba
    rw [generateLoop] at hready ⊢
    generalize chooseSlba iover iogenJob bio (draws.slba left) draws.jesd219Slba = choice
      at hready hchoose ⊢
    obtain ⟨ok, job, bio⟩ := choice
    obtain ⟨hops, hbytes⟩ := hchoose
    simp only at hready hops hbytes ⊢
    split
    · rename_i hok
      rw [if_pos hok] at hready
      cases hready
    · rename_i hok
      rw [if_neg hok] at hready
      split
      · exact ⟨hops, hbytes⟩
      · rename_i hreplay
        rw [if_neg hreplay] at hready
        split
        · rename_i hres
          rw [if_pos hres] at hready
          have hloop := ih _ _ _ hready
          rw [hops, hbytes] at hloop
          exact hloop
        · exact ⟨hops, congrArg (· + _) hbytes⟩

/-- **`generate_bio`** makes the step of the counters. -/
theorem generateBio_counts {job : EtaJob} (h : job.Counts iogenJob)
    (hgen : generateBio iover iogenJob draws = (some id, iover', iogenJob')) :
    EtaJob.Counts { job with
      ops := job.ops + 1
      bytes := job.bytes + BitVec.ofNat 64 (iogenJob'.bioPool id).iosize } iogenJob' := by
  rw [generateBio] at hgen
  split at hgen
  · cases hgen
  · rename_i id' rest hfree
    simp only at hgen
    split at hgen
    · rename_i hready
      obtain ⟨rfl, -, rfl⟩ := by simpa only [Prod.mk.injEq, Option.some.injEq] using hgen
      have hfill : (fillBio iover iogenJob draws (iogenJob.bioPool id')).job.sumOps
            = iogenJob.sumOps ∧
          (fillBio iover iogenJob draws (iogenJob.bioPool id')).job.sumBytes = iogenJob.sumBytes
            + (fillBio iover iogenJob draws (iogenJob.bioPool id')).bio.iosize := by
        simp only [fillBio] at hready ⊢
        split
        · exact ⟨rfl, rfl⟩
        · rename_i hflush
          rw [if_neg hflush] at hready
          exact generateLoop_counts 3 _ _ _ hready
      have hdress : ∀ bio : Bio, (dressBio iover iogenJob draws bio).iosize = bio.iosize := by
        intro bio
        rw [dressBio]
        split <;> rfl
      refine ⟨?_, ?_⟩
      · change job.ops + 1 = BitVec.ofNat 64 (_ + 1)
        rw [h.ops, hfill.1, BitVec.ofNat_add]
        rfl
      · change job.bytes + _ = BitVec.ofNat 64 _
        simp only [Function.update_self, hdress, hfill.2]
        rw [h.bytes, BitVec.ofNat_add]
    · cases hgen

end Counters

/-! ## When the estimate is right -/

/-- The counter of commands or of bytes, and its quotient by the time. -/
def ratePerSecond (progress : BitVec 64) (elapsedSeconds : BitVec 32) :
    Option (BitVec 64 × BitVec 64) :=
  let rate := progress / elapsedSeconds.setWidth 64
  if 0 < elapsedSeconds ∧ 0 < rate then some (progress, rate) else none

/-- The progress of a running job and its rate; `none` while nothing is known, and when the time is
over. -/
def EtaJob.basis (job : EtaJob) (nowTs : Timespec) : Option (BitVec 64 × BitVec 64) :=
  let elapsedSeconds := job.elapsedSeconds nowTs
  if job.state = .running then
    match job.amountType with
    | .time =>
      if job.amount < elapsedSeconds.setWidth 64 then none
      else some (elapsedSeconds.setWidth 64, 1)
    | .io => ratePerSecond job.ops elapsedSeconds
    | .byte => ratePerSecond job.bytes elapsedSeconds
    | .infinite => none
  else none

/-- **The estimate is exact**: it is `U32_MAX` if there is no rate, and otherwise what is left of
the amount by the rate, of numbers that are not cut off. -/
def EtaJob.EtaExact (job : EtaJob) (nowTs : Timespec) : Prop :=
  (job.basis nowTs = none → iogenJobEta job nowTs = u32Max) ∧
    ∀ progress rate, job.basis nowTs = some (progress, rate) →
      (job.elapsedSeconds nowTs).toNat = (timespecSub nowTs job.beginTs).toNat / 10 ^ 9 ∧
        progress.toNat ≤ job.amount.toNat ∧
        (iogenJobEta job nowTs).toNat = (job.amount.toNat - progress.toNat) / rate.toNat

/-- What it takes: less than 2^32 seconds have passed and are left, and a job by bytes has not
generated more than its amount. -/
def EtaJob.EtaFits (job : EtaJob) (nowTs : Timespec) : Prop :=
  ∀ progress rate, job.basis nowTs = some (progress, rate) →
    (timespecSub nowTs job.beginTs).toNat < 2 ^ 32 * 10 ^ 9 ∧
      (job.amountType = .byte → job.bytes.toNat ≤ job.amount.toNat) ∧
      job.amount.toNat < progress.toNat + 2 ^ 32 * rate.toNat

/-- A command of a job by bytes does not go beyond its amount. -/
def EtaRun.Fits (s : EtaRun) : EtaLabel → Prop
  | .generate iosize =>
    s.job.amountType = .byte → s.job.bytes.toNat + iosize.toNat ≤ s.job.amount.toNat
  | _ => True

section Exact

variable {job job' : EtaJob} {nowTs : Timespec} {progress rate amount : BitVec 64}
  {elapsedSeconds : BitVec 32}

theorem etaByRate_eq (amount progress : BitVec 64) (elapsedSeconds : BitVec 32) :
    etaByRate amount progress elapsedSeconds = (ratePerSecond progress elapsedSeconds).elim u32Max
      fun basis => ((amount - basis.1) / basis.2).setWidth 32 := by
  simp only [etaByRate, ratePerSecond]
  by_cases htime : 0 < elapsedSeconds
  · by_cases hrate : 0 < progress / elapsedSeconds.setWidth 64
    · rw [if_pos htime, if_pos hrate, if_pos ⟨htime, hrate⟩]
      rfl
    · rw [if_pos htime, if_neg hrate, if_neg fun h => hrate h.2]
      rfl
  · rw [if_neg htime, if_neg fun h => htime h.1]
    rfl

/-- The estimate is of the basis. -/
theorem iogenJobEta_eq (job : EtaJob) (nowTs : Timespec) :
    iogenJobEta job nowTs = (job.basis nowTs).elim u32Max
      fun basis => ((job.amount - basis.1) / basis.2).setWidth 32 := by
  simp only [iogenJobEta, EtaJob.basis]
  split
  · cases job.amountType with
    | infinite => rfl
    | time =>
      simp only
      split
      · rfl
      · exact congrArg (BitVec.setWidth 32) BitVec.udiv_one.symm
    | io => exact etaByRate_eq _ _ _
    | byte => exact etaByRate_eq _ _ _
  · rfl

theorem ratePerSecond_spec (h : ratePerSecond progress elapsedSeconds = some (amount, rate)) :
    amount = progress ∧ 0 < rate := by
  simp only [ratePerSecond] at h
  split at h
  · rename_i hpos
    cases h
    exact ⟨rfl, hpos.2⟩
  · cases h

/-- There is a rate where there is a basis, and the progress is that of the type. -/
theorem EtaJob.basis_spec (h : job.basis nowTs = some (progress, rate)) :
    0 < rate.toNat ∧ (job.amountType = .time ∧ progress.toNat ≤ job.amount.toNat ∨
      job.amountType = .io ∧ progress = job.ops ∨
      job.amountType = .byte ∧ progress = job.bytes) := by
  simp only [EtaJob.basis] at h
  split at h
  · split at h
    · rename_i htype
      split at h
      · cases h
      · rename_i hle
        cases h
        exact ⟨Nat.one_pos, .inl ⟨htype, BitVec.le_def.mp (BitVec.not_lt.mp hle)⟩⟩
    · rename_i htype
      obtain ⟨rfl, hrate⟩ := ratePerSecond_spec h
      exact ⟨BitVec.lt_def.mp hrate, .inr (.inl ⟨htype, rfl⟩)⟩
    · rename_i htype
      obtain ⟨rfl, hrate⟩ := ratePerSecond_spec h
      exact ⟨BitVec.lt_def.mp hrate, .inr (.inr ⟨htype, rfl⟩)⟩
    · cases h
  · cases h

/-- The seconds are cut off only after 2^32 of them. -/
theorem EtaJob.elapsedSeconds_eq_iff (job : EtaJob) (nowTs : Timespec) :
    (job.elapsedSeconds nowTs).toNat = (timespecSub nowTs job.beginTs).toNat / 10 ^ 9 ↔
      (timespecSub nowTs job.beginTs).toNat < 2 ^ 32 * 10 ^ 9 := by
  have hsecs : (job.elapsedSeconds nowTs).toNat
      = (timespecSub nowTs job.beginTs).toNat / 10 ^ 9 % 2 ^ 32 := by
    rw [EtaJob.elapsedSeconds, BitVec.toNat_setWidth, BitVec.toNat_udiv]
    rfl
  rw [hsecs]
  omega

/-- **When the estimate is exact**, of a job that has not generated more commands than it is to. -/
theorem EtaJob.etaExact_iff_of_le (job : EtaJob) (nowTs : Timespec)
    (hops : job.amountType = .io → job.ops.toNat ≤ job.amount.toNat) :
    job.EtaExact nowTs ↔ job.EtaFits nowTs := by
  have heta := iogenJobEta_eq job nowTs
  cases hbasis : job.basis nowTs with
  | none =>
    rw [hbasis] at heta
    refine ⟨?_, fun _ => ⟨fun _ => heta, ?_⟩⟩
    · intro _ progress rate hsome
      rw [hbasis] at hsome
      cases hsome
    · intro progress rate hsome
      rw [hbasis] at hsome
      cases hsome
  | some pair =>
    obtain ⟨progress, rate⟩ := pair
    rw [hbasis] at heta
    obtain ⟨hrate, hprogress⟩ := EtaJob.basis_spec hbasis
    have hle : progress.toNat ≤ job.amount.toNat ↔
        (job.amountType = .byte → job.bytes.toNat ≤ job.amount.toNat) := by
      rcases hprogress with ⟨htype, hle⟩ | ⟨htype, rfl⟩ | ⟨htype, rfl⟩
      · simp [htype, hle]
      · simp [htype, hops htype]
      · simp [htype]
    have hquotient : progress.toNat ≤ job.amount.toNat →
        (((job.amount - progress) / rate).setWidth 32).toNat
          = (job.amount.toNat - progress.toNat) / rate.toNat % 2 ^ 32 := by
      intro hsub
      rw [BitVec.toNat_setWidth, BitVec.toNat_udiv, BitVec.toNat_sub_of_le (BitVec.le_def.mpr hsub)]
    have hfits : progress.toNat ≤ job.amount.toNat →
        ((job.amount.toNat - progress.toNat) / rate.toNat < 2 ^ 32 ↔
          job.amount.toNat < progress.toNat + 2 ^ 32 * rate.toNat) := by
      intro hsub
      rw [Nat.div_lt_iff_lt_mul hrate]
      omega
    have htime := job.elapsedSeconds_eq_iff nowTs
    refine ⟨?_, ?_⟩
    · rintro ⟨-, hknown⟩ progress' rate' hsome
      rw [hbasis] at hsome
      obtain ⟨rfl, rfl⟩ := Prod.mk.inj (Option.some.inj hsome)
      obtain ⟨hsecs, hsub, heq⟩ := hknown progress rate hbasis
      rw [heta, Option.elim_some, hquotient hsub] at heq
      have hlt : (job.amount.toNat - progress.toNat) / rate.toNat < 2 ^ 32 :=
        heq ▸ Nat.mod_lt _ (Nat.two_pow_pos 32)
      exact ⟨htime.mp hsecs, hle.mp hsub, (hfits hsub).mp hlt⟩
    · intro h
      obtain ⟨hsecs, hbytes, hlt⟩ := h progress rate hbasis
      have hsub := hle.mpr hbytes
      refine ⟨fun hnone => ?_, ?_⟩
      · rw [hbasis] at hnone
        cases hnone
      · intro progress' rate' hsome
        rw [hbasis] at hsome
        obtain ⟨rfl, rfl⟩ := Prod.mk.inj (Option.some.inj hsome)
        refine ⟨htime.mpr hsecs, hsub, ?_⟩
        rw [heta, Option.elim_some, hquotient hsub, Nat.mod_eq_of_lt ((hfits hsub).mpr hlt)]

end Exact

/-! ## Runs -/

/-- What a run keeps: a job by commands has generated no more than its amount, and less when it is
about to generate one. -/
structure EtaRun.Inv (s : EtaRun) : Prop where
  ops_le : s.job.amountType = .io → s.job.ops.toNat ≤ s.job.amount.toNat
  ops_lt : s.job.amountType = .io → s.pc = .body ∨ s.pc = .resetting →
    s.job.ops.toNat < s.job.amount.toNat

section Runs

variable {s t start : EtaRun} {job job' : EtaJob} {a : EtaLabel} {labels : List EtaLabel}
  {amountType : AmountType} {amount : BitVec 64} {iogenState : IogenState} {timeout : Bool}
  {beginTs : Timespec} {stops : Bool}

/-- `iogen_job_should_stop` writes the state alone. -/
theorem EtaJob.shouldStop_spec (h : job.shouldStop = (stops, job')) :
    job'.amountType = job.amountType ∧ job'.amount = job.amount ∧ job'.ops = job.ops ∧
      job'.bytes = job.bytes ∧
      (stops = false → job.amountType = .io → job.ops.toNat < job.amount.toNat) := by
  simp only [EtaJob.shouldStop] at h
  split at h
  · cases h
    exact ⟨rfl, rfl, rfl, rfl, fun hstops => absurd hstops (by decide)⟩
  · split at h
    all_goals
      rename_i htype
      cases h
      refine ⟨rfl, rfl, rfl, rfl, ?_⟩
      intro hstops hio
      rw [htype] at hio
    · cases hio
    · exact BitVec.lt_def.mp (BitVec.not_le.mp (of_decide_eq_false hstops))
    · cases hio
    · cases hio

theorem EtaRun.start_inv : (EtaRun.start amountType amount iogenState timeout beginTs).Inv where
  ops_le _ := Nat.zero_le _
  ops_lt := by
    rintro - (hpc | hpc) <;> cases hpc

/-- **A step**: the counter of commands goes up by one where it is below the amount. -/
theorem EtaStep.inv (h : s.Inv) (hstep : EtaStep s a t) : t.Inv := by
  have still : ∀ job pc, job.amountType = s.job.amountType → job.amount = s.job.amount →
      job.ops = s.job.ops → pc ≠ .body ∧ pc ≠ .resetting → EtaRun.Inv ⟨job, pc⟩ := by
    intro job pc htype hamount hops hpc
    refine ⟨?_, ?_⟩
    · rw [htype, hamount, hops]
      exact h.ops_le
    · rintro - (hbody | hresetting)
      · exact absurd hbody hpc.1
      · exact absurd hresetting hpc.2
  cases hstep with
  | enter hstop =>
    obtain ⟨htype, hamount, hops, -, hless⟩ := EtaJob.shouldStop_spec hstop
    refine ⟨?_, ?_⟩
    · rw [htype, hamount, hops]
      exact h.ops_le
    · intro hio _
      rw [htype] at hio
      rw [hamount, hops]
      exact hless rfl hio
  | reset job => exact ⟨h.ops_le, fun hio _ => h.ops_lt hio (.inl rfl)⟩
  | resume job => exact ⟨h.ops_le, fun hio _ => h.ops_lt hio (.inr rfl)⟩
  | generate job iosize =>
    refine ⟨?_, ?_⟩
    · intro hio
      have hless := h.ops_lt hio (.inl rfl)
      change (job.ops + 1).toNat ≤ job.amount.toNat
      have hword := job.amount.isLt
      rw [BitVec.toNat_add]
      change (job.ops.toNat + 1) % 2 ^ 64 ≤ _
      change job.ops.toNat < job.amount.toNat at hless
      omega
    · rintro - (hpc | hpc) <;> cases hpc
  | pass job => exact still job .loop rfl rfl rfl ⟨by decide, by decide⟩
  | next job => exact still job .loop rfl rfl rfl ⟨by decide, by decide⟩
  | stop hstop =>
    obtain ⟨htype, hamount, hops, -, -⟩ := EtaJob.shouldStop_spec hstop
    exact still _ .leaving htype hamount hops ⟨by decide, by decide⟩
  | leave job pc _ => exact still job .leaving rfl rfl rfl ⟨by decide, by decide⟩
  | finish job => exact still _ .ended rfl rfl rfl ⟨by decide, by decide⟩
  | timer job pc => exact ⟨h.ops_le, h.ops_lt⟩
  | iogen job pc state => exact ⟨h.ops_le, h.ops_lt⟩

/-- The bytes of a job by bytes stay in the amount as long as each command does. -/
theorem EtaStep.bytes_le (h : s.job.amountType = .byte → s.job.bytes.toNat ≤ s.job.amount.toNat)
    (hstep : guarded EtaStep EtaRun.Fits s a t) :
    t.job.amountType = .byte → t.job.bytes.toNat ≤ t.job.amount.toNat := by
  obtain ⟨hfits, hstep⟩ := hstep
  cases hstep with
  | enter hstop | stop hstop =>
    obtain ⟨htype, hamount, -, hbytes, -⟩ := EtaJob.shouldStop_spec hstop
    rw [htype, hamount, hbytes]
    exact h
  | generate job iosize =>
    intro hbyte
    have hle : job.bytes.toNat + iosize.toNat ≤ job.amount.toNat := hfits hbyte
    change (job.bytes + iosize).toNat ≤ job.amount.toNat
    rw [BitVec.toNat_add]
    exact le_trans (Nat.mod_le _ _) hle
  | _ => exact h

/-- What `generate_bio` does to the counters is a step. -/
theorem exists_etaStep_of_generateBio {iover iover' : Iover} {iogenJob iogenJob' : IogenJob}
    {draws : GenDraws} {id : ℕ} (hpc : s.pc = .body) (hcounts : s.job.Counts iogenJob)
    (hgen : generateBio iover iogenJob draws = (some id, iover', iogenJob')) :
    ∃ t, EtaStep s (.generate (BitVec.ofNat 64 (iogenJob'.bioPool id).iosize)) t ∧
      t.job.Counts iogenJob' := by
  obtain ⟨job, pc⟩ := s
  obtain rfl : pc = .body := hpc
  exact ⟨_, .generate job _, generateBio_counts hcounts hgen⟩

/-- **The remaining time.** In every state that a job reaches the estimate is exact if and only if
less than 2^32 seconds have passed and are left, and, of a job by bytes, what it has generated is
not beyond its amount. A job by commands never is; a job by bytes is not if no command goes beyond
the amount. The commands are those of `generate_bio`. -/
theorem iogenJobEta_exact_iff
    (run : Run EtaStep (EtaRun.start amountType amount iogenState timeout beginTs) labels s) :
    (∀ nowTs, s.job.EtaExact nowTs ↔ s.job.EtaFits nowTs) ∧
      (Run (guarded EtaStep EtaRun.Fits)
          (EtaRun.start amountType amount iogenState timeout beginTs) labels s →
        s.job.amountType = .byte → s.job.bytes.toNat ≤ s.job.amount.toNat) ∧
      ∀ iover iogenJob draws id iover' iogenJob', s.pc = .body → s.job.Counts iogenJob →
        generateBio iover iogenJob draws = (some id, iover', iogenJob') →
        ∃ t, EtaStep s (.generate (BitVec.ofNat 64 (iogenJob'.bioPool id).iosize)) t ∧
          t.job.Counts iogenJob' := by
  have hinv : s.Inv := run.invariant (fun s a t hs hstep => EtaStep.inv hs hstep) EtaRun.start_inv
  refine ⟨fun nowTs => s.job.etaExact_iff_of_le nowTs hinv.ops_le, ?_,
    fun _ _ _ _ _ _ hpc hcounts hgen => exists_etaStep_of_generateBio hpc hcounts hgen⟩
  intro hrun
  have hkept := hrun.invariant (I := fun s : EtaRun => s.job.amountType = .byte →
    s.job.bytes.toNat ≤ s.job.amount.toNat) (fun s a t hs hstep => EtaStep.bytes_le hs hstep)
  exact hkept fun _ => Nat.zero_le _

/-- A job of 100 commands that has generated two, of which the second has no data. -/
def twoCommands : EtaRun where
  job := { (EtaRun.start .io 100 .running false ⟨5, 0⟩).job with ops := 2, bytes := 4096 }
  pc := .taken

/-- The 98 commands that are left after a second take 49 seconds. -/
theorem etaExact_twoCommands :
    Run EtaStep (EtaRun.start .io 100 .running false ⟨5, 0⟩)
        [.enter, .generate 4096, .next, .enter, .generate 0] twoCommands ∧
      iogenJobEta twoCommands.job ⟨6, 0⟩ = 49 ∧ twoCommands.job.EtaExact ⟨6, 0⟩ := by
  have run : Run EtaStep (EtaRun.start .io 100 .running false ⟨5, 0⟩)
      [.enter, .generate 4096, .next, .enter, .generate 0] twoCommands :=
    .cons (.enter rfl) (.cons (.generate _ _) (.cons (.next _) (.cons (.enter rfl)
      (.single (.generate _ _)))))
  have hbasis : twoCommands.job.basis ⟨6, 0⟩ = some (2, 2) := by decide
  refine ⟨run, by decide, ((iogenJobEta_exact_iff run).1 _).mpr ?_⟩
  intro progress rate h
  obtain ⟨rfl, rfl⟩ := Prod.mk.inj (Option.some.inj (hbasis.symm.trans h))
  exact ⟨by decide, fun hbyte => absurd hbyte (by decide), by decide⟩

/-- A job of 10000 bytes that has generated three commands of 4 KiB. -/
def pastAmount : EtaRun where
  job := { (EtaRun.start .byte 10000 .running false ⟨5, 0⟩).job with ops := 3, bytes := 12288 }
  pc := .taken

/-- It is left 45 years after a second. -/
theorem not_etaExact_pastAmount :
    Run EtaStep (EtaRun.start .byte 10000 .running false ⟨5, 0⟩)
        [.enter, .generate 4096, .next, .enter, .generate 4096, .next, .enter, .generate 4096]
        pastAmount ∧
      iogenJobEta pastAmount.job ⟨6, 0⟩ = 1431655765 ∧ ¬ pastAmount.job.EtaExact ⟨6, 0⟩ := by
  refine ⟨?_, by decide, ?_⟩
  · exact .cons (.enter rfl) (.cons (.generate _ _) (.cons (.next _) (.cons (.enter rfl)
      (.cons (.generate _ _) (.cons (.next _) (.cons (.enter rfl) (.single (.generate _ _))))))))
  · rintro ⟨-, hknown⟩
    obtain ⟨-, hle, -⟩ := hknown 12288 12288 (by decide)
    exact absurd hle (by decide)

end Runs

end ChamberSpo

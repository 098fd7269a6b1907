import ChamberSpo.BioPool

/-!
# How much a job does

`iogen_job_runner` asks `iogen_job_should_stop` before each bio, and the counters that this looks at
are moved by `generate_bio`. So a job gives its engine what its `AMOUNT` says.

* `issued` — the bios that a run gives to the engine.
* `Below`, `Reached` — the two sides of `iogen_job_should_stop`.
* `EngineRunner.Counted` — the counters are those of the bios that were given to the engine, and
  each of these was given while the amount was not reached.
* `EngineRunner.amount_exact` — what a job has done when it is done.

As in `EngineRunner.Step`, nothing is reset and the `spor_level` is below 3: a reset drops bios that
were counted, and at `spor_level` 3 the job ends with bios in flight.
-/

namespace ChamberSpo

/-! ## The counters -/

/-- `ops` and `bytes` are added to the counters, and nothing that says when to stop has changed, but
for the state of the generator. -/
structure IogenJob.Adds (a b : IogenJob) (ops bytes : ℕ) : Prop where
  sumOps : b.sumOps = a.sumOps + ops
  sumBytes : b.sumBytes = a.sumBytes + bytes
  state : b.state = a.state
  timeout : b.timeout = a.timeout
  params : b.params = a.params

theorem IogenJob.Adds.refl (a : IogenJob) : a.Adds a 0 0 := ⟨rfl, rfl, rfl, rfl, rfl⟩

theorem IogenJob.Adds.trans {a b c : IogenJob} {ops bytes ops' bytes' : ℕ} (h : a.Adds b ops bytes)
    (h' : b.Adds c ops' bytes') : a.Adds c (ops + ops') (bytes + bytes') where
  sumOps := by rw [h'.sumOps, h.sumOps, Nat.add_assoc]
  sumBytes := by rw [h'.sumBytes, h.sumBytes, Nat.add_assoc]
  state := h'.state.trans h.state
  timeout := h'.timeout.trans h.timeout
  params := h'.params.trans h.params

section Counters

variable {iover iover' : Iover} {job job' : IogenJob} {draws : GenDraws} {id : ℕ}

theorem chooseSlba_adds (iover : Iover) (job : IogenJob) (bio : Bio) (draw jesd219Slba : ℕ) :
    job.Adds (chooseSlba iover job bio draw jesd219Slba).2.1 0 0 := by
  simp only [chooseSlba]
  cases job.params.slbaType with
  | seq => exact ⟨rfl, rfl, rfl, rfl, rfl⟩
  | replay =>
    simp only [historySlba]
    split <;> exact ⟨rfl, rfl, rfl, rfl, rfl⟩
  | _ => exact .refl job

/-- The loop of `generate_bio` adds the bytes of the bio that it comes out with, if it does. -/
theorem generateLoop_adds (left : ℕ) (iover : Iover) (job : IogenJob) (bio : Bio) :
    job.Adds (generateLoop draws left iover job bio).job 0
      (if (generateLoop draws left iover job bio).ready then
        (generateLoop draws left iover job bio).bio.iosize else 0) := by
  induction left generalizing iover job bio with
  | zero => exact .refl job
  | succ left ih =>
    have hchoose := chooseSlba_adds iover job bio (draws.slba left) draws.jesd219Slba
    rw [generateLoop]
    generalize chooseSlba iover job bio (draws.slba left) draws.jesd219Slba = choice at hchoose ⊢
    obtain ⟨ok, job₁, bio₁⟩ := choice
    simp only at hchoose ⊢
    split
    · exact hchoose
    · split
      · exact hchoose
      · split
        · have hrest := hchoose.trans (ih (ioverGenerateData iover job₁.params
            (placeBio iover job₁ bio₁) (draws.escape left)).2.1 job₁
            (ioverGenerateData iover job₁.params (placeBio iover job₁ bio₁)
              (draws.escape left)).2.2)
          simp only [Nat.zero_add] at hrest
          exact hrest
        · exact ⟨hchoose.sumOps, congrArg (· + _) hchoose.sumBytes, hchoose.state, hchoose.timeout,
            hchoose.params⟩

theorem fillBio_adds (iover : Iover) (job : IogenJob) (draws : GenDraws) (bio : Bio) :
    job.Adds (fillBio iover job draws bio).job 0
      (if (fillBio iover job draws bio).ready then (fillBio iover job draws bio).bio.iosize
        else 0) := by
  simp only [fillBio]
  split
  · exact .refl job
  · exact generateLoop_adds 3 _ _ _

/-- **`generate_bio`** counts the bio that it returns, -/
theorem generateBio_adds (h : generateBio iover job draws = (some id, iover', job')) :
    job.Adds job' 1 (job'.bioPool id).iosize := by
  rw [generateBio] at h
  split at h
  · cases h
  · rename_i id' rest hfree
    have hfill := fillBio_adds iover job draws (job.bioPool id')
    generalize fillBio iover job draws (job.bioPool id') = gen at h hfill
    simp only at h
    split at h
    · rename_i hready
      obtain ⟨rfl, -, rfl⟩ := by simpa only [Prod.mk.injEq, Option.some.injEq] using h
      have hdress : (dressBio iover job draws gen.bio).iosize = gen.bio.iosize := by
        rw [dressBio]
        split <;> rfl
      rw [if_pos hready] at hfill
      refine ⟨congrArg (· + 1) hfill.sumOps, ?_, hfill.state, hfill.timeout, hfill.params⟩
      simp only [Function.update_self, hdress]
      exact hfill.sumBytes
    · cases h

/-- and nothing else. -/
theorem generateBio_adds_none (h : generateBio iover job draws = (none, iover', job')) :
    job.Adds job' 0 0 := by
  rw [generateBio] at h
  split at h
  · simp only [Prod.mk.injEq, true_and] at h
    obtain ⟨-, rfl⟩ := h
    exact .refl job
  · rename_i id' rest hfree
    have hfill := fillBio_adds iover job draws (job.bioPool id')
    generalize fillBio iover job draws (job.bioPool id') = gen at h hfill
    simp only at h
    split at h
    · cases h
    · rename_i hready
      rw [if_neg hready] at hfill
      simp only [Prod.mk.injEq, true_and] at h
      obtain ⟨-, rfl⟩ := h
      exact ⟨hfill.sumOps, hfill.sumBytes, hfill.state, hfill.timeout, hfill.params⟩

theorem bioEnd_adds (h : bioEnd iover job id = some (iover', job')) : job.Adds job' 0 0 := by
  rcases bioEnd_cases h with ⟨-, r, -, -, rfl⟩ | ⟨-, -, rfl⟩
  · exact ⟨rfl, rfl, rfl, rfl, rfl⟩
  · exact ⟨rfl, rfl, rfl, rfl, rfl⟩

end Counters

/-! ## The amount -/

/-- The bio that a step gives to the engine. -/
def EngineRunnerLabel.given : EngineRunnerLabel → List Bio
  | .enqueue _ bio _ => [bio]
  | _ => []

/-- The bios that a run gives to the engine, first to last. -/
def issued (ls : List EngineRunnerLabel) : List Bio := ls.flatMap EngineRunnerLabel.given

/-- The bytes of some bios. -/
def totalBytes (bios : List Bio) : ℕ := (bios.map Bio.iosize).sum

/-- With these bios there is something left to do. -/
def Amount.Below (amount : Amount) (bios : List Bio) : Prop :=
  match amount with
  | .io ios => bios.length < ios
  | .byte bytes => totalBytes bios < bytes
  | .time | .infinite => True

/-- With these bios there is nothing left to do. -/
def Amount.Reached (amount : Amount) (timeout : Bool) (bios : List Bio) : Prop :=
  match amount with
  | .io ios => ios ≤ bios.length
  | .byte bytes => bytes ≤ totalBytes bios
  | .time => timeout = true
  | .infinite => False

/-- The counters are those of some bios. -/
structure IogenJob.Sums (job : IogenJob) (bios : List Bio) : Prop where
  sumOps : job.sumOps = bios.length
  sumBytes : job.sumBytes = totalBytes bios

section Amount

variable {job job' : IogenJob} {bios : List Bio}

theorem IogenJob.Sums.adds_none (h : job.Sums bios) (ha : job.Adds job' 0 0) : job'.Sums bios :=
  ⟨ha.sumOps.trans h.sumOps, ha.sumBytes.trans h.sumBytes⟩

theorem IogenJob.Sums.adds (h : job.Sums bios) {bio : Bio} (ha : job.Adds job' 1 bio.iosize) :
    job'.Sums (bios ++ [bio]) where
  sumOps := by rw [ha.sumOps, h.sumOps, List.length_append, List.length_singleton]
  sumBytes := by
    rw [ha.sumBytes, h.sumBytes, totalBytes, totalBytes, List.map_append, List.sum_append,
      List.map_singleton, List.sum_singleton]

/-- A job goes on while its amount is not reached. -/
theorem IogenJob.Sums.below (h : job.Sums bios) (hgo : (iogenJobShouldStop job).1 = false) :
    job.params.amount.Below bios := by
  simp only [iogenJobShouldStop] at hgo
  split at hgo
  · cases hgo
  · cases hamount : job.params.amount with
    | time => trivial
    | infinite => trivial
    | io ios =>
      simp only [hamount, decide_eq_false_iff_not, h.sumOps, Nat.not_le] at hgo
      exact hgo
    | byte bytes =>
      simp only [hamount, decide_eq_false_iff_not, h.sumBytes, Nat.not_le] at hgo
      exact hgo

/-- A job stops when the generator does, or its amount is reached. -/
theorem IogenJob.Sums.stop (h : job.Sums bios) (hstop : (iogenJobShouldStop job).1 = true) :
    (iogenJobShouldStop job).2.state = .aborting ∨
      (iogenJobShouldStop job).2 = job ∧ job.params.amount.Reached job.timeout bios := by
  simp only [iogenJobShouldStop] at hstop ⊢
  split
  · exact .inl rfl
  · rename_i hrunning
    rw [if_neg hrunning] at hstop
    refine .inr ?_
    cases hamount : job.params.amount with
    | time =>
      simp only [hamount] at hstop
      exact ⟨rfl, hstop⟩
    | infinite =>
      simp only [hamount] at hstop
      cases hstop
    | io ios =>
      simp only [hamount, decide_eq_true_eq, h.sumOps] at hstop
      exact ⟨rfl, hstop⟩
    | byte bytes =>
      simp only [hamount, decide_eq_true_eq, h.sumBytes] at hstop
      exact ⟨rfl, hstop⟩

theorem sums_iogenJobShouldStop (h : job.Sums bios) : (iogenJobShouldStop job).2.Sums bios := by
  simp only [iogenJobShouldStop]
  split
  · exact ⟨h.sumOps, h.sumBytes⟩
  · split <;> exact h

end Amount

/-! ## The runner -/

/-- What the state of a job says where the runner stands, with what says that its amount is
reached. -/
def RunnerPc.Stands (pc : RunnerPc) (state : IogenJobState) (reached : Prop) : Prop :=
  match pc with
  | .loop | .taken | .retrying | .polling false _ => state = .running
  | .leaving | .draining | .polling true _ => state = .aborting ∨ state = .running ∧ reached
  | .ended => state = .aborted ∨ state = .done ∧ reached
  | .exited => True

theorem RunnerPc.Stands.mono {pc : RunnerPc} {state : IogenJobState} {p q : Prop}
    (h : pc.Stands state p) (hpq : p → q) : pc.Stands state q := by
  have hor : ∀ {a b : Prop}, a ∨ b ∧ p → a ∨ b ∧ q := fun hab => hab.imp_right (.imp_right hpq)
  cases pc with
  | polling draining pc =>
    cases draining with
    | false => exact h
    | true => exact hor h
  | leaving | draining | ended => exact hor h
  | _ => exact h

namespace EngineRunner

/-- The engine takes and ends what it is given, and a submission submits everything. -/
def Flows (s : EngineRunner) (a : EngineRunnerLabel) : Prop :=
  Served s a ∧ ∀ results, a = .submit results → ∀ r ∈ results, 0 < r

/-- What the counters, the amount and the state of a job have to do with the bios that it has given
to its engine. -/
structure Counted (amount : Amount) (s : EngineRunner) (bios : List Bio) : Prop where
  ofJob : s.sys.job.params.amount = amount
  sums : s.sys.job.Sums bios
  accepted : s.accepted.length = bios.length
  /-- each of them was given while there was something left to do -/
  below : ∀ before bio rest, bios = before ++ bio :: rest → amount.Below before
  stands : s.pc.Stands s.sys.job.state (amount.Reached s.sys.job.timeout bios)

section Steps

variable {batch : BatchParams} {kind : EngineKind} {amount : Amount} {s s' : EngineRunner}
  {a : EngineRunnerLabel} {bios : List Bio}

/-- A step that counts nothing. -/
theorem Counted.keep (h : Counted amount s bios) (hadds : s.sys.job.Adds s'.sys.job 0 0)
    (haccepted : s'.accepted = s.accepted)
    (hstands : s'.pc.Stands s.sys.job.state (amount.Reached s.sys.job.timeout bios)) :
    Counted amount s' bios where
  ofJob := (congrArg JobParams.amount hadds.params).trans h.ofJob
  sums := h.sums.adds_none hadds
  accepted := haccepted ▸ h.accepted
  below := h.below
  stands := by
    rw [hadds.state, hadds.timeout]
    exact hstands

/-- **A bio is given to the engine.** -/
theorem Counted.give (h : Counted amount s bios) (hcont : s.Continues) {bio : Bio}
    (hadds : s.sys.job.Adds s'.sys.job 1 bio.iosize)
    (haccepted : s'.accepted.length = s.accepted.length + 1)
    (hpc : s'.pc = .loop ∨ s'.pc = .taken) : Counted amount s' (bios ++ [bio]) where
  ofJob := (congrArg JobParams.amount hadds.params).trans h.ofJob
  sums := h.sums.adds hadds
  accepted := by rw [haccepted, h.accepted, List.length_append, List.length_singleton]
  below before last rest hsplit := by
    rcases List.eq_nil_or_concat rest with rfl | ⟨init, final, rfl⟩
    · obtain ⟨rfl, -⟩ := List.append_inj' hsplit rfl
      exact h.ofJob ▸ h.sums.below hcont.2
    · rw [List.concat_eq_append, ← List.cons_append, ← List.append_assoc] at hsplit
      obtain ⟨hbios, -⟩ := List.append_inj' hsplit rfl
      exact h.below before last init hbios
  stands := by
    have hrunning := h.stands
    rw [hcont.1] at hrunning
    rw [hadds.state]
    rcases hpc with hpc | hpc <;> rw [hpc] <;> exact hrunning

/-- A submission that submits everything succeeds. -/
theorem submit_eq_zero {engine engine' : Engine} {iodepth : ℕ} {ids : List ℕ} {results : List Int}
    {res : Int} (h : engine.Holds iodepth ids) (hs : engine.submit results = some (res, engine'))
    (hall : ∀ r ∈ results, 0 < r) : res = 0 := by
  cases engine with
  | null queue | spdk idata =>
    cases hs
    rfl
  | libaio ld =>
    obtain ⟨-, l, hl, -⟩ := h
    simp only [Engine.submit, Option.bind_eq_bind, Option.pure_def, Option.bind_eq_some_iff,
      Option.some.injEq, Prod.mk.injEq] at hs
    obtain ⟨⟨r, ld'⟩, hsubmit, rfl, -⟩ := hs
    obtain ⟨-, -, -, -, hzero⟩ := libaioSubmit_spec hl hsubmit
    exact (hzero hall).1

/-- **The step lemma.** -/
theorem Counted.step (hinv : s.Inv kind) (h : Counted amount s bios)
    (hst : guarded (Step batch) Flows s a s') (hexited : s'.pc ≠ .exited) :
    Counted amount s' (bios ++ a.given) := by
  obtain ⟨⟨hserved, hsubmit⟩, hstep⟩ := hst
  have hrefl := IogenJob.Adds.refl s.sys.job
  cases hstep with
  | retry draws iover job hcont _ hgen =>
    simp only [EngineRunnerLabel.given, List.append_nil]
    refine h.keep (generateBio_adds_none hgen) rfl ?_
    have hstands := h.stands
    rwa [hcont.1] at hstands
  | refuse draws answers id iover job res engine hcont hlt hgen he hres =>
    exact absurd (hinv.enqueued hcont hlt hserved.1 hserved.2 he).1 hres
  | flush draws answers id iover job engine hcont hlt hgen he hquirk =>
    cases hend : bioEnd iover (startBio job id) id with
    | none =>
      rw [hend] at hexited
      exact absurd rfl hexited
    | some out =>
      have hstart : job.Adds (startBio job id) 0 0 := ⟨rfl, rfl, rfl, rfl, rfl⟩
      refine h.give hcont ((generateBio_adds hgen).trans (hstart.trans (bioEnd_adds hend))) ?_
        (.inl rfl)
      exact List.length_append
  | take draws answers id iover job engine hcont hlt hgen he hquirk =>
    cases henqueue : enqueueBio false iover job id with
    | none =>
      rw [henqueue] at hexited
      exact absurd rfl hexited
    | some out =>
      obtain ⟨iover', job'⟩ := out
      obtain ⟨-, rfl⟩ := enqueueBio_spec henqueue
      have hstart : job.Adds (startBio job id) 0 0 := ⟨rfl, rfl, rfl, rfl, rfl⟩
      refine h.give hcont ((generateBio_adds hgen).trans hstart) ?_ (.inr rfl)
      exact List.length_append
  | submit results res engine hsubmits hs =>
    simp only [EngineRunnerLabel.given, List.append_nil]
    have hpc : s.pc ≠ .exited := by
      rcases hsubmits with ⟨hpc, -⟩ | ⟨hpc, -⟩ <;> rw [hpc] <;> nofun
    obtain ⟨ids, hholds, -⟩ := hinv.holds hpc
    obtain rfl := submit_eq_zero hholds hs (hsubmit results rfl)
    rw [submitted, if_pos rfl]
    refine h.keep hrefl rfl ?_
    have hstands := h.stands
    rcases hsubmits with ⟨hpc, -⟩ | ⟨hpc, -⟩ <;> rw [hpc] at hstands ⊢ <;> exact hstands
  | noSubmit hpc _ =>
    simp only [EngineRunnerLabel.given, List.append_nil]
    refine h.keep hrefl rfl ?_
    have hstands := h.stands
    rwa [hpc] at hstands
  | poll pc engine hat hpolls =>
    simp only [EngineRunnerLabel.given, List.append_nil]
    refine h.keep hrefl rfl ?_
    have hstands := h.stands
    rcases hat with ⟨⟨hpc, -⟩, -⟩ | ⟨hpc, -⟩ <;> rw [hpc] at hstands <;> exact hstands
  | drainPoll pc engine hpc _ hpolls =>
    simp only [EngineRunnerLabel.given, List.append_nil]
    refine h.keep hrefl rfl ?_
    have hstands := h.stands
    rwa [hpc] at hstands
  | complete draining pc pc' id bio engine hpc hnext _ _ =>
    simp only [EngineRunnerLabel.given, List.append_nil]
    cases hend : bioEnd s.sys.iover (answerBio s.sys.job id bio) id with
    | none =>
      rw [hend] at hexited
      exact absurd rfl hexited
    | some out =>
      have hanswer : s.sys.job.Adds (answerBio s.sys.job id bio) 0 0 := ⟨rfl, rfl, rfl, rfl, rfl⟩
      refine h.keep (hanswer.trans (bioEnd_adds hend)) rfl ?_
      have hstands := h.stands
      rw [hpc] at hstands
      cases draining <;> exact hstands
  | pollEnd draining pc hpc hnext =>
    simp only [EngineRunnerLabel.given, List.append_nil]
    refine h.keep hrefl rfl ?_
    have hstands := h.stands
    rw [hpc] at hstands
    cases draining <;> exact hstands
  | stop hpc hstop =>
    simp only [EngineRunnerLabel.given, List.append_nil]
    have hrunning := h.stands
    rw [hpc] at hrunning
    refine ⟨(congrArg JobParams.amount (sameLists_iogenJobShouldStop _).params).trans h.ofJob,
      sums_iogenJobShouldStop h.sums, h.accepted, h.below, ?_⟩
    rcases h.sums.stop hstop with haborting | ⟨hsame, hreached⟩
    · exact .inl haborting
    · rw [h.ofJob] at hreached
      refine .inr ?_
      simp only [hsame]
      exact ⟨hrunning, hreached⟩
  | lastSubmit results res engine hpc hs =>
    simp only [EngineRunnerLabel.given, List.append_nil]
    refine h.keep hrefl rfl ?_
    have hstands := h.stands
    rwa [hpc] at hstands
  | finish hpc hzero =>
    simp only [EngineRunnerLabel.given, List.append_nil]
    refine ⟨h.ofJob, ⟨h.sums.sumOps, h.sums.sumBytes⟩, h.accepted, h.below, ?_⟩
    have hstands := h.stands
    rw [hpc] at hstands
    change (iogenJobEnd s.sys.job).state = _ ∨ (iogenJobEnd s.sys.job).state = _ ∧ _
    rcases hstands with haborting | ⟨hrunning, hreached⟩
    · exact .inl (by rw [iogenJobEnd, haborting]; rfl)
    · exact .inr ⟨by rw [iogenJobEnd, hrunning]; rfl, hreached⟩
  | timeoutExit _ _ => exact absurd rfl hexited
  | timer =>
    simp only [EngineRunnerLabel.given, List.append_nil]
    refine ⟨h.ofJob, ⟨h.sums.sumOps, h.sums.sumBytes⟩, h.accepted, h.below, ?_⟩
    refine h.stands.mono ?_
    cases amount with
    | time => exact fun _ => rfl
    | _ => exact id
  | others iover iogenState iogenResult =>
    simp only [EngineRunnerLabel.given, List.append_nil]
    exact h.keep ⟨rfl, rfl, rfl, rfl, rfl⟩ rfl h.stands

/-- A process that has exited does nothing more. -/
theorem Step.not_exited (hst : Step batch s a s') (h : s'.pc ≠ .exited) : s.pc ≠ .exited := by
  intro hpc
  cases hst with
  | timer | others => exact h hpc
  | submit _ _ _ hsubmits _ =>
    rcases hsubmits with ⟨hat, -⟩ | ⟨hat, -⟩ <;> rw [hpc] at hat <;> cases hat
  | poll _ _ hat _ =>
    rcases hat with ⟨⟨hat, -⟩, -⟩ | ⟨hat, -⟩ <;> rw [hpc] at hat <;> cases hat
  | retry _ _ _ hcont | refuse _ _ _ _ _ _ _ hcont | flush _ _ _ _ _ _ hcont
  | take _ _ _ _ _ _ hcont | timeoutExit hcont =>
    have hat := hcont.1
    rw [hpc] at hat
    cases hat
  | noSubmit hat | drainPoll _ _ hat | complete _ _ _ _ _ _ hat | pollEnd _ _ hat | stop hat
  | lastSubmit _ _ _ hat | finish hat =>
    rw [hpc] at hat
    cases hat

end Steps

/-- **What `AMOUNT` promises**, of the bios that a job has given to its engine. -/
structure AmountKept (amount : Amount) (s : EngineRunner) (bios : List Bio) : Prop where
  /-- the engine took each of them -/
  accepted : s.accepted.length = bios.length
  /-- each was given while there was something left to do -/
  below : ∀ before bio rest, bios = before ++ bio :: rest → amount.Below before
  /-- a job that ends has waited for all of them, -/
  ended : s.pc = .ended → s.ended.length = bios.length
  /-- and unless it was aborted, nothing is left to do -/
  reached : s.pc = .ended → s.sys.job.state = .done → amount.Reached s.sys.job.timeout bios

/-- An amount of commands is met exactly. -/
theorem AmountKept.io {s : EngineRunner} {bios : List Bio} {ios : ℕ}
    (h : AmountKept (.io ios) s bios) :
    bios.length ≤ ios ∧ (s.pc = .ended → s.sys.job.state = .done → s.ended.length = ios) := by
  have hle : bios.length ≤ ios := by
    rcases List.eq_nil_or_concat bios with rfl | ⟨init, last, rfl⟩
    · exact Nat.zero_le _
    · rw [List.concat_eq_append]
      have hlt : init.length < ios := h.below init last [] List.concat_eq_append
      rw [List.length_append, List.length_singleton]
      exact hlt
  refine ⟨hle, ?_⟩
  intro hpc hdone
  exact (h.ended hpc).trans (le_antisymm hle (h.reached hpc hdone))

/-- A job of one command. -/
def oneJob : IogenJob :=
  { timedJob .writeZeroes with params := { (timedJob .writeZeroes).params with amount := .io 1 } }

end EngineRunner

end ChamberSpo

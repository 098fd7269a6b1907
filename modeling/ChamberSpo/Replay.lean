import ChamberSpo.History
import ChamberSpo.InflightLock

/-!
# Replaying the history

A job of `slba_type_replay`, from `iogen_job_begin` to `iogen_job_end`, on a ring that was
recorded before.

* `Runner.Step` — `iogen_job_runner`: turns of its loop, completions, what makes it leave the
  loop, and its end.
* `Runner.Replays` — the last records are read, newest first, and the job ends normally.
* `Runner.Doomed` — the job cannot end normally any more: the generator has a result, or it has
  left the state that its jobs run in.

`Runner.replays_iff` says that only a job that never looks at the history ends normally. A ring
that is not full is not read (`Runner.Nothing`), and whoever has read all of a full ring is doomed
(`Runner.Full`).
-/

namespace ChamberSpo

/-- How far `iogen_job_runner` is. -/
inductive RunnerPhase where
  | loop
  /-- after the loop, until every bio is back -/
  | draining
  | ended
  deriving DecidableEq, Repr

/-- A job that is run. -/
structure Runner where
  sys : JobSystem
  /-- the reads that the engine took, first to last -/
  reads : List Bio
  phase : RunnerPhase

/-- What the runner does next. -/
inductive RunnerLabel where
  /-- a turn of the loop -/
  | turn (a : JobLabel)
  /-- the device has answered a bio, and it is completed -/
  | poll (id : ℕ) (bio : Bio)
  /-- a bio is generated, and the engine refuses it -/
  | refuse (draws : GenDraws) (bio : Bio) (res : Int)
  /-- the engine fails to submit what it took -/
  | fail (res : Int)
  /-- the time of the job is over -/
  | timer
  /-- `iogen_job_should_stop` -/
  | stop
  /-- `iogen_job_end` -/
  | finish

/-- The reads that the engine takes. -/
def JobLabel.reads : JobLabel → List Bio
  | .submit _ bio => if bio.opcode = .read then [bio] else []
  | .retry _ | .reject .. | .flush _ | .complete .. | .reinit => []

theorem JobLabel.length_reads (a : JobLabel) : a.reads.length ≤ 1 := by
  simp only [JobLabel.reads]
  split
  · split <;> simp
  all_goals simp

/-- If a bio is to be generated, the lottery draws a flush. -/
def JobLabel.DrawsFlush (job : IogenJob) : JobLabel → Prop
  | .retry draws | .submit draws _ | .reject draws _ | .flush draws =>
    job.oprLottery (draws.rand % 100) = .flush
  | .complete .. | .reinit => True

namespace Runner

/-- The loop is left because of an error of the engine. -/
def broken (s : Runner) (sys : JobSystem) (res : Int) : Runner :=
  { s with
    sys := { sys with job := { sys.job with view := { sys.job.view with iogenResult := res } } }
    phase := .draining }

/-- `iogen_job_runner` -/
inductive Step (spor3 : Bool) (s : Runner) : RunnerLabel → Runner → Prop
  | turn (a : JobLabel) (sys : JobSystem) :
    s.phase = .loop → (iogenJobShouldStop s.sys.job).1 = false →
    (∀ draws bio, a ≠ .reject draws bio) → JobSystem.Step spor3 s.sys a sys →
    Step spor3 s (.turn a) { s with sys := sys, reads := s.reads ++ a.reads }
  | poll (id : ℕ) (bio : Bio) (sys : JobSystem) :
    s.phase ≠ .ended → JobSystem.Step spor3 s.sys (.complete id bio) sys →
    Step spor3 s (.poll id bio) { s with sys := sys }
  | refuse (draws : GenDraws) (bio : Bio) (res : Int) (sys : JobSystem) :
    s.phase = .loop → (iogenJobShouldStop s.sys.job).1 = false → res ≠ 0 →
    JobSystem.Step spor3 s.sys (.reject draws bio) sys →
    Step spor3 s (.refuse draws bio res) (s.broken sys res)
  | fail (res : Int) :
    s.phase = .loop → res ≠ 0 → Step spor3 s (.fail res) (s.broken s.sys res)
  | timer :
    s.phase ≠ .ended →
    Step spor3 s .timer
      { s with sys := { s.sys with job := { s.sys.job with timeout := true } } }
  | stop :
    s.phase = .loop → (iogenJobShouldStop s.sys.job).1 = true →
    Step spor3 s .stop { s with
      sys := { s.sys with job := (iogenJobShouldStop s.sys.job).2 }
      phase := .draining }
  | finish :
    s.phase = .draining → s.sys.job.numInflight = 0 ∨ spor3 →
    Step spor3 s .finish { s with
      sys := { s.sys with job := iogenJobEnd s.sys.job }
      phase := .ended }

/-- A job of its own generator is begun. -/
def start (iover : Iover) (job : IogenJob) : Runner where
  sys :=
    { iover := iover
      job := iogenJobBegin iover { job with
        iogenState := .running
        bioFree := List.range job.params.iodepth
        bioInflight := []
        numInflight := 0
        sumOps := 0
        sumBytes := 0
        timeout := false
        view := { job.view with iogenResult := 0 } } }
  reads := []
  phase := .loop

/-- The last `nhist` of the records of `lbas` are read, newest first, and the job ends
normally. -/
structure Replays (s : Runner) (lbas : List ℕ) (nhist : ℕ) : Prop where
  reads : s.reads.map Bio.slba = lbas.reverse.take nhist
  state : s.sys.job.state = .done
  result : s.sys.job.view.iogenResult = 0

/-- The steps that do not look at the history: whenever a bio is to be generated, the lottery
draws a flush, and the engine does what it is told. -/
def OnlyFlush (s : Runner) : RunnerLabel → Prop
  | .turn a => a.DrawsFlush s.sys.job
  | .refuse .. | .fail _ => False
  | .poll .. | .timer | .stop | .finish => True

/-- The job cannot end normally any more. -/
def Doomed (s : Runner) : Prop :=
  s.sys.job.view.iogenResult ≠ 0 ∨ s.sys.job.iogenState ≠ .running ∧
    match s.phase with
    | .loop => True
    | .draining => s.sys.job.state = .aborting
    | .ended => s.sys.job.state = .aborted

end Runner

/-! ## What a step does to a job that replays -/

/-- Nothing of what a replay goes by has changed. -/
structure IogenJob.SamePlace (a b : IogenJob) : Prop where
  params : b.params = a.params
  state : b.state = a.state
  iogenState : b.iogenState = a.iogenState
  replayHistIdx : b.replayHistIdx = a.replayHistIdx
  replayHistCnt : b.replayHistCnt = a.replayHistCnt

theorem IogenJob.SamePlace.trans {a b c : IogenJob} (h : a.SamePlace b) (h' : b.SamePlace c) :
    a.SamePlace c :=
  ⟨h'.params.trans h.params, h'.state.trans h.state, h'.iogenState.trans h.iogenState,
    h'.replayHistIdx.trans h.replayHistIdx, h'.replayHistCnt.trans h.replayHistCnt⟩

theorem IogenJob.Advance.samePlace {iover : Iover} {a b c : IogenJob} (h : a.Advance iover b)
    (h' : b.SamePlace c) : a.Advance iover c where
  state := h'.state.trans h.state
  cnt := h'.replayHistCnt ▸ h.cnt
  drained hc := by
    rw [h'.replayHistCnt] at hc
    rw [h'.iogenState]
    exact h.drained hc
  stays hs := h'.iogenState ▸ h.stays hs
  idx hlba := h'.replayHistIdx.trans (h.idx hlba)

theorem IogenJob.SamePlace.advance {a b : IogenJob} (h : a.SamePlace b) (iover : Iover) :
    a.Advance iover b :=
  (IogenJob.Advance.refl iover a).samePlace h

/-- What a step of the job does to a replay. -/
structure JobSystem.Moves (s : JobSystem) (a : JobLabel) (s' : JobSystem) : Prop where
  ring : s.iover.SameRing s'.iover
  params : s'.job.params = s.job.params
  advance : s.job.Advance s.iover s'.job
  result : s.job.view.iogenResult ≠ 0 → s'.job.view.iogenResult ≠ 0
  /-- only an entry is read -/
  reads : a.reads ≠ [] → s'.job.replayHistCnt.toNat < s.job.replayHistCnt.toNat ∧
    s.job.nextLba s.iover ≠ emptyLba

/-- Every bio of the pool is on one of the two lists. -/
structure JobSystem.Pool (s : JobSystem) : Prop where
  numInflight : s.job.numInflight = s.job.bioInflight.length
  length : s.job.bioFree.length + s.job.bioInflight.length = s.job.params.iodepth

namespace JobSystem

variable {spor3 : Bool} {s s' : JobSystem} {a : JobLabel}

theorem Pool.free_ne_nil (h : s.Pool) (hlt : s.job.numInflight < s.job.params.iodepth) :
    s.job.bioFree ≠ [] := by
  intro hnil
  have := h.length
  rw [hnil, List.length_nil, ← h.numInflight] at this
  omega

end JobSystem

/-- Generating a bio does not touch the ring. -/
theorem Generates.sameRing {iover iover' : Iover} {params : JobParams} {bio : Bio}
    (h : Generates iover params iover' bio) : iover.SameRing iover' := by
  by_cases hop : bio.opcode = .flush
  · rw [(h.flush hop).2]
    exact .refl iover
  · obtain ⟨_, _, _, -, -, -, hiover, -⟩ := h.filled hop
    rw [hiover]
    split <;> exact ⟨rfl, rfl, fun _ _ => rfl⟩

/-- Nor does the completion of one, but for the descriptors in it. -/
theorem bioEnd_replay {iover iover' : Iover} {job job' : IogenJob} {id : ℕ}
    (h : bioEnd iover job id = some (iover', job')) :
    iover.SameRing iover' ∧ job.SamePlace job' ∧
      (job'.view.iogenResult = job.view.iogenResult ∨
        (job.bioPool id).opcode = .read ∧ job'.view.iogenResult = 1) := by
  rcases bioEnd_cases h with ⟨-, r, hsubmit, rfl, rfl⟩ | ⟨-, rfl, rfl⟩
  · have hcore := submitTail_sameCore hsubmit
    have hunlock : iover.SameRing (submitUnlock iover job.params (job.bioPool id)) := by
      simp only [submitUnlock]
      split <;> exact ⟨rfl, rfl, fun _ _ => rfl⟩
    exact ⟨hunlock.trans ⟨hcore.ns, hcore.header, fun i _ => hcore.histLba i⟩,
      ⟨rfl, rfl, rfl, rfl, rfl⟩, submitTail_iogenResult hsubmit⟩
  · exact ⟨.refl _, ⟨rfl, rfl, rfl, rfl, rfl⟩, .inl rfl⟩

/-- A bio of a replay makes no records. -/
theorem enqueueBio_replay {spor3 : Bool} {iover iover' : Iover} {job job' : IogenJob} {id : ℕ}
    (hop : (job.bioPool id).opcode = .read ∨ (job.bioPool id).opcode = .flush)
    (h : enqueueBio spor3 iover job id = some (iover', job')) : iover' = iover := by
  have hback : backupHistState iover job.params (job.bioPool id) = some iover := by
    simp only [backupHistState]
    rcases hop with hop | hop <;> simp only [hop, ite_self]
  have hdemote : demoteWrite spor3 iover job.params (job.bioPool id) = some iover := by
    rw [demoteWrite, if_neg]
    rcases hop with hop | hop <;> simp [hop]
  simp only [enqueueBio, hback, hdemote, Option.bind_eq_bind, Option.bind_some, Option.pure_def,
    Option.some.injEq, Prod.mk.injEq] at h
  exact h.1.symm

namespace JobSystem

variable {spor3 : Bool} {s s' : JobSystem} {a : JobLabel}

/-- **A step of a job that replays.** -/
theorem Step.moves (h : Step spor3 s a s') (hr : s.job.params.slbaType = .replay) :
    s.Moves a s' := by
  cases h with
  | retry draws iover job _ hgen =>
    obtain ⟨rfl, hparams, -, -, -, hview, -⟩ := generateBio_none hgen
    have htakes := generateBio_replay hr hgen
    exact ⟨.refl _, hparams, htakes.advance, fun h => hview ▸ h, fun h => absurd rfl h⟩
  | submit draws id iover iover' job job' _ hgen henqueue =>
    obtain ⟨_, _, _, _, hparams, _, _, hview, hgenerates, hissues⟩ := generateBio_some hgen
    have htakes := generateBio_replay hr hgen
    obtain rfl := enqueueBio_replay (hissues.replay hr) henqueue
    obtain ⟨-, rfl⟩ := enqueueBio_spec henqueue
    refine ⟨hgenerates.sameRing, hparams, htakes.advance.samePlace ⟨rfl, rfl, rfl, rfl, rfl⟩,
      fun h => hview ▸ h, fun h => ?_⟩
    by_cases hop : (job.bioPool id).opcode = .read
    · exact htakes.read id rfl hop
    · exact absurd (if_neg hop) h
  | reject draws id iover job _ hgen =>
    obtain ⟨_, _, _, _, hparams, _, _, hview, hgenerates, -⟩ := generateBio_some hgen
    have htakes := generateBio_replay hr hgen
    exact ⟨hgenerates.sameRing, hparams, htakes.advance, fun h => hview ▸ h, fun h => absurd rfl h⟩
  | flush draws id iover iover' job job' _ hgen hop hend =>
    obtain ⟨_, _, _, _, hparams, _, _, hview, hgenerates, -⟩ := generateBio_some hgen
    have htakes := generateBio_replay hr hgen
    obtain ⟨hring, hplace, hresult⟩ := bioEnd_replay hend
    have hstart : job.SamePlace (startBio job id) := ⟨rfl, rfl, rfl, rfl, rfl⟩
    refine ⟨hgenerates.sameRing.trans hring, hplace.params.trans hparams,
      htakes.advance.samePlace (hstart.trans hplace), fun h => ?_, fun h => absurd rfl h⟩
    rcases hresult with hresult | ⟨-, hresult⟩
    · rw [hresult]
      exact hview ▸ h
    · rw [hresult]
      decide
  | complete id bio iover job hid hex hend =>
    obtain ⟨hring, hplace, hresult⟩ := bioEnd_replay hend
    have hanswer : s.job.SamePlace (answerBio s.job id bio) := ⟨rfl, rfl, rfl, rfl, rfl⟩
    refine ⟨hring, hplace.params, (hanswer.trans hplace).advance s.iover, fun h => ?_,
      fun h => absurd rfl h⟩
    rcases hresult with hresult | ⟨-, hresult⟩
    · rw [hresult]
      exact h
    · rw [hresult]
      decide
  | reinit =>
    have hplace : s.job.SamePlace (iogenJobReinit s.job) := ⟨rfl, rfl, rfl, rfl, rfl⟩
    exact ⟨.refl _, rfl, hplace.advance s.iover, fun h => h, fun h => absurd rfl h⟩

/-- A completion leaves a replay where it is. -/
theorem Step.samePlace {id : ℕ} {bio : Bio} (h : Step spor3 s (.complete id bio) s') :
    s.job.SamePlace s'.job := by
  cases h with
  | complete id bio iover job hid hex hend =>
    obtain ⟨-, hplace, -⟩ := bioEnd_replay hend
    exact ⟨hplace.params, hplace.state, hplace.iogenState, hplace.replayHistIdx,
      hplace.replayHistCnt⟩

/-- Looking at an empty entry ends the generator. -/
theorem Step.ends (h : Step spor3 s a s') (hr : s.job.params.slbaType = .replay) (hpool : s.Pool)
    (hlba : s.job.nextLba s.iover = emptyLba) (hdraws : ¬ a.DrawsFlush s.job) :
    s'.job.iogenState ≠ .running := by
  cases h with
  | retry draws iover job hlt hgen =>
    exact (generateBio_replay hr hgen).ends hlba hdraws (hpool.free_ne_nil hlt)
  | submit draws id iover iover' job job' hlt hgen henqueue =>
    obtain ⟨-, rfl⟩ := enqueueBio_spec henqueue
    exact (generateBio_replay hr hgen).ends hlba hdraws (hpool.free_ne_nil hlt)
  | reject draws id iover job hlt hgen =>
    exact (generateBio_replay hr hgen).ends hlba hdraws (hpool.free_ne_nil hlt)
  | flush draws id iover iover' job job' hlt hgen hop hend =>
    obtain ⟨-, hplace, -⟩ := bioEnd_replay hend
    rw [hplace.iogenState]
    exact (generateBio_replay hr hgen).ends hlba hdraws (hpool.free_ne_nil hlt)
  | complete id bio iover job hid hex hend => exact absurd trivial hdraws
  | reinit => exact absurd trivial hdraws

/-- **The bios stay on the lists**, unless the engine refuses one. -/
theorem Step.pool (h : Step spor3 s a s') (ha : ∀ draws bio, a ≠ .reject draws bio)
    (hpool : s.Pool) : s'.Pool := by
  obtain ⟨hnum, hlength⟩ := hpool
  cases h with
  | retry draws iover job _ hgen =>
    obtain ⟨-, hparams, hfree, hinflight, hnum', -, -⟩ := generateBio_none hgen
    exact ⟨by rw [hnum', hinflight, hnum], by rw [hfree, hinflight, hparams, hlength]⟩
  | submit draws id iover iover' job job' _ hgen henqueue =>
    obtain ⟨rest, hfree, hrest, -, hparams, hinflight, hnum', -⟩ := generateBio_some hgen
    obtain ⟨-, rfl⟩ := enqueueBio_spec henqueue
    rw [hfree, List.length_cons] at hlength
    refine ⟨?_, ?_⟩
    · simp only [startBio, hnum', hinflight, List.length_cons, hnum]
    · simp only [startBio, hrest, hinflight, List.length_cons, hparams]
      omega
  | reject draws id iover job _ hgen => exact absurd rfl (ha draws _)
  | flush draws id iover iover' job job' _ hgen hop hend =>
    obtain ⟨rest, hfree, hrest, -, hparams, hinflight, hnum', -⟩ := generateBio_some hgen
    rw [hfree, List.length_cons] at hlength
    rcases bioEnd_cases hend with ⟨-, r, -, -, rfl⟩ | ⟨-, -, rfl⟩
    all_goals
      refine ⟨?_, ?_⟩
      · simp only [releaseBio, startBio, hnum', hinflight, List.erase_cons_head, hnum]
        omega
      · simp only [releaseBio, startBio, hrest, hinflight, List.erase_cons_head, List.length_cons,
          hparams]
        omega
  | complete id bio iover job hid hex hend =>
    have hpos := List.length_pos_of_mem hid
    have herase := List.length_erase_of_mem hid
    rcases bioEnd_cases hend with ⟨-, r, -, -, rfl⟩ | ⟨-, -, rfl⟩
    all_goals
      refine ⟨?_, ?_⟩
      · simp only [releaseBio, answerBio, hnum, herase]
      · simp only [releaseBio, answerBio, herase, List.length_cons]
        omega
  | reinit => exact ⟨rfl, by simp [iogenJobReinit]⟩

end JobSystem

/-! ## Jobs that cannot end normally -/

namespace Runner

variable {spor3 : Bool} {s s' : Runner} {a : RunnerLabel}

/-- `iogen_job_should_stop` of a generator that runs leaves the job as it is. -/
theorem iogenJobShouldStop_of_running {job : IogenJob} (h : job.iogenState = .running) :
    (iogenJobShouldStop job).2 = job := by
  rw [iogenJobShouldStop, if_neg (not_not.mpr h)]
  split <;> rfl

/-- Otherwise the job is aborted. -/
theorem iogenJobShouldStop_of_not_running {job : IogenJob} (h : job.iogenState ≠ .running) :
    iogenJobShouldStop job = (true, { job with state := .aborting }) := if_pos h

theorem Step.slbaType (h : Step spor3 s a s') (hr : s.sys.job.params.slbaType = .replay) :
    s'.sys.job.params.slbaType = .replay := by
  cases h with
  | turn a sys hphase hstop ha hstep => exact (hstep.moves hr).params ▸ hr
  | poll id bio sys hphase hstep => exact (hstep.moves hr).params ▸ hr
  | refuse draws bio res sys hphase hstop hres hstep =>
    change sys.job.params.slbaType = .replay
    exact (hstep.moves hr).params ▸ hr
  | fail res hphase hres => exact hr
  | timer hphase => exact hr
  | stop hphase hstop =>
    by_cases hrun : s.sys.job.iogenState = .running
    · simp only [iogenJobShouldStop_of_running hrun]
      exact hr
    · simp only [iogenJobShouldStop_of_not_running hrun]
      exact hr
  | finish hphase hinflight => exact hr

/-- **There is no way back.** -/
theorem Doomed.step (h : s.Doomed) (hr : s.sys.job.params.slbaType = .replay)
    (hstep : Step spor3 s a s') : s'.Doomed := by
  cases hstep with
  | turn a sys hphase hstop ha hstep =>
    refine h.imp (hstep.moves hr).result fun hd => ⟨(hstep.moves hr).advance.stays hd.1, ?_⟩
    simp only [hphase]
  | poll id bio sys hphase hstep =>
    refine h.imp (hstep.moves hr).result ?_
    intro hd
    obtain ⟨-, hstate, hiogen, -, -⟩ := hstep.samePlace
    simp only [hstate, hiogen]
    exact hd
  | refuse draws bio res sys hphase hstop hres hstep => exact .inl hres
  | fail res hphase hres => exact .inl hres
  | timer hphase => exact h
  | stop hphase hstop =>
    by_cases hrun : s.sys.job.iogenState = .running
    · rcases h with h | ⟨h, -⟩
      · refine .inl ?_
        simp only [iogenJobShouldStop_of_running hrun]
        exact h
      · exact absurd hrun h
    · simp only [iogenJobShouldStop_of_not_running hrun]
      exact .inr ⟨hrun, rfl⟩
  | finish hphase hinflight =>
    refine h.imp (fun h => h) fun hd => ⟨hd.1, ?_⟩
    have hstate : s.sys.job.state = .aborting := by
      have := hd.2
      simpa only [hphase] using this
    exact if_pos hstate

/-- Once doomed, a job does not end normally. -/
theorem Doomed.not_replays (h : s.Doomed) (hend : s.phase = .ended) (lbas : List ℕ) (nhist : ℕ) :
    ¬ s.Replays lbas nhist := by
  rintro ⟨-, hstate, hresult⟩
  rcases h with h | ⟨-, h⟩
  · exact h hresult
  · simp only [hend] at h
    exact absurd (h.symm.trans hstate) (by decide)

/-! ### A full ring -/

/-- Who has read `nhist` entries is doomed. -/
structure Full (nhist : ℕ) (s : Runner) : Prop where
  slbaType : s.sys.job.params.slbaType = .replay
  length : s.reads.length + s.sys.job.replayHistCnt.toNat ≤ nhist
  doomed : s.sys.job.replayHistCnt = 0 → s.Doomed

theorem Full.step {nhist : ℕ} (h : Full nhist s) (hstep : Step spor3 s a s') : Full nhist s' := by
  have hlength := h.length
  refine ⟨hstep.slbaType h.slbaType, ?_, ?_⟩
  · cases hstep with
    | turn a sys hphase hstop ha hstep =>
      have hmoves := hstep.moves h.slbaType
      have hle := hmoves.advance.cnt
      have hone := JobLabel.length_reads a
      simp only [List.length_append]
      rcases Nat.eq_zero_or_pos a.reads.length with hz | hpos
      · omega
      · have hlt := (hmoves.reads (List.ne_nil_of_length_pos hpos)).1
        omega
    | poll id bio sys hphase hstep =>
      have hle := (hstep.moves h.slbaType).advance.cnt
      simp only
      omega
    | refuse draws bio res sys hphase hstop hres hstep =>
      have hle := (hstep.moves h.slbaType).advance.cnt
      simp only [broken]
      omega
    | stop hphase hstop =>
      by_cases hrun : s.sys.job.iogenState = .running
      · simp only [iogenJobShouldStop_of_running hrun]
        exact hlength
      · simp only [iogenJobShouldStop_of_not_running hrun]
        exact hlength
    | _ => exact hlength
  · intro hcnt
    -- the last entry ends the generator; without it, the job was doomed before
    by_cases hbefore : s.sys.job.replayHistCnt = 0
    · exact (h.doomed hbefore).step h.slbaType hstep
    · cases hstep with
      | turn a sys hphase hstop ha hstep =>
        have hstays := ((hstep.moves h.slbaType).advance.drained hcnt).resolve_left hbefore
        exact .inr ⟨hstays, by simp only [hphase]⟩
      | poll id bio sys hphase hstep =>
        exact absurd (hstep.samePlace.replayHistCnt ▸ hcnt) hbefore
      | refuse draws bio res sys hphase hstop hres hstep => exact .inl hres
      | stop hphase hstop =>
        refine absurd ?_ hbefore
        by_cases hrun : s.sys.job.iogenState = .running
        · simpa only [iogenJobShouldStop_of_running hrun] using hcnt
        · simpa only [iogenJobShouldStop_of_not_running hrun] using hcnt
      | _ => exact absurd hcnt hbefore

/-! ### An empty entry -/

/-- Nothing is read at an empty entry. -/
structure Nothing (s : Runner) : Prop where
  slbaType : s.sys.job.params.slbaType = .replay
  idx : s.sys.job.replayHistIdx.toNat < s.sys.iover.ns.nhist
  empty : s.sys.job.nextLba s.sys.iover = emptyLba
  reads : s.reads = []
  pool : s.phase = .loop → s.sys.Pool

/-- A step of the job stays at the empty entry. -/
theorem Nothing.move (h : Nothing s) {a : JobLabel} {sys : JobSystem}
    (hmoves : s.sys.Moves a sys) :
    sys.job.replayHistIdx.toNat < sys.iover.ns.nhist ∧
      sys.job.nextLba sys.iover = emptyLba ∧ a.reads = [] := by
  have hidx := hmoves.advance.idx h.empty
  refine ⟨by rw [hidx, hmoves.ring.ns]; exact h.idx, ?_, ?_⟩
  · rw [IogenJob.nextLba, hidx, hmoves.ring.histLba _ h.idx]
    exact h.empty
  · by_contra hreads
    exact (hmoves.reads hreads).2 h.empty

theorem Nothing.step (h : Nothing s) (hstep : Step spor3 s a s') :
    Nothing s' := by
  have hslba := hstep.slbaType h.slbaType
  cases hstep with
  | turn a sys hphase hstop ha hstep =>
    obtain ⟨hidx, hempty, hreads⟩ := h.move (hstep.moves h.slbaType)
    exact ⟨hslba, hidx, hempty, by rw [hreads, h.reads, List.append_nil],
      fun _ => hstep.pool ha (h.pool hphase)⟩
  | poll id bio sys hphase hstep =>
    obtain ⟨hidx, hempty, -⟩ := h.move (hstep.moves h.slbaType)
    exact ⟨hslba, hidx, hempty, h.reads, fun hloop =>
      hstep.pool (fun _ _ hsubmit => by cases hsubmit) (h.pool hloop)⟩
  | refuse draws bio res sys hphase hstop hres hstep =>
    obtain ⟨hidx, hempty, -⟩ := h.move (hstep.moves h.slbaType)
    exact ⟨hslba, hidx, hempty, h.reads, nofun⟩
  | fail res hphase hres => exact ⟨hslba, h.idx, h.empty, h.reads, nofun⟩
  | timer hphase =>
    exact ⟨hslba, h.idx, h.empty, h.reads, fun hloop =>
      ⟨(h.pool hloop).numInflight, (h.pool hloop).length⟩⟩
  | stop hphase hstop =>
    by_cases hrun : s.sys.job.iogenState = .running
    · refine ⟨hslba, ?_, ?_, h.reads, nofun⟩
      · simp only [iogenJobShouldStop_of_running hrun]
        exact h.idx
      · simp only [iogenJobShouldStop_of_running hrun]
        exact h.empty
    · refine ⟨hslba, ?_, ?_, h.reads, nofun⟩
      · simp only [iogenJobShouldStop_of_not_running hrun]
        exact h.idx
      · simp only [iogenJobShouldStop_of_not_running hrun]
        exact h.empty
  | finish hphase hinflight => exact ⟨hslba, h.idx, h.empty, h.reads, nofun⟩

/-- A step that looks at an empty entry, or that fails, dooms the job. -/
theorem Nothing.doomed (h : Nothing s) (hstep : Step spor3 s a s')
    (ha : ¬ s.OnlyFlush a) : s'.Doomed := by
  cases hstep with
  | turn a sys hphase hstop _ hstep =>
    exact .inr ⟨hstep.ends h.slbaType (h.pool hphase) h.empty ha, by simp only [hphase]⟩
  | refuse draws bio res sys hphase hstop hres hstep => exact .inl hres
  | fail res hphase hres => exact .inl hres
  | _ => exact absurd trivial ha

/-- **A run at an empty entry** that does not doom the job only flushes. -/
theorem Nothing.onlyFlush (h : Nothing s) {ls : List RunnerLabel}
    (hr : Run (Step spor3) s ls s') (hd : ¬ s'.Doomed) :
    Run (guarded (Step spor3) OnlyFlush) s ls s' := by
  induction hr with
  | nil s => exact .nil s
  | cons hst hrun ih =>
    refine .cons ⟨?_, hst⟩ (ih (h.step hst) hd)
    by_contra hbad
    refine hd (hrun.invariant (I := fun s => s.Doomed ∧ s.sys.job.params.slbaType = .replay)
      (fun _ _ _ hi hst => ⟨hi.1.step hi.2 hst, hst.slbaType hi.2⟩)
      ⟨h.doomed hst hbad, hst.slbaType h.slbaType⟩).1

end Runner

/-! ### Flushes alone -/

/-- A job that has only flushed. -/
structure JobSystem.Calm (s : JobSystem) : Prop where
  slbaType : s.job.params.slbaType = .replay
  state : s.job.state = .running
  iogenState : s.job.iogenState = .running
  result : s.job.view.iogenResult = 0
  flushes : ∀ id ∈ s.job.bioInflight, (s.job.bioPool id).opcode = .flush

namespace JobSystem

variable {spor3 : Bool} {s s' : JobSystem} {a : JobLabel} {id : ℕ}

/-- A flush is generated. -/
theorem Calm.generate (h : s.Calm) {draws : GenDraws} {res : Option ℕ} {iover : Iover}
    {job : IogenJob} (hgen : generateBio s.iover s.job draws = (res, iover, job))
    (hdraws : s.job.oprLottery (draws.rand % 100) = .flush) :
    (⟨iover, job⟩ : JobSystem).Calm ∧ ∀ id, res = some id → (job.bioPool id).opcode = .flush := by
  have htakes := generateBio_replay h.slbaType hgen
  obtain ⟨hiogen, hres, hpool⟩ := htakes.flush hdraws
  obtain ⟨hparams, hinflight, hview⟩ : job.params = s.job.params ∧
      job.bioInflight = s.job.bioInflight ∧ job.view = s.job.view := by
    cases res with
    | none =>
      obtain ⟨-, hparams, -, hinflight, -, hview, -⟩ := generateBio_none hgen
      exact ⟨hparams, hinflight, hview⟩
    | some id =>
      obtain ⟨_, -, -, -, hparams, hinflight, -, hview, -, -⟩ := generateBio_some hgen
      exact ⟨hparams, hinflight, hview⟩
  refine ⟨⟨hparams ▸ h.slbaType, htakes.advance.state.trans h.state, hiogen.trans h.iogenState,
    hview ▸ h.result, fun id hid => ?_⟩, hres⟩
  rcases hpool id with hop | hsame
  · exact hop
  · simp only [hsame]
    exact h.flushes id (hinflight ▸ hid)

/-- A flush is put in flight. -/
theorem Calm.start (h : s.Calm) (hop : (s.job.bioPool id).opcode = .flush) :
    (⟨s.iover, startBio s.job id⟩ : JobSystem).Calm := by
  refine ⟨h.slbaType, h.state, h.iogenState, h.result, ?_⟩
  intro j hj
  rcases List.mem_cons.mp hj with rfl | hj
  · exact hop
  · exact h.flushes j hj

/-- A flush is completed. -/
theorem Calm.ended (h : s.Calm) (hid : id ∈ s.job.bioInflight) {iover : Iover} {job : IogenJob}
    (hend : bioEnd s.iover s.job id = some (iover, job)) : (⟨iover, job⟩ : JobSystem).Calm := by
  obtain ⟨-, hplace, hresult⟩ := bioEnd_replay hend
  have hflush := h.flushes id hid
  have hsame : job.view.iogenResult = s.job.view.iogenResult :=
    hresult.resolve_right fun hread => absurd (hflush.symm.trans hread.1) (by decide)
  refine ⟨hplace.params ▸ h.slbaType, hplace.state.trans h.state,
    hplace.iogenState.trans h.iogenState, hsame.trans h.result, fun j hj => ?_⟩
  rcases bioEnd_cases hend with ⟨-, r, -, -, rfl⟩ | ⟨-, -, rfl⟩
  · exact h.flushes j (List.mem_of_mem_erase hj)
  · exact h.flushes j (List.mem_of_mem_erase hj)

/-- **A job that only flushes stays calm.** -/
theorem Calm.step (h : s.Calm) (hstep : Step spor3 s a s') (ha : a.DrawsFlush s.job) :
    s'.Calm := by
  cases hstep with
  | retry draws iover job _ hgen => exact (h.generate hgen ha).1
  | submit draws id iover iover' job job' _ hgen henqueue =>
    obtain ⟨hcalm, hop⟩ := h.generate hgen ha
    obtain ⟨-, rfl⟩ := enqueueBio_spec henqueue
    obtain ⟨hslba, hstate, hiogen, hresult, hflushes⟩ := hcalm.start (hop id rfl)
    exact ⟨hslba, hstate, hiogen, hresult, hflushes⟩
  | reject draws id iover job _ hgen => exact (h.generate hgen ha).1
  | flush draws id iover iover' job job' _ hgen hop hend =>
    obtain ⟨hcalm, hop⟩ := h.generate hgen ha
    exact (hcalm.start (hop id rfl)).ended List.mem_cons_self hend
  | complete id bio iover job hid hex hend =>
    have hanswer : (⟨s.iover, answerBio s.job id bio⟩ : JobSystem).Calm := by
      refine ⟨h.slbaType, h.state, h.iogenState, h.result, ?_⟩
      intro j hj
      by_cases hji : j = id
      · subst hji
        rw [answerBio_self, hex.opcode]
        exact h.flushes j hj
      · simp only [answerBio, Function.update_of_ne hji]
        exact h.flushes j hj
    exact hanswer.ended hid hend
  | reinit =>
    exact ⟨h.slbaType, h.state, h.iogenState, h.result, fun j hj => absurd hj List.not_mem_nil⟩

end JobSystem

namespace Runner

variable {spor3 : Bool} {s s' : Runner} {a : RunnerLabel}

/-- A calm job that ends, ends normally. -/
def Calm (s : Runner) : Prop :=
  if s.phase = .ended then s.sys.job.state = .done ∧ s.sys.job.view.iogenResult = 0
  else s.sys.Calm

theorem Calm.step (h : s.Calm) (hstep : guarded (Step spor3) OnlyFlush s a s') : s'.Calm := by
  obtain ⟨ha, hstep⟩ := hstep
  have hsys : s.phase ≠ .ended → s.sys.Calm := fun hphase => by rwa [Calm, if_neg hphase] at h
  cases hstep with
  | turn a sys hphase hstop _ hstep =>
    have hne : s.phase ≠ .ended := by rw [hphase]; decide
    rw [Calm, if_neg hne]
    exact (hsys hne).step hstep ha
  | poll id bio sys hphase hstep =>
    rw [Calm, if_neg hphase]
    exact (hsys hphase).step hstep trivial
  | refuse draws bio res sys hphase hstop hres hstep => exact absurd ha id
  | fail res hphase hres => exact absurd ha id
  | timer hphase =>
    rw [Calm, if_neg hphase]
    obtain ⟨hslba, hstate, hiogen, hresult, hflushes⟩ := hsys hphase
    exact ⟨hslba, hstate, hiogen, hresult, hflushes⟩
  | stop hphase hstop =>
    have hcalm := hsys (by rw [hphase]; decide)
    rw [Calm, if_neg nofun]
    simp only [iogenJobShouldStop_of_running hcalm.iogenState]
    exact hcalm
  | finish hphase hinflight =>
    have hcalm := hsys (by rw [hphase]; decide)
    rw [Calm, if_pos rfl]
    refine ⟨?_, hcalm.result⟩
    simp only [iogenJobEnd, hcalm.state]
    decide

/-! ## The two runs -/

/-- The last records of a ring that is not full are all of them. -/
theorem length_last (lbas : List ℕ) (nhist : ℕ) :
    (lbas.reverse.take nhist).length = min nhist lbas.length := by
  rw [List.length_take, List.length_reverse]

/-- A replay starts with all of the ring before it. -/
theorem full_start {iover : Iover} {lbas : List ℕ} (h : Ring iover lbas) {job : IogenJob}
    (hr : job.params.slbaType = .replay) : Full iover.ns.nhist (start iover job) := by
  have hcnt : (start iover job).sys.job.replayHistCnt = iover.header.nhist :=
    (nextLba_begin h.pos _).2
  refine ⟨?_, ?_, ?_⟩
  · simp only [start, iogenJobBegin, if_pos h.pos]
    exact hr
  · rw [hcnt, h.nhist]
    simp [start]
  · intro hzero
    rw [hcnt] at hzero
    have hpos := h.pos
    rw [← h.nhist, hzero] at hpos
    exact absurd hpos (by decide)

/-- Until the ring is full, it starts at an empty entry. -/
theorem nothing_start {iover : Iover} {lbas : List ℕ} (h : Ring iover lbas)
    (hlt : lbas.length < iover.ns.nhist) {job : IogenJob}
    (hr : job.params.slbaType = .replay) : Nothing (start iover job) where
  slbaType := by
    simp only [start, iogenJobBegin, if_pos h.pos]
    exact hr
  idx := by
    have hidx : (start iover job).sys.job.replayHistIdx = iover.header.histIdx :=
      (nextLba_begin h.pos _).1
    rw [hidx, h.histIdx]
    exact Nat.mod_lt _ h.pos
  empty := h.nextLba_of_lt hlt _
  reads := rfl
  pool _ := by
    constructor <;> simp [start, iogenJobBegin, if_pos h.pos]

/-- It is calm at its start. -/
theorem calm_start {iover : Iover} (hn : 0 < iover.ns.nhist) {job : IogenJob}
    (hr : job.params.slbaType = .replay) : (start iover job).Calm := by
  rw [Calm, if_neg nofun]
  constructor <;> simp [start, iogenJobBegin, if_pos hn, hr]

/-- **No record is replayed.** A job that replays the history ends normally with the last records
read, newest first, exactly if there are no records and it does not look for them. -/
theorem replays_iff {iover₀ iover : Iover} {rs : List (List ℕ)} (hnew : NewRing iover₀)
    (hrecord : Run RecordStep iover₀ rs iover) {job : IogenJob}
    (hr : job.params.slbaType = .replay) {ls : List RunnerLabel}
    (hrun : Run (Step spor3) (start iover job) ls s) (hend : s.phase = .ended) :
    s.Replays rs.flatten iover.ns.nhist ↔
      rs.flatten = [] ∧ Run (guarded (Step spor3) OnlyFlush) (start iover job) ls s := by
  have hring : Ring iover rs.flatten := by
    have h := hnew.ring.run hrecord
    rwa [List.nil_append] at h
  rcases Nat.lt_or_ge rs.flatten.length iover.ns.nhist with hlt | hge
  · -- the first entry is empty
    have hstart := nothing_start hring hlt hr
    have hnothing : Nothing s := hrun.invariant (fun _ _ _ hi hst => hi.step hst) hstart
    refine ⟨?_, ?_⟩
    · intro h
      have hlength := congrArg List.length h.reads
      rw [hnothing.reads, List.map_nil, List.length_nil, length_last] at hlength
      have hnil : rs.flatten = [] := List.length_eq_zero_iff.mp (by omega)
      exact ⟨hnil, hstart.onlyFlush hrun fun hd => hd.not_replays hend _ _ h⟩
    · rintro ⟨hnil, hflush⟩
      have hcalm : s.Calm := hflush.invariant (fun _ _ _ hi hst => hi.step hst)
        (calm_start hring.pos hr)
      rw [Calm, if_pos hend] at hcalm
      refine ⟨?_, hcalm.1, hcalm.2⟩
      rw [hnothing.reads, hnil, List.reverse_nil, List.take_nil, List.map_nil]
  · -- the ring is full, and all of it is to be read
    have hfull : Full iover.ns.nhist s := hrun.invariant (fun _ _ _ hi hst => hi.step hst)
      (full_start hring hr)
    refine iff_of_false ?_ ?_
    · intro h
      have hlength := congrArg List.length h.reads
      rw [List.length_map, length_last, Nat.min_eq_left hge] at hlength
      have hcnt : s.sys.job.replayHistCnt = 0 := by
        have := hfull.length
        apply BitVec.eq_of_toNat_eq
        change s.sys.job.replayHistCnt.toNat = 0
        omega
      exact (hfull.doomed hcnt).not_replays hend _ _ h
    · intro h
      have hpos := hring.pos
      rw [h.1, List.length_nil] at hge
      omega

/-! ### One record -/

/-- A new ring of two entries. -/
def emptyRing : Iover :=
  .init (.plain 8 2 eight_lbas_lt two_entries_lt) (fun _ _ => 0) (fun _ => .zero)
    (fun _ => .ones) (createHeader (.plain 8 2 eight_lbas_lt two_entries_lt) .zero) 0

/-- The ring after LBA 3 was deallocated. -/
def oneRecord : Iover := histAppendLbas emptyRing (.plain .deallocate 3 1 fun _ => 0) .dealloc

/-- A job that replays the history. -/
def replayJob : IogenJob :=
  { JobSystem.zeroesJob with
    params := { JobParams.plain with slbaType := .replay, history := 2 }
    oprLottery := fun _ => .read }

theorem newRing_emptyRing : NewRing emptyRing := ⟨by decide, rfl, rfl, fun _ _ => rfl⟩

theorem oneRecord_run : Run RecordStep emptyRing [[3]] oneRecord :=
  .single (.backup replayJob.params (.plain .deallocate 3 1 fun _ => 0) _ rfl)

/-- The job finds an empty entry, sends a flush, and is aborted. -/
theorem oneRecord_replay : ∃ (ls : List RunnerLabel) (s : Runner),
    Run (Step false) (start oneRecord replayJob) ls s ∧ s.phase = .ended ∧ s.reads = [] ∧
      s.sys.job.state = .aborted := by
  refine ⟨_, _, .cons (.turn (.submit (JobSystem.plainDraws 0) _) _ rfl rfl nofun
      (.submit (JobSystem.plainDraws 0) 0 _ _ _ _ (by decide) rfl rfl)) <|
    .cons (.poll 0 _ _ nofun (.complete 0 _ _ _ (by decide) (.refl _) rfl)) <|
    .cons (.stop rfl rfl) <|
    .cons (.finish rfl (.inl rfl)) <| .nil _, rfl, rfl, rfl⟩

/-- The job is to replay the history, but flushes, and that once. -/
def flushJob : IogenJob :=
  { replayJob with
    params := { replayJob.params with amount := .io 1 }
    oprLottery := fun _ => .flush }

/-- Nothing was recorded, and the job ends normally without having looked at the history. -/
theorem replays_emptyRing : ∃ (ls : List RunnerLabel) (s : Runner),
    Run (Step false) (start emptyRing flushJob) ls s ∧ s.phase = .ended ∧ s.sys.job.sumOps = 1 ∧
      s.Replays [] 2 := by
  have hflushes : ∃ (ls : List RunnerLabel) (s : Runner),
      Run (guarded (Step false) OnlyFlush) (start emptyRing flushJob) ls s ∧ s.phase = .ended ∧
        s.sys.job.sumOps = 1 := by
    refine ⟨_, _, .cons ⟨?_, .turn (.submit (JobSystem.plainDraws 0) _) _ rfl rfl nofun
        (.submit (JobSystem.plainDraws 0) 0 _ _ _ _ (by decide) rfl rfl)⟩ <|
      .cons ⟨?_, .poll 0 _ _ nofun (.complete 0 _ _ _ (by decide) (.refl _) rfl)⟩ <|
      .cons ⟨?_, .stop rfl rfl⟩ <|
      .cons ⟨?_, .finish rfl (.inl rfl)⟩ <| .nil _, rfl, rfl⟩
    · rfl
    all_goals trivial
  obtain ⟨ls, s, hrun, hend, hops⟩ := hflushes
  have hiff : s.Replays [] 2 ↔ [] = [] ∧ Run (guarded (Step false) OnlyFlush) _ ls s :=
    replays_iff newRing_emptyRing (.nil emptyRing) rfl hrun.of_guarded hend
  exact ⟨ls, s, hrun.of_guarded, hend, hops, hiff.mpr ⟨rfl, hrun⟩⟩

/-- **A record that is not replayed.** The ring has one record, and the job ends without having
read it. -/
theorem not_replays_oneRecord : NewRing emptyRing ∧ Run RecordStep emptyRing [[3]] oneRecord ∧
    ∃ (ls : List RunnerLabel) (s : Runner),
      Run (Step false) (start oneRecord replayJob) ls s ∧ s.phase = .ended ∧
        ¬ s.Replays [3] 2 := by
  obtain ⟨ls, s, hrun, hend, hreads, -⟩ := oneRecord_replay
  refine ⟨newRing_emptyRing, oneRecord_run, ls, s, hrun, hend, ?_⟩
  intro h
  have hslbas := h.reads
  rw [hreads] at hslbas
  exact absurd hslbas (by decide)

end Runner

end ChamberSpo

import ChamberSpo.Engines
import ChamberSpo.InflightLock

/-!
# The bio pool of a job

`iogen_job_runner` with the engine that it drives: every bio of the pool is on the list of the free
ones or on that of those in flight, and a bio that the engine took is ended once.

* `EngineRunner.Step` — the runner, one bio at a time. Resets and tests of `spor_level` 3 are left
  out.
* `EngineRunner.BioPoolKept` — where the bios of the pool are, and how often they were ended.
* `EngineRunner.Leaving` — the runner is out of its loop, and waits for what is in flight.
* `EngineRunner.Served` — the commands come back.

`EngineRunner.Inv.step` is the step lemma, and `EngineRunner.Inv.leaving_step` the one for the
runner that waits.
-/

namespace ChamberSpo

/-- Where `iogen_job_runner` stands. -/
inductive RunnerPc where
  /-- at the head of its loop -/
  | loop
  /-- a bio was taken -/
  | taken
  /-- `generate_bio` returned `NULL` -/
  | retrying
  /-- in a poll: of the loop, or after it -/
  | polling (draining : Bool) (pc : Engine.PollPc)
  /-- behind the loop -/
  | leaving
  /-- at the head of the loop that waits for what is in flight -/
  | draining
  | ended
  /-- the process has exited -/
  | exited

/-- Where the runner goes on after a submission. -/
def RunnerPc.afterSubmit : RunnerPc → RunnerPc
  | .retrying => .retrying
  | _ => .loop

/-- The runner waits for what is in flight. -/
def RunnerPc.waits : RunnerPc → Bool
  | .draining | .polling true _ => true
  | _ => false

/-- The bios that a poll took and has still to end. -/
def RunnerPc.ids : RunnerPc → List ℕ
  | .polling _ pc => pc.ids
  | _ => []

/-- A job, its engine and its runner. -/
structure EngineRunner where
  sys : JobSystem
  engine : Engine
  pc : RunnerPc
  nrEnqueued : ℕ
  /-- the bios that the engine took, oldest first -/
  accepted : List ℕ
  /-- the bios that were ended, oldest first -/
  ended : List ℕ

/-- `batch_submit`, `batch_complete` and the version of the kernel. -/
structure BatchParams where
  batchSubmit : ℕ
  batchComplete : ℕ
  oldKernel : Bool

/-- What the runner does next. -/
inductive EngineRunnerLabel where
  /-- `generate_bio` returns `NULL` -/
  | retry (draws : GenDraws)
  /-- a bio is given to the engine -/
  | enqueue (draws : GenDraws) (bio : Bio) (answers : EngineAnswers)
  /-- what was taken is submitted, or more is waited for -/
  | submit (results : List Int)
  | noSubmit
  | poll
  /-- the next bio that a poll ends, as the device has answered it -/
  | complete (bio : Bio)
  | pollEnd
  /-- `iogen_job_should_stop` -/
  | stop
  /-- the submission behind the loop -/
  | lastSubmit (results : List Int)
  /-- `iogen_job_end` -/
  | finish
  /-- a bio took too long, and `stop_on_timeout` is set -/
  | timeoutExit
  /-- the time of the job is over -/
  | timer
  /-- another job of the generator, or of the namespace -/
  | others (iover : Iover) (iogenState : IogenState) (iogenResult : Int)

/-- It is the runner that moves. -/
def EngineRunnerLabel.own : EngineRunnerLabel → Bool
  | .timer | .others .. => false
  | _ => true

namespace EngineRunner

/-- An error of the engine ends the loop. -/
def broken (s : EngineRunner) (res : Int) : EngineRunner :=
  { s with
    sys := { s.sys with
      job := { s.sys.job with view := { s.sys.job.view with iogenResult := res } } }
    pc := .leaving }

/-- The loop goes on after a submission, if it succeeded. -/
def submitted (s : EngineRunner) (res : Int) (engine : Engine) (pc : RunnerPc) : EngineRunner :=
  if res = 0 then { s with engine := engine, pc := pc, nrEnqueued := 0 }
  else { s with engine := engine }.broken res

/-- A bio was ended, or the process exited on the way. -/
def afterEnd (s : EngineRunner) (id : ℕ) (engine : Engine) (pc : RunnerPc) :
    Option (Iover × IogenJob) → EngineRunner
  | some (iover, job) =>
    { s with sys := ⟨iover, job⟩, engine := engine, pc := pc, ended := s.ended ++ [id] }
  | none => { s with pc := .exited }

/-- A bio was taken and ended at once, or the process exited on the way. -/
def afterFlush (s : EngineRunner) (id : ℕ) (engine : Engine) :
    Option (Iover × IogenJob) → EngineRunner
  | some (iover, job) =>
    { s with
      sys := ⟨iover, job⟩
      engine := engine
      pc := .loop
      accepted := s.accepted ++ [id]
      ended := s.ended ++ [id] }
  | none => { s with pc := .exited }

/-- A bio is in flight, or the process exited on the way. -/
def afterEnqueue (s : EngineRunner) (id : ℕ) (engine : Engine) :
    Option (Iover × IogenJob) → EngineRunner
  | some (iover, job) =>
    { s with
      sys := ⟨iover, job⟩
      engine := engine
      pc := .taken
      nrEnqueued := s.nrEnqueued + 1
      accepted := s.accepted ++ [id] }
  | none => { s with pc := .exited }

/-- `batch_submit`, which is the `iodepth` when it is zero. -/
def batchSubmit (batch : BatchParams) (s : EngineRunner) : ℕ :=
  if batch.batchSubmit ≠ 0 then batch.batchSubmit else s.sys.job.params.iodepth

/-- The runner goes on in its loop. -/
def Continues (s : EngineRunner) : Prop :=
  s.pc = .loop ∧ (iogenJobShouldStop s.sys.job).1 = false

/-- The enqueued bios are to be submitted. -/
def Submits (batch : BatchParams) (s : EngineRunner) : Prop :=
  s.pc = .taken ∧ (s.nrEnqueued = s.batchSubmit batch ∨
      s.sys.job.numInflight = s.sys.job.params.iodepth) ∨
    s.pc = .retrying ∧ s.nrEnqueued ≠ 0

/-- `iogen_job_runner`, of a job without resets and below SPOR level 3. -/
inductive Step (batch : BatchParams) (s : EngineRunner) :
    EngineRunnerLabel → EngineRunner → Prop
  | retry (draws : GenDraws) (iover : Iover) (job : IogenJob) :
    s.Continues → s.sys.job.numInflight < s.sys.job.params.iodepth →
    generateBio s.sys.iover s.sys.job draws = (none, iover, job) →
    Step batch s (.retry draws) { s with sys := ⟨iover, job⟩, pc := .retrying }
  | refuse (draws : GenDraws) (answers : EngineAnswers) (id : ℕ) (iover : Iover) (job : IogenJob)
      (res : Int) (engine : Engine) :
    s.Continues → s.sys.job.numInflight < s.sys.job.params.iodepth →
    generateBio s.sys.iover s.sys.job draws = (some id, iover, job) →
    s.engine.enqueue batch.oldKernel (job.bioPool id).opcode id answers = some (res, engine) →
    res ≠ 0 →
    Step batch s (.enqueue draws (job.bioPool id) answers)
      ({ s with sys := ⟨iover, job⟩, engine := engine }.broken res)
  | flush (draws : GenDraws) (answers : EngineAnswers) (id : ℕ) (iover : Iover) (job : IogenJob)
      (engine : Engine) :
    s.Continues → s.sys.job.numInflight < s.sys.job.params.iodepth →
    generateBio s.sys.iover s.sys.job draws = (some id, iover, job) →
    s.engine.enqueue batch.oldKernel (job.bioPool id).opcode id answers = some (0, engine) →
    s.engine.quirk (job.bioPool id).opcode = true →
    Step batch s (.enqueue draws (job.bioPool id) answers)
      (s.afterFlush id engine (bioEnd iover (startBio job id) id))
  | take (draws : GenDraws) (answers : EngineAnswers) (id : ℕ) (iover : Iover) (job : IogenJob)
      (engine : Engine) :
    s.Continues → s.sys.job.numInflight < s.sys.job.params.iodepth →
    generateBio s.sys.iover s.sys.job draws = (some id, iover, job) →
    s.engine.enqueue batch.oldKernel (job.bioPool id).opcode id answers = some (0, engine) →
    s.engine.quirk (job.bioPool id).opcode = false →
    Step batch s (.enqueue draws (job.bioPool id) answers)
      (s.afterEnqueue id engine (enqueueBio false iover job id))
  | submit (results : List Int) (res : Int) (engine : Engine) :
    s.Submits batch → s.engine.submit results = some (res, engine) →
    Step batch s (.submit results)
      (s.submitted res engine s.pc.afterSubmit)
  | noSubmit :
    s.pc = .taken → ¬ s.Submits batch → Step batch s .noSubmit { s with pc := .loop }
  | poll (pc : Engine.PollPc) (engine : Engine) :
    (s.Continues ∧ ¬ s.sys.job.numInflight < s.sys.job.params.iodepth ∨
      s.pc = .retrying ∧ s.nrEnqueued = 0) →
    Engine.Polls 0 batch.batchComplete s.engine pc engine →
    Step batch s .poll { s with engine := engine, pc := .polling false pc }
  | drainPoll (pc : Engine.PollPc) (engine : Engine) :
    s.pc = .draining → 0 < s.sys.job.numInflight →
    Engine.Polls 1 batch.batchComplete s.engine pc engine →
    Step batch s .poll { s with engine := engine, pc := .polling true pc }
  | complete (draining : Bool) (pc pc' : Engine.PollPc) (id : ℕ) (bio : Bio) (engine : Engine) :
    s.pc = .polling draining pc →
    s.engine.next batch.batchComplete pc = some (id, engine, pc') →
    (s.sys.job.bioPool id).Executes bio → s.engine.Answers bio →
    Step batch s (.complete bio) (s.afterEnd id engine (.polling draining pc')
      (bioEnd s.sys.iover (answerBio s.sys.job id bio) id))
  | pollEnd (draining : Bool) (pc : Engine.PollPc) :
    s.pc = .polling draining pc → s.engine.next batch.batchComplete pc = none →
    Step batch s .pollEnd { s with pc := if draining then .draining else .loop }
  | stop :
    s.pc = .loop → (iogenJobShouldStop s.sys.job).1 = true →
    Step batch s .stop
      { s with sys := { s.sys with job := (iogenJobShouldStop s.sys.job).2 }, pc := .leaving }
  | lastSubmit (results : List Int) (res : Int) (engine : Engine) :
    s.pc = .leaving → s.engine.submit results = some (res, engine) →
    Step batch s (.lastSubmit results) { s with engine := engine, pc := .draining }
  | finish :
    s.pc = .draining → s.sys.job.numInflight = 0 →
    Step batch s .finish
      { s with sys := { s.sys with job := iogenJobEnd s.sys.job }, pc := .ended }
  | timeoutExit :
    s.Continues → s.sys.job.numInflight ≠ 0 →
    Step batch s .timeoutExit { s with pc := .exited }
  | timer :
    Step batch s .timer
      { s with sys := { s.sys with job := { s.sys.job with timeout := true } } }
  | others (iover : Iover) (iogenState : IogenState) (iogenResult : Int) :
    Step batch s (.others iover iogenState iogenResult) { s with
      sys :=
        { iover := iover
          job := { s.sys.job with
            iogenState := iogenState
            view := { s.sys.job.view with iogenResult := iogenResult } } } }

/-- A job that begins. -/
def start (iover : Iover) (job : IogenJob) (kind : EngineKind) : EngineRunner where
  sys :=
    { iover := iover
      job := iogenJobBegin iover { job with
        bioFree := List.range job.params.iodepth
        bioInflight := []
        numInflight := 0 } }
  engine := .init job.params.iodepth kind
  pc := .loop
  nrEnqueued := 0
  accepted := []
  ended := []

/-- **Every bio is on one list**, and has been ended each time that it was taken, but for the last
time if it is in flight. -/
structure BioPoolKept (s : EngineRunner) : Prop where
  lists : (s.sys.job.bioFree ++ s.sys.job.bioInflight).Perm
    (List.range s.sys.job.params.iodepth)
  numInflight : s.sys.job.numInflight = s.sys.job.bioInflight.length
  le : s.sys.job.numInflight ≤ s.sys.job.params.iodepth
  free : s.sys.job.numInflight < s.sys.job.params.iodepth → s.sys.job.bioFree ≠ []
  once : ∀ id, s.accepted.count id = s.ended.count id + s.sys.job.bioInflight.count id
  ended : s.pc = .ended → s.accepted.Perm s.ended

/-- The runner is out of its loop. -/
def Leaving (s : EngineRunner) : Prop :=
  match s.pc with
  | .leaving | .draining | .polling true _ | .ended | .exited => True
  | .loop | .taken | .retrying | .polling false _ => False

/-- The engine takes what it is given and ends it, and the submission behind the loop leaves
nothing behind. -/
def Served (s : EngineRunner) : EngineRunnerLabel → Prop
  | .enqueue _ bio answers =>
    s.engine.kind.serves bio.opcode = true ∧ s.engine.kind.Succeeds bio.opcode answers
  | .lastSubmit results => ∀ r ∈ results, 0 < r
  | _ => True

end EngineRunner

/-! ## The lists of a job -/

/-- Every bio is on one list. -/
structure IogenJob.Lists (job : IogenJob) : Prop where
  perm : (job.bioFree ++ job.bioInflight).Perm (List.range job.params.iodepth)
  numInflight : job.numInflight = job.bioInflight.length

/-- Nothing of what the lists are has changed. -/
structure IogenJob.SameLists (a b : IogenJob) : Prop where
  params : b.params = a.params
  bioFree : b.bioFree = a.bioFree
  bioInflight : b.bioInflight = a.bioInflight
  numInflight : b.numInflight = a.numInflight

section Lists

variable {iover iover' : Iover} {job job' : IogenJob} {draws : GenDraws} {id : ℕ}

theorem IogenJob.Lists.same (h : job.Lists) (hs : job.SameLists job') : job'.Lists where
  perm := by rw [hs.bioFree, hs.bioInflight, hs.params]; exact h.perm
  numInflight := by rw [hs.bioInflight, hs.numInflight]; exact h.numInflight

theorem IogenJob.Lists.length (h : job.Lists) :
    job.bioFree.length + job.bioInflight.length = job.params.iodepth := by
  have hlength := h.perm.length_eq
  rwa [List.length_append, List.length_range] at hlength

theorem sameLists_of_none (h : generateBio iover job draws = (none, iover', job')) :
    job.SameLists job' := by
  obtain ⟨-, hparams, hfree, hinflight, hnum, -, -⟩ := generateBio_none h
  exact ⟨hparams, hfree, hinflight, hnum⟩

/-- A generated bio is put in flight. -/
theorem IogenJob.Lists.start (h : job.Lists)
    (hgen : generateBio iover job draws = (some id, iover', job')) :
    (startBio job' id).Lists ∧ (startBio job' id).params = job.params ∧
      (startBio job' id).bioInflight = id :: job.bioInflight := by
  obtain ⟨rest, hfree, hrest, -, hparams, hinflight, hnum, -⟩ := generateBio_some hgen
  have hstart : (startBio job' id).bioInflight = id :: job.bioInflight := by
    rw [startBio, hinflight]
  refine ⟨⟨?_, ?_⟩, hparams, hstart⟩
  · change (job'.bioFree ++ (startBio job' id).bioInflight).Perm (List.range job'.params.iodepth)
    rw [hstart, hrest, hparams]
    apply List.perm_middle.trans
    have hperm := h.perm
    rwa [hfree] at hperm
  · change job'.numInflight + 1 = (startBio job' id).bioInflight.length
    rw [hstart, hnum, h.numInflight, List.length_cons]

/-- What `bio_end` does to the lists. -/
theorem bioEnd_lists (h : bioEnd iover job id = some (iover', job')) :
    job'.params = job.params ∧ job'.bioFree = id :: job.bioFree ∧
      job'.bioInflight = job.bioInflight.erase id ∧ job'.numInflight = job.numInflight - 1 := by
  rcases bioEnd_cases h with ⟨-, r, -, -, rfl⟩ | ⟨-, -, rfl⟩
  · exact ⟨rfl, rfl, rfl, rfl⟩
  · exact ⟨rfl, rfl, rfl, rfl⟩

/-- **A bio in flight that is ended** is free again. -/
theorem IogenJob.Lists.ended (h : job.Lists) (hid : id ∈ job.bioInflight)
    (hend : bioEnd iover job id = some (iover', job')) : job'.Lists := by
  obtain ⟨hparams, hfree, hinflight, hnum⟩ := bioEnd_lists hend
  have herase := List.perm_cons_erase hid
  refine ⟨?_, ?_⟩
  · rw [hparams, hfree, hinflight, List.cons_append]
    refine List.Perm.trans ?_ h.perm
    exact List.perm_middle.symm.trans (herase.symm.append_left job.bioFree)
  · rw [hnum, hinflight, h.numInflight, List.length_erase_of_mem hid]

theorem sameLists_iogenJobShouldStop (job : IogenJob) :
    job.SameLists (iogenJobShouldStop job).2 := by
  simp only [iogenJobShouldStop]
  split
  · exact ⟨rfl, rfl, rfl, rfl⟩
  · split <;> exact ⟨rfl, rfl, rfl, rfl⟩

theorem sameLists_iogenJobEnd (job : IogenJob) : job.SameLists (iogenJobEnd job) :=
  ⟨rfl, rfl, rfl, rfl⟩

/-- The timer and the generator do not touch the lists. -/
theorem sameLists_set (job : IogenJob) (timeout : Bool) (iogenState : IogenState) (view : JobView) :
    job.SameLists { job with timeout := timeout, iogenState := iogenState, view := view } :=
  ⟨rfl, rfl, rfl, rfl⟩

end Lists

/-! ## The runner -/

namespace EngineRunner

/-- What holds of the runner between two steps. -/
structure Inv (kind : EngineKind) (s : EngineRunner) : Prop where
  lists : s.sys.job.Lists
  kind : s.engine.kind = kind
  once : ∀ id, s.accepted.count id = s.ended.count id + s.sys.job.bioInflight.count id
  /-- what is in flight is with the engine, or a poll took it from there -/
  holds : s.pc ≠ .exited → ∃ bios, s.engine.Holds s.sys.job.params.iodepth bios ∧
    (s.pc.ids ++ bios).Perm s.sys.job.bioInflight
  /-- while the runner waits, nothing waits for the runner -/
  flushed : s.pc.waits = true → s.engine.Flushed
  idle : s.pc = .ended → s.sys.job.bioInflight = []

section Steps

variable {batch : BatchParams} {kind : EngineKind} {s s' : EngineRunner} {a : EngineRunnerLabel}

/-- **The invariant is what the pool is for.** -/
theorem Inv.bioPoolKept (h : s.Inv kind) : s.BioPoolKept := by
  have hlength := h.lists.length
  have hnum := h.lists.numInflight
  refine ⟨h.lists.perm, hnum, by omega, ?_, h.once, ?_⟩
  · intro hlt hnil
    rw [hnil, List.length_nil] at hlength
    omega
  · intro hpc
    refine List.perm_iff_count.mpr ?_
    intro id
    rw [h.once id, h.idle hpc, List.count_nil, Nat.add_zero]

/-- The runner goes on; the lists, the engine and what was ended stay. -/
theorem Inv.goOn (h : s.Inv kind) (pc : RunnerPc) {job : IogenJob}
    (hsame : s.sys.job.SameLists job) (iover : Iover) (hids : pc.ids = s.pc.ids)
    (hexited : s.pc = .exited → pc = .exited) (hwaits : pc.waits = true → s.pc.waits = true)
    (hidle : pc = .ended → s.sys.job.bioInflight = []) (nrEnqueued : ℕ) :
    Inv kind { s with sys := ⟨iover, job⟩, pc := pc, nrEnqueued := nrEnqueued } where
  lists := h.lists.same hsame
  kind := h.kind
  once id := by
    change _ = _ + job.bioInflight.count id
    rw [hsame.bioInflight]
    exact h.once id
  holds hpc := by
    obtain ⟨bios, hholds, hperm⟩ := h.holds (mt hexited hpc)
    refine ⟨bios, ?_, ?_⟩
    · change s.engine.Holds job.params.iodepth bios
      rw [hsame.params]
      exact hholds
    · change (pc.ids ++ bios).Perm job.bioInflight
      rw [hids, hsame.bioInflight]
      exact hperm
  flushed hw := h.flushed (hwaits hw)
  idle hend := by
    change job.bioInflight = []
    rw [hsame.bioInflight]
    exact hidle hend

/-- The process exits. -/
theorem Inv.exit (h : s.Inv kind) : Inv kind { s with pc := .exited } where
  lists := h.lists
  kind := h.kind
  once := h.once
  holds hno := absurd rfl hno
  flushed := nofun
  idle := nofun

/-- The engine and the runner go on; the lists and what was ended stay. -/
theorem Inv.drive (h : s.Inv kind) (pc : RunnerPc) {engine : Engine} {bios bios' : List ℕ}
    (hbios : (s.pc.ids ++ bios).Perm s.sys.job.bioInflight)
    (hholds : engine.Holds s.sys.job.params.iodepth bios')
    (hperm : (pc.ids ++ bios').Perm (s.pc.ids ++ bios)) (hkind : engine.kind = s.engine.kind)
    (hflushed : pc.waits = true → engine.Flushed) (hpc : pc ≠ .ended) (nrEnqueued : ℕ) :
    Inv kind { s with engine := engine, pc := pc, nrEnqueued := nrEnqueued } where
  lists := h.lists
  kind := hkind.trans h.kind
  once := h.once
  holds _ := ⟨bios', hholds, hperm.trans hbios⟩
  flushed := hflushed
  idle hend := absurd hend hpc

/-- **The engine has what is in flight** whenever no poll is going on. -/
theorem Inv.atRest (h : s.Inv kind) (hpc : s.pc ≠ .exited) (hids : s.pc.ids = []) :
    ∃ bios, s.engine.Holds s.sys.job.params.iodepth bios ∧
      bios.Perm s.sys.job.bioInflight ∧ bios.length = s.sys.job.numInflight := by
  obtain ⟨bios, hholds, hperm⟩ := h.holds hpc
  rw [hids, List.nil_append] at hperm
  exact ⟨bios, hholds, hperm, hperm.length_eq.trans h.lists.numInflight.symm⟩

/-- **A bio that is enqueued is taken.** -/
theorem Inv.enqueued (h : s.Inv kind) (hcont : s.Continues)
    (hlt : s.sys.job.numInflight < s.sys.job.params.iodepth) {opcode : BioOpcode} {id : ℕ}
    {answers : EngineAnswers} {res : Int} {engine : Engine}
    (hserves : s.engine.kind.serves opcode = true)
    (hsucc : s.engine.kind.Succeeds opcode answers)
    (he : s.engine.enqueue batch.oldKernel opcode id answers = some (res, engine)) :
    res = 0 ∧ engine.kind = s.engine.kind ∧ ∃ bios, bios.Perm s.sys.job.bioInflight ∧
      engine.Holds s.sys.job.params.iodepth
        (if s.engine.quirk opcode then bios else id :: bios) := by
  have hpc : s.pc = .loop := hcont.1
  obtain ⟨bios, hholds, hperm, hlength⟩ := h.atRest (by rw [hpc]; nofun) (by rw [hpc]; rfl)
  obtain ⟨hres, hkept, hkind⟩ := Engine.enqueue_spec hholds (by omega) hserves hsucc he
  exact ⟨hres, hkind, bios, hperm, hkept⟩

/-- A bio that was taken is in flight. -/
theorem Inv.take (h : s.Inv kind) {draws : GenDraws} {id : ℕ} {iover iover' : Iover}
    {job job' : IogenJob} {engine : Engine} {bios : List ℕ}
    (hgen : generateBio s.sys.iover s.sys.job draws = (some id, iover, job))
    (henqueue : enqueueBio false iover job id = some (iover', job'))
    (hkind : engine.kind = s.engine.kind) (hperm : bios.Perm s.sys.job.bioInflight)
    (hholds : engine.Holds s.sys.job.params.iodepth (id :: bios)) :
    (s.afterEnqueue id engine (some (iover', job'))).Inv kind := by
  obtain ⟨-, rfl⟩ := enqueueBio_spec henqueue
  obtain ⟨hlists, hparams, hinflight⟩ := h.lists.start hgen
  refine ⟨hlists, hkind.trans h.kind, ?_, fun _ => ⟨id :: bios, ?_, ?_⟩, nofun, nofun⟩
  · intro id'
    change (s.accepted ++ [id]).count id' =
      s.ended.count id' + (startBio job id).bioInflight.count id'
    rw [hinflight, List.count_append, List.count_singleton, List.count_cons, h.once id']
    omega
  · change engine.Holds (startBio job id).params.iodepth _
    rw [hparams]
    exact hholds
  · change (id :: bios).Perm (startBio job id).bioInflight
    rw [hinflight]
    exact hperm.cons id

/-- The flush of libaio is over. -/
theorem Inv.flush (h : s.Inv kind) {draws : GenDraws} {id : ℕ} {iover iover' : Iover}
    {job job' : IogenJob} {engine : Engine} {bios : List ℕ}
    (hgen : generateBio s.sys.iover s.sys.job draws = (some id, iover, job))
    (hend : bioEnd iover (startBio job id) id = some (iover', job'))
    (hkind : engine.kind = s.engine.kind) (hperm : bios.Perm s.sys.job.bioInflight)
    (hholds : engine.Holds s.sys.job.params.iodepth bios) :
    (s.afterFlush id engine (some (iover', job'))).Inv kind := by
  obtain ⟨hlists, hparams, hinflight⟩ := h.lists.start hgen
  obtain ⟨hparams', -, herase, -⟩ := bioEnd_lists hend
  have hid : id ∈ (startBio job id).bioInflight := List.mem_cons_self
  have hsame : job'.bioInflight = s.sys.job.bioInflight := by
    rw [herase, hinflight, List.erase_cons_head]
  refine ⟨hlists.ended hid hend, hkind.trans h.kind, fun id' => ?_, fun _ => ⟨bios, ?_, ?_⟩, nofun,
    nofun⟩
  · change (s.accepted ++ [id]).count id' = (s.ended ++ [id]).count id' + job'.bioInflight.count id'
    rw [hsame, List.count_append, List.count_append, h.once id']
    omega
  · change engine.Holds job'.params.iodepth bios
    rw [hparams', hparams]
    exact hholds
  · change bios.Perm job'.bioInflight
    rw [hsame]
    exact hperm

/-- **A poll ends a bio** that is in flight. -/
theorem Inv.complete (h : s.Inv kind) (bio : Bio) {draining : Bool} {pc pc' : Engine.PollPc}
    {id : ℕ} {engine : Engine} (hpc : s.pc = .polling draining pc)
    (hnext : s.engine.next batch.batchComplete pc = some (id, engine, pc')) :
    id ∈ s.sys.job.bioInflight ∧ (s.afterEnd id engine (.polling draining pc')
      (bioEnd s.sys.iover (answerBio s.sys.job id bio) id)).Inv kind := by
  obtain ⟨bios, hholds, hperm⟩ := h.holds (by rw [hpc]; nofun)
  rw [hpc] at hperm
  obtain ⟨rest, hrest, hfirst, hkind, hflushed⟩ := Engine.next_spec hholds hnext
  have hcons : (id :: (pc'.ids ++ rest)).Perm s.sys.job.bioInflight := hfirst.symm.trans hperm
  have hid : id ∈ s.sys.job.bioInflight := hcons.subset List.mem_cons_self
  refine ⟨hid, ?_⟩
  cases hend : bioEnd s.sys.iover (answerBio s.sys.job id bio) id with
  | none => exact h.exit
  | some out =>
    obtain ⟨iover', job'⟩ := out
    obtain ⟨hparams, -, herase, -⟩ := bioEnd_lists hend
    have hanswer : s.sys.job.SameLists (answerBio s.sys.job id bio) := ⟨rfl, rfl, rfl, rfl⟩
    refine ⟨(h.lists.same hanswer).ended hid hend, hkind.trans h.kind, fun id' => ?_,
      fun _ => ⟨rest, ?_, ?_⟩, fun hw => hflushed (h.flushed ?_), nofun⟩
    · change s.accepted.count id' = (s.ended ++ [id]).count id' + job'.bioInflight.count id'
      have hcount := (List.perm_cons_erase hid).count_eq id'
      rw [List.count_cons] at hcount
      rw [herase, List.count_append, List.count_singleton, h.once id', hcount]
      change _ = _ + _ + (s.sys.job.bioInflight.erase id).count id'
      omega
    · change engine.Holds job'.params.iodepth rest
      rw [hparams]
      exact hrest
    · change (pc'.ids ++ rest).Perm job'.bioInflight
      rw [herase]
      exact (List.cons_perm_iff_perm_erase.mp hcons).2
    · rw [hpc]
      cases draining with
      | true => rfl
      | false => exact hw

/-- A submission that failed ends the loop. -/
theorem Inv.broken (h : s.Inv kind) (hids : s.pc.ids = []) (hpc : s.pc ≠ .exited) (res : Int) :
    (s.broken res).Inv kind :=
  h.goOn .leaving
    (sameLists_set _ s.sys.job.timeout s.sys.job.iogenState
      { s.sys.job.view with iogenResult := res })
    s.sys.iover hids.symm (absurd · hpc) nofun nofun s.nrEnqueued

/-- **A submission of the loop**, whether it succeeds or not. -/
theorem Inv.submitted (h : s.Inv kind) (hsubmits : s.Submits batch) {results : List Int}
    {res : Int} {engine : Engine} (hs : s.engine.submit results = some (res, engine)) :
    (s.submitted res engine s.pc.afterSubmit).Inv kind := by
  have hids : s.pc.ids = [] ∧ s.pc.afterSubmit.ids = [] := by
    rcases hsubmits with ⟨hpc, -⟩ | ⟨hpc, -⟩ <;> rw [hpc] <;> exact ⟨rfl, rfl⟩
  have hpc : s.pc ≠ .exited ∧ s.pc.afterSubmit ≠ .exited ∧ s.pc.afterSubmit ≠ .ended ∧
      s.pc.afterSubmit.waits = false := by
    rcases hsubmits with ⟨hpc, -⟩ | ⟨hpc, -⟩ <;> rw [hpc] <;> exact ⟨nofun, nofun, nofun, rfl⟩
  obtain ⟨bios, hholds, hperm⟩ := h.holds hpc.1
  obtain ⟨hkept, hkind, -⟩ := Engine.submit_spec hholds hs
  have hdrive (nrEnqueued : ℕ) := h.drive s.pc.afterSubmit hperm hkept
    (by rw [hids.1, hids.2]) hkind (by rw [hpc.2.2.2]; nofun) hpc.2.2.1 nrEnqueued
  rw [EngineRunner.submitted]
  split
  · exact hdrive 0
  · exact (hdrive s.nrEnqueued).broken hids.2 hpc.2.1 res

/-- **A poll begins**, in the loop or behind it. -/
theorem Inv.polls (h : s.Inv kind) (draining : Bool) (hids : s.pc.ids = [])
    (hexit : s.pc ≠ .exited) (hwaits : draining = true → s.pc.waits = true) {min max : ℕ}
    {pc : Engine.PollPc} {engine : Engine} (hpolls : Engine.Polls min max s.engine pc engine) :
    Inv kind { s with engine := engine, pc := .polling draining pc } := by
  obtain ⟨bios, hholds, hperm⟩ := h.holds hexit
  obtain ⟨rest, hrest, htaken, hkind, hflushed⟩ := hpolls.spec hholds
  refine h.drive (.polling draining pc) hperm hrest ?_ hkind ?_ nofun s.nrEnqueued
  · rw [hids]
    exact htaken
  · intro hw
    cases draining with
    | true => exact hflushed (h.flushed (hwaits rfl))
    | false => cases hw

/-- A poll returns. -/
theorem Inv.pollEnd (h : s.Inv kind) {draining : Bool} {pc : Engine.PollPc}
    (hpc : s.pc = .polling draining pc) (hnext : s.engine.next batch.batchComplete pc = none) :
    Inv kind { s with pc := if draining then .draining else .loop } := by
  have hids : s.pc.ids = [] := by
    rw [hpc]
    exact Engine.ids_of_next_eq_none hnext
  cases draining with
  | true =>
    exact h.goOn .draining ⟨rfl, rfl, rfl, rfl⟩ s.sys.iover hids.symm (by rw [hpc]; nofun)
      (fun _ => by rw [hpc]; rfl) nofun s.nrEnqueued
  | false =>
    exact h.goOn .loop ⟨rfl, rfl, rfl, rfl⟩ s.sys.iover hids.symm (by rw [hpc]; nofun) nofun nofun
      s.nrEnqueued

/-- **The submission behind the loop** leaves nothing behind. -/
theorem Inv.lastSubmit (h : s.Inv kind) (hpc : s.pc = .leaving) {results : List Int} {res : Int}
    {engine : Engine} (hs : s.engine.submit results = some (res, engine))
    (hall : ∀ r ∈ results, 0 < r) : Inv kind { s with engine := engine, pc := .draining } := by
  obtain ⟨bios, hholds, hperm⟩ := h.holds (by rw [hpc]; nofun)
  obtain ⟨hkept, hkind, hflushed⟩ := Engine.submit_spec hholds hs
  refine h.drive .draining hperm hkept ?_ hkind (fun _ => hflushed hall) nofun s.nrEnqueued
  rw [hpc]
  rfl

/-- **The step lemma.** -/
theorem Inv.step (h : s.Inv kind) (hst : guarded (Step batch) Served s a s') : s'.Inv kind := by
  obtain ⟨hserved, hstep⟩ := hst
  cases hstep with
  | retry draws iover job hcont _ hgen =>
    have hpc : s.pc = .loop := hcont.1
    exact h.goOn .retrying (sameLists_of_none hgen) iover (by rw [hpc]; rfl) (by rw [hpc]; nofun)
      nofun nofun s.nrEnqueued
  | refuse draws answers id iover job res engine hcont hlt hgen he hres =>
    obtain ⟨hserves, hsucc⟩ := hserved
    exact absurd (h.enqueued hcont hlt hserves hsucc he).1 hres
  | flush draws answers id iover job engine hcont hlt hgen he hquirk =>
    obtain ⟨hserves, hsucc⟩ := hserved
    obtain ⟨-, hkind, bios, hperm, hholds⟩ := h.enqueued hcont hlt hserves hsucc he
    rw [if_pos hquirk] at hholds
    cases hend : bioEnd iover (startBio job id) id with
    | none => exact h.exit
    | some out => exact h.flush hgen hend hkind hperm hholds
  | take draws answers id iover job engine hcont hlt hgen he hquirk =>
    obtain ⟨hserves, hsucc⟩ := hserved
    obtain ⟨-, hkind, bios, hperm, hholds⟩ := h.enqueued hcont hlt hserves hsucc he
    rw [hquirk] at hholds
    cases henqueue : enqueueBio false iover job id with
    | none => exact h.exit
    | some out => exact h.take hgen henqueue hkind hperm hholds
  | submit results res engine hsubmits hs => exact h.submitted hsubmits hs
  | noSubmit hpc _ =>
    exact h.goOn .loop ⟨rfl, rfl, rfl, rfl⟩ s.sys.iover (by rw [hpc]; rfl) (by rw [hpc]; nofun)
      nofun nofun s.nrEnqueued
  | poll pc engine hat hpolls =>
    have hpc : s.pc.ids = [] ∧ s.pc ≠ .exited := by
      rcases hat with ⟨⟨hpc, -⟩, -⟩ | ⟨hpc, -⟩ <;> rw [hpc] <;> exact ⟨rfl, nofun⟩
    exact h.polls false hpc.1 hpc.2 nofun hpolls
  | drainPoll pc engine hpc _ hpolls =>
    exact h.polls true (by rw [hpc]; rfl) (by rw [hpc]; nofun) (fun _ => by rw [hpc]; rfl) hpolls
  | complete draining pc pc' id bio engine hpc hnext _ _ => exact (h.complete bio hpc hnext).2
  | pollEnd draining pc hpc hnext => exact h.pollEnd hpc hnext
  | stop hpc _ =>
    exact h.goOn .leaving (sameLists_iogenJobShouldStop s.sys.job) s.sys.iover (by rw [hpc]; rfl)
      (by rw [hpc]; nofun) nofun nofun s.nrEnqueued
  | lastSubmit results res engine hpc hs => exact h.lastSubmit hpc hs hserved
  | finish hpc hzero =>
    have hnil : s.sys.job.bioInflight = [] :=
      List.length_eq_zero_iff.mp (h.lists.numInflight.symm.trans hzero)
    exact h.goOn .ended (sameLists_iogenJobEnd s.sys.job) s.sys.iover (by rw [hpc]; rfl)
      (by rw [hpc]; nofun) nofun (fun _ => hnil) s.nrEnqueued
  | timeoutExit _ _ => exact h.exit
  | timer =>
    exact h.goOn s.pc (sameLists_set _ true s.sys.job.iogenState s.sys.job.view) s.sys.iover rfl id id
      h.idle s.nrEnqueued
  | others iover iogenState iogenResult =>
    exact h.goOn s.pc
      (sameLists_set _ s.sys.job.timeout iogenState { s.sys.job.view with iogenResult := iogenResult })
      iover rfl id id h.idle s.nrEnqueued

/-- A job begins with every bio free. -/
theorem Inv.start (iover : Iover) (job : IogenJob) : (start iover job kind).Inv kind := by
  have hsame : IogenJob.SameLists { job with
      bioFree := List.range job.params.iodepth
      bioInflight := []
      numInflight := 0 } (EngineRunner.start iover job kind).sys.job := by
    change IogenJob.SameLists _ (iogenJobBegin iover _)
    simp only [iogenJobBegin]
    split <;> exact ⟨rfl, rfl, rfl, rfl⟩
  have hlists : IogenJob.Lists { job with
      bioFree := List.range job.params.iodepth
      bioInflight := []
      numInflight := 0 } := ⟨by rw [List.append_nil], rfl⟩
  refine ⟨hlists.same hsame, Engine.init_kind _ kind, fun id => ?_, fun _ => ⟨[], ?_, ?_⟩, nofun,
    nofun⟩
  · rw [hsame.bioInflight]
    rfl
  · rw [hsame.params]
    exact Engine.init_holds _ kind
  · rw [hsame.bioInflight]
    exact .nil

/-! ## The end of a job -/

/-- What a runner that is out of its loop has left to do: three steps for each bio in flight. -/
def left (batch : BatchParams) (s : EngineRunner) : ℕ :=
  match s.pc with
  | .leaving => 3 * s.sys.job.numInflight + 2
  | .draining => 3 * s.sys.job.numInflight + 1
  | .polling true pc =>
    3 * s.sys.job.numInflight + if (s.engine.next batch.batchComplete pc).isSome then 0 else 2
  | _ => 0

/-- **What a runner does that is out of its loop.** -/
theorem Leaving.step_cases (h : s.Leaving) (hst : Step batch s a s') :
    (∃ results res engine, a = .lastSubmit results ∧ s.pc = .leaving ∧
      s.engine.submit results = some (res, engine) ∧
      s' = { s with engine := engine, pc := .draining }) ∨
    (∃ pc engine, a = .poll ∧ s.pc = .draining ∧ 0 < s.sys.job.numInflight ∧
      Engine.Polls 1 batch.batchComplete s.engine pc engine ∧
      s' = { s with engine := engine, pc := .polling true pc }) ∨
    (∃ pc pc' id bio engine, a = .complete bio ∧ s.pc = .polling true pc ∧
      s.engine.next batch.batchComplete pc = some (id, engine, pc') ∧
      s' = s.afterEnd id engine (.polling true pc')
        (bioEnd s.sys.iover (answerBio s.sys.job id bio) id)) ∨
    (∃ pc, a = .pollEnd ∧ s.pc = .polling true pc ∧
      s.engine.next batch.batchComplete pc = none ∧ s' = { s with pc := .draining }) ∨
    (a = .finish ∧ s.pc = .draining ∧ s.sys.job.numInflight = 0 ∧
      s' = { s with sys := { s.sys with job := iogenJobEnd s.sys.job }, pc := .ended }) ∨
    (a.own = false ∧ s.sys.job.SameLists s'.sys.job ∧
      s' = { s with sys := s'.sys }) := by
  have hout : s.pc ≠ .loop ∧ s.pc ≠ .taken ∧ s.pc ≠ .retrying ∧ ∀ pc, s.pc ≠ .polling false pc := by
    refine ⟨?_, ?_, ?_, fun pc => ?_⟩ <;> intro hpc <;> rw [Leaving, hpc] at h <;> exact h
  cases hst with
  | lastSubmit results res engine hpc hs =>
    exact .inl ⟨results, res, engine, rfl, hpc, hs, rfl⟩
  | drainPoll pc engine hpc hpos hpolls =>
    exact .inr (.inl ⟨pc, engine, rfl, hpc, hpos, hpolls, rfl⟩)
  | complete draining pc pc' id bio engine hpc hnext _ _ =>
    cases draining with
    | true => exact .inr (.inr (.inl ⟨pc, pc', id, bio, engine, rfl, hpc, hnext, rfl⟩))
    | false => exact absurd hpc (hout.2.2.2 pc)
  | pollEnd draining pc hpc hnext =>
    cases draining with
    | true => exact .inr (.inr (.inr (.inl ⟨pc, rfl, hpc, hnext, rfl⟩)))
    | false => exact absurd hpc (hout.2.2.2 pc)
  | finish hpc hzero => exact .inr (.inr (.inr (.inr (.inl ⟨rfl, hpc, hzero, rfl⟩))))
  | timer =>
    exact .inr (.inr (.inr (.inr (.inr ⟨rfl, sameLists_set _ true s.sys.job.iogenState
      s.sys.job.view, rfl⟩))))
  | others iover iogenState iogenResult =>
    exact .inr (.inr (.inr (.inr (.inr ⟨rfl, sameLists_set _ s.sys.job.timeout iogenState
      { s.sys.job.view with iogenResult := iogenResult }, rfl⟩))))
  | retry draws iover job hcont _ _ => exact absurd hcont.1 hout.1
  | refuse draws answers id iover job res engine hcont _ _ _ _ => exact absurd hcont.1 hout.1
  | flush draws answers id iover job engine hcont _ _ _ _ => exact absurd hcont.1 hout.1
  | take draws answers id iover job engine hcont _ _ _ _ => exact absurd hcont.1 hout.1
  | submit results res engine hsubmits _ =>
    rcases hsubmits with ⟨hpc, -⟩ | ⟨hpc, -⟩
    · exact absurd hpc hout.2.1
    · exact absurd hpc hout.2.2.1
  | noSubmit hpc _ => exact absurd hpc hout.2.1
  | poll pc engine hat _ =>
    rcases hat with ⟨hcont, -⟩ | ⟨hpc, -⟩
    · exact absurd hcont.1 hout.1
    · exact absurd hpc hout.2.2.1
  | stop hpc _ => exact absurd hpc hout.1
  | timeoutExit hcont _ => exact absurd hcont.1 hout.1

/-- **A runner that is out of its loop** stays so, and has less left to do after each of its
steps. -/
theorem Inv.leaving_step (h : s.Inv kind) (hleaving : s.Leaving)
    (hgets : kind.Gets batch.batchComplete) (hst : guarded (Step batch) Served s a s') :
    s'.Leaving ∧ s'.left batch + (if a.own then 1 else 0) ≤ s.left batch := by
  obtain ⟨results, res, engine, rfl, hpc, -, rfl⟩ |
    ⟨pc, engine, rfl, hpc, hpos, hpolls, rfl⟩ |
    ⟨pc, pc', id, bio, engine, rfl, hpc, hnext, rfl⟩ | ⟨pc, rfl, hpc, hnext, rfl⟩ |
    ⟨rfl, hpc, -, rfl⟩ | ⟨hown, hsame, hs'⟩ := hleaving.step_cases hst.2
  · refine ⟨trivial, ?_⟩
    simp [left, hpc, EngineRunnerLabel.own]
  · refine ⟨trivial, ?_⟩
    obtain ⟨bios, hholds, -, hlength⟩ := h.atRest (by rw [hpc]; nofun) (by rw [hpc]; rfl)
    have hnext : (engine.next batch.batchComplete pc).isSome = true := by
      refine hpolls.progress hholds (h.kind ▸ hgets) ?_
      intro hnil
      rw [hnil, List.length_nil] at hlength
      omega
    simp [left, hpc, hnext, EngineRunnerLabel.own]
  · have hid := (h.complete bio hpc hnext).1
    have hpos : 0 < s.sys.job.numInflight := h.lists.numInflight ▸ List.length_pos_of_mem hid
    have hleft : s.left batch = 3 * s.sys.job.numInflight := by simp [left, hpc, hnext]
    rw [hleft]
    cases hend : bioEnd s.sys.iover (answerBio s.sys.job id bio) id with
    | none =>
      refine ⟨trivial, ?_⟩
      change 0 + 1 ≤ _
      omega
    | some out =>
      obtain ⟨iover', job'⟩ := out
      obtain ⟨-, -, -, hnum⟩ := bioEnd_lists hend
      have hless : job'.numInflight = s.sys.job.numInflight - 1 := hnum
      refine ⟨trivial, ?_⟩
      change 3 * job'.numInflight + ite _ 0 2 + 1 ≤ _
      split <;> omega
  · refine ⟨trivial, ?_⟩
    simp [left, hpc, hnext, EngineRunnerLabel.own]
  · refine ⟨trivial, ?_⟩
    simp [left, hpc, EngineRunnerLabel.own]
  · have hkept : s'.pc = s.pc ∧ s'.engine = s.engine := by
      rw [hs']
      exact ⟨rfl, rfl⟩
    rw [Leaving, left, hkept.1, hkept.2, hsame.numInflight, hown]
    exact ⟨hleaving, le_rfl⟩

/-- **A runner that is out of its loop can go on** until the job ends. -/
theorem Inv.exists_step (h : s.Inv kind) (hleaving : s.Leaving)
    (hgets : kind.Gets batch.batchComplete) (hend : s.pc ≠ .ended) (hexit : s.pc ≠ .exited) :
    ∃ a t, a.own = true ∧ guarded (Step batch) Served s a t := by
  simp only [Leaving] at hleaving
  split at hleaving
  · rename_i hpc
    obtain ⟨bios, hholds, -⟩ := h.holds (by rw [hpc]; nofun)
    obtain ⟨results, engine, hs, hall⟩ := Engine.exists_submit hholds
    exact ⟨.lastSubmit results, _, rfl, hall, .lastSubmit results 0 engine hpc hs⟩
  · rename_i hpc
    rcases Nat.eq_zero_or_pos s.sys.job.numInflight with hzero | hpos
    · exact ⟨.finish, _, rfl, trivial, .finish hpc hzero⟩
    · obtain ⟨bios, hholds, -, hlength⟩ := h.atRest (by rw [hpc]; nofun) (by rw [hpc]; rfl)
      have hne : bios ≠ [] := fun hnil => by
        rw [hnil, List.length_nil] at hlength
        omega
      have hflushed : s.engine.Flushed := h.flushed (by rw [hpc]; rfl)
      obtain ⟨pc, engine, hpolls⟩ :=
        Engine.exists_polls hholds hflushed (h.kind ▸ hgets : s.engine.kind.Gets _) hne
      exact ⟨.poll, _, rfl, trivial, .drainPoll pc engine hpc hpos hpolls⟩
  · rename_i pc hpc
    cases hnext : s.engine.next batch.batchComplete pc with
    | none => exact ⟨.pollEnd, _, rfl, trivial, .pollEnd true pc hpc hnext⟩
    | some out =>
      obtain ⟨id, engine, pc'⟩ := out
      have hanswers : s.engine.Answers { s.sys.job.bioPool id with result := 0 } := by
        cases s.engine with
        | null queue => rfl
        | libaio ld => trivial
        | spdk idata => exact .inl rfl
      exact ⟨.complete { s.sys.job.bioPool id with result := 0 }, _, rfl, trivial,
        .complete true pc pc' id _ engine hpc hnext
          ⟨rfl, rfl, rfl, rfl, rfl, rfl, rfl, fun _ _ => rfl⟩ hanswers⟩
  · exact absurd ‹s.pc = .ended› hend
  · exact absurd ‹s.pc = .exited› hexit
  all_goals exact hleaving.elim

/-- **A bio that the engine refuses** is on no list. -/
theorem Inv.refused (h : s.Inv kind) {draws : GenDraws} {bio : Bio} {answers : EngineAnswers}
    (hst : Step batch s (.enqueue draws bio answers) s') (hpc : s'.pc = .leaving) :
    ¬ s'.BioPoolKept := by
  intro hkept
  cases hst with
  | refuse _ _ id iover job res engine _ _ hgen _ _ =>
    obtain ⟨rest, hfree, hrest, -, hparams, hinflight, -⟩ := generateBio_some hgen
    have hbefore := h.lists.length
    have hafter : (job.bioFree ++ job.bioInflight).length
        = (List.range job.params.iodepth).length := hkept.lists.length_eq
    rw [List.length_append, List.length_range, hrest, hinflight, hparams] at hafter
    rw [hfree, List.length_cons] at hbefore
    omega
  | flush _ _ id iover job engine _ _ _ _ _ =>
    cases hend : bioEnd iover (startBio job id) id <;> rw [hend] at hpc <;> cases hpc
  | take _ _ id iover job engine _ _ _ _ _ =>
    cases henqueue : enqueueBio false iover job id <;> rw [henqueue] at hpc <;> cases hpc

/-- The runner waits, and what it waits for is nowhere. -/
structure Stuck (s : EngineRunner) : Prop where
  pc : s.pc = .draining ∨ ∃ pc, s.pc = .polling true pc ∧ pc.ids = []
  holds : s.engine.Holds s.sys.job.params.iodepth []
  pos : 0 < s.sys.job.numInflight

/-- **It waits forever.** -/
theorem Stuck.step (h : s.Stuck) (hst : Step batch s a s') : s'.Stuck ∧ s'.ended = s.ended := by
  have hleaving : s.Leaving := by
    simp only [Leaving]
    rcases h.pc with hpc | ⟨pc, hpc, -⟩ <;> rw [hpc] <;> trivial
  obtain ⟨results, res, engine, rfl, hpc, -, rfl⟩ |
    ⟨pc, engine, rfl, hpc, hpos, hpolls, rfl⟩ |
    ⟨pc, pc', id, bio, engine, rfl, hpc, hnext, rfl⟩ | ⟨pc, rfl, hpc, hnext, rfl⟩ |
    ⟨rfl, hpc, hzero, rfl⟩ | ⟨hown, hsame, hs'⟩ := hleaving.step_cases hst
  · rcases h.pc with hat | ⟨_, hat, -⟩ <;> rw [hpc] at hat <;> cases hat
  · obtain ⟨rest, hrest, htaken, -⟩ := hpolls.spec h.holds
    obtain ⟨hids, rfl⟩ := List.append_eq_nil_iff.mp htaken.eq_nil
    exact ⟨⟨.inr ⟨pc, rfl, hids⟩, hrest, hpos⟩, rfl⟩
  · rcases h.pc with hat | ⟨_, hat, hids⟩ <;> rw [hpc] at hat <;> cases hat
    obtain ⟨rest, -, hfirst, -⟩ := Engine.next_spec h.holds hnext
    rw [hids] at hfirst
    exact absurd hfirst.symm.eq_nil (List.cons_ne_nil _ _)
  · exact ⟨⟨.inl rfl, h.holds, h.pos⟩, rfl⟩
  · exact absurd hzero (Nat.ne_of_gt h.pos)
  · have hkept : s'.pc = s.pc ∧ s'.engine = s.engine ∧ s'.ended = s.ended := by
      rw [hs']
      exact ⟨rfl, rfl, rfl⟩
    refine ⟨⟨hkept.1 ▸ h.pc, ?_, hsame.numInflight ▸ h.pos⟩, hkept.2.2⟩
    rw [hkept.2.1, hsame.params]
    exact h.holds

/-- What never comes back is never ended. -/
theorem Stuck.run (h : s.Stuck) {ls : List EngineRunnerLabel} (hr : Run (Step batch) s ls s') :
    s'.Stuck ∧ s'.ended = s.ended := by
  refine hr.invariant (I := fun t => t.Stuck ∧ t.ended = s.ended) (fun t a t' ht hst => ?_)
    ⟨h, rfl⟩
  obtain ⟨hstuck, hsame⟩ := ht.1.step hst
  exact ⟨hstuck, hsame.trans ht.2⟩

end Steps

/-- **Every bio is on one list, and is ended once.** In every run in which the engine is given only
what it serves, its calls for that succeed, and the submission behind the loop leaves nothing
behind, the pool is kept. When the runner is out of its loop and a poll can get something, it has a
number of steps to go, and takes them: what is in flight is ended, and the job ends. -/
theorem bioPoolKept_of_served {batch : BatchParams} {kind : EngineKind} {iover : Iover}
    {job : IogenJob} {ls : List EngineRunnerLabel} {s : EngineRunner}
    (hr : Run (guarded (Step batch) Served) (start iover job kind) ls s) :
    s.BioPoolKept ∧ (s.Leaving → kind.Gets batch.batchComplete →
      (s.pc ≠ .ended → s.pc ≠ .exited →
        ∃ a t, a.own = true ∧ guarded (Step batch) Served s a t) ∧
      ∃ bound, ∀ ls' t, Run (guarded (Step batch) Served) s ls' t →
        ls'.countP EngineRunnerLabel.own ≤ bound) := by
  have h : s.Inv kind := hr.invariant (fun _ _ _ h hst => h.step hst) (.start iover job)
  refine ⟨h.bioPoolKept, fun hleaving hgets => ⟨h.exists_step hleaving hgets, s.left batch, ?_⟩⟩
  intro ls' t hr'
  have hcount : ls'.countP EngineRunnerLabel.own + t.left batch ≤ s.left batch := by
    refine hr'.countP_add_le (I := fun s => s.Inv kind ∧ s.Leaving) (fun s a t hs hst => ?_)
      ⟨h, hleaving⟩
    obtain ⟨hleaving', hless⟩ := hs.1.leaving_step hs.2 hgets hst
    exact ⟨⟨hs.1.step hst, hleaving'⟩, hless⟩
  exact Nat.le_of_add_right_le hcount

/-- A job of two bios that gives `opcode` to its engine for some time. -/
def timedJob (opcode : BioOpcode) : IogenJob :=
  { JobSystem.zeroesJob with
    params := { JobSystem.zeroesJob.params with amount := .time }
    oprLottery := fun _ => opcode }

/-- The null engine writes zeroes once, and the job ends. -/
theorem bioPoolKept_zeroes : ∃ (ls : List EngineRunnerLabel) (s : EngineRunner),
    Run (guarded (Step ⟨1, 1, false⟩) Served)
        (start (Iover.plain .zero) (timedJob .writeZeroes) .null) ls s ∧
      s.pc = .ended ∧ s.accepted = [0] ∧ s.BioPoolKept := by
  have hrun : ∃ (ls : List EngineRunnerLabel) (s : EngineRunner),
      Run (guarded (Step ⟨1, 1, false⟩) Served)
          (start (Iover.plain .zero) (timedJob .writeZeroes) .null) ls s ∧
        s.pc = .ended ∧ s.accepted = [0] := by
    refine ⟨[.enqueue (JobSystem.plainDraws 0) _ ⟨[], 0⟩, .submit [], .timer, .stop, .lastSubmit [],
      .poll, .complete _, .pollEnd, .finish], _,
      .cons ⟨⟨rfl, trivial⟩, .take _ _ 0 _ _ _ ⟨rfl, rfl⟩ Nat.zero_lt_two rfl rfl rfl⟩ <|
      .cons ⟨trivial, .submit [] 0 _ (.inl ⟨rfl, .inl rfl⟩) rfl⟩ <|
      .cons ⟨trivial, .timer⟩ <| .cons ⟨trivial, .stop rfl rfl⟩ <|
      .cons ⟨nofun, .lastSubmit [] 0 _ rfl rfl⟩ <|
      .cons ⟨trivial, .drainPoll _ _ rfl Nat.zero_lt_one (.null _)⟩ <|
      .cons ⟨trivial, .complete true _ _ 0 _ _ rfl rfl (.refl _) rfl⟩ <|
      .cons ⟨trivial, .pollEnd true _ rfl rfl⟩ <| .single ⟨trivial, .finish rfl rfl⟩, rfl, rfl⟩
  obtain ⟨ls, s, hr, hpc, haccepted⟩ := hrun
  exact ⟨ls, s, hr, hpc, haccepted, (bioPoolKept_of_served hr).1⟩

/-- **A deallocate of libaio hangs the job.** `ioctl` discards LBA 0 while the bio is enqueued, and
no event ever tells so. -/
theorem not_bioPoolKept_deallocate : ∃ (ls : List EngineRunnerLabel) (s : EngineRunner),
    Run (Step ⟨1, 1, false⟩) (start (Iover.plain .zero) (timedJob .deallocate) .libaio) ls s ∧
      s.accepted = [0] ∧ ∀ ls' t, Run (Step ⟨1, 1, false⟩) s ls' t →
        t.pc ≠ .ended ∧ t.ended = [] := by
  have hrun : ∃ (ls : List EngineRunnerLabel) (s : EngineRunner),
      Run (Step ⟨1, 1, false⟩) (start (Iover.plain .zero) (timedJob .deallocate) .libaio) ls s ∧
        s.accepted = [0] ∧ s.ended = [] ∧ s.Stuck :=
    ⟨[.enqueue (JobSystem.plainDraws 0) _ ⟨[], 0⟩, .submit [], .timer, .stop, .lastSubmit []], _,
      .cons (.take _ _ 0 _ _ _ ⟨rfl, rfl⟩ Nat.zero_lt_two rfl rfl rfl) <|
      .cons (.submit [] 0 _ (.inl ⟨rfl, .inl rfl⟩) rfl) <|
      .cons .timer <| .cons (.stop rfl rfl) <| .single (.lastSubmit [] 0 _ rfl rfl),
      rfl, rfl, .inl rfl, Engine.init_holds 2 .libaio, Nat.zero_lt_one⟩
  obtain ⟨ls, s, hr, haccepted, hended, hstuck⟩ := hrun
  refine ⟨ls, s, hr, haccepted, ?_⟩
  intro ls' t hr'
  obtain ⟨ht, hsame⟩ := hstuck.run hr'
  refine ⟨?_, hsame.trans hended⟩
  intro hpc
  rcases ht.pc with hdraining | ⟨pc, hpolling, -⟩
  · rw [hpc] at hdraining
    cases hdraining
  · rw [hpc] at hpolling
    cases hpolling

/-- **Zeroes that libaio is to write** are on no list when it has refused them. -/
theorem not_bioPoolKept_zeroes : ∃ (ls : List EngineRunnerLabel) (s : EngineRunner),
    Run (Step ⟨1, 1, false⟩) (start (Iover.plain .zero) (timedJob .writeZeroes) .libaio) ls s ∧
      ¬ s.BioPoolKept := by
  have hstep : ∃ (draws : GenDraws) (bio : Bio) (answers : EngineAnswers) (s : EngineRunner),
      Step ⟨1, 1, false⟩ (start (Iover.plain .zero) (timedJob .writeZeroes) .libaio)
        (.enqueue draws bio answers) s ∧ s.pc = .leaving :=
    ⟨JobSystem.plainDraws 0, _, ⟨[], 0⟩, _,
      .refuse _ _ 0 _ _ (-1) _ ⟨rfl, rfl⟩ Nat.zero_lt_two rfl rfl (by decide), rfl⟩
  obtain ⟨draws, bio, answers, s, hst, hpc⟩ := hstep
  exact ⟨_, s, .single hst, (Inv.start _ _).refused hst hpc⟩

end EngineRunner

end ChamberSpo

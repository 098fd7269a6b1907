import ChamberSpo.Transition
import ChamberSpo.Validate
import Mathlib.Combinatorics.Pigeonhole

/-!
# Jobs that wait for jobs

A job with a `DEPENDENCY` waits on the condition variable of the job it names; that one
broadcasts when it ends. The wait has no predicate: who comes after the broadcast waits for the
next one, and there is none.

* `DependRun.Step` — the interleaving of the threads, with the mutexes and spurious wake-ups.
* `DependRun.Alive` — nobody waits for a job that has ended, and somebody can go on.
* `DependRun.InTime` — the step is no wait that begins too late.

`deadlock_iff` says what keeps the jobs alive: the dependencies have no cycle, and no wait begins
too late. `validate` and `iogen_job_wait` look after neither.
-/

namespace ChamberSpo

open Function

/-- Where the thread of a job is. -/
inductive JobPhase where
  | start
  /-- it holds the mutex of the job it depends on, and is about to wait -/
  | locked
  /-- in `pthread_cond_wait` -/
  | waiting
  /-- woken, it has yet to get the mutex back -/
  | woken
  | relocked
  /-- it is past `iogen_job_wait` -/
  | running
  /-- in `iogen_job_end`, with its own mutex -/
  | ending
  /-- it has broadcast -/
  | signalled
  | ended
  deriving DecidableEq, Repr

/-- The job has come to its end: it will not broadcast again. -/
def JobPhase.Ended : JobPhase → Prop
  | .signalled | .ended => True
  | .start | .locked | .waiting | .woken | .relocked | .running | .ending => False

/-- The threads of the jobs and their mutexes. -/
structure DependRun where
  njobs : ℕ
  dependencyJobIdx : ℕ → ℕ
  phase : ℕ → JobPhase
  /-- who holds `job->mutex` -/
  owner : ℕ → Option ℕ

namespace DependRun

/-- The jobs as `iogen_start` starts them. -/
def start (jobs : List BoundJob) : DependRun where
  njobs := jobs.length
  dependencyJobIdx i := ((jobs[i]?).map (·.params.dependencyJobIdx)).getD i
  phase _ := .start
  owner _ := none

/-- A thread moves on. -/
def move (s : DependRun) (i : ℕ) (p : JobPhase) : DependRun :=
  { s with phase := update s.phase i p }

/-- The mutex of job `j` is taken or given back. -/
def lock (s : DependRun) (j : ℕ) (o : Option ℕ) : DependRun :=
  { s with owner := update s.owner j o }

/-- `pthread_cond_broadcast` on the condition variable of job `i`. -/
def broadcast (s : DependRun) (i : ℕ) : DependRun :=
  { s with
    phase := fun j =>
      if s.phase j = .waiting ∧ s.dependencyJobIdx j = i then .woken else s.phase j }

/-- What a thread does next. -/
inductive Label where
  | skip (i : ℕ)
  | lock (i : ℕ)
  | wait (i : ℕ)
  | wake (i : ℕ)
  | relock (i : ℕ)
  | unlock (i : ℕ)
  | finish (i : ℕ)
  | broadcast (i : ℕ)
  | leave (i : ℕ)

/-- The steps of the threads, in any order. -/
inductive Step (s : DependRun) : Label → DependRun → Prop
  /-- the job depends on no other -/
  | skip (i : ℕ) : i < s.njobs → s.phase i = .start → s.dependencyJobIdx i = i →
    Step s (.skip i) (s.move i .running)
  | lock (i : ℕ) : i < s.njobs → s.phase i = .start → s.dependencyJobIdx i ≠ i →
    s.owner (s.dependencyJobIdx i) = none →
    Step s (.lock i) ((s.lock (s.dependencyJobIdx i) (some i)).move i .locked)
  /-- `pthread_cond_wait` lets go of the mutex and waits, in one -/
  | wait (i : ℕ) : i < s.njobs → s.phase i = .locked →
    Step s (.wait i) ((s.lock (s.dependencyJobIdx i) none).move i .waiting)
  /-- a wait may end without a broadcast -/
  | wake (i : ℕ) : i < s.njobs → s.phase i = .waiting → Step s (.wake i) (s.move i .woken)
  | relock (i : ℕ) : i < s.njobs → s.phase i = .woken → s.owner (s.dependencyJobIdx i) = none →
    Step s (.relock i) ((s.lock (s.dependencyJobIdx i) (some i)).move i .relocked)
  | unlock (i : ℕ) : i < s.njobs → s.phase i = .relocked →
    Step s (.unlock i) ((s.lock (s.dependencyJobIdx i) none).move i .running)
  /-- `iogen_job_end` takes the mutex of the job -/
  | finish (i : ℕ) : i < s.njobs → s.phase i = .running → s.owner i = none →
    Step s (.finish i) ((s.lock i (some i)).move i .ending)
  | broadcast (i : ℕ) : i < s.njobs → s.phase i = .ending →
    Step s (.broadcast i) ((s.broadcast i).move i .signalled)
  | leave (i : ℕ) : i < s.njobs → s.phase i = .signalled →
    Step s (.leave i) ((s.lock i none).move i .ended)

/-- Nobody waits for a job that has ended. -/
def NoneLost (s : DependRun) : Prop :=
  ∀ i < s.njobs, s.phase i = .waiting → ¬ (s.phase (s.dependencyJobIdx i)).Ended

/-- **The jobs are alive.** -/
structure Alive (s : DependRun) : Prop where
  noneLost : s.NoneLost
  /-- not all that have not ended are waiting -/
  someMoves : (∃ i < s.njobs, ¬ (s.phase i).Ended) →
    ∃ i < s.njobs, ¬ (s.phase i).Ended ∧ s.phase i ≠ .waiting

/-- A wait begins before the broadcast it is for. -/
def InTime (s : DependRun) : Label → Prop
  | .wait i => ¬ (s.phase (s.dependencyJobIdx i)).Ended
  | _ => True

/-- No job depends on itself by way of others. -/
def Acyclic (s : DependRun) : Prop :=
  ∀ i < s.njobs, ∀ k, 0 < k → s.dependencyJobIdx^[k] i = i → s.dependencyJobIdx i = i

variable {s s' t : DependRun} {a : Label} {i j : ℕ} {p : JobPhase} {ls : List Label}

@[simp] theorem move_depend : (s.move i p).dependencyJobIdx = s.dependencyJobIdx := rfl
@[simp] theorem lock_depend {o : Option ℕ} :
    (s.lock j o).dependencyJobIdx = s.dependencyJobIdx := rfl
@[simp] theorem lock_phase {o : Option ℕ} : (s.lock j o).phase = s.phase := rfl
@[simp] theorem broadcast_depend : (s.broadcast i).dependencyJobIdx = s.dependencyJobIdx := rfl

@[simp] theorem move_phase : (s.move i p).phase j = if j = i then p else s.phase j :=
  update_apply ..

/-- The number of the jobs and what they depend on stay. -/
theorem Step.same (h : Step s a t) :
    t.njobs = s.njobs ∧ t.dependencyJobIdx = s.dependencyJobIdx := by
  cases h <;> exact ⟨rfl, rfl⟩

/-! ## What holds in all runs -/

/-- Who waits, or is about to, depends on another job. -/
structure Inv (s : DependRun) : Prop where
  depend_lt : ∀ i < s.njobs, s.dependencyJobIdx i < s.njobs
  depend_ne : ∀ i, s.phase i = .locked ∨ s.phase i = .waiting → s.dependencyJobIdx i ≠ i

/-- A thread that comes to a place where it does not wait keeps the invariant. -/
theorem Inv.move (h : s.Inv) (hp : p = .locked ∨ p = .waiting → s.dependencyJobIdx i ≠ i) :
    (s.move i p).Inv := by
  refine ⟨h.depend_lt, ?_⟩
  intro k hk
  rw [move_phase] at hk
  by_cases hki : k = i
  · rw [if_pos hki] at hk
    exact hki ▸ hp hk
  · rw [if_neg hki] at hk
    exact h.depend_ne k hk

theorem Inv.lock {o : Option ℕ} (h : s.Inv) : (s.lock j o).Inv := ⟨h.depend_lt, h.depend_ne⟩

theorem Inv.broadcast (h : s.Inv) : (s.broadcast i).Inv := by
  refine ⟨h.depend_lt, fun k hk => h.depend_ne k ?_⟩
  simp only [DependRun.broadcast] at hk
  split at hk
  · rename_i hw
    exact .inr hw.1
  · exact hk

theorem Inv.step (h : s.Inv) (hst : Step s a t) : t.Inv := by
  cases hst with
  | skip i _ _ _ => exact h.move nofun
  | lock i _ _ hd _ => exact h.lock.move fun _ => hd
  | wait i _ hp => exact h.lock.move fun _ => h.depend_ne i (.inl hp)
  | wake i _ _ => exact h.move nofun
  | relock i _ _ _ => exact h.lock.move nofun
  | unlock i _ _ => exact h.lock.move nofun
  | finish i _ _ _ => exact h.lock.move nofun
  | broadcast i _ _ => exact h.broadcast.move nofun
  | leave i _ _ => exact h.lock.move nofun

/-! ## Runs in time -/

/-- A thread that neither begins to wait nor ends leaves nobody lost. -/
theorem NoneLost.move (h : s.NoneLost) (hw : p ≠ .waiting) (he : p.Ended → (s.phase i).Ended) :
    (s.move i p).NoneLost := by
  intro k hk hkw hended
  rw [move_phase] at hkw
  by_cases hki : k = i
  · rw [if_pos hki] at hkw
    exact hw hkw
  rw [if_neg hki] at hkw
  apply h k hk hkw
  rw [move_phase, move_depend] at hended
  by_cases hd : s.dependencyJobIdx k = i
  · rw [if_pos hd] at hended
    exact hd ▸ he hended
  · rwa [if_neg hd] at hended

theorem NoneLost.lock {o : Option ℕ} (h : s.NoneLost) : (s.lock j o).NoneLost := h

/-- **A step in time** leaves nobody lost. -/
theorem NoneLost.step (h : s.NoneLost) (hinv : s.Inv) (hin : s.InTime a) (hst : Step s a t) :
    t.NoneLost := by
  cases hst with
  | skip i _ _ _ => exact h.move nofun nofun
  | lock i _ _ _ _ => exact h.lock.move nofun nofun
  | wait i hi hp =>
    intro k hk hkw hended
    rw [move_phase, move_depend, lock_depend, lock_phase] at hended
    have hne := hinv.depend_ne i (.inl hp)
    by_cases hki : k = i
    · subst hki
      rw [if_neg hne] at hended
      exact hin hended
    · rw [move_phase, if_neg hki] at hkw
      apply h k hk hkw
      split at hended
      · cases hended
      · exact hended
  | wake i _ _ => exact h.move nofun nofun
  | relock i _ _ _ => exact h.lock.move nofun nofun
  | unlock i _ _ => exact h.lock.move nofun nofun
  | finish i _ _ _ => exact h.lock.move nofun nofun
  | broadcast i hi hp =>
    -- all that wait for this job are woken
    intro k hk hkw hended
    rw [move_phase] at hkw
    by_cases hki : k = i
    · rw [if_pos hki] at hkw
      cases hkw
    rw [if_neg hki] at hkw
    simp only [DependRun.broadcast] at hkw
    split at hkw
    · cases hkw
    rename_i hnot
    have hd : s.dependencyJobIdx k ≠ i := fun hd => hnot ⟨hkw, hd⟩
    apply h k hk hkw
    rw [move_phase, move_depend, broadcast_depend, if_neg hd] at hended
    simp only [DependRun.broadcast] at hended
    split at hended
    · cases hended
    · exact hended
  | leave i _ hp => exact h.lock.move nofun fun _ => by rw [lock_phase, hp]; trivial

/-- Where nobody is lost and all that have not ended wait, the waiting goes round in a circle. -/
theorem NoneLost.someMoves (h : s.NoneLost) (hinv : s.Inv) (hac : s.Acyclic) :
    (∃ i < s.njobs, ¬ (s.phase i).Ended) →
      ∃ i < s.njobs, ¬ (s.phase i).Ended ∧ s.phase i ≠ .waiting := by
  rintro ⟨i, hi, hended⟩
  by_contra hall
  have hwait : ∀ k < s.njobs, ¬ (s.phase k).Ended → s.phase k = .waiting := by
    intro k hk hke
    by_contra hkw
    exact hall ⟨k, hk, hke, hkw⟩
  have hchain : ∀ k, s.dependencyJobIdx^[k] i < s.njobs ∧
      s.phase (s.dependencyJobIdx^[k] i) = .waiting := by
    intro k
    induction k with
    | zero => exact ⟨hi, hwait i hi hended⟩
    | succ k ih =>
      rw [iterate_succ_apply']
      have hlt := hinv.depend_lt _ ih.1
      exact ⟨hlt, hwait _ hlt (h _ ih.1 ih.2)⟩
  obtain ⟨x, hx, y, hy, hne, heq⟩ := Finset.exists_ne_map_eq_of_card_lt_of_maps_to
    (s := Finset.range (s.njobs + 1)) (t := Finset.range s.njobs)
    (f := fun k => s.dependencyJobIdx^[k] i) (by rw [Finset.card_range, Finset.card_range]; omega)
    (fun k _ => Finset.mem_coe.mpr (Finset.mem_range.mpr (hchain k).1))
  -- the later of the two is the earlier again
  have hcycle : ∀ x y, x < y → s.dependencyJobIdx^[x] i = s.dependencyJobIdx^[y] i → False := by
    intro x y hlt heq
    obtain ⟨hmem, hw⟩ := hchain x
    refine hinv.depend_ne _ (.inr hw) (hac _ hmem (y - x) (Nat.sub_pos_of_lt hlt) ?_)
    rw [← iterate_add_apply, Nat.sub_add_cancel hlt.le]
    exact heq.symm
  rcases Nat.lt_or_gt_of_ne hne with hlt | hgt
  · exact hcycle x y hlt heq
  · exact hcycle y x hgt heq.symm

/-- **A wait that begins too late** waits for a job that has ended. -/
theorem not_alive_of_late (hinv : s.Inv) (hst : Step s a t) (hlate : ¬ s.InTime a) :
    ¬ t.Alive := by
  intro h
  cases hst with
  | wait i hi hp =>
    apply h.noneLost i hi (by rw [move_phase, if_pos rfl])
    rw [move_phase, move_depend, lock_depend, lock_phase, if_neg (hinv.depend_ne i (.inl hp))]
    exact not_not.mp hlate
  | _ => exact hlate trivial

/-! ## Jobs in a circle -/

/-- The jobs where no thread is at a mutex. -/
def rest (s : DependRun) (phase : ℕ → JobPhase) : DependRun :=
  { s with phase := phase, owner := fun _ => none }

section Rest

variable {phase : ℕ → JobPhase} {n : ℕ}

@[simp] theorem rest_depend : (s.rest phase).dependencyJobIdx = s.dependencyJobIdx := rfl
@[simp] theorem rest_phase : (s.rest phase).phase = phase := rfl

theorem update_none (j : ℕ) : update (fun _ : ℕ => (none : Option ℕ)) j none = fun _ => none :=
  update_eq_self j fun _ => none

/-- A mutex that is taken and given back. -/
theorem rest_lock_lock (s : DependRun) (phase : ℕ → JobPhase) (i j : ℕ) (p q : JobPhase)
    (o : Option ℕ) :
    ((((s.rest phase).lock j o).move i p).lock j none).move i q = s.rest (update phase i q) := by
  simp only [rest, DependRun.lock, DependRun.move, update_idem, update_none]

/-- A job that depends on no other sets off. -/
theorem rest_skip (hi : i < s.njobs) (hp : phase i = .start) (hd : s.dependencyJobIdx i = i) :
    Run (guarded Step InTime) (s.rest phase) [.skip i] (s.rest (update phase i .running)) :=
  .single ⟨trivial, .skip (s := s.rest phase) i hi hp hd⟩

/-- A job waits for one that has not ended. -/
theorem rest_wait (hi : i < s.njobs) (hp : phase i = .start) (hd : s.dependencyJobIdx i ≠ i)
    (hin : ¬ (phase (s.dependencyJobIdx i)).Ended) :
    Run (guarded Step InTime) (s.rest phase) [.lock i, .wait i]
      (s.rest (update phase i .waiting)) := by
  have hwait := Step.wait
    (s := ((s.rest phase).lock (s.dependencyJobIdx i) (some i)).move i .locked) i hi
    (by rw [move_phase, if_pos rfl])
  rw [move_depend, lock_depend, rest_depend, rest_lock_lock] at hwait
  refine .cons ⟨trivial, .lock (s := s.rest phase) i hi hp hd rfl⟩ (.single ⟨?_, hwait⟩)
  intro hended
  rw [move_phase, move_depend, lock_depend, rest_depend, lock_phase, if_neg hd] at hended
  exact hin hended

/-- A job that was woken sets off. -/
theorem rest_resume (hi : i < s.njobs) (hp : phase i = .woken) :
    Run (guarded Step InTime) (s.rest phase) [.relock i, .unlock i]
      (s.rest (update phase i .running)) := by
  have hunlock := Step.unlock
    (s := ((s.rest phase).lock (s.dependencyJobIdx i) (some i)).move i .relocked) i hi
    (by rw [move_phase, if_pos rfl])
  rw [move_depend, lock_depend, rest_depend, rest_lock_lock] at hunlock
  exact .cons ⟨trivial, .relock (s := s.rest phase) i hi hp rfl⟩ (.single ⟨trivial, hunlock⟩)

/-- The phases after job `i` has ended: those that waited for it are woken. -/
def afterEnd (s : DependRun) (phase : ℕ → JobPhase) (i : ℕ) : ℕ → JobPhase := fun j =>
  if j = i then .ended
  else if phase j = .waiting ∧ s.dependencyJobIdx j = i then .woken else phase j

/-- A job ends. -/
theorem rest_end (hi : i < s.njobs) (hp : phase i = .running) :
    Run (guarded Step InTime) (s.rest phase) [.finish i, .broadcast i, .leave i]
      (s.rest (s.afterEnd phase i)) := by
  let s₁ : DependRun := ((s.rest phase).lock i (some i)).move i .ending
  let s₂ : DependRun := (s₁.broadcast i).move i .signalled
  have hlast : (s₂.lock i none).move i .ended = s.rest (s.afterEnd phase i) := by
    simp only [s₂, s₁, rest, DependRun.lock, DependRun.move, DependRun.broadcast, update_idem,
      update_none, mk.injEq, true_and, and_true]
    funext j
    by_cases hj : j = i
    · rw [hj, update_self, afterEnd, if_pos rfl]
    · rw [update_of_ne hj, afterEnd, if_neg hj, update_of_ne hj]
  have hleave := Step.leave (s := s₂) i hi (by rw [move_phase, if_pos rfl])
  rw [hlast] at hleave
  exact .cons ⟨trivial, .finish (s := s.rest phase) i hi hp rfl⟩ <|
    .cons ⟨trivial, .broadcast (s := s₁) i hi (by rw [move_phase, if_pos rfl])⟩ <|
      .single ⟨trivial, hleave⟩

/-- The phases when the first `n` jobs have set off or wait. -/
def firstOff (s : DependRun) (n : ℕ) : ℕ → JobPhase := fun j =>
  if j < n then if s.dependencyJobIdx j = j then .running else .waiting else .start

theorem firstOff_succ (s : DependRun) (n : ℕ) : s.firstOff (n + 1) =
    update (s.firstOff n) n (if s.dependencyJobIdx n = n then .running else .waiting) := by
  funext j
  by_cases hj : j = n
  · rw [hj, update_self, firstOff, if_pos (Nat.lt_succ_self n)]
  · have hiff : j < n + 1 ↔ j < n := by omega
    rw [update_of_ne hj, firstOff, firstOff]
    simp only [hiff]

theorem firstOff_not_ended (s : DependRun) (n j : ℕ) : ¬ (s.firstOff n j).Ended := by
  simp only [firstOff]
  split
  · split <;> exact id
  · exact id

/-- All jobs that depend on others can come to wait before any job ends. -/
theorem exists_firstOff (s : DependRun) (hn : n ≤ s.njobs) :
    ∃ ls, Run (guarded Step InTime) (s.rest fun _ => .start) ls (s.rest (s.firstOff n)) := by
  induction n with
  | zero => exact ⟨[], .nil _⟩
  | succ n ih =>
    obtain ⟨ls, hrun⟩ := ih (by omega)
    have hstart : s.firstOff n n = .start := if_neg (lt_irrefl n)
    rw [firstOff_succ]
    by_cases hd : s.dependencyJobIdx n = n
    · rw [if_pos hd]
      exact ⟨_, hrun.append (rest_skip hn hstart hd)⟩
    · rw [if_neg hd]
      exact ⟨_, hrun.append (rest_wait hn hstart hd (s.firstOff_not_ended n _))⟩

/-- Jobs that wait for each other in a circle. -/
structure Circle (s : DependRun) (C : ℕ → Prop) : Prop where
  lt : ∀ i, C i → i < s.njobs
  next : ∀ i, C i → C (s.dependencyJobIdx i)
  ne : ∀ i, C i → s.dependencyJobIdx i ≠ i

/-- A job that depends on itself by way of others is in a circle. -/
theorem exists_circle (hlt : ∀ i < s.njobs, s.dependencyJobIdx i < s.njobs) (h : ¬ s.Acyclic) :
    ∃ C i, s.Circle C ∧ C i := by
  simp only [Acyclic, not_forall] at h
  obtain ⟨i, hi, k, hk, hcycle, hne⟩ := h
  refine ⟨fun j => ∃ n, j = s.dependencyJobIdx^[n] i, i, ⟨?_, ?_, ?_⟩, 0, rfl⟩
  · rintro _ ⟨n, rfl⟩
    induction n with
    | zero => exact hi
    | succ n ih =>
      rw [iterate_succ_apply']
      exact hlt _ ih
  · rintro _ ⟨n, rfl⟩
    exact ⟨n + 1, (iterate_succ_apply' ..).symm⟩
  · rintro _ ⟨n, rfl⟩ hfix
    -- from a job that depends on itself, the way leads nowhere else
    have hstay : s.dependencyJobIdx^[k * (n + 1) - n] (s.dependencyJobIdx^[n] i) =
        s.dependencyJobIdx^[n] i := iterate_fixed hfix _
    have hle : n ≤ k * (n + 1) := (Nat.le_succ n).trans (Nat.le_mul_of_pos_left _ hk)
    have hback : s.dependencyJobIdx^[k * (n + 1)] i = i := by
      rw [iterate_mul]
      exact iterate_fixed hcycle _
    rw [← iterate_add_apply, Nat.sub_add_cancel hle, hback] at hstay
    rw [← hstay] at hfix
    exact hne hfix

/-- The phases where no thread is at a mutex, and the jobs of a circle wait. -/
structure Stuck (s : DependRun) (C : ℕ → Prop) (phase : ℕ → JobPhase) : Prop where
  quiet : ∀ i < s.njobs, phase i = .waiting ∨ phase i = .woken ∨ phase i = .running ∨
    phase i = .ended
  circle : ∀ i, C i → phase i = .waiting

variable {C : ℕ → Prop}

/-- Who was woken can set off. -/
theorem Stuck.resume (h : s.Stuck C phase) (hp : phase i = .woken) :
    s.Stuck C (update phase i .running) := by
  refine ⟨?_, ?_⟩
  · intro j hj
    by_cases hji : j = i
    · rw [hji, update_self]
      exact .inr (.inr (.inl rfl))
    · rw [update_of_ne hji]
      exact h.quiet j hj
  · intro j hj
    have hji : j ≠ i := by
      rintro rfl
      rw [h.circle j hj] at hp
      cases hp
    rw [update_of_ne hji]
    exact h.circle j hj

/-- Who runs can end, and the circle goes on waiting. -/
theorem Stuck.end (h : s.Stuck C phase) (hC : s.Circle C) (hp : phase i = .running) :
    s.Stuck C (s.afterEnd phase i) := by
  refine ⟨?_, ?_⟩
  · intro j hj
    simp only [afterEnd]
    split
    · exact .inr (.inr (.inr rfl))
    split
    · exact .inr (.inl rfl)
    · exact h.quiet j hj
  · intro j hj
    have hne : ∀ k, C k → k ≠ i := by
      rintro k hk rfl
      rw [h.circle k hk] at hp
      cases hp
    rw [afterEnd, if_neg (hne j hj), if_neg fun hw => hne _ (hC.next j hj) hw.2]
    exact h.circle j hj

/-- The jobs that have not ended. -/
def pending (s : DependRun) (phase : ℕ → JobPhase) : Finset ℕ :=
  (Finset.range s.njobs).filter fun i => phase i ≠ .ended

theorem pending_afterEnd (hi : i < s.njobs) (hp : phase i = .running) :
    (s.pending (s.afterEnd phase i)).card < (s.pending phase).card := by
  apply Finset.card_lt_card
  rw [Finset.ssubset_iff_of_subset]
  · refine ⟨i, ?_, ?_⟩
    · rw [pending, Finset.mem_filter, Finset.mem_range, hp]
      exact ⟨hi, nofun⟩
    · rw [pending, Finset.mem_filter, afterEnd, if_pos rfl]
      exact fun hmem => hmem.2 rfl
  · intro j hj
    rw [pending, Finset.mem_filter] at hj ⊢
    refine ⟨hj.1, fun hended => hj.2 ?_⟩
    rw [afterEnd]
    split
    · rfl
    · rw [if_neg (by rw [hended]; exact nofun), hended]

/-- All the others can end. -/
theorem Stuck.exists_run (h : s.Stuck C phase) (hC : s.Circle C) :
    ∃ ls phase', Run (guarded Step InTime) (s.rest phase) ls (s.rest phase') ∧
      s.Stuck C phase' ∧ ∀ i < s.njobs, phase' i = .waiting ∨ phase' i = .ended := by
  induction hcard : (s.pending phase).card using Nat.strong_induction_on generalizing phase with
  | _ m ih =>
    -- a job that runs is brought to its end
    have hrun : ∀ phase i, s.Stuck C phase → (s.pending phase).card = m → i < s.njobs →
        phase i = .running → ∃ ls phase', Run (guarded Step InTime) (s.rest phase) ls
          (s.rest phase') ∧ s.Stuck C phase' ∧
          ∀ i < s.njobs, phase' i = .waiting ∨ phase' i = .ended := by
      intro phase i h hm hi hp
      obtain ⟨ls, phase', hrun, hrest⟩ :=
        ih _ (hm ▸ pending_afterEnd hi hp) (h.end hC hp) rfl
      exact ⟨_, phase', (rest_end hi hp).append hrun, hrest⟩
    by_cases hall : ∀ i < s.njobs, phase i = .waiting ∨ phase i = .ended
    · exact ⟨[], phase, .nil _, h, hall⟩
    simp only [not_forall, not_or] at hall
    obtain ⟨i, hi, hw, he⟩ := hall
    rcases h.quiet i hi with hp | hp | hp | hp
    · exact absurd hp hw
    · have hm : (s.pending (update phase i .running)).card = m := by
        rw [← hcard]
        congr 1
        refine Finset.filter_congr ?_
        intro j _
        by_cases hj : j = i
        · rw [hj, update_self, hp]
          exact ⟨nofun, nofun⟩
        · rw [update_of_ne hj]
      obtain ⟨ls, phase', hrun', hrest⟩ := hrun _ i (h.resume hp) hm hi (update_self ..)
      exact ⟨_, phase', (rest_resume hi hp).append hrun', hrest⟩
    · exact hrun phase i h hcard hi hp
    · exact absurd hp he

/-- **A circle comes to a standstill**, with every wait in time. -/
theorem exists_not_alive (hlt : ∀ i < s.njobs, s.dependencyJobIdx i < s.njobs)
    (h : ¬ s.Acyclic) :
    ∃ ls t, Run (guarded Step InTime) (s.rest fun _ => .start) ls t ∧ ¬ t.Alive := by
  obtain ⟨C, i, hC, hi⟩ := exists_circle hlt h
  obtain ⟨ls, hrun⟩ := exists_firstOff s le_rfl
  have hstuck : s.Stuck C (s.firstOff s.njobs) := by
    refine ⟨?_, ?_⟩
    · intro j hj
      rw [firstOff, if_pos hj]
      split
      · exact .inr (.inr (.inl rfl))
      · exact .inl rfl
    · intro j hj
      rw [firstOff, if_pos (hC.lt j hj), if_neg (hC.ne j hj)]
  obtain ⟨ls', phase', hrun', hstuck', hall⟩ := hstuck.exists_run hC
  refine ⟨_, _, hrun.append hrun', ?_⟩
  intro halive
  obtain ⟨j, hj, hended, hw⟩ := halive.someMoves
    ⟨i, hC.lt i hi, by rw [rest_phase, hstuck'.circle i hi]; exact id⟩
  rcases hall j hj with hp | hp
  · exact hw hp
  · rw [rest_phase, hp] at hended
    exact hended trivial

end Rest

/-! ## The jobs of a test -/

theorem inv_start {jobs : List BoundJob}
    (hlt : ∀ i < jobs.length, (start jobs).dependencyJobIdx i < jobs.length) :
    (start jobs).Inv :=
  ⟨hlt, fun _ hp => by rcases hp with hp | hp <;> cases hp⟩

/-- A dependency is one of the jobs. -/
theorem depend_lt {env : ValidateEnv} {jobs : List JobConfig} {nsis : List NsInfo}
    {bounds : List BoundJob} (h : validate env jobs = .ok (nsis, bounds)) (hi : i < bounds.length) :
    (start bounds).dependencyJobIdx i < bounds.length := by
  obtain ⟨hlength, hjobs⟩ := validate_spec h
  have hb := List.getElem?_eq_getElem hi
  have hj := List.getElem?_eq_getElem (hlength ▸ hi : i < jobs.length)
  obtain ⟨ns, -, hvalidated⟩ := hjobs i _ _ hj hb
  have hlt := dependencyJobIdx_lt (by rwa [List.length_map, ← hlength]) hvalidated.dependency
  rw [List.length_map, ← hlength] at hlt
  have hd : (start bounds).dependencyJobIdx i = bounds[i].params.dependencyJobIdx := by
    simp only [start, hb, Option.map_some, Option.getD_some]
  rwa [hd]

/-- **What keeps the jobs alive**, for jobs that `validate` accepts: as long as every wait begins
in time, in all interleavings, if no job depends on itself by way of others; and a wait that
begins too late is lost. -/
theorem deadlock_iff {env : ValidateEnv} {jobs : List JobConfig} {nsis : List NsInfo}
    {bounds : List BoundJob} (h : validate env jobs = .ok (nsis, bounds)) :
    ((∀ ls s, Run (guarded Step InTime) (start bounds) ls s → s.Alive) ↔
        (start bounds).Acyclic) ∧
      ∀ ls s a t, Run Step (start bounds) ls s → Step s a t → ¬ s.InTime a → ¬ t.Alive := by
  have hlt : ∀ i < bounds.length, (start bounds).dependencyJobIdx i < bounds.length :=
    fun i hi => depend_lt h hi
  refine ⟨⟨?_, ?_⟩, ?_⟩
  · intro hall
    by_contra hcycle
    obtain ⟨ls, t, hrun, hdead⟩ := exists_not_alive hlt hcycle
    exact hdead (hall ls t hrun)
  · intro hac ls s hrun
    have hstart : (start bounds).NoneLost := fun i _ hw => by cases hw
    have hinv : s.Inv ∧ s.NoneLost ∧ s.Acyclic := by
      refine hrun.invariant (I := fun s => s.Inv ∧ s.NoneLost ∧ s.Acyclic) ?_
        ⟨inv_start hlt, hstart, hac⟩
      rintro s a t ⟨hinv, hlost, hac⟩ ⟨hin, hst⟩
      refine ⟨hinv.step hst, hlost.step hinv hin hst, ?_⟩
      rw [Acyclic, hst.same.1, hst.same.2]
      exact hac
    exact ⟨hinv.2.1, hinv.2.1.someMoves hinv.1 hinv.2.2⟩
  · intro ls s a t hrun hst hlate
    have hinv : s.Inv := hrun.invariant (fun _ _ _ hi hst => hi.step hst) (inv_start hlt)
    exact not_alive_of_late hinv hst hlate

/-! ## Two jobs -/

/-- `[A]`, and `[B]` with `DEPENDENCY=A`. -/
def chainJobs : List JobConfig :=
  [{ JobConfig.plain 4096 4096 with name := ascii "A" },
    { JobConfig.plain 4096 4096 with name := ascii "B", dependency := ascii "A" }]

/-- `[A]` with `DEPENDENCY=B`, and `[B]` with `DEPENDENCY=A`. -/
def circleJobs : List JobConfig :=
  [{ JobConfig.plain 4096 4096 with name := ascii "A", dependency := ascii "B" },
    { JobConfig.plain 4096 4096 with name := ascii "B", dependency := ascii "A" }]

/-- What `validate` makes of jobs on the null engine. -/
def boundJobs (jobs : List JobConfig) : List NsInfo × List BoundJob :=
  match validate (.null .none) jobs with
  | .ok r => r
  | .error _ => ([], [])

theorem validate_chainJobs : validate (.null .none) chainJobs = .ok (boundJobs chainJobs) := rfl

theorem validate_circleJobs : validate (.null .none) circleJobs = .ok (boundJobs circleJobs) := rfl

theorem acyclic_chainJobs : (start (boundJobs chainJobs).2).Acyclic := by
  intro i hi k hk hcircle
  have hfirst : (start (boundJobs chainJobs).2).dependencyJobIdx 0 = 0 := by decide
  obtain ⟨k, rfl⟩ := Nat.exists_eq_succ_of_ne_zero hk.ne'
  have hi : i < 2 := hi
  interval_cases i
  · exact hfirst
  · -- the second job depends on the first, and that on nothing
    rw [iterate_succ_apply, show (start (boundJobs chainJobs).2).dependencyJobIdx 1 = 0 by decide,
      iterate_fixed hfirst] at hcircle
    cases hcircle

/-- The two jobs of the chain are alive in every run that is in time, and not in one that is
late. -/
theorem alive_chainJobs :
    (∀ ls s, Run (guarded Step InTime) (start (boundJobs chainJobs).2) ls s → s.Alive) ∧
      ∀ ls s a t, Run Step (start (boundJobs chainJobs).2) ls s → Step s a t → ¬ s.InTime a →
        ¬ t.Alive := by
  obtain ⟨halive, hlate⟩ := deadlock_iff validate_chainJobs
  exact ⟨halive.mpr acyclic_chainJobs, hlate⟩

/-- **A broadcast that is lost, and a circle**: both lists of jobs are accepted. In the chain, the
first job may end before the second one comes to wait for it; in the circle, both wait. -/
theorem not_alive_two :
    (∃ ls s, Run Step (start (boundJobs chainJobs).2) ls s ∧ ¬ s.Alive) ∧
      ∃ ls s, Run (guarded Step InTime) (start (boundJobs circleJobs).2) ls s ∧ ¬ s.Alive := by
  refine ⟨?_, ?_⟩
  · let s₀ := start (boundJobs chainJobs).2
    let phase := s₀.afterEnd (update (fun _ => .start) 0 .running) 0
    have hskip : Run (guarded Step InTime) (s₀.rest fun _ => .start) [.skip 0] _ :=
      rest_skip (by decide) rfl rfl
    have hend : Run (guarded Step InTime) (s₀.rest (update (fun _ => .start) 0 .running))
        [.finish 0, .broadcast 0, .leave 0] _ := rest_end (by decide) (update_self ..)
    have hfirst := (hskip.append hend).of_guarded
    -- the first job has ended, and the second one sets out to wait for it
    have hinv : (s₀.rest phase).Inv := hfirst.invariant (fun _ _ _ hi hst => hi.step hst)
      (inv_start fun i hi => depend_lt validate_chainJobs hi)
    have hlock : Step (s₀.rest phase) (.lock 1) _ := .lock 1 (by decide) rfl (by decide) rfl
    have hwait : Step (((s₀.rest phase).lock 0 (some 1)).move 1 .locked) (.wait 1) _ :=
      .wait 1 (by decide) rfl
    refine ⟨_, _, (hfirst.append (.single hlock)).append (.single hwait), ?_⟩
    exact not_alive_of_late (hinv.step hlock) hwait fun hin => hin trivial
  · have hcycle : ¬ (start (boundJobs circleJobs).2).Acyclic := by
      intro hac
      exact absurd (hac 0 (by decide) 2 (by decide) rfl) (by decide)
    exact exists_not_alive (fun i hi => depend_lt validate_circleJobs hi) hcycle

end DependRun

end ChamberSpo

import ChamberSpo.Engines
import ChamberSpo.Transition
import Mathlib.Data.BitVec

/-!
# The queue of the null engine

`null.c` keeps its bios in an array with an entry more than `iodepth`, and `null_poll` calls
`bio->end` before it moves the head on. Here the numbers have 32 bits, as they have in the code, and
a poll goes in steps, so that `bio->end` can enqueue bios while the head is not yet moved.

* `NullIoQueue` — the queue, with `none` for a division by zero or an entry that is not there.
  `NullIoQueue.toQueue` is the queue of `Engines`.
* `NullStep` — a call of `null_enqueue` or `null_poll`, or what a poll does next.
* `FifoStep` — the same on the list of the bios that wait. `NullInv.step` says that a step of the
  engine is one of these.
* `NullOk` — what a run promises.

`iodepth + 1` is 0 for the largest `iodepth`, and a poll without a limit stops when its counter is 0
again. `nullOk_iff` says that nothing else goes wrong.
-/

namespace ChamberSpo

/-! ## The program -/

/-- `struct null_io_queue` -/
structure NullIoQueue where
  elements : ℕ → ℕ
  size : BitVec 32
  head : BitVec 32
  tail : BitVec 32

namespace NullIoQueue

/-- The queue that `null_init` makes. -/
def new (iodepth : BitVec 32) : NullIoQueue where
  elements _ := 0
  size := iodepth + 1
  head := 0
  tail := 0

/-- `null_init`, with whether its calls of `calloc` get memory; `none` for -1. -/
def init (nd elements : Bool) (iodepth : BitVec 32) : Option NullIoQueue :=
  if nd = false then none
  -- not enough memory!
  else if elements = false then none
  else some (new iodepth)

/-- A read of `elements[i]`. -/
def get (queue : NullIoQueue) (i : BitVec 32) : Option ℕ :=
  if i < queue.size then some (queue.elements i.toNat) else none

/-- A write of `elements[i]`. -/
def set (queue : NullIoQueue) (i : BitVec 32) (bio : ℕ) : Option NullIoQueue :=
  if i < queue.size then
    some { queue with elements := Function.update queue.elements i.toNat bio }
  else none

/-- `(i + 1) % size` -/
def succ (queue : NullIoQueue) (i : BitVec 32) : Option (BitVec 32) :=
  if queue.size = 0 then none else some ((i + 1) % queue.size)

/-- `null_enqueue` -/
def enqueue (queue : NullIoQueue) (bio : ℕ) : Option (Int × NullIoQueue) := do
  let nextTail ← queue.succ queue.tail
  -- queue full, return busy
  if queue.head = nextTail then return (-1, queue)
  else
    let queue ← queue.set queue.tail bio
    return (0, { queue with tail := nextTail })

/-- The queue of the other modules. -/
def toQueue (queue : NullIoQueue) : NullQueue where
  elements := queue.elements
  size := queue.size.toNat
  head := queue.head.toNat
  tail := queue.tail.toNat

end NullIoQueue

/-- Where `null_poll` stands. -/
inductive NullPc where
  /-- it is not called -/
  | idle
  /-- before the loop goes on -/
  | loop (max nrCompletion : BitVec 32)
  /-- in `bio->end(bio)` -/
  | ending (max nrCompletion : BitVec 32) (bio : ℕ)
  /-- behind the `break` -/
  | leaving
  /-- after an operation that has no meaning -/
  | undefined

namespace NullPc

/-- `null_poll` is called. -/
def Polling : NullPc → Prop
  | loop _ _ | ending _ _ _ | leaving => True
  | idle | undefined => False

/-- `null_enqueue` can be called: no poll runs, or one is in `bio->end`. -/
def Calls : NullPc → Prop
  | idle | ending _ _ _ => True
  | loop _ _ | leaving | undefined => False

/-- The bio whose `bio->end` has not returned. -/
def bios : NullPc → List ℕ
  | ending _ _ bio => [bio]
  | idle | loop _ _ | leaving | undefined => []

end NullPc

/-- The engine, with what its callers see of the bios: `bio->result`, and which are in flight. A bio
is in flight from `null_enqueue` on until its `bio->end` has returned. -/
structure NullEngine where
  queue : NullIoQueue
  result : ℕ → Int
  pc : NullPc
  outstanding : List ℕ

/-- What happens in a step. -/
inductive NullLabel where
  /-- `null_enqueue` returns `res` -/
  | enqueue (bio : ℕ) (res : Int)
  /-- `null_poll` is called -/
  | poll (max : BitVec 32)
  /-- `null_poll` calls `bio->end` -/
  | bioEnd (bio : ℕ)
  /-- `bio->end` returns, and the head moves on -/
  | advance
  /-- `null_poll` returns -/
  | polled
  /-- an operation that has no meaning -/
  | fault

namespace NullEngine

/-- Before the first call. -/
def start (queue : NullIoQueue) : NullEngine where
  queue := queue
  result _ := 0
  pc := .idle
  outstanding := []

/-- What `null_poll` does next. -/
def pollNext (s : NullEngine) : Option (NullLabel × NullEngine) :=
  match s.pc with
  | .loop max nrCompletion =>
    if s.queue.head ≠ s.queue.tail then
      (s.queue.get s.queue.head).map fun bio =>
        (.bioEnd bio, { s with
          result := Function.update s.result bio 0
          pc := .ending max nrCompletion bio })
    else some (.polled, { s with pc := .idle })
  | .ending max nrCompletion bio =>
    (s.queue.succ s.queue.head).map fun head =>
      (.advance, { s with
        queue := { s.queue with head := head }
        pc := if nrCompletion + 1 = max then .leaving else .loop max (nrCompletion + 1)
        outstanding := s.outstanding.erase bio })
  | .leaving => some (.polled, { s with pc := .idle })
  | .idle | .undefined => none

end NullEngine

/-- A step of the engine. No more than `iodepth` bios are in flight. -/
inductive NullStep (iodepth : BitVec 32) : NullEngine → NullLabel → NullEngine → Prop
  /-- `null_enqueue`, which `bio->end` can call, too -/
  | enqueue {s : NullEngine} (bio : ℕ) {res : Int} {queue : NullIoQueue} :
    s.pc.Calls → s.outstanding.length < iodepth.toNat →
    s.queue.enqueue bio = some (res, queue) →
    NullStep iodepth s (.enqueue bio res) { s with
      queue := queue
      outstanding := if res = 0 then s.outstanding ++ [bio] else s.outstanding }
  | enqueueFault {s : NullEngine} (bio : ℕ) :
    s.pc.Calls → s.outstanding.length < iodepth.toNat → s.queue.enqueue bio = none →
    NullStep iodepth s .fault { s with pc := .undefined }
  /-- `null_poll` -/
  | poll {s : NullEngine} (max : BitVec 32) : s.pc = .idle →
    NullStep iodepth s (.poll max) { s with pc := .loop max 0 }
  | next {s t : NullEngine} {label : NullLabel} : s.pc.Polling → s.pollNext = some (label, t) →
    NullStep iodepth s label t
  | nextFault {s : NullEngine} : s.pc.Polling → s.pollNext = none →
    NullStep iodepth s .fault { s with pc := .undefined }

/-! ## What is promised -/

namespace NullLabel

/-- The bio that is taken. -/
def takes : NullLabel → List ℕ
  | enqueue bio res => if res = 0 then [bio] else []
  | poll _ | bioEnd _ | advance | polled | fault => []

/-- The bio that is ended. -/
def ends : NullLabel → List ℕ
  | bioEnd bio => [bio]
  | enqueue _ _ | poll _ | advance | polled | fault => []

end NullLabel

/-- The bios that were taken, in their order. -/
def takenBios (labels : List NullLabel) : List ℕ := labels.flatMap NullLabel.takes

/-- The bios that were ended, in their order. -/
def endedBios (labels : List NullLabel) : List ℕ := labels.flatMap NullLabel.ends

/-- How many bios there are for a poll: those that had not been ended when it was called, and those
that `bio->end` has enqueued in it. -/
def availableBios (before during : List NullLabel) : ℕ :=
  (takenBios before).length - (endedBios before).length + (takenBios during).length

/-- The bios that wait for their `bio->end`. -/
def NullEngine.waiting (s : NullEngine) : List ℕ := s.outstanding.drop s.pc.bios.length

/-- **What a run promises**: a queue is never full, and bios are ended once, in the order of
`null_enqueue`. A poll ends as many as it should, and returns when `bio->end` enqueues no more. -/
structure NullOk (iodepth : BitVec 32) (labels : List NullLabel) (s : NullEngine) : Prop where
  defined : s.pc ≠ .undefined
  accepted : ∀ bio res, .enqueue bio res ∈ labels → res = 0
  order : takenBios labels = endedBios labels ++ s.waiting
  polls : ∀ before max during after,
    labels = before ++ .poll max :: during ++ .polled :: after → .polled ∉ during →
      (endedBios during).length = if max = 0 then availableBios before during
        else min max.toNat (availableBios before during)
  returns : s.pc.Polling → ∃ rest t, Run (NullStep iodepth) s (rest ++ [.polled]) t ∧
    takenBios rest = []

/-- A poll without a limit has no more bios than it can count. -/
def PollsFit (labels : List NullLabel) : Prop :=
  ∀ before during after, labels = before ++ .poll 0 :: during ++ .polled :: after →
    .polled ∉ during → availableBios before during ≤ 2 ^ 32

/-! ## Bios first in, first out -/

/-- What a caller sees: where the poll stands, and the bios that wait. -/
structure NullView where
  pc : NullPc
  waiting : List ℕ

def NullEngine.view (s : NullEngine) : NullView where
  pc := s.pc
  waiting := s.waiting

/-- **The engine as a list of bios.** -/
inductive FifoStep : NullView → NullLabel → NullView → Prop
  | enqueue {pc : NullPc} (waiting : List ℕ) (bio : ℕ) : pc.Calls →
    FifoStep ⟨pc, waiting⟩ (.enqueue bio 0) ⟨pc, waiting ++ [bio]⟩
  | poll (waiting : List ℕ) (max : BitVec 32) :
    FifoStep ⟨.idle, waiting⟩ (.poll max) ⟨.loop max 0, waiting⟩
  | bioEnd (max nrCompletion : BitVec 32) (bio : ℕ) (waiting : List ℕ) :
    FifoStep ⟨.loop max nrCompletion, bio :: waiting⟩ (.bioEnd bio)
      ⟨.ending max nrCompletion bio, waiting⟩
  | advance (max nrCompletion : BitVec 32) (bio : ℕ) (waiting : List ℕ) :
    FifoStep ⟨.ending max nrCompletion bio, waiting⟩ .advance
      ⟨if nrCompletion + 1 = max then .leaving else .loop max (nrCompletion + 1), waiting⟩
  | empty (max nrCompletion : BitVec 32) :
    FifoStep ⟨.loop max nrCompletion, []⟩ .polled ⟨.idle, []⟩
  | leave (waiting : List ℕ) : FifoStep ⟨.leaving, waiting⟩ .polled ⟨.idle, waiting⟩

/-- How many bios the poll still ends if there are enough: until `nr_completion`, which has 32 bits,
is `max`. -/
def NullPc.left : NullPc → ℕ
  | .loop max nrCompletion => (max - nrCompletion - 1).toNat + 1
  | .ending max nrCompletion _ => (max - nrCompletion - 1).toNat
  | .idle | .leaving | .undefined => 0

/-- What a poll still does, if no bios come. -/
def NullView.rank (v : NullView) : ℕ :=
  3 * v.waiting.length + match v.pc with
    | .loop _ _ => 1
    | .ending _ _ _ => 2
    | .idle | .leaving | .undefined => 0

section Fifo

variable {s t : NullView} {label : NullLabel} {labels during : List NullLabel}

theorem takenBios_cons (label : NullLabel) (labels : List NullLabel) :
    takenBios (label :: labels) = label.takes ++ takenBios labels := List.flatMap_cons

theorem endedBios_cons (label : NullLabel) (labels : List NullLabel) :
    endedBios (label :: labels) = label.ends ++ endedBios labels := List.flatMap_cons

/-- What waited and what came in is what was ended and what waits. -/
theorem FifoStep.conserves (h : FifoStep s label t) :
    s.waiting ++ label.takes = label.ends ++ t.waiting := by
  cases h with
  | enqueue waiting bio => rfl
  | poll waiting max => exact List.append_nil waiting
  | bioEnd max nrCompletion bio waiting => exact List.append_nil (bio :: waiting)
  | advance max nrCompletion bio waiting => exact List.append_nil waiting
  | empty => rfl
  | leave waiting => exact List.append_nil waiting

/-- **In every run** bios are ended in the order in which they came. -/
theorem fifoRun_conserves (h : Run FifoStep s labels t) :
    s.waiting ++ takenBios labels = endedBios labels ++ t.waiting := by
  induction h with
  | nil s => exact List.append_nil s.waiting
  | cons hstep _ ih =>
    rw [takenBios_cons, endedBios_cons, ← List.append_assoc, hstep.conserves, List.append_assoc, ih,
      List.append_assoc]

theorem fifoRun_accepted (h : Run FifoStep s labels t) {bio : ℕ} {res : Int}
    (hmem : .enqueue bio res ∈ labels) : res = 0 := by
  induction h with
  | nil s => cases hmem
  | cons hstep _ ih =>
    rcases List.mem_cons.mp hmem with rfl | hrest
    · cases hstep
      rfl
    · exact ih hrest

/-- A poll counts down to its `max`. -/
theorem left_advance (max nrCompletion : BitVec 32) :
    (if nrCompletion + 1 = max then NullPc.leaving else .loop max (nrCompletion + 1)).left
      = (max - nrCompletion - 1).toNat := by
  have hsub : max - (nrCompletion + 1) = max - nrCompletion - 1 := by
    rw [sub_sub]
  split
  · rename_i heq
    rw [← hsub, heq, sub_self]
    rfl
  · rename_i hne
    have hpos : max - nrCompletion - 1 ≠ 0 := by
      rw [← hsub]
      exact fun h => hne (sub_eq_zero.mp h).symm
    rw [NullPc.left, hsub]
    generalize max - nrCompletion - 1 = n at hpos
    bv_omega

/-- **What a poll ends**, from where it stands to its return. -/
theorem fifoRun_polled (h : Run FifoStep s (during ++ [.polled]) t) (hpolling : s.pc.Polling)
    (hduring : .polled ∉ during) :
    (endedBios during).length = min s.pc.left (s.waiting.length + (takenBios during).length) := by
  induction during generalizing s with
  | nil =>
    cases h with
    | cons hstep _ =>
      cases hstep with
      | empty => exact (Nat.min_zero _).symm
      | leave => exact (Nat.zero_min _).symm
  | cons label during ih =>
    rw [List.mem_cons, not_or] at hduring
    cases h with
    | cons hstep hrest =>
      have hrun := ih hrest
      rw [takenBios_cons, endedBios_cons, List.length_append, List.length_append]
      cases hstep with
      | enqueue waiting bio =>
        rw [hrun hpolling hduring.2]
        simp only [NullLabel.takes, NullLabel.ends, if_true, List.length_append,
          List.length_singleton, List.length_nil]
        omega
      | poll => exact hpolling.elim
      | bioEnd max nrCompletion bio waiting =>
        rw [hrun trivial hduring.2]
        simp only [NullLabel.takes, NullLabel.ends, NullPc.left, List.length_cons, List.length_nil]
        omega
      | advance max nrCompletion bio waiting =>
        have hpc : NullPc.Polling
            (if nrCompletion + 1 = max then .leaving else .loop max (nrCompletion + 1)) := by
          split <;> trivial
        rw [hrun hpc hduring.2, left_advance]
        simp only [NullLabel.takes, NullLabel.ends, NullPc.left, List.length_nil, Nat.zero_add]
      | empty => exact absurd rfl hduring.1
      | leave => exact absurd rfl hduring.1

theorem left_loop (max : BitVec 32) :
    (NullPc.loop max 0).left = if max = 0 then 2 ^ 32 else max.toNat := by
  rw [NullPc.left, sub_zero]
  split
  · rename_i hzero
    rw [hzero]
    rfl
  · rename_i hpos
    bv_omega

/-- The labels around a call of `null_poll`. -/
theorem append_poll_append (before during after : List NullLabel) (max : BitVec 32) :
    before ++ .poll max :: during ++ .polled :: after
      = before ++ .poll max :: (during ++ [.polled] ++ after) := by
  rw [List.append_assoc, List.cons_append, List.append_assoc, List.singleton_append]

/-- **A whole poll** ends as many bios as there are for it, but no more than `nr_completion` can
count. -/
theorem fifoRun_poll (hempty : s.waiting = []) {before after : List NullLabel} {max : BitVec 32}
    (h : Run FifoStep s (before ++ .poll max :: during ++ .polled :: after) t)
    (hduring : .polled ∉ during) :
    (endedBios during).length
      = min (if max = 0 then 2 ^ 32 else max.toNat) (availableBios before during) := by
  rw [append_poll_append] at h
  obtain ⟨u, hbefore, hpoll⟩ := h.exists_of_append
  have hconserves := fifoRun_conserves hbefore
  rw [hempty, List.nil_append] at hconserves
  have hwaiting : u.waiting.length = (takenBios before).length - (endedBios before).length := by
    rw [hconserves, List.length_append, Nat.add_sub_cancel_left]
  cases hpoll with
  | cons hstep hrest =>
    cases hstep with
    | poll waiting =>
      obtain ⟨v, hpolled, -⟩ := hrest.exists_of_append
      rw [fifoRun_polled hpolled trivial hduring, left_loop, availableBios, ← hwaiting]

/-- A poll comes nearer to its return in each of its steps. -/
theorem FifoStep.rank_lt (h : FifoStep s label t) (hpolling : s.pc.Polling)
    (htakes : label.takes = []) :
    label = .polled ∨ t.pc.Polling ∧ t.rank < s.rank := by
  cases h with
  | enqueue waiting bio => cases htakes
  | poll waiting max => exact hpolling.elim
  | bioEnd max nrCompletion bio waiting =>
    refine .inr ⟨trivial, ?_⟩
    simp only [NullView.rank, List.length_cons]
    omega
  | advance max nrCompletion bio waiting =>
    refine .inr ?_
    simp only [NullView.rank]
    split
    · exact ⟨trivial, Nat.lt_add_of_pos_right Nat.two_pos⟩
    · exact ⟨trivial, Nat.lt_succ_self _⟩
  | empty => exact .inl rfl
  | leave waiting => exact .inl rfl

end Fifo

/-! ## The ring -/

namespace NullIoQueue

variable {queue : NullIoQueue} {bios rest : List ℕ} {i : BitVec 32} {bio : ℕ}

theorem init_eq_new {nd elements : Bool} {iodepth : BitVec 32}
    (h : init nd elements iodepth = some queue) : queue = new iodepth := by
  rw [init] at h
  split at h
  · cases h
  · split at h
    · cases h
    · exact (Option.some.inj h).symm

theorem succ_spec (hi : i.toNat < queue.size.toNat) :
    ∃ next, queue.succ i = some next ∧ next.toNat = (i.toNat + 1) % queue.size.toNat := by
  have hne : queue.size ≠ 0 := by
    intro hzero
    rw [hzero] at hi
    exact absurd hi (Nat.not_lt_zero _)
  have hlt := queue.size.isLt
  refine ⟨_, if_neg hne, ?_⟩
  rw [BitVec.toNat_umod, BitVec.toNat_add]
  congr 1
  exact Nat.mod_eq_of_lt (by change i.toNat + 1 < 2 ^ 32; omega)

theorem tail_lt (h : queue.toQueue.Holds bios) : queue.tail.toNat < queue.size.toNat := by
  have htail : queue.tail.toNat = _ := h.tail
  rw [htail]
  exact Nat.mod_lt _ (Nat.zero_lt_of_lt h.lt)

/-- **`null_enqueue`** with its numbers of 32 bits is that of `Engines`. -/
theorem enqueue_toQueue (h : queue.toQueue.Holds bios) (bio : ℕ) :
    ∃ queue', queue.enqueue bio = some ((nullEnqueue queue.toQueue bio).1, queue') ∧
      queue'.toQueue = (nullEnqueue queue.toQueue bio).2 ∧ queue'.size = queue.size := by
  obtain ⟨next, hnext, hvalue⟩ := succ_spec (tail_lt h)
  have hfull : queue.head = next ↔ queue.toQueue.head
      = (queue.toQueue.tail + 1) % queue.toQueue.size := by
    rw [← BitVec.toNat_inj, hvalue]
    exact Iff.rfl
  rw [enqueue, hnext, nullEnqueue]
  simp only [Option.bind_eq_bind, Option.bind_some]
  by_cases hhead : queue.head = next
  · rw [if_pos hhead, if_pos (hfull.mp hhead)]
    exact ⟨queue, rfl, rfl, rfl⟩
  · have hset : queue.set queue.tail bio = some _ := if_pos (BitVec.lt_def.mpr (tail_lt h))
    rw [if_neg hhead, if_neg fun heq => hhead (hfull.mpr heq), hset]
    refine ⟨_, rfl, ?_, rfl⟩
    simp only [toQueue, hvalue]

/-- **The queue is full** exactly if `size - 1` bios are in it, and the one in `bio->end` is one of
them. -/
theorem enqueue_cases (h : queue.toQueue.Holds bios) (bio : ℕ) :
    bios.length + 1 < queue.size.toNat ∧ (∃ queue', queue.enqueue bio = some (0, queue') ∧
        queue'.toQueue.Holds (bios ++ [bio]) ∧ queue'.size = queue.size) ∨
      bios.length + 1 = queue.size.toNat ∧
        ∃ queue', queue.enqueue bio = some (-1, queue') ∧ queue'.toQueue = queue.toQueue := by
  obtain ⟨queue', henqueue, hqueue, hsize⟩ := enqueue_toQueue h bio
  have hlt : bios.length < queue.size.toNat := h.lt
  rcases Nat.lt_or_eq_of_le (Nat.succ_le_of_lt hlt) with hroom | hfull
  · cases hnull : nullEnqueue queue.toQueue bio with
    | mk res queue'' =>
      obtain ⟨rfl, hholds, -⟩ := nullEnqueue_spec h hroom hnull
      rw [hnull] at henqueue hqueue
      change queue'.toQueue = queue'' at hqueue
      rw [← hqueue] at hholds
      exact .inl ⟨hroom, queue', henqueue, hholds, hsize⟩
  · have hhead : queue.toQueue.head = (queue.toQueue.tail + 1) % queue.toQueue.size := by
      rw [h.tail, Nat.mod_add_mod, Nat.add_assoc]
      exact (h.head_eq_iff (Nat.le_of_eq hfull)).mpr (.inr hfull)
    have hbusy : nullEnqueue queue.toQueue bio = (-1, queue.toQueue) := if_pos hhead
    rw [hbusy] at henqueue hqueue
    exact .inr ⟨hfull, queue', henqueue, hqueue⟩

theorem head_eq_tail_iff (h : queue.toQueue.Holds bios) : queue.head = queue.tail ↔ bios = [] := by
  rw [← BitVec.toNat_inj]
  exact h.eq_nil_iff

theorem head_ne_tail (h : queue.toQueue.Holds (bio :: rest)) : queue.head ≠ queue.tail :=
  fun heq => List.cons_ne_nil bio rest ((head_eq_tail_iff h).mp heq)

/-- The first bio is at the head. -/
theorem get_head (h : queue.toQueue.Holds (bio :: rest)) :
    queue.get queue.head = some bio := by
  obtain ⟨_, hfirst, -⟩ := h.next fun heq => head_ne_tail h (BitVec.toNat_inj.mp heq)
  rw [get, if_pos (BitVec.lt_def.mpr h.head_lt)]
  exact congrArg some (List.head_eq_of_cons_eq hfirst).symm

/-- The head moves on to the next. -/
theorem succ_head (h : queue.toQueue.Holds (bio :: rest)) :
    ∃ head, queue.succ queue.head = some head ∧
      NullQueue.Holds (toQueue { queue with head := head }) rest := by
  obtain ⟨rest', hfirst, hholds⟩ := h.next fun heq => head_ne_tail h (BitVec.toNat_inj.mp heq)
  obtain ⟨head, hhead, hvalue⟩ := succ_spec h.head_lt
  refine ⟨head, hhead, ?_⟩
  rw [(List.cons.inj hfirst).2, toQueue]
  simp only [hvalue]
  exact hholds

end NullIoQueue

/-! ## The engine -/

/-- **The invariant of the engine**: the bios in flight are those in the queue, and the one in
`bio->end` is the first of them. -/
structure NullInv (iodepth : BitVec 32) (s : NullEngine) : Prop where
  size : s.queue.size.toNat = iodepth.toNat + 1
  holds : s.queue.toQueue.Holds s.outstanding
  first : s.outstanding = s.pc.bios ++ s.waiting
  defined : s.pc ≠ .undefined

namespace NullInv

variable {iodepth : BitVec 32} {s t : NullEngine} {label : NullLabel} {labels : List NullLabel}

/-- `null_init` makes an empty queue, if its size is not 0. -/
theorem start (hlt : iodepth.toNat + 1 < 2 ^ 32) : NullInv iodepth (.start (.new iodepth)) := by
  have hsize : (iodepth + 1).toNat = iodepth.toNat + 1 := by
    rw [BitVec.toNat_add]
    exact Nat.mod_eq_of_lt hlt
  refine ⟨hsize, ?_, rfl, by rintro ⟨⟩⟩
  have hinit : (NullIoQueue.new iodepth).toQueue = nullInit iodepth.toNat := by
    rw [NullIoQueue.toQueue, nullInit]
    simp only [NullIoQueue.new, hsize]
    rfl
  change (NullIoQueue.new iodepth).toQueue.Holds []
  rw [hinit]
  exact nullInit_holds _

/-- **A poll** has a next step, and it is that of the list. -/
theorem next (h : NullInv iodepth s) (hpolling : s.pc.Polling) :
    ∃ label t, s.pollNext = some (label, t) ∧ FifoStep s.view label t.view ∧
      NullInv iodepth t ∧ label.takes = [] := by
  obtain ⟨queue, result, pc, outstanding⟩ := s
  obtain ⟨hsize, hholds, hfirst, -⟩ := h
  cases pc with
  | idle => exact hpolling.elim
  | undefined => exact hpolling.elim
  | loop max nrCompletion =>
    cases outstanding with
    | nil =>
      have hempty : queue.head = queue.tail := (NullIoQueue.head_eq_tail_iff hholds).mpr rfl
      refine ⟨.polled, ⟨queue, result, .idle, []⟩, if_neg (not_not.mpr hempty),
        .empty max nrCompletion, ⟨hsize, hholds, rfl, ?_⟩, rfl⟩
      rintro ⟨⟩
    | cons bio rest =>
      have hne : queue.head ≠ queue.tail := NullIoQueue.head_ne_tail hholds
      have hget : queue.get queue.head = some bio := NullIoQueue.get_head hholds
      refine ⟨.bioEnd bio, ⟨queue, Function.update result bio 0, .ending max nrCompletion bio,
        bio :: rest⟩, ?_, .bioEnd max nrCompletion bio rest, ⟨hsize, hholds, rfl, ?_⟩, rfl⟩
      · rw [NullEngine.pollNext]
        simp only [ne_eq, hne, not_false_eq_true, if_true, hget, Option.map_some]
      · rintro ⟨⟩
  | ending max nrCompletion bio =>
    obtain ⟨rest, rfl⟩ : ∃ rest, outstanding = bio :: rest := ⟨_, hfirst⟩
    obtain ⟨head, hhead, hrest⟩ := NullIoQueue.succ_head hholds
    refine ⟨.advance, ⟨{ queue with head := head }, result,
      if nrCompletion + 1 = max then .leaving else .loop max (nrCompletion + 1), rest⟩, ?_, ?_,
      ⟨hsize, hrest, ?_, ?_⟩, rfl⟩
    · rw [NullEngine.pollNext]
      simp only [hhead, Option.map_some, List.erase_cons_head]
    · have hview : NullEngine.view ⟨{ queue with head := head }, result,
          if nrCompletion + 1 = max then .leaving else .loop max (nrCompletion + 1), rest⟩
          = ⟨if nrCompletion + 1 = max then .leaving else .loop max (nrCompletion + 1), rest⟩ := by
        split <;> rfl
      rw [hview]
      exact .advance max nrCompletion bio rest
    · split <;> rfl
    · split <;> rintro ⟨⟩
  | leaving =>
    refine ⟨.polled, ⟨queue, result, .idle, outstanding⟩, rfl, .leave outstanding,
      ⟨hsize, hholds, rfl, ?_⟩, rfl⟩
    rintro ⟨⟩

/-- **A step of the engine** is one of the list, and keeps the invariant. -/
theorem step (h : NullInv iodepth s) (hstep : NullStep iodepth s label t) :
    FifoStep s.view label t.view ∧ NullInv iodepth t := by
  have hsize := h.size
  cases hstep with
  | @enqueue bio res queue hcalls hroom henqueue =>
    rcases NullIoQueue.enqueue_cases h.holds bio with
      ⟨-, queue', htaken, hholds, hsame⟩ | ⟨hfull, -⟩
    · rw [henqueue] at htaken
      obtain ⟨rfl, rfl⟩ := Prod.mk.inj (Option.some.inj htaken)
      have hwaiting : (s.outstanding ++ [bio]).drop s.pc.bios.length = s.waiting ++ [bio] := by
        rw [h.first, List.append_assoc, List.drop_left]
      rw [if_pos rfl]
      refine ⟨?_, ?_, hholds, ?_, h.defined⟩
      · have hview : NullEngine.view
            { s with queue := queue, outstanding := s.outstanding ++ [bio] }
              = ⟨s.pc, s.waiting ++ [bio]⟩ := congrArg (NullView.mk s.pc) hwaiting
        rw [hview]
        exact .enqueue s.waiting bio hcalls
      · exact (congrArg BitVec.toNat hsame).trans hsize
      · change s.outstanding ++ [bio] = s.pc.bios ++ (s.outstanding ++ [bio]).drop s.pc.bios.length
        rw [hwaiting, ← List.append_assoc, ← h.first]
    · omega
  | enqueueFault bio hcalls hroom henqueue =>
    rcases NullIoQueue.enqueue_cases h.holds bio with ⟨-, _, htaken, -⟩ | ⟨-, _, hbusy, -⟩
    · rw [henqueue] at htaken
      cases htaken
    · rw [henqueue] at hbusy
      cases hbusy
  | poll max hidle =>
    obtain ⟨queue, result, pc, outstanding⟩ := s
    cases hidle
    refine ⟨.poll outstanding max, hsize, h.holds, rfl, ?_⟩
    rintro ⟨⟩
  | next hpolling hnext =>
    obtain ⟨_, _, hnext', hfifo, hinv, -⟩ := h.next hpolling
    rw [hnext] at hnext'
    cases hnext'
    exact ⟨hfifo, hinv⟩
  | nextFault hpolling hnext =>
    obtain ⟨_, _, hnext', -⟩ := h.next hpolling
    rw [hnext] at hnext'
    cases hnext'

/-- **A run of the engine** is one of the list. -/
theorem run (h : NullInv iodepth s) (hrun : Run (NullStep iodepth) s labels t) :
    Run FifoStep s.view labels t.view ∧ NullInv iodepth t := by
  induction hrun with
  | nil s => exact ⟨.nil _, h⟩
  | cons hstep _ ih =>
    obtain ⟨hfifo, hinv⟩ := h.step hstep
    obtain ⟨hrest, hend⟩ := ih hinv
    exact ⟨.cons hfifo hrest, hend⟩

/-- **A poll returns** when `bio->end` enqueues no more. -/
theorem returns (h : NullInv iodepth s) (hpolling : s.pc.Polling) :
    ∃ rest t, Run (NullStep iodepth) s (rest ++ [.polled]) t ∧ takenBios rest = [] := by
  induction hrank : s.view.rank using Nat.strong_induction_on generalizing s with
  | _ n ih =>
    obtain ⟨label, t, hnext, hfifo, hinv, htakes⟩ := h.next hpolling
    have hstep : NullStep iodepth s label t := .next hpolling hnext
    rcases hfifo.rank_lt hpolling htakes with rfl | ⟨hpolling', hlt⟩
    · exact ⟨[], t, .single hstep, rfl⟩
    · obtain ⟨rest, u, hrun, htaken⟩ := ih _ (hrank ▸ hlt) hinv hpolling' rfl
      refine ⟨label :: rest, u, .cons hstep hrun, ?_⟩
      rw [takenBios_cons, htakes, htaken, List.append_nil]

/-- **A run is as promised** exactly if its polls can count their bios. -/
theorem ok_iff (hinv : NullInv iodepth s) (hempty : s.waiting = [])
    (hrun : Run (NullStep iodepth) s labels t) : NullOk iodepth labels t ↔ PollsFit labels := by
  obtain ⟨hfifo, hend⟩ := hinv.run hrun
  refine ⟨?_, ?_⟩
  · intro hok before during after hlabels hduring
    have hcount := hok.polls before 0 during after hlabels hduring
    rw [hlabels] at hfifo
    rw [fifoRun_poll hempty hfifo hduring, if_pos rfl, if_pos rfl] at hcount
    exact min_eq_right_iff.mp hcount
  · intro hfit
    have horder := fifoRun_conserves hfifo
    change s.waiting ++ _ = _ at horder
    rw [hempty, List.nil_append] at horder
    refine ⟨hend.defined, fun bio res hmem => fifoRun_accepted hfifo hmem, horder, ?_, hend.returns⟩
    intro before max during after hlabels hduring
    have hcount : (endedBios during).length = _ :=
      fifoRun_poll hempty (hlabels ▸ hfifo) hduring
    rw [hcount]
    by_cases hzero : max = 0
    · rw [if_pos hzero, if_pos hzero]
      rw [hzero] at hlabels
      exact min_eq_right (hfit before during after hlabels hduring)
    · rw [if_neg hzero, if_neg hzero]

/-- No more than `iodepth` bios wait. -/
theorem length_waiting_le (h : NullInv iodepth s) : s.waiting.length ≤ iodepth.toNat := by
  have hlt : s.outstanding.length < s.queue.size.toNat := h.holds.lt
  rw [h.first, List.length_append, h.size] at hlt
  omega

/-- A `bio->end` that enqueues nothing, as that of the jobs, leaves the polls no more than they can
count. -/
theorem pollsFit_of_plain (hinv : NullInv iodepth s) (hempty : s.waiting = [])
    (hrun : Run (NullStep iodepth) s labels t)
    (hplain : ∀ before max during after,
      labels = before ++ .poll max :: during ++ .polled :: after → .polled ∉ during →
        takenBios during = []) : PollsFit labels := by
  intro before during after hlabels hduring
  have htaken := hplain before 0 during after hlabels hduring
  rw [hlabels, append_poll_append] at hrun
  obtain ⟨u, hbefore, -⟩ := hrun.exists_of_append
  obtain ⟨hfifo, hend⟩ := hinv.run hbefore
  have horder := fifoRun_conserves hfifo
  change s.waiting ++ _ = endedBios before ++ u.waiting at horder
  rw [hempty, List.nil_append] at horder
  have hle := hend.length_waiting_le
  have hlt := iodepth.isLt
  rw [availableBios, horder, htaken, List.length_append, List.length_nil]
  omega

end NullInv

/-- **The jobs on the null engine**, whose `bio->end` enqueues nothing, have what is promised in every
run. -/
theorem nullOk_of_plain {iodepth : BitVec 32} {nd elements : Bool} {queue : NullIoQueue}
    {labels : List NullLabel} {s : NullEngine} (hlt : iodepth.toNat + 1 < 2 ^ 32)
    (hinit : NullIoQueue.init nd elements iodepth = some queue)
    (hrun : Run (NullStep iodepth) (.start queue) labels s)
    (hplain : ∀ before max during after,
      labels = before ++ .poll max :: during ++ .polled :: after → .polled ∉ during →
        takenBios during = []) : NullOk iodepth labels s := by
  obtain rfl := NullIoQueue.init_eq_new hinit
  have hinv := NullInv.start hlt
  exact (hinv.ok_iff rfl hrun).mpr (hinv.pollsFit_of_plain rfl hrun hplain)

/-- With the largest `iodepth` the first call of `null_enqueue` divides by zero. -/
theorem nullStep_fault : NullStep (BitVec.allOnes 32) (.start (.new (BitVec.allOnes 32))) .fault
    { NullEngine.start (.new (BitVec.allOnes 32)) with pc := .undefined } :=
  .enqueueFault 0 trivial (Nat.succ_pos _) rfl

/-- **The null engine keeps what is promised** in the runs whose polls can count their bios, and in
no others, exactly if `iodepth + 1` is not counted as 0. -/
theorem nullOk_iff (iodepth : BitVec 32) :
    (∀ nd elements queue, NullIoQueue.init nd elements iodepth = some queue →
      ∀ labels s, Run (NullStep iodepth) (.start queue) labels s →
        (NullOk iodepth labels s ↔ PollsFit labels)) ↔ iodepth.toNat + 1 < 2 ^ 32 := by
  refine ⟨?_, ?_⟩
  · intro h
    by_contra hge
    obtain rfl : iodepth = BitVec.allOnes 32 := by
      apply BitVec.eq_of_toNat_eq
      have hlt := iodepth.isLt
      rw [BitVec.toNat_allOnes]
      omega
    have hok := h true true _ rfl _ _ (.single nullStep_fault)
    refine (hok.mpr ?_).defined rfl
    intro before during after hlabels
    have hmem : NullLabel.poll 0 ∈ [NullLabel.fault] := by
      rw [hlabels, append_poll_append]
      exact List.mem_append_right _ List.mem_cons_self
    cases List.mem_singleton.mp hmem
  · intro hlt nd elements queue hinit labels s hrun
    obtain rfl := NullIoQueue.init_eq_new hinit
    exact (NullInv.start hlt).ok_iff rfl hrun

/-- The largest `iodepth`. -/
theorem nullOk_wrapped :
    ¬ ∀ (iodepth : BitVec 32) (nd elements : Bool) (queue : NullIoQueue),
      NullIoQueue.init nd elements iodepth = some queue →
      ∀ labels s, Run (NullStep iodepth) (.start queue) labels s → NullOk iodepth labels s := by
  intro h
  exact (h _ true true _ rfl _ _ (.single nullStep_fault)).defined rfl

end ChamberSpo

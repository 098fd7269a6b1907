import ChamberSpo.RingQueue
import ChamberSpo.Types

/-!
# The I/O engines

What `null.c`, `libaio.c` and `spdkio.c` keep of the bios that they are given. A bio is its number
in the pool of the job.

* `nullEnqueue`, `libaioEnqueue`, `spdkioEnqueue` — a bio is taken or refused.
* `libaioSubmit` — the bios in the ring of `libaio.c` go to the kernel.
* `Engine.Polls`, `Engine.next` — a poll, and the bios that it ends one after the other.
* `Engine.Holds` — the bios that an engine has and will end when it is polled.

What the kernel and the library answer is an argument. `EngineKind.serves` says which commands
come back.
-/

namespace ChamberSpo

/-! ## The null engine -/

/-- `struct null_io_queue` -/
structure NullQueue where
  elements : ℕ → ℕ
  size : ℕ
  head : ℕ
  tail : ℕ

/-- `null_init` -/
def nullInit (iodepth : ℕ) : NullQueue where
  elements _ := 0
  size := iodepth + 1
  head := 0
  tail := 0

/-- `null_enqueue` -/
def nullEnqueue (queue : NullQueue) (id : ℕ) : Int × NullQueue :=
  let nextTail := (queue.tail + 1) % queue.size
  -- queue full, return busy
  if queue.head = nextTail then (-1, queue)
  else (0, { queue with
    elements := Function.update queue.elements queue.tail id
    tail := nextTail })

/-! ## libaio -/

/-- `struct libaio_data` -/
structure LibaioData where
  iocbs : ℕ → ℕ
  iodepth : ℕ
  tail : ℕ
  head : ℕ
  nrEnqueued : ℕ
  /-- the iocbs that the kernel took and has had no event for -/
  kernel : List ℕ

/-- `libaio_init` -/
def libaioInit (iodepth : ℕ) : LibaioData where
  iocbs _ := 0
  iodepth := iodepth
  tail := 0
  head := 0
  nrEnqueued := 0
  kernel := []

/-- `io_submit` takes `n` iocbs. -/
def LibaioData.submitted (ld : LibaioData) (n : ℕ) : LibaioData :=
  { ld with
    kernel := ld.kernel ++ (List.range n).map fun k => ld.iocbs (ld.head + k)
    head := (ld.head + n) % ld.iodepth
    nrEnqueued := ld.nrEnqueued - n }

/-- `libaio_submit`, with what its calls of `io_submit` return; `none` for what they cannot. -/
def libaioSubmit : List Int → LibaioData → Option (Int × LibaioData)
  | [], ld => if ld.nrEnqueued = 0 then some (0, ld) else none
  | res :: results, ld =>
    let nr := min ld.nrEnqueued (ld.iodepth - ld.head)
    if ld.nrEnqueued = 0 ∨ (nr : Int) < res then none
    else if 0 < res then libaioSubmit results (ld.submitted res.toNat)
    else if results = [] then some (res, ld) else none

/-- What an engine gets from the calls that it makes. -/
structure EngineAnswers where
  /-- of `io_submit` -/
  results : List Int
  /-- of `fsync` or `ioctl`, or of the function of the library -/
  ret : Int

/-- `libaio_enqueue`. `oldKernel` is `LINUX_VERSION_CODE < KERNEL_VERSION(4,7,0)`. -/
def libaioEnqueue (oldKernel : Bool) (ld : LibaioData) (opcode : BioOpcode) (id : ℕ)
    (answers : EngineAnswers) : Option (Int × LibaioData) :=
  if ld.iodepth ≤ ld.nrEnqueued then some (-1, ld)
  else match opcode with
    | .read | .write => some (0, { ld with
        iocbs := Function.update ld.iocbs ld.tail id
        tail := (ld.tail + 1) % ld.iodepth
        nrEnqueued := ld.nrEnqueued + 1 })
    | .flush => do
      let (_, ld) ← libaioSubmit answers.results ld
      return (answers.ret, ld)
    | .deallocate =>
      if oldKernel then do
        let (_, ld) ← libaioSubmit answers.results ld
        return (answers.ret, ld)
      else some (answers.ret, ld)
    | .writeZeroes | .writeUncorrect | .identify | .fwDownload => some (-1, ld)

/-- `io_getevents` on the iocbs of `kernel`: the events that it gets, and the iocbs that are left.
It waits for `min` of them. -/
def IoGetevents (kernel : List ℕ) (min max : ℕ) (events rest : List ℕ) : Prop :=
  if max < min then events = [] ∧ rest = kernel
  else min ≤ events.length ∧ events.length ≤ max ∧ (events ++ rest).Perm kernel

/-! ## SPDK -/

/-- The commands that the library has not called back for, on the queue of the job and on that of
the controller. -/
structure SpdkioData where
  qpair : List ℕ
  admin : List ℕ

/-- `spdkio_enqueue` -/
def spdkioEnqueue (idata : SpdkioData) (opcode : BioOpcode) (id : ℕ) (answers : EngineAnswers) :
    Int × SpdkioData :=
  match opcode with
  | .read | .write | .flush | .deallocate | .writeZeroes | .writeUncorrect =>
    (answers.ret, if answers.ret = 0 then { idata with qpair := idata.qpair ++ [id] } else idata)
  | .identify =>
    (answers.ret, if answers.ret = 0 then { idata with admin := idata.admin ++ [id] } else idata)
  | .fwDownload => (-1, idata)

/-- `spdk_nvme_qpair_process_completions`: the commands that it calls back for. There are some, if
there are any on the queue. -/
structure ProcessCompletions (qpair : List ℕ) (max : ℕ) (events rest : List ℕ) : Prop where
  perm : (events ++ rest).Perm qpair
  le : max ≠ 0 → events.length ≤ max
  progress : qpair ≠ [] → events ≠ []

/-! ## Engines -/

/-- `struct ioengine` -/
inductive Engine where
  | null (queue : NullQueue)
  | libaio (ld : LibaioData)
  | spdk (idata : SpdkioData)

/-- The name of an engine. -/
inductive EngineKind where
  | null
  | libaio
  | spdk
  deriving DecidableEq, Repr

namespace Engine

/-- `ops->name` -/
def kind : Engine → EngineKind
  | .null _ => .null
  | .libaio _ => .libaio
  | .spdk _ => .spdk

/-- `ops->init` -/
def init (iodepth : ℕ) : EngineKind → Engine
  | .null => .null (nullInit iodepth)
  | .libaio => .libaio (libaioInit iodepth)
  | .spdk => .spdk { qpair := [], admin := [] }

/-- `ops->enqueue` -/
def enqueue (oldKernel : Bool) (engine : Engine) (opcode : BioOpcode) (id : ℕ)
    (answers : EngineAnswers) : Option (Int × Engine) :=
  match engine with
  | .null queue =>
    let (res, queue) := nullEnqueue queue id
    some (res, .null queue)
  | .libaio ld => do
    let (res, ld) ← libaioEnqueue oldKernel ld opcode id answers
    return (res, .libaio ld)
  | .spdk idata =>
    let (res, idata) := spdkioEnqueue idata opcode id answers
    some (res, .spdk idata)

/-- `ops->submit` -/
def submit (engine : Engine) (results : List Int) : Option (Int × Engine) :=
  match engine with
  | .null _ | .spdk _ => some (0, engine)
  | .libaio ld => do
    let (res, ld) ← libaioSubmit results ld
    return (res, .libaio ld)

/-- Where a poll stands. -/
inductive PollPc where
  /-- `null_poll` has ended `nrCompletion` bios -/
  | null (nrCompletion : ℕ)
  /-- the bios that `libaio_poll` or the library has still to end -/
  | events (ids : List ℕ)

/-- The bios that a poll took from its engine. -/
def PollPc.ids : PollPc → List ℕ
  | .null _ => []
  | .events ids => ids

/-- `ops->poll` begins. -/
inductive Polls (min max : ℕ) : Engine → PollPc → Engine → Prop
  | null (queue : NullQueue) : Polls min max (.null queue) (.null 0) (.null queue)
  | libaio (ld : LibaioData) (events rest : List ℕ) :
    IoGetevents ld.kernel min max events rest →
    Polls min max (.libaio ld) (.events events) (.libaio { ld with kernel := rest })
  | spdk (idata : SpdkioData) (events rest : List ℕ) :
    ProcessCompletions idata.qpair max events rest →
    Polls min max (.spdk idata) (.events events) (.spdk { idata with qpair := rest })

/-- The next bio that a poll ends; `none` when it returns. -/
def next (max : ℕ) : Engine → PollPc → Option (ℕ × Engine × PollPc)
  | .null queue, .null nrCompletion =>
    if queue.head = queue.tail ∨ nrCompletion ≠ 0 ∧ nrCompletion = max then none
    else some (queue.elements queue.head,
      .null { queue with head := (queue.head + 1) % queue.size }, .null (nrCompletion + 1))
  | engine, .events (id :: ids) => some (id, engine, .events ids)
  | _, .events [] | .libaio _, .null _ | .spdk _, .null _ => none

/-- The libaio quirk: a flush is over when it is enqueued. -/
def quirk (engine : Engine) (opcode : BioOpcode) : Bool :=
  engine.kind = .libaio && opcode = .flush

/-- Nothing waits for `ops->submit`. -/
def Flushed : Engine → Prop
  | .null _ | .spdk _ => True
  | .libaio ld => ld.nrEnqueued = 0

/-- What an engine makes of the result of a bio. -/
def Answers : Engine → Bio → Prop
  | .null _, bio => bio.result = 0
  | .libaio _, _ => True
  | .spdk _, bio => bio.result = 0 ∨ bio.result = -1

end Engine

namespace EngineKind

/-- The commands that an engine takes, and that come back: the deallocate of libaio is over when
it is enqueued, and the queue of the controller is not polled. -/
def serves : EngineKind → BioOpcode → Bool
  | .null, _ => true
  | .libaio, opcode => opcode = .read || opcode = .write || opcode = .flush
  | .spdk, opcode => opcode ≠ .identify && opcode ≠ .fwDownload

/-- The calls that an engine makes for a command succeed. -/
def Succeeds : EngineKind → BioOpcode → EngineAnswers → Prop
  | .null, _, _ => True
  | .libaio, opcode, answers => opcode = .flush → answers.ret = 0
  | .spdk, _, answers => answers.ret = 0

/-- `batch_complete` lets a poll get something. -/
def Gets (batchComplete : ℕ) : EngineKind → Prop
  | .null | .spdk => True
  | .libaio => batchComplete ≠ 0

end EngineKind

/-! ## What the null queue holds -/

/-- The elements of the queue are `bios`. -/
structure NullQueue.Holds (queue : NullQueue) (bios : List ℕ) : Prop where
  lt : bios.length < queue.size
  head_lt : queue.head < queue.size
  tail : queue.tail = (queue.head + bios.length) % queue.size
  bios : ringQueue queue.elements queue.size queue.head bios.length = bios

section Null

variable {queue queue' : NullQueue} {bios : List ℕ} {id : ℕ} {res : Int}

theorem nullInit_holds (iodepth : ℕ) : (nullInit iodepth).Holds [] where
  lt := Nat.succ_pos iodepth
  head_lt := Nat.succ_pos iodepth
  tail := (Nat.zero_mod _).symm
  bios := rfl

/-- A slot that is `n` behind the head is the head only after a whole turn. -/
theorem NullQueue.Holds.head_eq_iff (h : queue.Holds bios) {n : ℕ} (hn : n ≤ queue.size) :
    queue.head = (queue.head + n) % queue.size ↔ n = 0 ∨ n = queue.size := by
  have hhead : (queue.head + 0) % queue.size = queue.head := Nat.mod_eq_of_lt h.head_lt
  refine ⟨?_, ?_⟩
  · intro heq
    by_contra hno
    have hne : (queue.head + 0) % queue.size ≠ (queue.head + n) % queue.size :=
      slot_ne (by omega) (by omega)
    exact hne (hhead.trans heq)
  · rintro (rfl | rfl)
    · exact hhead.symm
    · rw [Nat.add_mod_right]
      exact hhead.symm

/-- **The null engine takes a bio** that it has room for. -/
theorem nullEnqueue_spec (h : queue.Holds bios) (hroom : bios.length + 1 < queue.size)
    (he : nullEnqueue queue id = (res, queue')) :
    res = 0 ∧ queue'.Holds (bios ++ [id]) ∧ queue'.size = queue.size := by
  have hnext : (queue.tail + 1) % queue.size
      = (queue.head + (bios.length + 1)) % queue.size := by
    rw [h.tail, Nat.mod_add_mod, Nat.add_assoc]
  have hne : queue.head ≠ (queue.tail + 1) % queue.size := by
    rw [hnext]
    intro heq
    rcases (h.head_eq_iff (Nat.le_of_lt hroom)).mp heq with heq | heq <;> omega
  rw [nullEnqueue, if_neg hne] at he
  obtain ⟨rfl, rfl⟩ := Prod.mk.inj he
  have hlength : (bios ++ [id]).length = bios.length + 1 := List.length_append
  refine ⟨rfl, ⟨hlength ▸ hroom, h.head_lt, hlength ▸ hnext, ?_⟩, rfl⟩
  rw [hlength]
  simp only [h.tail]
  rw [ringQueue_push h.lt, h.bios]

/-- **The first bio** is the next that a poll ends. -/
theorem NullQueue.Holds.next (h : queue.Holds bios) (hne : queue.head ≠ queue.tail) :
    ∃ rest, bios = queue.elements queue.head :: rest ∧
      NullQueue.Holds { queue with head := (queue.head + 1) % queue.size } rest := by
  cases bios with
  | nil =>
    rw [h.tail, List.length_nil] at hne
    exact absurd ((h.head_eq_iff (Nat.zero_le _)).mpr (.inl rfl)) hne
  | cons b rest =>
    have hbios := h.bios
    rw [List.length_cons, Nat.add_comm, ringQueue_add, ringQueue_succ, ringQueue_zero,
      List.nil_append, Nat.add_zero, Nat.mod_eq_of_lt h.head_lt, List.singleton_append] at hbios
    obtain ⟨hfirst, hrest⟩ := List.cons.inj hbios
    have hpos : 0 < queue.size := Nat.zero_lt_of_lt h.lt
    refine ⟨rest, by rw [hfirst], Nat.lt_of_succ_lt h.lt, Nat.mod_lt _ hpos, ?_, ?_⟩
    · change queue.tail = ((queue.head + 1) % queue.size + rest.length) % queue.size
      rw [h.tail, Nat.mod_add_mod, List.length_cons, Nat.add_assoc, Nat.add_comm 1]
    · change ringQueue queue.elements queue.size ((queue.head + 1) % queue.size) rest.length = rest
      rw [ringQueue_mod, hrest]

theorem NullQueue.Holds.eq_nil_iff (h : queue.Holds bios) :
    queue.head = queue.tail ↔ bios = [] := by
  rw [h.tail, h.head_eq_iff (Nat.le_of_lt h.lt), List.length_eq_zero_iff]
  have hlt := h.lt
  refine ⟨?_, ?_⟩
  · rintro (hnil | hfull)
    · exact hnil
    · omega
  · exact .inl

end Null

/-! ## What the ring of libaio holds -/

/-- The iocbs in the ring are those of `bios`. -/
structure LibaioData.Holds (ld : LibaioData) (bios : List ℕ) : Prop where
  nrEnqueued : ld.nrEnqueued = bios.length
  le : bios.length ≤ ld.iodepth
  head_lt : 0 < ld.iodepth → ld.head < ld.iodepth
  tail : 0 < ld.iodepth → ld.tail = (ld.head + bios.length) % ld.iodepth
  bios : ringQueue ld.iocbs ld.iodepth ld.head bios.length = bios

section Libaio

variable {ld ld' : LibaioData} {bios : List ℕ} {res : Int} {results : List Int}

theorem libaioInit_holds (iodepth : ℕ) : (libaioInit iodepth).Holds [] where
  nrEnqueued := rfl
  le := Nat.zero_le iodepth
  head_lt h := h
  tail _ := (Nat.zero_mod _).symm
  bios := rfl

/-- A bio is put in the ring. -/
theorem LibaioData.Holds.push (h : ld.Holds bios) (hroom : bios.length < ld.iodepth) (id : ℕ) :
    LibaioData.Holds { ld with
      iocbs := Function.update ld.iocbs ld.tail id
      tail := (ld.tail + 1) % ld.iodepth
      nrEnqueued := ld.nrEnqueued + 1 } (bios ++ [id]) := by
  have hpos : 0 < ld.iodepth := Nat.zero_lt_of_lt hroom
  have hlength : (bios ++ [id]).length = bios.length + 1 := List.length_append
  refine ⟨?_, hlength ▸ hroom, h.head_lt, ?_, ?_⟩
  · rw [hlength, ← h.nrEnqueued]
  · intro _
    change (ld.tail + 1) % ld.iodepth = (ld.head + (bios ++ [id]).length) % ld.iodepth
    rw [h.tail hpos, hlength, Nat.mod_add_mod, Nat.add_assoc]
  · change ringQueue (Function.update ld.iocbs ld.tail id) ld.iodepth ld.head _ = _
    rw [h.tail hpos, hlength, ringQueue_push hroom, h.bios]

/-- **The kernel takes iocbs** from the front of the ring, and from one end of it. -/
theorem LibaioData.Holds.submitted (h : ld.Holds bios) {n : ℕ}
    (hn : n ≤ min ld.nrEnqueued (ld.iodepth - ld.head)) :
    ∃ taken rest, bios = taken ++ rest ∧ (ld.submitted n).Holds rest ∧
      (ld.submitted n).kernel = ld.kernel ++ taken := by
  have hle : n ≤ bios.length := h.nrEnqueued ▸ le_trans hn (min_le_left _ _)
  have hfit : n ≤ ld.iodepth - ld.head := le_trans hn (min_le_right _ _)
  obtain ⟨m, hm⟩ := Nat.exists_eq_add_of_le hle
  have hsplit := h.bios
  rw [hm, ringQueue_add] at hsplit
  have htaken : (List.range n).map (fun k => ld.iocbs (ld.head + k))
      = ringQueue ld.iocbs ld.iodepth ld.head n := by
    refine List.map_congr_left ?_
    intro k hk
    have hlt := List.mem_range.mp hk
    rw [Nat.mod_eq_of_lt (by omega)]
  refine ⟨_, _, hsplit.symm, ⟨?_, ?_, fun hpos => Nat.mod_lt _ hpos, ?_, ?_⟩, ?_⟩
  · change ld.nrEnqueued - n = _
    rw [h.nrEnqueued, length_ringQueue]
    omega
  · rw [length_ringQueue]
    have := h.le
    change m ≤ ld.iodepth
    omega
  · intro hpos
    change ld.tail = ((ld.head + n) % ld.iodepth + _) % ld.iodepth
    rw [h.tail hpos, length_ringQueue, Nat.mod_add_mod, hm, Nat.add_assoc]
  · change ringQueue ld.iocbs ld.iodepth ((ld.head + n) % ld.iodepth) _ = _
    rw [length_ringQueue, ringQueue_mod]
  · change ld.kernel ++ _ = _
    rw [htaken]

/-- **`libaio_submit`** gives the kernel iocbs from the front of the ring, first to last, until
there are none left or a call of `io_submit` takes none. -/
theorem libaioSubmit_order (h : ld.Holds bios) (hs : libaioSubmit results ld = some (res, ld')) :
    ∃ taken rest, bios = taken ++ rest ∧ ld'.Holds rest ∧ ld'.kernel = ld.kernel ++ taken ∧
      ld'.iodepth = ld.iodepth ∧ (res = 0 ∧ rest = [] ∨ res ∈ results ∧ res ≤ 0) := by
  induction results generalizing ld bios with
  | nil =>
    rw [libaioSubmit] at hs
    split at hs
    · rename_i hzero
      cases hs
      have hnil : bios = [] := List.length_eq_zero_iff.mp (h.nrEnqueued ▸ hzero)
      exact ⟨[], bios, rfl, h, (List.append_nil _).symm, rfl, .inl ⟨rfl, hnil⟩⟩
    · cases hs
  | cons r results ih =>
    rw [libaioSubmit] at hs
    split at hs
    · cases hs
    · rename_i hcan
      split at hs
      · rename_i hpos
        have hn : r.toNat ≤ min ld.nrEnqueued (ld.iodepth - ld.head) := by omega
        obtain ⟨first, rest, rfl, hrest, hkernel⟩ := h.submitted hn
        obtain ⟨taken, last, rfl, hlast, htaken, hdepth, hend⟩ := ih hrest hs
        refine ⟨first ++ taken, last, (List.append_assoc _ _ _).symm, hlast, ?_, hdepth, ?_⟩
        · rw [htaken, hkernel, List.append_assoc]
        · exact hend.imp_right (And.imp_left (List.mem_cons_of_mem r))
      · rename_i hpos
        split at hs
        · cases hs
          exact ⟨[], bios, rfl, h, (List.append_nil _).symm, rfl,
            .inr ⟨List.mem_cons_self, Int.not_lt.mp hpos⟩⟩
        · cases hs

/-- **`libaio_submit`** loses nothing, and if each call of `io_submit` takes something it leaves
nothing behind. -/
theorem libaioSubmit_spec (h : ld.Holds bios) (hs : libaioSubmit results ld = some (res, ld')) :
    ∃ rest, ld'.Holds rest ∧ (rest ++ ld'.kernel).Perm (bios ++ ld.kernel) ∧
      ld'.iodepth = ld.iodepth ∧ ((∀ r ∈ results, 0 < r) → res = 0 ∧ ld'.nrEnqueued = 0) := by
  obtain ⟨taken, rest, rfl, hrest, hkernel, hdepth, hend⟩ := libaioSubmit_order h hs
  refine ⟨rest, hrest, ?_, hdepth, ?_⟩
  · rw [hkernel]
    refine List.perm_iff_count.mpr ?_
    intro id
    simp only [List.count_append]
    omega
  · intro hall
    rcases hend with ⟨hres, hnil⟩ | ⟨hmem, hle⟩
    · exact ⟨hres, by rw [hrest.nrEnqueued, hnil, List.length_nil]⟩
    · exact absurd (hall res hmem) (Int.not_lt.mpr hle)

/-- It can leave nothing behind. -/
theorem exists_libaioSubmit (h : ld.Holds bios) :
    ∃ results ld', libaioSubmit results ld = some (0, ld') ∧ ∀ r ∈ results, 0 < r := by
  induction hn : ld.nrEnqueued using Nat.strong_induction_on generalizing ld bios with
  | _ n ih =>
    subst hn
    rcases Nat.eq_zero_or_pos ld.nrEnqueued with hzero | hpos
    · exact ⟨[], ld, by rw [libaioSubmit, if_pos hzero], fun r hr => absurd hr List.not_mem_nil⟩
    · have hdepth : 0 < ld.iodepth := by
        have := h.le
        have := h.nrEnqueued
        omega
      have hhead := h.head_lt hdepth
      obtain ⟨taken, rest, -, hrest, -⟩ := h.submitted le_rfl
      have hless : (ld.submitted (min ld.nrEnqueued (ld.iodepth - ld.head))).nrEnqueued
          < ld.nrEnqueued := by
        change ld.nrEnqueued - min ld.nrEnqueued (ld.iodepth - ld.head) < ld.nrEnqueued
        omega
      obtain ⟨results, ld', hs, hall⟩ := ih _ hless hrest rfl
      refine ⟨(min ld.nrEnqueued (ld.iodepth - ld.head) : ℕ) :: results, ld', ?_, ?_⟩
      · rw [libaioSubmit]
        rw [if_neg (by omega), if_pos (by omega), Int.toNat_natCast]
        exact hs
      · intro r hr
        rcases List.mem_cons.mp hr with rfl | hr
        · omega
        · exact hall r hr

end Libaio

/-! ## What an engine holds -/

namespace Engine

/-- The engine has `bios`, and will end them when it is polled. -/
def Holds (iodepth : ℕ) : Engine → List ℕ → Prop
  | .null queue, bios => queue.size = iodepth + 1 ∧ ∃ l, queue.Holds l ∧ l.Perm bios
  | .libaio ld, bios => ld.iodepth = iodepth ∧ ∃ l, ld.Holds l ∧ (l ++ ld.kernel).Perm bios
  | .spdk idata, bios => idata.qpair.Perm bios

variable {iodepth : ℕ} {engine engine' : Engine} {bios : List ℕ} {opcode : BioOpcode} {id : ℕ}
  {answers : EngineAnswers} {results : List Int} {res : Int} {oldKernel : Bool} {min max : ℕ}
  {pc pc' : PollPc}

theorem Holds.perm (h : engine.Holds iodepth bios) {bios' : List ℕ} (hp : bios.Perm bios') :
    engine.Holds iodepth bios' := by
  cases engine with
  | null queue =>
    obtain ⟨hsize, l, hl, hperm⟩ := h
    exact ⟨hsize, l, hl, hperm.trans hp⟩
  | libaio ld =>
    obtain ⟨hdepth, l, hl, hperm⟩ := h
    exact ⟨hdepth, l, hl, hperm.trans hp⟩
  | spdk idata => exact List.Perm.trans h hp

theorem init_holds (iodepth : ℕ) (kind : EngineKind) : (init iodepth kind).Holds iodepth [] := by
  cases kind with
  | null => exact ⟨rfl, [], nullInit_holds iodepth, .nil⟩
  | libaio => exact ⟨rfl, [], libaioInit_holds iodepth, .nil⟩
  | spdk => exact List.Perm.nil

theorem init_kind (iodepth : ℕ) (kind : EngineKind) : (init iodepth kind).kind = kind := by
  cases kind <;> rfl

/-- **An engine takes a bio** that it serves and has room for. It has the bio then, unless it is
over at once. -/
theorem enqueue_spec (h : engine.Holds iodepth bios) (hroom : bios.length < iodepth)
    (hserves : engine.kind.serves opcode = true) (hsucc : engine.kind.Succeeds opcode answers)
    (he : engine.enqueue oldKernel opcode id answers = some (res, engine')) :
    res = 0 ∧ engine'.Holds iodepth (if engine.quirk opcode then bios else id :: bios) ∧
      engine'.kind = engine.kind := by
  cases engine with
  | null queue =>
    obtain ⟨hsize, l, hl, hperm⟩ := h
    have hlength := hperm.length_eq
    cases he' : nullEnqueue queue id with
    | mk res queue' =>
      obtain ⟨rfl, hholds, hsize'⟩ := nullEnqueue_spec hl (by omega) he'
      simp only [enqueue, he', Option.some.injEq, Prod.mk.injEq] at he
      obtain ⟨rfl, rfl⟩ := he
      refine ⟨rfl, ⟨hsize'.trans hsize, _, hholds, ?_⟩, rfl⟩
      exact (List.perm_append_singleton id l).trans (hperm.cons id)
  | libaio ld =>
    obtain ⟨hdepth, l, hl, hperm⟩ := h
    have hlength := hperm.length_eq
    rw [List.length_append] at hlength
    have hnr := hl.nrEnqueued
    simp only [enqueue, libaioEnqueue, if_neg (show ¬ ld.iodepth ≤ ld.nrEnqueued by omega)] at he
    have hpush : Holds iodepth (.libaio { ld with
        iocbs := Function.update ld.iocbs ld.tail id
        tail := (ld.tail + 1) % ld.iodepth
        nrEnqueued := ld.nrEnqueued + 1 }) (id :: bios) := by
      refine ⟨hdepth, _, hl.push (by omega) id, List.Perm.trans ?_ (hperm.cons id)⟩
      rw [List.append_assoc]
      exact List.perm_middle
    cases opcode with
    | read | write =>
      simp only [Option.bind_eq_bind, Option.bind_some, Option.pure_def, Option.some.injEq,
        Prod.mk.injEq] at he
      obtain ⟨rfl, rfl⟩ := he
      exact ⟨rfl, hpush, rfl⟩
    | flush =>
      simp only [Option.bind_eq_bind, Option.pure_def, Option.bind_eq_some_iff,
        Option.some.injEq, Prod.mk.injEq] at he
      obtain ⟨-, ⟨⟨r, ld'⟩, hsubmit, rfl⟩, hres, rfl⟩ := he
      obtain ⟨rest, hrest, hkept, hdepth', -⟩ := libaioSubmit_spec hl hsubmit
      exact ⟨hres.symm.trans (hsucc rfl), ⟨hdepth'.trans hdepth, rest, hrest, hkept.trans hperm⟩,
        rfl⟩
    | _ => cases hserves
  | spdk idata =>
    have hperm : idata.qpair.Perm bios := h
    have hret : answers.ret = 0 := hsucc
    have hpush : Holds iodepth (.spdk { idata with qpair := idata.qpair ++ [id] }) (id :: bios) :=
      (List.perm_append_singleton id _).trans (hperm.cons id)
    cases opcode with
    | identify | fwDownload => cases hserves
    | _ =>
      simp only [enqueue, spdkioEnqueue, hret, if_true, Option.some.injEq, Prod.mk.injEq] at he
      obtain ⟨rfl, rfl⟩ := he
      exact ⟨rfl, hpush, rfl⟩

/-- **A submission** keeps what the engine has. -/
theorem submit_spec (h : engine.Holds iodepth bios)
    (hs : engine.submit results = some (res, engine')) :
    engine'.Holds iodepth bios ∧ engine'.kind = engine.kind ∧
      ((∀ r ∈ results, 0 < r) → engine'.Flushed) := by
  cases engine with
  | null queue | spdk idata =>
    cases hs
    exact ⟨h, rfl, fun _ => trivial⟩
  | libaio ld =>
    obtain ⟨hdepth, l, hl, hperm⟩ := h
    simp only [submit, Option.bind_eq_bind, Option.pure_def, Option.bind_eq_some_iff,
      Option.some.injEq, Prod.mk.injEq] at hs
    obtain ⟨⟨r, ld'⟩, hsubmit, -, rfl⟩ := hs
    obtain ⟨rest, hrest, hkept, hdepth', hall⟩ := libaioSubmit_spec hl hsubmit
    exact ⟨⟨hdepth'.trans hdepth, rest, hrest, hkept.trans hperm⟩, rfl, fun hr => (hall hr).2⟩

theorem exists_submit (h : engine.Holds iodepth bios) :
    ∃ results engine', engine.submit results = some (0, engine') ∧ ∀ r ∈ results, 0 < r := by
  cases engine with
  | null queue | spdk idata => exact ⟨[], _, rfl, fun r hr => absurd hr List.not_mem_nil⟩
  | libaio ld =>
    obtain ⟨-, l, hl, -⟩ := h
    obtain ⟨results, ld', hs, hall⟩ := exists_libaioSubmit hl
    refine ⟨results, .libaio ld', ?_, hall⟩
    rw [submit, hs]
    rfl

/-- **A poll** takes some of the bios from the engine. -/
theorem Polls.spec (hp : Polls min max engine pc engine') (h : engine.Holds iodepth bios) :
    ∃ rest, engine'.Holds iodepth rest ∧ (pc.ids ++ rest).Perm bios ∧
      engine'.kind = engine.kind ∧ (engine.Flushed → engine'.Flushed) := by
  cases hp with
  | null queue => exact ⟨bios, h, .refl _, rfl, fun hf => hf⟩
  | libaio ld events rest hget =>
    obtain ⟨hdepth, l, hl, hperm⟩ := h
    have hl' : LibaioData.Holds { ld with kernel := rest } l :=
      ⟨hl.nrEnqueued, hl.le, hl.head_lt, hl.tail, hl.bios⟩
    refine ⟨l ++ rest, ⟨hdepth, l, hl', .refl _⟩, List.Perm.trans ?_ hperm, rfl, fun hf => hf⟩
    have hevents : (events ++ rest).Perm ld.kernel := by
      simp only [IoGetevents] at hget
      split at hget
      · rw [hget.1, hget.2]
        exact .refl _
      · exact hget.2.2
    change (events ++ (l ++ rest)).Perm _
    refine List.Perm.trans ?_ (hevents.append_left l)
    rw [← List.append_assoc, ← List.append_assoc]
    exact List.perm_append_comm.append_right rest
  | spdk idata events rest hcalls =>
    exact ⟨rest, .refl _, hcalls.perm.trans h, rfl, fun hf => hf⟩

/-- **A bio that a poll ends** is one of those that it took, or that the engine has. -/
theorem next_spec (h : engine.Holds iodepth bios)
    (hn : engine.next max pc = some (id, engine', pc')) :
    ∃ rest, engine'.Holds iodepth rest ∧ (pc.ids ++ bios).Perm (id :: (pc'.ids ++ rest)) ∧
      engine'.kind = engine.kind ∧ (engine.Flushed → engine'.Flushed) := by
  cases pc with
  | events ids =>
    cases ids with
    | nil => cases engine <;> cases hn
    | cons id' ids =>
      have hsame : some (id', engine, PollPc.events ids) = some (id, engine', pc') := by
        cases engine <;> exact hn
      cases hsame
      exact ⟨bios, h, .refl _, rfl, fun hf => hf⟩
  | null nrCompletion =>
    cases engine with
    | libaio ld | spdk idata => cases hn
    | null queue =>
      obtain ⟨hsize, l, hl, hperm⟩ := h
      rw [next] at hn
      split at hn
      · cases hn
      · rename_i hgo
        cases hn
        obtain ⟨rest, hrest, hholds⟩ := hl.next fun heq => hgo (.inl heq)
        refine ⟨rest, ⟨hsize, rest, hholds, .refl _⟩, ?_, rfl, fun _ => trivial⟩
        exact hperm.symm.trans (hrest ▸ .refl _)

/-- A poll that returns has ended all that it took. -/
theorem ids_of_next_eq_none (hn : engine.next max pc = none) : pc.ids = [] := by
  cases pc with
  | null nrCompletion => rfl
  | events ids =>
    cases ids with
    | nil => rfl
    | cons id ids => cases engine <;> cases hn

/-- **A poll can get something**, once everything is submitted. -/
theorem exists_polls (h : engine.Holds iodepth bios) (hf : engine.Flushed) (hg : engine.kind.Gets max)
    (hne : bios ≠ []) : ∃ pc engine', Polls 1 max engine pc engine' := by
  cases engine with
  | null queue => exact ⟨_, _, .null queue⟩
  | libaio ld =>
    obtain ⟨-, l, hl, hperm⟩ := h
    have hring : l = [] := List.length_eq_zero_iff.mp (hl.nrEnqueued.symm.trans hf)
    rw [hring, List.nil_append] at hperm
    cases hkernel : ld.kernel with
    | nil =>
      rw [hkernel] at hperm
      exact absurd hperm.symm.eq_nil hne
    | cons id rest =>
      have hmax : 1 ≤ max := Nat.one_le_iff_ne_zero.mpr hg
      refine ⟨_, _, .libaio ld [id] rest ?_⟩
      rw [IoGetevents, if_neg (Nat.not_lt.mpr hmax), hkernel]
      exact ⟨le_rfl, hmax, .refl _⟩
  | spdk idata =>
    have hperm : idata.qpair.Perm bios := h
    cases hqpair : idata.qpair with
    | nil =>
      rw [hqpair] at hperm
      exact absurd hperm.symm.eq_nil hne
    | cons id rest =>
      refine ⟨_, _, .spdk idata [id] rest ⟨?_, ?_, fun _ => List.cons_ne_nil _ _⟩⟩
      · rw [hqpair]
        exact .refl _
      · intro hmax
        exact Nat.one_le_iff_ne_zero.mpr hmax

/-- **A poll gets something**, once everything is submitted. -/
theorem Polls.progress (hp : Polls 1 max engine pc engine') (h : engine.Holds iodepth bios)
    (hg : engine.kind.Gets max) (hne : bios ≠ []) : (engine'.next max pc).isSome = true := by
  have hevents : ∀ ids : List ℕ, ids ≠ [] → (engine'.next max (.events ids)).isSome = true := by
    intro ids hids
    cases ids with
    | nil => exact absurd rfl hids
    | cons id ids => cases engine' <;> rfl
  cases hp with
  | null queue =>
    obtain ⟨-, l, hl, hperm⟩ := h
    have hgo : queue.head ≠ queue.tail := by
      intro heq
      rw [hl.eq_nil_iff.mp heq] at hperm
      exact hne hperm.symm.eq_nil
    rw [next, if_neg (by simp [hgo])]
    rfl
  | libaio ld events rest hget =>
    refine hevents events ?_
    intro hnil
    rw [IoGetevents, if_neg (Nat.not_lt.mpr (Nat.one_le_iff_ne_zero.mpr hg)), hnil] at hget
    exact absurd hget.1 (by simp)
  | spdk idata events rest hcalls =>
    refine hevents events (hcalls.progress ?_)
    intro hnil
    have hperm : idata.qpair.Perm bios := h
    rw [hnil] at hperm
    exact hne hperm.symm.eq_nil

end Engine

end ChamberSpo

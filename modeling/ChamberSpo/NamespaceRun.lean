import ChamberSpo.Ownership
import ChamberSpo.Submit
import ChamberSpo.Transition

/-!
# Jobs that share a namespace

Any number of jobs issue bios against one verifier. A bio is generated, executed by the device
at some moment, and completed; `iover_submit` unlocks its range first and commits or verifies
after that, and the two are separate steps here.

* `Ns.Step` — the interleaving. The slots `ι` are the bios of all the pools.
* The ghost state says what the device has done: `clock` counts the commands it executed, `last`
  is the descriptor each LBA should have, `pending` the commands executed on an LBA whose commit
  is still to come, `committedAt` the time of the last command committed on it.
* `Ns.Inv` — the lock separates the bios that hold it, and committing what is pending brings
  the descriptors to `last`.
* `Ns.Orderly` — the steps that stay clear of the gap between unlock and commit.

`Ns.Inv.step` is the step lemma, and the results about whole runs follow from it.
-/

namespace ChamberSpo

open Bitmap

/-- How far a bio has got. -/
inductive BioPhase where
  /-- it is with the device -/
  | issued
  /-- the device executed it as its command number `stamp` -/
  | executed (stamp : ℕ)
  /-- it is half completed: its range is unlocked, its result not yet looked at -/
  | unlocked (stamp : ℕ)
  deriving DecidableEq

/-- When the device executed a bio. -/
def BioPhase.stamp : BioPhase → Option ℕ
  | .issued => none
  | .executed t | .unlocked t => some t

/-- A bio in flight, and the parameters of its job. -/
structure LiveBio where
  params : JobParams
  bio : Bio
  phase : BioPhase

/-- The bio changes the content of its LBAs. -/
def Bio.changes (bio : Bio) : Bool :=
  match bio.opcode with
  | .write | .deallocate | .writeZeroes | .writeUncorrect => bio.result == 0
  | .read | .flush | .identify | .fwDownload => false

theorem changes_result {bio : Bio} (h : bio.changes) : bio.result = 0 := by
  simp only [Bio.changes] at h
  split at h <;> simp_all

/-- A command that succeeds and changes nothing leaves the descriptors as they are. -/
theorem descAfter_of_not_changes {iover : Iover} {bio : Bio} {x : ℕ} {d : BlockDesc}
    (hzero : bio.result = 0) (h : ¬ bio.changes) : descAfter iover bio x d = d := by
  simp only [Bio.changes] at h
  rw [descAfter]
  cases hop : bio.opcode <;> simp [hop, hzero] at h ⊢

/-- The lock bits a bio holds: from its generation to its unlock. -/
def LiveBio.own (l : LiveBio) : Set ℕ :=
  match l.phase with
  | .issued | .executed _ =>
    if takesLock l.params l.bio then lockBits l.bio.slba l.bio.nlbs else ∅
  | .unlocked _ => ∅

/-- A command the device executed, whose commit is still to come. -/
structure Pending (ι : Type*) where
  slot : ι
  stamp : ℕ
  bio : Bio

/-- The verifier, the bios in flight, and what the device has done. -/
structure Ns (ι : Type*) where
  iover : Iover
  live : ι → Option LiveBio
  /-- the number of the next command the device executes -/
  clock : ℕ
  /-- the descriptor after the last command executed on an LBA -/
  last : ℕ → BlockDesc
  /-- the commands executed on an LBA and not yet committed, oldest first -/
  pending : ℕ → List (Pending ι)
  /-- the number of the last command committed on an LBA -/
  committedAt : ℕ → ℕ

/-- What a device does to a bio: it sets the result, and fills the buffers of a read or an
identify. -/
structure Bio.Executes (bio bio' : Bio) : Prop where
  opcode : bio'.opcode = bio.opcode
  slba : bio'.slba = bio.slba
  nlbs : bio'.nlbs = bio.nlbs
  pract : bio'.pract = bio.pract
  histIdx : bio'.histIdx = bio.histIdx
  expectedResult : bio'.expectedResult = bio.expectedResult
  blockDesc : bio'.blockDesc = bio.blockDesc
  data : bio.opcode ≠ .read → bio.opcode ≠ .identify → bio'.data = bio.data

/-- Two bios that are the same command with the same buffers. What `generate_bio` fills in after
`iover_generate_data` is left out: the verifier does not look at it before the bio completes. -/
structure Bio.SameIo (bio bio' : Bio) : Prop where
  opcode : bio'.opcode = bio.opcode
  slba : bio'.slba = bio.slba
  nlbs : bio'.nlbs = bio.nlbs
  pract : bio'.pract = bio.pract
  data : bio'.data = bio.data
  metaBuf : bio'.metaBuf = bio.metaBuf
  blockDesc : bio'.blockDesc = bio.blockDesc
  histIdx : bio'.histIdx = bio.histIdx

theorem Bio.SameIo.refl (bio : Bio) : bio.SameIo bio := ⟨rfl, rfl, rfl, rfl, rfl, rfl, rfl, rfl⟩

theorem Bio.SameIo.trans {a b c : Bio} (h : a.SameIo b) (h' : b.SameIo c) : a.SameIo c :=
  ⟨h'.opcode.trans h.opcode, h'.slba.trans h.slba, h'.nlbs.trans h.nlbs, h'.pract.trans h.pract,
    h'.data.trans h.data, h'.metaBuf.trans h.metaBuf, h'.blockDesc.trans h.blockDesc,
    h'.histIdx.trans h.histIdx⟩

/-- A bio comes out of `generate_bio`: it went through `iover_generate_data`, or it is a flush,
which does not. -/
def Generates (iover : Iover) (params : JobParams) (iover' : Iover) (bio : Bio) : Prop :=
  (∃ before escape filled, before.nlbs < 2 ^ 32 ∧ before.opcode ≠ .flush ∧
      ioverGenerateData iover params before escape = (0, iover', filled) ∧ filled.SameIo bio) ∨
    (bio.opcode = .flush ∧ bio.nlbs = 0 ∧ iover' = iover)

/-- Which slot moves, and how. -/
inductive NsLabel (ι : Type*) where
  /-- a job generates a bio, and the engine takes it -/
  | issue (i : ι) (params : JobParams) (bio : Bio)
  /-- the history ring gets the records of a bio -/
  | backup (i : ι)
  /-- `spor_level` 3: the LBAs of a write are put in state unwritten while it is in flight -/
  | demote (i : ι)
  /-- the device executes the command -/
  | execute (i : ι) (bio : Bio)
  /-- the command is lost before the device executes it -/
  | drop (i : ι)
  /-- `iover_submit` runs `unlock_lbas` -/
  | unlock (i : ι)
  /-- `iover_submit` goes on to its end, and the bio goes back to its pool -/
  | finish (i : ι)
  /-- an opcode beyond identify is completed without `iover_submit` -/
  | retire (i : ι)

/-- A bio that is no flush has been locked, if it takes the lock, and filled. -/
theorem Generates.filled {iover iover' : Iover} {params : JobParams} {bio : Bio}
    (h : Generates iover params iover' bio) (hop : bio.opcode ≠ .flush) :
    ∃ before escape lbaLock', before.nlbs < 2 ^ 32 ∧ before.opcode = bio.opcode ∧
      (fillData { iover with lbaLock := lbaLock' } params before escape).2.SameIo bio ∧
      iover' = (if bio.opcode = .write ∧ params.compare then
        { iover with lbaLock := lbaLock', timestamp := iover.timestamp + 1 }
        else { iover with lbaLock := lbaLock' }) ∧
      if takesLock params bio then
        Disjoint (lockBits bio.slba bio.nlbs) (bits iover.lbaLock)
          ∧ bits lbaLock' = bits iover.lbaLock ∪ lockBits bio.slba bio.nlbs
      else lbaLock' = iover.lbaLock := by
  rcases h with ⟨before, escape, filled, hn, -, hgen, hio⟩ | ⟨hflush, -, -⟩
  · obtain ⟨lbaLock', hfill, hlock⟩ := ioverGenerateData_ok hn hgen
    have hsame := ioverGenerateData_sameCommand hn hgen
    have hop' : before.opcode = bio.opcode := (hio.opcode.trans hsame.opcode).symm
    refine ⟨before, escape, lbaLock', hn, hop', hfill ▸ hio, ?_, ?_⟩
    · rw [show iover' = (iover', filled).1 from rfl, hfill, fillData_fst, hop']
    · rw [takesLock, hio.slba, hsame.slba, hio.nlbs, hsame.nlbs, ← hop', ← takesLock]
      exact hlock
  · exact absurd hflush hop

/-- A flush has no LBAs, and leaves the verifier alone. -/
theorem Generates.flush {iover iover' : Iover} {params : JobParams} {bio : Bio}
    (h : Generates iover params iover' bio) (hop : bio.opcode = .flush) :
    bio.nlbs = 0 ∧ iover' = iover := by
  rcases h with ⟨before, escape, filled, hn, hbefore, hgen, hio⟩ | ⟨-, hnlbs, hsame⟩
  · have hsame := ioverGenerateData_sameCommand hn hgen
    exact absurd ((hio.opcode.trans hsame.opcode).symm.trans hop) hbefore
  · exact ⟨hnlbs, hsame⟩

/-- **What generating a bio does to the verifier**: the bits the bio holds are added to the lock,
and no descriptor changes. -/
theorem Generates.spec {iover iover' : Iover} {params : JobParams} {bio : Bio}
    (h : Generates iover params iover' bio) :
    bio.nlbs < 2 ^ 32 ∧ iover.SameFormat iover' ∧ iover'.blockDesc = iover.blockDesc ∧
      bits iover.lbaLock = bits iover'.lbaLock \ LiveBio.own ⟨params, bio, .issued⟩ ∧
      LiveBio.own ⟨params, bio, .issued⟩ ⊆ bits iover'.lbaLock := by
  by_cases hop : bio.opcode = .flush
  · obtain ⟨hnlbs, rfl⟩ := h.flush hop
    have hown : LiveBio.own ⟨params, bio, .issued⟩ = ∅ := by
      rw [LiveBio.own, hnlbs, lockBits_zero, ite_self]
    rw [hown, Set.sdiff_empty]
    exact ⟨by omega, ⟨rfl, rfl⟩, rfl, rfl, Set.empty_subset _⟩
  · obtain ⟨before, escape, lbaLock', hn, -, hio, hiover, hlock⟩ := h.filled hop
    have hfields : iover.SameFormat iover' ∧ iover'.blockDesc = iover.blockDesc ∧
        iover'.lbaLock = lbaLock' := by
      rw [hiover]
      split <;> exact ⟨⟨rfl, rfl⟩, rfl, rfl⟩
    obtain ⟨hformat, hdesc, hwords⟩ := hfields
    refine ⟨?_, hformat, hdesc, ?_⟩
    · rw [hio.nlbs, fillData_sameCommand.nlbs]
      exact hn
    · rw [LiveBio.own, hwords]
      split at hlock
      · rename_i htrue
        obtain ⟨hfree, hbits⟩ := hlock
        rw [hbits, if_pos htrue]
        exact ⟨(Set.union_sdiff_cancel_right
          fun x hx => Set.disjoint_left.mp hfree hx.2 hx.1).symm, Set.subset_union_right⟩
      · rename_i hfalse
        rw [hlock, if_neg hfalse, Set.sdiff_empty]
        exact ⟨rfl, Set.empty_subset _⟩

/-- A bio that takes the lock is generated when its range is free. -/
theorem generates_of_tryLock {iover iover' : Iover} {params : JobParams} {before bio : Bio}
    {escape : ℕ → Bool} (hn : before.nlbs < 2 ^ 32) (hop : before.opcode ≠ .flush)
    (htake : takesLock params before = true)
    (hfree : (tryLockLbas iover.lbaLock before.slba before.nlbs).1 = 0)
    (hfill : fillData { iover with
        lbaLock := (tryLockLbas iover.lbaLock before.slba before.nlbs).2 } params before escape
      = (iover', bio)) : Generates iover params iover' bio := by
  refine .inl ⟨before, escape, bio, hn, hop, ?_, .refl _⟩
  simp only [ioverGenerateData, htake, if_true, hfree, ne_eq, not_true_eq_false, if_false, hfill]

/-- A bio without data to write is generated as it is. -/
theorem generates_of_free {iover : Iover} (bio : Bio) (hn : bio.nlbs < 2 ^ 32)
    (hflush : bio.opcode ≠ .flush) (hwrite : bio.opcode ≠ .write)
    (hlock : bio.opcode.num < BioOpcode.identify.num) (hpi : iover.ns.piType = 0)
    (hfree : (tryLockLbas iover.lbaLock bio.slba bio.nlbs).1 = 0) :
    Generates iover .plain
      { iover with lbaLock := (tryLockLbas iover.lbaLock bio.slba bio.nlbs).2 } bio := by
  have htake : takesLock .plain bio = true := decide_eq_true hlock
  have hfill : fillData { iover with
      lbaLock := (tryLockLbas iover.lbaLock bio.slba bio.nlbs).2 } .plain bio (fun _ => false)
      = ({ iover with lbaLock := (tryLockLbas iover.lbaLock bio.slba bio.nlbs).2 }, bio) := by
    rw [fillData, setTags, if_neg fun h => h.1 hpi]
    cases hop : bio.opcode with
    | write => exact absurd hop hwrite
    | read => simp only [JobParams.plain, Bool.false_eq_true, and_false, if_false]
    | _ => rfl
  exact generates_of_tryLock hn hflush htake hfree hfill

/-- A write that is to be compared has a fresh timestamp. -/
theorem Generates.timestamp {iover iover' : Iover} {params : JobParams} {bio : Bio}
    (h : Generates iover params iover' bio) (hc : params.compare = true) :
    iover'.timestamp = if bio.opcode = .write then iover.timestamp + 1 else iover.timestamp := by
  by_cases hop : bio.opcode = .flush
  · rw [(h.flush hop).2, if_neg (by rw [hop]; decide)]
  · obtain ⟨before, escape, lbaLock', -, -, -, hiover, -⟩ := h.filled hop
    rw [hiover, hc]
    by_cases hwrite : bio.opcode = .write
    · rw [if_pos ⟨hwrite, rfl⟩, if_pos hwrite]
    · rw [if_neg fun h => hwrite h.1, if_neg hwrite]

/-- Every block of a write that is to be compared is the one that is written for its LBA. -/
theorem Generates.written {iover iover' : Iover} {params : JobParams} {bio : Bio}
    (h : Generates iover params iover' bio) (hop : bio.opcode = .write)
    (hc : params.compare = true) : ∀ o < bio.nlbs, ∀ i < iover'.ns.dataSize,
      blockData iover' bio o i = writtenBlock iover' (bio.slba + o) i := by
  obtain ⟨before, escape, lbaLock', -, hbefore, hio, hiover, -⟩ := h.filled (by rw [hop]; decide)
  rw [if_pos ⟨hop, hc⟩] at hiover
  rw [hiover]
  intro o ho i hi
  have hsame : before.SameCommand
      (fillData { iover with lbaLock := lbaLock' } params before escape).2 := fillData_sameCommand
  have hblock : blockData { iover with lbaLock := lbaLock' }
      (fillData { iover with lbaLock := lbaLock' } params before escape).2 o i
      = writtenBlock { iover with lbaLock := lbaLock', timestamp := iover.timestamp + 1 }
        (before.slba + o) i :=
    blockData_fillData (hbefore.trans hop) hc (by rw [← hsame.nlbs, ← hio.nlbs]; exact ho) hi
  rw [hio.slba, hsame.slba, ← hblock, blockData, blockData, getBlockSize, getBlockSize, hio.pract,
    hio.data]

/-- A command that only fails or succeeds. -/
theorem Bio.Executes.refl (bio : Bio) : bio.Executes bio :=
  ⟨rfl, rfl, rfl, rfl, rfl, rfl, rfl, fun _ _ => rfl⟩

/-- Executing a command does not change what it locks. -/
theorem Bio.Executes.own {bio bio' : Bio} (h : bio.Executes bio') (params : JobParams) (t : ℕ) :
    LiveBio.own ⟨params, bio', .executed t⟩ = LiveBio.own ⟨params, bio, .issued⟩ := by
  rw [LiveBio.own, LiveBio.own, takesLock, takesLock, h.opcode, h.slba, h.nlbs]

namespace Ns

variable {ι : Type*} [DecidableEq ι] {s s' : Ns ι} {i j : ι} {l : LiveBio} {x : ℕ}

/-- Slot `i` goes on to `l`, and the verifier to `iover`. -/
def put (s : Ns ι) (i : ι) (l : Option LiveBio) (iover : Iover) : Ns ι :=
  { s with iover := iover, live := Function.update s.live i l }

/-- The device executes `bio`, the command of slot `i`. -/
def execute (s : Ns ι) (i : ι) (params : JobParams) (bio : Bio) : Ns ι :=
  { s with
    live := Function.update s.live i (some ⟨params, bio, .executed s.clock⟩)
    clock := s.clock + 1
    last := fun x =>
      if bio.changes ∧ x ∈ bio.range then descAfter s.iover bio x (s.last x) else s.last x
    pending := fun x =>
      if bio.changes ∧ x ∈ bio.range then s.pending x ++ [⟨i, s.clock, bio⟩] else s.pending x }

/-- Slot `i` ends, its command of number `t` committed. -/
def finish (s : Ns ι) (i : ι) (bio : Bio) (t : ℕ) (iover : Iover) : Ns ι :=
  { s with
    iover := iover
    live := Function.update s.live i none
    pending := fun x => (s.pending x).filter fun e => e.slot ≠ i
    committedAt := fun x => if bio.changes ∧ x ∈ bio.range then t else s.committedAt x }

/-- The steps of the system. -/
inductive Step (s : Ns ι) : NsLabel ι → Ns ι → Prop
  | issue (i : ι) (params : JobParams) (bio : Bio) (iover : Iover) :
    s.live i = none → params.lbaOverlap = false → Generates s.iover params iover bio →
    Step s (.issue i params bio) (s.put i (some ⟨params, bio, .issued⟩) iover)
  | backup (i : ι) (l : LiveBio) (iover : Iover) :
    s.live i = some l → backupHistState s.iover l.params l.bio = some iover →
    Step s (.backup i) (s.put i (some l) iover)
  | demote (i : ι) (l : LiveBio) (iover : Iover) :
    s.live i = some l → l.bio.opcode = .write →
    commitBlockStateUnwritten s.iover l.params l.bio = some iover →
    Step s (.demote i) (s.put i (some l) iover)
  | execute (i : ι) (params : JobParams) (bio bio' : Bio) :
    s.live i = some ⟨params, bio, .issued⟩ → bio.Executes bio' →
    Step s (.execute i bio') (s.execute i params bio')
  | drop (i : ι) (params : JobParams) (bio : Bio) :
    s.live i = some ⟨params, bio, .issued⟩ → Step s (.drop i) (s.put i none s.iover)
  | unlock (i : ι) (params : JobParams) (bio : Bio) (t : ℕ) :
    s.live i = some ⟨params, bio, .executed t⟩ → bio.opcode ≠ .fwDownload →
    Step s (.unlock i)
      (s.put i (some ⟨params, bio, .unlocked t⟩) (submitUnlock s.iover params bio))
  | finish (i : ι) (params : JobParams) (bio : Bio) (t : ℕ) (job : JobView) (r : SubmitResult) :
    s.live i = some ⟨params, bio, .unlocked t⟩ →
    submitTail s.iover params job bio = some r → r.res = 0 →
    Step s (.finish i) (s.finish i bio t r.iover)
  | retire (i : ι) (params : JobParams) (bio : Bio) (t : ℕ) :
    s.live i = some ⟨params, bio, .executed t⟩ → bio.opcode = .fwDownload →
    Step s (.retire i) (s.put i none s.iover)

/-- A verifier that nobody uses yet. -/
def init (iover : Iover) : Ns ι where
  iover := { iover with lbaLock := fun _ => 0 }
  live := fun _ => none
  clock := 1
  last := iover.blockDesc
  pending := fun _ => []
  committedAt := fun _ => 0

/-- The lock bits a slot holds. -/
def own (s : Ns ι) (i : ι) : Set ℕ :=
  match s.live i with
  | some l => l.own
  | none => ∅

/-- What holds of the system in every run that stays orderly. -/
structure Inv (s : Ns ι) : Prop where
  /-- the lock separates the bios that hold it -/
  owns : Owns (bits s.iover.lbaLock) s.own
  noOverlap : ∀ i l, s.live i = some l → l.params.lbaOverlap = false
  nlbs_lt : ∀ i l, s.live i = some l → l.bio.nlbs < 2 ^ 32
  stamp_lt : ∀ i l t, s.live i = some l → l.phase.stamp = some t → t < s.clock
  stamp_inj : ∀ i j li lj t, s.live i = some li → s.live j = some lj →
    li.phase.stamp = some t → lj.phase.stamp = some t → i = j
  /-- of two commands on an LBA, the one the device executed first no longer holds the lock -/
  order : ∀ i j li lj ti tj x, s.live i = some li → s.live j = some lj →
    li.phase.stamp = some ti → lj.phase.stamp = some tj → ti < tj →
    x ∈ li.bio.range → x ∈ lj.bio.range → takesLock li.params li.bio →
    takesLock lj.params lj.bio → li.phase = .unlocked ti
  /-- what is pending is what was executed and not committed -/
  pending_iff : ∀ x e, e ∈ s.pending x ↔ ∃ l, s.live e.slot = some l ∧ l.bio = e.bio ∧
    l.phase.stamp = some e.stamp ∧ e.bio.changes ∧ x ∈ e.bio.range
  /-- in the order of the device -/
  sorted : ∀ x, (s.pending x).Pairwise fun e e' => e.stamp < e'.stamp
  /-- committing what is pending brings the descriptor up to date -/
  fold : ∀ x, (s.pending x).foldl (fun d e => descAfter s.iover e.bio x d) (s.iover.blockDesc x)
    = s.last x
  compare : ∀ i l t, s.live i = some l → l.phase.stamp = some t → l.bio.changes →
    l.params.compare = true
  committedAt_lt : ∀ x, s.committedAt x < s.clock
  /-- no command was committed on an LBA after a read of it was executed -/
  reads : ∀ i l t x, s.live i = some l → l.phase.stamp = some t → l.bio.opcode = .read →
    l.bio.result = 0 → x ∈ l.bio.range → s.committedAt x < t

/-- The steps that stay clear of the gap between unlock and commit:

* a command that changes its LBAs belongs to a job that compares;
* no write is demoted to unwritten while it is in flight;
* a completion of a bio that took no lock clears no bit that is held;
* a read of the history is not used to fix descriptors;
* a command that changed its LBAs is committed only when no command that the device executed
  before it on one of them waits, half completed, to be committed or to be verified. -/
def Orderly (s : Ns ι) : NsLabel ι → Prop
  | .issue .. | .backup _ | .drop _ | .retire _ => True
  | .demote _ => False
  | .execute i bio => bio.changes → ∀ l, s.live i = some l → l.params.compare = true
  | .unlock i => ∀ l, s.live i = some l → takesLock l.params l.bio = false →
    ∀ j, Disjoint (s.own j) (lockBits l.bio.slba l.bio.nlbs)
  | .finish i => ∀ l t, s.live i = some l → l.phase = .unlocked t →
    (l.bio.opcode = .read → l.bio.histIdx = noHistIdx) ∧
    (l.bio.changes → ∀ j lj tj, s.live j = some lj → lj.phase = .unlocked tj → tj < t →
      (lj.bio.changes ∨ lj.bio.opcode = .read ∧ lj.bio.result = 0) →
      Disjoint l.bio.range lj.bio.range)

/-! ## The step lemma -/

omit [DecidableEq ι] in
theorem own_eq (h : s.live i = some l) : s.own i = l.own := by rw [own, h]

omit [DecidableEq ι] in
theorem own_eq_empty (h : s.live i = none) : s.own i = ∅ := by rw [own, h]

@[simp] theorem put_live (l : Option LiveBio) (iover : Iover) (j : ι) :
    (s.put i l iover).live j = if j = i then l else s.live j := Function.update_apply ..

@[simp] theorem execute_live (params : JobParams) (bio : Bio) (j : ι) :
    (s.execute i params bio).live j
      = if j = i then some ⟨params, bio, .executed s.clock⟩ else s.live j :=
  Function.update_apply ..

@[simp] theorem finish_live (bio : Bio) (t : ℕ) (iover : Iover) (j : ι) :
    (s.finish i bio t iover).live j = if j = i then none else s.live j := Function.update_apply ..

@[simp] theorem put_last (l : Option LiveBio) (iover : Iover) : (s.put i l iover).last = s.last :=
  rfl

@[simp] theorem finish_last (bio : Bio) (t : ℕ) (iover : Iover) :
    (s.finish i bio t iover).last = s.last := rfl

theorem put_own_of_ne (l : Option LiveBio) (iover : Iover) (h : j ≠ i) :
    (s.put i l iover).own j = s.own j := by
  rw [own, own, put_live, if_neg h]

theorem put_own_self (l : Option LiveBio) (iover : Iover) :
    (s.put i l iover).own i = (match l with | some l => l.own | none => ∅) := by
  rw [own, put_live, if_pos rfl]

/-- A move that touches neither the descriptors nor what the device has done. -/
theorem Inv.put (h : s.Inv) {l' : Option LiveBio} {iover : Iover}
    (hformat : s.iover.SameFormat iover) (hdesc : iover.blockDesc = s.iover.blockDesc)
    (howns : Owns (bits iover.lbaLock) (s.put i l' iover).own)
    (hover : ∀ l, l' = some l → l.params.lbaOverlap = false ∧ l.bio.nlbs < 2 ^ 32)
    (hback : ∀ l t, l' = some l → l.phase.stamp = some t → ∃ l₀, s.live i = some l₀ ∧
      l₀.params = l.params ∧ l₀.bio = l.bio ∧ l₀.phase.stamp = some t ∧
      (l₀.phase = .unlocked t → l.phase = .unlocked t))
    (hkept : ∀ l₀ t, s.live i = some l₀ → l₀.phase.stamp = some t → l₀.bio.changes →
      ∃ l, l' = some l ∧ l.bio = l₀.bio ∧ l.phase.stamp = some t) :
    (s.put i l' iover).Inv := by
  -- every command that is executed after the move was executed before it
  have back : ∀ j l t, (s.put i l' iover).live j = some l → l.phase.stamp = some t →
      ∃ l₀, s.live j = some l₀ ∧ l₀.params = l.params ∧ l₀.bio = l.bio ∧
        l₀.phase.stamp = some t ∧ (l₀.phase = .unlocked t → l.phase = .unlocked t) := by
    intro j l t hl ht
    rw [put_live] at hl
    split at hl
    · rename_i hji
      exact hji ▸ hback l t hl ht
    · exact ⟨l, hl, rfl, rfl, ht, id⟩
  have bounds : ∀ j l, (s.put i l' iover).live j = some l →
      l.params.lbaOverlap = false ∧ l.bio.nlbs < 2 ^ 32 := by
    intro j l hl
    rw [put_live] at hl
    split at hl
    · exact hover l hl
    · exact ⟨h.noOverlap j l hl, h.nlbs_lt j l hl⟩
  refine ⟨howns, fun j l hl => (bounds j l hl).1, fun j l hl => (bounds j l hl).2, ?_, ?_, ?_, ?_,
    h.sorted, ?_, ?_, h.committedAt_lt, ?_⟩
  case refine_1 =>
    intro j l t hl ht
    obtain ⟨l₀, hl₀, -, -, ht₀, -⟩ := back j l t hl ht
    exact h.stamp_lt j l₀ t hl₀ ht₀
  case refine_2 =>
    intro j k lj lk t hj hk htj htk
    obtain ⟨l₀, hl₀, -, -, ht₀, -⟩ := back j lj t hj htj
    obtain ⟨l₁, hl₁, -, -, ht₁, -⟩ := back k lk t hk htk
    exact h.stamp_inj j k l₀ l₁ t hl₀ hl₁ ht₀ ht₁
  case refine_3 =>
    intro j k lj lk tj tk x hj hk htj htk hlt hxj hxk htakej htakek
    obtain ⟨l₀, hl₀, hp₀, hb₀, ht₀, hun⟩ := back j lj tj hj htj
    obtain ⟨l₁, hl₁, hp₁, hb₁, ht₁, -⟩ := back k lk tk hk htk
    rw [← hb₀] at hxj
    rw [← hb₁] at hxk
    rw [← hp₀, ← hb₀] at htakej
    rw [← hp₁, ← hb₁] at htakek
    exact hun (h.order j k l₀ l₁ tj tk x hl₀ hl₁ ht₀ ht₁ hlt hxj hxk htakej htakek)
  case refine_4 =>
    intro x e
    refine (h.pending_iff x e).trans ⟨?_, ?_⟩
    · rintro ⟨l₀, hl₀, hb₀, ht₀, hch, hx⟩
      by_cases hei : e.slot = i
      · rw [hei] at hl₀
        obtain ⟨l, hl, hb, ht⟩ := hkept l₀ e.stamp hl₀ ht₀ (hb₀ ▸ hch)
        exact ⟨l, by rw [put_live, if_pos hei, hl], hb.trans hb₀, ht, hch, hx⟩
      · exact ⟨l₀, by rw [put_live, if_neg hei, hl₀], hb₀, ht₀, hch, hx⟩
    · rintro ⟨l, hl, hb, ht, hch, hx⟩
      obtain ⟨l₀, hl₀, -, hb₀, ht₀, -⟩ := back e.slot l e.stamp hl ht
      exact ⟨l₀, hl₀, hb₀.trans hb, ht₀, hch, hx⟩
  case refine_5 =>
    intro x
    have hfold := h.fold x
    rw [← descAfter_congr hformat, ← hdesc] at hfold
    exact hfold
  case refine_6 =>
    intro j l t hl ht hch
    obtain ⟨l₀, hl₀, hp₀, hb₀, ht₀, -⟩ := back j l t hl ht
    exact hp₀ ▸ h.compare j l₀ t hl₀ ht₀ (hb₀.symm ▸ hch)
  case refine_7 =>
    intro j l t x hl ht hop hres hx
    obtain ⟨l₀, hl₀, -, hb₀, ht₀, -⟩ := back j l t hl ht
    rw [← hb₀] at hop hres hx
    exact h.reads j l₀ t x hl₀ ht₀ hop hres hx

omit [DecidableEq ι] in
/-- A slot that is not half completed holds the lock bits of its LBAs. -/
theorem mem_own (h : s.live i = some l) (hphase : ∀ t, l.phase ≠ .unlocked t)
    (htake : takesLock l.params l.bio) (hx : x ∈ l.bio.range) : x % 2 ^ 38 ∈ s.own i := by
  obtain ⟨params, bio, phase⟩ := l
  rw [own_eq h, LiveBio.own]
  cases phase with
  | issued => exact if_pos htake ▸ mem_lockBits_of_mem hx
  | executed t => exact if_pos htake ▸ mem_lockBits_of_mem hx
  | unlocked t => exact absurd rfl (hphase t)

omit [DecidableEq ι] in
/-- **The lock separates**: two slots that share an LBA and are not half completed are one. -/
theorem Inv.eq_of_locked (h : s.Inv) {li lj : LiveBio} (hi : s.live i = some li)
    (hj : s.live j = some lj) (hphasei : ∀ t, li.phase ≠ .unlocked t)
    (hphasej : ∀ t, lj.phase ≠ .unlocked t) (htakei : takesLock li.params li.bio)
    (htakej : takesLock lj.params lj.bio) (hxi : x ∈ li.bio.range) (hxj : x ∈ lj.bio.range) :
    i = j := by
  by_contra hij
  exact Set.disjoint_left.mp (h.owns.disj i j hij) (mem_own hi hphasei htakei hxi)
    (mem_own hj hphasej htakej hxj)

omit [DecidableEq ι] in
/-- Where nothing is left to commit, the descriptor is up to date. -/
theorem Inv.blockDesc_eq_last (h : s.Inv) (hx : ∀ i l t, s.live i = some l →
    l.phase.stamp = some t → l.bio.changes → x ∉ l.bio.range) : s.iover.blockDesc x = s.last x := by
  have hpend : s.pending x = [] := by
    refine List.eq_nil_iff_forall_not_mem.mpr ?_
    intro e he
    obtain ⟨l, hl, hb, ht, hch, hxe⟩ := (h.pending_iff x e).mp he
    exact hx e.slot l e.stamp hl ht (hb.symm ▸ hch) (hb.symm ▸ hxe)
  have hfold := h.fold x
  rwa [hpend, List.foldl_nil] at hfold

omit [DecidableEq ι] in
/-- A command with a stamp that is not unlocked is executed. -/
theorem phase_of_stamp {phase : BioPhase} {t : ℕ} (h : phase.stamp = some t) :
    phase = .executed t ∨ phase = .unlocked t := by
  cases phase with
  | issued => cases h
  | executed t' => obtain rfl := Option.some.inj h; exact .inl rfl
  | unlocked t' => obtain rfl := Option.some.inj h; exact .inr rfl

/-- The slots with a stamp after a command is executed: the others as before, and this one with
the newest. -/
theorem Inv.stamped_execute (h : s.Inv) {params : JobParams} {bio : Bio} {j : ι} {l : LiveBio}
    {t : ℕ} (hj : (s.execute i params bio).live j = some l) (ht : l.phase.stamp = some t) :
    (j ≠ i ∧ s.live j = some l ∧ t < s.clock) ∨
      (j = i ∧ l = ⟨params, bio, .executed s.clock⟩ ∧ t = s.clock) := by
  rw [execute_live] at hj
  split at hj
  · rename_i hji
    obtain rfl := Option.some.inj hj
    exact .inr ⟨hji, rfl, (Option.some.inj ht).symm⟩
  · rename_i hji
    exact .inl ⟨hji, hj, h.stamp_lt j l t hj ht⟩

theorem mem_pending_execute {params : JobParams} {bio : Bio} {x : ℕ}
    {e : Pending ι} : e ∈ (s.execute i params bio).pending x ↔
      e ∈ s.pending x ∨ (bio.changes ∧ x ∈ bio.range) ∧ e = ⟨i, s.clock, bio⟩ := by
  change e ∈ (if _ then _ else _) ↔ _
  split
  · rename_i hch
    rw [List.mem_append, List.mem_singleton, and_iff_right hch]
  · rename_i hch
    rw [or_iff_left fun hno => hch hno.1]

/-- What is pending after a command is executed is what was executed and not committed. -/
theorem Inv.pending_execute (h : s.Inv) {params : JobParams} {bio bio' : Bio}
    (hl : s.live i = some ⟨params, bio, .issued⟩) (x : ℕ) (e : Pending ι) :
    e ∈ (s.execute i params bio').pending x ↔ ∃ l, (s.execute i params bio').live e.slot = some l ∧
      l.bio = e.bio ∧ l.phase.stamp = some e.stamp ∧ e.bio.changes ∧ x ∈ e.bio.range := by
  rw [mem_pending_execute, h.pending_iff]
  refine ⟨?_, ?_⟩
  · rintro (⟨l, hle, hb, ht, hch⟩ | ⟨⟨hch, hx⟩, rfl⟩)
    · have hei : e.slot ≠ i := by
        rintro hei
        rw [hei, hl] at hle
        obtain rfl := Option.some.inj hle
        cases ht
      exact ⟨l, by rw [execute_live, if_neg hei, hle], hb, ht, hch⟩
    · exact ⟨_, by rw [execute_live, if_pos rfl], rfl, rfl, hch, hx⟩
  · rintro ⟨l, hle, hb, ht, hch, hx⟩
    rw [execute_live] at hle
    split at hle
    · rename_i hei
      obtain ⟨slot, stamp, b⟩ := e
      obtain rfl : slot = i := hei
      obtain rfl := Option.some.inj hle
      obtain rfl : bio' = b := hb
      obtain rfl : s.clock = stamp := Option.some.inj ht
      exact .inr ⟨⟨hch, hx⟩, rfl⟩
    · exact .inl ⟨l, hle, hb, ht, hch, hx⟩

/-- **The device executes a command.** It holds the lock, so whatever was executed on its LBAs
before and is not finished is half completed. -/
theorem Inv.execute (h : s.Inv) {params : JobParams} {bio bio' : Bio}
    (hl : s.live i = some ⟨params, bio, .issued⟩) (hex : bio.Executes bio')
    (hcomp : bio'.changes → params.compare = true) : (s.execute i params bio').Inv where
  owns := by
    have hself : (s.execute i params bio').live i = some ⟨params, bio', .executed s.clock⟩ := by
      rw [execute_live, if_pos rfl]
    have hown : (s.execute i params bio').own = s.own := by
      funext j
      by_cases hji : j = i
      · subst hji
        rw [own_eq hself, own_eq hl, hex.own]
      · rw [own, own, execute_live, if_neg hji]
    rw [hown]
    exact h.owns
  noOverlap j l hj := by
    rw [execute_live] at hj
    split at hj
    · obtain rfl := Option.some.inj hj
      exact (h.noOverlap i _ hl :)
    · exact h.noOverlap j l hj
  nlbs_lt j l hj := by
    rw [execute_live] at hj
    split at hj
    · obtain rfl := Option.some.inj hj
      exact (hex.nlbs ▸ h.nlbs_lt i _ hl :)
    · exact h.nlbs_lt j l hj
  stamp_lt j l t hj ht := by
    rcases h.stamped_execute hj ht with ⟨-, -, hlt⟩ | ⟨-, -, rfl⟩
    · exact Nat.lt_succ_of_lt hlt
    · exact Nat.lt_succ_self _
  stamp_inj j k lj lk t hj hk htj htk := by
    rcases h.stamped_execute hj htj with ⟨-, hj', hltj⟩ | ⟨rfl, -, htj'⟩ <;>
      rcases h.stamped_execute hk htk with ⟨-, hk', hltk⟩ | ⟨rfl, -, htk'⟩
    · exact h.stamp_inj j k lj lk t hj' hk' htj htk
    · omega
    · omega
    · rfl
  order j k lj lk tj tk x hj hk htj htk hlt hxj hxk htakej htakek := by
    rcases h.stamped_execute hj htj with ⟨hji, hj', hltj⟩ | ⟨rfl, -, htj'⟩
    · rcases h.stamped_execute hk htk with ⟨-, hk', -⟩ | ⟨rfl, rfl, -⟩
      · exact h.order j k lj lk tj tk x hj' hk' htj htk hlt hxj hxk htakej htakek
      · -- both would hold the bit of `x`
        refine (phase_of_stamp htj).resolve_left fun hexec => hji ?_
        exact h.eq_of_locked hj' hl (fun t => by rw [hexec]; simp) (fun t => by simp) htakej
          (by rwa [takesLock, hex.opcode] at htakek) hxj
          (by rwa [Bio.mem_range, hex.slba, hex.nlbs] at hxk)
    · rcases h.stamped_execute hk htk with ⟨-, -, hltk⟩ | ⟨-, -, htk'⟩ <;> omega
  pending_iff := h.pending_execute hl
  sorted x := by
    change List.Pairwise _ (if _ then _ else _)
    split
    · refine List.pairwise_append.mpr ⟨h.sorted x, List.pairwise_singleton _ _, ?_⟩
      intro e he e' he'
      obtain rfl := List.mem_singleton.mp he'
      obtain ⟨l, hle, -, ht, -⟩ := (h.pending_iff x e).mp he
      exact h.stamp_lt e.slot l e.stamp hle ht
    · exact h.sorted x
  fold x := by
    have hfold := h.fold x
    change List.foldl _ _ (if _ then _ else _) = if _ then _ else _
    split
    · rw [List.foldl_append, List.foldl_cons, List.foldl_nil]
      exact congrArg _ hfold
    · exact hfold
  compare j l t hj ht hch := by
    rcases h.stamped_execute hj ht with ⟨-, hj', -⟩ | ⟨-, rfl, -⟩
    · exact h.compare j l t hj' ht hch
    · exact hcomp hch
  committedAt_lt x := Nat.lt_succ_of_lt (h.committedAt_lt x)
  reads j l t x hj ht hop hres hx := by
    rcases h.stamped_execute hj ht with ⟨-, hj', -⟩ | ⟨-, -, rfl⟩
    · exact h.reads j l t x hj' ht hop hres hx
    · exact h.committedAt_lt x

/-- Reads and commands that change their LBAs take the lock. -/
theorem takesLock_of_changes {params : JobParams} {bio : Bio} (ho : params.lbaOverlap = false)
    (h : bio.changes ∨ bio.opcode = .read ∧ bio.result = 0) : takesLock params bio := by
  rw [takesLock, ho]
  rcases h with h | ⟨h, -⟩
  · simp only [Bio.changes] at h
    cases hop : bio.opcode <;> simp [hop, BioOpcode.num] at h ⊢
  · rw [h]
    rfl

omit [DecidableEq ι] in
/-- **A commit is in the order of the device**: an orderly bio that is about to commit is the
oldest one pending on each of its LBAs. -/
theorem Inv.pending_head (h : s.Inv) {params : JobParams} {bio : Bio} {t : ℕ}
    (hl : s.live i = some ⟨params, bio, .unlocked t⟩) (hch : bio.changes) (hx : x ∈ bio.range)
    (hgap : ∀ j lj tj, s.live j = some lj → lj.phase = .unlocked tj → tj < t →
      (lj.bio.changes ∨ lj.bio.opcode = .read ∧ lj.bio.result = 0) →
      Disjoint bio.range lj.bio.range) :
    ∃ rest, s.pending x = ⟨i, t, bio⟩ :: rest := by
  have hmem : ⟨i, t, bio⟩ ∈ s.pending x := (h.pending_iff x _).mpr ⟨_, hl, rfl, rfl, hch, hx⟩
  cases hpend : s.pending x with
  | nil =>
    rw [hpend] at hmem
    cases hmem
  | cons e rest =>
    refine ⟨rest, ?_⟩
    rw [hpend] at hmem
    rcases List.mem_cons.mp hmem with rfl | hrest
    · rfl
    · -- an older command on `x` would be half completed, and the gap is closed to those
      exfalso
      have hsorted := h.sorted x
      rw [hpend] at hsorted
      have hlt : e.stamp < t := (List.pairwise_cons.mp hsorted).1 _ hrest
      obtain ⟨lj, hj, hb, htj, hchj, hxj⟩ :=
        (h.pending_iff x e).mp (hpend ▸ List.mem_cons_self ..)
      rw [← hb] at hchj hxj
      have hunl : lj.phase = .unlocked e.stamp :=
        h.order e.slot i lj _ e.stamp t x hj hl htj rfl hlt hxj hx
          (takesLock_of_changes (h.noOverlap _ _ hj) (.inl hchj))
          (takesLock_of_changes (h.noOverlap _ _ hl) (.inl hch))
      exact Set.disjoint_left.mp (hgap e.slot lj e.stamp hj hunl hlt (.inl hchj)) hx hxj

/-- The slots that are left when slot `i` ends. -/
theorem live_of_finish {bio : Bio} {t : ℕ} {iover : Iover} {j : ι} {l : LiveBio}
    (hj : (s.finish i bio t iover).live j = some l) : j ≠ i ∧ s.live j = some l := by
  rw [finish_live] at hj
  split at hj
  · cases hj
  · exact ⟨‹_›, hj⟩

/-- **A command that is committed** leaves the descriptors that the pending ones will bring up to
date. -/
theorem Inv.fold_finish (h : s.Inv) {params : JobParams} {bio : Bio} {t : ℕ}
    (hl : s.live i = some ⟨params, bio, .unlocked t⟩)
    (hgap : bio.changes → ∀ j lj tj, s.live j = some lj → lj.phase = .unlocked tj → tj < t →
      (lj.bio.changes ∨ lj.bio.opcode = .read ∧ lj.bio.result = 0) →
      Disjoint bio.range lj.bio.range) (x : ℕ) :
    ((s.pending x).filter fun e => e.slot ≠ i).foldl (fun d e => descAfter s.iover e.bio x d)
      ((if bio.result = 0 then committedDesc s.iover params bio else s.iover.blockDesc) x)
      = s.last x := by
  rw [← h.fold x]
  by_cases hch : bio.changes ∧ x ∈ bio.range
  · -- the command is the head of what is pending, and its commit takes it off
    obtain ⟨hch, hx⟩ := hch
    obtain ⟨rest, hpend⟩ := h.pending_head hl hch hx (hgap hch)
    have hsorted := h.sorted x
    rw [hpend] at hsorted
    have hrest : ∀ e ∈ rest, decide (e.slot ≠ i) = true := by
      intro e he
      rw [decide_eq_true_iff]
      rintro rfl
      obtain ⟨l, hle, -, ht, -⟩ := (h.pending_iff x e).mp (hpend ▸ List.mem_cons_of_mem _ he)
      obtain rfl := Option.some.inj (hle.symm.trans hl)
      have hlt := (List.pairwise_cons.mp hsorted).1 e he
      exact absurd (Option.some.inj ht) hlt.ne
    rw [hpend, List.filter_cons_of_neg (by simp), List.filter_eq_self.mpr hrest,
      List.foldl_cons, if_pos (changes_result hch), committedDesc,
      if_pos ⟨h.compare i _ t hl rfl hch, hx⟩]
  · -- the command is not pending here, and its commit does nothing here
    have hall : ∀ e ∈ s.pending x, decide (e.slot ≠ i) = true := by
      intro e he
      rw [decide_eq_true_iff]
      intro hei
      obtain ⟨l, hle, hb, -, hche, hxe⟩ := (h.pending_iff x e).mp he
      rw [hei] at hle
      obtain rfl := Option.some.inj (hle.symm.trans hl)
      obtain rfl : bio = e.bio := hb
      exact hch ⟨hche, hxe⟩
    rw [List.filter_eq_self.mpr hall]
    congr 1
    split
    · rename_i hzero
      rw [committedDesc]
      split
      · rename_i hx
        exact descAfter_of_not_changes hzero fun hch' => hch ⟨hch', hx.2⟩
      · rfl
    · rfl

omit [DecidableEq ι] in
/-- **A read that is still to be verified** was executed after what is committed on its LBAs. -/
theorem Inv.reads_finish (h : s.Inv) {params : JobParams} {bio : Bio} {t : ℕ}
    (hl : s.live i = some ⟨params, bio, .unlocked t⟩)
    (hgap : bio.changes → ∀ j lj tj, s.live j = some lj → lj.phase = .unlocked tj → tj < t →
      (lj.bio.changes ∨ lj.bio.opcode = .read ∧ lj.bio.result = 0) →
      Disjoint bio.range lj.bio.range) {j : ι} {l : LiveBio} {t' x : ℕ} (hji : j ≠ i)
    (hj : s.live j = some l) (ht : l.phase.stamp = some t') (hop : l.bio.opcode = .read)
    (hzero : l.bio.result = 0) (hx : x ∈ l.bio.range) (hch : bio.changes)
    (hxi : x ∈ bio.range) : t < t' := by
  rcases Nat.lt_trichotomy t t' with hlt | heq | hgt
  · exact hlt
  · exact absurd (h.stamp_inj j i l _ t' hj hl ht (by rw [heq]; rfl)) hji
  · -- a read that was executed before this command is half completed
    have hunl : l.phase = .unlocked t' :=
      h.order j i l _ t' t x hj hl ht rfl hgt hx hxi
        (takesLock_of_changes (h.noOverlap _ _ hj) (.inr ⟨hop, hzero⟩))
        (takesLock_of_changes (h.noOverlap _ _ hl) (.inl hch))
    exact absurd hx (Set.disjoint_left.mp
      (hgap hch j l t' hj hunl hgt (.inr ⟨hop, hzero⟩)) hxi)

/-- **A bio is finished.** -/
theorem Inv.finish (h : s.Inv) {params : JobParams} {bio : Bio} {t : ℕ} {job : JobView}
    {r : SubmitResult} (hl : s.live i = some ⟨params, bio, .unlocked t⟩)
    (htail : submitTail s.iover params job bio = some r) (hres : r.res = 0)
    (hidx : bio.opcode = .read → bio.histIdx = noHistIdx)
    (hgap : bio.changes → ∀ j lj tj, s.live j = some lj → lj.phase = .unlocked tj → tj < t →
      (lj.bio.changes ∨ lj.bio.opcode = .read ∧ lj.bio.result = 0) →
      Disjoint bio.range lj.bio.range) : (s.finish i bio t r.iover).Inv where
  owns := by
    have hown : (s.finish i bio t r.iover).own = s.own := by
      funext j
      by_cases hji : j = i
      · subst hji
        rw [own_eq hl, own_eq_empty (Function.update_self ..)]
        rfl
      · rw [own, own, finish_live, if_neg hji]
    rw [hown, show (s.finish i bio t r.iover).iover = r.iover from rfl,
      (submitTail_sameCore htail).lbaLock]
    exact h.owns
  noOverlap j l hj := h.noOverlap j l (live_of_finish hj).2
  nlbs_lt j l hj := h.nlbs_lt j l (live_of_finish hj).2
  stamp_lt j l t' hj := h.stamp_lt j l t' (live_of_finish hj).2
  stamp_inj j k lj lk t' hj hk :=
    h.stamp_inj j k lj lk t' (live_of_finish hj).2 (live_of_finish hk).2
  order j k lj lk tj tk x hj hk :=
    h.order j k lj lk tj tk x (live_of_finish hj).2 (live_of_finish hk).2
  pending_iff x e := by
    change e ∈ (s.pending x).filter _ ↔ _
    rw [List.mem_filter, h.pending_iff, decide_eq_true_iff]
    refine ⟨?_, ?_⟩
    · rintro ⟨⟨l, hle, hb⟩, hei⟩
      exact ⟨l, by rw [finish_live, if_neg hei, hle], hb⟩
    · rintro ⟨l, hle, hb⟩
      obtain ⟨hei, hle'⟩ := live_of_finish hle
      exact ⟨⟨l, hle', hb⟩, hei⟩
  sorted x := (h.sorted x).filter _
  fold x := by
    have hcore := submitTail_sameCore htail
    change ((s.pending x).filter _).foldl (fun d e => descAfter r.iover e.bio x d)
      (r.iover.blockDesc x) = s.last x
    rw [descAfter_congr ⟨hcore.ns, hcore.datagen⟩, submitTail_blockDesc htail hres hidx]
    exact h.fold_finish hl hgap x
  compare j l t' hj := h.compare j l t' (live_of_finish hj).2
  committedAt_lt x := by
    change (if _ then _ else _) < s.clock
    split
    · exact h.stamp_lt i _ t hl rfl
    · exact h.committedAt_lt x
  reads j l t' x hj ht hop hzero hx := by
    obtain ⟨hji, hj'⟩ := live_of_finish hj
    change (if _ then _ else _) < t'
    split
    · rename_i hch
      exact h.reads_finish hl hgap hji hj' ht hop hzero hx hch.1 hch.2
    · exact h.reads j l t' x hj' ht hop hzero hx

omit [DecidableEq ι] in
theorem inv_init (iover : Iover) : (init iover : Ns ι).Inv where
  owns := by
    rw [init, bits_zero]
    exact .empty fun _ => rfl
  noOverlap _ _ h := by cases h
  nlbs_lt _ _ h := by cases h
  stamp_lt _ _ _ h := by cases h
  stamp_inj _ _ _ _ _ h := by cases h
  order _ _ _ _ _ _ _ h := by cases h
  pending_iff x e := by
    refine ⟨?_, ?_⟩
    · rintro h
      cases h
    · rintro ⟨l, h, -⟩
      cases h
  sorted _ := .nil
  fold _ := rfl
  compare _ _ _ h := by cases h
  committedAt_lt _ := Nat.one_pos
  reads _ _ _ _ h := by cases h

/-- A half completed bio holds nothing, and an executed one still holds what it locked. -/
theorem Inv.unlock (h : s.Inv) {params : JobParams} {bio : Bio} {t : ℕ}
    (hl : s.live i = some ⟨params, bio, .executed t⟩)
    (hfree : takesLock params bio = false →
      ∀ j, Disjoint (s.own j) (lockBits bio.slba bio.nlbs)) :
    (s.put i (some ⟨params, bio, .unlocked t⟩) (submitUnlock s.iover params bio)).Inv := by
  have hiover : submitUnlock s.iover params bio
      = { s.iover with lbaLock := unlockLbas s.iover.lbaLock bio.slba bio.nlbs } := by
    rw [submitUnlock, h.noOverlap i _ hl, if_neg Bool.false_ne_true]
  rw [hiover]
  refine h.put ⟨rfl, rfl⟩ rfl ?_ ?_ ?_ ?_
  · have hbits : bits (unlockLbas s.iover.lbaLock bio.slba bio.nlbs)
        = bits s.iover.lbaLock \ lockBits bio.slba bio.nlbs :=
      bits_unlockLbas (h.nlbs_lt i _ hl) _ _
    rw [hbits]
    cases htake : takesLock params bio
    · refine (h.owns.shrink (hfree htake)).mono ?_
      intro j
      by_cases hji : j = i
      · subst hji
        rw [put_own_self]
        exact Set.empty_subset _
      · rw [put_own_of_ne _ _ hji]
    · refine h.owns.exchange i ?_ ?_ fun j hji => (put_own_of_ne _ _ hji).le
      · rw [put_own_self, own_eq hl, LiveBio.own, if_pos htake]
        exact (Set.sdiff_empty).symm
      · rw [put_own_self]
        exact Set.empty_subset _
  · rintro l hl'
    obtain rfl := Option.some.inj hl'
    exact ⟨(h.noOverlap i _ hl :), (h.nlbs_lt i _ hl :)⟩
  · rintro l t' hl' ht'
    obtain rfl := Option.some.inj hl'
    obtain rfl := Option.some.inj ht'
    exact ⟨_, hl, rfl, rfl, rfl, fun _ => rfl⟩
  · rintro l₀ t' hl₀ ht' -
    obtain rfl := Option.some.inj (hl.symm.trans hl₀)
    obtain rfl := Option.some.inj ht'
    exact ⟨_, rfl, rfl, rfl⟩

/-- A bio that goes away without a commit. -/
theorem Inv.remove (h : s.Inv) {l : LiveBio} (hl : s.live i = some l)
    (hch : ∀ t, l.phase.stamp = some t → ¬ l.bio.changes) : (s.put i none s.iover).Inv := by
  refine h.put ⟨rfl, rfl⟩ rfl ?_ ?_ ?_ ?_
  · refine h.owns.mono ?_
    intro j
    by_cases hji : j = i
    · subst hji
      rw [put_own_self]
      exact Set.empty_subset _
    · rw [put_own_of_ne _ _ hji]
  · rintro l' hl'
    cases hl'
  · rintro l' t' hl'
    cases hl'
  · rintro l₀ t' hl₀ ht' hch₀
    obtain rfl := Option.some.inj (hl.symm.trans hl₀)
    exact absurd hch₀ (hch t' ht')

/-- **The step lemma**: an orderly step keeps the invariant. -/
theorem Inv.step {lab : NsLabel ι} (h : s.Inv) (hord : s.Orderly lab) (hs : Step s lab s') :
    s'.Inv := by
  cases hs with
  | issue i params bio iover hl hover hgen =>
    obtain ⟨hn, hformat, hdesc, hrest, hsub⟩ := hgen.spec
    refine h.put hformat hdesc ?_ ?_ ?_ ?_
    · refine h.owns.exchange i ?_ ?_ fun j hji => (put_own_of_ne _ _ hji).le
      · rw [put_own_self, own_eq_empty hl, Set.sdiff_empty]
        exact hrest
      · rw [put_own_self]
        exact hsub
    · rintro l hl'
      obtain rfl := Option.some.inj hl'
      exact ⟨hover, hn⟩
    · rintro l t hl' ht
      obtain rfl := Option.some.inj hl'
      cases ht
    · rintro l₀ t hl₀
      rw [hl] at hl₀
      cases hl₀
  | backup i l iover hl hback =>
    obtain ⟨hd, hdr, rfl⟩ := backupHistState_sameButHist hback
    refine h.put ⟨rfl, rfl⟩ rfl ?_ ?_ ?_ ?_
    · refine h.owns.mono ?_
      intro j
      by_cases hji : j = i
      · subst hji
        rw [put_own_self, own_eq hl]
      · rw [put_own_of_ne _ _ hji]
    · rintro l' hl'
      obtain rfl := Option.some.inj hl'
      exact ⟨h.noOverlap i l hl, h.nlbs_lt i l hl⟩
    · rintro l' t hl' ht
      obtain rfl := Option.some.inj hl'
      exact ⟨l, hl, rfl, rfl, ht, id⟩
    · rintro l₀ t hl₀ ht -
      obtain rfl := Option.some.inj (hl.symm.trans hl₀)
      exact ⟨l, rfl, rfl, ht⟩
  | demote i l iover hl hop hcommit => exact hord.elim
  | execute i params bio bio' hl hex =>
    exact h.execute hl hex fun hch => hord hch _ hl
  | drop i params bio hl =>
    exact h.remove hl fun t ht => by cases ht
  | unlock i params bio t hl hop =>
    exact h.unlock hl fun htake => hord _ hl htake
  | finish i params bio t job r hl htail hres =>
    obtain ⟨hidx, hgap⟩ := hord _ t hl rfl
    exact h.finish hl htail hres hidx hgap
  | retire i params bio t hl hop =>
    refine h.remove hl ?_
    intro t' _ hch
    simp [Bio.changes, hop] at hch

/-- The invariant holds in every state of an orderly run. -/
theorem inv_of_run {iover : Iover} {ls : List (NsLabel ι)}
    (hrun : Run (guarded Step Orderly) (init iover) ls s) : s.Inv :=
  hrun.invariant (fun _ _ _ hi hs => hi.step hs.1 hs.2) (inv_init iover)

/-- **Completion is atomic in every orderly run.** When no bio on an LBA is in flight or half
completed, its descriptor is the one after the last command the device completed on it; and a
half completed read is verified against descriptors none of which was committed by a command the
device executed after it. -/
theorem completion_atomic {iover : Iover} {ls : List (NsLabel ι)}
    (hrun : Run (guarded Step Orderly) (init iover) ls s) :
    (∀ x, (∀ i l, s.live i = some l → x ∉ l.bio.range) → s.iover.blockDesc x = s.last x) ∧
      ∀ i params bio t x, s.live i = some ⟨params, bio, .unlocked t⟩ → bio.opcode = .read →
        bio.result = 0 → x ∈ bio.range → s.committedAt x < t := by
  have hinv := inv_of_run hrun
  refine ⟨fun x hx => ?_, fun i params bio t x hl hop hres hx =>
    hinv.reads i _ t x hl rfl hop hres hx⟩
  exact hinv.blockDesc_eq_last fun i l _ hl _ _ => hx i l hl

/-! ## Single runs -/

/-- A plain job writes LBA 0 and completes it, through the four steps of a bio. -/
structure WriteCycle (s : Ns ι) (i : ι) (bio : Bio) (s₁ s₂ s₃ s₄ : Ns ι) : Prop where
  opcode : bio.opcode = .write
  result : bio.result = 0
  expectedResult : bio.expectedResult = 0
  histIdx : bio.histIdx = noHistIdx
  range : bio.range = {0}
  nlbs : bio.nlbs = 1
  issue : s.Step (.issue i .plain bio) s₁
  execute : s₁.Step (.execute i bio) s₂
  unlock : s₂.Step (.unlock i) s₃
  half : s₃.live i = some ⟨.plain, bio, .unlocked s.clock⟩
  finish : s₃.Step (.finish i) s₄
  live : s₄.live = Function.update s.live i none
  ns : s₄.iover.ns = s.iover.ns
  lbaLock : s₄.iover.lbaLock = unlockLbas (tryLockLbas s.iover.lbaLock 0 1).2 0 1
  data : (s₄.iover.blockDesc 0).state = .data

/-- It can do so when LBA 0 is not locked. -/
theorem exists_writeCycle (hidle : s.live i = none)
    (hfree : (tryLockLbas s.iover.lbaLock 0 1).1 = 0) :
    ∃ bio s₁ s₂ s₃ s₄, s.WriteCycle i bio s₁ s₂ s₃ s₄ := by
  let before : Bio := .plain .write 0 1 fun _ => 0
  let locked : Iover := { s.iover with lbaLock := (tryLockLbas s.iover.lbaLock 0 1).2 }
  obtain ⟨iover₁, bio, hfill⟩ : ∃ iover₁ bio,
      fillData locked .plain before (fun _ => false) = (iover₁, bio) := ⟨_, _, rfl⟩
  have hgen : Generates s.iover .plain iover₁ bio :=
    generates_of_tryLock (by decide) (by decide) rfl hfree hfill
  have hsame : before.SameCommand bio := by
    rw [show bio = (iover₁, bio).2 from rfl, ← hfill]
    exact fillData_sameCommand
  have hiover : iover₁ = { locked with timestamp := s.iover.timestamp + 1 } := by
    rw [show iover₁ = (iover₁, bio).1 from rfl, ← hfill, fillData_fst, if_pos ⟨rfl, rfl⟩]
  have hnlbs : bio.nlbs = 1 := hsame.nlbs
  have hslba : bio.slba = 0 := hsame.slba
  have hrange : bio.range = {0} := by
    ext x
    rw [Bio.mem_range, hslba, hnlbs, Set.mem_singleton_iff]
    omega
  have hdec : datagenGetHeader iover₁.datagen (blockData iover₁ bio 0)
      = some ⟨0, iover₁.timestamp, writePattern iover₁ 0⟩ := by
    have h := datagenGetHeader_of_writtenBlock (hgen.written hsame.opcode rfl 0 (by omega))
    rwa [hslba] at h
  let s₁ := s.put i (some ⟨.plain, bio, .issued⟩) iover₁
  let s₂ := s₁.execute i .plain bio
  let s₃ := s₂.put i (some ⟨.plain, bio, .unlocked s.clock⟩) (submitUnlock iover₁ .plain bio)
  have h₁ : s₁.live i = some ⟨.plain, bio, .issued⟩ := (put_live _ _ _).trans (if_pos rfl)
  have h₂ : s₂.live i = some ⟨.plain, bio, .executed s.clock⟩ :=
    (execute_live _ _ _).trans (if_pos rfl)
  have h₃ : s₃.live i = some ⟨.plain, bio, .unlocked s.clock⟩ :=
    (put_live _ _ _).trans (if_pos rfl)
  have hformat : iover₁.SameFormat s₃.iover := ⟨rfl, rfl⟩
  rw [← hformat.datagen, ← blockData_congr hformat] at hdec
  obtain ⟨iover₄, htail⟩ := submitTail_write s₃.iover .plain ⟨fun _ => 0, false, 0⟩ bio
    hsame.opcode hsame.result hsame.expectedResult rfl fun o ho => by
      obtain rfl : o = 0 := by omega
      exact Option.isSome_iff_exists.mpr ⟨_, hdec⟩
  have hcore := submitTail_sameCore htail
  refine ⟨bio, s₁, s₂, s₃, s₃.finish i bio s.clock iover₄, hsame.opcode, hsame.result,
    hsame.expectedResult, hsame.histIdx, hrange, hnlbs, .issue i .plain bio _ hidle rfl hgen,
    .execute i .plain bio bio h₁ (.refl _),
    .unlock i .plain bio s.clock h₂ (by rw [hsame.opcode]; decide), h₃,
    .finish i .plain bio s.clock _ _ h₃ htail rfl, ?_, ?_, ?_, ?_⟩
  · funext j
    rw [finish_live, Function.update_apply]
    by_cases hji : j = i
    · rw [if_pos hji, if_pos hji]
    · simp only [s₃, s₂, s₁, put_live, execute_live, hji, if_false]
  · exact hcore.ns.trans (by rw [show s₃.iover.ns = iover₁.ns from rfl, hiover])
  · apply hcore.lbaLock.trans
    rw [show s₃.iover.lbaLock = unlockLbas iover₁.lbaLock bio.slba bio.nlbs from rfl, hslba, hnlbs,
      hiover]
  · have hx : 0 ∈ bio.range := by rw [hrange]; rfl
    have hdesc := submitTail_blockDesc htail rfl fun _ => hsame.histIdx
    rw [if_pos (show bio.result = 0 from hsame.result)] at hdesc
    change (iover₄.blockDesc 0).state = .data
    rw [hdesc, committedDesc, if_pos ⟨rfl, hx⟩, descAfter, show bio.opcode = .write from hsame.opcode,
      Nat.zero_sub]
    simp only [hdec, writtenDesc]

/-- An orderly run of two jobs on neighbouring LBAs, each half completed while the other is. -/
theorem neighbours_run : ∃ (ls : List (NsLabel Bool)) (s : Ns Bool),
    Run (guarded Step Orderly) (init (Iover.plain .zero)) ls s ∧ s.clock = 3 ∧
      ∀ i, s.live i = none := by
  let zeroes : Bio := .plain .writeZeroes 0 1 fun _ => 0
  let dealloc : Bio := .plain .deallocate 1 1 fun _ => 0
  have hcompare : ∀ (s : Ns Bool) (i : Bool) (bio : Bio),
      s.live i = some ⟨.plain, bio, .issued⟩ → s.Orderly (.execute i bio) := by
    intro s i bio hi _ l hl
    obtain rfl := Option.some.inj (hi.symm.trans hl)
    rfl
  have hlocked : ∀ (s : Ns Bool) (i : Bool) (bio : Bio) (t : ℕ),
      s.live i = some ⟨.plain, bio, .executed t⟩ → takesLock .plain bio = true →
      s.Orderly (.unlock i) := by
    intro s i bio t hi htake l hl hfree
    obtain rfl := Option.some.inj (hi.symm.trans hl)
    exact absurd (htake.symm.trans hfree) (by decide)
  have hcommit : ∀ (s : Ns Bool) (i : Bool) (bio : Bio) (t : ℕ),
      s.live i = some ⟨.plain, bio, .unlocked t⟩ → bio.opcode ≠ .read →
      (∀ l, s.live (!i) = some l → Disjoint bio.range l.bio.range) → s.Orderly (.finish i) := by
    intro s i bio t hi hread hdisj l t' hl ht'
    obtain rfl := Option.some.inj (hi.symm.trans hl)
    refine ⟨fun h => absurd h hread, ?_⟩
    intro _ j lj tj hj htj hlt _
    obtain rfl | rfl := Bool.eq_or_eq_not j i
    · obtain rfl := Option.some.inj (hi.symm.trans hj)
      obtain rfl := BioPhase.unlocked.inj (htj.symm.trans ht')
      exact absurd hlt (lt_irrefl _)
    · exact hdisj lj hj
  have hapart : Disjoint zeroes.range dealloc.range :=
    Set.disjoint_left.mpr fun x hx hx' => absurd (hx.2.trans_le hx'.1) (lt_irrefl _)
  refine ⟨_, _, .cons ⟨?_, .issue false .plain zeroes _ rfl rfl
      (generates_of_free _ (by decide) (by decide) (by decide) (by decide) rfl (by decide))⟩ <|
    .cons ⟨?_, .issue true .plain dealloc _ rfl rfl
      (generates_of_free _ (by decide) (by decide) (by decide) (by decide) rfl (by decide))⟩ <|
    .cons ⟨?_, .execute false .plain zeroes _ rfl (.refl _)⟩ <|
    .cons ⟨?_, .execute true .plain dealloc _ rfl (.refl _)⟩ <|
    .cons ⟨?_, .unlock true .plain dealloc 2 rfl (by decide)⟩ <|
    .cons ⟨?_, .unlock false .plain zeroes 1 rfl (by decide)⟩ <|
    .cons ⟨?_, .finish false .plain zeroes 1 ⟨fun _ => 0, false, 0⟩ _ rfl rfl rfl⟩ <|
    .cons ⟨?_, .finish true .plain dealloc 2 ⟨fun _ => 0, false, 0⟩ _ rfl rfl rfl⟩ <| .nil _,
    rfl, fun i => by cases i <;> rfl⟩
  · trivial
  · trivial
  · exact hcompare _ _ _ rfl
  · exact hcompare _ _ _ rfl
  · exact hlocked _ _ _ _ rfl rfl
  · exact hlocked _ _ _ _ rfl rfl
  · exact hcommit _ _ _ _ rfl (by decide) fun l hl => Option.some.inj hl ▸ hapart
  · exact hcommit _ _ _ _ rfl (by decide) fun l hl => by cases hl

/-- At its end the descriptors of both LBAs are up to date. -/
theorem completion_atomic_neighbours :
    ∃ (ls : List (NsLabel Bool)) (s : Ns Bool),
      Run (guarded Step Orderly) (init (Iover.plain .zero)) ls s ∧ s.clock = 3 ∧
        s.iover.blockDesc 0 = s.last 0 ∧ s.iover.blockDesc 1 = s.last 1 := by
  obtain ⟨ls, s, hrun, hclock, hlive⟩ := neighbours_run
  have hidle : ∀ x, ∀ i l, s.live i = some l → x ∉ l.bio.range := by
    intro x i l hl
    rw [hlive i] at hl
    cases hl
  exact ⟨ls, s, hrun, hclock, (completion_atomic hrun).1 0 (hidle 0),
    (completion_atomic hrun).1 1 (hidle 1)⟩
/-- **The lost update.** One job writes zeroes to LBA 0 and is half completed when another job
deallocates the LBA, from its lock to its commit; the older commit then comes last. -/
theorem completion_not_atomic :
    ∃ (ls : List (NsLabel Bool)) (s : Ns Bool), Run Step (init (Iover.plain .zero)) ls s ∧
      (∀ i, s.live i = none) ∧ s.iover.blockDesc 0 ≠ s.last 0 := by
  let zeroes : Bio := .plain .writeZeroes 0 1 fun _ => 0
  let dealloc : Bio := .plain .deallocate 0 1 fun _ => 0
  refine ⟨_, _, .cons (.issue false .plain zeroes _ rfl rfl
      (generates_of_free _ (by decide) (by decide) (by decide) (by decide) rfl (by decide))) <|
    .cons (.execute false .plain zeroes zeroes rfl (.refl _)) <|
    .cons (.unlock false .plain zeroes 1 rfl (by decide)) <|
    .cons (.issue true .plain dealloc _ rfl rfl
      (generates_of_free _ (by decide) (by decide) (by decide) (by decide) rfl (by decide))) <|
    .cons (.execute true .plain dealloc dealloc rfl (.refl _)) <|
    .cons (.unlock true .plain dealloc 2 rfl (by decide)) <|
    .cons (.finish true .plain dealloc 2 ⟨fun _ => 0, false, 0⟩ _ rfl rfl rfl) <|
    .cons (.finish false .plain zeroes 1 ⟨fun _ => 0, false, 0⟩ _ rfl rfl rfl) <| .nil _, ?_, ?_⟩
  · intro i
    cases i <;> rfl
  · decide
end Ns

end ChamberSpo

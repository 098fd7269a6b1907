import ChamberSpo.LbaLock
import ChamberSpo.Ownership
import ChamberSpo.Transition

/-!
# Mutual exclusion of the LBA lock

Any number of callers run `try_lock_lbas` and `unlock_lbas` on one bitmap, their atomic
operations interleaved in any order. A caller unlocks only what it locked.

* `LockSystem.Step` — the interleaving; each label names the caller that moves.
* `LockSystem.Inv` — the bitmap is partitioned: the bits of each caller's progress
  (`LockCaller.own`) are set, no two callers share one, and there are no others.
* `LockSystem.Step.others` — a caller's step changes nothing another caller has acquired.
-/

namespace ChamberSpo

open Bitmap

/-- A caller and the call it is in, or was last in. -/
structure LockCaller where
  slba : ℕ
  nlbs : ℕ
  pc : LockPc

/-- The bitmap and its callers. -/
structure LockSystem (ι : Type*) where
  lbaLock : LockWords
  callers : ι → LockCaller

/-- Which caller moves, and how. -/
inductive LockLabel (ι : Type*) where
  /-- it calls `try_lock_lbas` -/
  | tryLock (i : ι) (slba nlbs : ℕ)
  /-- it calls `unlock_lbas` -/
  | unlock (i : ι)
  /-- it runs the next atomic operation of its call -/
  | op (i : ι)

/-- The bits a caller has acquired and not yet released. -/
def LockCaller.own (c : LockCaller) : Set ℕ := lockOwn c.slba c.nlbs c.pc

/-- The LBAs behind these bits: the whole range of a caller that holds the lock, what is
acquired so far inside `try_lock_lbas`, what is not yet released inside `unlock_lbas`. -/
def LockCaller.lbas (c : LockCaller) : Set ℕ :=
  match c.pc with
  | .lockLoad r | .lockCas r _ | .rollbackLoad r | .rollbackCas r _ =>
    Set.Ico c.slba (c.slba + r.lbaOffset)
  | .locked => Set.Ico c.slba (c.slba + c.nlbs)
  | .unlockLoad r | .unlockCas r _ => Set.Ico (c.slba + r.lbaOffset) (c.slba + c.nlbs)
  | .idle | .failed | .unlocked => ∅

/-- What holds of a caller on a namespace of `N` LBAs. -/
structure LockCaller.Ok (N : ℕ) (c : LockCaller) : Prop where
  /-- the registers are at a word boundary of the range -/
  valid : c.pc.Valid c.slba c.nlbs
  /-- `bio->nlbs` is a `u32` -/
  nlbs_lt : c.nlbs < 2 ^ 32
  /-- the range lies in the namespace -/
  range : c.slba + c.nlbs ≤ N

/-- In a namespace of fewer than `2 ^ 38` LBAs the bits of a caller are its LBAs. -/
theorem LockCaller.Ok.own_eq_lbas {N : ℕ} {c : LockCaller} (h : c.Ok N) (hN : N < 2 ^ 38) :
    c.own = c.lbas := by
  obtain ⟨slba, nlbs, pc⟩ := c
  obtain ⟨hvalid, -, hrange⟩ := h
  simp only at hrange
  have acquired : ∀ n ≤ nlbs, lockBits slba n = Set.Ico slba (slba + n) := fun n hn =>
    lockBits_eq_Ico (by omega)
  have kept : ∀ n < nlbs, lockBits (slba + n) (nlbs - n) = Set.Ico (slba + n) (slba + nlbs) :=
    fun n hn => by rw [lockBits_eq_Ico (by omega), show slba + n + (nlbs - n) = slba + nlbs by omega]
  simp only [LockCaller.own, LockCaller.lbas]
  cases pc with
  | lockLoad r => exact acquired _ (ForwardAt.lt hvalid).le
  | lockCas r unlock => exact acquired _ (ForwardAt.lt hvalid.1).le
  | rollbackLoad r => exact acquired _ (RollbackAt.le hvalid)
  | rollbackCas r lock => exact acquired _ (RollbackAt.le hvalid)
  | locked => exact acquired _ le_rfl
  | unlockLoad r => exact kept _ (ForwardAt.lt hvalid)
  | unlockCas r lock => exact kept _ (ForwardAt.lt hvalid)
  | idle => rfl
  | failed => rfl
  | unlocked => rfl

namespace LockSystem

variable {ι : Type*} [DecidableEq ι] {N : ℕ} {s s' : LockSystem ι} {l : LockLabel ι}

/-- Caller `i` does something: its call goes on to `pc`, the bitmap becomes `mem`. -/
def move (s : LockSystem ι) (i : ι) (c : LockCaller) (mem : LockWords) : LockSystem ι :=
  { lbaLock := mem, callers := Function.update s.callers i c }

/-- The steps of the system on a namespace of `N` LBAs. -/
inductive Step (N : ℕ) (s : LockSystem ι) : LockLabel ι → LockSystem ι → Prop
  /-- a caller that is in no call and holds nothing calls `try_lock_lbas` -/
  | tryLock (i : ι) (slba nlbs : ℕ) :
    (s.callers i).pc.done = true → (s.callers i).pc ≠ .locked →
    nlbs < 2 ^ 32 → slba + nlbs ≤ N →
    Step N s (.tryLock i slba nlbs)
      (s.move i ⟨slba, nlbs, lockLoop nlbs (firstWord slba)⟩ s.lbaLock)
  /-- a caller that holds the lock releases its range -/
  | unlock (i : ι) :
    (s.callers i).pc = .locked →
    Step N s (.unlock i)
      (s.move i ⟨(s.callers i).slba, (s.callers i).nlbs,
        unlockLoop (s.callers i).nlbs (firstWord (s.callers i).slba)⟩ s.lbaLock)
  /-- an atomic operation -/
  | op (i : ι) :
    (s.callers i).pc.done = false →
    Step N s (.op i)
      (s.move i ⟨(s.callers i).slba, (s.callers i).nlbs,
        (lockStep (s.callers i).slba (s.callers i).nlbs s.lbaLock (s.callers i).pc).1⟩
        (lockStep (s.callers i).slba (s.callers i).nlbs s.lbaLock (s.callers i).pc).2)

/-- Nothing is locked and nobody has called yet. -/
def init : LockSystem ι := { lbaLock := fun _ => 0, callers := fun _ => ⟨0, 0, .idle⟩ }

/-- What holds of the system between any two atomic operations. -/
structure Inv (N : ℕ) (s : LockSystem ι) : Prop where
  /-- every call is in order -/
  ok : ∀ i, (s.callers i).Ok N
  /-- the callers share no bit, and what they have is set -/
  owns : Owns (bits s.lbaLock) fun i => (s.callers i).own
  /-- nothing else is set -/
  covers : Covers (bits s.lbaLock) fun i => (s.callers i).own

@[simp] theorem move_self (i : ι) (c : LockCaller) (mem : LockWords) :
    (s.move i c mem).callers i = c := Function.update_self ..

theorem move_of_ne {i j : ι} (h : j ≠ i) (c : LockCaller) (mem : LockWords) :
    (s.move i c mem).callers j = s.callers j := Function.update_of_ne h ..

/-- A move that changes the bitmap only in what the caller has keeps the invariant. -/
theorem Inv.move (h : s.Inv N) (i : ι) {c : LockCaller} {mem : LockWords} (hc : c.Ok N)
    (hrest : bits s.lbaLock \ (s.callers i).own = bits mem \ c.own)
    (hheld : c.own ⊆ bits mem) : (s.move i c mem).Inv N := by
  refine ⟨?_, ?_, ?_⟩
  · intro j
    by_cases hji : j = i
    · rw [hji, move_self]; exact hc
    · rw [move_of_ne hji]; exact h.ok j
  · refine h.owns.exchange i ?_ ?_ fun j hji => by rw [move_of_ne hji]
    · rw [move_self]; exact hrest
    · rw [move_self]; exact hheld
  · refine h.covers.exchange i ?_ fun j hji => by rw [move_of_ne hji]
    rw [move_self]; exact hrest

omit [DecidableEq ι] in
theorem inv_init : (init : LockSystem ι).Inv N where
  ok _ := ⟨trivial, Nat.two_pow_pos 32, Nat.zero_le N⟩
  owns := by
    rw [init, bits_zero]
    exact .empty fun _ => rfl
  covers := by
    rw [init, bits_zero]
    exact .empty

/-- **Every step keeps the invariant.** -/
theorem Inv.step (h : s.Inv N) (hs : Step N s l s') : s'.Inv N := by
  cases hs with
  | tryLock i slba nlbs hdone hfree hnlbs hrange =>
    -- neither a caller outside of a call that is not holding nor one at the entry has a bit
    have hown : (s.callers i).own = ∅ := by
      simp only [LockCaller.own]
      cases hpc : (s.callers i).pc <;> simp only [hpc, LockPc.done, reduceCtorEq] at hdone
      case locked => exact absurd hpc hfree
      all_goals rfl
    refine h.move i ⟨lockLoop_valid forwardAt_firstWord, hnlbs, hrange⟩ ?_ ?_
    · rw [hown, LockCaller.own, lockOwn_entry]
    · rw [LockCaller.own, lockOwn_entry]
      exact Set.empty_subset _
  | unlock i hpc =>
    have hown : (s.callers i).own = lockBits (s.callers i).slba (s.callers i).nlbs := by
      rw [LockCaller.own, hpc, lockOwn]
    refine h.move i ⟨unlockLoop_valid forwardAt_firstWord, (h.ok i).nlbs_lt, (h.ok i).range⟩ ?_ ?_
    · rw [hown, LockCaller.own, lockOwn_unlockEntry]
    · rw [LockCaller.own, lockOwn_unlockEntry, ← hown]
      exact h.owns.sub i
  | op i hdone =>
    obtain ⟨hvalid, hnlbs, hrange⟩ := h.ok i
    exact h.move i ⟨lockStep_valid hvalid, hnlbs, hrange⟩ (lockStep_rest hvalid).symm
      (lockStep_held hnlbs hvalid (h.owns.sub i))

/-- Every reachable state satisfies the invariant. -/
theorem inv_of_run {ls : List (LockLabel ι)} (h : Run (Step N) init ls s) : s.Inv N :=
  h.invariant (fun _ _ _ hi hs => hi.step hs) inv_init

/-- **A step of one caller leaves the others alone**: they are where they were, and every bit
they have acquired is still set. -/
theorem Step.others {i j : ι} (h : s.Inv N) (hs : Step N s (.op i) s') (hji : j ≠ i) :
    s'.callers j = s.callers j ∧ (s.callers j).own ⊆ bits s'.lbaLock := by
  have h' := h.step hs
  cases hs with
  | op i hdone =>
    refine ⟨move_of_ne hji .., ?_⟩
    have hsub := h'.owns.sub j
    rwa [move_of_ne hji] at hsub

/-- **Mutual exclusion at compare-and-swap granularity.** In every reachable state no two
callers that hold the lock have overlapping ranges; an atomic operation of one caller, be it of
a rollback or of an unlock, clears no bit of another; the bitmap is the union of what the
callers have; and a call that runs alone returns `0` exactly when its range is free, else `-1`
with the bitmap unchanged. -/
theorem mutual_exclusion (hN : N < 2 ^ 38) {ls : List (LockLabel ι)}
    (hrun : Run (Step N) init ls s) :
    (∀ i j, i ≠ j → (s.callers i).pc = .locked → (s.callers j).pc = .locked →
      Disjoint (Set.Ico (s.callers i).slba ((s.callers i).slba + (s.callers i).nlbs))
        (Set.Ico (s.callers j).slba ((s.callers j).slba + (s.callers j).nlbs)))
    ∧ (∀ i s', Step N s (.op i) s' → ∀ j, j ≠ i →
      (s'.callers j).lbas = (s.callers j).lbas ∧ (s.callers j).lbas ⊆ bits s'.lbaLock)
    ∧ bits s.lbaLock = ⋃ i, (s.callers i).lbas
    ∧ ∀ mem slba nlbs, nlbs < 2 ^ 32 → slba + nlbs ≤ N →
      ((∃ mem', runAlone slba nlbs (lockFuel nlbs) (lockLoop nlbs (firstWord slba)) mem
            = (.locked, mem')) ↔ Disjoint (Set.Ico slba (slba + nlbs)) (bits mem))
      ∧ (¬ Disjoint (Set.Ico slba (slba + nlbs)) (bits mem) →
          runAlone slba nlbs (lockFuel nlbs) (lockLoop nlbs (firstWord slba)) mem
            = (.failed, mem)) := by
  have hinv := inv_of_run hrun
  refine ⟨?_, ?_, ?_, ?_⟩
  · intro i j hij hi hj
    have hdisj := hinv.owns.disj i j hij
    rwa [(hinv.ok i).own_eq_lbas hN, (hinv.ok j).own_eq_lbas hN, LockCaller.lbas, LockCaller.lbas, hi, hj]
      at hdisj
  · intro i s' hs j hji
    obtain ⟨hsame, hsub⟩ := hs.others hinv hji
    rw [hsame, ← (hinv.ok j).own_eq_lbas hN]
    exact ⟨rfl, hsub⟩
  · rw [hinv.owns.eq_iUnion hinv.covers]
    exact Set.iUnion_congr fun i => (hinv.ok i).own_eq_lbas hN
  · intro mem slba nlbs hn hr
    rw [← lockBits_eq_Ico (by omega)]
    rcases runAlone_lockLoop hn mem with ⟨mem', hend, hfree, -⟩ | ⟨hend, hconf⟩
    · exact ⟨⟨fun _ => hfree, fun _ => ⟨mem', hend⟩⟩, fun hconf => absurd hfree hconf⟩
    · refine ⟨⟨fun ⟨mem', hend'⟩ => ?_, fun hfree => absurd hfree hconf⟩, fun _ => hend⟩
      rw [hend] at hend'
      cases hend'

/-- Two callers on a range that spans two words, the first one past its first swap. -/
theorem mutual_exclusion_two_callers :
    ∃ (ls : List (LockLabel Bool)) (s : LockSystem Bool), Run (Step 128) init ls s ∧
      ls.length = 4 ∧ bits s.lbaLock = ⋃ i, (s.callers i).lbas := by
  have hrun : Run (Step 128) (init : LockSystem Bool)
      [.tryLock true 60 10, .op true, .tryLock false 64 64, .op true] _ :=
    .cons (.tryLock true 60 10 rfl (by decide) (by decide) (by decide)) <|
      .cons (.op true rfl) <|
        .cons (.tryLock false 64 64 rfl (by decide) (by decide) (by decide)) <|
          .cons (.op true rfl) (.nil _)
  exact ⟨_, _, hrun, rfl, (mutual_exclusion (by decide) hrun).2.2.1⟩

end LockSystem

end ChamberSpo

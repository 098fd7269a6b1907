import ChamberSpo.LbaLockCas
import ChamberSpo.Submit

/-!
# The timestamps of write bios

The jobs of a namespace share `iover->timestamp`. A write bio increments it, and reads it again
for each of its blocks.

* `TimestampSystem.Step` — any number of calls of `iover_generate_data`, interleaved. Reading,
  incrementing and writing back are steps of their own, and so is each later read. The lock is
  taken and released by the atomic operations of `LockSystem`.
* `UniqueTimestamps` — the timestamps that stand in the blocks tell write bios apart.
* `TimestampSystem.Undisturbed` — the steps that do not take the counter from under another call.
* `TimestampSystem.Inv` — what holds between two steps of this kind.
-/

namespace ChamberSpo

/-- Where a call of `iover_generate_data` stands. -/
inductive GenPc where
  /-- in `try_lock_lbas`, or behind it -/
  | locking
  /-- `iover->timestamp` is read -/
  | increment (timestamp : BitVec 64)
  /-- it is incremented -/
  | writeBack (timestamp : BitVec 64)
  /-- at the head of the loop over the blocks -/
  | block (lbaOffset : ℕ)
  /-- the pattern of the block is computed -/
  | fill (lbaOffset : ℕ) (pattern : Byte)
  /-- it has returned -/
  | done

/-- A bio and the call of `iover_generate_data` for it. `escape` says for which blocks
`rand() % 10` was zero. -/
structure Generation where
  bio : Bio
  escape : ℕ → Bool
  pc : GenPc

/-- The call is past its first access to the timestamp. -/
def Generation.active (g : Generation) : Bool :=
  match g.pc with
  | .locking | .done => false
  | .increment _ | .writeBack _ | .block _ | .fill _ _ => true

/-- The call has read the timestamp for its first block, and has another block to read it for. -/
def Generation.MidBio (g : Generation) : Prop :=
  match g.pc with
  | .block lbaOffset => 0 < lbaOffset ∧ lbaOffset < g.bio.nlbs
  | .fill lbaOffset _ => 0 < lbaOffset
  | .locking | .increment _ | .writeBack _ | .done => False

/-- The bio after a turn of the loop. -/
def fillBioBlock (iover : Iover) (bio : Bio) (escape : ℕ → Bool) (pattern : Byte)
    (lbaOffset : ℕ) : Bio :=
  let bufs := fillBlock iover bio escape pattern { data := bio.data, metaBuf := bio.metaBuf }
    lbaOffset
  { bio with data := bufs.data, metaBuf := bufs.metaBuf }

/-- Which slot moves, and how. The slots `ι` are the bios of the pools of all jobs. -/
inductive TimestampLabel (ι : Type*) where
  /-- `iover_generate_data` is called, and with it `try_lock_lbas` -/
  | generate (i : ι) (bio : Bio) (escape : ℕ → Bool)
  /-- an atomic operation of the lock -/
  | lockOp (i : ι)
  | read (i : ι)
  | increment (i : ι)
  | writeBack (i : ι)
  /-- the timestamp is read for the pattern -/
  | pattern (i : ι)
  /-- the timestamp is read for the data -/
  | fill (i : ι)
  | finish (i : ι)
  /-- the bio has completed, and `unlock_lbas` is called -/
  | unlock (i : ι)

/-- The jobs of a namespace, in non-overlap mode and with compare on. -/
structure TimestampSystem (ι : Type*) where
  lock : LockSystem ι
  /-- `iover->timestamp` -/
  timestamp : BitVec 64
  gens : ι → Generation
  /-- the write bios whose calls have returned, oldest first -/
  written : List Bio

/-- The timestamp that stands in a block of a bio. -/
def blockTimestamp (iover : Iover) (bio : Bio) (lbaOffset : ℕ) : Option (BitVec 64) :=
  (datagenGetHeader iover.datagen (blockData iover bio lbaOffset)).map (·.timestamp)

/-- **Timestamps tell write bios apart**: a bio has one in all its blocks, and no two have the
same on an LBA. -/
structure UniqueTimestamps (iover : Iover) (written : List Bio) : Prop where
  one : ∀ bio ∈ written, ∃ timestamp, ∀ o < bio.nlbs, blockTimestamp iover bio o = some timestamp
  unique : written.Pairwise fun bio bio' => ∀ x ∈ bio.range, x ∈ bio'.range →
    blockTimestamp iover bio (x - bio.slba) ≠ blockTimestamp iover bio' (x - bio'.slba)

/-! ## Blocks -/

section Blocks

variable {iover : Iover} {bio : Bio} {escape : ℕ → Bool} {pattern : Byte} {o : ℕ}

/-- Where a block stands does not depend on the data. -/
theorem blockData_fillBioBlock (k : ℕ) :
    blockData iover (fillBioBlock iover bio escape pattern o) k
      = (fillBlock iover bio escape pattern ⟨bio.data, bio.metaBuf⟩ o).data.shift
        (getBlockSize iover bio * k) := rfl

/-- **A block gets the timestamp** that is read for it. -/
theorem blockTimestamp_fillBioBlock (iover : Iover) (bio : Bio) (escape : ℕ → Bool)
    (hp : pattern.toNat < iover.datagen.npatterns) (o : ℕ) :
    blockTimestamp iover (fillBioBlock iover bio escape pattern o) o = some iover.timestamp := by
  have hdata := (fillBlock_data iover bio escape pattern ⟨bio.data, bio.metaBuf⟩ o).1
  have hsame : datagenGetHeader iover.datagen
      (blockData iover (fillBioBlock iover bio escape pattern o) o)
      = datagenGetHeader iover.datagen (datagenSetData iover.datagen (fun _ => 0)
        (BitVec.ofNat 64 (bio.slba + o)) iover.timestamp pattern) :=
    datagenGetHeader_congr fun i hi => hdata i (iover.datagen_dataSize ▸ hi)
  rw [blockTimestamp, hsame, datagenGetHeader_setData _ hp]
  rfl

/-- The blocks before it stay as they are. -/
theorem blockTimestamp_fillBioBlock_of_lt (iover : Iover) (bio : Bio) (escape : ℕ → Bool)
    (pattern : Byte) {k : ℕ} (hk : k < o) :
    blockTimestamp iover (fillBioBlock iover bio escape pattern o) k
      = blockTimestamp iover bio k := by
  have hdata := (fillBlock_data iover bio escape pattern ⟨bio.data, bio.metaBuf⟩ o).2
  have hsize := dataSize_le_getBlockSize iover bio
  have hmul := Nat.mul_le_mul_left (getBlockSize iover bio) (Nat.succ_le_of_lt hk)
  rw [Nat.mul_succ] at hmul
  rw [blockTimestamp, blockTimestamp, blockData_fillBioBlock]
  congr 1
  refine datagenGetHeader_congr ?_
  intro i hi
  rw [iover.datagen_dataSize] at hi
  exact hdata _ (by omega)

end Blocks

namespace TimestampSystem

variable {ι : Type*} [DecidableEq ι]

/-- Slot `i` goes on. -/
def put (s : TimestampSystem ι) (i : ι) (g : Generation) : TimestampSystem ι :=
  { s with gens := Function.update s.gens i g }

@[simp] theorem put_self (s : TimestampSystem ι) (i : ι) (g : Generation) :
    (s.put i g).gens i = g := Function.update_self ..

theorem put_of_ne (s : TimestampSystem ι) {i j : ι} (h : j ≠ i) (g : Generation) :
    (s.put i g).gens j = s.gens j := Function.update_of_ne h ..

/-- The steps on a namespace of `N` LBAs. What `iover` has besides the timestamp stays as it
is. -/
inductive Step (iover : Iover) (N : ℕ) (s : TimestampSystem ι) :
    TimestampLabel ι → TimestampSystem ι → Prop
  | generate (i : ι) (bio : Bio) (escape : ℕ → Bool) (lock : LockSystem ι) :
    s.lock.Step N (.tryLock i bio.slba bio.nlbs) lock →
    Step iover N s (.generate i bio escape) { s.put i ⟨bio, escape, .locking⟩ with lock := lock }
  | lockOp (i : ι) (lock : LockSystem ι) :
    s.lock.Step N (.op i) lock → Step iover N s (.lockOp i) { s with lock := lock }
  | read (i : ι) :
    (s.lock.callers i).pc = .locked → (s.gens i).pc = .locking →
    (s.gens i).bio.opcode = .write →
    Step iover N s (.read i)
      (s.put i ⟨setTags iover (s.gens i).bio, (s.gens i).escape, .increment s.timestamp⟩)
  | increment (i : ι) (timestamp : BitVec 64) :
    (s.gens i).pc = .increment timestamp →
    Step iover N s (.increment i) (s.put i { s.gens i with pc := .writeBack (timestamp + 1) })
  | writeBack (i : ι) (timestamp : BitVec 64) :
    (s.gens i).pc = .writeBack timestamp →
    Step iover N s (.writeBack i)
      { s.put i { s.gens i with pc := .block 0 } with timestamp := timestamp }
  | pattern (i : ι) (o : ℕ) :
    (s.gens i).pc = .block o → o < (s.gens i).bio.nlbs →
    Step iover N s (.pattern i) (s.put i { s.gens i with
      pc := .fill o (writePattern { iover with timestamp := s.timestamp }
        ((s.gens i).bio.slba + o)) })
  | fill (i : ι) (o : ℕ) (pattern : Byte) :
    (s.gens i).pc = .fill o pattern →
    Step iover N s (.fill i) (s.put i ⟨fillBioBlock { iover with timestamp := s.timestamp }
      (s.gens i).bio (s.gens i).escape pattern o, (s.gens i).escape, .block (o + 1)⟩)
  | finish (i : ι) (o : ℕ) :
    (s.gens i).pc = .block o → (s.gens i).bio.nlbs ≤ o →
    Step iover N s (.finish i)
      { s.put i { s.gens i with pc := .done } with written := s.written ++ [(s.gens i).bio] }
  | unlock (i : ι) (lock : LockSystem ι) :
    s.lock.Step N (.unlock i) lock →
    ((s.gens i).pc = .done ∨ (s.gens i).bio.opcode ≠ .write) →
    Step iover N s (.unlock i) { s with lock := lock }

/-- The verifier at its start, with the pools of the jobs. -/
def init (iover : Iover) (bios : ι → Bio) : TimestampSystem ι where
  lock := LockSystem.init
  timestamp := iover.timestamp
  gens i := ⟨bios i, fun _ => false, .done⟩
  written := []

/-- A call that writes the timestamp back does not take it down, and if it takes it up no call is
in the middle of its blocks. -/
def Undisturbed (s : TimestampSystem ι) : TimestampLabel ι → Prop
  | .writeBack i =>
    match (s.gens i).pc with
    | .writeBack timestamp => s.timestamp ≤ timestamp ∧
      (timestamp = s.timestamp ∨ ∀ j, ¬ (s.gens j).MidBio)
    | .locking | .increment _ | .block _ | .fill _ _ | .done => True
  | .generate _ _ _ | .lockOp _ | .read _ | .increment _ | .pattern _ | .fill _ | .finish _
  | .unlock _ => True

/-! ## One step -/

/-- What the log has on the LBAs of a bio is from before `n`. -/
def Before (iover : Iover) (written : List Bio) (bio : Bio) (n : ℕ) : Prop :=
  ∀ a ∈ written, ∀ x ∈ a.range, x ∈ bio.range → ∀ t, blockTimestamp iover a (x - a.slba) = some t →
    t.toNat < n

/-- The first `o` blocks of a bio have one timestamp, that of the counter if there are more to
come. -/
def Filled (iover : Iover) (written : List Bio) (timestamp : BitVec 64) (bio : Bio) (o : ℕ) :
    Prop :=
  0 < o → ∃ t, (∀ k < o, blockTimestamp iover bio k = some t) ∧ t.toNat ≤ timestamp.toNat ∧
    (o < bio.nlbs → t = timestamp) ∧ Before iover written bio t.toNat

/-- What holds of a call, where the counter is `timestamp`. -/
def GenOk (iover : Iover) (written : List Bio) (timestamp : BitVec 64) (g : Generation) : Prop :=
  match g.pc with
  | .locking | .done => True
  | .increment t => t.toNat ≤ timestamp.toNat ∧ Before iover written g.bio (t.toNat + 1)
  | .writeBack t =>
    (t - 1).toNat ≤ timestamp.toNat ∧ Before iover written g.bio ((t - 1).toNat + 1)
  | .block o => o ≤ g.bio.nlbs ∧ Before iover written g.bio timestamp.toNat ∧
    Filled iover written timestamp g.bio o
  | .fill o pattern => o < g.bio.nlbs ∧ pattern.toNat < iover.datagen.npatterns ∧
    Before iover written g.bio timestamp.toNat ∧ Filled iover written timestamp g.bio o

/-- What holds between two steps. -/
structure Inv (iover : Iover) (N : ℕ) (s : TimestampSystem ι) : Prop where
  lock : s.lock.Inv N
  /-- a call that is past its first access holds the lock -/
  held : ∀ i, (s.gens i).active = true → (s.lock.callers i).pc = .locked
  /-- its bio is a write -/
  write : ∀ i, (s.gens i).active = true → (s.gens i).bio.opcode = .write
  /-- the lock of a call is that of its bio -/
  range : ∀ i, (s.gens i).pc ≠ .done →
    (s.lock.callers i).slba = (s.gens i).bio.slba ∧ (s.lock.callers i).nlbs = (s.gens i).bio.nlbs
  unique : UniqueTimestamps iover s.written
  /-- the counter has been at every timestamp -/
  bounded : ∀ bio ∈ s.written, ∀ o < bio.nlbs, ∀ t, blockTimestamp iover bio o = some t →
    t.toNat ≤ s.timestamp.toNat
  gens : ∀ i, GenOk iover s.written s.timestamp (s.gens i)

section Calls

variable {iover : Iover} {written : List Bio} {timestamp timestamp' : BitVec 64} {bio : Bio}
  {g : Generation} {n n' : ℕ}

theorem Before.mono (h : Before iover written bio n) (hle : n ≤ n') :
    Before iover written bio n' :=
  fun a ha x hx hx' t ht => Nat.lt_of_lt_of_le (h a ha x hx hx' t ht) hle

theorem Before.append {a : Bio} (h : Before iover written bio n)
    (hdisj : ∀ x ∈ a.range, x ∉ bio.range) : Before iover (written ++ [a]) bio n := by
  intro a' ha' x hx hx' t ht
  rcases List.mem_append.mp ha' with hold | hnew
  · exact h a' hold x hx hx' t ht
  · obtain rfl := List.mem_singleton.mp hnew
    exact absurd hx' (hdisj x hx)

/-- **The counter goes up**, and no call is in the middle of its blocks. -/
theorem GenOk.mono (h : GenOk iover written timestamp g) (hle : timestamp ≤ timestamp')
    (hmid : timestamp' = timestamp ∨ ¬ g.MidBio) : GenOk iover written timestamp' g := by
  have hnat : timestamp.toNat ≤ timestamp'.toNat := hle
  have hfilled : ∀ o, (0 < o → o < g.bio.nlbs → timestamp' = timestamp) →
      Filled iover written timestamp g.bio o → Filled iover written timestamp' g.bio o := by
    intro o hsame hf ho
    obtain ⟨t, hall, ht, heq, hbefore⟩ := hf ho
    exact ⟨t, hall, ht.trans hnat, fun hlt => (heq hlt).trans (hsame ho hlt).symm, hbefore⟩
  simp only [GenOk, Generation.MidBio] at *
  cases hpc : g.pc with
  | locking => trivial
  | done => trivial
  | increment t =>
    simp only [hpc] at h ⊢
    exact ⟨h.1.trans hnat, h.2⟩
  | writeBack t =>
    simp only [hpc] at h ⊢
    exact ⟨h.1.trans hnat, h.2⟩
  | block o =>
    simp only [hpc] at h hmid ⊢
    exact ⟨h.1, h.2.1.mono hnat,
      hfilled o (fun ho hlt => hmid.resolve_right fun hno => hno ⟨ho, hlt⟩) h.2.2⟩
  | fill o pattern =>
    simp only [hpc] at h hmid ⊢
    exact ⟨h.1, h.2.1, h.2.2.1.mono hnat,
      hfilled o (fun ho _ => hmid.resolve_right fun hno => hno ho) h.2.2.2⟩

/-- A write bio of other LBAs is added to the log. -/
theorem GenOk.append {a : Bio} (h : GenOk iover written timestamp g)
    (hdisj : g.active = true → ∀ x ∈ a.range, x ∉ g.bio.range) :
    GenOk iover (written ++ [a]) timestamp g := by
  have hfilled : ∀ o, g.active = true → Filled iover written timestamp g.bio o →
      Filled iover (written ++ [a]) timestamp g.bio o := by
    intro o hact hf ho
    obtain ⟨t, hall, ht, heq, hbefore⟩ := hf ho
    exact ⟨t, hall, ht, heq, hbefore.append (hdisj hact)⟩
  simp only [GenOk, Generation.active] at *
  cases hpc : g.pc with
  | locking => trivial
  | done => trivial
  | increment t =>
    simp only [hpc] at h hdisj ⊢
    exact ⟨h.1, h.2.append (hdisj trivial)⟩
  | writeBack t =>
    simp only [hpc] at h hdisj ⊢
    exact ⟨h.1, h.2.append (hdisj trivial)⟩
  | block o =>
    simp only [hpc] at h hdisj hfilled ⊢
    exact ⟨h.1, h.2.1.append (hdisj trivial), hfilled o trivial h.2.2⟩
  | fill o pattern =>
    simp only [hpc] at h hdisj hfilled ⊢
    exact ⟨h.1, h.2.1, h.2.2.1.append (hdisj trivial), hfilled o trivial h.2.2.2⟩

end Calls

section Steps

variable {iover : Iover} {N : ℕ} {s s' : TimestampSystem ι} {i j : ι}

omit [DecidableEq ι] in
/-- **Two calls that are past their first access** have no LBA in common. -/
theorem Inv.disjoint (h : s.Inv iover N) (hi : (s.gens i).active = true)
    (hj : (s.gens j).active = true) (hij : i ≠ j) {x : ℕ} (hx : x ∈ (s.gens i).bio.range) :
    x ∉ (s.gens j).bio.range := by
  intro hx'
  have hown : ∀ k, (s.gens k).active = true → x ∈ (s.gens k).bio.range →
      x % 2 ^ 38 ∈ (s.lock.callers k).own := by
    intro k hk hmem
    have hne : (s.gens k).pc ≠ .done := by
      intro hdone
      rw [Generation.active, hdone] at hk
      cases hk
    obtain ⟨hslba, hnlbs⟩ := h.range k hne
    rw [LockCaller.own, h.held k hk, hslba, hnlbs]
    exact mem_lockBits_of_mem hmem
  exact Set.disjoint_left.mp (h.lock.owns.disj i j hij) (hown i hi hx) (hown j hj hx')

/-- The lock goes on, but not for a call that is past its first access. -/
theorem Inv.lockStep (h : s.Inv iover N) {l : LockLabel ι} {lock : LockSystem ι}
    (hs : s.lock.Step N l lock) (hl : ∀ k, l = .unlock k → (s.gens k).active = false)
    (hl' : ∀ k slba nlbs, l ≠ .tryLock k slba nlbs) : Inv iover N { s with lock := lock } := by
  have hcaller : ∀ k, (lock.callers k).slba = (s.lock.callers k).slba ∧
      (lock.callers k).nlbs = (s.lock.callers k).nlbs ∧
      ((s.gens k).active = true → (lock.callers k).pc = .locked) := by
    intro k
    cases hs with
    | tryLock i slba nlbs => exact absurd rfl (hl' i slba nlbs)
    | unlock i hpc =>
      by_cases hki : k = i
      · subst hki
        rw [LockSystem.move_self]
        refine ⟨rfl, rfl, ?_⟩
        intro hact
        rw [hl k rfl] at hact
        cases hact
      · rw [LockSystem.move_of_ne hki]
        exact ⟨rfl, rfl, h.held k⟩
    | op i hdone =>
      by_cases hki : k = i
      · subst hki
        rw [LockSystem.move_self]
        refine ⟨rfl, rfl, ?_⟩
        intro hact
        rw [h.held k hact] at hdone
        cases hdone
      · rw [LockSystem.move_of_ne hki]
        exact ⟨rfl, rfl, h.held k⟩
  refine ⟨h.lock.step hs, fun k => (hcaller k).2.2, h.write, fun k hk => ?_, h.unique, h.bounded,
    h.gens⟩
  obtain ⟨hslba, hnlbs, -⟩ := hcaller k
  obtain ⟨hslba', hnlbs'⟩ := h.range k hk
  exact ⟨hslba.trans hslba', hnlbs.trans hnlbs'⟩

/-- A call goes on, and the counter with it; the lock and the log stay. -/
theorem Inv.advance (h : s.Inv iover N) {g : Generation} {timestamp : BitVec 64}
    (hcmd : g.bio.slba = (s.gens i).bio.slba ∧ g.bio.nlbs = (s.gens i).bio.nlbs)
    (hop : g.bio.opcode = .write) (hlock : (s.lock.callers i).pc = .locked) (hpc : (s.gens i).pc ≠ .done)
    (hle : s.timestamp ≤ timestamp)
    (hmid : timestamp = s.timestamp ∨ ∀ j, ¬ (s.gens j).MidBio)
    (hg : GenOk iover s.written timestamp g) :
    Inv iover N { s.put i g with timestamp := timestamp } := by
  refine ⟨h.lock, fun k hk => ?_, fun k hk => ?_, fun k hk => ?_, h.unique, fun bio hb o ho t ht =>
    (h.bounded bio hb o ho t ht).trans hle, fun k => ?_⟩
  · by_cases hki : k = i
    · exact hki ▸ hlock
    · exact h.held k (by rwa [← put_of_ne s hki g])
  · change ((s.put i g).gens k).bio.opcode = .write
    by_cases hki : k = i
    · subst hki
      rwa [put_self]
    · rw [put_of_ne s hki g]
      exact h.write k (by rwa [← put_of_ne s hki g])
  · by_cases hki : k = i
    · subst hki
      change _ = ((s.put k g).gens k).bio.slba ∧ _ = ((s.put k g).gens k).bio.nlbs
      rw [put_self, hcmd.1, hcmd.2]
      exact h.range k hpc
    · change _ = ((s.put i g).gens k).bio.slba ∧ _ = ((s.put i g).gens k).bio.nlbs
      rw [put_of_ne s hki g]
      exact h.range k (by rwa [← put_of_ne s hki g])
  · change GenOk iover s.written timestamp ((s.put i g).gens k)
    by_cases hki : k = i
    · subst hki
      rw [put_self]
      exact hg
    · rw [put_of_ne s hki g]
      exact (h.gens k).mono hle (hmid.imp_right fun hno => hno k)

/-- Slot `i` goes to a call that is not past its first access. -/
theorem active_put {g : Generation} (hg : g.active = false)
    (hj : ((s.put i g).gens j).active = true) : j ≠ i ∧ (s.gens j).active = true := by
  by_cases hji : j = i
  · subst hji
    rw [put_self, hg] at hj
    cases hj
  · rw [put_of_ne s hji] at hj
    exact ⟨hji, hj⟩

/-- A call begins. -/
theorem Inv.generate (h : s.Inv iover N) {bio : Bio} {escape : ℕ → Bool} {lock : LockSystem ι}
    (hs : s.lock.Step N (.tryLock i bio.slba bio.nlbs) lock) :
    Inv iover N { s.put i ⟨bio, escape, .locking⟩ with lock := lock } := by
  have hlock := h.lock.step hs
  cases hs with
  | tryLock i slba nlbs hdone hfree hnlbs hrange =>
    refine ⟨hlock, fun k hk => ?_, fun k hk => ?_, fun k hk => ?_, h.unique, h.bounded,
      fun k => ?_⟩
    · obtain ⟨hki, hk⟩ := active_put rfl hk
      rw [LockSystem.move_of_ne hki]
      exact h.held k hk
    · obtain ⟨hki, hk⟩ := active_put rfl hk
      change ((s.put i ⟨bio, escape, .locking⟩).gens k).bio.opcode = .write
      rw [put_of_ne s hki]
      exact h.write k hk
    · change ((s.put i ⟨bio, escape, .locking⟩).gens k).pc ≠ .done at hk
      change _ = ((s.put i ⟨bio, escape, .locking⟩).gens k).bio.slba ∧
        _ = ((s.put i ⟨bio, escape, .locking⟩).gens k).bio.nlbs
      by_cases hki : k = i
      · subst hki
        rw [put_self, LockSystem.move_self]
        exact ⟨rfl, rfl⟩
      · rw [put_of_ne s hki] at hk ⊢
        rw [LockSystem.move_of_ne hki]
        exact h.range k hk
    · change GenOk iover s.written s.timestamp ((s.put i ⟨bio, escape, .locking⟩).gens k)
      by_cases hki : k = i
      · subst hki
        rw [put_self]
        trivial
      · rw [put_of_ne s hki]
        exact h.gens k

omit [DecidableEq ι] in
/-- The counter is not behind the log. -/
theorem Inv.before (h : s.Inv iover N) (bio : Bio) :
    Before iover s.written bio (s.timestamp.toNat + 1) := by
  intro a ha x hx _ t ht
  have hlt : x - a.slba < a.nlbs := by
    have := Bio.mem_range.mp hx
    omega
  exact Nat.lt_succ_of_le (h.bounded a ha _ hlt t ht)

/-- **A write-back** that does not take the counter down takes it past the log. -/
theorem toNat_lt_writeBack {t timestamp : BitVec 64} (hread : (t - 1).toNat ≤ timestamp.toNat)
    (hle : timestamp ≤ t) : (t - 1).toNat + 1 ≤ t.toNat := by
  have hnat : timestamp.toNat ≤ t.toNat := hle
  have hlt := t.isLt
  rw [BitVec.toNat_sub] at hread ⊢
  have hone : (1 : BitVec 64).toNat = 1 := rfl
  rw [hone] at hread ⊢
  omega

/-- A block is filled. -/
theorem Filled.succ {bio : Bio} {escape : ℕ → Bool} {pattern : Byte} {o : ℕ}
    {written : List Bio} {timestamp : BitVec 64} (h : Filled iover written timestamp bio o)
    (ho : o < bio.nlbs) (hp : pattern.toNat < iover.datagen.npatterns)
    (hbefore : Before iover written bio timestamp.toNat) :
    Filled iover written timestamp
      (fillBioBlock { iover with timestamp := timestamp } bio escape pattern o) (o + 1) := by
  intro _
  refine ⟨timestamp, ?_, le_rfl, fun _ => rfl, hbefore⟩
  intro k hk
  rcases Nat.lt_or_ge k o with hlt | hge
  · obtain ⟨t, hall, -, heq, -⟩ := h (Nat.zero_lt_of_lt hlt)
    have hsame := blockTimestamp_fillBioBlock_of_lt { iover with timestamp := timestamp } bio
      escape pattern hlt
    exact hsame.trans ((hall k hlt).trans (congrArg some (heq ho)))
  · obtain rfl : k = o := by omega
    exact blockTimestamp_fillBioBlock { iover with timestamp := timestamp } bio escape hp k

/-- **A call returns**, and its bio is added to the log. -/
theorem Inv.finish (h : s.Inv iover N) {o : ℕ} (hpc : (s.gens i).pc = .block o)
    (ho : (s.gens i).bio.nlbs ≤ o) :
    Inv iover N { s.put i { s.gens i with pc := .done } with
      written := s.written ++ [(s.gens i).bio] } := by
  have hact : (s.gens i).active = true := by
    rw [Generation.active, hpc]
  have hgen := h.gens i
  rw [GenOk, hpc] at hgen
  obtain ⟨hle, -, hfilled⟩ := hgen
  obtain rfl := Nat.le_antisymm hle ho
  -- what stands in the blocks of the bio
  have hstamp : ∃ t : BitVec 64, (∀ k < (s.gens i).bio.nlbs,
      blockTimestamp iover (s.gens i).bio k = some t ∧ t.toNat ≤ s.timestamp.toNat ∧
        Before iover s.written (s.gens i).bio t.toNat) := by
    rcases Nat.eq_zero_or_pos (s.gens i).bio.nlbs with hzero | hpos
    · exact ⟨0, fun k hk => absurd hk (by omega)⟩
    · obtain ⟨t, hall, ht, -, hbefore⟩ := hfilled hpos
      exact ⟨t, fun k hk => ⟨hall k hk, ht, hbefore⟩⟩
  obtain ⟨t, hstamp⟩ := hstamp
  refine ⟨h.lock, fun k hk => h.held k (active_put rfl hk).2, fun k hk => ?_, fun k hk => ?_,
    ⟨fun bio hb => ?_, ?_⟩, fun bio hb k hk u hu => ?_, fun k => ?_⟩
  · obtain ⟨hki, hk⟩ := active_put rfl hk
    change ((s.put i { s.gens i with pc := .done }).gens k).bio.opcode = .write
    rw [put_of_ne s hki]
    exact h.write k hk
  · change ((s.put i { s.gens i with pc := .done }).gens k).pc ≠ .done at hk
    change _ = ((s.put i { s.gens i with pc := .done }).gens k).bio.slba ∧
      _ = ((s.put i { s.gens i with pc := .done }).gens k).bio.nlbs
    by_cases hki : k = i
    · subst hki
      rw [put_self] at hk
      exact absurd rfl hk
    · rw [put_of_ne s hki] at hk ⊢
      exact h.range k hk
  · rcases List.mem_append.mp hb with hold | hnew
    · exact h.unique.one bio hold
    · obtain rfl := List.mem_singleton.mp hnew
      exact ⟨t, fun k hk => (hstamp k hk).1⟩
  · refine List.pairwise_append.mpr ⟨h.unique.unique, List.pairwise_singleton _ _, ?_⟩
    intro a ha b hb x hx hx'
    obtain rfl := List.mem_singleton.mp hb
    have hlt : x - (s.gens i).bio.slba < (s.gens i).bio.nlbs := by
      have := Bio.mem_range.mp hx'
      omega
    obtain ⟨hnew, -, hbefore⟩ := hstamp _ hlt
    rw [hnew]
    intro heq
    exact Nat.lt_irrefl _ (hbefore a ha x hx hx' t heq)
  · rcases List.mem_append.mp hb with hold | hnew
    · exact h.bounded bio hold k hk u hu
    · obtain rfl := List.mem_singleton.mp hnew
      obtain ⟨heq, hle, -⟩ := hstamp k hk
      obtain rfl : t = u := Option.some.inj (heq.symm.trans hu)
      exact hle
  · change GenOk iover (s.written ++ [(s.gens i).bio]) s.timestamp
      ((s.put i { s.gens i with pc := .done }).gens k)
    by_cases hki : k = i
    · subst hki
      rw [put_self]
      trivial
    · rw [put_of_ne s hki]
      exact (h.gens k).append fun hk x hx => h.disjoint hact hk (Ne.symm hki) hx

/-- **A step keeps the invariant**, if it does not disturb another call. -/
theorem Inv.step (h : s.Inv iover N) {l : TimestampLabel ι}
    (hs : guarded (Step iover N) Undisturbed s l s') : s'.Inv iover N := by
  obtain ⟨hok, hs⟩ := hs
  have hle : s.timestamp ≤ s.timestamp := Nat.le_refl _
  have hgen := h.gens
  cases hs with
  | generate i bio escape lock hlock => exact h.generate hlock
  | lockOp i lock hlock => exact h.lockStep hlock nofun nofun
  | unlock i lock hlock hdone =>
    refine h.lockStep hlock ?_ nofun
    intro k hk
    cases hk
    by_contra hno
    have hact := Bool.eq_true_of_not_eq_false hno
    rcases hdone with hpc | hop
    · rw [Generation.active, hpc] at hact
      cases hact
    · exact hop (h.write i hact)
  | read i hlock hpc hop =>
    have hsame := setTags_sameCommand iover (s.gens i).bio
    exact h.advance ⟨hsame.slba, hsame.nlbs⟩ (hsame.opcode.trans hop) hlock (by rw [hpc]; nofun)
      hle (.inl rfl) ⟨Nat.le_refl _, h.before _⟩
  | increment i t hpc =>
    have hact : (s.gens i).active = true := by
      rw [Generation.active, hpc]
    have hg := hgen i
    rw [GenOk, hpc] at hg
    have hback : t + 1 - 1 = t := BitVec.add_sub_cancel t 1
    refine h.advance ⟨rfl, rfl⟩ (h.write i hact) (h.held i hact) (by rw [hpc]; nofun) hle
      (.inl rfl) ?_
    change (t + 1 - 1).toNat ≤ _ ∧ Before iover s.written _ ((t + 1 - 1).toNat + 1)
    rw [hback]
    exact hg
  | writeBack i t hpc =>
    have hact : (s.gens i).active = true := by
      rw [Generation.active, hpc]
    have hg := hgen i
    rw [GenOk, hpc] at hg
    rw [Undisturbed, hpc] at hok
    refine h.advance ⟨rfl, rfl⟩ (h.write i hact) (h.held i hact) (by rw [hpc]; nofun) hok.1
      hok.2 ?_
    exact ⟨Nat.zero_le _, hg.2.mono (toNat_lt_writeBack hg.1 hok.1),
      fun ho => absurd ho (Nat.lt_irrefl 0)⟩
  | pattern i o hpc ho =>
    have hact : (s.gens i).active = true := by
      rw [Generation.active, hpc]
    have hg := hgen i
    rw [GenOk, hpc] at hg
    refine h.advance ⟨rfl, rfl⟩ (h.write i hact) (h.held i hact) (by rw [hpc]; nofun) hle
      (.inl rfl) ?_
    exact ⟨ho, writePattern_lt { iover with timestamp := s.timestamp } _, hg.2.1, hg.2.2⟩
  | fill i o pattern hpc =>
    have hact : (s.gens i).active = true := by
      rw [Generation.active, hpc]
    have hg := hgen i
    rw [GenOk, hpc] at hg
    obtain ⟨ho, hp, hbefore, hfilled⟩ := hg
    refine h.advance ⟨rfl, rfl⟩ (h.write i hact) (h.held i hact) (by rw [hpc]; nofun) hle
      (.inl rfl) ?_
    exact ⟨ho, hbefore, hfilled.succ ho hp hbefore⟩
  | finish i o hpc ho => exact h.finish hpc ho

omit [DecidableEq ι] in
theorem inv_init (iover : Iover) (bios : ι → Bio) : (init iover bios).Inv iover N where
  lock := LockSystem.inv_init
  held _ hact := by cases hact
  write _ hact := by cases hact
  range _ hpc := absurd rfl hpc
  unique := ⟨nofun, .nil⟩
  bounded _ hb := absurd hb List.not_mem_nil
  gens _ := trivial

/-- **Timestamps tell write bios apart** in every run whose calls do not disturb one another. -/
theorem uniqueTimestamps_of_run {bios : ι → Bio} {ls : List (TimestampLabel ι)}
    (h : Run (guarded (Step iover N) Undisturbed) (init iover bios) ls s) :
    UniqueTimestamps iover s.written :=
  (h.invariant (fun _ _ _ hi hs => hi.step hs) (inv_init iover bios)).unique

end Steps

/-! ## Runs -/

/-- A pool that has not been used. -/
def unused (_ : Fin 3) : Bio := .plain .flush 0 0 fun _ => 0

/-- A write whose blocks are still to be filled. -/
def unfilled (slba nlbs : ℕ) : Bio := .plain .write slba nlbs fun _ => 0

/-- A block is filled when the counter is `timestamp`. -/
def fillAt (timestamp : BitVec 64) (o : ℕ) (bio : Bio) : Bio :=
  fillBioBlock { Iover.plain .zero with timestamp := timestamp } bio (fun _ => false)
    (writePattern { Iover.plain .zero with timestamp := timestamp } (bio.slba + o)) o

theorem blockTimestamp_fillAt (timestamp : BitVec 64) (o : ℕ) (bio : Bio) :
    blockTimestamp (.plain .zero) (fillAt timestamp o bio) o = some timestamp :=
  blockTimestamp_fillBioBlock { Iover.plain .zero with timestamp := timestamp } bio _
    (writePattern_lt { Iover.plain .zero with timestamp := timestamp } _) o

theorem blockTimestamp_fillAt_of_lt (timestamp : BitVec 64) {o k : ℕ} (bio : Bio) (hk : k < o) :
    blockTimestamp (.plain .zero) (fillAt timestamp o bio) k
      = blockTimestamp (.plain .zero) bio k :=
  blockTimestamp_fillBioBlock_of_lt { Iover.plain .zero with timestamp := timestamp } bio _ _ hk

/-- Only a write-back disturbs another call. -/
theorem Step.quiet {iover : Iover} {N : ℕ} {s s' : TimestampSystem ι} {l : TimestampLabel ι}
    (h : Step iover N s l s') (hl : ∀ i, l ≠ .writeBack i) :
    guarded (Step iover N) Undisturbed s l s' := by
  refine ⟨?_, h⟩
  cases l with
  | writeBack i => exact absurd rfl (hl i)
  | _ => trivial

/-- A write-back that takes the timestamp up. -/
theorem Step.ahead {iover : Iover} {N : ℕ} {s : TimestampSystem ι} {i : ι}
    {timestamp : BitVec 64} (hpc : (s.gens i).pc = .writeBack timestamp)
    (hle : s.timestamp ≤ timestamp) (hmid : ∀ j, ¬ (s.gens j).MidBio) :
    guarded (Step iover N) Undisturbed s (.writeBack i)
      { s.put i { s.gens i with pc := .block 0 } with timestamp := timestamp } := by
  refine ⟨?_, .writeBack i timestamp hpc⟩
  rw [Undisturbed, hpc]
  exact ⟨hle, .inr hmid⟩

/-- LBA 0 is written while a call for two other LBAs has not yet read the timestamp for its
blocks. -/
theorem uniqueTimestamps_two_writes :
    ∃ (ls : List (TimestampLabel (Fin 3))) (s : TimestampSystem (Fin 3)),
      Run (guarded (Step (.plain .zero) 8) Undisturbed) (init (.plain .zero) unused) ls s ∧
        s.written.length = 2 ∧ UniqueTimestamps (.plain .zero) s.written := by
  have hrun : ∃ (ls : List (TimestampLabel (Fin 3))) (s : TimestampSystem (Fin 3)),
      Run (guarded (Step (.plain .zero) 8) Undisturbed) (init (.plain .zero) unused) ls s ∧
        s.written.length = 2 := by
    refine ⟨_, _, .cons (Step.quiet (.generate 0 (unfilled 1 2) (fun _ => false) _ <|
        .tryLock 0 _ _ rfl (by decide) (by decide) (by decide)) nofun) <|
      .cons (Step.quiet (.lockOp 0 _ (.op 0 rfl)) nofun) <|
      .cons (Step.quiet (.lockOp 0 _ (.op 0 rfl)) nofun) <|
      .cons (Step.quiet (.read 0 rfl rfl rfl) nofun) <|
      .cons (Step.quiet (.increment 0 _ rfl) nofun) <|
      .cons (Step.ahead (i := 0) rfl (Nat.zero_le 1) ?_) <|
      .cons (Step.quiet (.generate 1 (unfilled 0 1) (fun _ => false) _ <|
        .tryLock 1 _ _ rfl (by decide) (by decide) (by decide)) nofun) <|
      .cons (Step.quiet (.lockOp 1 _ (.op 1 rfl)) nofun) <|
      .cons (Step.quiet (.lockOp 1 _ (.op 1 rfl)) nofun) <|
      .cons (Step.quiet (.read 1 rfl rfl rfl) nofun) <|
      .cons (Step.quiet (.increment 1 _ rfl) nofun) <|
      .cons (Step.ahead (i := 1) rfl (Nat.le_succ 1) ?_) <|
      .cons (Step.quiet (.pattern 1 _ rfl (by decide)) nofun) <|
      .cons (Step.quiet (.fill 1 _ _ rfl) nofun) <|
      .cons (Step.quiet (.finish 1 _ rfl (by decide)) nofun) <|
      .cons (Step.quiet (.pattern 0 _ rfl (by decide)) nofun) <|
      .cons (Step.quiet (.fill 0 _ _ rfl) nofun) <|
      .cons (Step.quiet (.pattern 0 _ rfl (by decide)) nofun) <|
      .cons (Step.quiet (.fill 0 _ _ rfl) nofun) <|
      .cons (Step.quiet (.finish 0 _ rfl (by decide)) nofun) <| .nil _, rfl⟩
    · intro j
      match j with
      | 0 | 1 | 2 => exact id
    · intro j
      match j with
      | 0 => exact fun h => Nat.lt_irrefl 0 h.1
      | 1 | 2 => exact id
  obtain ⟨ls, s, hr, hlength⟩ := hrun
  exact ⟨ls, s, hr, hlength, uniqueTimestamps_of_run hr⟩

/-- A call that increments the timestamp while another fills its two blocks. -/
theorem mixed_run :
    ∃ (ls : List (TimestampLabel (Fin 3))) (s : TimestampSystem (Fin 3)),
      Run (Step (.plain .zero) 8) (init (.plain .zero) unused) ls s ∧
        s.written = [fillAt 2 1 (fillAt 1 0 (setTags (.plain .zero) (unfilled 0 2)))] := by
  refine ⟨_, _, .cons (.generate 0 (unfilled 0 2) (fun _ => false) _ <|
      .tryLock 0 _ _ rfl (by decide) (by decide) (by decide)) <|
    .cons (.lockOp 0 _ (.op 0 rfl)) <| .cons (.lockOp 0 _ (.op 0 rfl)) <|
    .cons (.read 0 rfl rfl rfl) <| .cons (.increment 0 _ rfl) <| .cons (.writeBack 0 _ rfl) <|
    .cons (.pattern 0 _ rfl (by decide)) <| .cons (.fill 0 _ _ rfl) <|
    .cons (.generate 1 (unfilled 2 1) (fun _ => false) _ <|
      .tryLock 1 _ _ rfl (by decide) (by decide) (by decide)) <|
    .cons (.lockOp 1 _ (.op 1 rfl)) <| .cons (.lockOp 1 _ (.op 1 rfl)) <|
    .cons (.read 1 rfl rfl rfl) <| .cons (.increment 1 _ rfl) <| .cons (.writeBack 1 _ rfl) <|
    .cons (.pattern 0 _ rfl (by decide)) <| .cons (.fill 0 _ _ rfl) <|
    .cons (.finish 0 _ rfl (by decide)) <| .nil _, rfl⟩

/-- A call that writes back an old timestamp, between two writes of LBA 0. -/
theorem stale_run :
    ∃ (ls : List (TimestampLabel (Fin 3))) (s : TimestampSystem (Fin 3)),
      Run (Step (.plain .zero) 8) (init (.plain .zero) unused) ls s ∧
        s.written = [fillAt 2 0 (setTags (.plain .zero) (unfilled 0 1)),
          fillAt 2 0 (setTags (.plain .zero) (unfilled 0 1))] := by
  refine ⟨_, _, .cons (.generate 0 (unfilled 1 1) (fun _ => false) _ <|
      .tryLock 0 _ _ rfl (by decide) (by decide) (by decide)) <|
    .cons (.lockOp 0 _ (.op 0 rfl)) <| .cons (.lockOp 0 _ (.op 0 rfl)) <|
    .cons (.read 0 rfl rfl rfl) <|
    .cons (.generate 1 (unfilled 2 1) (fun _ => false) _ <|
      .tryLock 1 _ _ rfl (by decide) (by decide) (by decide)) <|
    .cons (.lockOp 1 _ (.op 1 rfl)) <| .cons (.lockOp 1 _ (.op 1 rfl)) <|
    .cons (.read 1 rfl rfl rfl) <| .cons (.increment 1 _ rfl) <| .cons (.writeBack 1 _ rfl) <|
    .cons (.generate 2 (unfilled 0 1) (fun _ => false) _ <|
      .tryLock 2 _ _ rfl (by decide) (by decide) (by decide)) <|
    .cons (.lockOp 2 _ (.op 2 rfl)) <| .cons (.lockOp 2 _ (.op 2 rfl)) <|
    .cons (.read 2 rfl rfl rfl) <| .cons (.increment 2 _ rfl) <| .cons (.writeBack 2 _ rfl) <|
    .cons (.pattern 2 _ rfl (by decide)) <| .cons (.fill 2 _ _ rfl) <|
    .cons (.finish 2 _ rfl (by decide)) <| .cons (.unlock 2 _ (.unlock 2 rfl) (.inl rfl)) <|
    .cons (.lockOp 2 _ (.op 2 rfl)) <| .cons (.lockOp 2 _ (.op 2 rfl)) <|
    .cons (.increment 0 _ rfl) <| .cons (.writeBack 0 _ rfl) <|
    .cons (.generate 2 (unfilled 0 1) (fun _ => false) _ <|
      .tryLock 2 _ _ rfl (by decide) (by decide) (by decide)) <|
    .cons (.lockOp 2 _ (.op 2 rfl)) <| .cons (.lockOp 2 _ (.op 2 rfl)) <|
    .cons (.read 2 rfl rfl rfl) <| .cons (.increment 2 _ rfl) <| .cons (.writeBack 2 _ rfl) <|
    .cons (.pattern 2 _ rfl (by decide)) <| .cons (.fill 2 _ _ rfl) <|
    .cons (.finish 2 _ rfl (by decide)) <| .nil _, rfl⟩

/-- **Timestamps do not tell write bios apart**: a bio can have two of them, and two bios can have
the same. -/
theorem not_uniqueTimestamps :
    (∃ (ls : List (TimestampLabel (Fin 3))) (s : TimestampSystem (Fin 3)),
      Run (Step (.plain .zero) 8) (init (.plain .zero) unused) ls s ∧
        ¬ ∀ bio ∈ s.written, ∃ timestamp, ∀ o < bio.nlbs,
          blockTimestamp (.plain .zero) bio o = some timestamp) ∧
      ∃ (ls : List (TimestampLabel (Fin 3))) (s : TimestampSystem (Fin 3)),
        Run (Step (.plain .zero) 8) (init (.plain .zero) unused) ls s ∧
          ¬ s.written.Pairwise fun bio bio' => ∀ x ∈ bio.range, x ∈ bio'.range →
            blockTimestamp (.plain .zero) bio (x - bio.slba)
              ≠ blockTimestamp (.plain .zero) bio' (x - bio'.slba) := by
  refine ⟨?_, ?_⟩
  · obtain ⟨ls, s, hrun, hwritten⟩ := mixed_run
    refine ⟨ls, s, hrun, ?_⟩
    intro h
    rw [hwritten] at h
    obtain ⟨t, ht⟩ := h _ List.mem_cons_self
    have hfirst : some 1 = some t := by
      rw [← ht 0 Nat.zero_lt_two, blockTimestamp_fillAt_of_lt 2 _ Nat.zero_lt_one,
        blockTimestamp_fillAt]
    have hsecond : some 2 = some t := by
      rw [← ht 1 Nat.one_lt_two, blockTimestamp_fillAt]
    have hsame : (1 : BitVec 64) = 2 := Option.some.inj (hfirst.trans hsecond.symm)
    exact absurd hsame (by decide)
  · obtain ⟨ls, s, hrun, hwritten⟩ := stale_run
    refine ⟨ls, s, hrun, ?_⟩
    intro h
    rw [hwritten] at h
    have hne := List.rel_of_pairwise_cons h List.mem_cons_self
    have hzero : 0 ∈ (fillAt 2 0 (setTags (.plain .zero) (unfilled 0 1))).range :=
      ⟨Nat.le_refl 0, Nat.zero_lt_one⟩
    exact hne 0 hzero hzero rfl

end TimestampSystem

end ChamberSpo

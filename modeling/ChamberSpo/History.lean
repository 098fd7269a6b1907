import ChamberSpo.Iogen
import ChamberSpo.Journal

/-!
# The history ring

`backup_hist_state` writes a record for each LBA that a command changes into a ring of `nhist`
entries, at `hist_idx`, which then moves on. `history_slba` reads the ring back.

* `RecordStep` — what happens to the ring until it is replayed.
* `Ring iover lbas` — the ring after records of `lbas`: the last `nhist` of them are in their
  places, the other entries are empty, and `hist_idx` is the place of the next record.
* `IogenJob.Advance` — how far a job gets in the ring. `generateBio_replay` says what generating
  a bio of a replay does.

The place of the next record is where `iogen_job_begin` lets a replay start, so it starts at the
oldest record, or at an empty entry (`replay_start`).
-/

namespace ChamberSpo

/-! ## Recording -/

/-- Two states of the verifier with the same LBAs in the ring. -/
structure Iover.SameRing (a b : Iover) : Prop where
  ns : b.ns = a.ns
  header : b.header = a.header
  histLba : ∀ i < a.ns.nhist, (b.histDesc i).lba = (a.histDesc i).lba

theorem Iover.SameRing.refl (a : Iover) : a.SameRing a := ⟨rfl, rfl, fun _ _ => rfl⟩

theorem Iover.SameRing.trans {a b c : Iover} (h : a.SameRing b) (h' : b.SameRing c) :
    a.SameRing c :=
  ⟨h'.ns.trans h.ns, h'.header.trans h.header, fun i hi =>
    (h'.histLba i (h.ns ▸ hi)).trans (h.histLba i hi)⟩

/-- The LBAs that `backup_hist_state` makes a record of. -/
def recordedLbas (params : JobParams) (bio : Bio) : List ℕ :=
  if params.history = 0 ∨ params.compare = false then []
  else match bio.opcode with
  | .write | .deallocate | .writeZeroes | .writeUncorrect =>
    (List.range bio.nlbs).map (bio.slba + ·)
  | .read | .flush | .identify | .fwDownload => []

/-- What happens to the ring, with the LBAs that are recorded: records, and everything else the
verifier does, a restart included. -/
inductive RecordStep (iover : Iover) : List ℕ → Iover → Prop
  | backup (params : JobParams) (bio : Bio) (iover' : Iover) :
    backupHistState iover params bio = some iover' →
    RecordStep iover (recordedLbas params bio) iover'
  | other (iover' : Iover) : iover.SameRing iover' → RecordStep iover [] iover'

/-- A ring that has just been created. -/
structure NewRing (iover : Iover) : Prop where
  pos : 0 < iover.ns.nhist
  nhist : iover.header.nhist.toNat = iover.ns.nhist
  histIdx : iover.header.histIdx = 0
  empty : ∀ i < iover.ns.nhist, iover.histDesc i = .ones

/-- The ring after records of `lbas`, oldest first. -/
structure Ring (iover : Iover) (lbas : List ℕ) : Prop where
  pos : 0 < iover.ns.nhist
  nhist : iover.header.nhist.toNat = iover.ns.nhist
  histIdx : iover.header.histIdx.toNat = lbas.length % iover.ns.nhist
  /-- the last records are in their places -/
  recorded : ∀ j lba, lbas[j]? = some lba → lbas.length ≤ j + iover.ns.nhist →
    (iover.histDesc (j % iover.ns.nhist)).lba = BitVec.ofNat 64 lba
  /-- the other entries have not been written -/
  empty : ∀ i, lbas.length ≤ i → i < iover.ns.nhist →
    (iover.histDesc i).lba = 0xFFFFFFFFFFFFFFFF

section Ring

variable {iover iover' : Iover} {lbas : List ℕ}

theorem NewRing.ring (h : NewRing iover) : Ring iover [] where
  pos := h.pos
  nhist := h.nhist
  histIdx := by rw [h.histIdx]; exact (Nat.zero_mod _).symm
  recorded j lba hj _ := absurd hj (by simp)
  empty i _ hi := by rw [h.empty i hi]; rfl

theorem Ring.sameRing (h : Ring iover lbas) (hs : iover.SameRing iover') : Ring iover' lbas where
  pos := hs.ns ▸ h.pos
  nhist := by rw [hs.ns, hs.header, h.nhist]
  histIdx := by rw [hs.ns, hs.header, h.histIdx]
  recorded j lba hj hlast := by
    rw [hs.ns] at hlast ⊢
    rw [hs.histLba _ (Nat.mod_lt j h.pos), h.recorded j lba hj hlast]
  empty i hlow hi := by
    rw [hs.ns] at hi
    rw [hs.histLba i hi, h.empty i hlow hi]

/-- **One record** goes to the place of the next one. -/
theorem Ring.histAppend (h : Ring iover lbas) (lba : ℕ) (next : BlockDesc → BlockDesc) :
    Ring (histAppend iover lba next) (lbas ++ [lba]) := by
  have hidx := h.histIdx
  have hlt := Nat.mod_lt lbas.length h.pos
  have hn := iover.ns.nhist_lt
  refine ⟨h.pos, h.nhist, ?_, ?_, ?_⟩
  · change ((iover.header.histIdx + 1) % iover.header.nhist).toNat = _
    rw [BitVec.toNat_umod, h.nhist, BitVec.toNat_add, hidx, List.length_append,
      List.length_singleton]
    change (lbas.length % iover.ns.nhist + 1) % 2 ^ 32 % iover.ns.nhist = _
    rw [Nat.mod_eq_of_lt (show lbas.length % iover.ns.nhist + 1 < 2 ^ 32 by omega),
      Nat.mod_add_mod]
    rfl
  · intro j lba' hj hlast
    change (Function.update iover.histDesc iover.header.histIdx.toNat _
      (j % iover.ns.nhist)).lba = _
    rw [List.length_append, List.length_singleton] at hlast
    rw [hidx]
    rcases Nat.lt_trichotomy j lbas.length with hlt' | rfl | hgt
    · -- an older record, which has another place
      have hne : j % iover.ns.nhist ≠ lbas.length % iover.ns.nhist := by
        intro heq
        have hdvd := (Nat.modEq_iff_dvd' hlt'.le).mp heq
        have hle := Nat.le_of_dvd (by omega) hdvd
        change lbas.length + 1 ≤ j + iover.ns.nhist at hlast
        omega
      rw [Function.update_of_ne hne]
      rw [List.getElem?_append_left hlt'] at hj
      exact h.recorded j lba' hj (by change lbas.length + 1 ≤ j + iover.ns.nhist at hlast; omega)
    · rw [Function.update_self]
      rw [List.getElem?_concat_length] at hj
      rw [Option.some.inj hj]
    · rw [List.getElem?_eq_none (by simp; omega)] at hj
      exact absurd hj.symm (Option.some_ne_none _)
  · intro i hlow hi
    change i < iover.ns.nhist at hi
    change (Function.update iover.histDesc iover.header.histIdx.toNat _ i).lba = _
    rw [List.length_append, List.length_singleton] at hlow
    have hsmall : lbas.length % iover.ns.nhist = lbas.length := Nat.mod_eq_of_lt (by omega)
    rw [hidx, hsmall, Function.update_of_ne (by omega)]
    exact h.empty i (by omega) hi

/-- The loop over the LBAs of a command whose records do not depend on its data. -/
theorem Ring.histAppendLbas (h : Ring iover lbas) (bio : Bio) (state : BlockState) :
    Ring (histAppendLbas iover bio state) (lbas ++ (List.range bio.nlbs).map (bio.slba + ·)) := by
  have hloop : ∀ (l : List ℕ) (a : Iover) (lbas : List ℕ), Ring a lbas →
      Ring (l.foldl (fun iover o =>
        ChamberSpo.histAppend iover (bio.slba + o) fun d => { d with state := state }) a)
        (lbas ++ l.map (bio.slba + ·)) := by
    intro l
    induction l with
    | nil => exact fun a lbas h => by rwa [List.map_nil, List.append_nil]
    | cons o l ih =>
      intro a lbas h
      rw [List.map_cons, List.append_cons]
      exact ih _ _ (h.histAppend _ _)
  exact hloop _ iover lbas h

/-- **`backup_hist_state`** makes its records. -/
theorem Ring.backup (h : Ring iover lbas) {params : JobParams} {bio : Bio}
    (hb : backupHistState iover params bio = some iover') :
    Ring iover' (lbas ++ recordedLbas params bio) := by
  have hloop : ∀ (l : List ℕ) (a : Iover) (lbas : List ℕ), Ring a lbas →
      l.foldlM (fun (a : Iover) o => do
        let info ← datagenGetHeader a.datagen (blockData a bio o)
        return ChamberSpo.histAppend a (bio.slba + o) (writtenDesc .data info)) a = some iover' →
      Ring iover' (lbas ++ l.map (bio.slba + ·)) := by
    intro l
    induction l with
    | nil =>
      intro a lbas h ha
      obtain rfl := Option.some.inj ha
      rwa [List.map_nil, List.append_nil]
    | cons o l ih =>
      intro a lbas h ha
      simp only [List.foldlM_cons, Option.bind_eq_bind, Option.bind_eq_some_iff, Option.pure_def,
        Option.some.injEq] at ha
      obtain ⟨b, ⟨info, -, rfl⟩, hb⟩ := ha
      rw [List.map_cons, List.append_cons]
      exact ih _ _ (h.histAppend _ _) hb
  simp only [backupHistState] at hb
  simp only [recordedLbas]
  split at hb
  · rename_i hoff
    obtain rfl := Option.some.inj hb
    rwa [if_pos hoff, List.append_nil]
  · rename_i hon
    rw [if_neg hon]
    cases hop : bio.opcode with
    | write =>
      simp only [hop] at hb
      exact hloop _ iover lbas h hb
    | deallocate | writeZeroes | writeUncorrect =>
      simp only [hop] at hb
      obtain rfl := Option.some.inj hb
      exact h.histAppendLbas bio _
    | read | flush | identify | fwDownload =>
      simp only [hop] at hb
      obtain rfl := Option.some.inj hb
      rwa [List.append_nil]

/-- **The ring after any number of records.** -/
theorem Ring.run {ls : List (List ℕ)} (h : Ring iover lbas) (hr : Run RecordStep iover ls iover') :
    Ring iover' (lbas ++ ls.flatten) := by
  induction hr generalizing lbas with
  | nil iover => rwa [List.flatten_nil, List.append_nil]
  | cons hst _ ih =>
    rw [List.flatten_cons, ← List.append_assoc]
    cases hst with
    | backup params bio iover' hb => exact ih (h.backup hb)
    | other iover' hs => exact ih (by rw [List.append_nil]; exact h.sameRing hs)

end Ring

/-- A new segment of shared memory has a new ring. -/
theorem newRing_shm {ns : NamespaceInfo} (hn : 0 < ns.nhist) (env : Env) :
    ∃ w, ioverInit .shm ns env none = .ok w ∧ NewRing w.iover := by
  have hread := createJournalShm_read ns env.segment
  obtain ⟨w, hw, hiover, -⟩ := useJournal_of_accepted (createJournalShm ns env.segment)
    (hread ▸ accepted_create _ _ _) env.masks
  refine ⟨w, hw, ?_⟩
  rw [hiover, hread]
  refine ⟨hn, ?_, rfl, fun i hi => dif_pos hi⟩
  exact Nat.mod_eq_of_lt ns.nhist_lt

/-! ## Taking entries -/

/-- The `lba` of an entry that has not been written. -/
def emptyLba : BitVec 64 := 0xFFFFFFFFFFFFFFFF

/-- The `lba` of the entry that a job takes next. -/
def IogenJob.nextLba (iover : Iover) (job : IogenJob) : BitVec 64 :=
  (iover.histDesc job.replayHistIdx.toNat).lba

/-- How far a job gets from `a` to `b`. -/
structure IogenJob.Advance (iover : Iover) (a b : IogenJob) : Prop where
  state : b.state = a.state
  cnt : b.replayHistCnt.toNat ≤ a.replayHistCnt.toNat
  /-- the entry that was the last to be taken ends the generator -/
  drained : b.replayHistCnt = 0 → a.replayHistCnt = 0 ∨ b.iogenState ≠ .running
  stays : a.iogenState ≠ .running → b.iogenState ≠ .running
  /-- an empty entry is not left behind -/
  idx : a.nextLba iover = emptyLba → b.replayHistIdx = a.replayHistIdx

theorem IogenJob.Advance.refl (iover : Iover) (a : IogenJob) : a.Advance iover a :=
  ⟨rfl, le_rfl, .inl, id, fun _ => rfl⟩

theorem IogenJob.Advance.trans {iover : Iover} {a b c : IogenJob} (h : a.Advance iover b)
    (h' : b.Advance iover c) : a.Advance iover c where
  state := h'.state.trans h.state
  cnt := h'.cnt.trans h.cnt
  drained hc := (h'.drained hc).elim (fun hb => (h.drained hb).imp_right h'.stays) .inr
  stays hs := h'.stays (h.stays hs)
  idx hlba := by
    have hidx := h.idx hlba
    rw [← hidx]
    apply h'.idx
    rw [nextLba, hidx]
    exact hlba

section Take

variable {iover iover' : Iover} {job job' : IogenJob} {bio : Bio} {draws : GenDraws}

/-- An empty entry, or none that is left, ends the history. -/
theorem historySlba_of_end (h : historyEnd iover job = true) (bio : Bio) :
    historySlba iover job bio
      = ({ job with iogenState := .done }, { bio with opcode := .flush }) := if_pos h

theorem historyEnd_of_empty (h : job.nextLba iover = emptyLba) : historyEnd iover job = true := by
  rw [historyEnd, Bool.or_eq_true]
  exact .inl (beq_iff_eq.mpr h)

theorem historySlba_advance (iover : Iover) (job : IogenJob) (bio : Bio) :
    job.Advance iover (historySlba iover job bio).1 := by
  by_cases hend : historyEnd iover job = true
  · rw [historySlba_of_end hend]
    exact ⟨rfl, le_rfl, .inl, fun _ => nofun, fun _ => rfl⟩
  · rw [historySlba, if_neg hend]
    refine ⟨rfl, ?_, fun hc => .inr ?_, ?_, ?_⟩
    · have hne : job.replayHistCnt ≠ 0 := fun hzero => hend (by simp [historyEnd, hzero])
      simp only [historyNext]
      bv_omega
    · simp only [historyNext] at hc ⊢
      rw [if_pos hc]
      decide
    · intro hs
      simp only [historyNext]
      split
      · decide
      · exact hs
    · intro hlba
      exact absurd (historyEnd_of_empty hlba) hend

/-- A read takes an entry. -/
theorem historySlba_read (iover : Iover) (job : IogenJob) (bio : Bio)
    (hop : (historySlba iover job bio).2.opcode = .read) :
    (historySlba iover job bio).1.replayHistCnt.toNat < job.replayHistCnt.toNat ∧
      job.nextLba iover ≠ emptyLba := by
  by_cases hend : historyEnd iover job = true
  · rw [historySlba_of_end hend] at hop
    cases hop
  · refine ⟨?_, fun hlba => hend (historyEnd_of_empty hlba)⟩
    have hne : job.replayHistCnt ≠ 0 := fun hzero => hend (by simp [historyEnd, hzero])
    rw [historySlba, if_neg hend]
    simp only [historyNext]
    bv_omega

/-- **The attempts of a replay** take entries until one of them can be locked, or there are no
more. -/
theorem generateLoop_replay (draws : GenDraws) (left : ℕ) (iover : Iover) (job : IogenJob)
    (bio : Bio) (hr : job.params.slbaType = .replay) :
    job.Advance iover (generateLoop draws left iover job bio).job ∧
      ((generateLoop draws left iover job bio).ready = true →
        (generateLoop draws left iover job bio).bio.opcode = .read →
        (generateLoop draws left iover job bio).job.replayHistCnt.toNat < job.replayHistCnt.toNat ∧
          job.nextLba iover ≠ emptyLba) ∧
      (job.nextLba iover = emptyLba → left ≠ 0 →
        (generateLoop draws left iover job bio).job.iogenState ≠ .running) := by
  induction left generalizing job bio with
  | zero => exact ⟨.refl iover job, nofun, fun _ h => absurd rfl h⟩
  | succ left ih =>
    have hadv := historySlba_advance iover job bio
    have hread := historySlba_read iover job bio
    have hpool := historySlba_samePool iover job bio
    have hbio := historySlba_bio iover job bio
    have hend : job.nextLba iover = emptyLba →
        (historySlba iover job bio).1.iogenState ≠ .running := fun hlba => by
      rw [historySlba_of_end (historyEnd_of_empty hlba)]
      exact IogenState.noConfusion
    have hchoose : chooseSlba iover job bio (draws.slba left) draws.jesd219Slba
        = (true, historySlba iover job bio) := by
      rw [chooseSlba, hr]
    rw [generateLoop, hchoose]
    generalize historySlba iover job bio = c at hadv hread hpool hbio hend
    obtain ⟨job', bio'⟩ := c
    simp only at hadv hread hpool hbio hend ⊢
    have hr' : job'.params.slbaType = .replay := hpool.params ▸ hr
    rw [if_neg Bool.noConfusion]
    rcases hbio with ⟨hop, -⟩ | ⟨hop, hnlbs⟩
    · rw [if_pos ⟨hr', hop⟩]
      exact ⟨hadv, fun _ h => absurd (hop.symm.trans h) (by decide), fun hlba _ => hend hlba⟩
    obtain ⟨hcnt, hlba⟩ := hread hop
    rw [if_neg fun h => absurd (hop.symm.trans h.2) (by decide)]
    have hn : (placeBio iover job' bio').nlbs < 2 ^ 32 := by
      change bio'.nlbs < 2 ^ 32
      rw [hnlbs]
      decide
    cases hgen : ioverGenerateData iover job'.params (placeBio iover job' bio')
      (draws.escape left) with
    | mk res out =>
      obtain ⟨iover', filled⟩ := out
      by_cases hres : res = 0
      · simp only [hres, ne_eq, not_true_eq_false, if_false]
        exact ⟨⟨hadv.state, hadv.cnt, hadv.drained, hadv.stays, hadv.idx⟩,
          fun _ _ => ⟨hcnt, hlba⟩, fun h => absurd h hlba⟩
      · -- the entry is lost, and the next attempt takes another one
        obtain rfl : iover' = iover :=
          congrArg Prod.fst (ioverGenerateData_failed hn hgen hres)
        obtain ⟨hadv', hread', -⟩ := ih job' filled hr'
        simp only [ne_eq, hres, not_false_eq_true, if_true]
        exact ⟨hadv.trans hadv', fun hready hop' =>
          ⟨(hread' hready hop').1.trans hcnt, hlba⟩, fun h => absurd h hlba⟩

/-- What generating a bio does to a job that replays. -/
structure IogenJob.Takes (iover : Iover) (job : IogenJob) (draws : GenDraws) (res : Option ℕ)
    (job' : IogenJob) : Prop where
  advance : job.Advance iover job'
  read : ∀ id, res = some id → (job'.bioPool id).opcode = .read →
    job'.replayHistCnt.toNat < job.replayHistCnt.toNat ∧ job.nextLba iover ≠ emptyLba
  /-- a flush of the lottery leaves the history alone -/
  flush : job.oprLottery (draws.rand % 100) = .flush → job'.iogenState = job.iogenState ∧
    (∀ id, res = some id → (job'.bioPool id).opcode = .flush) ∧
    ∀ j, (job'.bioPool j).opcode = .flush ∨ job'.bioPool j = job.bioPool j
  /-- everything else of the lottery looks at the history -/
  ends : job.nextLba iover = emptyLba → job.oprLottery (draws.rand % 100) ≠ .flush →
    job.bioFree ≠ [] → job'.iogenState ≠ .running

/-- **Generating a bio of a replay.** -/
theorem generateBio_replay (hr : job.params.slbaType = .replay) {res : Option ℕ}
    (h : generateBio iover job draws = (res, iover', job')) : job.Takes iover draws res job' := by
  have hnone : ∀ id, (none : Option ℕ) ≠ some id := fun id => (Option.some_ne_none id).symm
  unfold generateBio at h
  split at h
  · rename_i hfree
    simp only [Prod.mk.injEq] at h
    obtain ⟨rfl, -, rfl⟩ := h
    exact ⟨.refl iover job, fun id hid => absurd hid (hnone id),
      fun _ => ⟨rfl, fun id hid => absurd hid (hnone id), fun _ => .inr rfl⟩,
      fun _ _ h => absurd hfree h⟩
  rename_i id rest hfree
  simp only at h
  by_cases hlottery : job.oprLottery (draws.rand % 100) = .flush
  · simp only [fillBio, hlottery, if_true, Prod.mk.injEq] at h
    obtain ⟨rfl, -, rfl⟩ := h
    have hop : (dressBio iover job draws
        { job.bioPool id with histIdx := noHistIdx, opcode := .flush, nlbs := 0, iosize := 0 }).opcode
        = .flush := (dressBio_sameIo iover job draws _).opcode
    refine ⟨⟨rfl, le_rfl, .inl, fun h => h, fun _ => rfl⟩, fun j hj hread => ?_,
      fun _ => ⟨rfl, fun j hj => ?_, fun j => ?_⟩, fun _ h => absurd hlottery h⟩
    · obtain rfl := Option.some.inj hj
      simp only [Function.update_self, hop, reduceCtorEq] at hread
    · obtain rfl := Option.some.inj hj
      simp only [Function.update_self, hop]
    · by_cases hj : j = id
      · subst hj
        exact .inl (by simp only [Function.update_self, hop])
      · exact .inr (Function.update_of_ne hj ..)
  · obtain ⟨hadv, hread, hends⟩ := generateLoop_replay draws 3 iover job
      (sizeBio iover job draws { job.bioPool id with
        histIdx := noHistIdx, opcode := job.oprLottery (draws.rand % 100) }) hr
    simp only [fillBio, if_neg hlottery] at h
    generalize generateLoop draws 3 iover job _ = gen at h hadv hread hends
    split at h
    · rename_i hready
      simp only [Prod.mk.injEq] at h
      obtain ⟨rfl, -, rfl⟩ := h
      refine ⟨⟨hadv.state, hadv.cnt, hadv.drained, hadv.stays, hadv.idx⟩, fun j hj hop => ?_,
        fun h => absurd h hlottery, fun hlba _ _ => hends hlba (by decide)⟩
      obtain rfl := Option.some.inj hj
      simp only [Function.update_self] at hop
      exact hread hready ((dressBio_sameIo iover job draws gen.bio).opcode.symm.trans hop)
    · simp only [Prod.mk.injEq] at h
      obtain ⟨rfl, -, rfl⟩ := h
      exact ⟨⟨hadv.state, hadv.cnt, hadv.drained, hadv.stays, hadv.idx⟩,
        fun id hid => absurd hid (hnone id), fun h => absurd h hlottery,
        fun hlba _ _ => hends hlba (by decide)⟩

end Take

/-! ## Where a replay starts -/

/-- The place in the ring where a job begins. -/
theorem nextLba_begin {iover : Iover} (hn : 0 < iover.ns.nhist) (job : IogenJob) :
    (iogenJobBegin iover job).replayHistIdx = iover.header.histIdx ∧
      (iogenJobBegin iover job).replayHistCnt = iover.header.nhist := by
  rw [iogenJobBegin, if_pos hn]
  exact ⟨rfl, rfl⟩

/-- Before the ring is full, a replay starts at an empty entry, and finds nothing. -/
theorem Ring.nextLba_of_lt {iover : Iover} {lbas : List ℕ} (h : Ring iover lbas)
    (hlt : lbas.length < iover.ns.nhist) (job : IogenJob) :
    (iogenJobBegin iover job).nextLba iover = emptyLba := by
  rw [IogenJob.nextLba, (nextLba_begin h.pos job).1, h.histIdx, Nat.mod_eq_of_lt hlt]
  exact h.empty _ le_rfl hlt

/-- Once it is full, a replay starts at the oldest record. -/
theorem Ring.nextLba_of_le {iover : Iover} {lbas : List ℕ} {lba : ℕ} (h : Ring iover lbas)
    (hle : iover.ns.nhist ≤ lbas.length)
    (holdest : lbas[lbas.length - iover.ns.nhist]? = some lba) (job : IogenJob) :
    (iogenJobBegin iover job).nextLba iover = BitVec.ofNat 64 lba := by
  have hmod : lbas.length % iover.ns.nhist
      = (lbas.length - iover.ns.nhist) % iover.ns.nhist := by
    rw [← Nat.mod_eq_sub_mod hle]
  rw [IogenJob.nextLba, (nextLba_begin h.pos job).1, h.histIdx, hmod]
  exact h.recorded _ lba holdest (by omega)

/-- **Where a replay starts**, after any records in a new segment: at the oldest one if the ring is
full, and else at an empty entry. -/
theorem replay_start {ns : NamespaceInfo} (hn : 0 < ns.nhist) (env : Env) :
    ∃ w, ioverInit .shm ns env none = .ok w ∧
      ∀ rs iover, Run RecordStep w.iover rs iover → ∀ job,
        (rs.flatten.length < iover.ns.nhist →
          (iogenJobBegin iover job).nextLba iover = emptyLba) ∧
        ∀ lba, iover.ns.nhist ≤ rs.flatten.length →
          rs.flatten[rs.flatten.length - iover.ns.nhist]? = some lba →
            (iogenJobBegin iover job).nextLba iover = BitVec.ofNat 64 lba := by
  obtain ⟨w, hw, hnew⟩ := newRing_shm hn env
  refine ⟨w, hw, fun rs iover hrun job => ?_⟩
  have hring := hnew.ring.run hrun
  rw [List.nil_append] at hring
  exact ⟨fun hlt => hring.nextLba_of_lt hlt job,
    fun lba hle holdest => hring.nextLba_of_le hle holdest job⟩

end ChamberSpo

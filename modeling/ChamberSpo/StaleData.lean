import ChamberSpo.NamespaceRun

/-!
# Versions of an LBA

Every write bio of a job has a timestamp of its own, one more than the write bio before it, and a
descriptor keeps the low 16 bits of the one last committed. An earlier version of the LBA that is
read back is refused as long as the two timestamps are less than 65536 apart.

* `Versions` — a run of one job with a log of its write bios and the number of the one that was
  last committed on each LBA.
* `Versions.Inv.step` — the timestamps of the log are consecutive, what is in flight stands in the
  log, and a descriptor in state data has the timestamp of the write last committed.
-/

namespace ChamberSpo

/-- Counters less than `2 ^ 16` apart differ in their low 16 bits. -/
theorem setWidth_add_ne (t : BitVec 64) {j k : ℕ} (hjk : j < k) (hnear : k - j < 2 ^ 16) :
    (t + BitVec.ofNat 64 j).setWidth 16 ≠ (t + BitVec.ofNat 64 k).setWidth 16 := by
  intro h
  have h' := congrArg BitVec.toNat h
  simp only [BitVec.toNat_setWidth, BitVec.toNat_add, BitVec.toNat_ofNat] at h'
  omega

/-- The bios a job issues: a job that replays the history only reads, or ends with a flush, and
the bios of other jobs have no entry of the history. -/
structure JobParams.Issues (params : JobParams) (bio : Bio) : Prop where
  replay : params.slbaType = .replay → bio.opcode = .read ∨ bio.opcode = .flush
  histIdx : params.slbaType ≠ .replay → bio.histIdx = noHistIdx

/-- A run of a job, with its write bios as they were issued, oldest first; the number of the write
bio in each slot; and the number of the write bio last committed on each LBA. -/
structure Versions (ι : Type*) where
  ns : Ns ι
  log : List Bio
  index : ι → ℕ
  committed : ℕ → Option ℕ

namespace Versions

variable {ι : Type*} [DecidableEq ι]

/-- The records after a step that leads to `ns`. -/
def after (s : Versions ι) (lab : NsLabel ι) (ns : Ns ι) : Versions ι :=
  match lab with
  | .issue i _ bio =>
    if bio.opcode = .write then
      { ns := ns
        log := s.log ++ [bio]
        index := Function.update s.index i s.log.length
        committed := s.committed }
    else { s with ns := ns }
  | .finish i =>
    match s.ns.live i with
    | some l =>
      if l.bio.opcode = .write ∧ l.bio.result = 0 then
        { s with
          ns := ns
          committed := fun x => if x ∈ l.bio.range then some (s.index i) else s.committed x }
      else { s with ns := ns }
    | none => { s with ns := ns }
  | _ => { s with ns := ns }

@[simp] theorem after_ns (s : Versions ι) (lab : NsLabel ι) (ns : Ns ι) :
    (s.after lab ns).ns = ns := by
  simp only [after]
  split
  · split <;> rfl
  · split
    · split <;> rfl
    · rfl
  · rfl

/-- The bio of an issue belongs to the job. -/
def OfJob (p : JobParams) : NsLabel ι → Prop
  | .issue _ params bio => params = p ∧ p.Issues bio
  | _ => True

/-- The steps of a job with parameters `p`. -/
def Step (p : JobParams) (s : Versions ι) (lab : NsLabel ι) (s' : Versions ι) : Prop :=
  ∃ ns, s.ns.Step lab ns ∧ OfJob p lab ∧ s' = s.after lab ns

/-- A job that starts. -/
def init (iover : Iover) : Versions ι where
  ns := .init iover
  log := []
  index := fun _ => 0
  committed := fun _ => none

/-- The timestamp of write bio number `k`. -/
def time (iover : Iover) (k : ℕ) : BitVec 64 := iover.timestamp + BitVec.ofNat 64 (k + 1)

/-- The blocks of write bio number `k` decode to its LBAs and to its timestamp. -/
def Blocks (iover : Iover) (k : ℕ) (bio : Bio) : Prop :=
  ∀ o < bio.nlbs, ∃ pattern, datagenGetHeader iover.datagen (blockData iover bio o)
    = some ⟨BitVec.ofNat 64 (bio.slba + o), time iover k, pattern⟩

/-- Two bios over one range with one buffer of data. -/
structure SameBlocks (bio bio' : Bio) : Prop where
  slba : bio'.slba = bio.slba
  nlbs : bio'.nlbs = bio.nlbs
  pract : bio'.pract = bio.pract
  data : bio'.data = bio.data

theorem SameBlocks.blockData {iover : Iover} {bio bio' : Bio} (h : SameBlocks bio bio') (o : ℕ) :
    blockData iover bio' o = blockData iover bio o := by
  rw [ChamberSpo.blockData, ChamberSpo.blockData, getBlockSize, getBlockSize, h.pract, h.data]

/-- A bio in flight is of the job, and a write stands in the log under its number. -/
structure Tracked (p : JobParams) (log : List Bio) (k : ℕ) (l : LiveBio) : Prop where
  params : l.params = p
  histIdx : p.slbaType ≠ .replay → l.bio.histIdx = noHistIdx
  write : l.bio.opcode = .write → ∃ bio, log[k]? = some bio ∧ SameBlocks bio l.bio

/-- What holds of the records. -/
structure Inv (p : JobParams) (iover : Iover) (s : Versions ι) : Prop where
  tracked : ∀ i l, s.ns.live i = some l → Tracked p s.log (s.index i) l
  format : iover.SameFormat s.ns.iover
  timestamp : s.ns.iover.timestamp = iover.timestamp + BitVec.ofNat 64 s.log.length
  replay : p.slbaType = .replay → s.log = []
  blocks : ∀ k bio, s.log[k]? = some bio → Blocks iover k bio
  committed_lt : ∀ x k, s.committed x = some k → k < s.log.length
  /-- a descriptor in state data has the timestamp of the write last committed -/
  data : ∀ x k, s.committed x = some k → (s.ns.iover.blockDesc x).state = .data →
    (s.ns.iover.blockDesc x).timestamp = (time iover k).setWidth 16

variable {p : JobParams} {s s' : Versions ι} {iover : Iover} {i : ι} {l : LiveBio}

omit [DecidableEq ι] in
theorem Inv.log_ne_nil (h : Inv p iover s) (hl : s.ns.live i = some l)
    (hop : l.bio.opcode = .write) : s.log ≠ [] := by
  obtain ⟨bio, hbio, -⟩ := (h.tracked i l hl).write hop
  rintro hnil
  rw [hnil] at hbio
  cases hbio

/-- A step that issues and commits no write. -/
theorem Inv.frame (h : Inv p iover s) {ns : Ns ι} (l' : Option LiveBio)
    (hlive : ∀ j, ns.live j = if j = i then l' else s.ns.live j)
    (hl' : ∀ l, l' = some l → Tracked p s.log (s.index i) l)
    (hformat : s.ns.iover.SameFormat ns.iover)
    (htime : ns.iover.timestamp = s.ns.iover.timestamp)
    (hdesc : ∀ x, ns.iover.blockDesc x = s.ns.iover.blockDesc x ∨
      (ns.iover.blockDesc x).state ≠ .data ∨ s.committed x = none) :
    Inv p iover { s with ns := ns } := by
  refine ⟨fun j l hj => ?_, h.format.trans hformat, htime.trans h.timestamp, h.replay, h.blocks,
    h.committed_lt, fun x k hk hstate => ?_⟩
  · simp only [hlive] at hj
    split at hj
    · rename_i hji
      exact hji ▸ hl' l hj
    · exact h.tracked j l hj
  · simp only at hk hstate ⊢
    rcases hdesc x with hx | hx | hx
    · rw [hx] at hstate ⊢
      exact h.data x k hk hstate
    · exact absurd hstate hx
    · rw [hk] at hx
      cases hx

/-- **A write is issued**: it has the next timestamp, and its number is its place in the log. -/
theorem Inv.issueWrite (h : Inv p iover s) (hcompare : p.compare = true) {bio : Bio}
    {iover' : Iover} (hgen : Generates s.ns.iover p iover' bio) (hop : bio.opcode = .write)
    (hjob : p.Issues bio) :
    Inv p iover
      { ns := s.ns.put i (some ⟨p, bio, .issued⟩) iover'
        log := s.log ++ [bio]
        index := Function.update s.index i s.log.length
        committed := s.committed } := by
  obtain ⟨-, hformat, hdesc, -⟩ := hgen.spec
  have hnotreplay : p.slbaType ≠ .replay := fun hreplay => by
    rcases hjob.replay hreplay with hread | hflush
    · rw [hop] at hread
      cases hread
    · rw [hop] at hflush
      cases hflush
  have htime : iover'.timestamp = time iover s.log.length := by
    rw [hgen.timestamp hcompare, if_pos hop, h.timestamp, time, BitVec.add_assoc,
      BitVec.ofNat_add]
    rfl
  have hold : ∀ {k b}, s.log[k]? = some b → (s.log ++ [bio])[k]? = some b := fun {k b} hb => by
    rw [List.getElem?_append_left (List.getElem?_eq_some_iff.mp hb).1, hb]
  refine ⟨fun j l hj => ?_, h.format.trans hformat, ?_, fun hreplay => absurd hreplay hnotreplay,
    fun k b hb => ?_, fun x k hk => ?_, fun x k hk hstate => ?_⟩
  · simp only [Ns.put_live] at hj
    split at hj
    · rename_i hji
      subst hji
      obtain rfl := Option.some.inj hj
      refine ⟨rfl, hjob.histIdx, fun _ => ⟨bio, ?_, rfl, rfl, rfl, rfl⟩⟩
      simp only [Function.update_self, List.getElem?_concat_length]
    · rename_i hji
      obtain ⟨hp, hidx, hwrite⟩ := h.tracked j l hj
      refine ⟨hp, hidx, ?_⟩
      intro hopl
      obtain ⟨b, hb, hsame⟩ := hwrite hopl
      exact ⟨b, by simpa only [Function.update_of_ne hji] using hold hb, hsame⟩
  · rw [List.length_append, List.length_singleton]
    exact htime
  · rcases Nat.lt_trichotomy k s.log.length with hlt | rfl | hgt
    · rw [List.getElem?_append_left hlt] at hb
      exact h.blocks k b hb
    · rw [List.getElem?_concat_length] at hb
      obtain rfl := Option.some.inj hb
      intro o ho
      have hfmt := h.format.trans hformat
      refine ⟨writePattern iover' (bio.slba + o), ?_⟩
      rw [← hfmt.datagen, ← blockData_congr hfmt, ← htime]
      exact datagenGetHeader_of_writtenBlock (hgen.written hop hcompare o ho)
    · rw [List.getElem?_eq_none (by simp; omega)] at hb
      cases hb
  · have hlt := h.committed_lt x k hk
    simp only [List.length_append, List.length_singleton]
    omega
  · simp only [Ns.put, hdesc] at hstate ⊢
    exact h.data x k hk hstate

/-- **A successful command is committed**: a write brings its own timestamp, another command that
changes its LBAs takes them out of state data. -/
theorem Inv.finish (h : Inv p iover s) (hcompare : p.compare = true) {params : JobParams}
    {bio : Bio} {t : ℕ} {job : JobView} {r : SubmitResult}
    (hl : s.ns.live i = some ⟨params, bio, .unlocked t⟩)
    (htail : submitTail s.ns.iover params job bio = some r) (hres : r.res = 0) :
    Inv p iover (s.after (.finish i) (s.ns.finish i bio t r.iover)) := by
  obtain ⟨hp, hidx, hwrite⟩ := h.tracked i _ hl
  obtain rfl : params = p := hp
  have hcore := submitTail_sameCore htail
  have hformat : s.ns.iover.SameFormat r.iover := ⟨hcore.ns, hcore.datagen⟩
  by_cases hreplay : params.slbaType = .replay
  · -- nothing was written in this run
    have hnil := h.replay hreplay
    have hnone : ∀ x, s.committed x = none := fun x => Option.eq_none_iff_forall_ne_some.mpr
      fun k hk => absurd (h.committed_lt x k hk) (by simp [hnil])
    have hop : bio.opcode ≠ .write := fun hop => h.log_ne_nil hl hop hnil
    simp only [after, hl, hop, false_and, if_false]
    exact h.frame none (Ns.finish_live _ _ _) (fun _ hl' => absurd hl'.symm (Option.some_ne_none _))
      hformat hcore.timestamp fun x => .inr (.inr (hnone x))
  · have hdesc := submitTail_blockDesc htail hres fun _ => hidx hreplay
    by_cases hw : bio.opcode = .write ∧ bio.result = 0
    · obtain ⟨hop, hzero⟩ := hw
      obtain ⟨b, hb, hsame⟩ := hwrite hop
      simp only [after, hl, hop, hzero, true_and, if_true]
      refine ⟨fun j l hj => ?_, h.format.trans hformat, hcore.timestamp.trans h.timestamp,
        h.replay, h.blocks, fun x k hk => ?_, fun x k hk hstate => ?_⟩
      · simp only [Ns.finish_live] at hj
        split at hj
        · cases hj
        · exact h.tracked j l hj
      · simp only at hk
        split at hk
        · obtain rfl := Option.some.inj hk
          exact (List.getElem?_eq_some_iff.mp hb).1
        · exact h.committed_lt x k hk
      · simp only [Ns.finish, hdesc, hzero, if_true, committedDesc, hcompare, true_and]
          at hk hstate ⊢
        split at hk
        · -- the descriptor is the one of the header in the block
          rename_i hx
          obtain rfl := Option.some.inj hk
          obtain ⟨hle, hlt⟩ := hx
          obtain ⟨pattern, hdec⟩ := h.blocks _ b hb (x - b.slba)
            (by rw [hsame.slba] at hle hlt; rw [hsame.nlbs] at hlt; omega)
          rw [← hsame.blockData, ← blockData_congr h.format, ← h.format.datagen, ← hsame.slba]
            at hdec
          rw [if_pos ⟨hle, hlt⟩, descAfter, hop]
          simp only [hdec, writtenDesc]
        · rename_i hx
          rw [if_neg hx] at hstate ⊢
          exact h.data x k hk hstate
    · simp only [after, hl, hw, if_false]
      refine h.frame none (Ns.finish_live _ _ _)
        (fun _ hl' => absurd hl'.symm (Option.some_ne_none _)) hformat hcore.timestamp fun x => ?_
      simp only [Ns.finish, hdesc]
      split
      · rename_i hzero
        rw [committedDesc]
        split
        · rw [descAfter]
          cases hop : bio.opcode with
          | write => exact absurd ⟨hop, hzero⟩ hw
          | deallocate => exact .inr (.inl (by simp))
          | writeZeroes => exact .inr (.inl (by simp))
          | writeUncorrect => exact .inr (.inl (by simp))
          | _ => exact .inl rfl
        · exact .inl rfl
      · exact .inl rfl

/-- **The step lemma.** -/
theorem Inv.step (h : Inv p iover s) (hcompare : p.compare = true) {lab : NsLabel ι}
    (hs : Step p s lab s') : Inv p iover s' := by
  obtain ⟨ns, hns, hjob, rfl⟩ := hs
  -- a slot that stays, or goes
  have hkept : ∀ i l, s.ns.live i = some l →
      ∀ l', (some l : Option LiveBio) = some l' → Tracked p s.log (s.index i) l' :=
    fun i l hl l' hl' => Option.some.inj hl' ▸ h.tracked i l hl
  have hgone : ∀ i l', (none : Option LiveBio) = some l' → Tracked p s.log (s.index i) l' :=
    fun _ _ hl' => absurd hl'.symm (Option.some_ne_none _)
  cases hns with
  | issue i params bio iover' hl hover hgen =>
    obtain ⟨rfl, hissues⟩ := hjob
    by_cases hop : bio.opcode = .write
    · simp only [after, hop, if_true]
      exact h.issueWrite hcompare hgen hop hissues
    · simp only [after, hop, if_false]
      obtain ⟨-, hformat, hdesc, -⟩ := hgen.spec
      refine h.frame (some ⟨params, bio, .issued⟩) (Ns.put_live _ _) ?_ hformat
        ((hgen.timestamp hcompare).trans (if_neg hop)) fun x => .inl (by rw [Ns.put, hdesc])
      intro l' hl'
      obtain rfl := Option.some.inj hl'
      exact ⟨rfl, hissues.histIdx, fun hw => absurd hw hop⟩
  | backup i l iover' hl hback =>
    obtain ⟨hd, hdr, rfl⟩ := backupHistState_sameButHist hback
    exact h.frame (some l) (Ns.put_live _ _) (hkept i l hl) ⟨rfl, rfl⟩ rfl fun x => .inl rfl
  | demote i l iover' hl hop hcommit =>
    obtain ⟨bd, rfl, hbd⟩ := commitBlockStateUnwritten_spec hcommit
    refine h.frame (some l) (Ns.put_live _ _) (hkept i l hl) ⟨rfl, rfl⟩ rfl ?_
    intro x
    exact (hbd x).imp_right fun hx => .inl (by simp [Ns.put, hx])
  | execute i params bio bio' hl hex =>
    refine h.frame (some ⟨params, bio', .executed s.ns.clock⟩) (Ns.execute_live _ _) ?_ (.refl _)
      rfl fun x => .inl rfl
    intro l' hl'
    obtain rfl := Option.some.inj hl'
    obtain ⟨hp, hidx, hwrite⟩ := h.tracked i _ hl
    refine ⟨hp, fun hr => hex.histIdx.trans (hidx hr), ?_⟩
    intro hop
    have hop' : bio.opcode = .write := hex.opcode.symm.trans hop
    obtain ⟨b, hb, hsame⟩ := hwrite hop'
    exact ⟨b, hb, hex.slba.trans hsame.slba, hex.nlbs.trans hsame.nlbs,
      hex.pract.trans hsame.pract,
      (hex.data (by simp [hop']) (by simp [hop'])).trans hsame.data⟩
  | drop i params bio hl =>
    exact h.frame none (Ns.put_live _ _) (hgone i) (.refl _) rfl fun x => .inl rfl
  | unlock i params bio t hl hop =>
    refine h.frame (some ⟨params, bio, .unlocked t⟩) (Ns.put_live _ _) ?_ ?_ ?_ fun x => .inl ?_
    · intro l' hl'
      obtain rfl := Option.some.inj hl'
      obtain ⟨hp, hidx, hwrite⟩ := h.tracked i _ hl
      exact ⟨hp, hidx, hwrite⟩
    all_goals
      simp only [Ns.put, submitUnlock]
      split <;> first | rfl | exact ⟨rfl, rfl⟩
  | finish i params bio t job r hl htail hres => exact h.finish hcompare hl htail hres
  | retire i params bio t hl hop =>
    exact h.frame none (Ns.put_live _ _) (hgone i) (.refl _) rfl fun x => .inl rfl

omit [DecidableEq ι] in
theorem inv_init : Inv p iover (init iover : Versions ι) where
  tracked _ _ h := by cases h
  format := ⟨rfl, rfl⟩
  timestamp := (BitVec.add_zero _).symm
  replay _ := rfl
  blocks _ _ h := by cases h
  committed_lt _ _ h := by cases h
  data _ _ h := by cases h

/-- **Stale data is detected.** When an LBA is in state data and `k` is the write bio last committed
on it, a block that holds what an earlier write bio `j` of the run wrote there is refused, if `j` is
less than 65536 write bios older. -/
theorem stale_data_rejected (ho : p.lbaOverlap = false) (hcompare : p.compare = true)
    {ls : List (NsLabel ι)} (hrun : Run (Step p) (init iover) ls s) {x j k : ℕ} {written : Bio}
    (hdata : (s.ns.iover.blockDesc x).state = .data) (hk : s.committed x = some k)
    (hj : s.log[j]? = some written) (hx : x ∈ written.range) (hjk : j < k) (hnear : k - j < 65536)
    {bio : Bio} {o : ℕ} (hblock : ∀ i < s.ns.iover.ns.dataSize,
      blockData s.ns.iover bio o i = blockData s.ns.iover written (x - written.slba) i) :
    verifyBlockData s.ns.iover p bio o (s.ns.iover.blockDesc x) ≠ 0 := by
  have hinv : Inv p iover s :=
    hrun.invariant (fun _ _ _ hi hs => hi.step hcompare hs) inv_init
  -- the block decodes to the timestamp of the earlier write
  obtain ⟨pattern, hdec⟩ := hinv.blocks j written hj (x - written.slba)
    (by have := hx.1; have := hx.2; omega)
  rw [← blockData_congr hinv.format, ← hinv.format.datagen, ← datagenGetHeader_congr fun i hi =>
    hblock i (s.ns.iover.datagen_dataSize ▸ hi)] at hdec
  -- the descriptor has the one of the later
  have hne : (time iover j).setWidth 16 ≠ (s.ns.iover.blockDesc x).timestamp := by
    rw [hinv.data x k hk hdata]
    exact setWidth_add_ne iover.timestamp (by omega) (by omega)
  have hnone : verifyBlockHeader s.ns.iover p bio o (s.ns.iover.blockDesc x) = none := by
    refine Option.eq_none_iff_forall_ne_some.mpr ?_
    intro q hq
    obtain ⟨t, ht, htime⟩ := (verifyBlockHeader_eq_some_iff ho).mp hq
    have heq : time iover j = t :=
      congrArg HeaderInfo.timestamp (Option.some.inj (hdec.symm.trans ht))
    exact hne (heq ▸ htime)
  rw [verifyBlockData, hnone]
  exact (by decide : (-1 : Int) ≠ 0)

/-- A plain job that is idle writes LBA 0 and completes it. -/
theorem exists_writeCycle (s : Versions Unit) (hidle : s.ns.live () = none)
    (hfree : (tryLockLbas s.ns.iover.lbaLock 0 1).1 = 0) :
    ∃ ls s' written, Run (Step .plain) s ls s' ∧ s'.ns.live () = none ∧
      s'.ns.iover.lbaLock = unlockLbas (tryLockLbas s.ns.iover.lbaLock 0 1).2 0 1 ∧
      s'.log = s.log ++ [written] ∧ 0 ∈ written.range ∧ s'.committed 0 = some s.log.length ∧
      (s'.ns.iover.blockDesc 0).state = .data := by
  obtain ⟨bio, s₁, s₂, s₃, s₄, hw⟩ := Ns.exists_writeCycle hidle hfree
  have hjob : OfJob .plain (NsLabel.issue () JobParams.plain bio) :=
    ⟨rfl, fun h => absurd h (by decide), fun _ => hw.histIdx⟩
  have hx : 0 ∈ bio.range := by rw [hw.range]; rfl
  let v₁ := s.after (.issue () .plain bio) s₁
  let v₂ := v₁.after (.execute () bio) s₂
  let v₃ := v₂.after (.unlock ()) s₃
  let v₄ := v₃.after (.finish ()) s₄
  have hlive : v₃.ns.live () = some ⟨.plain, bio, .unlocked s.ns.clock⟩ := by
    rw [after_ns, hw.half]
  have h₁ : v₁ = ⟨s₁, s.log ++ [bio], Function.update s.index () s.log.length, s.committed⟩ := by
    simp only [v₁, after, hw.opcode, if_true]
  have h₄ : v₄ = ⟨s₄, v₁.log, v₁.index, fun x =>
      if x ∈ bio.range then some (v₁.index ()) else v₁.committed x⟩ := by
    simp only [v₄, after, hlive, hw.opcode, hw.result, true_and, if_true]
    rfl
  have hissue : Step .plain s (.issue () .plain bio) v₁ := ⟨s₁, hw.issue, hjob, rfl⟩
  have hexecute : Step .plain v₁ (.execute () bio) v₂ :=
    ⟨s₂, by rw [after_ns]; exact hw.execute, trivial, rfl⟩
  have hunlock : Step .plain v₂ (.unlock ()) v₃ :=
    ⟨s₃, by rw [after_ns]; exact hw.unlock, trivial, rfl⟩
  have hfinish : Step .plain v₃ (.finish ()) v₄ :=
    ⟨s₄, by rw [after_ns]; exact hw.finish, trivial, rfl⟩
  refine ⟨_, v₄, bio,
    .cons hissue (.cons hexecute (.cons hunlock (.single hfinish))), ?_⟩
  simp only [h₄, h₁, hw.live, hw.lbaLock, hw.data, hx, if_true, Function.update_self, and_self]

/-- Two writes of LBA 0. -/
theorem two_writes_run : ∃ (ls : List (NsLabel Unit)) (s : Versions Unit) (first : Bio),
    Run (Step .plain) (init (Iover.plain .zero)) ls s ∧
      (s.ns.iover.blockDesc 0).state = .data ∧ s.committed 0 = some 1 ∧
      s.log[0]? = some first ∧ 0 ∈ first.range := by
  obtain ⟨ls₁, s₁, first, hrun₁, hidle, hlock, hlog₁, hrange, -, -⟩ :=
    exists_writeCycle (init (Iover.plain .zero)) rfl (by decide)
  obtain ⟨ls₂, s₂, second, hrun₂, -, -, hlog₂, -, hk, hdata⟩ :=
    exists_writeCycle s₁ hidle (by rw [hlock]; decide)
  refine ⟨ls₁ ++ ls₂, s₂, first, hrun₁.append hrun₂, hdata, ?_, ?_, hrange⟩
  · rw [hk, hlog₁]
    rfl
  · rw [hlog₂, hlog₁]
    rfl

/-- What the first of two writes left is refused after the second. -/
theorem stale_data_rejected_two_writes : ∃ (ls : List (NsLabel Unit)) (s : Versions Unit)
    (first : Bio), Run (Step .plain) (init (Iover.plain .zero)) ls s ∧
      (s.ns.iover.blockDesc 0).state = .data ∧ s.log[0]? = some first ∧
      verifyBlockData s.ns.iover .plain first (0 - first.slba) (s.ns.iover.blockDesc 0) ≠ 0 := by
  obtain ⟨ls, s, first, hrun, hdata, hk, hfirst, hrange⟩ := two_writes_run
  exact ⟨ls, s, first, hrun, hdata, hfirst, stale_data_rejected rfl rfl hrun hdata hk hfirst hrange
    Nat.zero_lt_one (by decide) fun _ _ => rfl⟩

end Versions

end ChamberSpo

import ChamberSpo.ReferenceDevice

/-!
# Any number of jobs against a reference device

The jobs of `Ns.Step`, with the device of `ReferenceDevice` beside them: each job has its own
parameters, a bio is completed in two halves, and a command that the device executed may wait for
its commit while others are executed, committed and verified.

* `Ns.descBefore` — the descriptor that an LBA had for the device before its command of number `t`:
  what is committed, and then the older ones of what is pending. `Ns.Inv.read_step`: no step of
  another bio changes it for a read that was executed with that number.
* `Shared.Step` — the interleaving. Only `execute` has to do with the device, which may answer a
  read with anything; in an honest step (`Shared.Honest`) it answers with what it holds.
* `Shared.Inv.step` — what holds whatever the device answers. `Reads.step` — and if it is honest.
* `verifyBioRead_of_readBack` — a settled read that returned what its LBAs held is found good.
-/

namespace ChamberSpo

/-! ## Versions of a block -/

/-- What the write bio with timestamp `t` has for LBA `x`. -/
def version (iover : Iover) (x : ℕ) (t : BitVec 64) : Buf :=
  writtenBlock { iover with timestamp := t } x

def HoldsVersion (iover : Iover) (x : ℕ) (t : BitVec 64) (block : Buf) : Prop :=
  ∀ i < iover.ns.dataSize, block i = version iover x t i

/-- The blocks of a write are versions of its LBAs. -/
def Genuine (iover : Iover) (bio : Bio) : Prop :=
  ∀ o < bio.nlbs, ∃ t, HoldsVersion iover (bio.slba + o) t (blockData iover bio o)

section Genuine

variable {iover iover' : Iover} {params : JobParams} {bio : Bio} {x : ℕ} {t : BitVec 64}
  {block : Buf}

theorem version_congr (h : iover.SameFormat iover') : version iover' x t = version iover x t := by
  change datagenSetData iover'.datagen _ _ t
    (BitVec.ofNat 8 ((t + BitVec.ofNat 64 x).toNat % iover'.datagen.npatterns)) = _
  rw [h.datagen]
  rfl

theorem HoldsVersion.congr (h : iover.SameFormat iover') :
    HoldsVersion iover' x t block ↔ HoldsVersion iover x t block := by
  rw [HoldsVersion, HoldsVersion, version_congr h, h.ns]

theorem HoldsVersion.header (h : HoldsVersion iover x t block) :
    datagenGetHeader iover.datagen block
      = some ⟨BitVec.ofNat 64 x, t, writePattern { iover with timestamp := t } x⟩ :=
  datagenGetHeader_of_writtenBlock
    (show ∀ i < ({ iover with timestamp := t } : Iover).ns.dataSize, block i = writtenBlock _ x i
      from h)

theorem Generates.genuine (h : Generates iover params iover' bio) (hop : bio.opcode = .write)
    (hc : params.compare = true) : Genuine iover' bio :=
  fun o ho => ⟨iover'.timestamp, h.written hop hc o ho⟩

theorem Genuine.congr (h : iover.SameFormat iover') (hg : Genuine iover' bio) :
    Genuine iover bio := by
  intro o ho
  obtain ⟨t, ht⟩ := hg o ho
  rw [blockData_congr h, HoldsVersion.congr h] at ht
  exact ⟨t, ht⟩

theorem Genuine.written (h : Genuine iover bio) : Written iover bio := by
  intro o ho
  obtain ⟨t, ht⟩ := h o ho
  exact exists_holds (writePattern_lt { iover with timestamp := t } _) ht

end Genuine

/-! ## The descriptor before a command -/

namespace Ns

variable {ι : Type*} [DecidableEq ι] {s : Ns ι} {i : ι} {x t : ℕ}

/-- The descriptor of LBA `x` after the commands that the device executed before its number `t`. -/
def descBefore (s : Ns ι) (t x : ℕ) : BlockDesc :=
  ((s.pending x).filter fun e => e.stamp < t).foldl (fun d e => descAfter s.iover e.bio x d)
    (s.iover.blockDesc x)

theorem descBefore_put {l : Option LiveBio} {iover : Iover} (hformat : s.iover.SameFormat iover)
    (hdesc : iover.blockDesc = s.iover.blockDesc) :
    (s.put i l iover).descBefore t x = s.descBefore t x := by
  change ((s.pending x).filter _).foldl (fun d e => descAfter iover e.bio x d) (iover.blockDesc x)
    = s.descBefore t x
  rw [descAfter_congr hformat, hdesc]
  rfl

/-- A command that is executed now comes after all that were. -/
theorem descBefore_execute (i : ι) (params : JobParams) (bio : Bio) (ht : t ≤ s.clock) :
    (s.execute i params bio).descBefore t x = s.descBefore t x := by
  have hpend : ((s.execute i params bio).pending x).filter (fun e => e.stamp < t)
      = (s.pending x).filter fun e => e.stamp < t := by
    simp only [execute]
    split
    · rw [List.filter_append, List.filter_cons_of_neg (by simpa using ht), List.filter_nil,
        List.append_nil]
    · rfl
  rw [descBefore, hpend]
  rfl

omit [DecidableEq ι] in
/-- Before the next command, the descriptor is the one after the last command. -/
theorem Inv.descBefore_clock (h : s.Inv) : s.descBefore s.clock x = s.last x := by
  have hall : ∀ e ∈ s.pending x, decide (e.stamp < s.clock) = true := by
    intro e he
    obtain ⟨l, hl, -, ht, -⟩ := (h.pending_iff x e).mp he
    exact decide_eq_true (h.stamp_lt e.slot l e.stamp hl ht)
  rw [descBefore, List.filter_eq_self.mpr hall, h.fold x]

/-- **A commit takes nothing away from a read**: a command that is committed on an LBA was executed
before the reads of that LBA which wait to be verified. -/
theorem Inv.descBefore_finish (h : s.Inv) {params : JobParams} {bio : Bio} {t₀ : ℕ} {job : JobView}
    {r : SubmitResult} (hl : s.live i = some ⟨params, bio, .unlocked t₀⟩)
    (htail : submitTail s.iover params job bio = some r) (hres : r.res = 0)
    (hidx : bio.opcode = .read → bio.histIdx = noHistIdx)
    (hgap : bio.changes → ∀ j lj tj, s.live j = some lj → lj.phase = .unlocked tj → tj < t₀ →
      (lj.bio.changes ∨ lj.bio.opcode = .read ∧ lj.bio.result = 0) →
      Disjoint bio.range lj.bio.range)
    (hlt : bio.changes → x ∈ bio.range → t₀ < t) :
    (s.finish i bio t₀ r.iover).descBefore t x = s.descBefore t x := by
  have hcore := submitTail_sameCore htail
  have hdesc := submitTail_blockDesc htail hres hidx
  change (((s.pending x).filter _).filter _).foldl (fun d e => descAfter r.iover e.bio x d)
    (r.iover.blockDesc x) = s.descBefore t x
  rw [descAfter_congr ⟨hcore.ns, hcore.datagen⟩, hdesc, descBefore]
  by_cases hch : bio.changes ∧ x ∈ bio.range
  · -- it is the oldest one that is pending, and older than `t`
    obtain ⟨hch, hx⟩ := hch
    obtain ⟨rest, hpend⟩ := h.pending_head hl hch hx (hgap hch)
    have hrest : ∀ e ∈ rest, decide (e.slot ≠ i) = true := by
      intro e he
      rw [decide_eq_true_iff]
      rintro rfl
      obtain ⟨l, hle, -, ht, -⟩ := (h.pending_iff x e).mp (hpend ▸ List.mem_cons_of_mem _ he)
      obtain rfl := Option.some.inj (hle.symm.trans hl)
      have hsorted := h.sorted x
      rw [hpend] at hsorted
      exact absurd (Option.some.inj ht) ((List.pairwise_cons.mp hsorted).1 e he).ne
    rw [hpend, List.filter_cons_of_neg (by simp), List.filter_eq_self.mpr hrest,
      List.filter_cons_of_pos (by simpa using hlt hch hx), List.foldl_cons,
      if_pos (changes_result hch), committedDesc, if_pos ⟨h.compare i _ t₀ hl rfl hch, hx⟩]
  · -- it is not pending here, and its commit does nothing here
    have hall : ∀ e ∈ s.pending x, decide (e.slot ≠ i) = true := by
      intro e he
      rw [decide_eq_true_iff]
      intro hei
      obtain ⟨l, hle, hb, -, hche, hxe⟩ := (h.pending_iff x e).mp he
      rw [hei] at hle
      obtain rfl := Option.some.inj (hle.symm.trans hl)
      obtain rfl : bio = e.bio := hb
      exact hch ⟨hche, hxe⟩
    rw [List.filter_eq_self.mpr hall]
    congr 1
    split
    · rename_i hzero
      rw [committedDesc]
      split
      · rename_i hx
        exact descAfter_of_not_changes hzero fun hch' => hch ⟨hch', hx.2⟩
      · rfl
    · rfl

omit [DecidableEq ι] in
/-- When nothing older waits half completed on the LBA, what is committed is all there is. -/
theorem Inv.descBefore_eq_blockDesc (h : s.Inv) {l : LiveBio} (hl : s.live i = some l)
    (ht : l.phase.stamp = some t) (hop : l.bio.opcode = .read) (hzero : l.bio.result = 0)
    (hx : x ∈ l.bio.range) (hgap : ∀ j lj tj, s.live j = some lj → lj.phase = .unlocked tj →
      tj < t → lj.bio.changes → x ∉ lj.bio.range) : s.descBefore t x = s.iover.blockDesc x := by
  have hnone : (s.pending x).filter (fun e => e.stamp < t) = [] := by
    refine List.filter_eq_nil_iff.mpr ?_
    intro e he hlt
    have hlt : e.stamp < t := of_decide_eq_true hlt
    obtain ⟨lj, hj, hb, htj, hch, hxj⟩ := (h.pending_iff x e).mp he
    rw [← hb] at hch hxj
    have hunl : lj.phase = .unlocked e.stamp :=
      h.order e.slot i lj l e.stamp t x hj hl htj ht hlt hxj hx
        (takesLock_of_changes (h.noOverlap _ _ hj) (.inl hch))
        (takesLock_of_changes (h.noOverlap _ _ hl) (.inr ⟨hop, hzero⟩))
    exact hgap e.slot lj e.stamp hj hunl hlt hch hxj
  rw [descBefore, hnone, List.foldl_nil]

/-- A successful read in slot `j` was there before the step, and what its LBAs had before it is the
same. -/
structure KeepsRead (s s' : Ns ι) (j : ι) (l : LiveBio) (t : ℕ) : Prop where
  live : ∃ l₀, s.live j = some l₀ ∧ l₀.params = l.params ∧ l₀.bio = l.bio ∧
    l₀.phase.stamp = some t
  descBefore : ∀ x ∈ l.bio.range, s'.descBefore t x = s.descBefore t x

/-- The device executes the read of slot `j`, after all that it has executed. -/
structure ExecutesRead (s s' : Ns ι) (lab : NsLabel ι) (j : ι) (l : LiveBio) (t : ℕ) : Prop where
  label : lab = .execute j l.bio
  issued : ∃ before, s.live j = some ⟨l.params, before, .issued⟩ ∧ before.Executes l.bio
  stamp : t = s.clock
  descBefore : ∀ x, s'.descBefore t x = s.last x

/-- A slot that is put forward, or emptied. -/
theorem keepsRead_put {new : Option LiveBio} {iover : Iover} {l : LiveBio} {j : ι}
    (hformat : s.iover.SameFormat iover) (hdesc : iover.blockDesc = s.iover.blockDesc)
    (hnew : ∀ l, new = some l → l.phase.stamp = some t → ∃ l₀, s.live i = some l₀ ∧
      l₀.params = l.params ∧ l₀.bio = l.bio ∧ l₀.phase.stamp = some t)
    (hj : (s.put i new iover).live j = some l) (ht : l.phase.stamp = some t) :
    s.KeepsRead (s.put i new iover) j l t := by
  refine ⟨?_, fun x _ => descBefore_put hformat hdesc⟩
  rw [put_live] at hj
  split at hj
  · rename_i hji
    exact hji ▸ hnew l hj ht
  · exact ⟨l, hj, rfl, rfl, ht⟩

/-- **What a step does to the reads**: it executes one, or none, and keeps the others. -/
theorem Inv.read_step (h : s.Inv) {s' : Ns ι} {lab : NsLabel ι} (hord : s.Orderly lab)
    (hs : s.Step lab s') {j : ι} {l : LiveBio} (hj : s'.live j = some l)
    (ht : l.phase.stamp = some t) (hop : l.bio.opcode = .read) (hzero : l.bio.result = 0) :
    s.KeepsRead s' j l t ∨ s.ExecutesRead s' lab j l t := by
  cases hs with
  | issue i params bio iover' hl hover hgen =>
    obtain ⟨-, hformat, hdesc, -⟩ := hgen.spec
    refine .inl (keepsRead_put hformat hdesc ?_ hj ht)
    intro l' hl' ht'
    obtain rfl := Option.some.inj hl'
    cases ht'
  | backup i l₀ iover' hl hback =>
    obtain ⟨hd, hdr, rfl⟩ := backupHistState_sameButHist hback
    refine .inl (keepsRead_put ⟨rfl, rfl⟩ rfl ?_ hj ht)
    intro l' hl' ht'
    obtain rfl := Option.some.inj hl'
    exact ⟨l₀, hl, rfl, rfl, ht'⟩
  | demote => exact hord.elim
  | execute i params bio bio' hl hex =>
    rw [execute_live] at hj
    split at hj
    · rename_i hji
      obtain rfl := Option.some.inj hj
      obtain rfl := Option.some.inj ht
      refine .inr ⟨hji ▸ rfl, ⟨bio, hji ▸ hl, hex⟩, rfl, ?_⟩
      intro x
      rw [descBefore_execute i params bio' le_rfl]
      exact h.descBefore_clock
    · refine .inl ⟨⟨l, hj, rfl, rfl, ht⟩, ?_⟩
      intro x _
      exact descBefore_execute i params bio' (h.stamp_lt j l t hj ht).le
  | drop i params bio hl =>
    exact .inl (keepsRead_put ⟨rfl, rfl⟩ rfl
      (fun _ hl' => absurd hl'.symm (Option.some_ne_none _)) hj ht)
  | unlock i params bio t₀ hl hop' =>
    have hsame : s.iover.SameFormat (submitUnlock s.iover params bio) ∧
        (submitUnlock s.iover params bio).blockDesc = s.iover.blockDesc := by
      simp only [submitUnlock]
      split <;> exact ⟨⟨rfl, rfl⟩, rfl⟩
    refine .inl (keepsRead_put hsame.1 hsame.2 ?_ hj ht)
    intro l' hl' ht'
    obtain rfl := Option.some.inj hl'
    exact ⟨_, hl, rfl, rfl, ht'⟩
  | finish i params bio t₀ job r hl htail hres =>
    obtain ⟨hidx, hgap⟩ := hord _ t₀ hl rfl
    obtain ⟨hji, hj'⟩ := live_of_finish hj
    refine .inl ⟨⟨l, hj', rfl, rfl, ht⟩, ?_⟩
    intro x hx
    exact h.descBefore_finish hl htail hres hidx hgap
      fun hch hxi => h.reads_finish hl hgap hji hj' ht hop hzero hx hch hxi
  | retire i params bio t₀ hl hop' =>
    exact .inl (keepsRead_put ⟨rfl, rfl⟩ rfl
      (fun _ hl' => absurd hl'.symm (Option.some_ne_none _)) hj ht)

end Ns

/-! ## The system -/

namespace Shared

variable {ι : Type*} [DecidableEq ι]

/-- The steps of the jobs and of the device, which refuses to change LBAs that it does not have. The
content is what it is to hold: what a read returns has nothing to do with it. -/
inductive Step (s : RefSystem ι) : NsLabel ι → RefSystem ι → Prop
  | execute (i : ι) (params : JobParams) (before bio : Bio) :
    s.ns.live i = some ⟨params, before, .issued⟩ → before.Executes bio →
    (bio.changes → bio.slba + bio.nlbs ≤ s.ns.iover.ns.nlbs) →
    Step s (.execute i bio)
      ⟨s.ns.execute i params bio, contentAfter s.ns.iover bio s.content⟩
  | verifier (lab : NsLabel ι) (ns : Ns ι) :
    (∀ i bio, lab ≠ .execute i bio) → s.ns.Step lab ns → Step s lab { s with ns := ns }

/-- The steps that stay clear of the gap between unlock and commit. -/
def Orderly (s : RefSystem ι) (lab : NsLabel ι) : Prop := s.ns.Orderly lab

/-- A device that answers successful reads with what it holds. -/
def Answers (s : RefSystem ι) (lab : NsLabel ι) : Prop :=
  ∀ i bio l, lab = .execute i bio → s.ns.live i = some l → bio.opcode = .read → bio.result = 0 →
    Serves s.ns.iover l.params s.content bio

/-- The orderly steps with such a device. -/
def Honest (s : RefSystem ι) (lab : NsLabel ι) : Prop := Orderly s lab ∧ Answers s lab

/-- A verifier nobody uses yet, and a device with content. -/
def init (iover : Iover) (content : ℕ → Content) : RefSystem ι where
  ns := .init iover
  content := content

variable {s s' : RefSystem ι} {iover : Iover} {i : ι} {l : LiveBio} {t : ℕ}
  {lab : NsLabel ι}

/-- The read returned what its LBAs held when it was executed, as its number `t`. -/
def ReadBack (iover : Iover) (ns : Ns ι) (l : LiveBio) (t : ℕ) : Prop :=
  ∀ o < l.bio.nlbs, ∃ c block,
    Describes iover (l.bio.slba + o) (ns.descBefore t (l.bio.slba + o)) c ∧
      c.read l.params = some block ∧ ∀ k < iover.ns.dataSize, blockData iover l.bio o k = block k

/-- No command that was executed before number `t` waits half completed on an LBA of the bio. -/
def Settled (ns : Ns ι) (bio : Bio) (t : ℕ) : Prop :=
  ∀ j lj tj, ns.live j = some lj → lj.phase = .unlocked tj → tj < t → lj.bio.changes →
    Disjoint bio.range lj.bio.range

/-- Every settled read that the device completed with success is found good. -/
def ReadsGood (ns : Ns ι) : Prop :=
  ∀ i l t, ns.live i = some l → l.phase.stamp = some t → l.bio.opcode = .read →
    l.bio.result = 0 → Settled ns l.bio t →
    verifyBioRead ns.iover l.params l.bio = 0 ∧
      ∀ job, l.bio.histIdx = noHistIdx → l.bio.expectedResult = 0 →
        submitTail ns.iover l.params job l.bio = some ⟨0, ns.iover, job, 0⟩

/-- The descriptors say what the device holds, and the device holds nothing beyond its end. -/
structure Consistent (iover : Iover) (content : ℕ → Content) : Prop where
  describes : ∀ x, Describes iover x (iover.blockDesc x) (content x)
  outside : ∀ x, iover.ns.nlbs ≤ x → content x = .unwritten

/-- What holds of the jobs and the device, whatever it answers. -/
structure Inv (iover : Iover) (s : RefSystem ι) : Prop where
  ns : s.ns.Inv
  format : iover.SameFormat s.ns.iover
  written : ∀ i l, s.ns.live i = some l → l.params.compare = true → l.bio.opcode = .write →
    Genuine iover l.bio
  describes : ∀ x, Describes iover x (s.ns.last x) (s.content x)
  outside : ∀ x, iover.ns.nlbs ≤ x → s.content x = .unwritten

/-- The successful reads in flight returned what their LBAs held. -/
def Reads (iover : Iover) (s : RefSystem ι) : Prop :=
  ∀ i l t, s.ns.live i = some l → l.phase.stamp = some t → l.bio.opcode = .read →
    l.bio.result = 0 → ReadBack iover s.ns l t

/-- A step that the device takes no part in. -/
theorem honest_verifier (lab : NsLabel ι) {ns : Ns ι} (h : ∀ i bio, lab ≠ .execute i bio)
    (hord : s.ns.Orderly lab) (hs : s.ns.Step lab ns) :
    guarded Step Honest s lab { s with ns := ns } :=
  ⟨⟨hord, fun i bio _ hlab => absurd hlab (h i bio)⟩, .verifier lab ns h hs⟩

omit [DecidableEq ι] in
/-- Who executes no read, answers none. -/
theorem answers_execute {bio : Bio} (hop : bio.opcode ≠ .read) : Answers s (.execute i bio) := by
  intro j bio' l hlab _ hop'
  obtain ⟨-, rfl⟩ := NsLabel.execute.inj hlab
  exact absurd hop' hop

theorem Step.ns_step (hs : Step s lab s') : s.ns.Step lab s'.ns := by
  cases hs with
  | execute i params before bio hl hex hinside => exact .execute i params before bio hl hex
  | verifier lab ns hne hs => exact hs

omit [DecidableEq ι] in
/-- A step of the verifier: what is in the slots was there before, or has just been issued. -/
theorem Inv.verifier (h : Inv iover s) {ns : Ns ι} (hns : ns.Inv)
    (hformat : s.ns.iover.SameFormat ns.iover) (hlast : ns.last = s.ns.last)
    (hlive : ∀ j l, ns.live j = some l →
      (∃ l₀, s.ns.live j = some l₀ ∧ l₀.params = l.params ∧ l₀.bio = l.bio) ∨
        (l.params.compare = true → l.bio.opcode = .write → Genuine iover l.bio)) :
    Inv iover { s with ns := ns } := by
  refine ⟨hns, h.format.trans hformat, ?_, fun x => (hlast ▸ h.describes x :), h.outside⟩
  intro j l hj hc hop
  rcases hlive j l hj with ⟨l₀, hl₀, hparams, hbio⟩ | hw
  · rw [← hbio] at hop ⊢
    exact h.written j l₀ hl₀ (hparams ▸ hc) hop
  · exact hw hc hop

/-- A move of one slot that touches nothing the device has done. -/
theorem Inv.put (h : Inv iover s) {l' : Option LiveBio} {iover' : Iover}
    (hns : (s.ns.put i l' iover').Inv) (hformat : s.ns.iover.SameFormat iover')
    (hnew : ∀ l, l' = some l →
      (∃ l₀, s.ns.live i = some l₀ ∧ l₀.params = l.params ∧ l₀.bio = l.bio) ∨
        (l.params.compare = true → l.bio.opcode = .write → Genuine iover l.bio)) :
    Inv iover { s with ns := s.ns.put i l' iover' } := by
  refine h.verifier hns hformat rfl ?_
  intro j l hj
  rw [Ns.put_live] at hj
  split at hj
  · rename_i hji
    exact hji ▸ hnew l hj
  · exact .inl ⟨l, hj, rfl, rfl⟩

/-- **The device executes a command.** -/
theorem Inv.execute (h : Inv iover s) {params : JobParams} {before bio : Bio}
    (hl : s.ns.live i = some ⟨params, before, .issued⟩) (hex : before.Executes bio)
    (hcompare : bio.changes → params.compare = true)
    (hinside : bio.changes → bio.slba + bio.nlbs ≤ s.ns.iover.ns.nlbs) :
    Inv iover ⟨s.ns.execute i params bio, contentAfter s.ns.iover bio s.content⟩ := by
  have hwritten : params.compare = true → bio.opcode = .write → Genuine iover bio := by
    intro hc hop
    have hop' : before.opcode = .write := hex.opcode.symm.trans hop
    have hblock : ∀ o, blockData iover bio o = blockData iover before o := by
      intro o
      rw [blockData, blockData, getBlockSize, getBlockSize, hex.pract,
        hex.data (by simp [hop']) (by simp [hop'])]
    intro o ho
    rw [hblock, hex.slba]
    exact h.written i _ hl hc hop' o (hex.nlbs ▸ ho)
  refine ⟨h.ns.execute hl hex hcompare, h.format, ?_, ?_, ?_⟩
  · intro j l hj hc hop
    change (s.ns.execute i params bio).live j = some l at hj
    rw [Ns.execute_live] at hj
    split at hj
    · obtain rfl := Option.some.inj hj
      exact hwritten hc hop
    · exact h.written j l hj hc hop
  · intro x
    simp only [Ns.execute, contentAfter]
    split
    · rename_i hx
      have hcontent : (s.content x).after s.ns.iover bio x = (s.content x).after iover bio x := by
        rw [Content.after, Content.after, blockData_congr h.format]
      rw [descAfter_congr h.format, hcontent]
      exact .after hx.1 hx.2 fun hop => (hwritten (hcompare hx.1) hop).written
    · exact h.describes x
  · intro x hx
    refine (if_neg ?_).trans (h.outside x hx)
    rintro ⟨hch, -, hlt⟩
    have hin := hinside hch
    rw [h.format.ns] at hin
    omega

/-- **The step lemma.** -/
theorem Inv.step (h : Inv iover s) (hs : guarded Step Orderly s lab s') : Inv iover s' := by
  obtain ⟨hord, hs⟩ := hs
  cases hs with
  | execute i params before bio hl hex hinside =>
    exact h.execute hl hex (fun hch => hord hch _ hl) hinside
  | verifier lab ns hne hs =>
    have hns := h.ns.step hord hs
    cases hs with
    | issue i params bio iover' hl hover hgen =>
      obtain ⟨-, hformat, -, -⟩ := hgen.spec
      refine h.put hns hformat ?_
      intro l hl'
      obtain rfl := Option.some.inj hl'
      exact .inr fun hc hop => (hgen.genuine hop hc).congr (h.format.trans hformat)
    | backup i l iover' hl hback =>
      obtain ⟨hd, hdr, rfl⟩ := backupHistState_sameButHist hback
      refine h.put hns ⟨rfl, rfl⟩ ?_
      intro l' hl'
      obtain rfl := Option.some.inj hl'
      exact .inl ⟨l, hl, rfl, rfl⟩
    | demote i l iover' hl hop hcommit => exact hord.elim
    | execute i params bio bio' hl hex => exact absurd rfl (hne i bio')
    | drop i params bio hl =>
      refine h.put hns ⟨rfl, rfl⟩ ?_
      rintro l hl'
      cases hl'
    | unlock i params bio t hl hop =>
      have hsame : s.ns.iover.SameFormat (submitUnlock s.ns.iover params bio) := by
        simp only [submitUnlock]
        split <;> exact ⟨rfl, rfl⟩
      refine h.put hns hsame ?_
      intro l hl'
      obtain rfl := Option.some.inj hl'
      exact .inl ⟨_, hl, rfl, rfl⟩
    | finish i params bio t₀ job r hl htail hres =>
      have hcore := submitTail_sameCore htail
      refine h.verifier hns ⟨hcore.ns, hcore.datagen⟩ rfl ?_
      intro j l hj
      exact .inl ⟨l, (Ns.live_of_finish hj).2, rfl, rfl⟩
    | retire i params bio t hl hop =>
      refine h.put hns ⟨rfl, rfl⟩ ?_
      rintro l hl'
      cases hl'

/-- **The step lemma for the reads**, when the device is honest. -/
theorem Reads.step (hr : Reads iover s) (h : Inv iover s) (hs : guarded Step Honest s lab s') :
    Reads iover s' := by
  obtain ⟨⟨hord, hanswers⟩, hs⟩ := hs
  intro i l t hl ht hop hzero
  rcases h.ns.read_step hord hs.ns_step hl ht hop hzero with hkeeps | hexec
  · obtain ⟨l₀, hl₀, hparams, hbio, ht₀⟩ := hkeeps.live
    have hback := hr i l₀ t hl₀ ht₀ (hbio ▸ hop) (hbio ▸ hzero)
    intro o ho
    obtain ⟨c, block, hd, hread, hdata⟩ := hback o (hbio ▸ ho)
    rw [hparams] at hread
    rw [hbio] at hd hdata
    refine ⟨c, block, ?_, hread, hdata⟩
    rwa [hkeeps.descBefore _ ⟨Nat.le_add_right _ _, Nat.add_lt_add_left ho _⟩]
  · obtain ⟨before, hbefore, -⟩ := hexec.issued
    intro o ho
    obtain ⟨block, hread, hdata⟩ :=
      (hanswers i l.bio _ hexec.label hbefore hop hzero).congr h.format o ho
    refine ⟨s.content (l.bio.slba + o), block, ?_, hread, hdata⟩
    rw [hexec.descBefore]
    exact h.describes (l.bio.slba + o)

omit [DecidableEq ι] in
theorem inv_init {content : ℕ → Content} (h : Consistent iover content) :
    Inv iover (init iover content : RefSystem ι) where
  ns := Ns.inv_init iover
  format := ⟨rfl, rfl⟩
  written _ _ h := by cases h
  describes := h.describes
  outside := h.outside

/-- The invariant holds in every state of an orderly run. -/
theorem inv_of_run {content : ℕ → Content} (h : Consistent iover content) {ls : List (NsLabel ι)}
    (hrun : Run (guarded Step Orderly) (init iover content) ls s) : Inv iover s :=
  hrun.invariant (fun _ _ _ hi hs => hi.step hs) (inv_init h)

/-- And if the device is honest, the reads returned what their LBAs held. -/
theorem reads_of_run {content : ℕ → Content} (h : Consistent iover content)
    {ls : List (NsLabel ι)} (hrun : Run (guarded Step Honest) (init iover content) ls s) :
    Inv iover s ∧ Reads iover s :=
  hrun.invariant (I := fun s => Inv iover s ∧ Reads iover s)
    (fun _ _ _ hi hs => ⟨hi.1.step ⟨hs.1.1, hs.2⟩, hi.2.step hi.1 hs⟩)
    ⟨inv_init h, fun _ _ _ hl => by cases hl⟩

omit [DecidableEq ι] in
/-- Where no bio is in flight, the descriptor says what the device holds. -/
theorem Inv.blockDesc (h : Inv iover s) {x : ℕ}
    (hx : ∀ i l, s.ns.live i = some l → x ∉ l.bio.range) :
    Describes iover x (s.ns.iover.blockDesc x) (s.content x) := by
  rw [h.ns.blockDesc_eq_last fun i l _ hl _ _ => hx i l hl]
  exact h.describes x

omit [DecidableEq ι] in
/-- What a settled read is verified with. -/
theorem Inv.settled (h : Inv iover s) (hl : s.ns.live i = some l) (ht : l.phase.stamp = some t)
    (hop : l.bio.opcode = .read) (hzero : l.bio.result = 0) (hgap : Settled s.ns l.bio t) {x : ℕ}
    (hx : x ∈ l.bio.range) : s.ns.descBefore t x = s.ns.iover.blockDesc x :=
  h.ns.descBefore_eq_blockDesc hl ht hop hzero hx fun j lj tj hj hphase hlt hch hxj =>
    Set.disjoint_left.mp (hgap j lj tj hj hphase hlt hch) hx hxj

omit [DecidableEq ι] in
/-- **A read that is verified** is found good when it returned what its LBAs held. -/
theorem verifyBioRead_of_readBack (h : Inv iover s) (hmeta : iover.ns.metaSize = 0)
    (hl : s.ns.live i = some l) (ht : l.phase.stamp = some t) (hop : l.bio.opcode = .read)
    (hzero : l.bio.result = 0) (hgap : Settled s.ns l.bio t) (hback : ReadBack iover s.ns l t) :
    verifyBioRead s.ns.iover l.params l.bio = 0 := by
  have hover : l.params.lbaOverlap = false := h.ns.noOverlap i l hl
  refine (verifyBioRead_eq_zero_iff hover).mpr ?_
  intro o ho
  obtain ⟨c, block, hd, hread, hdata⟩ := hback o ho
  rw [h.settled hl ht hop hzero hgap ⟨Nat.le_add_right _ _, Nat.add_lt_add_left ho _⟩] at hd
  rw [← blockData_congr h.format, ← h.format.ns] at hdata
  exact lbaResult_of_describes hover (h.format.ns ▸ hmeta) (hd.congr h.format) hread hdata

/-- The settled reads of an honest device. -/
theorem readsGood_of_run {content : ℕ → Content} (hmeta : iover.ns.metaSize = 0)
    (h : Consistent iover content) {ls : List (NsLabel ι)}
    (hrun : Run (guarded Step Honest) (init iover content) ls s) : ReadsGood s.ns := by
  obtain ⟨hinv, hreads⟩ := reads_of_run h hrun
  intro i l t hl ht hop hzero hgap
  have hv := verifyBioRead_of_readBack hinv hmeta hl ht hop hzero hgap
    (hreads i l t hl ht hop hzero)
  exact ⟨hv, fun job hidx hexp => submitTail_read hop hidx hzero hexp hv⟩

/-- **No false alarm among jobs.** The namespace has no metadata, and the descriptors say what the
device holds at first. In every orderly run of any number of jobs on an honest device they say so
wherever no bio is in flight, and `iover_submit` finds every settled read good that the device
completed with success. -/
theorem no_false_alarm_shared {content : ℕ → Content} (hmeta : iover.ns.metaSize = 0)
    (h : Consistent iover content) {ls : List (NsLabel ι)}
    (hrun : Run (guarded Step Honest) (init iover content) ls s) :
    (∀ x, (∀ i l, s.ns.live i = some l → x ∉ l.bio.range) →
        Describes iover x (s.ns.iover.blockDesc x) (s.content x)) ∧ ReadsGood s.ns :=
  ⟨fun _ hx => (reads_of_run h hrun).1.blockDesc hx, readsGood_of_run hmeta h hrun⟩

/-- One job has zeroed LBA 0 and is half completed when the read of LBA 1 by another one is
verified. -/
theorem no_false_alarm_neighbours : ∃ (ls : List (NsLabel Bool)) (s : RefSystem Bool) (bio : Bio),
    Run (guarded Step Honest) (init (Iover.plain .zero) fun _ => .unwritten) ls s ∧
      (∃ l, s.ns.live false = some l ∧ l.phase = .unlocked 1) ∧
      s.ns.live true = some ⟨.plain, bio, .executed 2⟩ ∧ bio.opcode = .read ∧
      ChamberSpo.verifyBioRead s.ns.iover .plain bio = 0 := by
  let zeroes : Bio := .plain .writeZeroes 0 1 fun _ => 0
  let read : Bio := .plain .read 1 1 fun _ => 0
  have hapart : Disjoint read.range zeroes.range :=
    Set.disjoint_left.mpr fun x hx hx' => absurd (hx'.2.trans_le hx.1) (lt_irrefl _)
  obtain ⟨ls, s, hrun, hfalse, htrue⟩ : ∃ (ls : List (NsLabel Bool)) (s : RefSystem Bool),
      Run (guarded Step Honest) (init (Iover.plain .zero) fun _ => .unwritten) ls s ∧
        s.ns.live false = some ⟨.plain, zeroes, .unlocked 1⟩ ∧
        s.ns.live true = some ⟨.plain, read, .executed 2⟩ := by
    refine ⟨_, _, .cons (honest_verifier (.issue false .plain zeroes) nofun trivial
        (.issue false .plain zeroes _ rfl rfl
          (generates_of_free _ (by decide) (by decide) (by decide) (by decide) rfl (by decide)))) <|
      .cons ⟨⟨?_, answers_execute (by decide)⟩,
        .execute false .plain zeroes zeroes rfl (.refl _) fun _ => by decide⟩ <|
      .cons (honest_verifier (.unlock false) nofun ?_
        (.unlock false .plain zeroes 1 rfl (by decide))) <|
      .cons (honest_verifier (.issue true .plain read) nofun trivial
        (.issue true .plain read _ rfl rfl
          (generates_of_free _ (by decide) (by decide) (by decide) (by decide) rfl (by decide)))) <|
      .cons ⟨⟨?_, ?_⟩, .execute true .plain read read rfl (.refl _) nofun⟩ <| .nil _, rfl, rfl⟩
    · intro _ l hl
      obtain rfl := Option.some.inj (show some _ = some l from hl)
      rfl
    · intro l hl htake
      obtain rfl := Option.some.inj (show some _ = some l from hl)
      exact absurd htake (by decide)
    · intro hch
      exact absurd hch (by decide)
    · intro i bio l hlab hl _ _ o ho
      obtain ⟨rfl, rfl⟩ := NsLabel.execute.inj hlab
      obtain rfl := Option.some.inj (show some _ = some l from hl)
      obtain rfl : o = 0 := Nat.lt_one_iff.mp ho
      exact ⟨_, rfl, fun _ _ => rfl⟩
  have hgap : Settled s.ns read 2 := by
    intro j lj tj hj hphase _ _
    cases j with
    | false =>
      obtain rfl := Option.some.inj (hfalse.symm.trans hj)
      exact hapart
    | true =>
      obtain rfl := Option.some.inj (htrue.symm.trans hj)
      cases hphase
  have hcons : Consistent (Iover.plain .zero) fun _ => .unwritten := ⟨fun _ => rfl, fun _ _ => rfl⟩
  exact ⟨ls, s, read, hrun, ⟨_, hfalse, rfl⟩, htrue, rfl,
    ((no_false_alarm_shared rfl hcons hrun).2 true _ 2 htrue rfl rfl rfl hgap).1⟩

end Shared

end ChamberSpo

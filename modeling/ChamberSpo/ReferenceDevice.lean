import ChamberSpo.NamespaceRun

/-!
# One job against a reference device

A single job, whose completions are atomic, against a device that does what it reports: a command
that succeeds is applied, one that fails changes nothing, and a read returns what its LBAs hold.

* `Content` — what the device holds on an LBA, with `Content.read` and `Content.after`.
* `RefSystem.Step` — the steps of `Ns.Step` a single job makes, with the content beside them.
* `Describes` — a descriptor says what an LBA holds. `RefSystem.Inv.step` keeps it true of the
  descriptors that `Ns.last` predicts, and so of those the verifier has when nothing is in flight.
-/

namespace ChamberSpo

/-! ## The device -/

/-- What a device holds on an LBA. -/
inductive Content where
  | unwritten
  | dealloc
  /-- marked uncorrectable -/
  | uncor
  | zeroes
  /-- the block that was written -/
  | data (block : Buf)

/-- The byte a job expects of unwritten LBAs. -/
def unwrReadByte (params : JobParams) : Byte :=
  match params.unwrReadValueType with
  | .zeroes => 0x00
  | .ones => 0xFF

/-- The byte a job expects of deallocated LBAs. -/
def deallocReadByte (params : JobParams) : Byte :=
  if params.deallocReadValueType = deallocReadValueTypeOnes then 0xFF else 0x00

/-- What a read of an LBA returns; `none` when it fails. -/
def Content.read (params : JobParams) : Content → Option Buf
  | .unwritten => some fun _ => unwrReadByte params
  | .dealloc => some fun _ => deallocReadByte params
  | .uncor => none
  | .zeroes => some fun _ => 0x00
  | .data block => some block

/-- What LBA `x` holds after a command that succeeded on it. -/
def Content.after (iover : Iover) (bio : Bio) (x : ℕ) (c : Content) : Content :=
  match bio.opcode with
  | .write => .data (blockData iover bio (x - bio.slba))
  | .deallocate => .dealloc
  | .writeZeroes => .zeroes
  | .writeUncorrect => .uncor
  | _ => c

/-- What the device holds after a command. -/
def contentAfter (iover : Iover) (bio : Bio) (content : ℕ → Content) (x : ℕ) : Content :=
  if bio.changes ∧ x ∈ bio.range then (content x).after iover bio x else content x

/-- A read that succeeded: none of its LBAs refused it, and its buffer has what they hold. -/
def Serves (iover : Iover) (params : JobParams) (content : ℕ → Content) (bio : Bio) : Prop :=
  ∀ o < bio.nlbs, ∃ block, (content (bio.slba + o)).read params = some block ∧
    ∀ i < iover.ns.dataSize, blockData iover bio o i = block i

/-! ## Descriptors and contents -/

/-- A block that was written for LBA `x` with the timestamp and the pattern of the descriptor. -/
def Holds (iover : Iover) (x : ℕ) (d : BlockDesc) (block : Buf) : Prop :=
  ∃ (t : BitVec 64) (pattern : Byte), pattern.toNat < iover.datagen.npatterns ∧
    t.setWidth 16 = d.timestamp ∧ pattern.setWidth 5 = d.pattern ∧ ∀ i < iover.ns.dataSize,
      block i = datagenSetData iover.datagen (fun _ => 0) (BitVec.ofNat 64 x) t pattern i

/-- A descriptor says what LBA `x` holds. -/
def Describes (iover : Iover) (x : ℕ) (d : BlockDesc) : Content → Prop
  | .unwritten => d.state = .unwritten
  | .dealloc => d.state = .dealloc
  | .uncor => d.state = .uncor
  | .zeroes => d.state = .zeroes
  | .data block => d.state = .data ∧ Holds iover x d block

section Describes

variable {iover iover' : Iover} {params : JobParams} {bio : Bio} {x o : ℕ} {d : BlockDesc}
  {c : Content}

theorem Serves.congr (h : iover.SameFormat iover') {content : ℕ → Content}
    (hs : Serves iover' params content bio) : Serves iover params content bio := by
  intro o ho
  obtain ⟨block, hread, hdata⟩ := hs o ho
  rw [blockData_congr h, h.ns] at hdata
  exact ⟨block, hread, hdata⟩

theorem Serves.of_eq {content content' : ℕ → Content} (hs : Serves iover params content bio)
    (h : ∀ o < bio.nlbs, content' (bio.slba + o) = content (bio.slba + o)) :
    Serves iover params content' bio := by
  intro o ho
  rw [h o ho]
  exact hs o ho

theorem exists_holds {t : BitVec 64} {pattern : Byte} {block : Buf}
    (hp : pattern.toNat < iover.datagen.npatterns) (hdata : ∀ i < iover.ns.dataSize,
      block i = datagenSetData iover.datagen (fun _ => 0) (BitVec.ofNat 64 x) t pattern i) :
    ∃ d, Holds iover x d block :=
  ⟨{ timestamp := t.setWidth 16, state := .data, pattern := pattern.setWidth 5, flags := 0 },
    t, pattern, hp, rfl, rfl, hdata⟩

/-- The blocks of a write are those of its LBAs, each with a descriptor of its own. -/
def Written (iover : Iover) (bio : Bio) : Prop :=
  ∀ o < bio.nlbs, ∃ d, Holds iover (bio.slba + o) d (blockData iover bio o)

theorem Generates.holds (h : Generates iover params iover' bio) (hop : bio.opcode = .write)
    (hc : params.compare = true) : Written iover' bio := fun o ho =>
  exists_holds (writePattern_lt iover' (bio.slba + o)) (h.written hop hc o ho)

theorem Written.congr (h : iover.SameFormat iover') (hw : Written iover' bio) :
    Written iover bio := by
  intro o ho
  obtain ⟨d, t, p, hp, ht, hpattern, hdata⟩ := hw o ho
  rw [blockData_congr h, h.ns, h.datagen] at hdata
  exact ⟨d, t, p, h.datagen ▸ hp, ht, hpattern, hdata⟩

theorem Describes.congr (h : iover.SameFormat iover') (hd : Describes iover x d c) :
    Describes iover' x d c := by
  cases c with
  | data block =>
    obtain ⟨hstate, t, p, hp, ht, hpattern, hdata⟩ := hd
    rw [← h.ns, ← h.datagen] at hdata
    exact ⟨hstate, t, p, h.datagen.symm ▸ hp, ht, hpattern, hdata⟩
  | _ => exact hd

/-- **Descriptor and content change together**, whatever they were before. -/
theorem Describes.after (hch : bio.changes) (hx : x ∈ bio.range)
    (hw : bio.opcode = .write → Written iover bio) :
    Describes iover x (descAfter iover bio x d) (c.after iover bio x) := by
  rw [descAfter, Content.after]
  cases hop : bio.opcode with
  | write =>
    obtain ⟨hle, hlt⟩ := hx
    obtain ⟨-, t, p, hp, -, -, hdata⟩ := hw hop (x - bio.slba) (by omega)
    rw [Nat.add_sub_cancel' hle] at hdata
    have hdec : datagenGetHeader iover.datagen (blockData iover bio (x - bio.slba))
        = some ⟨BitVec.ofNat 64 x, t, p⟩ := by
      rw [datagenGetHeader_congr fun i hi => hdata i (iover.datagen_dataSize ▸ hi)]
      exact datagenGetHeader_setData _ hp
    simp only [hdec]
    exact ⟨rfl, t, p, hp, rfl, rfl, hdata⟩
  | deallocate => rfl
  | writeZeroes => rfl
  | writeUncorrect => rfl
  | _ => simp [Bio.changes, hop] at hch

/-- A block whose first byte is `val` is all `val` to `is_all`. -/
theorem isAll_of_serves {block : Buf} {val : Byte} (hblock : block = fun _ => val)
    (hdata : ∀ i < iover.ns.dataSize, blockData iover bio o i = block i) :
    isAll (blockData iover bio o) val iover.ns.dataSize = true := by
  have hpos := iover.ns.le_dataSize
  refine isAll_iff.mpr (.inr ?_)
  rw [hdata 0 (by omega), hblock]

/-- **An LBA that reads as its descriptor says is found good.** -/
theorem lbaResult_of_describes (ho : params.lbaOverlap = false) (hmeta : iover.ns.metaSize = 0)
    (hd : Describes iover (bio.slba + o) (iover.blockDesc (bio.slba + o)) c) {block : Buf}
    (hread : c.read params = some block)
    (hdata : ∀ i < iover.ns.dataSize, blockData iover bio o i = block i) :
    lbaResult iover params bio o = 0 := by
  rw [lbaResult]
  cases c with
  | unwritten =>
    have hblock := (Option.some.inj hread).symm
    simp only [show (iover.blockDesc (bio.slba + o)).state = .unwritten from hd]
    rw [verifyUnwrittenBlock, getMetadata, if_pos hmeta]
    cases hv : params.unwrReadValueType with
    | zeroes =>
      have hall : isAllZeroes (blockData iover bio o) iover.ns.dataSize = true :=
        isAll_of_serves (by rw [hblock, unwrReadByte, hv]) hdata
      simp only [hall, if_true, ite_self]
    | ones =>
      have hall : isAllOnes (blockData iover bio o) iover.ns.dataSize = true :=
        isAll_of_serves (by rw [hblock, unwrReadByte, hv]) hdata
      simp only [hall, if_true, ite_self]
  | dealloc =>
    have hblock := (Option.some.inj hread).symm
    simp only [show (iover.blockDesc (bio.slba + o)).state = .dealloc from hd]
    rw [verifyDeallocBlock]
    by_cases hl : params.deallocReadValueType = deallocReadValueTypeLast
    · rw [if_pos hl]
    · rw [if_neg hl]
      by_cases hz : params.deallocReadValueType = deallocReadValueTypeZeroes
      · have hall : isAllZeroes (blockData iover bio o) iover.ns.dataSize = true :=
          isAll_of_serves (by rw [hblock, deallocReadByte, hz]; rfl) hdata
        rw [if_pos hz, if_pos hall]
      · rw [if_neg hz]
        by_cases h1 : params.deallocReadValueType = deallocReadValueTypeOnes
        · have hall : isAllOnes (blockData iover bio o) iover.ns.dataSize = true :=
            isAll_of_serves (by rw [hblock, deallocReadByte, h1]; rfl) hdata
          rw [if_pos h1, if_pos hall]
        · rw [if_neg h1]
          -- a block that is identified is never refused
          simp only
          split <;> rfl
  | uncor => cases hread
  | zeroes => simp only [show (iover.blockDesc (bio.slba + o)).state = .zeroes from hd]
  | data written =>
    obtain ⟨hstate, t, p, hp, ht, -, hwritten⟩ := hd
    obtain rfl := Option.some.inj hread
    have hcheck : verifyBlockData iover params bio o (iover.blockDesc (bio.slba + o)) = 0 :=
      verifyBlockData_of_setData ho hp ht fun i hi => (hdata i hi).trans (hwritten i hi)
    simp only [hstate, verifyDataLba, hcheck, hmeta, lt_irrefl, false_and, and_false, if_false]

end Describes

/-! ## The system -/

/-- The verifier and the bios of a job, and the content of the device. -/
structure RefSystem (ι : Type*) where
  ns : Ns ι
  content : ℕ → Content

/-- What happens to a bio. -/
inductive RefLabel (ι : Type*) where
  | issue (i : ι) (bio : Bio)
  | backup (i : ι)
  | execute (i : ι) (bio : Bio)
  /-- the whole of `iover_submit` -/
  | complete (i : ι)

/-- A bio of the job: none that only probes the device, no replay of history, and no error that is
injected on purpose. -/
structure Bio.Ordinary (bio : Bio) : Prop where
  opcode : bio.opcode.num < BioOpcode.identify.num
  histIdx : bio.histIdx = noHistIdx
  expectedResult : bio.expectedResult = 0

namespace RefSystem

variable {ι : Type*} [DecidableEq ι]

/-- The steps of a job with parameters `p` and of its device. -/
inductive Step (p : JobParams) (s : RefSystem ι) : RefLabel ι → RefSystem ι → Prop
  | issue (i : ι) (bio : Bio) (ns : Ns ι) :
    s.ns.Step (.issue i p bio) ns → bio.Ordinary → Step p s (.issue i bio) { s with ns := ns }
  | backup (i : ι) (ns : Ns ι) :
    s.ns.Step (.backup i) ns → Step p s (.backup i) { s with ns := ns }
  | execute (i : ι) (bio : Bio) (ns : Ns ι) :
    s.ns.Step (.execute i bio) ns →
    (bio.opcode = .read → bio.result = 0 → Serves s.ns.iover p s.content bio) →
    Step p s (.execute i bio) ⟨ns, contentAfter s.ns.iover bio s.content⟩
  | complete (i : ι) (ns₁ ns₂ : Ns ι) :
    s.ns.Step (.unlock i) ns₁ → ns₁.Step (.finish i) ns₂ →
    Step p s (.complete i) { s with ns := ns₂ }

/-- A job that starts on a device nothing was written to. -/
def init (iover : Iover) : RefSystem ι where
  ns := .init iover
  content := fun _ => .unwritten

variable {p : JobParams} {s s' : RefSystem ι} {iover : Iover}

/-- What holds of the job and its device. -/
structure Inv (p : JobParams) (iover : Iover) (s : RefSystem ι) : Prop where
  ns : s.ns.Inv
  format : iover.SameFormat s.ns.iover
  params : ∀ i l, s.ns.live i = some l → l.params = p
  ordinary : ∀ i l, s.ns.live i = some l → l.bio.Ordinary
  /-- no completion is half done -/
  whole : ∀ i l t, s.ns.live i = some l → l.phase ≠ .unlocked t
  written : ∀ i l, s.ns.live i = some l → l.bio.opcode = .write → Written iover l.bio
  describes : ∀ x, Describes iover x (s.ns.last x) (s.content x)
  /-- what a read returned is still there -/
  reads : ∀ i l t, s.ns.live i = some l → l.phase = .executed t → l.bio.opcode = .read →
    l.bio.result = 0 → Serves iover p s.content l.bio

omit [DecidableEq ι] in
theorem Inv.takesLock (h : Inv p iover s) {i : ι} {l : LiveBio} (hl : s.ns.live i = some l) :
    takesLock l.params l.bio = true := by
  rw [ChamberSpo.takesLock, h.ns.noOverlap i l hl, Bool.not_false, Bool.true_and]
  exact decide_eq_true (h.ordinary i l hl).opcode

omit [DecidableEq ι] in
/-- A bio's LBAs have nothing pending but what the bio itself did. -/
theorem Inv.blockDesc_eq_last (h : Inv p iover s) {i : ι} {l : LiveBio} {x : ℕ}
    (hl : s.ns.live i = some l) (hx : x ∈ l.bio.range) (hch : ¬ l.bio.changes) :
    s.ns.iover.blockDesc x = s.ns.last x := by
  refine h.ns.blockDesc_eq_last ?_
  intro j lj t hj _ hchj hxj
  obtain rfl := h.ns.eq_of_locked hl hj (h.whole i l · hl) (h.whole j lj · hj) (h.takesLock hl)
    (h.takesLock hj) hx hxj
  obtain rfl := Option.some.inj (hl.symm.trans hj)
  exact hch hchj

/-- The move of one slot, in the course of which nothing happens on the device. -/
theorem Inv.move (h : Inv p iover s) {ns : Ns ι} (i : ι) (l' : Option LiveBio) (hns : ns.Inv)
    (hformat : s.ns.iover.SameFormat ns.iover)
    (hlive : ∀ j, ns.live j = if j = i then l' else s.ns.live j) (hlast : ns.last = s.ns.last)
    (hnew : ∀ l, l' = some l → s.ns.live i = some l ∨ l.params = p ∧ l.bio.Ordinary ∧
      l.phase = .issued ∧ (l.bio.opcode = .write → Written iover l.bio)) :
    Inv p iover { s with ns := ns } := by
  -- every slot is as it was, or has just been issued
  have hcases : ∀ j l, ns.live j = some l → s.ns.live j = some l ∨ l.params = p ∧
      l.bio.Ordinary ∧ l.phase = .issued ∧ (l.bio.opcode = .write → Written iover l.bio) := by
    intro j l hj
    rw [hlive] at hj
    split at hj
    · rename_i hji
      exact hji ▸ hnew l hj
    · exact .inl hj
  refine ⟨hns, h.format.trans hformat, fun j l hj => ?_, fun j l hj => ?_, fun j l t hj => ?_,
    fun j l hj hop => ?_, fun x => (hlast ▸ h.describes x :), fun j l t hj ht hop hres => ?_⟩
  · rcases hcases j l hj with hj | hl
    · exact h.params j l hj
    · exact hl.1
  · rcases hcases j l hj with hj | hl
    · exact h.ordinary j l hj
    · exact hl.2.1
  · rcases hcases j l hj with hj | hl
    · exact h.whole j l t hj
    · rw [hl.2.2.1]
      exact nofun
  · rcases hcases j l hj with hj | hl
    · exact h.written j l hj hop
    · exact hl.2.2.2 hop
  · rcases hcases j l hj with hj | hl
    · exact h.reads j l t hj ht hop hres
    · rw [hl.2.2.1] at ht
      cases ht

/-- When one bio is half completed, nothing stands between it and its commit. -/
theorem Inv.orderly_finish (h : Inv p iover s) {i : ι} {params : JobParams} {bio : Bio} {t : ℕ}
    (hl : s.ns.live i = some ⟨params, bio, .executed t⟩) (iover' : Iover) :
    (s.ns.put i (some ⟨params, bio, .unlocked t⟩) iover').Orderly (.finish i) := by
  have hself : (s.ns.put i (some ⟨params, bio, .unlocked t⟩) iover').live i
      = some ⟨params, bio, .unlocked t⟩ := by rw [Ns.put_live, if_pos rfl]
  intro l t' hi ht'
  obtain rfl := Option.some.inj (hself.symm.trans hi)
  obtain rfl := BioPhase.unlocked.inj ht'
  refine ⟨fun _ => (h.ordinary i _ hl).histIdx, ?_⟩
  intro _ j lj tj hj htj hlt _
  rw [Ns.put_live] at hj
  split at hj
  · obtain rfl := Option.some.inj hj
    obtain rfl := BioPhase.unlocked.inj htj
    exact absurd hlt (lt_irrefl _)
  · exact absurd htj (h.whole j lj tj hj)

/-- A completion is orderly in both its halves. -/
theorem Inv.complete (h : Inv p iover s) {i : ι} {ns₁ ns₂ : Ns ι}
    (hunlock : s.ns.Step (.unlock i) ns₁) (hfinish : ns₁.Step (.finish i) ns₂) :
    Inv p iover { s with ns := ns₂ } := by
  have horderly : s.ns.Orderly (.unlock i) := fun l hl htake =>
    absurd ((h.takesLock hl).symm.trans htake) (by decide)
  have hns₁ := h.ns.step horderly hunlock
  cases hunlock with
  | unlock i params bio t hl hop =>
    have hns₂ := hns₁.step (h.orderly_finish hl _) hfinish
    have hformat : s.ns.iover.SameFormat (submitUnlock s.ns.iover params bio) := by
      simp only [submitUnlock]
      split <;> exact ⟨rfl, rfl⟩
    cases hfinish with
    | finish i params' bio' t' job r hl' htail hres =>
      have hcore := submitTail_sameCore htail
      refine h.move i none hns₂ (hformat.trans ⟨hcore.ns, hcore.datagen⟩) (fun j => ?_)
        (by rw [Ns.finish_last, Ns.put_last]) fun _ hl' => absurd hl'.symm (Option.some_ne_none _)
      rw [Ns.finish_live, Ns.put_live]
      split <;> rfl

/-- The device executes a command: descriptor and content go on together, and no read that waits
for its completion has an LBA of it. -/
theorem Inv.execute (h : Inv p iover s) (hcompare : p.compare = true) {i : ι} {bio bio' : Bio}
    (hl : s.ns.live i = some ⟨p, bio, .issued⟩) (hex : bio.Executes bio')
    (hread : bio'.opcode = .read → bio'.result = 0 → Serves s.ns.iover p s.content bio') :
    Inv p iover ⟨s.ns.execute i p bio', contentAfter s.ns.iover bio' s.content⟩ := by
  have hlive : ∀ j l, (s.ns.execute i p bio').live j = some l →
      (j = i ∧ l = ⟨p, bio', .executed s.ns.clock⟩) ∨ (j ≠ i ∧ s.ns.live j = some l) := by
    intro j l hj
    rw [Ns.execute_live] at hj
    split at hj
    · rename_i hji
      exact .inl ⟨hji, (Option.some.inj hj).symm⟩
    · rename_i hji
      exact .inr ⟨hji, hj⟩
  have hwritten : bio'.opcode = .write → Written iover bio' := by
    intro hop
    have hop' : bio.opcode = .write := hex.opcode.symm.trans hop
    have hblock : ∀ o, blockData iover bio' o = blockData iover bio o := by
      intro o
      rw [blockData, blockData, getBlockSize, getBlockSize, hex.pract,
        hex.data (by simp [hop']) (by simp [hop'])]
    intro o ho
    rw [hblock, hex.slba]
    exact h.written i _ hl hop' o (hex.nlbs ▸ ho)
  refine ⟨h.ns.execute hl hex fun _ => hcompare, h.format, fun j l hj => ?_, fun j l hj => ?_,
    fun j l t hj => ?_, fun j l hj hop => ?_, fun x => ?_, fun j l t hj ht hop hres => ?_⟩
  · rcases hlive j l hj with ⟨-, rfl⟩ | ⟨-, hj⟩
    · rfl
    · exact h.params j l hj
  · rcases hlive j l hj with ⟨-, rfl⟩ | ⟨-, hj⟩
    · obtain ⟨h₁, h₂, h₃⟩ := h.ordinary i _ hl
      exact ⟨hex.opcode ▸ h₁, hex.histIdx.trans h₂, hex.expectedResult.trans h₃⟩
    · exact h.ordinary j l hj
  · rcases hlive j l hj with ⟨-, rfl⟩ | ⟨-, hj⟩
    · intro hphase
      cases hphase
    · exact h.whole j l t hj
  · rcases hlive j l hj with ⟨-, rfl⟩ | ⟨-, hj⟩
    · exact hwritten hop
    · exact h.written j l hj hop
  · simp only [Ns.execute, contentAfter]
    split
    · rename_i hx
      have hformat := descAfter_congr h.format
      have hcontent : (s.content x).after s.ns.iover bio' x = (s.content x).after iover bio' x := by
        rw [Content.after, Content.after, blockData_congr h.format]
      rw [hformat, hcontent]
      exact .after hx.1 hx.2 hwritten
    · exact h.describes x
  · rcases hlive j l hj with ⟨-, rfl⟩ | ⟨hji, hj⟩
    · refine ((hread hop hres).congr h.format).of_eq fun o _ => if_neg ?_
      intro hch
      exact absurd hch.1 (by simp [Bio.changes, show bio'.opcode = .read from hop])
    · refine (h.reads j l t hj ht hop hres).of_eq fun o ho => if_neg fun hch => hji ?_
      -- the command and the read would hold the lock of one LBA
      have hx : l.bio.slba + o ∈ l.bio.range := ⟨Nat.le_add_right _ _, by omega⟩
      have hx' : l.bio.slba + o ∈ bio.range := by
        have hmem := hch.2
        rwa [Bio.mem_range, hex.slba, hex.nlbs] at hmem
      exact h.ns.eq_of_locked hj hl (h.whole j l · hj) (h.whole i _ · hl) (h.takesLock hj)
        (h.takesLock hl) hx hx'

/-- **The step lemma.** -/
theorem Inv.step (h : Inv p iover s) (hcompare : p.compare = true) {lab : RefLabel ι}
    (hs : Step p s lab s') : Inv p iover s' := by
  cases hs with
  | issue i bio ns hns hord =>
    have hinv := h.ns.step (show s.ns.Orderly (.issue i p bio) from trivial) hns
    cases hns with
    | issue i params bio iover' hl hover hgen =>
      obtain ⟨-, hformat, -⟩ := hgen.spec
      refine h.move i _ hinv hformat (Ns.put_live _ _) rfl ?_
      intro l hl'
      obtain rfl := Option.some.inj hl'
      exact .inr ⟨rfl, hord, rfl, fun hop =>
        (hgen.holds hop hcompare).congr (h.format.trans hformat)⟩
  | backup i ns hns =>
    have hinv := h.ns.step (show s.ns.Orderly (.backup i) from trivial) hns
    cases hns with
    | backup i l iover' hl hback =>
      obtain ⟨hd, hdr, rfl⟩ := backupHistState_sameButHist hback
      exact h.move i _ hinv ⟨rfl, rfl⟩ (Ns.put_live _ _) rfl fun l hl' => .inl (hl.trans hl')
  | execute i bio ns hns hread =>
    cases hns with
    | execute i params before bio hl hex =>
      obtain rfl : params = p := h.params i _ hl
      exact h.execute hcompare hl hex hread
  | complete i ns₁ ns₂ hunlock hfinish => exact h.complete hunlock hfinish

omit [DecidableEq ι] in
theorem inv_init (hunwritten : ∀ x, (iover.blockDesc x).state = .unwritten) :
    Inv p iover (init iover : RefSystem ι) where
  ns := Ns.inv_init iover
  format := ⟨rfl, rfl⟩
  params _ _ h := by cases h
  ordinary _ _ h := by cases h
  whole _ _ _ h := by cases h
  written _ _ h := by cases h
  describes x := hunwritten x
  reads _ _ _ h := by cases h

omit [DecidableEq ι] in
/-- A read that waits for its completion is found good. -/
theorem Inv.verifyBioRead (h : Inv p iover s) (hmeta : iover.ns.metaSize = 0) {i : ι} {bio : Bio}
    {t : ℕ} (hl : s.ns.live i = some ⟨p, bio, .executed t⟩) (hop : bio.opcode = .read)
    (hres : bio.result = 0) : verifyBioRead s.ns.iover p bio = 0 := by
  have ho : p.lbaOverlap = false := h.ns.noOverlap i _ hl
  refine (verifyBioRead_eq_zero_iff ho).mpr ?_
  intro o hlt
  obtain ⟨block, hread, hdata⟩ := h.reads i _ t hl rfl hop hres o hlt
  have hdesc : s.ns.iover.blockDesc (bio.slba + o) = s.ns.last (bio.slba + o) :=
    h.blockDesc_eq_last hl ⟨Nat.le_add_right _ _, Nat.add_lt_add_left hlt _⟩
      (by simp [Bio.changes, hop])
  have hd := h.describes (bio.slba + o)
  rw [← hdesc] at hd
  rw [← blockData_congr h.format, ← h.format.ns] at hdata
  exact lbaResult_of_describes ho (h.format.ns ▸ hmeta) (hd.congr h.format) hread hdata

/-- **No false alarm.** In every run of the job the descriptors say what the device holds wherever
no bio is in flight, and `iover_submit` finds every read good that the device completes with
success. -/
theorem no_false_alarm (hcompare : p.compare = true) (hmeta : iover.ns.metaSize = 0)
    (hunwritten : ∀ x, (iover.blockDesc x).state = .unwritten) {ls : List (RefLabel ι)}
    (hrun : Run (Step p) (init iover) ls s) :
    (∀ x, (∀ i l, s.ns.live i = some l → x ∉ l.bio.range) →
        Describes iover x (s.ns.iover.blockDesc x) (s.content x)) ∧
      ∀ i params bio t, s.ns.live i = some ⟨params, bio, .executed t⟩ → bio.opcode = .read →
        bio.result = 0 → ChamberSpo.verifyBioRead s.ns.iover params bio = 0 ∧
          ∀ job, ioverSubmit s.ns.iover params job bio
            = some ⟨0, submitUnlock s.ns.iover params bio, job, 0⟩ := by
  have hinv : Inv p iover s :=
    hrun.invariant (fun _ _ _ hi hs => hi.step hcompare hs) (inv_init hunwritten)
  refine ⟨?_, ?_⟩
  · intro x hx
    rw [hinv.ns.blockDesc_eq_last fun i l _ hl _ _ => hx i l hl]
    exact hinv.describes x
  · intro i params bio t hl hop hres
    obtain rfl : params = p := hinv.params i _ hl
    have hv := hinv.verifyBioRead hmeta hl hop hres
    have ho := hinv.ordinary i _ hl
    have hunlock : ChamberSpo.verifyBioRead (submitUnlock s.ns.iover params bio) params bio = 0 := by
      rw [submitUnlock, hinv.ns.noOverlap i _ hl, if_neg Bool.false_ne_true]
      exact hv
    exact ⟨hv, fun job => submitTail_read hop ho.histIdx hres ho.expectedResult hunlock⟩

/-- A write of LBA 0, and a read of it that has been executed. -/
theorem write_read_run : ∃ (ls : List (RefLabel Bool)) (s : RefSystem Bool) (bio : Bio) (t : ℕ),
    Run (Step .plain) (init (Iover.plain .zero)) ls s ∧
      s.ns.live true = some ⟨.plain, bio, .executed t⟩ ∧ bio.opcode = .read ∧ bio.result = 0 ∧
      bio.range = {0} ∧ (s.ns.iover.blockDesc 0).state = .data := by
  let s₀ : RefSystem Bool := init (Iover.plain .zero)
  obtain ⟨write, s₁, s₂, s₃, s₄, hw⟩ :=
    Ns.exists_writeCycle (s := s₀.ns) (i := false) rfl (by decide)
  have hord : write.Ordinary :=
    ⟨by rw [hw.opcode]; decide, hw.histIdx, hw.expectedResult⟩
  have hch : write.changes ∧ 0 ∈ write.range :=
    ⟨by rw [Bio.changes, hw.opcode, hw.result]; rfl, by rw [hw.range]; rfl⟩
  -- the LBA is read back
  let read : Bio := .plain .read 0 1 fun _ => 0
  let served : Bio := { read with data := write.data }
  let iover₅ : Iover := { s₄.iover with lbaLock := (tryLockLbas s₄.iover.lbaLock 0 1).2 }
  have hgen : Generates s₄.iover .plain iover₅ read :=
    generates_of_free read (by decide) (by decide) (by decide) (by decide) (by rw [hw.ns]; rfl)
      (by rw [hw.lbaLock]; decide)
  let s₅ := s₄.put true (some ⟨.plain, read, .issued⟩) iover₅
  have hidle : s₄.live true = none := by rw [hw.live]; rfl
  have hnotRead : write.opcode ≠ .read := by rw [hw.opcode]; decide
  have hexec : read.Executes served := by
    refine ⟨rfl, rfl, rfl, rfl, rfl, rfl, rfl, ?_⟩
    intro hop
    exact absurd rfl hop
  have hserves : Serves s₅.iover .plain (contentAfter s₁.iover write s₀.content) served := by
    intro o ho
    obtain rfl : o = 0 := Nat.lt_one_iff.mp ho
    refine ⟨blockData s₁.iover write (0 - write.slba), ?_, ?_⟩
    · rw [show served.slba + 0 = 0 from rfl, contentAfter, if_pos hch, Content.after, hw.opcode]
      rfl
    · intro i _
      rw [blockData, blockData, Nat.zero_sub, Nat.mul_zero, Nat.mul_zero]
  refine ⟨_, ⟨s₅.execute true .plain served, _⟩, served, s₅.clock,
    .cons (.issue false write s₁ hw.issue hord) <|
    .cons (.execute false write s₂ hw.execute fun h => absurd h hnotRead) <|
    .cons (.complete false s₃ s₄ hw.unlock hw.finish) <|
    .cons (.issue true read s₅ (.issue true .plain read _ hidle rfl hgen) ⟨by decide, rfl, rfl⟩) <|
    .cons (.execute true served _ (.execute true .plain read served rfl hexec) fun _ _ => hserves) <|
    .nil _, rfl, rfl, rfl, ?_, hw.data⟩
  ext x
  change 0 ≤ x ∧ x < 1 ↔ x = 0
  omega

/-- The read of `write_read_run` is found good. -/
theorem no_false_alarm_write_read : ∃ (ls : List (RefLabel Bool)) (s : RefSystem Bool) (bio : Bio),
    Run (Step .plain) (init (Iover.plain .zero)) ls s ∧ bio.opcode = .read ∧ bio.range = {0} ∧
      (s.ns.iover.blockDesc 0).state = .data ∧
      ChamberSpo.verifyBioRead s.ns.iover .plain bio = 0 := by
  obtain ⟨ls, s, bio, t, hrun, hl, hop, hres, hrange, hdata⟩ := write_read_run
  exact ⟨ls, s, bio, hrun, hop, hrange, hdata,
    ((no_false_alarm rfl rfl (fun _ => rfl) hrun).2 true _ bio t hl hop hres).1⟩

end RefSystem

end ChamberSpo

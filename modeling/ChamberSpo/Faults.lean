import ChamberSpo.SharedDevice

/-!
# What a faulty device cannot hide

A device that loses a write, or puts it on other LBAs, or reads other LBAs than those it was asked
for, answers with blocks that some write bio had for some LBA. Any number of jobs use it, and it may
answer every read so.

* `Near` — timestamps of write bios that are less than 65536 apart.
* `Versioned` — the blocks an LBA is to hold are versions of it.
* `Recalls` — from its execution to its completion, a read goes with the descriptors there were.
* `faults_found` — a settled read that is found good has what its LBAs are to hold.
-/

namespace ChamberSpo

/-- Timestamps of write bios less than 65536 apart. -/
def Near (t t' : BitVec 64) : Prop := (t - t').toNat < 2 ^ 16 ∨ (t' - t).toNat < 2 ^ 16

theorem Near.eq {t t' : BitVec 64} (h : Near t t') (hlow : t.setWidth 16 = t'.setWidth 16) :
    t = t' := by
  have hmod := congrArg BitVec.toNat hlow
  simp only [BitVec.toNat_setWidth] at hmod
  refine BitVec.eq_of_toNat_eq ?_
  simp only [Near, BitVec.toNat_sub] at h
  omega

section Version

variable {iover : Iover} {params : JobParams} {bio : Bio} {x y o : ℕ} {t t' : BitVec 64}
  {block : Buf} {d : BlockDesc}

/-- The LBA is in a block as a 64-bit number. -/
theorem version_of_lba (h : BitVec.ofNat 64 y = BitVec.ofNat 64 x) :
    version iover y t = version iover x t := by
  rw [version, version, writtenBlock, writtenBlock, writePattern, writePattern, h]

/-- A block is a version of one LBA, of one write bio. -/
theorem HoldsVersion.unique (h : HoldsVersion iover x t block)
    (h' : HoldsVersion iover y t' block) :
    BitVec.ofNat 64 x = BitVec.ofNat 64 y ∧ t = t' := by
  have hinfo := Option.some.inj (h.header.symm.trans h'.header)
  exact ⟨congrArg HeaderInfo.lba hinfo, congrArg HeaderInfo.timestamp hinfo⟩

/-- The descriptor of a version has the low half of its timestamp. -/
theorem HoldsVersion.timestamp (h : HoldsVersion iover x t block)
    (hd : Describes iover x d (.data block)) : d.state = .data ∧ t.setWidth 16 = d.timestamp := by
  obtain ⟨hstate, t', p, hp, ht, -, hblock⟩ := hd
  have hheader := h.header
  rw [datagenGetHeader_congr fun i hi => hblock i (iover.datagen_dataSize ▸ hi),
    datagenGetHeader_setData _ hp] at hheader
  have htime : t' = t := congrArg HeaderInfo.timestamp (Option.some.inj hheader)
  exact ⟨hstate, htime ▸ ht⟩

/-- An LBA that is found good has its own version, of a write bio that the descriptor may mean. -/
theorem version_of_lbaResult (ho : params.lbaOverlap = false)
    (hstate : (iover.blockDesc (bio.slba + o)).state = .data)
    (h : HoldsVersion iover y t (blockData iover bio o)) (hres : lbaResult iover params bio o = 0) :
    BitVec.ofNat 64 y = BitVec.ofNat 64 (bio.slba + o) ∧
      t.setWidth 16 = (iover.blockDesc (bio.slba + o)).timestamp := by
  have hdata : verifyBlockData iover params bio o (iover.blockDesc (bio.slba + o)) = 0 := by
    by_contra hne
    have hbad : lbaResult iover params bio o ≠ 0 := by
      rw [lbaResult]
      simp only [hstate]
      exact verifyDataLba_ne_zero_iff.mpr (.inl hne)
    exact hbad hres
  rw [verifyBlockData] at hdata
  cases hv : verifyBlockHeader iover params bio o (iover.blockDesc (bio.slba + o)) with
  | none =>
    rw [hv] at hdata
    exact absurd (show (-1 : Int) = 0 from hdata) (by decide)
  | some p =>
    obtain ⟨t', hheader, ht'⟩ := (verifyBlockHeader_eq_some_iff ho).mp hv
    have hinfo := Option.some.inj (h.header.symm.trans hheader)
    have hlba := congrArg HeaderInfo.lba hinfo
    have htime : t = t' := congrArg HeaderInfo.timestamp hinfo
    exact ⟨hlba, htime ▸ ht'⟩

end Version

namespace Shared

variable {ι : Type*} [DecidableEq ι]

/-- The blocks that the LBAs are to hold are versions of them. -/
def Versioned (iover : Iover) (content : ℕ → Content) : Prop :=
  ∀ x block, content x = .data block → ∃ t, HoldsVersion iover x t block

/-- A faulty device: on an LBA that is to hold a version, the read returned a version of some LBA,
of a write bio that is less than 65536 write bios older or younger. -/
def AnswersVersions (iover : Iover) (content : ℕ → Content) (bio : Bio) : Prop :=
  ∀ o < bio.nlbs, ∀ block t, content (bio.slba + o) = .data block →
    HoldsVersion iover (bio.slba + o) t block →
    ∃ y t', HoldsVersion iover y t' (blockData iover bio o) ∧ Near t t'

/-- The read returned the blocks that its LBAs are to hold. -/
def DataRight (iover : Iover) (content : ℕ → Content) (bio : Bio) : Prop :=
  ∀ o < bio.nlbs, ∀ block, content (bio.slba + o) = .data block →
    ∀ k < iover.ns.dataSize, blockData iover bio o k = block k

/-- If the read with parameters `params` that was executed with number `t` is still in flight, its
LBAs had the descriptors `last` before it. -/
structure Recalls (last : ℕ → BlockDesc) (i : ι) (params : JobParams) (bio : Bio) (t : ℕ)
    (ns : Ns ι) : Prop where
  clock : t < ns.clock
  read : ∀ l, ns.live i = some l → l.phase.stamp = some t → l.bio.opcode = .read →
    l.bio.result = 0 → l.params = params ∧ l.bio = bio ∧
      ∀ x ∈ bio.range, ns.descBefore t x = last x

section Run

variable {iover : Iover} {s s' : RefSystem ι} {lab : NsLabel ι} {i : ι} {t : ℕ}
  {params : JobParams} {bio : Bio} {last : ℕ → BlockDesc}

omit [DecidableEq ι] in
theorem Versioned.init {content : ℕ → Content} (h : ∀ x, content x = .unwritten) :
    Versioned iover content := by
  intro x block hx
  rw [h x] at hx
  cases hx

/-- **What an LBA is to hold stays a version of it.** -/
theorem Versioned.step (hv : Versioned iover s.content) (h : Inv iover s)
    (hs : guarded Step Orderly s lab s') : Versioned iover s'.content := by
  have h' := h.step hs
  obtain ⟨hord, hs⟩ := hs
  cases hs with
  | verifier lab ns hne hs => exact hv
  | execute i params before bio hl hex hinside =>
    intro x block hx
    change contentAfter s.ns.iover bio s.content x = _ at hx
    rw [contentAfter] at hx
    split at hx
    · rename_i hch
      rw [Content.after] at hx
      split at hx
      · -- a write, whose blocks are versions since it was issued
        rename_i hop
        have hcompare : params.compare = true := hord hch.1 _ hl
        have hgenuine := h'.written i ⟨params, bio, .executed s.ns.clock⟩
          ((Ns.execute_live _ _ _).trans (if_pos rfl)) hcompare hop
        obtain ⟨hle, hlt⟩ := hch.2
        obtain ⟨t, ht⟩ := hgenuine (x - bio.slba) (by change _ < bio.nlbs; omega)
        change HoldsVersion iover (bio.slba + (x - bio.slba)) t _ at ht
        rw [Nat.add_sub_cancel' hle] at ht
        obtain rfl := Content.data.inj hx
        rw [blockData_congr h.format]
        exact ⟨t, ht⟩
      all_goals first
        | exact hv x block hx
        | cases hx
    · exact hv x block hx

theorem versioned_of_run {content : ℕ → Content} (h : Consistent iover content)
    (hv : Versioned iover content) {ls : List (NsLabel ι)}
    (hrun : Run (guarded Step Orderly) (init iover content) ls s) :
    Inv iover s ∧ Versioned iover s.content :=
  hrun.invariant (I := fun s => Inv iover s ∧ Versioned iover s.content)
    (fun _ _ _ hi hs => ⟨hi.1.step hs, hi.2.step hi.1 hs⟩) ⟨inv_init h, hv⟩

theorem clock_le (hs : s.ns.Step lab s'.ns) : s.ns.clock ≤ s'.ns.clock := by
  generalize s'.ns = ns at hs
  cases hs <;> first | exact le_rfl | exact Nat.le_succ _

theorem Recalls.step (hr : Recalls last i params bio t s.ns) (h : Inv iover s)
    (hs : guarded Step Orderly s lab s') : Recalls last i params bio t s'.ns := by
  obtain ⟨hord, hs⟩ := hs
  refine ⟨hr.clock.trans_le (clock_le hs.ns_step), ?_⟩
  intro l hl ht hop hzero
  rcases h.ns.read_step hord hs.ns_step hl ht hop hzero with hkeeps | hexec
  · obtain ⟨l₀, hl₀, hparams, hbio, ht₀⟩ := hkeeps.live
    obtain ⟨hp, hb, hdesc⟩ := hr.read l₀ hl₀ ht₀ (hbio ▸ hop) (hbio ▸ hzero)
    refine ⟨hparams.symm.trans hp, hbio.symm.trans hb, ?_⟩
    intro x hx
    rw [hkeeps.descBefore x (by rwa [← hbio, hb])]
    exact hdesc x hx
  · -- the number has been given to another command
    exact absurd hexec.stamp (Nat.ne_of_lt hr.clock)

/-- **The device executes the read.** -/
theorem exists_recalls (h : Inv iover s) (hs : guarded Step Orderly s (.execute i bio) s') :
    ∃ params, Recalls s.ns.last i params bio s.ns.clock s'.ns := by
  obtain ⟨-, hs⟩ := hs
  cases hs with
  | verifier lab ns hne hs => exact absurd rfl (hne i bio)
  | execute i params before bio hl hex hinside =>
    refine ⟨params, Nat.lt_succ_self _, ?_⟩
    intro l hl' _ _ _
    obtain rfl := Option.some.inj (hl'.symm.trans ((Ns.execute_live _ _ _).trans (if_pos rfl)))
    refine ⟨rfl, rfl, ?_⟩
    intro x _
    exact (Ns.descBefore_execute i params bio le_rfl).trans h.ns.descBefore_clock

/-- **Faults are found.** A device that is used by any number of jobs executes a read in `s`; the
read is verified, settled, in `s₂`. Whatever the device did until then, the read is found good if it
returned what its LBAs are to hold; and if it returned versions instead, written for whatever LBAs
by write bios less than 65536 older or younger, only then. -/
theorem faults_found {content : ℕ → Content} (hmeta : iover.ns.metaSize = 0)
    (h : Consistent iover content) (hv : Versioned iover content) {ls ls' : List (NsLabel ι)}
    {s₁ s₂ : RefSystem ι} {phase : BioPhase}
    (hrun : Run (guarded Step Orderly) (init iover content) ls s)
    (hexec : guarded Step Orderly s (.execute i bio) s₁)
    (hrun' : Run (guarded Step Orderly) s₁ ls' s₂)
    (hl : s₂.ns.live i = some ⟨params, bio, phase⟩) (ht : phase.stamp = some s.ns.clock)
    (hop : bio.opcode = .read) (hzero : bio.result = 0) (hgap : Settled s₂.ns bio s.ns.clock) :
    (Serves iover params s.content bio → verifyBioRead s₂.ns.iover params bio = 0) ∧
      (AnswersVersions iover s.content bio → verifyBioRead s₂.ns.iover params bio = 0 →
        DataRight iover s.content bio) := by
  obtain ⟨hinv, hversioned⟩ := versioned_of_run h hv hrun
  obtain ⟨params', hrecalls⟩ := exists_recalls hinv hexec
  obtain ⟨hinv₂, hrecalls₂⟩ : Inv iover s₂ ∧ Recalls s.ns.last i params' bio s.ns.clock s₂.ns :=
    hrun'.invariant (I := fun s' => Inv iover s' ∧ Recalls s.ns.last i params' bio s.ns.clock s'.ns)
      (fun _ _ _ hi hs => ⟨hi.1.step hs, hi.2.step hi.1 hs⟩) ⟨hinv.step hexec, hrecalls⟩
  obtain ⟨-, -, hlast⟩ := hrecalls₂.read _ hl ht hop hzero
  -- the read is verified with the descriptors of its execution
  have hdesc : ∀ o < bio.nlbs, Describes iover (bio.slba + o)
      (s₂.ns.iover.blockDesc (bio.slba + o)) (s.content (bio.slba + o)) := by
    intro o ho
    have hx : bio.slba + o ∈ bio.range := ⟨Nat.le_add_right _ _, Nat.add_lt_add_left ho _⟩
    rw [← hinv₂.settled hl ht hop hzero hgap hx, hlast _ hx]
    exact hinv.describes _
  have hover : params.lbaOverlap = false := hinv₂.ns.noOverlap i _ hl
  refine ⟨?_, ?_⟩
  · intro hserves
    refine (verifyBioRead_eq_zero_iff hover).mpr ?_
    intro o ho
    obtain ⟨block, hread, hdata⟩ := hserves o ho
    rw [← blockData_congr hinv₂.format, ← hinv₂.format.ns] at hdata
    exact lbaResult_of_describes hover (hinv₂.format.ns ▸ hmeta) ((hdesc o ho).congr hinv₂.format)
      hread hdata
  · intro hanswers hgood o ho block hblock
    obtain ⟨t, hversion⟩ := hversioned _ _ hblock
    obtain ⟨y, t', hanswer, hnear⟩ := hanswers o ho block t hblock hversion
    have hd := hdesc o ho
    rw [hblock] at hd
    obtain ⟨hstate, htime⟩ := hversion.timestamp hd
    have hres := (verifyBioRead_eq_zero_iff hover).mp hgood o ho
    rw [← HoldsVersion.congr hinv₂.format, ← blockData_congr hinv₂.format] at hanswer
    obtain ⟨hlba, htime'⟩ := version_of_lbaResult hover hstate hanswer hres
    obtain rfl : t = t' := hnear.eq (htime.trans htime'.symm)
    intro k hk
    rw [← HoldsVersion.congr hinv₂.format] at hversion
    rw [← blockData_congr hinv₂.format, hanswer k (hinv₂.format.ns ▸ hk),
      hversion k (hinv₂.format.ns ▸ hk), version_of_lba hlba]

/-- LBA 0 is written, and a read of it has been issued. -/
theorem write_read_run : ∃ (ls : List (NsLabel Bool)) (s : RefSystem Bool) (block : Buf),
    Run (guarded Step Orderly) (init (Iover.plain .zero) fun _ => .unwritten) ls s ∧
      s.ns.live false = none ∧
      s.ns.live true = some ⟨.plain, .plain .read 0 1 fun _ => 0, .issued⟩ ∧
      s.content 0 = .data block := by
  let s₀ : RefSystem Bool := init (Iover.plain .zero) fun _ => .unwritten
  obtain ⟨write, s₁, s₂, s₃, s₄, hw⟩ :=
    Ns.exists_writeCycle (s := s₀.ns) (i := false) rfl (by decide)
  have hch : write.changes ∧ 0 ∈ write.range :=
    ⟨by rw [Bio.changes, hw.opcode, hw.result]; rfl, by rw [hw.range]; rfl⟩
  have hslba : write.slba = 0 := Nat.le_zero.mp hch.2.1
  have htake : takesLock .plain write = true :=
    Ns.takesLock_of_changes rfl (.inl hch.1)
  obtain ⟨iover₁, hgen, h₁⟩ : ∃ iover₁, Generates s₀.ns.iover .plain iover₁ write ∧
      s₁ = s₀.ns.put false (some ⟨.plain, write, .issued⟩) iover₁ := by
    cases hw.issue with
    | issue _ _ _ iover₁ _ _ hgen => exact ⟨iover₁, hgen, rfl⟩
  have hlive₁ : s₁.live false = some ⟨.plain, write, .issued⟩ := by
    rw [h₁, Ns.put_live, if_pos rfl]
  have h₂ : s₂ = s₁.execute false .plain write := by
    cases hw.execute with
    | execute _ params before _ hl _ =>
      obtain rfl := congrArg LiveBio.params (Option.some.inj (hl.symm.trans hlive₁))
      rfl
  have hnlbs : s₁.iover.ns.nlbs = 8 := by
    obtain ⟨-, hsame, -⟩ := hgen.spec
    rw [h₁]
    exact congrArg NamespaceInfo.nlbs hsame.ns
  have hother : s₃.live true = none := by
    cases hw.unlock with
    | unlock => rw [Ns.put_live, h₂, Ns.execute_live, h₁, Ns.put_live]; rfl
  let content := contentAfter s₁.iover write s₀.content
  have hissue : guarded Step Orderly s₀ (.issue false .plain write) ⟨s₁, s₀.content⟩ :=
    ⟨trivial, .verifier _ s₁ (fun _ _ h => by cases h) hw.issue⟩
  have hexecute : guarded Step Orderly ⟨s₁, s₀.content⟩ (.execute false write) ⟨s₂, content⟩ := by
    refine ⟨?_, h₂ ▸ .execute false .plain write write hlive₁ (.refl _) fun _ => ?_⟩
    · intro _ l hl
      obtain rfl := Option.some.inj (hlive₁.symm.trans hl)
      rfl
    · change write.slba + write.nlbs ≤ s₁.iover.ns.nlbs
      rw [hslba, hw.nlbs, hnlbs]
      decide
  have hunlock : guarded Step Orderly ⟨s₂, content⟩ (.unlock false) ⟨s₃, content⟩ := by
    refine ⟨?_, .verifier _ s₃ (fun _ _ h => by cases h) hw.unlock⟩
    intro l hl hfree
    rw [show s₂.live false = _ from h₂ ▸ (Ns.execute_live _ _ _).trans (if_pos rfl)] at hl
    obtain rfl := Option.some.inj hl
    exact absurd (htake.symm.trans hfree) (by decide)
  have hfinish : guarded Step Orderly ⟨s₃, content⟩ (.finish false) ⟨s₄, content⟩ := by
    refine ⟨?_, .verifier _ s₄ (fun _ _ h => by cases h) hw.finish⟩
    intro l t hl ht
    obtain rfl := Option.some.inj (hw.half.symm.trans hl)
    obtain rfl := BioPhase.unlocked.inj ht
    refine ⟨fun _ => hw.histIdx, ?_⟩
    intro _ j lj tj hj htj hlt _
    cases j with
    | false =>
      obtain rfl := Option.some.inj (hw.half.symm.trans hj)
      obtain rfl := BioPhase.unlocked.inj htj
      exact absurd hlt (lt_irrefl _)
    | true => exact absurd (hj.symm.trans hother) (Option.some_ne_none _)
  have hidle : s₄.live true = none := by rw [hw.live]; rfl
  have hread : Generates s₄.iover .plain { s₄.iover with
      lbaLock := (tryLockLbas s₄.iover.lbaLock 0 1).2 } (.plain .read 0 1 fun _ => 0) :=
    generates_of_free (.plain .read 0 1 fun _ => 0) (by decide) (by decide) (by decide) (by decide)
      (by rw [hw.ns]; rfl) (by rw [hw.lbaLock]; decide)
  let s₅ : Ns Bool := s₄.put true (some ⟨.plain, .plain .read 0 1 fun _ => 0, .issued⟩)
    { s₄.iover with lbaLock := (tryLockLbas s₄.iover.lbaLock 0 1).2 }
  have hreissue : guarded Step Orderly ⟨s₄, content⟩
      (.issue true .plain (.plain .read 0 1 fun _ => 0)) ⟨s₅, content⟩ :=
    ⟨trivial, .verifier _ s₅ (fun _ _ h => by cases h) (.issue true .plain _ _ hidle rfl hread)⟩
  refine ⟨_, ⟨s₅, content⟩, blockData s₁.iover write (0 - write.slba),
    .cons hissue <| .cons hexecute <| .cons hunlock <| .cons hfinish <| .single hreissue,
    ?_, rfl, ?_⟩
  · rw [show s₅.live false = s₄.live false from (Ns.put_live _ _ _).trans (if_neg (by decide)),
      hw.live, Function.update_self]
  · change contentAfter s₁.iover write s₀.content 0 = _
    rw [contentAfter, if_pos hch, Content.after, hw.opcode]

/-- A read of LBA 0 after a write, whose data is what the same write bio would have for LBA 1. -/
theorem faults_found_misdirected :
    ∃ (ls : List (NsLabel Bool)) (s : RefSystem Bool) (bio : Bio) (t : BitVec 64),
      Run (guarded Step Orderly) (init (Iover.plain .zero) fun _ => .unwritten) ls s ∧
        (∃ block, s.content 0 = .data block ∧ HoldsVersion (Iover.plain .zero) 0 t block) ∧
        bio.opcode = .read ∧ bio.range = {0} ∧
        HoldsVersion (Iover.plain .zero) 1 t (blockData (Iover.plain .zero) bio 0) ∧
        verifyBioRead s.ns.iover .plain bio ≠ 0 := by
  obtain ⟨ls, s, block, hrun, hfalse, htrue, hcontent⟩ := write_read_run
  have hcons : Consistent (Iover.plain .zero) fun _ => .unwritten := ⟨fun _ => rfl, fun _ _ => rfl⟩
  have hversioned : Versioned (Iover.plain .zero) fun _ => .unwritten := Versioned.init fun _ => rfl
  obtain ⟨-, hversions⟩ := versioned_of_run hcons hversioned hrun
  obtain ⟨t, hversion⟩ := hversions 0 block hcontent
  let bio : Bio := { Bio.plain .read 0 1 fun _ => 0 with data := version (Iover.plain .zero) 1 t }
  have hread : HoldsVersion (Iover.plain .zero) 1 t (blockData (Iover.plain .zero) bio 0) := by
    intro i _
    rw [blockData, Nat.mul_zero]
    exact congrArg (version (Iover.plain .zero) 1 t) (Nat.zero_add i)
  have hexecutes : Bio.Executes (.plain .read 0 1 fun _ => 0) bio :=
    ⟨rfl, rfl, rfl, rfl, rfl, rfl, rfl, fun hop => absurd rfl hop⟩
  have hexec : guarded Step Orderly s (.execute true bio)
      ⟨s.ns.execute true .plain bio, contentAfter s.ns.iover bio s.content⟩ :=
    ⟨fun hch => absurd hch Bool.false_ne_true, .execute true .plain _ bio htrue hexecutes
      fun hch => absurd hch Bool.false_ne_true⟩
  have hlive : (s.ns.execute true .plain bio).live true
      = some ⟨.plain, bio, .executed s.ns.clock⟩ :=
    (Ns.execute_live _ _ _).trans (if_pos rfl)
  have hgap : Settled (s.ns.execute true .plain bio) bio s.ns.clock := by
    intro j lj tj hj hphase _ _
    cases j with
    | false =>
      rw [Ns.execute_live, if_neg (by decide), hfalse] at hj
      cases hj
    | true =>
      obtain rfl := Option.some.inj (hlive.symm.trans hj)
      cases hphase
  have hanswers : AnswersVersions (Iover.plain .zero) s.content bio := by
    intro o ho block' t' hblock' hversion'
    obtain rfl : o = 0 := Nat.lt_one_iff.mp ho
    obtain rfl := Content.data.inj (hcontent.symm.trans hblock')
    obtain rfl := (hversion'.unique hversion).2
    refine ⟨1, t', hread, .inl ?_⟩
    rw [BitVec.sub_self]
    decide
  refine ⟨_, _, bio, t, hrun.snoc hexec, ⟨block, ?_, hversion⟩, rfl, ?_, hread, ?_⟩
  · change contentAfter s.ns.iover bio s.content 0 = _
    rw [contentAfter, if_neg fun h => Bool.false_ne_true h.1, hcontent]
  · ext x
    change 0 ≤ x ∧ x < 1 ↔ x = 0
    omega
  · intro hgood
    have hright := (faults_found rfl hcons hversioned hrun hexec (.nil _) hlive rfl rfl rfl hgap).2
      hanswers hgood 0 Nat.one_pos block hcontent
    have hversion₁ : HoldsVersion (Iover.plain .zero) 0 t (blockData (Iover.plain .zero) bio 0) :=
      fun k hk => (hright k hk).trans (hversion k hk)
    exact absurd (hversion₁.unique hread).1 (by decide)

end Run

end Shared

end ChamberSpo

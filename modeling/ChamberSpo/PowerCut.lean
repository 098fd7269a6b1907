import ChamberSpo.Iogen
import ChamberSpo.Sessions

/-!
# A namespace from power cut to power cut

At `spor_level` 3 the process does not wait for the bios in flight: it cuts the power of the device,
and leaves the journal behind as it is. What the device makes of a write that it did not report as
done is not known, and so the runner has put the LBAs of every write in state unwritten by then.

* `PowerRun.Step` — a job and its device. `PowerRun.Inv.step` is the step lemma.
* `Admits` — a descriptor says what an LBA holds, or that it may hold anything.
* `PowerOff` — what a power cut may do to the content, and between which steps it comes.
* `PowerSession` — a process, of any `spor_level`. `Disk.Known` is what every one of them keeps.
-/

namespace ChamberSpo

open Bitmap

/-! ## What a descriptor admits -/

/-- A descriptor says what LBA `x` holds, or that it may hold anything. -/
def Admits (iover : Iover) (x : ℕ) (d : BlockDesc) (c : Content) : Prop :=
  d.state = .unwritten ∨ Describes iover x d c

/-- The verifier does not ask for a value of LBAs in state unwritten, or the bio has none. -/
def Judged (iover : Iover) (params : JobParams) (bio : Bio) : Prop :=
  params.unwrReadResultType = .value → ∀ x ∈ bio.range, (iover.blockDesc x).state ≠ .unwritten

section Admits

variable {iover iover' : Iover} {params : JobParams} {bio : Bio} {x o : ℕ} {d : BlockDesc}
  {c : Content} {spor3 : Bool}

theorem Admits.congr (h : iover.SameFormat iover') (hk : Admits iover x d c) : Admits iover' x d c :=
  hk.imp_right fun hd => hd.congr h

/-- An LBA that is known is found good. -/
theorem lbaResult_of_admits (hover : params.lbaOverlap = false) (hmeta : iover.ns.metaSize = 0)
    (hjudged : Judged iover params bio) (ho : o < bio.nlbs)
    (hk : Admits iover (bio.slba + o) (iover.blockDesc (bio.slba + o)) c) {block : Buf}
    (hread : c.read params = some block)
    (hdata : ∀ i < iover.ns.dataSize, blockData iover bio o i = block i) :
    lbaResult iover params bio o = 0 := by
  rcases hk with hstate | hd
  · have htype : params.unwrReadResultType ≠ .value := fun hvalue =>
      hjudged hvalue _ ⟨Nat.le_add_right _ _, Nat.add_lt_add_left ho _⟩ hstate
    rw [lbaResult]
    simp only [hstate]
    rw [verifyUnwrittenBlock, if_neg htype]
  · exact lbaResult_of_describes hover hmeta hd hread hdata

/-- Every block of a write has its header. -/
theorem Written.header (hw : Written iover bio) (ho : o < bio.nlbs) :
    ∃ info, datagenGetHeader iover.datagen (blockData iover bio o) = some info := by
  obtain ⟨-, t, p, hp, -, -, hdata⟩ := hw o ho
  refine ⟨⟨BitVec.ofNat 64 (bio.slba + o), t, p⟩, ?_⟩
  rw [datagenGetHeader_congr fun i hi => hdata i (iover.datagen_dataSize ▸ hi)]
  exact datagenGetHeader_setData _ hp

theorem demoteWrite_spec (h : demoteWrite spor3 iover params bio = some iover') :
    ∃ bd, iover' = { iover with blockDesc := bd } ∧
      ∀ x, bd x = iover.blockDesc x ∨ (bd x).state = .unwritten := by
  rw [demoteWrite] at h
  split at h
  · exact commitBlockStateUnwritten_spec h
  · exact ⟨iover.blockDesc, (Option.some.inj h).symm, fun _ => .inl rfl⟩

/-- **A write is demoted**: all its LBAs are in state unwritten after that. -/
theorem demoteWrite_unwritten (h : demoteWrite true iover params bio = some iover')
    (hc : params.compare = true) (hop : bio.opcode = .write) (hw : Written iover bio)
    (hx : x ∈ bio.range) : (iover'.blockDesc x).state = .unwritten := by
  rw [demoteWrite, if_pos ⟨rfl, hop⟩, commitBlockStateUnwritten, if_pos hc] at h
  simp only [commitWritten, Option.bind_eq_bind, Option.bind_eq_some_iff, Option.pure_def,
    Option.some.injEq] at h
  obtain ⟨bd, hbd, rfl⟩ := h
  obtain ⟨hle, hlt⟩ := hx
  obtain ⟨info, hinfo⟩ := hw.header (o := x - bio.slba) (by omega)
  simp only [foldlM_writtenDesc iover bio .unwritten _ _ _ hbd]
  rw [updateLbas_apply, if_pos ⟨hle, hlt⟩, hinfo]
  rfl

/-- The blocks of a write always have the headers that demoting it looks for. -/
theorem exists_demoteWrite (hw : Written iover bio) (spor3 : Bool) (params : JobParams) :
    ∃ iover', demoteWrite spor3 iover params bio = some iover' := by
  rw [demoteWrite, commitBlockStateUnwritten]
  split
  · split
    · obtain ⟨bd, hbd⟩ := Option.isSome_iff_exists.mp (foldlM_writtenDesc_isSome iover bio .unwritten
        bio.nlbs iover.blockDesc fun o ho => Option.isSome_iff_exists.mpr (hw.header ho))
      rw [commitWritten, hbd]
      exact ⟨_, rfl⟩
    · exact ⟨iover, rfl⟩
  · exact ⟨iover, rfl⟩

/-- What a command leaves on an LBA that it changes does not depend on what was there. -/
theorem Content.after_of_changes (hch : bio.changes) (c c' : Content) :
    c.after iover bio x = c'.after iover bio x := by
  rw [Content.after, Content.after]
  cases hop : bio.opcode with
  | write => rfl
  | deallocate => rfl
  | writeZeroes => rfl
  | writeUncorrect => rfl
  | _ => simp [Bio.changes, hop] at hch

end Admits

/-! ## The system -/

/-- A bio that the engine took. -/
structure TakenBio where
  bio : Bio
  /-- it is on the list, recorded in the history and, if need be, demoted -/
  listed : Bool
  /-- the device executed it -/
  executed : Bool

/-- The verifier, the bios that the engine took, and what the device holds. -/
structure PowerRun (ι : Type*) where
  iover : Iover
  live : ι → Option TakenBio
  content : ℕ → Content

/-- What happens to a bio. -/
inductive PowerLabel (ι : Type*) where
  /-- it is generated, and the engine takes it -/
  | take (i : ι) (bio : Bio)
  /-- the runner goes on to the end of its turn -/
  | list (i : ι)
  | execute (i : ι) (bio : Bio)
  /-- `bio_end` -/
  | complete (i : ι)

namespace PowerRun

variable {ι : Type*} [DecidableEq ι]

/-- Slot `i` goes on to `l`. -/
def put (s : PowerRun ι) (i : ι) (l : Option TakenBio) (iover : Iover) : PowerRun ι :=
  { s with iover := iover, live := Function.update s.live i l }

/-- The steps of a job with parameters `p`, in a process whose `spor_level` is 3 or not, and of its
device, which refuses to change LBAs that it does not have. -/
inductive Step (spor3 : Bool) (p : JobParams) (s : PowerRun ι) :
    PowerLabel ι → PowerRun ι → Prop
  | take (i : ι) (bio : Bio) (iover : Iover) :
    s.live i = none → p.lbaOverlap = false → Generates s.iover p iover bio → bio.Ordinary →
    Step spor3 p s (.take i bio) (s.put i (some ⟨bio, false, false⟩) iover)
  | list (i : ι) (bio : Bio) (executed : Bool) (iover iover' : Iover) :
    s.live i = some ⟨bio, false, executed⟩ → backupHistState s.iover p bio = some iover →
    demoteWrite spor3 iover p bio = some iover' →
    Step spor3 p s (.list i) (s.put i (some ⟨bio, true, executed⟩) iover')
  | execute (i : ι) (before bio : Bio) (listed : Bool) :
    s.live i = some ⟨before, listed, false⟩ → before.Executes bio →
    (bio.changes → bio.slba + bio.nlbs ≤ s.iover.ns.nlbs) →
    (bio.opcode = .read → bio.result = 0 → Serves s.iover p s.content bio) →
    Step spor3 p s (.execute i bio)
      { s.put i (some ⟨bio, listed, true⟩) s.iover with
        content := contentAfter s.iover bio s.content }
  | complete (i : ι) (bio : Bio) (job : JobView) (r : SubmitResult) :
    s.live i = some ⟨bio, true, true⟩ → ioverSubmit s.iover p job bio = some r → r.res = 0 →
    Step spor3 p s (.complete i) (s.put i none r.iover)

/-- A verifier nobody uses yet, and a device with content. -/
def init (iover : Iover) (content : ℕ → Content) : PowerRun ι where
  iover := { iover with lbaLock := fun _ => 0 }
  live := fun _ => none
  content := content

/-- The lock bits a slot holds. -/
def own (s : PowerRun ι) (i : ι) : Set ℕ :=
  match s.live i with
  | some l => lockBits l.bio.slba l.bio.nlbs
  | none => ∅

/-- The runner put the LBAs of the bio in state unwritten. -/
def Demoted (spor3 : Bool) (l : TakenBio) : Prop :=
  spor3 = true ∧ l.listed = true ∧ l.bio.opcode = .write

/-- The device is ahead of the descriptors on the LBAs of the bio, which it changed. -/
def Ahead (spor3 : Bool) (l : TakenBio) : Prop :=
  l.executed = true ∧ l.bio.changes ∧ ¬ Demoted spor3 l

/-- What holds of a bio from its generation on. -/
structure Fits (p : JobParams) (iover : Iover) (bio : Bio) : Prop where
  noOverlap : p.lbaOverlap = false
  nlbs_lt : bio.nlbs < 2 ^ 32
  ordinary : bio.Ordinary
  written : bio.opcode = .write → Written iover bio

/-- What holds of the job and its device. -/
structure Inv (spor3 : Bool) (p : JobParams) (iover : Iover) (s : PowerRun ι) : Prop where
  /-- the lock separates the bios -/
  owns : Owns (bits s.iover.lbaLock) s.own
  format : iover.SameFormat s.iover
  geometry : iover.header.SameGeometry s.iover.header
  fits : ∀ i l, s.live i = some l → Fits p iover l.bio
  known : ∀ x, (∀ i l, s.live i = some l → Ahead spor3 l → x ∉ l.bio.range) →
    Admits iover x (s.iover.blockDesc x) (s.content x)
  demoted : ∀ i l x, s.live i = some l → Demoted spor3 l → x ∈ l.bio.range →
    (s.iover.blockDesc x).state = .unwritten
  /-- what was executed and waits for its completion is there -/
  applied : ∀ i l x, s.live i = some l → l.executed = true → l.bio.changes → x ∈ l.bio.range →
    ∀ c : Content, s.content x = c.after iover l.bio x
  reads : ∀ i l, s.live i = some l → l.executed = true → l.bio.opcode = .read →
    l.bio.result = 0 → Serves iover p s.content l.bio
  outside : ∀ x, iover.ns.nlbs ≤ x → s.content x = .unwritten

variable {spor3 : Bool} {p : JobParams} {iover : Iover} {s s' : PowerRun ι} {i j : ι}
  {l : TakenBio} {x : ℕ}

@[simp] theorem put_live (l : Option TakenBio) (iover : Iover) (j : ι) :
    (s.put i l iover).live j = if j = i then l else s.live j := Function.update_apply ..

theorem put_own_of_ne (l : Option TakenBio) (iover : Iover) (h : j ≠ i) :
    (s.put i l iover).own j = s.own j := by
  rw [own, own, put_live, if_neg h]

theorem put_own_self (l : Option TakenBio) (iover : Iover) :
    (s.put i l iover).own i
      = (match l with | some l => lockBits l.bio.slba l.bio.nlbs | none => ∅) := by
  rw [own, put_live, if_pos rfl]

omit [DecidableEq ι] in
theorem own_eq (h : s.live i = some l) : s.own i = lockBits l.bio.slba l.bio.nlbs := by rw [own, h]

omit [DecidableEq ι] in
theorem own_eq_empty (h : s.live i = none) : s.own i = ∅ := by rw [own, h]

/-- What is in the slots after a move. -/
theorem live_of_put {l' : Option TakenBio} (h : Function.update s.live i l' j = some l) :
    (j = i ∧ l' = some l) ∨ (j ≠ i ∧ s.live j = some l) := by
  rw [Function.update_apply] at h
  split at h
  · rename_i hji
    exact .inl ⟨hji, h⟩
  · rename_i hji
    exact .inr ⟨hji, h⟩

/-- A slot that moves and keeps its LBAs. -/
theorem Inv.owns_put (h : Inv spor3 p iover s) {l' : TakenBio} {iover' : Iover}
    (hl : s.live i = some l) (hslba : l'.bio.slba = l.bio.slba) (hnlbs : l'.bio.nlbs = l.bio.nlbs)
    (hlock : iover'.lbaLock = s.iover.lbaLock) :
    Owns (bits iover'.lbaLock) (s.put i (some l') iover').own := by
  have hsame : (s.put i (some l') iover').own = s.own := by
    funext j
    by_cases hji : j = i
    · subst hji
      rw [put_own_self, own_eq hl]
      simp only [hslba, hnlbs]
    · exact put_own_of_ne _ _ hji
  rw [hlock, hsame]
  exact h.owns

omit [DecidableEq ι] in
/-- **The lock separates**: two slots that share an LBA are one. -/
theorem Inv.eq_of_mem (h : Inv spor3 p iover s) {li lj : TakenBio} (hi : s.live i = some li)
    (hj : s.live j = some lj) (hxi : x ∈ li.bio.range) (hxj : x ∈ lj.bio.range) : i = j := by
  by_contra hij
  have hmemi : x % 2 ^ 38 ∈ s.own i := own_eq hi ▸ mem_lockBits_of_mem hxi
  have hmemj : x % 2 ^ 38 ∈ s.own j := own_eq hj ▸ mem_lockBits_of_mem hxj
  exact Set.disjoint_left.mp (h.owns.disj i j hij) hmemi hmemj

/-! ## The step lemma -/

/-- The engine takes a bio. -/
theorem Inv.take (h : Inv spor3 p iover s) (hc : p.compare = true) {bio : Bio} {iover' : Iover}
    (hl : s.live i = none) (hover : p.lbaOverlap = false) (hgen : Generates s.iover p iover' bio)
    (hord : bio.Ordinary) : Inv spor3 p iover (s.put i (some ⟨bio, false, false⟩) iover') := by
  obtain ⟨hn, hformat, hdesc, hrest, hsub⟩ := hgen.spec
  have htake : takesLock p bio = true := by
    rw [takesLock, hover, Bool.not_false, Bool.true_and]
    exact decide_eq_true hord.opcode
  rw [LiveBio.own, if_pos htake] at hrest hsub
  have howns : Owns (bits iover'.lbaLock) (s.put i (some ⟨bio, false, false⟩) iover').own := by
    refine h.owns.exchange i ?_ ?_ fun j hji => (put_own_of_ne _ _ hji).subset
    · rw [own_eq_empty hl, Set.sdiff_empty, put_own_self]
      exact hrest
    · rw [put_own_self]
      exact hsub
  have hgeometry : iover.header.SameGeometry iover'.header := hgen.header ▸ h.geometry
  refine ⟨howns, h.format.trans hformat, hgeometry, ?_, ?_, ?_, ?_, ?_, h.outside⟩
  · intro j l hj
    rcases live_of_put hj with ⟨-, hnew⟩ | ⟨-, hj⟩
    · obtain rfl := Option.some.inj hnew
      exact ⟨hover, hn, hord, fun hop => (hgen.holds hop hc).congr (h.format.trans hformat)⟩
    · exact h.fits j l hj
  · intro x hx
    change Admits iover x (iover'.blockDesc x) (s.content x)
    rw [hdesc]
    refine h.known x fun j l hj hahead => hx j l ?_ hahead
    have hji : j ≠ i := by
      rintro rfl
      exact absurd (hl.symm.trans hj).symm (Option.some_ne_none l)
    rw [put_live, if_neg hji, hj]
  · intro j l x hj hdem hx
    rcases live_of_put hj with ⟨-, hnew⟩ | ⟨-, hj⟩
    · obtain rfl := Option.some.inj hnew
      exact absurd hdem.2.1 Bool.false_ne_true
    · exact hdesc ▸ h.demoted j l x hj hdem hx
  · intro j l x hj hex
    rcases live_of_put hj with ⟨-, hnew⟩ | ⟨-, hj⟩
    · obtain rfl := Option.some.inj hnew
      cases hex
    · exact h.applied j l x hj hex
  · intro j l hj hex
    rcases live_of_put hj with ⟨-, hnew⟩ | ⟨-, hj⟩
    · obtain rfl := Option.some.inj hnew
      cases hex
    · exact h.reads j l hj hex

/-- **The runner ends its turn**: where it demoted a write, the device may be ahead. -/
theorem Inv.list (h : Inv spor3 p iover s) (hc : p.compare = true) {bio : Bio} {executed : Bool}
    {iover₁ iover₂ : Iover} (hl : s.live i = some ⟨bio, false, executed⟩)
    (hback : backupHistState s.iover p bio = some iover₁)
    (hdemote : demoteWrite spor3 iover₁ p bio = some iover₂) :
    Inv spor3 p iover (s.put i (some ⟨bio, true, executed⟩) iover₂) := by
  have hheader := backupHistState_header hback
  obtain ⟨hd, header, rfl⟩ := backupHistState_sameButHist hback
  have hwritten := (h.fits i _ hl).written
  have hunwritten : spor3 = true → bio.opcode = .write → ∀ x ∈ bio.range,
      (iover₂.blockDesc x).state = .unwritten := by
    rintro rfl hop x hx
    exact demoteWrite_unwritten hdemote hc hop ((hwritten hop).congr ⟨h.format.ns.symm,
      h.format.datagen.symm⟩) hx
  obtain ⟨bd, rfl, hbd⟩ := demoteWrite_spec hdemote
  have hold : ∀ j l, (s.put i (some ⟨bio, true, executed⟩)
      { s.iover with histDesc := hd, header := header, blockDesc := bd }).live j = some l →
      ∃ l₀, s.live j = some l₀ ∧ l₀.bio = l.bio ∧ l₀.executed = l.executed := by
    intro j l hj
    rcases live_of_put hj with ⟨rfl, hnew⟩ | ⟨-, hj⟩
    · obtain rfl := Option.some.inj hnew
      exact ⟨_, hl, rfl, rfl⟩
    · exact ⟨l, hj, rfl, rfl⟩
  refine ⟨h.owns_put hl rfl rfl rfl, h.format.trans ⟨rfl, rfl⟩, h.geometry.trans hheader, ?_, ?_,
    ?_, ?_, ?_, h.outside⟩
  · intro j l hj
    obtain ⟨l₀, hl₀, hbio, -⟩ := hold j l hj
    exact hbio ▸ h.fits j l₀ hl₀
  · intro x hx
    change Admits iover x (bd x) (s.content x)
    rcases hbd x with hsame | hstate
    · by_cases hin : spor3 = true ∧ bio.opcode = .write ∧ x ∈ bio.range
      · exact .inl (hunwritten hin.1 hin.2.1 x hin.2.2)
      · rw [hsame]
        refine h.known x ?_
        intro j l hj hahead hxj
        by_cases hji : j = i
        · subst hji
          obtain rfl := Option.some.inj (hl.symm.trans hj)
          refine hx j ⟨bio, true, executed⟩ ?_ ⟨hahead.1, hahead.2.1, ?_⟩ hxj
          · rw [put_live, if_pos rfl]
          · exact fun hdem => hin ⟨hdem.1, hdem.2.2, hxj⟩
        · exact hx j l (by rw [put_live, if_neg hji, hj]) hahead hxj
    · exact .inl hstate
  · intro j l x hj hdem hx
    rcases live_of_put hj with ⟨-, hnew⟩ | ⟨-, hj⟩
    · obtain rfl := Option.some.inj hnew
      exact hunwritten hdem.1 hdem.2.2 x hx
    · rcases hbd x with hsame | hstate
      · exact (congrArg BlockDesc.state hsame).trans (h.demoted j l x hj hdem hx)
      · exact hstate
  · intro j l x hj hex hch hx
    obtain ⟨l₀, hl₀, hbio, hexec⟩ := hold j l hj
    rw [← hbio] at hch hx ⊢
    exact h.applied j l₀ x hl₀ (hexec.trans hex) hch hx
  · intro j l hj hex hop hzero
    obtain ⟨l₀, hl₀, hbio, hexec⟩ := hold j l hj
    rw [← hbio] at hop hzero ⊢
    exact h.reads j l₀ hl₀ (hexec.trans hex) hop hzero

/-- **The device executes a command.** It is ahead of the descriptors on its LBAs then, unless the
write is demoted. -/
theorem Inv.execute (h : Inv spor3 p iover s) {before bio : Bio} {listed : Bool}
    (hl : s.live i = some ⟨before, listed, false⟩) (hex : before.Executes bio)
    (hinside : bio.changes → bio.slba + bio.nlbs ≤ s.iover.ns.nlbs)
    (hserves : bio.opcode = .read → bio.result = 0 → Serves s.iover p s.content bio) :
    Inv spor3 p iover { s.put i (some ⟨bio, listed, true⟩) s.iover with
      content := contentAfter s.iover bio s.content } := by
  have hfits := h.fits i _ hl
  have hrange : bio.range = before.range := by
    rw [Bio.range, Bio.range, hex.slba, hex.nlbs]
  have hblock : bio.opcode = .write → ∀ o, blockData iover bio o = blockData iover before o := by
    intro hop o
    have hop' : before.opcode = .write := hex.opcode.symm.trans hop
    rw [blockData, blockData, getBlockSize, getBlockSize, hex.pract,
      hex.data (by simp [hop']) (by simp [hop'])]
  have hafter : ∀ x c, Content.after s.iover bio x c = c.after iover bio x := by
    intro x c
    rw [Content.after, Content.after, blockData_congr h.format]
  -- nobody else has an LBA of the command
  have hothers : ∀ j l x, j ≠ i → s.live j = some l → x ∈ l.bio.range →
      contentAfter s.iover bio s.content x = s.content x := by
    intro j l x hji hj hx
    refine if_neg ?_
    rintro ⟨-, hxi⟩
    exact hji (h.eq_of_mem hj hl hx (hrange ▸ hxi))
  refine ⟨h.owns_put hl hex.slba hex.nlbs rfl, h.format, h.geometry, ?_, ?_, ?_, ?_, ?_, ?_⟩
  · intro j l hj
    rcases live_of_put hj with ⟨-, hnew⟩ | ⟨-, hj⟩
    · obtain rfl := Option.some.inj hnew
      refine ⟨hfits.noOverlap, hex.nlbs ▸ hfits.nlbs_lt, ⟨hex.opcode ▸ hfits.ordinary.opcode,
        hex.histIdx.trans hfits.ordinary.histIdx,
        hex.expectedResult.trans hfits.ordinary.expectedResult⟩, ?_⟩
      intro hop o ho
      rw [hblock hop, hex.slba]
      exact hfits.written (hex.opcode.symm.trans hop) o (hex.nlbs ▸ ho)
    · exact h.fits j l hj
  · intro x hx
    change Admits iover x (s.iover.blockDesc x) (contentAfter s.iover bio s.content x)
    have hself := hx i ⟨bio, listed, true⟩ (by rw [put_live, if_pos rfl])
    by_cases hch : bio.changes ∧ x ∈ bio.range
    · -- it is a write that was demoted
      have hdem : Demoted spor3 ⟨bio, listed, true⟩ := by
        by_contra hne
        exact hself ⟨rfl, hch.1, hne⟩ hch.2
      obtain ⟨hspor, hlisted, hop⟩ := hdem
      exact .inl (h.demoted i _ x hl ⟨hspor, hlisted, hex.opcode.symm.trans hop⟩ (hrange ▸ hch.2))
    · rw [contentAfter, if_neg hch]
      refine h.known x ?_
      intro j l hj hahead
      have hji : j ≠ i := by
        rintro rfl
        obtain rfl := Option.some.inj (hl.symm.trans hj)
        exact absurd hahead.1 Bool.false_ne_true
      exact hx j l (by rw [put_live, if_neg hji, hj]) hahead
  · intro j l x hj hdem hx
    rcases live_of_put hj with ⟨-, hnew⟩ | ⟨-, hj⟩
    · obtain rfl := Option.some.inj hnew
      obtain ⟨hspor, hlisted, hop⟩ := hdem
      exact h.demoted i _ x hl ⟨hspor, hlisted, hex.opcode.symm.trans hop⟩ (hrange ▸ hx)
    · exact h.demoted j l x hj hdem hx
  · intro j l x hj hexec hch hx c
    change contentAfter s.iover bio s.content x = _
    rcases live_of_put hj with ⟨-, hnew⟩ | ⟨hji, hj⟩
    · obtain rfl := Option.some.inj hnew
      rw [contentAfter, if_pos ⟨hch, hx⟩, hafter]
      exact Content.after_of_changes hch _ _
    · rw [hothers j l x hji hj hx]
      exact h.applied j l x hj hexec hch hx c
  · intro j l hj hexec hop hzero
    rcases live_of_put hj with ⟨-, hnew⟩ | ⟨hji, hj⟩
    · obtain rfl := Option.some.inj hnew
      refine ((hserves hop hzero).congr h.format).of_eq fun o _ => if_neg ?_
      rintro ⟨hch, -⟩
      exact absurd hch (by simp [Bio.changes, show bio.opcode = .read from hop])
    · refine (h.reads j l hj hexec hop hzero).of_eq fun o ho => hothers j l _ hji hj ?_
      exact ⟨Nat.le_add_right _ _, Nat.add_lt_add_left ho _⟩
  · intro x hx
    refine (if_neg ?_).trans (h.outside x hx)
    rintro ⟨hch, -, hlt⟩
    have hin := hinside hch
    rw [h.format.ns] at hin
    omega

/-- **A bio ends**: the descriptors of its LBAs are up to date again. -/
theorem Inv.complete (h : Inv spor3 p iover s) (hc : p.compare = true) {bio : Bio} {job : JobView}
    {r : SubmitResult} (hl : s.live i = some ⟨bio, true, true⟩)
    (hsubmit : ioverSubmit s.iover p job bio = some r) (hres : r.res = 0) :
    Inv spor3 p iover (s.put i none r.iover) := by
  have hfits := h.fits i _ hl
  rw [ioverSubmit, submitUnlock, if_neg (by rw [hfits.noOverlap]; decide)] at hsubmit
  have hcore := submitTail_sameCore hsubmit
  have hdesc := submitTail_blockDesc hsubmit hres fun _ => hfits.ordinary.histIdx
  have howns : Owns (bits r.iover.lbaLock) (s.put i none r.iover).own := by
    rw [hcore.lbaLock]
    refine h.owns.exchange i ?_ ?_ fun j hji => (put_own_of_ne _ _ hji).subset
    · rw [put_own_self, bits_unlockLbas hfits.nlbs_lt, own_eq hl, Set.sdiff_empty]
    · rw [put_own_self]
      exact Set.empty_subset _
  have hold : ∀ j l, (s.put i none r.iover).live j = some l → j ≠ i ∧ s.live j = some l := by
    intro j l hj
    rcases live_of_put hj with ⟨-, hnew⟩ | hj
    · cases hnew
    · exact hj
  have hcommit : ∀ x, r.iover.blockDesc x = if bio.changes ∧ x ∈ bio.range then
      descAfter iover bio x (s.iover.blockDesc x) else s.iover.blockDesc x := by
    intro x
    rw [hdesc]
    by_cases hzero : bio.result = 0
    · rw [if_pos hzero, committedDesc]
      simp only [hc, true_and]
      rw [← descAfter_congr h.format]
      by_cases hx : x ∈ bio.range
      · rw [if_pos hx]
        by_cases hch : bio.changes
        · exact (if_pos ⟨hch, hx⟩).symm
        · rw [if_neg fun hand => hch hand.1]
          exact descAfter_of_not_changes hzero hch
      · rw [if_neg hx, if_neg fun hand => hx hand.2]
    · rw [if_neg hzero, if_neg fun hand => hzero (changes_result hand.1)]
  refine ⟨howns, h.format.trans ⟨hcore.ns, hcore.datagen⟩, hcore.header.symm ▸ h.geometry, ?_, ?_,
    ?_, ?_, ?_, h.outside⟩
  · intro j l hj
    exact h.fits j l (hold j l hj).2
  · intro x hx
    change Admits iover x (r.iover.blockDesc x) (s.content x)
    rw [hcommit]
    by_cases hch : bio.changes ∧ x ∈ bio.range
    · rw [if_pos hch, h.applied i _ x hl rfl hch.1 hch.2 (s.content x)]
      exact .inr (.after hch.1 hch.2 hfits.written)
    · rw [if_neg hch]
      refine h.known x ?_
      intro j l hj hahead hxj
      by_cases hji : j = i
      · subst hji
        obtain rfl := Option.some.inj (hl.symm.trans hj)
        exact hch ⟨hahead.2.1, hxj⟩
      · exact hx j l (by rw [put_live, if_neg hji, hj]) hahead hxj
  · intro j l x hj hdem hx
    obtain ⟨hji, hj⟩ := hold j l hj
    change (r.iover.blockDesc x).state = _
    rw [hcommit, if_neg fun hand => hji (h.eq_of_mem hj hl hx hand.2)]
    exact h.demoted j l x hj hdem hx
  · intro j l x hj
    exact h.applied j l x (hold j l hj).2
  · intro j l hj
    exact h.reads j l (hold j l hj).2

/-- **The step lemma.** -/
theorem Inv.step (h : Inv spor3 p iover s) (hc : p.compare = true) {lab : PowerLabel ι}
    (hs : Step spor3 p s lab s') : Inv spor3 p iover s' := by
  cases hs with
  | take i bio iover' hl hover hgen hord => exact h.take hc hl hover hgen hord
  | list i bio executed iover₁ iover₂ hl hback hdemote => exact h.list hc hl hback hdemote
  | execute i before bio listed hl hex hinside hserves => exact h.execute hl hex hinside hserves
  | complete i bio job r hl hsubmit hres => exact h.complete hc hl hsubmit hres

/-- The descriptors say what the device holds, where they say anything, and it holds nothing beyond
its end. -/
structure Knows (iover : Iover) (content : ℕ → Content) : Prop where
  known : ∀ x, Admits iover x (iover.blockDesc x) (content x)
  outside : ∀ x, iover.ns.nlbs ≤ x → content x = .unwritten

omit [DecidableEq ι] in
theorem inv_init {content : ℕ → Content} (h : Knows iover content) :
    Inv spor3 p iover (init iover content : PowerRun ι) where
  owns := by
    change Owns (bits fun _ => 0) _
    rw [bits_zero]
    exact .empty fun _ => rfl
  format := ⟨rfl, rfl⟩
  geometry := .refl iover.header
  fits _ _ h := by cases h
  known x _ := h.known x
  demoted _ _ _ h := by cases h
  applied _ _ _ h := by cases h
  reads _ _ h := by cases h
  outside := h.outside

/-- The invariant holds in every state of a run. -/
theorem inv_of_run {content : ℕ → Content} (h : Knows iover content) (hc : p.compare = true)
    {ls : List (PowerLabel ι)} (hrun : Run (Step spor3 p) (init iover content) ls s) :
    Inv spor3 p iover s :=
  hrun.invariant (fun _ _ _ hi hs => hi.step hc hs) (inv_init h)

/-- Every read that the device completed with success is found good, where it is judged. -/
def ReadsGood (p : JobParams) (s : PowerRun ι) : Prop :=
  ∀ i l, s.live i = some l → l.executed = true → l.bio.opcode = .read → l.bio.result = 0 →
    Judged s.iover p l.bio → verifyBioRead s.iover p l.bio = 0 ∧
      ∀ job, ioverSubmit s.iover p job l.bio = some ⟨0, submitUnlock s.iover p l.bio, job, 0⟩

omit [DecidableEq ι] in
/-- **A read that waits for its completion**: nobody else changes its LBAs. -/
theorem Inv.readsGood (h : Inv spor3 p iover s) (hmeta : iover.ns.metaSize = 0) :
    ReadsGood p s := by
  intro i l hl hex hop hzero hjudged
  have hfits := h.fits i l hl
  have hv : ∀ lbaLock, verifyBioRead { s.iover with lbaLock := lbaLock } p l.bio = 0 := by
    intro lbaLock
    refine (verifyBioRead_eq_zero_iff hfits.noOverlap).mpr ?_
    intro o ho
    obtain ⟨block, hread, hdata⟩ := h.reads i l hl hex hop hzero o ho
    have hformat : iover.SameFormat { s.iover with lbaLock := lbaLock } :=
      ⟨h.format.ns, h.format.datagen⟩
    have hx : l.bio.slba + o ∈ l.bio.range := ⟨Nat.le_add_right _ _, Nat.add_lt_add_left ho _⟩
    have hk := h.known (l.bio.slba + o) fun j lj hj hahead hxj => by
      obtain rfl := h.eq_of_mem hl hj hx hxj
      obtain rfl := Option.some.inj (hl.symm.trans hj)
      exact absurd hahead.2.1 (by simp [Bio.changes, hop])
    rw [← blockData_congr hformat, ← h.format.ns] at hdata
    exact lbaResult_of_admits hfits.noOverlap (h.format.ns ▸ hmeta) hjudged ho (hk.congr hformat)
      hread hdata
  refine ⟨hv s.iover.lbaLock, ?_⟩
  intro job
  refine submitTail_read hop hfits.ordinary.histIdx hzero hfits.ordinary.expectedResult ?_
  rw [submitUnlock, hfits.noOverlap, if_neg Bool.false_ne_true]
  exact hv _

/-! ## Power cuts -/

/-- The process ends, with any bios in flight, and the device loses its power. The runner is at the
head of its loop, and of the commands that change LBAs the device has only writes that are demoted:
it may have made anything of these. -/
structure PowerOff (spor3 : Bool) (s : PowerRun ι) (content : ℕ → Content) : Prop where
  demoted : ∀ i l, s.live i = some l → ¬ Ahead spor3 l
  kept : ∀ x, content x = s.content x ∨ x < s.iover.ns.nlbs ∧
    ∃ i l, s.live i = some l ∧ Demoted spor3 l ∧ x ∈ l.bio.range

omit [DecidableEq ι] in
/-- **What is left of a run** after a power cut. -/
theorem Inv.powerOff (h : Inv spor3 p iover s) {content : ℕ → Content}
    (hoff : PowerOff spor3 s content) :
    (∀ x, Admits iover x (s.iover.blockDesc x) (content x)) ∧
      ∀ x, iover.ns.nlbs ≤ x → content x = .unwritten := by
  refine ⟨?_, ?_⟩
  · intro x
    rcases hoff.kept x with hsame | ⟨-, i, l, hl, hdem, hx⟩
    · rw [hsame]
      exact h.known x fun i l hl hahead => absurd hahead (hoff.demoted i l hl)
    · exact .inl (h.demoted i l x hl hdem hx)
  · intro x hx
    rcases hoff.kept x with hsame | ⟨hlt, -⟩
    · rw [hsame]
      exact h.outside x hx
    · rw [h.format.ns] at hlt
      omega

end PowerRun

/-- A process on the namespace, of one job, which ends when its bios are done or with a power
cut. -/
inductive PowerSession (backend : Backend) (ns : NamespaceInfo) (masks : ℕ → Buf) (d : Disk) :
    Disk → Prop
  | mk (ι : Type) [DecidableEq ι] (env env' : Env) (v w : JournaledIover) (spor3 : Bool)
    (p : JobParams) (ls : List (PowerLabel ι)) (s : PowerRun ι) (content : ℕ → Content)
    (hostWrites : Fin 16 → Byte) :
    Begins backend ns masks env d → ioverInit backend ns env d.store = .ok v →
    p.compare = true → Run (PowerRun.Step spor3 p) (.init v.iover d.content) ls s →
    PowerRun.PowerOff spor3 s content → w.iover = s.iover →
    (w.footer = if backend = .shm then v.footer else { v.footer with hostWrites := hostWrites }) →
    PowerSession backend ns masks d
      ⟨some (ioverExit backend env' w (openJournal backend ns env d.store)), content⟩

/-- The journal is one of the namespace and knows what the device holds. -/
structure Disk.Known (ns : NamespaceInfo) (masks : ℕ → Buf) (d : Disk) : Prop where
  blank : d.store = none → ∀ x, d.content x = .unwritten
  accepted : ∀ store, d.store = some store → ((journalLayout ns).read store).Accepted
  knows : ∀ store, d.store = some store →
    PowerRun.Knows (((journalLayout ns).read store).iover masks) d.content

section Disk

variable {backend : Backend} {ns : NamespaceInfo} {masks : ℕ → Buf} {d d' : Disk} {env : Env}

/-- What `iover_init` finds after a power cut. -/
theorem Disk.Known.open (h : d.Known ns masks) (hb : Begins backend ns masks env d) :
    ∃ v, ioverInit backend ns env d.store = .ok v ∧ v.iover.ns = ns ∧
      v.iover.datagen = initDatagen ns masks ∧ PowerRun.Knows v.iover d.content := by
  obtain ⟨v, hv, hns, hdatagen, hnone, hsome⟩ := hb.exists_init h.accepted
  refine ⟨v, hv, hns, hdatagen, ?_⟩
  cases hstore : d.store with
  | none => exact ⟨fun x => .inl (hnone hstore x), fun x _ => h.blank hstore x⟩
  | some store =>
    rw [hsome store hstore]
    exact h.knows store hstore

/-- **A process keeps the disk known**, however it ends. -/
theorem PowerSession.known (h : d.Known ns masks) (hs : PowerSession backend ns masks d d') :
    d'.Known ns masks := by
  cases hs with
  | mk ι env env' v w spor3 p ls s content hostWrites hb hinit hc hrun hoff hiover hfooter =>
    obtain ⟨v', hv', hns, hdatagen, hknows⟩ := h.open hb
    obtain rfl := Except.ok.inj (hinit.symm.trans hv')
    have hinv := PowerRun.inv_of_run hknows hc hrun
    have hformat : v.iover.SameFormat w.iover := hiover ▸ hinv.format
    obtain ⟨hknown, houtside⟩ := hinv.powerOff hoff
    have hkept : ∀ x, Admits w.iover x (w.iover.blockDesc x) (content x) := by
      intro x
      rw [hiover]
      exact (hknown x).congr hinv.format
    obtain rfl : w.iover.ns = ns := hformat.ns.trans hns
    obtain ⟨haccepted, hsame, hblock⟩ := ioverExit_spec backend env' w
      (openJournal backend w.iover.ns env d.store) (hformat.datagen.trans hdatagen) rfl
    have hbeyond : ∀ x, w.iover.ns.nlbs ≤ x → content x = .unwritten := by
      intro x hx
      refine houtside x ?_
      rw [hns]
      exact hx
    refine ⟨fun hnone => absurd hnone (Option.some_ne_none _), ?_, ?_⟩
    · intro b hstore
      obtain rfl := Option.some.inj hstore
      exact haccepted
    · intro b hstore
      obtain rfl := Option.some.inj hstore
      refine ⟨?_, hbeyond⟩
      intro x
      change Admits _ x _ (content x)
      rw [hblock]
      split
      · exact (hkept x).congr hsame
      · exact .inl rfl

/-- **The journal knows what the device holds** whenever no process runs. -/
theorem known_of_sessions (hruns : Relation.ReflTransGen (PowerSession backend ns masks) .blank d) :
    d.Known ns masks := by
  induction hruns with
  | refl =>
    exact ⟨fun _ _ => rfl, fun _ h => absurd h.symm (Option.some_ne_none _),
      fun _ h => absurd h.symm (Option.some_ne_none _)⟩
  | tail _ hs ih => exact hs.known ih

/-- **No false alarm from power cut to power cut.** After any number of processes on a device that
began blank, each of which ended when its bios were done or with a power cut at `spor_level` 3, the
next process finds its journal accepted; its descriptors say what the device holds, or are in state
unwritten; and in every run of its job, of any `spor_level`, the reads are found good. It may end
with a power cut itself. -/
theorem no_false_alarm_power_cuts (hmeta : ns.metaSize = 0)
    (hruns : Relation.ReflTransGen (PowerSession backend ns masks) .blank d)
    (hb : Begins backend ns masks env d) :
    ∃ v, ioverInit backend ns env d.store = .ok v ∧ PowerRun.Knows v.iover d.content ∧
      ∀ (ι : Type) [DecidableEq ι] (spor3 : Bool) (p : JobParams) (ls : List (PowerLabel ι))
        (s : PowerRun ι), p.compare = true →
        Run (PowerRun.Step spor3 p) (.init v.iover d.content) ls s →
        PowerRun.ReadsGood p s ∧ ∀ content, PowerRun.PowerOff spor3 s content → ∃ store,
          PowerSession backend ns masks d ⟨some store, content⟩ := by
  obtain ⟨v, hv, hns, hdatagen, hknows⟩ := (known_of_sessions hruns).open hb
  refine ⟨v, hv, hknows, ?_⟩
  intro ι _ spor3 p ls s hc hrun
  have hinv := PowerRun.inv_of_run hknows hc hrun
  refine ⟨hinv.readsGood (hns ▸ hmeta), ?_⟩
  intro content hoff
  obtain ⟨w, hiover, hfooter⟩ := exists_journaled backend hinv.format hinv.geometry fun _ => 0
  exact ⟨_, .mk ι env env v w spor3 p ls s content _ hb hv hc hrun hoff hiover hfooter⟩

/-- A process that writes LBA 0 on a new segment of shared memory, and cuts the power when the write
is in flight: it tears the block. -/
theorem torn_session : ∃ (env : Env) (d : Disk), env.masks = (fun _ _ => 0) ∧
    d.content 0 = .data (fun _ => 0xFF) ∧
    PowerSession .shm (.plain 8 0 eight_lbas_lt no_entry_lt) (fun _ _ => 0) .blank d ∧
      d.store ≠ none := by
  let ns : NamespaceInfo := .plain 8 0 eight_lbas_lt no_entry_lt
  let env : Env := ⟨fun _ _ => 0, fun _ => 0, fun _ => 0, ⟨fun _ n => n, fun _ _ h => h,
    fun _ _ => le_rfl⟩⟩
  have hrefl : Relation.ReflTransGen (PowerSession .shm ns fun _ _ => 0) .blank .blank := .refl
  have hb : Begins .shm ns (fun _ _ => 0) env .blank := ⟨rfl, fun _ h => absurd rfl h⟩
  obtain ⟨v, hv, hns, -, hknows⟩ := (known_of_sessions hrefl).open hb
  -- the write is generated as for the jobs of a namespace
  let start : Ns Unit := .init v.iover
  obtain ⟨write, s₁, s₂, s₃, s₄, hw⟩ := Ns.exists_writeCycle (s := start) (i := ()) rfl
    (show (tryLockLbas (fun _ => 0) 0 1).1 = 0 by decide)
  obtain ⟨iover₁, hgen⟩ : ∃ iover₁, Generates start.iover .plain iover₁ write := by
    cases hw.issue with
    | issue _ _ _ iover₁ _ _ hgen => exact ⟨iover₁, hgen⟩
  have hord : write.Ordinary := ⟨by rw [hw.opcode]; decide, hw.histIdx, hw.expectedResult⟩
  obtain ⟨iover₂, hdemote⟩ := exists_demoteWrite (hgen.holds hw.opcode rfl) true .plain
  have hformat : iover₂.ns = ns := by
    obtain ⟨bd, rfl, -⟩ := demoteWrite_spec hdemote
    obtain ⟨-, hsame, -⟩ := hgen.spec
    exact hsame.ns.trans hns
  let content : ℕ → Content := fun x => if x = 0 then .data fun _ => 0xFF else .unwritten
  obtain ⟨ls, s, hrun, hoff⟩ : ∃ (ls : List (PowerLabel Unit)) (s : PowerRun Unit),
      Run (PowerRun.Step true .plain) (.init v.iover Disk.blank.content) ls s ∧
        PowerRun.PowerOff true s content := by
    refine ⟨_, _, .cons (.take () write iover₁ rfl rfl hgen hord) <|
      .cons (.list () write false iover₁ iover₂ rfl rfl hdemote) <| .nil _, ?_, ?_⟩
    · intro _ l hl hahead
      obtain rfl := Option.some.inj (show some _ = some l from hl)
      exact Bool.false_ne_true hahead.1
    · intro x
      by_cases hx : x = 0
      · refine .inr ⟨?_, (), ⟨write, true, false⟩, rfl, ⟨rfl, rfl, hw.opcode⟩, ?_⟩
        · rw [hx]
          change 0 < iover₂.ns.nlbs
          rw [hformat]
          decide
        · rw [hw.range]
          exact hx
      · exact .inl (if_neg hx)
  have hinv := PowerRun.inv_of_run hknows rfl hrun
  obtain ⟨w, hiover, hfooter⟩ := exists_journaled .shm hinv.format hinv.geometry fun _ => 0
  exact ⟨env, _, rfl, rfl, .mk Unit env env v w true .plain ls s content _ hb hv rfl hrun hoff
    hiover hfooter, Option.some_ne_none _⟩

/-- The next process takes LBA 0 for unwritten, though the device holds something there. -/
theorem no_false_alarm_torn : ∃ (env : Env) (d : Disk) (v : JournaledIover),
    Relation.ReflTransGen (PowerSession .shm (.plain 8 0 eight_lbas_lt no_entry_lt) fun _ _ => 0)
      .blank d ∧ d.content 0 = .data (fun _ => 0xFF) ∧
    ioverInit .shm (.plain 8 0 eight_lbas_lt no_entry_lt) env d.store = .ok v ∧
      (v.iover.blockDesc 0).state = .unwritten := by
  obtain ⟨env, d, hmasks, hcontent, hs, hstore⟩ := torn_session
  obtain ⟨v, hv, hknows, -⟩ := no_false_alarm_power_cuts rfl (.single hs)
    ⟨hmasks, fun hnone => absurd hnone hstore⟩
  refine ⟨env, d, v, .single hs, hcontent, hv, ?_⟩
  rcases hknows.known 0 with hstate | hd
  · exact hstate
  · -- the block has no header
    rw [hcontent] at hd
    obtain ⟨-, t, p, hp, -, -, hdata⟩ := hd
    have hpos := v.iover.ns.le_dataSize
    have hfirst := hdata 0 (by omega)
    rw [(hasHeader_setData (fun _ => 0)).pattern] at hfirst
    have hle := v.iover.datagen.npatterns_le
    rw [← show 0xFF = p from hfirst] at hp
    exact absurd (hp.trans_le hle) (by decide)

end Disk

end ChamberSpo

import ChamberSpo.Journal
import ChamberSpo.SharedDevice

/-!
# A namespace from process to process

A process opens the journal of a namespace, runs its jobs against the device, and leaves the journal
behind when the last bio is done; the next process begins with that journal, and with the device as
it is by then.

* `Ns.Step.header` — a run changes nothing of the journal header but `hist_idx`, so the journal is
  accepted again.
* `Session` — a process. `Disk.Consistent` — the journal says what the device holds.
* `Disk.Consistent.open` and `Disk.Consistent.close` — what `iover_init` finds, and what
  `iover_exit` leaves behind.
-/

namespace ChamberSpo

/-! ## What a run does to the journal header -/

/-- Two headers that differ in `hist_idx` only. -/
def JournalHeader.SameGeometry (a b : JournalHeader) : Prop := b = { a with histIdx := b.histIdx }

theorem JournalHeader.SameGeometry.refl (a : JournalHeader) : a.SameGeometry a := rfl

theorem JournalHeader.SameGeometry.trans {a b c : JournalHeader} (h : a.SameGeometry b)
    (h' : b.SameGeometry c) : a.SameGeometry c := by
  rw [SameGeometry, h] at h'
  exact h'

theorem histAppendLbas_header (iover : Iover) (bio : Bio) (state : BlockState) :
    iover.header.SameGeometry (histAppendLbas iover bio state).header := by
  have hloop : ∀ (l : List ℕ) (a : Iover), a.header.SameGeometry (l.foldl (fun iover o =>
      histAppend iover (bio.slba + o) fun d => { d with state := state }) a).header := by
    intro l
    induction l with
    | nil => exact fun a => .refl a.header
    | cons o l ih =>
      intro a
      have hstep : a.header.SameGeometry
        (histAppend a (bio.slba + o) fun d => { d with state := state }).header := rfl
      exact hstep.trans (ih _)
  exact hloop _ iover

/-- `backup_hist_state` moves `hist_idx` on, and nothing else of the header. -/
theorem backupHistState_header {iover iover' : Iover} {params : JobParams} {bio : Bio}
    (h : backupHistState iover params bio = some iover') :
    iover.header.SameGeometry iover'.header := by
  have hloop : ∀ (l : List ℕ) (a : Iover), l.foldlM (fun (a : Iover) o => do
      let info ← datagenGetHeader a.datagen (blockData a bio o)
      return histAppend a (bio.slba + o) (writtenDesc .data info)) a = some iover' →
      a.header.SameGeometry iover'.header := by
    intro l
    induction l with
    | nil =>
      intro a ha
      obtain rfl := Option.some.inj ha
      exact .refl a.header
    | cons o l ih =>
      intro a ha
      simp only [List.foldlM_cons, Option.bind_eq_bind, Option.bind_eq_some_iff, Option.pure_def,
        Option.some.injEq] at ha
      obtain ⟨b, ⟨info, -, rfl⟩, hb⟩ := ha
      have hstep : a.header.SameGeometry
        (histAppend a (bio.slba + o) (writtenDesc .data info)).header := rfl
      exact hstep.trans (ih _ hb)
  simp only [backupHistState] at h
  split at h
  · obtain rfl := Option.some.inj h
    exact .refl iover.header
  · split at h
    · exact hloop _ iover h
    all_goals
      obtain rfl := Option.some.inj h
      first | exact .refl iover.header | exact histAppendLbas_header ..

theorem Generates.header {iover iover' : Iover} {params : JobParams} {bio : Bio}
    (h : Generates iover params iover' bio) : iover'.header = iover.header := by
  by_cases hop : bio.opcode = .flush
  · rw [(h.flush hop).2]
  · obtain ⟨before, escape, lbaLock', -, -, -, hiover, -⟩ := h.filled hop
    rw [hiover]
    split <;> rfl

/-- **No step changes more of the header than `hist_idx`.** -/
theorem Ns.Step.header {ι : Type*} [DecidableEq ι] {s s' : Ns ι} {lab : NsLabel ι}
    (h : s.Step lab s') : s.iover.header.SameGeometry s'.iover.header := by
  cases h with
  | issue i params bio iover hl hover hgen =>
    have hsame : iover.header = s.iover.header := hgen.header
    exact hsame ▸ .refl s.iover.header
  | backup i l iover hl hback => exact backupHistState_header hback
  | demote i l iover hl hop hcommit =>
    obtain ⟨bd, rfl, -⟩ := commitBlockStateUnwritten_spec hcommit
    exact .refl s.iover.header
  | execute i params bio bio' hl hex => exact .refl s.iover.header
  | drop i params bio hl => exact .refl s.iover.header
  | unlock i params bio t hl hop =>
    have hsame : (submitUnlock s.iover params bio).header = s.iover.header := by
      simp only [submitUnlock]
      split <;> rfl
    exact hsame ▸ .refl s.iover.header
  | finish i params bio t job r hl htail hres =>
    have hsame : r.iover.header = s.iover.header := (submitTail_sameCore htail).header
    exact hsame ▸ .refl s.iover.header
  | retire i params bio t hl hop => exact .refl s.iover.header

namespace Shared

/-- The header at the end of a run. -/
theorem header_of_run {ι : Type*} [DecidableEq ι] {iover : Iover} {content : ℕ → Content}
    {s : RefSystem ι} {ls : List (NsLabel ι)}
    (hrun : Run (guarded Step Orderly) (init iover content) ls s) :
    iover.header.SameGeometry s.ns.iover.header := by
  refine hrun.invariant (I := fun s => iover.header.SameGeometry s.ns.iover.header) ?_
    (.refl iover.header)
  rintro s lab s' h ⟨-, hs⟩
  exact h.trans hs.ns_step.header

end Shared

/-! ## Processes -/

/-- What outlives a process: the file or the segment of the journal, once it is there, and what the
device holds. -/
structure Disk where
  store : Option Buf
  content : ℕ → Content

/-- A device nothing was written to, without a journal. -/
def Disk.blank : Disk := ⟨none, fun _ => .unwritten⟩

/-- A process can begin on the disk. A file is made of what `malloc` returns, and its descriptors
are those of unwritten LBAs when that is memory of zero bytes. -/
structure Begins (backend : Backend) (ns : NamespaceInfo) (masks : ℕ → Buf) (env : Env) (d : Disk) :
    Prop where
  masks : env.masks = masks
  heap : d.store = none → backend ≠ .shm → ∀ i < 4 * ns.nlbs, env.heap (i % 2 ^ 20) = 0

/-- What the verifier `w` is before `iover_exit`: what the jobs made of it, and a footer in which
`iover_set_host_writes` has put the smart log's counter, when the journal is a file. -/
structure Leaves {ι : Type*} (backend : Backend) (v : JournaledIover) (s : RefSystem ι)
    (hostWrites : Fin 16 → Byte) (w : JournaledIover) : Prop where
  idle : ∀ i, s.ns.live i = none
  iover : w.iover = s.ns.iover
  footer : w.footer = if backend = .shm then v.footer else { v.footer with hostWrites := hostWrites }

/-- A process on the namespace, whose jobs have the bios `ι`. -/
inductive Session (backend : Backend) (ns : NamespaceInfo) (masks : ℕ → Buf) (d : Disk) :
    Disk → Prop
  | mk (ι : Type) [DecidableEq ι] (env env' : Env) (v w : JournaledIover) (ls : List (NsLabel ι))
    (s : RefSystem ι) (hostWrites : Fin 16 → Byte) :
    Begins backend ns masks env d → ioverInit backend ns env d.store = .ok v →
    Run (guarded Shared.Step Shared.Orderly) (Shared.init v.iover d.content) ls s →
    Leaves backend v s hostWrites w →
    Session backend ns masks d
      ⟨some (ioverExit backend env' w (openJournal backend ns env d.store)), s.content⟩

/-- The journal is one of the namespace and says what the device holds. -/
structure Disk.Consistent (ns : NamespaceInfo) (masks : ℕ → Buf) (d : Disk) : Prop where
  blank : d.store = none → ∀ x, d.content x = .unwritten
  accepted : ∀ store, d.store = some store → ((journalLayout ns).read store).Accepted
  consistent : ∀ store, d.store = some store →
    Shared.Consistent (((journalLayout ns).read store).iover masks) d.content

section Disk

variable {backend : Backend} {ns : NamespaceInfo} {masks : ℕ → Buf} {d : Disk} {env : Env}

/-- A file that is made of zero bytes has unwritten LBAs only. -/
theorem createJournalFile_blockDesc {buf : Buf} (h : ∀ i < 4 * ns.nlbs, buf (i % 2 ^ 20) = 0) :
    ((journalLayout ns).read (createJournalFile ns buf).bytes).blockDesc = fun _ => .zero := by
  obtain ⟨-, -, hbytes, -⟩ := createJournalFile_spec ns buf
  rw [journalLayout_read]
  refine (Layout.array_read_const ns.nlbs blockDescLayout_write_zero).mpr ?_
  intro i hi
  have hfile : i < fileByte ns := by
    have hi' : i < 4 * ns.nlbs := hi
    rw [fileByte, show blockDescLayout.size = 4 from rfl]
    omega
  rw [Buf.shift_apply, hbytes i hfile]
  exact h i hi

theorem createJournalFile_accepted (ns : NamespaceInfo) (buf : Buf) :
    ((journalLayout ns).read (createJournalFile ns buf).bytes).Accepted := by
  obtain ⟨-, hheader, -, hfooter⟩ := createJournalFile_spec ns buf
  rw [journalLayout_read, hheader, hfooter]
  exact accepted_create .zero _ _

/-- The journal that a process makes when it finds none. -/
theorem openJournal_none {content : ℕ → Content}
    (hb : Begins backend ns masks env ⟨none, content⟩) :
    ((journalLayout ns).read (openJournal backend ns env none)).Accepted ∧
      ((journalLayout ns).read (openJournal backend ns env none)).blockDesc = fun _ => .zero := by
  cases backend with
  | shm =>
    rw [openJournal, createJournalShm_read]
    exact ⟨accepted_create _ _ _, rfl⟩
  | mmap =>
    exact ⟨createJournalFile_accepted ns env.heap,
      createJournalFile_blockDesc (hb.heap rfl (by decide))⟩
  | file =>
    exact ⟨createJournalFile_accepted ns env.heap,
      createJournalFile_blockDesc (hb.heap rfl (by decide))⟩

/-- `iover_init` makes a journal when it finds none, and takes over one that is accepted. -/
theorem Begins.exists_init (hb : Begins backend ns masks env d)
    (haccepted : ∀ store, d.store = some store → ((journalLayout ns).read store).Accepted) :
    ∃ v, ioverInit backend ns env d.store = .ok v ∧ v.iover.ns = ns ∧
      v.iover.datagen = initDatagen ns masks ∧
      (d.store = none → ∀ x, (v.iover.blockDesc x).state = .unwritten) ∧
      ∀ store, d.store = some store → v.iover = ((journalLayout ns).read store).iover masks := by
  obtain ⟨store, content⟩ := d
  cases store with
  | none =>
    obtain ⟨haccepted', hdesc⟩ := openJournal_none hb
    obtain ⟨v, hv, hiover, -⟩ := ioverInit_of_read backend env haccepted' rfl
    refine ⟨v, hv, by rw [hiover]; rfl, by rw [hiover, hb.masks]; rfl, ?_,
      fun _ h => absurd h.symm (Option.some_ne_none _)⟩
    intro _ x
    rw [hiover]
    simp only [Journal.iover, Iover.init, hdesc]
    split <;> rfl
  | some store =>
    obtain ⟨v, hv, hiover, -⟩ := ioverInit_of_read backend env (haccepted store rfl) rfl
    refine ⟨v, hv, by rw [hiover]; rfl, by rw [hiover, hb.masks]; rfl,
      fun h => absurd h (Option.some_ne_none _), ?_⟩
    intro store' hstore
    obtain rfl := Option.some.inj hstore
    rw [hiover, hb.masks]

/-- **What `iover_init` finds**: the journal is accepted, and the verifier laid over it says what the
device holds. -/
theorem Disk.Consistent.open (h : d.Consistent ns masks) (hb : Begins backend ns masks env d) :
    ∃ v, ioverInit backend ns env d.store = .ok v ∧ v.iover.ns = ns ∧
      v.iover.datagen = initDatagen ns masks ∧ Shared.Consistent v.iover d.content := by
  obtain ⟨v, hv, hns, hdatagen, hnone, hsome⟩ := hb.exists_init h.accepted
  refine ⟨v, hv, hns, hdatagen, ?_⟩
  cases hstore : d.store with
  | none =>
    have hblank := h.blank hstore
    refine ⟨?_, fun x _ => hblank x⟩
    intro x
    rw [hblank x]
    exact hnone hstore x
  | some store =>
    rw [hsome store hstore]
    exact h.consistent store hstore

/-- What the next process reads of the journal that `iover_exit` leaves behind. -/
theorem ioverExit_spec (backend : Backend) (env' : Env) (w : JournaledIover) (store : Buf)
    (hdatagen : w.iover.datagen = initDatagen w.iover.ns masks) {j : Journal w.iover.ns}
    (hj : (journalLayout w.iover.ns).read (ioverExit backend env' w store) = j) :
    j.Accepted ∧ w.iover.SameFormat (j.iover masks) ∧
      ∀ x, (j.iover masks).blockDesc x
        = if x < w.iover.ns.nlbs then w.iover.blockDesc x else .zero := by
  rw [read_ioverExit] at hj
  obtain rfl := hj
  refine ⟨⟨w.accepted.magic, w.accepted.dataSizeShift, w.accepted.nlbs, w.accepted.nhist,
    w.accepted.footer⟩, ⟨rfl, hdatagen.symm⟩, ?_⟩
  intro x
  by_cases hx : x < w.iover.ns.nlbs
  · rw [if_pos hx]
    exact dif_pos hx
  · rw [if_neg hx]
    exact dif_neg hx

/-- **What `iover_exit` leaves behind** when the last bio is done. -/
theorem Disk.Consistent.close {v w : JournaledIover} {ι : Type} [DecidableEq ι] {s : RefSystem ι}
    {ls : List (NsLabel ι)} {hostWrites : Fin 16 → Byte} {env' : Env} {store : Buf}
    (hns : v.iover.ns = ns) (hdatagen : v.iover.datagen = initDatagen ns masks)
    (hcons : Shared.Consistent v.iover d.content)
    (hrun : Run (guarded Shared.Step Shared.Orderly) (Shared.init v.iover d.content) ls s)
    (hleaves : Leaves backend v s hostWrites w) :
    Disk.Consistent ns masks ⟨some (ioverExit backend env' w store), s.content⟩ := by
  have hinv := Shared.inv_of_run hcons hrun
  have hformat : v.iover.SameFormat w.iover := hleaves.iover ▸ hinv.format
  have hdesc : ∀ x, Describes w.iover x (w.iover.blockDesc x) (s.content x) := by
    intro x
    rw [hleaves.iover]
    refine (hinv.blockDesc ?_).congr hinv.format
    intro i l hl
    rw [hleaves.idle i] at hl
    cases hl
  -- from here on the namespace is the one of `w`
  obtain rfl : w.iover.ns = ns := hformat.ns.trans hns
  obtain ⟨haccepted, hsame, hblock⟩ :=
    ioverExit_spec backend env' w store (hformat.datagen.trans hdatagen) rfl
  have houtside : ∀ x, w.iover.ns.nlbs ≤ x → s.content x = .unwritten := by
    intro x hx
    refine hinv.outside x ?_
    rw [hns]
    exact hx
  refine ⟨fun hnone => absurd hnone (Option.some_ne_none _), ?_, ?_⟩
  · intro b hb
    obtain rfl := Option.some.inj hb
    exact haccepted
  · intro b hb
    obtain rfl := Option.some.inj hb
    refine ⟨?_, houtside⟩
    intro x
    change Describes _ x _ (s.content x)
    rw [hblock]
    split
    · exact (hdesc x).congr hsame
    · rw [houtside x (by omega)]
      rfl

/-- A process keeps the disk consistent. -/
theorem Session.consistent {d' : Disk} (h : d.Consistent ns masks)
    (hs : Session backend ns masks d d') : d'.Consistent ns masks := by
  cases hs with
  | mk ι env env' v w ls s hostWrites hb hinit hrun hleaves =>
    obtain ⟨v', hv', hns, hdatagen, hcons⟩ := h.open hb
    obtain rfl := Except.ok.inj (hinit.symm.trans hv')
    exact Disk.Consistent.close hns hdatagen hcons hrun hleaves

/-- **The journal and the device agree** whenever no process runs. -/
theorem consistent_of_sessions
    (hruns : Relation.ReflTransGen (Session backend ns masks) .blank d) :
    d.Consistent ns masks := by
  induction hruns with
  | refl =>
    exact ⟨fun _ _ => rfl, fun _ h => absurd h.symm (Option.some_ne_none _),
      fun _ h => absurd h.symm (Option.some_ne_none _)⟩
  | tail _ hs ih => exact hs.consistent ih

/-- A verifier whose journal is still one of its namespace can leave it behind. -/
theorem exists_journaled (backend : Backend) {v : JournaledIover} {iover : Iover}
    (hformat : v.iover.SameFormat iover)
    (hheader : v.iover.header.SameGeometry iover.header) (hostWrites : Fin 16 → Byte) :
    ∃ w : JournaledIover, w.iover = iover ∧
      w.footer = if backend = .shm then v.footer else { v.footer with hostWrites := hostWrites } := by
  refine ⟨⟨iover, if backend = .shm then v.footer else { v.footer with
    hostWrites := hostWrites }, ?_⟩, rfl, rfl⟩
  have haccepted := v.accepted
  obtain ⟨k, hheader⟩ : ∃ k, iover.header = { v.iover.header with histIdx := k } := ⟨_, hheader⟩
  refine ⟨?_, ?_, ?_, ?_, ?_⟩
  · simp only [Iover.journal, hheader]
    exact haccepted.magic
  · simp only [Iover.journal, hheader, hformat.ns]
    exact haccepted.dataSizeShift
  · simp only [Iover.journal, hheader, hformat.ns]
    exact haccepted.nlbs
  · simp only [Iover.journal, hheader, hformat.ns]
    exact haccepted.nhist
  · simp only [Iover.journal]
    split <;> exact haccepted.footer

/-- The verifier can always leave its journal behind: the run has kept it one of the namespace. -/
theorem exists_leaves {ι : Type} [DecidableEq ι] {v : JournaledIover} {s : RefSystem ι}
    {ls : List (NsLabel ι)} {content : ℕ → Content}
    (hformat : v.iover.SameFormat s.ns.iover)
    (hrun : Run (guarded Shared.Step Shared.Orderly) (Shared.init v.iover content) ls s)
    (hidle : ∀ i, s.ns.live i = none) (hostWrites : Fin 16 → Byte) :
    ∃ w, Leaves backend v s hostWrites w := by
  obtain ⟨w, hiover, hfooter⟩ :=
    exists_journaled backend hformat (Shared.header_of_run hrun) hostWrites
  exact ⟨w, hidle, hiover, hfooter⟩

/-- **No false alarm from process to process**, on a namespace without metadata. After any number of
processes on a device that began blank, each of which had any number of jobs, in an orderly run, and
whatever their reads returned, the next process finds its journal accepted and in agreement with what
the device is to hold. If the device is honest, the settled reads are found good in every orderly run
of its jobs; and in any case, when the last bio is done it can leave the journal behind for the
process after it. -/
theorem no_false_alarm_sessions (hmeta : ns.metaSize = 0)
    (hruns : Relation.ReflTransGen (Session backend ns masks) .blank d)
    (hb : Begins backend ns masks env d) :
    ∃ v, ioverInit backend ns env d.store = .ok v ∧ Shared.Consistent v.iover d.content ∧
      ∀ (ι : Type) [DecidableEq ι] (ls : List (NsLabel ι)) (s : RefSystem ι),
        (Run (guarded Shared.Step Shared.Honest) (Shared.init v.iover d.content) ls s →
          Shared.ReadsGood s.ns) ∧
        (Run (guarded Shared.Step Shared.Orderly) (Shared.init v.iover d.content) ls s →
          (∀ i, s.ns.live i = none) → ∀ hostWrites, ∃ w,
            Leaves backend v s hostWrites w ∧ ∀ env', Session backend ns masks d
              ⟨some (ioverExit backend env' w (openJournal backend ns env d.store)),
                s.content⟩) := by
  obtain ⟨v, hv, hns, hdatagen, hc⟩ := (consistent_of_sessions hruns).open hb
  refine ⟨v, hv, hc, ?_⟩
  intro ι _ ls s
  refine ⟨?_, ?_⟩
  · intro hrun
    exact Shared.readsGood_of_run (hns ▸ hmeta) hc hrun
  · intro hrun hidle hostWrites
    obtain ⟨w, hw⟩ := exists_leaves (Shared.inv_of_run hc hrun).format hrun hidle hostWrites
    exact ⟨w, hw, fun env' => .mk ι env env' v w ls s hostWrites hb hv hrun hw⟩

/-- A process that writes zeroes to LBA 0, on a new segment of shared memory. -/
theorem zeroes_session : ∃ (env : Env) (d : Disk), env.masks = (fun _ _ => 0) ∧
    d.content 0 = .zeroes ∧
    Session .shm (.plain 8 0 eight_lbas_lt no_entry_lt) (fun _ _ => 0) .blank d ∧
      d.store ≠ none := by
  let ns : NamespaceInfo := .plain 8 0 eight_lbas_lt no_entry_lt
  let env : Env := ⟨fun _ _ => 0, fun _ => 0, fun _ => 0, ⟨fun _ n => n, fun _ _ h => h,
    fun _ _ => le_rfl⟩⟩
  have hrefl : Relation.ReflTransGen (Session .shm ns fun _ _ => 0) .blank .blank := .refl
  have hb : Begins .shm ns (fun _ _ => 0) env .blank := ⟨rfl, fun _ h => absurd rfl h⟩
  obtain ⟨v, hv, hns, -, hcons⟩ := (consistent_of_sessions hrefl).open hb
  let zeroes : Bio := .plain .writeZeroes 0 1 fun _ => 0
  have hgen : Generates { v.iover with lbaLock := fun _ => 0 } .plain
      { v.iover with lbaLock := (tryLockLbas (fun _ => 0) 0 1).2 } zeroes :=
    generates_of_free zeroes (by decide) (by decide) (by decide) (by decide)
      (show v.iover.ns.piType = 0 by rw [hns]; rfl)
      (show (tryLockLbas (fun _ => 0) 0 1).1 = 0 by decide)
  obtain ⟨ls, s, hrun, hidle, hcontent⟩ : ∃ (ls : List (NsLabel Unit)) (s : RefSystem Unit),
      Run (guarded Shared.Step Shared.Orderly) (Shared.init v.iover Disk.blank.content) ls s ∧
        (∀ i, s.ns.live i = none) ∧ s.content 0 = .zeroes := by
    refine ⟨_, _, .cons ⟨?_, .verifier (.issue () .plain zeroes) _ nofun
        (.issue () .plain zeroes _ rfl rfl hgen)⟩ <|
      .cons ⟨?_, .execute () .plain zeroes zeroes rfl (.refl _) fun _ => ?_⟩ <|
      .cons ⟨?_, .verifier (.unlock ()) _ nofun
        (.unlock () .plain zeroes 1 rfl (by decide))⟩ <|
      .cons ⟨?_, .verifier (.finish ()) _ nofun
        (.finish () .plain zeroes 1 ⟨fun _ => 0, false, 0⟩ _ rfl rfl rfl)⟩ <| .nil _,
      fun _ => rfl, rfl⟩
    · trivial
    · intro _ l hl
      obtain rfl := Option.some.inj (show some _ = some l from hl)
      rfl
    · exact (show 0 + 1 ≤ v.iover.ns.nlbs by rw [hns]; decide)
    · intro l hl htake
      obtain rfl := Option.some.inj (show some _ = some l from hl)
      exact absurd (show takesLock .plain zeroes = false from htake) (by decide)
    · intro l t hl ht
      obtain rfl := Option.some.inj (show some _ = some l from hl)
      obtain rfl := BioPhase.unlocked.inj ht
      refine ⟨nofun, ?_⟩
      intro _ j lj tj hj htj hlt _
      obtain rfl := Option.some.inj (show some _ = some lj from hj)
      obtain rfl := BioPhase.unlocked.inj htj
      exact absurd hlt (lt_irrefl _)
  obtain ⟨w, hw⟩ : ∃ w, Leaves .shm v s (fun _ => 0) w :=
    exists_leaves (Shared.inv_of_run hcons hrun).format hrun hidle _
  exact ⟨env, _, rfl, hcontent, .mk Unit env env v w ls s _ hb hv hrun hw,
    Option.some_ne_none _⟩

/-- The process after it knows of the zeroes. -/
theorem no_false_alarm_after_zeroes : ∃ (env : Env) (d : Disk) (v : JournaledIover),
    Relation.ReflTransGen (Session .shm (.plain 8 0 eight_lbas_lt no_entry_lt) fun _ _ => 0)
      .blank d ∧ d.content 0 = .zeroes ∧
    ioverInit .shm (.plain 8 0 eight_lbas_lt no_entry_lt) env d.store = .ok v ∧
      (v.iover.blockDesc 0).state = .zeroes := by
  obtain ⟨env, d, hmasks, hcontent, hs, hstore⟩ := zeroes_session
  obtain ⟨v, hv, hcons, -⟩ := no_false_alarm_sessions rfl (.single hs)
    ⟨hmasks, fun hnone => absurd hnone hstore⟩
  have hd := hcons.describes 0
  rw [hcontent] at hd
  exact ⟨env, d, v, .single hs, hcontent, hv, hd⟩

end Disk

end ChamberSpo

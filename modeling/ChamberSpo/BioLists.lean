import ChamberSpo.BioPool
import ChamberSpo.LinkedList

/-!
# The lists of the bios, as pointers

`list.h` is the list of the kernel: a `struct list_head` in each element and one at the head. A job
keeps its bios on two such lists, and the engines and the displays are registered on one each.

* `listAdd`, `listAddTail`, `listDel`, `listEmpty` — the operations of `list.h`.
* `moveLists` — what a step of a job's runner does with them. It is told which bio was completed; the
  bio that is generated is the one that `list_first_entry` finds.
* `JobSystem.StepAmong` — a step of the runner among other jobs.
* `JobLists` — the two lists have the entries that the job has as sequences. `ListsKept.among` is the
  step lemma.
* `ioengineRegister`, `ioengineUnregister`, `ioengineFind` — the registered engines.
-/

namespace ChamberSpo

/-! ## `list.h` -/

section ListH

variable {α : Type*} [DecidableEq α]

/-- `INIT_LIST_HEAD` -/
def initListHead (h : Links α) (list : α) : Links α := h.selfLink list

/-- `list_add` -/
def listAdd (h : Links α) (new head : α) : Links α := h.insert new head (h.next head)

/-- `list_add_tail` -/
def listAddTail (h : Links α) (new head : α) : Links α := h.insert new (h.prev head) head

/-- `list_del`; `poison1` and `poison2` are `LIST_POISON1` and `LIST_POISON2`. -/
def listDel (poison1 poison2 : α) (h : Links α) (entry : α) : Links α :=
  let h := h.unlink (h.prev entry) (h.next entry)
  let h := { h with next := Function.update h.next entry poison1 }
  { h with prev := Function.update h.prev entry poison2 }

/-- `list_empty` -/
def listEmpty (h : Links α) (head : α) : Bool := h.next head = head

/-- The entries that `list_for_each_entry` visits in `fuel` rounds at most. -/
def listForEachEntry (fuel : ℕ) (h : Links α) (head : α) : Option (List α) :=
  Links.walk h.next head fuel (h.next head)

/-- The entries that `list_for_each_entry_reverse` visits. -/
def listForEachEntryReverse (fuel : ℕ) (h : Links α) (head : α) : Option (List α) :=
  Links.walk h.prev head fuel (h.prev head)

variable {h : Links α} {a b e : α} {xs ys zs : List α}

/-- `list_del` takes the entry out of its list. The pointers that it poisons are not of the list any
more. -/
theorem isList_listDel (poison1 poison2 : α) (hl : h.IsList a (xs ++ e :: ys)) :
    (listDel poison1 poison2 h e).IsList a (xs ++ ys) := by
  have hnot : e ∉ a :: (xs ++ ys) := by
    have hnodup : (a :: xs ++ e :: ys).Nodup := hl.nodup
    obtain ⟨-, hright, hdisj⟩ := List.nodup_append'.mp hnodup
    rw [← List.cons_append, List.mem_append]
    rintro (he | he)
    · exact hdisj he List.mem_cons_self
    · exact (List.nodup_cons.mp hright).1 he
  refine hl.unlink.congr ?_ ?_
  · intro z hz
    exact Function.update_of_ne (fun heq : z = e => hnot (heq ▸ hz)) ..
  · intro z hz
    exact Function.update_of_ne (fun heq : z = e => hnot (heq ▸ hz)) ..

/-- It leaves another list alone. -/
theorem pair_listDel (poison1 poison2 : α) (hl : h.Pair a (xs ++ e :: ys) b zs) :
    (listDel poison1 poison2 h e).Pair a (xs ++ ys) b zs := by
  have hout := hl.unlink
  have hnot : e ∉ b :: zs := hl.disjoint (by simp)
  refine ⟨isList_listDel poison1 poison2 hl.left, hout.right.congr ?_ ?_, hout.disjoint⟩
  · intro z hz
    exact Function.update_of_ne (fun heq : z = e => hnot (heq ▸ hz)) ..
  · intro z hz
    exact Function.update_of_ne (fun heq : z = e => hnot (heq ▸ hz)) ..

end ListH

/-! ## The lists of a job -/

/-- The list heads of a job, and the two addresses that no list head has. -/
inductive ListNode where
  /-- `job->list` -/
  | list
  /-- `job->bio_free` -/
  | bioFree
  /-- `job->bio_inflight` -/
  | bioInflight
  /-- `job->bio_pool[id].list` -/
  | bio (id : ℕ)
  | poison1
  | poison2
  deriving DecidableEq

/-- What `iogen_job_init` and `create_bio_pool` make of the lists of a job, and `iogen_job_reinit`
again. -/
def initLists (iodepth : ℕ) (h : Links ListNode) : Links ListNode :=
  let h := initListHead h .list
  let h := initListHead h .bioFree
  let h := initListHead h .bioInflight
  (List.range iodepth).foldl
    (fun h id => listAddTail (initListHead h (.bio id)) (.bio id) .bioFree) h

/-- `list_del`, and `list_add` to another list. -/
def listMove (h : Links ListNode) (entry head : ListNode) : Links ListNode :=
  listAdd (listDel .poison1 .poison2 h entry) entry head

/-- What the runner of a job does with the lists. -/
def moveLists (iodepth : ℕ) (h : Links ListNode) : JobLabel → Links ListNode
  | .retry _ => h
  | .submit _ _ => listMove h (h.next .bioFree) .bioInflight
  | .reject _ _ => listDel .poison1 .poison2 h (h.next .bioFree)
  | .flush _ => listMove (listMove h (h.next .bioFree) .bioInflight) (h.next .bioFree) .bioFree
  | .complete id _ => listMove h (.bio id) .bioFree
  | .reinit => initLists iodepth h

/-- The entries of a list of bios. -/
def bioNodes (ids : List ℕ) : List ListNode := ids.map .bio

/-- The lists in memory have the bios `free` and `inflight`. -/
def JobLists (h : Links ListNode) (free inflight : List ℕ) : Prop :=
  h.Pair .bioFree (bioNodes free) .bioInflight (bioNodes inflight)

theorem mem_bioNodes {ids : List ℕ} {id : ℕ} : .bio id ∈ bioNodes ids ↔ id ∈ ids := by
  rw [bioNodes, List.mem_map]
  refine ⟨?_, fun hid => ⟨id, hid, rfl⟩⟩
  rintro ⟨j, hj, heq⟩
  exact ListNode.bio.inj heq ▸ hj

theorem bioNodes_split (xs ys : List ℕ) (id : ℕ) :
    bioNodes (xs ++ id :: ys) = bioNodes xs ++ .bio id :: bioNodes ys := by
  rw [bioNodes, List.map_append, List.map_cons]
  rfl

namespace JobLists

variable {h : Links ListNode} {free inflight xs ys : List ℕ} {id : ℕ}

/-- A bio is on one list, once. -/
theorem nodup (hl : JobLists h free inflight) : (free ++ inflight).Nodup := by
  have hfree : (free.map ListNode.bio).Nodup := (List.nodup_cons.mp hl.left.nodup).2
  have hinflight : (inflight.map ListNode.bio).Nodup := (List.nodup_cons.mp hl.right.nodup).2
  refine List.nodup_append'.mpr ⟨hfree.of_map _, hinflight.of_map _, ?_⟩
  intro id hid hid'
  exact hl.disjoint (List.mem_cons_of_mem _ (mem_bioNodes.mpr hid))
    (List.mem_cons_of_mem _ (mem_bioNodes.mpr hid'))

/-- A bio that is on no list goes on that of the free ones. -/
theorem addFree (hl : JobLists h free inflight) (hid : id ∉ free ++ inflight) :
    JobLists (listAdd h (.bio id) .bioFree) (id :: free) inflight := by
  obtain ⟨hfree, hinflight⟩ := not_or.mp (mt List.mem_append.mpr hid)
  refine Links.Pair.insert_first hl ?_ ?_
  · rintro (_ | ⟨_, hmem⟩)
    exact hfree (mem_bioNodes.mp hmem)
  · rintro (_ | ⟨_, hmem⟩)
    exact hinflight (mem_bioNodes.mp hmem)

/-- It goes on that of those in flight. -/
theorem addInflight (hl : JobLists h free inflight) (hid : id ∉ free ++ inflight) :
    JobLists (listAdd h (.bio id) .bioInflight) free (id :: inflight) := by
  obtain ⟨hfree, hinflight⟩ := not_or.mp (mt List.mem_append.mpr hid)
  refine (Links.Pair.insert_first (Links.Pair.symm hl) ?_ ?_).symm
  · rintro (_ | ⟨_, hmem⟩)
    exact hinflight (mem_bioNodes.mp hmem)
  · rintro (_ | ⟨_, hmem⟩)
    exact hfree (mem_bioNodes.mp hmem)

/-- The first free bio is taken. -/
theorem take (hl : JobLists h (id :: free) inflight) :
    JobLists (listDel .poison1 .poison2 h (.bio id)) free inflight := by
  have hsplit : h.Pair .bioFree ([] ++ .bio id :: bioNodes free) .bioInflight
    (bioNodes inflight) := hl
  exact pair_listDel _ _ hsplit

/-- It is put in flight. -/
theorem start (hl : JobLists h (id :: free) inflight) :
    JobLists (listMove h (.bio id) .bioInflight) free (id :: inflight) :=
  hl.take.addInflight (List.nodup_cons.mp hl.nodup).1

/-- A bio in flight is ended. -/
theorem ended (hl : JobLists h free inflight) (hid : id ∈ inflight) :
    JobLists (listMove h (.bio id) .bioFree) (id :: free) (inflight.erase id) := by
  obtain ⟨xs, ys, rfl⟩ := List.append_of_mem hid
  have hnodup := hl.nodup
  obtain ⟨-, hinflight, hdisj⟩ := List.nodup_append'.mp hnodup
  obtain ⟨-, hys, hxs⟩ := List.nodup_append'.mp hinflight
  have herase : (xs ++ id :: ys).erase id = xs ++ ys := by
    rw [List.erase_append_right _ fun hmem => hxs hmem List.mem_cons_self, List.erase_cons_head]
  have hsplit : h.Pair .bioInflight (bioNodes xs ++ .bio id :: bioNodes ys) .bioFree
      (bioNodes free) := by
    rw [← bioNodes_split]
    exact Links.Pair.symm hl
  have hdel : JobLists (listDel .poison1 .poison2 h (.bio id)) free (xs ++ ys) := by
    have hpair := (pair_listDel .poison1 .poison2 hsplit).symm
    rw [JobLists, bioNodes, bioNodes, List.map_append]
    exact hpair
  rw [herase]
  refine hdel.addFree ?_
  intro hmem
  rcases List.mem_append.mp hmem with hmem | hmem
  · exact hdisj hmem hid
  · rcases List.mem_append.mp hmem with hmem | hmem
    · exact hxs hmem List.mem_cons_self
    · exact (List.nodup_cons.mp hys).1 hmem

/-- **The lists of a job that has been set up**: every bio of the pool is free. -/
theorem initLists (iodepth : ℕ) (h : Links ListNode) :
    JobLists (ChamberSpo.initLists iodepth h) (List.range iodepth) [] := by
  rw [ChamberSpo.initLists]
  induction iodepth with
  | zero =>
    refine ⟨(Links.IsList.selfLink (initListHead h .list) .bioFree).congr ?_ ?_,
      Links.IsList.selfLink _ _, ?_⟩
    · intro x hx
      obtain rfl := List.mem_singleton.mp hx
      rfl
    · intro x hx
      obtain rfl := List.mem_singleton.mp hx
      rfl
    · intro x hx hx'
      obtain rfl := List.mem_singleton.mp hx
      exact absurd (List.mem_singleton.mp hx') nofun
  | succ n ih =>
    rw [List.range_succ, List.foldl_append, List.foldl_cons, List.foldl_nil]
    generalize (List.range n).foldl _ _ = h at ih
    have hn : ∀ head, head = .bioFree ∨ head = .bioInflight → ∀ ids : List ℕ, n ∉ ids →
        (.bio n : ListNode) ∉ head :: bioNodes ids := by
      rintro head hhead ids hids hmem
      rcases List.mem_cons.mp hmem with rfl | hmem
      · rcases hhead with hhead | hhead <;> cases hhead
      · exact hids (mem_bioNodes.mp hmem)
    have hfree := hn .bioFree (.inl rfl) (List.range n) List.not_mem_range_self
    have hinflight := hn .bioInflight (.inr rfl) [] List.not_mem_nil
    have hself : JobLists (initListHead h (.bio n)) (List.range n) [] := by
      refine Links.Pair.congr ih ?_ ?_
      · intro x hx
        refine Function.update_of_ne ?_ ..
        rintro rfl
        exact (List.mem_append.mp hx).elim hfree hinflight
      · intro x hx
        refine Function.update_of_ne ?_ ..
        rintro rfl
        exact (List.mem_append.mp hx).elim hfree hinflight
    have hlast := Links.Pair.insert_last hself hfree hinflight
    rw [JobLists, bioNodes, List.map_append]
    exact hlast

end JobLists

/-! ## In every run -/

/-- What the other jobs of the namespace and the timer may have done since the last step: anything to
the verifier and to the generator that the job belongs to. -/
def JobSystem.disturbed (s : JobSystem) (iover : Iover) (iogenState : IogenState)
    (iogenResult : Int) (timeout : Bool) : JobSystem where
  iover := iover
  job := { s.job with
    iogenState := iogenState
    view := { s.job.view with iogenResult := iogenResult }
    timeout := timeout }

/-- A step of the runner, of a job that is not alone. -/
inductive JobSystem.StepAmong (spor3 : Bool) (s : JobSystem) (a : JobLabel) (s' : JobSystem) : Prop
  | step (iover : Iover) (iogenState : IogenState) (iogenResult : Int) (timeout : Bool) :
    Step spor3 (s.disturbed iover iogenState iogenResult timeout) a s' → StepAmong spor3 s a s'

/-- The lists in memory are those of the job, whose bios are bios of its pool. -/
structure ListsKept (iodepth : ℕ) (h : Links ListNode) (s : JobSystem) : Prop where
  lists : JobLists h s.job.bioFree s.job.bioInflight
  depth : s.job.params.iodepth = iodepth
  pool : ∀ id ∈ s.job.bioFree ++ s.job.bioInflight, id < iodepth

namespace ListsKept

variable {iodepth : ℕ} {h : Links ListNode} {s s' : JobSystem} {iover : Iover} {job : IogenJob}
  {draws : GenDraws} {id : ℕ}

/-- The bio that is generated is the first one on the list. -/
theorem first (hk : ListsKept iodepth h s)
    (hgen : generateBio s.iover s.job draws = (some id, iover, job)) : h.next .bioFree = .bio id := by
  obtain ⟨rest, hfree, -⟩ := generateBio_some hgen
  have hlists := hk.lists
  rw [hfree] at hlists
  exact hlists.left.next_head

/-- The list of the free bios once a bio is generated. -/
theorem generated (hk : ListsKept iodepth h s)
    (hgen : generateBio s.iover s.job draws = (some id, iover, job)) :
    JobLists h (id :: job.bioFree) job.bioInflight ∧ job.params.iodepth = iodepth ∧
      ∀ j ∈ id :: job.bioFree ++ job.bioInflight, j < iodepth := by
  obtain ⟨rest, hfree, hrest, -, hparams, hinflight, -⟩ := generateBio_some hgen
  rw [hrest, hinflight, ← hfree, hparams]
  exact ⟨hk.lists, hk.depth, hk.pool⟩

/-- **The step lemma.** -/
theorem move (hk : ListsKept iodepth h s) {spor3 : Bool} {a : JobLabel}
    (hs : JobSystem.Step spor3 s a s') : ListsKept iodepth (moveLists iodepth h a) s' := by
  cases hs with
  | retry draws iover job hlt hgen =>
    obtain ⟨-, hparams, hfree, hinflight, -⟩ := generateBio_none hgen
    refine ⟨?_, ?_, ?_⟩
    · rw [hfree, hinflight]
      exact hk.lists
    · rw [hparams]
      exact hk.depth
    · rw [hfree, hinflight]
      exact hk.pool
  | submit draws id iover iover' job job' hlt hgen henq =>
    obtain ⟨hlists, hiodepth, hpool⟩ := hk.generated hgen
    obtain ⟨-, rfl⟩ := enqueueBio_spec henq
    rw [moveLists, hk.first hgen]
    refine ⟨hlists.start, hiodepth, ?_⟩
    intro j hj
    exact hpool j (List.perm_middle.mem_iff.mp hj)
  | reject draws id iover job hlt hgen =>
    obtain ⟨hlists, hiodepth, hpool⟩ := hk.generated hgen
    rw [moveLists, hk.first hgen]
    exact ⟨hlists.take, hiodepth, fun j hj => hpool j (List.mem_cons_of_mem _ hj)⟩
  | flush draws id iover iover' job job' hlt hgen hop hend =>
    obtain ⟨hlists, hiodepth, hpool⟩ := hk.generated hgen
    obtain ⟨hparams, hfree, hinflight, -⟩ := bioEnd_lists hend
    rw [moveLists, hk.first hgen]
    refine ⟨?_, ?_, ?_⟩
    · rw [hfree, hinflight]
      exact hlists.start.ended List.mem_cons_self
    · rw [hparams]
      exact hiodepth
    · rw [hfree, hinflight, show (startBio job id).bioInflight = id :: job.bioInflight from rfl,
        List.erase_cons_head]
      exact hpool
  | complete id bio iover job hid hex hend =>
    obtain ⟨hparams, hfree, hinflight, -⟩ := bioEnd_lists hend
    refine ⟨?_, ?_, ?_⟩
    · rw [hfree, hinflight]
      exact hk.lists.ended hid
    · rw [hparams]
      exact hk.depth
    · rw [hfree, hinflight]
      intro j hj
      rcases List.mem_append.mp hj with hj | hj
      · rcases List.mem_cons.mp hj with rfl | hj
        · exact hk.pool j (List.mem_append_right _ hid)
        · exact hk.pool j (List.mem_append_left _ hj)
      · exact hk.pool j (List.mem_append_right _ (List.mem_of_mem_erase hj))
  | reinit =>
    refine ⟨?_, hk.depth, ?_⟩
    · simp only [iogenJobReinit, hk.depth]
      exact .initLists iodepth h
    · intro j hj
      simp only [iogenJobReinit, hk.depth, List.append_nil, List.mem_range] at hj
      exact hj

/-- The other jobs do not touch the lists. -/
theorem among (hk : ListsKept iodepth h s) {spor3 : Bool} {a : JobLabel}
    (hs : s.StepAmong spor3 a s') : ListsKept iodepth (moveLists iodepth h a) s' := by
  obtain ⟨iover, iogenState, iogenResult, timeout, hs⟩ := hs
  have hdisturbed : ListsKept iodepth h (s.disturbed iover iogenState iogenResult timeout) :=
    ⟨hk.lists, hk.depth, hk.pool⟩
  exact hdisturbed.move hs

/-- It holds of a job that has been set up. -/
theorem init (iover : Iover) (job : IogenJob) (h : Links ListNode) :
    ListsKept job.params.iodepth (initLists job.params.iodepth h) (.init iover job) := by
  refine ⟨.initLists _ h, rfl, ?_⟩
  intro id hid
  exact List.mem_range.mp ((List.mem_append.mp hid).resolve_right List.not_mem_nil)

/-- A list has no more bios than the pool. -/
theorem length_le (hk : ListsKept iodepth h s) : s.job.bioFree.length ≤ iodepth ∧
    s.job.bioInflight.length ≤ iodepth := by
  have hsub : s.job.bioFree ++ s.job.bioInflight ⊆ List.range iodepth := by
    intro id hid
    exact List.mem_range.mpr (hk.pool id hid)
  have hlength := (List.subperm_of_subset hk.lists.nodup hsub).length_le
  rw [List.length_append, List.length_range] at hlength
  omega

end ListsKept

/-- **The lists in memory are the lists of the job**, in every run of its runner and whatever the
other jobs do meanwhile: in no more rounds than the job has bios, `list_for_each_entry` visits the
bios in flight, and the free ones, each once
and in order, and backwards in the other order; `list_empty` says whether there is one; and the bio
that `generate_bio` returns is the one that `list_first_entry` found. -/
theorem lists_refine {spor3 : Bool} {iover : Iover} {job : IogenJob} {ls : List JobLabel}
    {s : JobSystem} (hrun : Run (JobSystem.StepAmong spor3) (.init iover job) ls s)
    (h₀ : Links ListNode) :
    let iodepth := job.params.iodepth
    let h := ls.foldl (moveLists iodepth) (initLists iodepth h₀)
    listForEachEntry iodepth h .bioFree = some (bioNodes s.job.bioFree) ∧
      listForEachEntry iodepth h .bioInflight = some (bioNodes s.job.bioInflight) ∧
      listForEachEntryReverse iodepth h .bioFree = some (bioNodes s.job.bioFree).reverse ∧
      listForEachEntryReverse iodepth h .bioInflight
        = some (bioNodes s.job.bioInflight).reverse ∧
      (listEmpty h .bioFree = true ↔ s.job.bioFree = []) ∧
      (listEmpty h .bioInflight = true ↔ s.job.bioInflight = []) ∧
      ∀ iover draws id iover' job', generateBio iover s.job draws = (some id, iover', job') →
        h.next .bioFree = .bio id := by
  intro iodepth h
  have hk : ListsKept iodepth h s :=
    hrun.refines (fun _ _ _ _ hk hs => hk.among hs) (.init iover job h₀)
  obtain ⟨hfree, hinflight⟩ := hk.length_le
  have hlen : ∀ ids : List ℕ, (bioNodes ids).length = ids.length := fun ids => List.length_map ..
  have hempty : ∀ ids : List ℕ, bioNodes ids = [] ↔ ids = [] := fun ids => List.map_eq_nil_iff
  refine ⟨hk.lists.left.walk_next (by rwa [hlen]), hk.lists.right.walk_next (by rwa [hlen]),
    hk.lists.left.walk_prev (by rwa [hlen]), hk.lists.right.walk_prev (by rwa [hlen]), ?_, ?_, ?_⟩
  · rw [listEmpty, decide_eq_true_iff, hk.lists.left.next_eq_iff, hempty]
  · rw [listEmpty, decide_eq_true_iff, hk.lists.right.next_eq_iff, hempty]
  · intro iover draws id iover' job' hgen
    have hk' : ListsKept iodepth h ⟨iover, s.job⟩ := ⟨hk.lists, hk.depth, hk.pool⟩
    exact hk'.first hgen

/-- LBA 0 is locked, and LBA 7. -/
def lockedIover : Iover :=
  { Iover.plain .zero with lbaLock := fun w => if w = 0 then 0x81 else 0 }

/-- Two bios are put in flight, and the second one is ended first. In between another job has locked
LBA 7. -/
theorem lists_refine_zeroes : ∃ (ls : List JobLabel) (s : JobSystem),
    Run (JobSystem.StepAmong false) (.init (Iover.plain .zero) JobSystem.zeroesJob) ls s ∧
      ls.length = 3 ∧ s.iover.lbaLock 0 = 0x81 ∧
      listForEachEntry 2 (ls.foldl (moveLists 2) (initLists 2 ⟨id, id⟩)) .bioInflight
        = some [.bio 0] ∧
      listForEachEntry 2 (ls.foldl (moveLists 2) (initLists 2 ⟨id, id⟩)) .bioFree
        = some [.bio 1] := by
  obtain ⟨ls, s, hrun, hlength, hlock, hinflight, hfree⟩ : ∃ (ls : List JobLabel) (s : JobSystem),
      Run (JobSystem.StepAmong false) (.init (Iover.plain .zero) JobSystem.zeroesJob) ls s ∧
        ls.length = 3 ∧ s.iover.lbaLock 0 = 0x81 ∧ s.job.bioInflight = [0] ∧
        s.job.bioFree = [1] :=
    ⟨_, _,
      .cons (.step (Iover.plain .zero) .running 0 false
        (.submit (JobSystem.plainDraws 0) 0 _ _ _ _ (by decide) rfl rfl)) <|
      .cons (.step lockedIover .running 0 false
        (.submit (JobSystem.plainDraws 1) 1 _ _ _ _ (by decide) rfl rfl)) <|
      .cons (.step lockedIover .running 0 false (.complete 1 _ _ _ (by decide) (.refl _) rfl)) <|
      .nil _, rfl, rfl, rfl, rfl⟩
  obtain ⟨hwalkFree, hwalkInflight, -⟩ := lists_refine hrun ⟨id, id⟩
  rw [hfree] at hwalkFree
  rw [hinflight] at hwalkInflight
  exact ⟨ls, s, hrun, hlength, hlock, hwalkInflight, hwalkFree⟩

/-! ## The registered engines -/

/-- The list head of the engines, those in their `struct ioengine_ops`, and the two addresses that no
list head has. The displays have the same list. -/
inductive EngineNode where
  | engines
  /-- `engine_ops->list` -/
  | ops (id : ℕ)
  | poison1
  | poison2
  deriving DecidableEq

/-- A call of `ioengine.c` that changes the list. -/
inductive EngineCall where
  | register (id : ℕ)
  | unregister (id : ℕ)

/-- `ioengine_register` -/
def ioengineRegister (h : Links EngineNode) (id : ℕ) : Links EngineNode :=
  listAdd (initListHead h (.ops id)) (.ops id) .engines

/-- `ioengine_unregister` -/
def ioengineUnregister (h : Links EngineNode) (id : ℕ) : Links EngineNode :=
  listDel .poison1 .poison2 h (.ops id)

def EngineCall.exec (h : Links EngineNode) : EngineCall → Links EngineNode
  | .register id => ioengineRegister h id
  | .unregister id => ioengineUnregister h id

/-- `strcmp(name, engine_ops->name) == 0` -/
def EngineNode.named (names : ℕ → String) (name : String) : EngineNode → Bool
  | .ops id => names id = name
  | _ => false

/-- `ioengine_find`, with a bound on the rounds of its loop. -/
def ioengineFind (names : ℕ → String) (fuel : ℕ) (h : Links EngineNode) (name : String) :
    Option EngineNode :=
  Links.find h.next .engines (EngineNode.named names name) fuel (h.next .engines)

/-- What is registered, the latest first. An engine is registered when it is not, and unregistered
when it is. -/
inductive EngineCall.Registered (ids : List ℕ) : EngineCall → List ℕ → Prop
  | register (id : ℕ) : id ∉ ids → Registered ids (.register id) (id :: ids)
  | unregister (id : ℕ) : id ∈ ids → Registered ids (.unregister id) (ids.erase id)

/-- The engines that are registered, as entries of the list. -/
def engineNodes (ids : List ℕ) : List EngineNode := ids.map .ops

theorem mem_engineNodes {ids : List ℕ} {id : ℕ} : .ops id ∈ engineNodes ids ↔ id ∈ ids := by
  rw [engineNodes, List.mem_map]
  refine ⟨?_, fun hid => ⟨id, hid, rfl⟩⟩
  rintro ⟨j, hj, heq⟩
  exact EngineNode.ops.inj heq ▸ hj

/-- A call keeps the list in memory that of the registered engines. -/
theorem EngineCall.Registered.exec {ids ids' : List ℕ} {call : EngineCall} {h : Links EngineNode}
    (hl : h.IsList .engines (engineNodes ids)) (hc : EngineCall.Registered ids call ids') :
    (call.exec h).IsList .engines (engineNodes ids') := by
  cases hc with
  | register id hid =>
    have hnot : (.ops id : EngineNode) ∉ .engines :: engineNodes ids := by
      rintro (_ | ⟨_, hmem⟩)
      exact hid (mem_engineNodes.mp hmem)
    have hself : (initListHead h (.ops id)).IsList .engines (engineNodes ids) := by
      refine hl.congr ?_ ?_
      · intro z hz
        exact Function.update_of_ne (fun heq : z = .ops id => hnot (heq ▸ hz)) ..
      · intro z hz
        exact Function.update_of_ne (fun heq : z = .ops id => hnot (heq ▸ hz)) ..
    exact hself.insert_first hnot
  | unregister id hid =>
    obtain ⟨xs, ys, rfl⟩ := List.append_of_mem hid
    have hnodup : (engineNodes (xs ++ id :: ys)).Nodup := (List.nodup_cons.mp hl.nodup).2
    have hids : (xs ++ id :: ys).Nodup := hnodup.of_map EngineNode.ops
    have hxs : id ∉ xs := fun hmem =>
      (List.nodup_append'.mp hids).2.2 hmem List.mem_cons_self
    rw [List.erase_append_right _ hxs, List.erase_cons_head]
    rw [engineNodes, List.map_append, List.map_cons] at hl
    rw [engineNodes, List.map_append]
    exact isList_listDel .poison1 .poison2 hl

/-- **`ioengine_find` finds the latest engine of that name** that was registered and not
unregistered since, after any calls, and `NULL` when there is none. -/
theorem ioengineFind_latest {calls : List EngineCall} {ids : List ℕ}
    (hrun : Run EngineCall.Registered [] calls ids) (h₀ : Links EngineNode)
    (names : ℕ → String) (name : String) {fuel : ℕ} (hfuel : ids.length < fuel) :
    ioengineFind names fuel (calls.foldl EngineCall.exec (initListHead h₀ .engines)) name
      = (ids.find? fun id => names id = name).map EngineNode.ops := by
  have hl : (calls.foldl EngineCall.exec (initListHead h₀ .engines)).IsList .engines
      (engineNodes ids) :=
    hrun.refines (R := fun h ids => Links.IsList h .engines (engineNodes ids))
      (fun _ _ _ _ hl hc => hc.exec hl) (.selfLink h₀ .engines)
  rw [ioengineFind, hl.find_next (by rwa [engineNodes, List.length_map]), engineNodes,
    List.find?_map]
  rfl

/-- Of two engines of one name the second one is found, and the first one again when the second is
unregistered. -/
theorem ioengineFind_null_null :
    ioengineFind (fun _ => "null") 3
        ([.register 0, .register 1].foldl EngineCall.exec (initListHead ⟨id, id⟩ .engines)) "null"
      = some (.ops 1) ∧
    ioengineFind (fun _ => "null") 3
        ([.register 0, .register 1, .unregister 1].foldl EngineCall.exec
          (initListHead ⟨id, id⟩ .engines)) "null"
      = some (.ops 0) := by
  have hone : Run EngineCall.Registered [] [.register 0, .register 1] [1, 0] :=
    .cons (.register 0 (by decide)) (.single (.register 1 (by decide)))
  exact ⟨ioengineFind_latest hone _ _ _ (by decide),
    ioengineFind_latest (hone.snoc (.unregister 1 (by decide))) _ _ _ (by decide)⟩

end ChamberSpo

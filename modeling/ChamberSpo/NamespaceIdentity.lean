import ChamberSpo.Validate

/-!
# Which jobs share a namespace

`validate` gives each job the `namespace_info` whose EUI64 and NGUID its engine reports, and adds
one if there is none. The descriptors, the locks and the journal belong to the `namespace_info`.

* `SameNamespace` — two jobs address one namespace: the same controller and NSID.
* `NamespacesExact` — jobs share a `namespace_info` exactly when they address one namespace, and
  each has the format of the data it was added with.
* `namespacesExact_iff` — this holds exactly when the identifiers tell the namespaces apart, and
  nothing but them. Namespaces that report no identifiers look alike.
-/

namespace ChamberSpo

/-- Two jobs address one namespace. -/
def SameNamespace (a b : JobConfig) : Prop := a.controller = b.controller ∧ a.nsid = b.nsid

/-- **The namespaces are told apart**, and have their formats. -/
structure NamespacesExact (env : ValidateEnv) (jobs : List JobConfig) (nsis : List NsInfo)
    (bounds : List BoundJob) : Prop where
  shared : ∀ (i j : ℕ) (job job' : JobConfig) (bound bound' : BoundJob),
    jobs[i]? = some job → jobs[j]? = some job' →
    bounds[i]? = some bound → bounds[j]? = some bound' →
    (bound.nsIdx = bound'.nsIdx ↔ SameNamespace job job')
  /-- the data is that of the first job that holds it -/
  format : ∀ (n : ℕ) (ns : NsInfo), nsis[n]? = some ns → ∃ i bound,
    bounds[i]? = some bound ∧ bound.nsIdx = n ∧
      (∀ j < i, ∀ bound', bounds[j]? = some bound' → bound'.nsIdx ≠ n) ∧
      ns.FormatOf (env.reply i).idNs

/-! ## One job -/

section Job

variable {n : ℕ} {nsis nsis' : List NsInfo} {job : JobConfig} {ns : NsInfo}

theorem namespaceFind_lt {idNs : IdNs} (h : namespaceFind nsis idNs = some n) :
    n < nsis.length := by
  simp only [namespaceFind] at h
  exact (List.findIdx?_eq_some_iff_getElem.mp h).1

/-- A `namespace_info` is found by the identifiers of the job that holds it. -/
theorem bindNamespace_find {reply : EngineReply}
    (h : bindNamespace reply nsis job = .ok (nsis', n, ns)) :
    namespaceFind nsis' reply.idNs = some n ∧ nsis <+: nsis' ∧ nsis'.length ≤ nsis.length + 1 := by
  rcases bindNamespace_cases h with ⟨hnone, rfl, rfl, -, heui, hnguid⟩ | ⟨hfind, rfl, -⟩
  · refine ⟨namespaceFind_append_of_none hnone heui hnguid, List.prefix_append .., ?_⟩
    rw [List.length_append, List.length_singleton]
  · exact ⟨hfind, List.prefix_refl _, Nat.le_succ _⟩

end Job

/-! ## All jobs -/

section Jobs

variable {env : ValidateEnv} {names : List (List Byte)} {idx : ℕ} {nsis nsis' : List NsInfo}
  {jobs : List JobConfig} {bounds : List BoundJob}

/-- **The `namespace_info` of each job** is the one that its identifiers find in the end. -/
theorem validateFrom_find (h : validateFrom env names idx nsis jobs = .ok (nsis', bounds)) :
    nsis <+: nsis' ∧ ∀ i bound, bounds[i]? = some bound →
      namespaceFind nsis' (env.reply (idx + i)).idNs = some bound.nsIdx := by
  induction jobs generalizing idx nsis bounds with
  | nil =>
    cases h
    refine ⟨List.prefix_refl _, ?_⟩
    intro i bound hb
    rw [List.getElem?_nil] at hb
    cases hb
  | cons job jobs ih =>
    obtain ⟨nsis₁, bound, bounds', hjob, hrest, rfl⟩ := validateFrom_cons_ok h
    obtain ⟨ns, -, -, hns, -⟩ := validateJob_ok hjob
    obtain ⟨hfind, hpre, -⟩ := bindNamespace_find hns
    obtain ⟨hpre', hjobs⟩ := ih hrest
    refine ⟨hpre.trans hpre', ?_⟩
    intro i
    cases i with
    | zero =>
      rintro _ ⟨⟩
      exact namespaceFind_of_prefix hpre' hfind
    | succ i =>
      intro bound' hb
      rw [Nat.add_comm i 1, ← Nat.add_assoc]
      exact hjobs i bound' hb

/-- **Each `namespace_info` that is added** has the format that its first job was told. -/
theorem validateFrom_format (h : validateFrom env names idx nsis jobs = .ok (nsis', bounds)) {n : ℕ}
    {ns : NsInfo} (hnew : nsis.length ≤ n) (hget : nsis'[n]? = some ns) :
    ∃ i bound, bounds[i]? = some bound ∧ bound.nsIdx = n ∧
      (∀ j < i, ∀ bound', bounds[j]? = some bound' → bound'.nsIdx ≠ n) ∧
      ns.FormatOf (env.reply (idx + i)).idNs := by
  induction jobs generalizing idx nsis bounds with
  | nil =>
    cases h
    have hlt := (List.getElem?_eq_some_iff.mp hget).1
    omega
  | cons job jobs ih =>
    obtain ⟨nsis₁, bound, bounds', hjob, hrest, rfl⟩ := validateFrom_cons_ok h
    obtain ⟨ns₁, -, -, hns, -⟩ := validateJob_ok hjob
    obtain ⟨hfind, hpre, hlength⟩ := bindNamespace_find hns
    rcases Nat.lt_or_ge n nsis₁.length with hlt | hge
    · -- it was added for this job
      obtain rfl : n = nsis.length := by omega
      rcases bindNamespace_cases hns with ⟨-, rfl, hidx, hformat, -, -⟩ | ⟨-, rfl, -⟩
      · have hsame := List.prefix_iff_getElem?.mp (validateFrom_find hrest).1 nsis.length hlt
        rw [List.getElem_concat_length rfl, hget] at hsame
        obtain rfl := Option.some.inj hsame
        exact ⟨0, bound, rfl, hidx, fun j hj => absurd hj (Nat.not_lt_zero j), hformat⟩
      · exact absurd hlt (Nat.lt_irrefl _)
    · -- it was added for a later one
      obtain ⟨i, bound', hb, hidx, hfirst, hformat⟩ := ih hrest hge
      refine ⟨i + 1, bound', hb, hidx, ?_, ?_⟩
      · intro j hj
        cases j with
        | zero =>
          rintro _ ⟨⟩
          have hbefore := namespaceFind_lt hfind
          omega
        | succ j => exact hfirst j (Nat.lt_of_succ_lt_succ hj)
      · rw [Nat.add_comm i 1, ← Nat.add_assoc]
        exact hformat

/-- Two jobs hold one `namespace_info` exactly when their identifiers are the same. -/
theorem nsIdx_eq_iff (h : validate env jobs = .ok (nsis, bounds)) {i j : ℕ}
    {bound bound' : BoundJob} (hi : bounds[i]? = some bound) (hj : bounds[j]? = some bound') :
    bound.nsIdx = bound'.nsIdx ↔ (env.reply i).idNs.SameIds (env.reply j).idNs := by
  have hfind := (validateFrom_find h).2 i bound hi
  have hfind' := (validateFrom_find h).2 j bound' hj
  rw [Nat.zero_add] at hfind hfind'
  refine ⟨?_, ?_⟩
  · intro hsame
    rw [← hsame] at hfind'
    have hget := List.getElem?_eq_getElem (namespaceFind_lt hfind)
    obtain ⟨heui, hnguid⟩ := namespaceFind_eq_some hfind hget
    obtain ⟨heui', hnguid'⟩ := namespaceFind_eq_some hfind' hget
    exact ⟨heui.symm.trans heui', hnguid.symm.trans hnguid'⟩
  · intro hsame
    rw [namespaceFind_congr hsame, hfind'] at hfind
    exact (Option.some.inj hfind).symm

/-- **The namespaces are told apart exactly when their identifiers do so.** -/
theorem namespacesExact_iff (h : validate env jobs = .ok (nsis, bounds)) :
    NamespacesExact env jobs nsis bounds ↔
      ∀ (i j : ℕ) (job job' : JobConfig), jobs[i]? = some job → jobs[j]? = some job' →
        ((env.reply i).idNs.SameIds (env.reply j).idNs ↔ SameNamespace job job') := by
  have hlength := (validate_spec h).1
  have hbound : ∀ (i : ℕ) (job : JobConfig), jobs[i]? = some job →
      ∃ bound, bounds[i]? = some bound := by
    intro i job hjob
    have hlt := (List.getElem?_eq_some_iff.mp hjob).1
    exact ⟨_, List.getElem?_eq_getElem (hlength ▸ hlt)⟩
  refine ⟨?_, ?_⟩
  · intro hexact i j job job' hi hj
    obtain ⟨bound, hb⟩ := hbound i job hi
    obtain ⟨bound', hb'⟩ := hbound j job' hj
    rw [← nsIdx_eq_iff h hb hb']
    exact hexact.shared i j job job' bound bound' hi hj hb hb'
  · intro hids
    refine ⟨?_, ?_⟩
    · intro i j job job' bound bound' hi hj hb hb'
      rw [nsIdx_eq_iff h hb hb']
      exact hids i j job job' hi hj
    · intro n ns hget
      obtain ⟨i, bound, hb, hidx, hfirst, hformat⟩ :=
        validateFrom_format h (Nat.zero_le n) hget
      rw [Nat.zero_add] at hformat
      exact ⟨i, bound, hb, hidx, hfirst, hformat⟩

end Jobs

/-! ## Two jobs -/

/-- A job on a namespace of the null engine. -/
def nsidJob (nsid : BitVec 32) : JobConfig := { wholeJob with nsid := nsid }

/-- An engine that reports another EUI64 to each job. -/
def ValidateEnv.told : ValidateEnv :=
  { ValidateEnv.null .none with
    reply := fun k =>
      { EngineReply.null with
        idNs := { EngineReply.null.idNs with eui64 := fun _ => BitVec.ofNat 8 k } } }

/-- Two namespaces with identifiers. -/
theorem namespacesExact_told : ∃ nsis bounds,
    validate .told [nsidJob 1, nsidJob 2] = .ok (nsis, bounds) ∧
      NamespacesExact .told [nsidJob 1, nsidJob 2] nsis bounds := by
  refine ⟨_, _, rfl, (namespacesExact_iff rfl).mpr ?_⟩
  have hids : ∀ i < 2, ∀ j < 2,
      (ValidateEnv.told.reply i).idNs.SameIds (ValidateEnv.told.reply j).idNs ↔ i = j := by
    decide
  intro i j job job' hi hj
  match i, j, hi, hj with
  | 0, 0, rfl, rfl => exact (hids 0 (by omega) 0 (by omega)).trans (iff_of_true rfl ⟨rfl, rfl⟩)
  | 1, 1, rfl, rfl => exact (hids 1 (by omega) 1 (by omega)).trans (iff_of_true rfl ⟨rfl, rfl⟩)
  | 0, 1, rfl, rfl =>
    refine (hids 0 (by omega) 1 (by omega)).trans (iff_of_false Nat.zero_ne_one ?_)
    rintro ⟨-, hnsid⟩
    exact absurd hnsid (by decide)
  | 1, 0, rfl, rfl =>
    refine (hids 1 (by omega) 0 (by omega)).trans (iff_of_false Nat.one_ne_zero ?_)
    rintro ⟨-, hnsid⟩
    exact absurd hnsid (by decide)

/-- **Two namespaces without identifiers** share one `namespace_info`. -/
theorem not_namespacesExact_null : ∃ nsis bounds,
    validate (.null .none) [nsidJob 1, nsidJob 2] = .ok (nsis, bounds) ∧
      ¬ NamespacesExact (.null .none) [nsidJob 1, nsidJob 2] nsis bounds := by
  refine ⟨_, _, rfl, ?_⟩
  intro hexact
  have hsame := (hexact.shared 0 1 _ _ _ _ rfl rfl rfl rfl).mp rfl
  exact absurd hsame.2 (by decide)

end ChamberSpo

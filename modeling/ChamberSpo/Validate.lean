import ChamberSpo.Checked
import ChamberSpo.Params
import Mathlib.Data.List.Infix

/-!
# Validating the parameters

What `main.c` does between parsing and running: `validate` asks the engine of each job for its
namespace, fills in the sizes that are missing, finds the job that this one depends on, and
leaves the range and the amount to `bind_params`.

* `EngineReply` — what the engine of a job answers.
* `NsInfo`, `namespaceFind`, `namespaceAdd` — the namespaces found so far.
* `bindParams` — percentages, scales and the results that the device is to choose.
* `validate` — the loop over the jobs; its inversion is `validate_spec`.

The range of a job is what was asked for, and inside the namespace, under a condition that
nothing checks: `bind_params` does, and its result is dropped (`validate_range_iff`).
-/

namespace ChamberSpo

/-! ## Namespaces -/

/-- `nvme_id_ns_t`, with what `namespace_add` reads of it. -/
structure IdNs where
  eui64 : Fin 8 → Byte
  nguid : Fin 16 → Byte
  nsze : BitVec 64
  flbas : Byte
  /-- `lbaf[i].lbads` and `lbaf[i].ms` -/
  lbads : Fin 16 → Byte
  ms : Fin 16 → BitVec 16
  dps : Byte

/-- `idx` in `namespace_add` -/
def IdNs.idx (idNs : IdNs) : Fin 16 := Fin.ofNat 16 idNs.flbas.toNat

/-- The size of a namespace in bytes. -/
def IdNs.size (idNs : IdNs) : ℕ := idNs.nsze.toNat * 2 ^ (idNs.lbads idNs.idx).toNat

/-- What `namespace_find` compares. -/
def IdNs.SameIds (a b : IdNs) : Prop := a.eui64 = b.eui64 ∧ a.nguid = b.nguid

instance (a b : IdNs) : Decidable (a.SameIds b) :=
  inferInstanceAs (Decidable (a.eui64 = b.eui64 ∧ a.nguid = b.nguid))

/-- `struct namespace_info`, as `validate` leaves it. -/
structure NsInfo where
  eui64 : Fin 8 → Byte
  nguid : Fin 16 → Byte
  journalFile : Option (List Byte)
  journalFileMmap : Bool
  journalShm : BitVec 32
  dataSize : ℕ
  metaSize : ℕ
  blockSize : ℕ
  extendedLba : Bool
  nlbs : BitVec 64
  lbaShift : ℕ
  piType : BitVec 8
  piLoc : Bool
  nhist : BitVec 32
  /-- smaller LBA sizes are refused -/
  nine_le_lbaShift : 9 ≤ lbaShift
  dataSize_eq : dataSize = 2 ^ lbaShift

/-- `namespace_find` -/
def namespaceFind (nsis : List NsInfo) (idNs : IdNs) : Option ℕ :=
  nsis.findIdx? fun ns => decide (ns.eui64 = idNs.eui64 ∧ ns.nguid = idNs.nguid)

/-- Why `validate` does not return 0. -/
inductive ValidateError where
  /-- "please specify 'IOENGINE' property" -/
  | noEngine
  /-- "unknown i/o engine" -/
  | unknownEngine (ioengine : List Byte)
  /-- what `init` or `identify` of the engine returned -/
  | engine (res : Int)
  /-- the process uses the `NULL` that `namespace_add` returned -/
  | nullNamespace
  /-- C does not say what `1 << lbads` is -/
  | undefinedShift
  /-- "'JOURNAL_FILE' property redefined on the same namespace" -/
  | journalRedefined
  /-- "IO_SIZE_MIN must be equal to or larger than lba size" -/
  | iosizeMinZero
  /-- "IO_SIZE_MIN must be aligned to lba size boundary" -/
  | iosizeMinUnaligned
  /-- "IO_SIZE_MAX must be aligned to lba size boundary" -/
  | iosizeMaxUnaligned
  /-- "'DEPENDENCY' property referenced undefined job" -/
  | undefinedDependency (dependency : List Byte)
  /-- "duplicated job name" -/
  | duplicatedName (dependency : List Byte)
  deriving DecidableEq

/-- `namespace_add`, with what `validate` writes to the namespace that it adds. -/
def namespaceAdd (nsis : List NsInfo) (idNs : IdNs) (job : JobConfig) :
    Except ValidateError NsInfo :=
  let lbads := (idNs.lbads idNs.idx).toNat
  if 256 ≤ nsis.length then .error .nullNamespace
  else if h : lbads < 9 then .error .nullNamespace
  else if 32 ≤ lbads then .error .undefinedShift
  else
    let metaSize := (idNs.ms idNs.idx).toNat
    let extendedLba := decide (metaSize ≠ 0) && idNs.flbas.getLsbD 4
    .ok {
      eui64 := idNs.eui64
      nguid := idNs.nguid
      journalFile := if job.journalFile = [] then none else some job.journalFile
      journalFileMmap := job.journalFileMmap
      journalShm := job.journalShm
      dataSize := 2 ^ lbads
      metaSize := metaSize
      blockSize := if extendedLba then 2 ^ lbads + metaSize else 2 ^ lbads
      extendedLba := extendedLba
      nlbs := idNs.nsze
      lbaShift := lbads
      piType := idNs.dps &&& 7
      piLoc := idNs.dps.getLsbD 3
      nhist := job.history
      nine_le_lbaShift := Nat.not_lt.mp h
      dataSize_eq := rfl }

/-! ## Engines -/

/-- What the engine of a job answers to `validate`. -/
structure EngineReply where
  /-- `init` for the identification, and again for the namespace -/
  init : Int
  nsInit : Int
  identify : Int
  idNs : IdNs
  getFeatures : Int
  featureResult : BitVec 32

/-- What `validate` finds. -/
structure ValidateEnv where
  /-- the names of the engines that are registered -/
  engines : List (List Byte)
  /-- `iosize_min` and `iosize_max` -/
  bounds : IosizeBounds
  /-- the answers to each job, by its number -/
  reply : ℕ → EngineReply

/-! ## Binding -/

/-- `ns_size` -/
def NsInfo.nsSize (ns : NsInfo) : BitVec 64 := ns.nlbs <<< ns.lbaShift

/-- The percentages of the range and of the amount are resolved. -/
def bindRange (ns : NsInfo) (job : JobConfig) : JobConfig :=
  let lbaRangeBegin := if job.lbaRangeBeginPercentEnable then
      ns.nsSize * job.lbaRangeBeginPercent.setWidth 64 / 100
    else job.lbaRangeBegin
  let lbaRangeSize := if job.lbaRangeSizePercentEnable then
      ns.nsSize * job.lbaRangeSizePercent.setWidth 64 / 100
    else job.lbaRangeSize
  { job with
    lbaRangeBegin := lbaRangeBegin
    lbaRangeSize := lbaRangeSize
    amount := if job.amountBytesPercentEnabled then
        lbaRangeSize * job.amountBytesPercent.setWidth 64 / 100
      else job.amount }

/-- The amount is scaled. -/
def scaleAmount (job : JobConfig) : JobConfig :=
  match job.amountType with
  | .infinite => job
  | .time | .io | .byte => { job with amount := job.amount * job.amountScale.setWidth 64 }

/-- What reads of unwritten and of deallocated LBAs return is up to the device. -/
def bindResultTypes (reply : EngineReply) (job : JobConfig) : Int × JobConfig :=
  if job.deallocReadResultType = .auto ∨ job.unwrReadResultType = .auto then
    if reply.getFeatures ≠ 0 then (reply.getFeatures, job)
    else
      let error := reply.featureResult.getLsbD 15
      (0, { job with
        deallocReadResultType := if job.deallocReadResultType = .auto then
            if error then .error else .value
          else job.deallocReadResultType
        unwrReadResultType := if job.unwrReadResultType = .auto then
            if error then .error else .value
          else job.unwrReadResultType })
  else (0, job)

/-- `bind_params`: its result, and what it leaves of the parameters. -/
def bindParams (ns : NsInfo) (reply : EngineReply) (job : JobConfig) : Int × JobConfig :=
  let job := bindRange ns job
  if ns.nsSize < job.lbaRangeBegin + job.lbaRangeSize then (-1, job)
  else bindResultTypes reply (scaleAmount job)

/-- Beyond the range, `bind_params` changes the amount and the results to expect. -/
theorem bindParams_eq (ns : NsInfo) (reply : EngineReply) (job : JobConfig) :
    ∃ amount dealloc unwr, (bindParams ns reply job).2 =
      { bindRange ns job with
        amount := amount
        deallocReadResultType := dealloc
        unwrReadResultType := unwr } := by
  have hscale : ∀ job : JobConfig, ∃ amount, scaleAmount job = { job with amount := amount } := by
    intro job
    simp only [scaleAmount]
    split <;> exact ⟨_, rfl⟩
  have htypes : ∀ job : JobConfig, ∃ dealloc unwr, (bindResultTypes reply job).2 =
      { job with deallocReadResultType := dealloc, unwrReadResultType := unwr } := by
    intro job
    simp only [bindResultTypes]
    split
    · split <;> exact ⟨_, _, rfl⟩
    · exact ⟨_, _, rfl⟩
  rw [bindParams]
  simp only
  split
  · exact ⟨_, _, _, rfl⟩
  · obtain ⟨amount, hamount⟩ := hscale (bindRange ns job)
    obtain ⟨dealloc, unwr, h⟩ := htypes (scaleAmount (bindRange ns job))
    rw [hamount] at h
    exact ⟨amount, dealloc, unwr, hamount ▸ h⟩

/-! ## The loop over the jobs -/

/-- `job_find` and `job_find_next`: the first job of a name from a number on. -/
def jobFindFrom (names : List (List Byte)) (idx : ℕ) (name : List Byte) : Option ℕ :=
  ((names.drop idx).findIdx? fun n => decide (n = name)).map (idx + ·)

/-- `dependency_job_idx` -/
def dependencyJobIdx (names : List (List Byte)) (idx : ℕ) (job : JobConfig) :
    Except ValidateError ℕ :=
  if job.dependency = [] then .ok idx
  else match jobFindFrom names 0 job.dependency with
    | none => .error (.undefinedDependency job.dependency)
    | some depend =>
      if (jobFindFrom names (depend + 1) job.dependency).isSome then
        .error (.duplicatedName job.dependency)
      else .ok depend

/-- The engine of a job is there and knows the namespace. -/
def findEngine (env : ValidateEnv) (idx : ℕ) (job : JobConfig) : Except ValidateError Unit :=
  if job.ioengine = [] then .error .noEngine
  else if job.ioengine ∉ env.engines then .error (.unknownEngine job.ioengine)
  else if (env.reply idx).init ≠ 0 then .error (.engine (env.reply idx).init)
  else if (env.reply idx).identify ≠ 0 then .error (.engine (env.reply idx).identify)
  else .ok ()

/-- The namespace of a job: its number and its information, and all the namespaces. -/
def bindNamespace (reply : EngineReply) (nsis : List NsInfo) (job : JobConfig) :
    Except ValidateError (List NsInfo × ℕ × NsInfo) :=
  match namespaceFind nsis reply.idNs with
  | none => do
    let ns ← namespaceAdd nsis reply.idNs job
    if reply.nsInit ≠ 0 then .error (.engine reply.nsInit)
    else return (nsis ++ [ns], nsis.length, ns)
  | some n =>
    match nsis[n]? with
    | none => .error .nullNamespace
    | some ns =>
      if (ns.journalFile ≠ none ∨ job.journalFile ≠ []) ∧ ns.journalFile ≠ some job.journalFile then
        .error .journalRedefined
      else .ok (nsis, n, ns)

/-- A job without sizes of its own gets those that were gathered. -/
def fallbackIosize (bounds : IosizeBounds) (job : JobConfig) : JobConfig :=
  let total := job.iosizes .total
  if total.iosizeMin = 0 ∨ total.iosizeMax = 0 then
    { job with
      iosizes := Function.update job.iosizes .total
        { total with
          iosizeMin := bounds.min.setWidth 64
          iosizeMax := bounds.max.setWidth 64 } }
  else job

/-- The sizes are whole LBAs. -/
def checkIosize (ns : NsInfo) (job : JobConfig) : Except ValidateError Unit :=
  let total := job.iosizes .total
  if total.iosizeMin = 0 then .error .iosizeMinZero
  else if total.iosizeMin.toNat % ns.dataSize ≠ 0 then .error .iosizeMinUnaligned
  else if total.iosizeMax.toNat % ns.dataSize ≠ 0 then .error .iosizeMaxUnaligned
  else .ok ()

/-- A job that `validate` is done with: its parameters and the number of its namespace. -/
structure BoundJob where
  params : JobConfig
  nsIdx : ℕ

/-- One round of the loop in `validate`. The names are those of all the jobs. -/
def validateJob (env : ValidateEnv) (names : List (List Byte)) (idx : ℕ) (nsis : List NsInfo)
    (job : JobConfig) : Except ValidateError (List NsInfo × BoundJob) := do
  findEngine env idx job
  let (nsis, nsIdx, ns) ← bindNamespace (env.reply idx) nsis job
  let job := fallbackIosize env.bounds job
  checkIosize ns job
  let depend ← dependencyJobIdx names idx job
  -- the result of `bind_params` is not looked at
  let job := (bindParams ns (env.reply idx) { job with dependencyJobIdx := depend }).2
  return (nsis, { params := job, nsIdx := nsIdx })

/-- The loop in `validate`, from a job on. -/
def validateFrom (env : ValidateEnv) (names : List (List Byte)) :
    ℕ → List NsInfo → List JobConfig → Except ValidateError (List NsInfo × List BoundJob)
  | _, nsis, [] => .ok (nsis, [])
  | idx, nsis, job :: jobs => do
    let (nsis, job) ← validateJob env names idx nsis job
    let (nsis, jobs) ← validateFrom env names (idx + 1) nsis jobs
    return (nsis, job :: jobs)

/-- `validate`: the namespaces and the jobs, when it returns 0. -/
def validate (env : ValidateEnv) (jobs : List JobConfig) :
    Except ValidateError (List NsInfo × List BoundJob) :=
  validateFrom env (jobs.map (·.name)) 0 [] jobs

/-! ## What it has done -/

section Spec

variable {env : ValidateEnv} {names : List (List Byte)} {idx : ℕ} {nsis nsis' : List NsInfo}
  {job : JobConfig} {bound : BoundJob} {ns : NsInfo}

/-- The first job whose namespace answers to the same identifiers. -/
def ValidateEnv.firstReply (env : ValidateEnv) (idx : ℕ) : ℕ :=
  Nat.find (p := fun k => (env.reply k).idNs.SameIds (env.reply idx).idNs) ⟨idx, rfl, rfl⟩

/-- The size of the namespace of a job, in bytes. -/
def ValidateEnv.nsSize (env : ValidateEnv) (idx : ℕ) : ℕ :=
  (env.reply (env.firstReply idx)).idNs.size

/-- The geometry is the one that was identified. -/
structure NsInfo.Describes (ns : NsInfo) (idNs : IdNs) : Prop where
  nlbs : ns.nlbs = idNs.nsze
  lbaShift : ns.lbaShift = (idNs.lbads idNs.idx).toNat

/-- The size and the format are those of an identify data. -/
structure NsInfo.FormatOf (ns : NsInfo) (idNs : IdNs) : Prop extends ns.Describes idNs where
  dataSize : ns.dataSize = 2 ^ (idNs.lbads idNs.idx).toNat
  metaSize : ns.metaSize = (idNs.ms idNs.idx).toNat
  /-- `(flbas >> 4) & 1`, if there is metadata -/
  extendedLba : ns.extendedLba = (decide (ns.metaSize ≠ 0) && idNs.flbas.getLsbD 4)
  blockSize : ns.blockSize = ns.dataSize + if ns.extendedLba then ns.metaSize else 0
  piType : ns.piType = idNs.dps &&& 7
  piLoc : ns.piLoc = idNs.dps.getLsbD 3

/-- The namespaces are those of the jobs so far, each as it was identified first. -/
structure Known (env : ValidateEnv) (idx : ℕ) (nsis : List NsInfo) : Prop where
  known : ∀ ns ∈ nsis, ∃ k < idx, ns.eui64 = (env.reply k).idNs.eui64 ∧
    ns.nguid = (env.reply k).idNs.nguid
  find : ∀ k < idx, ∃ n ns, namespaceFind nsis (env.reply k).idNs = some n ∧
    nsis[n]? = some ns ∧ ns.Describes (env.reply (env.firstReply k)).idNs

theorem namespaceFind_congr {a b : IdNs} (h : a.SameIds b) :
    namespaceFind nsis a = namespaceFind nsis b := by
  simp only [namespaceFind]
  rw [h.1, h.2]

/-- The first job of a namespace is the same for all its jobs. -/
theorem ValidateEnv.firstReply_congr {k : ℕ}
    (h : (env.reply k).idNs.SameIds (env.reply idx).idNs) :
    env.firstReply k = env.firstReply idx := by
  have hiff : ∀ j, (env.reply j).idNs.SameIds (env.reply k).idNs ↔
      (env.reply j).idNs.SameIds (env.reply idx).idNs := fun j =>
    ⟨fun hj => ⟨hj.1.trans h.1, hj.2.trans h.2⟩,
      fun hj => ⟨hj.1.trans h.1.symm, hj.2.trans h.2.symm⟩⟩
  exact Nat.find_congr' fun {j} => hiff j

/-- A namespace is new if no job before had one with its identifiers. -/
theorem ValidateEnv.firstReply_eq_self
    (h : ∀ k < idx, ¬ (env.reply k).idNs.SameIds (env.reply idx).idNs) :
    env.firstReply idx = idx := by
  rw [firstReply, Nat.find_eq_iff]
  exact ⟨⟨rfl, rfl⟩, h⟩

/-- A `namespace_info` that is added has the format of its data, and its identifiers. -/
theorem namespaceAdd_format {idNs : IdNs} (h : namespaceAdd nsis idNs job = .ok ns) :
    ns.FormatOf idNs ∧ ns.eui64 = idNs.eui64 ∧ ns.nguid = idNs.nguid := by
  rw [namespaceAdd] at h
  simp only at h
  split at h
  · cases h
  split at h
  · cases h
  split at h
  · cases h
  · cases h
    refine ⟨⟨⟨rfl, rfl⟩, rfl, rfl, rfl, ?_, rfl, rfl⟩, rfl, rfl⟩
    simp only
    split <;> rfl

/-- A search that found nothing goes on in what is appended. -/
theorem namespaceFind_append_of_none {idNs : IdNs} (h : namespaceFind nsis idNs = none)
    (heui : ns.eui64 = idNs.eui64) (hnguid : ns.nguid = idNs.nguid) :
    namespaceFind (nsis ++ [ns]) idNs = some nsis.length := by
  simp only [namespaceFind] at h ⊢
  rw [List.findIdx?_append, h]
  simp [List.findIdx?_cons, heui, hnguid]

/-- What was found is still found when more is added. -/
theorem namespaceFind_of_prefix {idNs : IdNs} {n : ℕ} (hpre : nsis <+: nsis')
    (h : namespaceFind nsis idNs = some n) : namespaceFind nsis' idNs = some n := by
  obtain ⟨later, rfl⟩ := hpre
  simp only [namespaceFind] at h ⊢
  rw [List.findIdx?_append, h]
  rfl

theorem namespaceFind_eq_some {idNs : IdNs} {n : ℕ} (h : namespaceFind nsis idNs = some n)
    (hget : nsis[n]? = some ns) : ns.eui64 = idNs.eui64 ∧ ns.nguid = idNs.nguid := by
  simp only [namespaceFind] at h
  obtain ⟨hlt, hp, -⟩ := List.findIdx?_eq_some_iff_getElem.mp h
  obtain rfl : nsis[n] = ns := Option.some.inj ((List.getElem?_eq_getElem hlt).symm.trans hget)
  exact of_decide_eq_true hp

/-- **The two ways to a `namespace_info`**: it is added, or it was there. -/
theorem bindNamespace_cases {reply : EngineReply} {n : ℕ}
    (h : bindNamespace reply nsis job = .ok (nsis', n, ns)) :
    (namespaceFind nsis reply.idNs = none ∧ nsis' = nsis ++ [ns] ∧ n = nsis.length
        ∧ ns.FormatOf reply.idNs ∧ ns.eui64 = reply.idNs.eui64 ∧ ns.nguid = reply.idNs.nguid)
      ∨ (namespaceFind nsis reply.idNs = some n ∧ nsis' = nsis ∧ nsis[n]? = some ns) := by
  simp only [bindNamespace] at h
  split at h
  · rename_i hnone
    obtain ⟨ns₀, hadd, h⟩ := bind_eq_ok.mp h
    obtain ⟨-, h⟩ := ite_error_eq_ok.mp h
    obtain ⟨rfl, rfl, rfl⟩ := pure_eq_ok.mp h
    exact .inl ⟨hnone, rfl, rfl, namespaceAdd_format hadd⟩
  · rename_i m hfind
    split at h
    · cases h
    · rename_i ns' hget
      obtain ⟨-, h⟩ := ite_error_eq_ok.mp h
      obtain ⟨rfl, rfl, rfl⟩ := h
      exact .inr ⟨hfind, rfl, hget⟩

/-- **The namespace of a job** is the one its engine identified first. -/
theorem bindNamespace_spec {n : ℕ} (hknown : Known env idx nsis)
    (h : bindNamespace (env.reply idx) nsis job = .ok (nsis', n, ns)) :
    Known env (idx + 1) nsis' ∧ nsis <+: nsis' ∧ nsis'[n]? = some ns ∧
      ns.Describes (env.reply (env.firstReply idx)).idNs := by
  rcases bindNamespace_cases h with
    ⟨hnone, rfl, rfl, hformat, heui, hnguid⟩ | ⟨hfind, rfl, hget⟩
  · have hd := hformat.toDescribes
    have hfirst : env.firstReply idx = idx := by
      apply ValidateEnv.firstReply_eq_self
      intro k hk hsame
      obtain ⟨m, _, hfind, -⟩ := hknown.find k hk
      rw [namespaceFind_congr hsame, hnone] at hfind
      cases hfind
    have hget : (nsis ++ [ns])[nsis.length]? = some ns := List.getElem?_concat_length ..
    refine ⟨⟨?_, ?_⟩, List.prefix_append _ _, hget, hfirst.symm ▸ hd⟩
    · intro ns' hmem
      rcases List.mem_append.mp hmem with hmem | hmem
      · obtain ⟨k, hk, hids⟩ := hknown.known ns' hmem
        exact ⟨k, Nat.lt_succ_of_lt hk, hids⟩
      · obtain rfl := List.mem_singleton.mp hmem
        exact ⟨idx, Nat.lt_succ_self _, heui, hnguid⟩
    · intro k hk
      rcases Nat.lt_succ_iff_lt_or_eq.mp hk with hk | rfl
      · obtain ⟨m, ns', hfind, hget', hd'⟩ := hknown.find k hk
        refine ⟨m, ns', namespaceFind_of_prefix (List.prefix_append _ _) hfind, ?_, hd'⟩
        exact (List.getElem?_append_left (List.getElem?_eq_some_iff.mp hget').1).trans hget'
      · exact ⟨_, ns, namespaceFind_append_of_none hnone heui hnguid, hget, hfirst.symm ▸ hd⟩
  · obtain ⟨heui, hnguid⟩ := namespaceFind_eq_some hfind hget
    obtain ⟨k, hk, heui', hnguid'⟩ := hknown.known ns (List.mem_of_getElem? hget)
    -- the namespace was bound to job `k` before
    have hsame : (env.reply k).idNs.SameIds (env.reply idx).idNs :=
      ⟨heui'.symm.trans heui, hnguid'.symm.trans hnguid⟩
    obtain ⟨_, _, hfind', hget', hd⟩ := hknown.find k hk
    rw [namespaceFind_congr hsame, hfind] at hfind'
    cases hfind'
    obtain rfl := Option.some.inj (hget'.symm.trans hget)
    rw [ValidateEnv.firstReply_congr hsame] at hd
    refine ⟨⟨?_, ?_⟩, List.prefix_refl _, hget, hd⟩
    · intro ns' hmem
      obtain ⟨j, hj, hids⟩ := hknown.known ns' hmem
      exact ⟨j, Nat.lt_succ_of_lt hj, hids⟩
    · intro j hj
      rcases Nat.lt_succ_iff_lt_or_eq.mp hj with hj | rfl
      · exact hknown.find j hj
      · exact ⟨_, _, hfind, hget, hd⟩

/-- What `validate` has checked of a job, and what it has made of it. -/
structure Validated (env : ValidateEnv) (names : List (List Byte)) (idx : ℕ) (ns : NsInfo)
    (job : JobConfig) (bound : BoundJob) : Prop where
  engine : findEngine env idx job = .ok ()
  describes : ns.Describes (env.reply (env.firstReply idx)).idNs
  iosize : checkIosize ns (fallbackIosize env.bounds job) = .ok ()
  params : ∃ depend, dependencyJobIdx names idx job = .ok depend ∧
    bound.params = (bindParams ns (env.reply idx)
      { fallbackIosize env.bounds job with dependencyJobIdx := depend }).2

theorem fallbackIosize_dependency (bounds : IosizeBounds) (job : JobConfig) :
    (fallbackIosize bounds job).dependency = job.dependency := by
  unfold fallbackIosize
  simp only
  split <;> rfl

/-- What one round of the loop has done. -/
theorem validateJob_ok (h : validateJob env names idx nsis job = .ok (nsis', bound)) :
    ∃ ns depend, findEngine env idx job = .ok () ∧
      bindNamespace (env.reply idx) nsis job = .ok (nsis', bound.nsIdx, ns) ∧
      checkIosize ns (fallbackIosize env.bounds job) = .ok () ∧
      dependencyJobIdx names idx (fallbackIosize env.bounds job) = .ok depend ∧
      bound.params = (bindParams ns (env.reply idx)
        { fallbackIosize env.bounds job with dependencyJobIdx := depend }).2 := by
  simp only [validateJob] at h
  obtain ⟨_, hengine, h⟩ := bind_eq_ok.mp h
  obtain ⟨⟨nsis₁, n, ns⟩, hns, h⟩ := bind_eq_ok.mp h
  obtain ⟨_, hiosize, h⟩ := bind_eq_ok.mp h
  obtain ⟨depend, hdepend, h⟩ := bind_eq_ok.mp h
  obtain ⟨rfl, rfl⟩ := pure_eq_ok.mp h
  exact ⟨ns, depend, hengine, hns, hiosize, hdepend, rfl⟩

/-- The loop has done one round, and the rest. -/
theorem validateFrom_cons_ok {jobs : List JobConfig} {bounds : List BoundJob}
    (h : validateFrom env names idx nsis (job :: jobs) = .ok (nsis', bounds)) :
    ∃ nsis₁ bound bounds', validateJob env names idx nsis job = .ok (nsis₁, bound) ∧
      validateFrom env names (idx + 1) nsis₁ jobs = .ok (nsis', bounds') ∧
      bounds = bound :: bounds' := by
  rw [validateFrom] at h
  obtain ⟨⟨nsis₁, bound⟩, hjob, h⟩ := bind_eq_ok.mp h
  obtain ⟨⟨nsis₂, bounds'⟩, hrest, h⟩ := bind_eq_ok.mp h
  obtain ⟨rfl, rfl⟩ := pure_eq_ok.mp h
  exact ⟨nsis₁, bound, bounds', hjob, hrest, rfl⟩

/-- One round of the loop. -/
theorem validateJob_spec (hknown : Known env idx nsis)
    (h : validateJob env names idx nsis job = .ok (nsis', bound)) :
    ∃ ns, Known env (idx + 1) nsis' ∧ nsis <+: nsis' ∧ nsis'[bound.nsIdx]? = some ns ∧
      Validated env names idx ns job bound := by
  obtain ⟨ns, depend, hengine, hns, hiosize, hdepend, hparams⟩ := validateJob_ok h
  obtain ⟨hknown', hpre, hget, hd⟩ := bindNamespace_spec hknown hns
  refine ⟨ns, hknown', hpre, hget, hengine, hd, hiosize, depend, ?_, hparams⟩
  simp only [dependencyJobIdx] at hdepend ⊢
  rwa [fallbackIosize_dependency] at hdepend

/-- **The loop over the jobs**: each is checked, and bound to a namespace. -/
theorem validateFrom_spec {jobs : List JobConfig} {bounds : List BoundJob}
    (hknown : Known env idx nsis)
    (h : validateFrom env names idx nsis jobs = .ok (nsis', bounds)) :
    nsis <+: nsis' ∧ bounds.length = jobs.length ∧
      ∀ i job bound, jobs[i]? = some job → bounds[i]? = some bound →
        ∃ ns, nsis'[bound.nsIdx]? = some ns ∧ Validated env names (idx + i) ns job bound := by
  induction jobs generalizing idx nsis bounds with
  | nil =>
    cases h
    refine ⟨List.prefix_refl _, rfl, ?_⟩
    intro i job bound hj
    rw [List.getElem?_nil] at hj
    cases hj
  | cons job jobs ih =>
    obtain ⟨nsis₁, bound, bounds', hjob, hrest, rfl⟩ := validateFrom_cons_ok h
    obtain ⟨ns, hknown', hpre, hget, hvalidated⟩ := validateJob_spec hknown hjob
    obtain ⟨hpre', hlength, hjobs⟩ := ih hknown' hrest
    refine ⟨hpre.trans hpre', congrArg (· + 1) hlength, ?_⟩
    intro i
    cases i with
    | zero =>
      rintro _ _ ⟨⟩ ⟨⟩
      obtain ⟨hlt, hns⟩ := List.getElem?_eq_some_iff.mp hget
      exact ⟨ns, hns ▸ List.prefix_iff_getElem?.mp hpre' _ hlt, hvalidated⟩
    | succ i =>
      intro job' bound' hj hb
      rw [Nat.add_comm i 1, ← Nat.add_assoc]
      exact hjobs i job' bound' hj hb

/-- `job_find` finds one of the jobs. -/
theorem jobFindFrom_zero_lt {name : List Byte} {depend : ℕ}
    (h : jobFindFrom names 0 name = some depend) : depend < names.length := by
  simp only [jobFindFrom, List.drop_zero, Nat.zero_add, Option.map_id'] at h
  exact (List.findIdx?_eq_some_iff_getElem.mp h).1

/-- A job depends on one of the jobs. -/
theorem dependencyJobIdx_lt {depend : ℕ} (hidx : idx < names.length)
    (h : dependencyJobIdx names idx job = .ok depend) : depend < names.length := by
  simp only [dependencyJobIdx] at h
  split at h
  · cases h
    exact hidx
  split at h
  · cases h
  rename_i hfind
  obtain ⟨-, h⟩ := ite_error_eq_ok.mp h
  cases h
  exact jobFindFrom_zero_lt hfind

/-- What `validate` has found a job to depend on. -/
theorem Validated.dependency (h : Validated env names idx ns job bound) :
    dependencyJobIdx names idx job = .ok bound.params.dependencyJobIdx := by
  obtain ⟨depend, hdepend, hparams⟩ := h.params
  obtain ⟨_, _, _, heq⟩ := bindParams_eq ns (env.reply idx)
    { fallbackIosize env.bounds job with dependencyJobIdx := depend }
  rw [hdepend, hparams, heq]
  rfl

theorem known_nil (env : ValidateEnv) : Known env 0 [] := ⟨nofun, nofun⟩

/-- **What `validate` has done** when it returns 0. -/
theorem validate_spec {jobs : List JobConfig} {bounds : List BoundJob}
    (h : validate env jobs = .ok (nsis, bounds)) :
    bounds.length = jobs.length ∧
      ∀ i job bound, jobs[i]? = some job → bounds[i]? = some bound →
        ∃ ns, nsis[bound.nsIdx]? = some ns ∧
          Validated env (jobs.map (·.name)) i ns job bound := by
  obtain ⟨-, hlength, hjobs⟩ := validateFrom_spec (known_nil env) h
  refine ⟨hlength, ?_⟩
  intro i job bound hj hb
  rw [← Nat.zero_add i]
  exact hjobs i job bound hj hb

end Spec

/-! ## The range of a job -/

/-- **The range is what was asked for**, and inside the namespace. -/
structure RangeBound (size : ℕ) (job bound : JobConfig) : Prop where
  begin_eq : job.lbaRangeBeginPercentEnable = true →
    bound.lbaRangeBegin.toNat = size * job.lbaRangeBeginPercent.toNat / 100
  size_eq : job.lbaRangeSizePercentEnable = true →
    bound.lbaRangeSize.toNat = size * job.lbaRangeSizePercent.toNat / 100
  le : bound.lbaRangeBegin.toNat + bound.lbaRangeSize.toNat ≤ size
  /-- and so is their sum, in a `u64` -/
  lt : bound.lbaRangeBegin.toNat + bound.lbaRangeSize.toNat < 2 ^ 64

/-- What a begin or a size in percent comes to. -/
def percentOr (size : ℕ) (enable : Bool) (percent : BitVec 7) (value : BitVec 64) : ℕ :=
  if enable then size * percent.toNat / 100 else value.toNat

/-- The parameters name a range that there is. -/
structure RangeFits (size : ℕ) (job : JobConfig) : Prop where
  begin_lt : job.lbaRangeBeginPercentEnable = true → size * job.lbaRangeBeginPercent.toNat < 2 ^ 64
  size_lt : job.lbaRangeSizePercentEnable = true → size * job.lbaRangeSizePercent.toNat < 2 ^ 64
  /-- two percentages are no more than the whole -/
  both : job.lbaRangeBeginPercentEnable = true → job.lbaRangeSizePercentEnable = true →
    size = 0 ∨ job.lbaRangeBeginPercent.toNat + job.lbaRangeSizePercent.toNat ≤ 100
  /-- what is given in bytes leaves room for the rest -/
  bytes : job.lbaRangeBeginPercentEnable = false ∨ job.lbaRangeSizePercentEnable = false →
    percentOr size job.lbaRangeBeginPercentEnable job.lbaRangeBeginPercent job.lbaRangeBegin +
      percentOr size job.lbaRangeSizePercentEnable job.lbaRangeSizePercent job.lbaRangeSize ≤
        min size (2 ^ 64 - 1)

section Range

variable {ns : NsInfo} {idNs : IdNs} {job : JobConfig}

theorem NsInfo.Describes.nsSize (h : ns.Describes idNs) :
    ns.nsSize.toNat = idNs.size % 2 ^ 64 := by
  rw [NsInfo.nsSize, BitVec.toNat_shiftLeft, Nat.shiftLeft_eq, h.nlbs, h.lbaShift, IdNs.size]

/-- There is no namespace between nothing and an LBA. -/
theorem NsInfo.Describes.size_cases (h : ns.Describes idNs) : idNs.size = 0 ∨ 512 ≤ idNs.size := by
  rcases Nat.eq_zero_or_pos idNs.nsze.toNat with hz | hpos
  · left
    rw [IdNs.size, hz, Nat.zero_mul]
  · right
    have hpow : 2 ^ 9 ≤ 2 ^ (idNs.lbads idNs.idx).toNat :=
      Nat.pow_le_pow_right (by decide) (h.lbaShift ▸ ns.nine_le_lbaShift)
    exact Nat.mul_le_mul hpos hpow

/-- A percentage, as it is computed. -/
theorem toNat_percent {size : ℕ} (w : BitVec 64) (hw : w.toNat = size % 2 ^ 64) (p : BitVec 7) :
    (w * p.setWidth 64 / 100).toNat = size * p.toNat % 2 ^ 64 / 100 := by
  have hp : p.toNat % 2 ^ 64 = p.toNat := Nat.mod_eq_of_lt (p.isLt.trans (by decide))
  rw [BitVec.toNat_udiv, BitVec.toNat_mul, BitVec.toNat_setWidth, hp, hw, Nat.mod_mul_mod]
  rfl

/-- It is the exact one as long as the product fits. -/
theorem percent_eq_iff (n : ℕ) : n % 2 ^ 64 / 100 = n / 100 ↔ n < 2 ^ 64 := by omega

/-- Two percentages of a namespace fit if they are no more than the whole. -/
theorem percents_le_iff {size p q : ℕ} (h : size = 0 ∨ 512 ≤ size) :
    size * p / 100 + size * q / 100 ≤ size ↔ size = 0 ∨ p + q ≤ 100 := by
  rcases h with rfl | h
  · simp
  have hadd : size * p + size * q = size * (p + q) := (Nat.mul_add ..).symm
  refine ⟨?_, ?_⟩
  · intro hle
    right
    by_contra hgt
    have hmul : size * 101 ≤ size * (p + q) := Nat.mul_le_mul_left _ (by omega)
    omega
  · intro hle
    have hmul : size * (p + q) ≤ size * 100 := Nat.mul_le_mul_left _ (by omega)
    omega

/-- `bind_params` leaves the range as it resolves it. -/
theorem bindParams_range (ns : NsInfo) (reply : EngineReply) (job : JobConfig) :
    (bindParams ns reply job).2.lbaRangeBegin = (bindRange ns job).lbaRangeBegin ∧
      (bindParams ns reply job).2.lbaRangeSize = (bindRange ns job).lbaRangeSize := by
  obtain ⟨_, _, _, h⟩ := bindParams_eq ns reply job
  rw [h]
  exact ⟨rfl, rfl⟩

/-- A begin or a size, as it is computed. -/
theorem toNat_percentOr {size : ℕ} (w : BitVec 64) (hw : w.toNat = size % 2 ^ 64) (enable : Bool)
    (p : BitVec 7) (v : BitVec 64) (hfits : enable = true → size * p.toNat < 2 ^ 64) :
    (if enable then w * p.setWidth 64 / 100 else v).toNat = percentOr size enable p v := by
  cases enable with
  | false => rfl
  | true =>
    simp only [if_true, percentOr]
    rw [toNat_percent w hw, (percent_eq_iff _).mpr (hfits rfl)]

/-- **Resolving a range** gives what was asked for if the parameters name a range that there
is. -/
theorem bindRange_iff (h : ns.Describes idNs) :
    RangeBound idNs.size job (bindRange ns job) ↔ RangeFits idNs.size job := by
  have hw := h.nsSize
  refine ⟨?_, ?_⟩
  · intro hb
    have hbegin : job.lbaRangeBeginPercentEnable = true →
        idNs.size * job.lbaRangeBeginPercent.toNat < 2 ^ 64 := by
      intro he
      have heq := hb.begin_eq he
      simp only [bindRange, he, if_true] at heq
      rwa [toNat_percent _ hw, percent_eq_iff] at heq
    have hsize : job.lbaRangeSizePercentEnable = true →
        idNs.size * job.lbaRangeSizePercent.toNat < 2 ^ 64 := by
      intro he
      have heq := hb.size_eq he
      simp only [bindRange, he, if_true] at heq
      rwa [toNat_percent _ hw, percent_eq_iff] at heq
    have hle := hb.le
    have hlt := hb.lt
    simp only [bindRange] at hle hlt
    rw [toNat_percentOr _ hw _ _ _ hbegin, toNat_percentOr _ hw _ _ _ hsize] at hle hlt
    refine ⟨hbegin, hsize, ?_, ?_⟩
    · intro he he'
      rw [percentOr, percentOr, if_pos he, if_pos he'] at hle
      exact (percents_le_iff h.size_cases).mp hle
    · intro _
      exact le_min hle (Nat.le_sub_one_of_lt hlt)
  · intro hf
    have hbegin := toNat_percentOr _ hw _ _ job.lbaRangeBegin hf.begin_lt
    have hsize := toNat_percentOr _ hw _ _ job.lbaRangeSize hf.size_lt
    have hsum : percentOr idNs.size job.lbaRangeBeginPercentEnable job.lbaRangeBeginPercent
          job.lbaRangeBegin +
        percentOr idNs.size job.lbaRangeSizePercentEnable job.lbaRangeSizePercent
          job.lbaRangeSize ≤ min idNs.size (2 ^ 64 - 1) := by
      by_cases he : job.lbaRangeBeginPercentEnable = true
      · by_cases he' : job.lbaRangeSizePercentEnable = true
        · have hlt := hf.begin_lt he
          have hlt' := hf.size_lt he'
          have hle := (percents_le_iff h.size_cases).mpr (hf.both he he')
          rw [percentOr, percentOr, if_pos he, if_pos he']
          omega
        · exact hf.bytes (.inr (Bool.eq_false_iff.mpr he'))
      · exact hf.bytes (.inl (Bool.eq_false_iff.mpr he))
    refine ⟨?_, ?_, ?_, ?_⟩
    · intro he
      simp only [bindRange]
      rw [hbegin, percentOr, if_pos he]
    · intro he
      simp only [bindRange]
      rw [hsize, percentOr, if_pos he]
    · simp only [bindRange]
      rw [hbegin, hsize]
      exact hsum.trans (min_le_left ..)
    · simp only [bindRange]
      rw [hbegin, hsize]
      exact Nat.lt_of_le_pred (by decide) (hsum.trans (min_le_right ..))

/-- The range is not touched before it is resolved. -/
theorem fallbackIosize_eq (bounds : IosizeBounds) (job : JobConfig) :
    fallbackIosize bounds job = { job with iosizes := (fallbackIosize bounds job).iosizes } := by
  unfold fallbackIosize
  simp only
  split <;> rfl

/-- The range of a job that `validate` is done with. -/
theorem Validated.range {env : ValidateEnv} {names : List (List Byte)} {idx : ℕ}
    {bound : BoundJob} (h : Validated env names idx ns job bound) :
    RangeBound (env.nsSize idx) job bound.params ↔ RangeFits (env.nsSize idx) job := by
  obtain ⟨depend, -, hparams⟩ := h.params
  obtain ⟨hbegin, hsize⟩ := bindParams_range ns (env.reply idx)
    { fallbackIosize env.bounds job with dependencyJobIdx := depend }
  rw [← hparams, fallbackIosize_eq] at hbegin hsize
  rw [ValidateEnv.nsSize, ← bindRange_iff h.describes]
  refine ⟨?_, ?_⟩
  · rintro ⟨hb, hs, hle, hlt⟩
    rw [hbegin] at hb hle hlt
    rw [hsize] at hs hle hlt
    exact ⟨hb, hs, hle, hlt⟩
  · rintro ⟨hb, hs, hle, hlt⟩
    refine ⟨?_, ?_, ?_, ?_⟩
    · rw [hbegin]
      exact hb
    · rw [hsize]
      exact hs
    · rw [hbegin, hsize]
      exact hle
    · rw [hbegin, hsize]
      exact hlt

/-- **Which ranges are what was asked for**, of jobs that `validate` accepts: those for which the
parameters name a range of the namespace. -/
theorem validate_range_iff {env : ValidateEnv} {jobs : List JobConfig} {nsis : List NsInfo}
    {bounds : List BoundJob} (h : validate env jobs = .ok (nsis, bounds)) :
    (∀ i job bound, jobs[i]? = some job → bounds[i]? = some bound →
        RangeBound (env.nsSize i) job bound.params) ↔
      ∀ i job, jobs[i]? = some job → RangeFits (env.nsSize i) job := by
  obtain ⟨hlength, hjobs⟩ := validate_spec h
  refine ⟨?_, ?_⟩
  · intro hall i job hj
    obtain ⟨hlt, -⟩ := List.getElem?_eq_some_iff.mp hj
    have hb := List.getElem?_eq_getElem (l := bounds) (i := i) (hlength ▸ hlt)
    obtain ⟨ns, -, hvalidated⟩ := hjobs i job _ hj hb
    exact hvalidated.range.mp (hall i job _ hj hb)
  · intro hall i job bound hj hb
    obtain ⟨ns, -, hvalidated⟩ := hjobs i job bound hj hb
    exact hvalidated.range.mpr (hall i job hj)

end Range

/-- What the null engine answers: ten million LBAs of 4096 bytes. -/
def EngineReply.null : EngineReply where
  init := 0
  nsInit := 0
  identify := 0
  idNs :=
    { eui64 := fun _ => 0
      nguid := fun _ => 0
      nsze := 10000000
      flbas := 0
      lbads := fun i => if i = 0 then 12 else 0
      ms := fun _ => 0
      dps := 0 }
  getFeatures := 0
  featureResult := 0

/-- A test on the null engine. -/
def ValidateEnv.null (bounds : IosizeBounds) : ValidateEnv where
  engines := [ascii "null"]
  bounds := bounds
  reply _ := .null

/-- A job of the null engine with a size for its I/O. -/
def JobConfig.plain (iosizeMin iosizeMax : BitVec 64) : JobConfig :=
  { JobConfig.default with
    ioengine := ascii "null"
    iosizes := Function.update (fun _ => .zero) .total
      { iosizeMin := iosizeMin, iosizeMax := iosizeMax, iosizeAlign := 0 } }

/-- `IOSIZE=4096`, the whole namespace. -/
def wholeJob : JobConfig := .plain 4096 4096

/-- `LBA_RANGE=50%:40%` -/
def insideJob : JobConfig :=
  { JobConfig.plain 4096 4096 with
    lbaRangeBeginPercentEnable := true
    lbaRangeBeginPercent := 50
    lbaRangeSizePercent := 40 }

/-- `LBA_RANGE=50%:60%` -/
def beyondJob : JobConfig :=
  { JobConfig.plain 4096 4096 with
    lbaRangeBeginPercentEnable := true
    lbaRangeBeginPercent := 50
    lbaRangeSizePercent := 60 }

theorem size_null : EngineReply.null.idNs.size = 40960000000 := by decide

theorem nsSize_null (bounds : IosizeBounds) : (ValidateEnv.null bounds).nsSize 0 = 40960000000 := by
  rw [ValidateEnv.nsSize, ValidateEnv.firstReply_eq_self fun k hk => absurd hk (Nat.not_lt_zero k)]
  exact size_null

/-- `LBA_RANGE=50%:40%` lies within the namespace, and is the range of the job. -/
theorem validate_range_inside : ∃ nsis bound,
    validate (.null .none) [insideJob] = .ok (nsis, [bound]) ∧
      RangeBound ((ValidateEnv.null .none).nsSize 0) insideJob bound.params := by
  have hfits : RangeFits ((ValidateEnv.null .none).nsSize 0) insideJob := by
    rw [nsSize_null]
    exact ⟨fun _ => by decide, fun _ => by decide, fun _ _ => .inr (by decide), by decide⟩
  have hvalidate : validate (.null .none) [insideJob] = .ok (_, [_]) := rfl
  refine ⟨_, _, hvalidate, (validate_range_iff hvalidate).mpr ?_ 0 insideJob _ rfl rfl⟩
  intro i job hi
  obtain ⟨hlt, rfl⟩ := List.getElem?_eq_some_iff.mp hi
  obtain rfl : i = 0 := Nat.lt_one_iff.mp hlt
  exact hfits

/-- **A range beyond the namespace is accepted**: `bind_params` finds it, and says so to nobody. -/
theorem validate_range_beyond : ∃ nsis ns bound,
    validate (.null .none) [beyondJob] = .ok (nsis, [bound]) ∧ nsis[bound.nsIdx]? = some ns ∧
      (bindParams ns .null beyondJob).1 = -1 ∧
      ¬ RangeBound ((ValidateEnv.null .none).nsSize 0) beyondJob bound.params := by
  refine ⟨_, _, _, rfl, rfl, by decide, ?_⟩
  intro h
  have hle := h.le
  rw [nsSize_null] at hle
  exact absurd hle (by decide)

end ChamberSpo

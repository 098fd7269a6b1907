import ChamberSpo.ConstantBlocks
import ChamberSpo.JobInit
import ChamberSpo.Properties
import ChamberSpo.Validate

/-!
# What LBAs without data may read as

`UNWR_READ` and `DEALLOC_READ` say what reads of unwritten and of deallocated LBAs return.

* `ReadsParsed` — the settings that the parser makes.
* `JobConfig.policies` — what a setting says, once `bind_params` resolved it.
* `ReportedAt` — an LBA that `verify_bio_read` reports.

`policies_of_bound` says that every setting says something, `policiesKept_iff` when the check of a
read does what it says.
-/

namespace ChamberSpo

/-! ## Settings -/

/-- The fields that `UNWR_READ` and `DEALLOC_READ` write. -/
structure SameReads (job job' : JobConfig) : Prop where
  unwrResult : job'.unwrReadResultType = job.unwrReadResultType
  unwrValue : job'.unwrReadValueType = job.unwrReadValueType
  deallocResult : job'.deallocReadResultType = job.deallocReadResultType
  deallocValue : job'.deallocReadValueType = job.deallocReadValueType

/-- A job as the lines of its section leave it, as far as `UNWR_READ` and `DEALLOC_READ` are
concerned. -/
inductive ReadsParsed : JobConfig → Prop
  | default : ReadsParsed .default
  | unwrRead {job job' : JobConfig} (text : List Byte) (before : ReadsParsed job)
      (set : Setter.unwrRead.set text job = .ok job') : ReadsParsed job'
  | deallocRead {job job' : JobConfig} (text : List Byte) (before : ReadsParsed job)
      (set : Setter.deallocRead.set text job = .ok job') : ReadsParsed job'
  | other {job job' : JobConfig} (before : ReadsParsed job) (same : SameReads job job') :
      ReadsParsed job'

/-- What a read of an LBA without data is to return. -/
inductive ReadPolicy where
  | dontcare
  | error
  | value (val : Byte)

/-- What is wrong with data that was read. -/
def ReadPolicy.Reports (data : Buf) (size : ℕ) : ReadPolicy → Prop
  | .dontcare => False
  | .error => True
  | .value val => ∃ i < size, data i ≠ val

/-- The policies of a job. -/
structure ReadPolicies where
  unwritten : ReadPolicy
  dealloc : ReadPolicy

/-- The policy for unwritten LBAs, if it is not left to the device. -/
def JobConfig.unwrPolicy (job : JobConfig) : Option ReadPolicy :=
  match job.unwrReadResultType with
  | .dontcare => some .dontcare
  | .auto => none
  | .error => some .error
  | .value => some (.value job.unwrReadValueType.byte)

/-- The policy for deallocated LBAs, if it is not left to the device. -/
def JobConfig.deallocPolicy (job : JobConfig) : Option ReadPolicy :=
  match job.deallocReadResultType with
  | .dontcare => some .dontcare
  | .auto => none
  | .error => some .error
  | .value => (deallocByte job.deallocReadValueType).map .value

/-- What `UNWR_READ` and `DEALLOC_READ` say. -/
def JobConfig.policies (job : JobConfig) : Option ReadPolicies := do
  return { unwritten := ← job.unwrPolicy, dealloc := ← job.deallocPolicy }

/-- The value of deallocated LBAs is always one of two. -/
theorem ReadsParsed.deallocByte_ne_none {job : JobConfig} (h : ReadsParsed job) :
    deallocByte job.deallocReadValueType ≠ none := by
  induction h with
  | default => decide
  | unwrRead text before set ih =>
    obtain ⟨result, -, hresult⟩ := bind_eq_ok.mp set
    obtain rfl := pure_eq_ok.mp hresult
    cases result <;> exact ih
  | deallocRead text before set ih =>
    obtain ⟨result, -, hresult⟩ := bind_eq_ok.mp set
    obtain rfl := pure_eq_ok.mp hresult
    cases result with
    | dontcare => exact ih
    | auto => exact ih
    | error => exact ih
    | value ones =>
      show deallocByte (if ones then deallocReadValueTypeOnes else deallocReadValueTypeZeroes) ≠ none
      cases ones <;> decide
  | other before same ih =>
    rw [same.deallocValue]
    exact ih

/-! ## Binding -/

section Binding

variable {ns : NsInfo} {reply : EngineReply} {config job : JobConfig}

/-- `bind_params` leaves nothing to the device, and no value changes. -/
theorem bindResultTypes_ok (h : bindResultTypes reply config = (0, job)) :
    job.unwrReadResultType ≠ .auto ∧ job.deallocReadResultType ≠ .auto ∧
      job.deallocReadValueType = config.deallocReadValueType := by
  simp only [bindResultTypes] at h
  split at h
  · split at h
    · rename_i hres
      exact absurd (congrArg Prod.fst h) hres
    · obtain rfl := congrArg Prod.snd h
      refine ⟨?_, ?_, rfl⟩
      · show (if config.unwrReadResultType = .auto then _ else _) ≠ UnwrReadResultType.auto
        by_cases hauto : config.unwrReadResultType = .auto
        · rw [if_pos hauto]
          split <;> simp
        · rw [if_neg hauto]
          exact hauto
      · show (if config.deallocReadResultType = .auto then _ else _) ≠ DeallocReadResultType.auto
        by_cases hauto : config.deallocReadResultType = .auto
        · rw [if_pos hauto]
          split <;> simp
        · rw [if_neg hauto]
          exact hauto
  · rename_i hauto
    obtain rfl := congrArg Prod.snd h
    rw [not_or] at hauto
    exact ⟨hauto.2, hauto.1, rfl⟩

theorem bindParams_reads (h : bindParams ns reply config = (0, job)) :
    job.unwrReadResultType ≠ .auto ∧ job.deallocReadResultType ≠ .auto ∧
      job.deallocReadValueType = config.deallocReadValueType := by
  have hscale : ∀ job : JobConfig,
      (scaleAmount job).deallocReadValueType = job.deallocReadValueType := by
    intro job
    simp only [scaleAmount]
    split <;> rfl
  unfold bindParams at h
  simp only at h
  split at h
  · have hone : (-1 : Int) ≠ 0 := by decide
    exact absurd (congrArg Prod.fst h) hone
  · obtain ⟨hunwr, hdealloc, hvalue⟩ := bindResultTypes_ok h
    rw [hscale] at hvalue
    exact ⟨hunwr, hdealloc, hvalue⟩

/-- **Every setting that the parser makes says something**, once it is bound. -/
theorem policies_of_bound (hparsed : ReadsParsed config)
    (hbind : bindParams ns reply config = (0, job)) :
    ∃ val policies, deallocByte job.deallocReadValueType = some val ∧
      job.policies = some policies := by
  obtain ⟨hunwr, hdealloc, hvalue⟩ := bindParams_reads hbind
  have hne := hparsed.deallocByte_ne_none
  rw [← hvalue] at hne
  obtain ⟨val, hval⟩ := Option.ne_none_iff_exists'.mp hne
  obtain ⟨unwr, hunwr⟩ : ∃ policy, job.unwrPolicy = some policy := by
    rw [JobConfig.unwrPolicy]
    cases htype : job.unwrReadResultType with
    | auto => exact absurd htype hunwr
    | dontcare => exact ⟨_, rfl⟩
    | error => exact ⟨_, rfl⟩
    | value => exact ⟨_, rfl⟩
  obtain ⟨dealloc, hdealloc⟩ : ∃ policy, job.deallocPolicy = some policy := by
    rw [JobConfig.deallocPolicy]
    cases htype : job.deallocReadResultType with
    | auto => exact absurd htype hdealloc
    | dontcare => exact ⟨_, rfl⟩
    | error => exact ⟨_, rfl⟩
    | value =>
      rw [hval]
      exact ⟨_, rfl⟩
  refine ⟨val, ⟨unwr, dealloc⟩, hval, ?_⟩
  rw [JobConfig.policies, hunwr, hdealloc]
  rfl

end Binding

/-! ## Reports -/

/-- `verify_bio_read` has something to say about an LBA. -/
def ReportedAt (iover : Iover) (params : JobParams) (bio : Bio) (lbaOffset : ℕ) : Prop :=
  verifyBioReadStep iover params bio 0 lbaOffset ≠ 0

/-- **What is reported is what the policies say.** -/
structure PoliciesKept (iover : Iover) (params : JobParams) (bio : Bio) (policies : ReadPolicies)
    (lbaOffset : ℕ) : Prop where
  unwritten : (iover.blockDesc (bio.slba + lbaOffset)).state = .unwritten →
    (ReportedAt iover params bio lbaOffset ↔
      policies.unwritten.Reports (blockData iover bio lbaOffset) iover.ns.dataSize)
  dealloc : (iover.blockDesc (bio.slba + lbaOffset)).state = .dealloc →
    (ReportedAt iover params bio lbaOffset ↔
      policies.dealloc.Reports (blockData iover bio lbaOffset) iover.ns.dataSize)

/-- The reads of unwritten LBAs for which the check does what the policy says: an error is never
asked for, and a value is recognized by the bytes that are looked at. -/
def UnwrAgrees (iover : Iover) (params : JobParams) (bio : Bio) (lbaOffset : ℕ) :
    ReadPolicy → Prop
  | .dontcare => True
  | .error => False
  | .value val =>
    overlapSkips params bio lbaOffset = true ∨ UnwrLooks iover params bio lbaOffset ↔
      AllBytes (blockData iover bio lbaOffset) val iover.ns.dataSize

/-- The reads of deallocated LBAs for which the check does what the policy says. Whatever the
policy is, the first byte is compared with the value that is configured. -/
def DeallocAgrees (iover : Iover) (params : JobParams) (bio : Bio) (lbaOffset : ℕ) :
    ReadPolicy → Prop
  | .dontcare => overlapSkips params bio lbaOffset = true ∨
      deallocByte params.deallocReadValueType = some (blockData iover bio lbaOffset 0)
  | .error => overlapSkips params bio lbaOffset = false ∧
      deallocByte params.deallocReadValueType ≠ some (blockData iover bio lbaOffset 0)
  | .value val =>
    overlapSkips params bio lbaOffset = true ∨ blockData iover bio lbaOffset 0 = val →
      AllBytes (blockData iover bio lbaOffset) val iover.ns.dataSize

section Reports

variable {iover : Iover} {params : JobParams} {bio : Bio} {lbaOffset : ℕ}

/-- A turn of the loop reports for good. -/
theorem verifyBioReadStep_ne_zero_iff {finalRes : Int} :
    verifyBioReadStep iover params bio finalRes lbaOffset ≠ 0 ↔
      finalRes ≠ 0 ∨ ReportedAt iover params bio lbaOffset := by
  simp only [ReportedAt, verifyBioReadStep]
  by_cases hskip : overlapSkips params bio lbaOffset = true
  · simp only [if_pos hskip, ne_eq, not_true_eq_false, or_false]
  · simp only [if_neg hskip]
    cases (iover.blockDesc (bio.slba + lbaOffset)).state with
    | unwritten => simp only [accumulate_ne_zero_iff, ne_eq, not_true_eq_false, false_or]
    | dealloc => simp only [accumulate_ne_zero_iff, ne_eq, not_true_eq_false, false_or]
    | data => simp only [accumulate_ne_zero_iff, ne_eq, not_true_eq_false, false_or]
    | uncor => simp only [ne_eq, not_true_eq_false, or_false]
    | zeroes => simp only [ne_eq, not_true_eq_false, or_false]
    | undef k => simp only [ne_eq, not_true_eq_false, or_false]

theorem foldl_verifyBioReadStep_ne_zero_iff (offsets : List ℕ) (finalRes : Int) :
    offsets.foldl (verifyBioReadStep iover params bio) finalRes ≠ 0 ↔
      finalRes ≠ 0 ∨ ∃ o ∈ offsets, ReportedAt iover params bio o := by
  induction offsets generalizing finalRes with
  | nil => simp
  | cons o offsets ih =>
    rw [List.foldl_cons, ih, verifyBioReadStep_ne_zero_iff, or_assoc]
    simp only [List.mem_cons, exists_eq_or_imp]

/-- A read is refused when one of its LBAs is reported. -/
theorem verifyBioRead_ne_zero_iff_reported :
    verifyBioRead iover params bio ≠ 0 ↔ ∃ o < bio.nlbs, ReportedAt iover params bio o := by
  rw [verifyBioRead, foldl_verifyBioReadStep_ne_zero_iff]
  simp only [ne_eq, not_true_eq_false, false_or, List.mem_range]

/-- What is not skipped is checked. -/
theorem reportedAt_iff_of_check {check : Int}
    (hstep : overlapSkips params bio lbaOffset ≠ true →
      verifyBioReadStep iover params bio 0 lbaOffset = accumulate 0 check) :
    ReportedAt iover params bio lbaOffset ↔
      ¬ (overlapSkips params bio lbaOffset = true ∨ check = 0) := by
  rw [ReportedAt, not_or]
  by_cases hskip : overlapSkips params bio lbaOffset = true
  · rw [verifyBioReadStep, if_pos hskip]
    simp [hskip]
  · rw [hstep hskip, accumulate_ne_zero_iff]
    simp [hskip]

theorem reportedAt_unwritten_iff
    (hstate : (iover.blockDesc (bio.slba + lbaOffset)).state = .unwritten) :
    ReportedAt iover params bio lbaOffset ↔ ¬ (overlapSkips params bio lbaOffset = true ∨
      verifyUnwrittenBlock iover params bio lbaOffset = 0) := by
  refine reportedAt_iff_of_check ?_
  intro hskip
  rw [verifyBioReadStep, if_neg hskip]
  simp only [hstate]

theorem reportedAt_dealloc_iff {val : Byte}
    (hval : deallocByte params.deallocReadValueType = some val)
    (hstate : (iover.blockDesc (bio.slba + lbaOffset)).state = .dealloc) :
    ReportedAt iover params bio lbaOffset ↔
      ¬ (overlapSkips params bio lbaOffset = true ∨ blockData iover bio lbaOffset 0 = val) := by
  have hcheck : (verifyDeallocBlock iover params bio lbaOffset
      (iover.blockDesc (bio.slba + lbaOffset))).1 = 0 ↔ blockData iover bio lbaOffset 0 = val :=
    verifyDeallocBlock_eq_zero_iff hval
  rw [← hcheck]
  refine reportedAt_iff_of_check ?_
  intro hskip
  rw [verifyBioReadStep, if_neg hskip]
  simp only [hstate]

/-- Data that a value has reported. -/
theorem reports_value_iff {data : Buf} {val : Byte} {size : ℕ} :
    (ReadPolicy.value val).Reports data size ↔ ¬ AllBytes data val size := by
  rw [ReadPolicy.Reports, AllBytes]
  push Not
  exact Iff.rfl

/-- An unwritten LBA is reported as its policy says. -/
theorem unwritten_kept_iff {config : JobConfig} {beyond : Beyond} {policy : ReadPolicy}
    (hpolicy : config.unwrPolicy = some policy)
    (hstate : (iover.blockDesc (bio.slba + lbaOffset)).state = .unwritten) :
    (ReportedAt iover (config.jobParams beyond) bio lbaOffset ↔
        policy.Reports (blockData iover bio lbaOffset) iover.ns.dataSize) ↔
      UnwrAgrees iover (config.jobParams beyond) bio lbaOffset policy := by
  rw [reportedAt_unwritten_iff hstate]
  -- without a value the check accepts everything
  have hother : config.unwrReadResultType ≠ .value →
      verifyUnwrittenBlock iover (config.jobParams beyond) bio lbaOffset = 0 := by
    intro h
    rw [verifyUnwrittenBlock]
    exact if_neg h
  rw [JobConfig.unwrPolicy] at hpolicy
  cases htype : config.unwrReadResultType with
  | auto =>
    rw [htype] at hpolicy
    cases hpolicy
  | dontcare =>
    rw [htype] at hpolicy
    obtain rfl := Option.some.inj hpolicy
    simp [ReadPolicy.Reports, UnwrAgrees, hother (by rw [htype]; decide)]
  | error =>
    rw [htype] at hpolicy
    obtain rfl := Option.some.inj hpolicy
    simp [ReadPolicy.Reports, UnwrAgrees, hother (by rw [htype]; decide)]
  | value =>
    rw [htype] at hpolicy
    obtain rfl := Option.some.inj hpolicy
    rw [verifyUnwrittenBlock_eq_zero_iff (show (config.jobParams beyond).unwrReadResultType = .value
      from htype), reports_value_iff, not_iff_not]
    exact Iff.rfl

/-- A deallocated LBA is reported as its policy says. -/
theorem dealloc_kept_iff {config : JobConfig} {beyond : Beyond} {policy : ReadPolicy} {val : Byte}
    (hval : deallocByte config.deallocReadValueType = some val)
    (hpolicy : config.deallocPolicy = some policy)
    (hstate : (iover.blockDesc (bio.slba + lbaOffset)).state = .dealloc) :
    (ReportedAt iover (config.jobParams beyond) bio lbaOffset ↔
        policy.Reports (blockData iover bio lbaOffset) iover.ns.dataSize) ↔
      DeallocAgrees iover (config.jobParams beyond) bio lbaOffset policy := by
  have hparams : deallocByte (config.jobParams beyond).deallocReadValueType = some val := hval
  have hfirst : some val = some (blockData iover bio lbaOffset 0) ↔
      blockData iover bio lbaOffset 0 = val := by
    rw [Option.some.injEq]
    exact eq_comm
  rw [reportedAt_dealloc_iff hparams hstate]
  rw [JobConfig.deallocPolicy] at hpolicy
  cases htype : config.deallocReadResultType with
  | auto =>
    rw [htype] at hpolicy
    cases hpolicy
  | dontcare =>
    rw [htype] at hpolicy
    obtain rfl := Option.some.inj hpolicy
    rw [DeallocAgrees, hparams, hfirst, ReadPolicy.Reports, iff_false, not_not]
  | error =>
    rw [htype] at hpolicy
    obtain rfl := Option.some.inj hpolicy
    rw [DeallocAgrees, hparams, Ne, hfirst, ReadPolicy.Reports, iff_true, not_or,
      Bool.not_eq_true]
  | value =>
    rw [htype, hval] at hpolicy
    obtain rfl := Option.some.inj hpolicy
    rw [DeallocAgrees, reports_value_iff, not_iff_not]
    -- bytes that are all right begin with one that is
    have hall : AllBytes (blockData iover bio lbaOffset) val iover.ns.dataSize →
        overlapSkips (config.jobParams beyond) bio lbaOffset = true ∨
          blockData iover bio lbaOffset 0 = val :=
      fun h => Or.inr (h.first (dataSize_ne_zero iover))
    exact ⟨fun h => h.mp, fun h => ⟨h, hall⟩⟩

end Reports

/-- **When the policies are kept**: an LBA that a read covers is reported by the policy of its
state exactly if, for an unwritten one, the policy is no error, and a value shows in the bytes
that are looked at; for a deallocated one, the first byte agrees with the value that is configured
exactly when the policy accepts the data. -/
theorem policiesKept_iff {ns : NsInfo} {reply : EngineReply} {config job : JobConfig}
    (iover : Iover) (beyond : Beyond) (bio : Bio) (hparsed : ReadsParsed config)
    (hbind : bindParams ns reply config = (0, job)) :
    ∃ policies, job.policies = some policies ∧
      (verifyBioRead iover (job.jobParams beyond) bio ≠ 0 ↔
        ∃ o < bio.nlbs, ReportedAt iover (job.jobParams beyond) bio o) ∧
      ∀ o, PoliciesKept iover (job.jobParams beyond) bio policies o ↔
        ((iover.blockDesc (bio.slba + o)).state = .unwritten →
            UnwrAgrees iover (job.jobParams beyond) bio o policies.unwritten) ∧
        ((iover.blockDesc (bio.slba + o)).state = .dealloc →
            DeallocAgrees iover (job.jobParams beyond) bio o policies.dealloc) := by
  obtain ⟨val, policies, hval, hpolicies⟩ := policies_of_bound hparsed hbind
  obtain ⟨unwr, hunwr, hrest⟩ := Option.bind_eq_some_iff.mp hpolicies
  obtain ⟨dealloc, hdealloc, hsome⟩ := Option.bind_eq_some_iff.mp hrest
  obtain rfl := Option.some.inj hsome
  refine ⟨⟨unwr, dealloc⟩, hpolicies, verifyBioRead_ne_zero_iff_reported, ?_⟩
  intro o
  refine ⟨?_, ?_⟩
  · intro h
    exact ⟨fun hs => (unwritten_kept_iff hunwr hs).mp (h.unwritten hs),
      fun hs => (dealloc_kept_iff hval hdealloc hs).mp (h.dealloc hs)⟩
  · intro h
    exact ⟨fun hs => (unwritten_kept_iff hunwr hs).mpr (h.1 hs),
      fun hs => (dealloc_kept_iff hval hdealloc hs).mpr (h.2 hs)⟩

/-! ## Jobs of the null engine -/

/-- The namespace of the null engine, as `bind_params` sees it. -/
def NsInfo.null : NsInfo where
  eui64 _ := 0
  nguid _ := 0
  journalFile := none
  journalFileMmap := false
  journalShm := 0
  dataSize := 4096
  metaSize := 0
  blockSize := 4096
  extendedLba := false
  nlbs := 10000000
  lbaShift := 12
  piType := 0
  piLoc := false
  nhist := 0
  nine_le_lbaShift := NamespaceInfo.null.nine_le_lbaShift
  dataSize_eq := NamespaceInfo.null.dataSize_eq

/-- What `bind_params` makes of a job of the null engine. -/
def nullBound (config : JobConfig) : JobConfig := (bindParams .null .null config).2

/-- `DEALLOC_READ=DONTCARE` -/
def dontcareJob : JobConfig := ReadResult.putDeallocRead .dontcare .default

/-- `UNWR_READ=ERROR` -/
def errorJob : JobConfig := ReadResult.putUnwrRead .error .default

/-- `DEALLOC_READ=VALUE:1` -/
def onesJob : JobConfig := ReadResult.putDeallocRead (.value true) .default

/-- A read of zeroes. -/
def zeroesRead : Bio := .plain .read 0 1 fun _ => 0

/-- A deallocated LBA that is to read as ones, and reads as zeroes, is reported. -/
theorem policiesKept_ones : ∃ policies, (nullBound onesJob).policies = some policies ∧
    PoliciesKept (.plain ⟨0, .dealloc, 0, 0⟩) ((nullBound onesJob).jobParams .zero) zeroesRead
      policies 0 ∧
    verifyBioRead (.plain ⟨0, .dealloc, 0, 0⟩) ((nullBound onesJob).jobParams .zero) zeroesRead
      ≠ 0 := by
  have hset : Setter.deallocRead.set (ascii "VALUE:1") .default = .ok onesJob := rfl
  have hbind : bindParams .null .null onesJob = (0, nullBound onesJob) := rfl
  obtain ⟨policies, hpolicies, hread, hagrees⟩ :=
    policiesKept_iff (.plain ⟨0, .dealloc, 0, 0⟩) .zero zeroesRead (.deallocRead _ .default hset) hbind
  have hvalue : policies.dealloc = .value 0xFF :=
    congrArg ReadPolicies.dealloc (Option.some.inj (hpolicies.symm.trans rfl))
  have hfirst : blockData (.plain ⟨0, .dealloc, 0, 0⟩) zeroesRead 0 0 = 0 := by
    rw [zeroesRead, blockData_plain]
  have hkept : PoliciesKept (.plain ⟨0, .dealloc, 0, 0⟩) ((nullBound onesJob).jobParams .zero)
      zeroesRead policies 0 := by
    refine (hagrees 0).mpr ⟨fun hstate => absurd hstate (by decide), fun _ => ?_⟩
    rw [hvalue, DeallocAgrees, hfirst]
    rintro (hskip | hlooks)
    · exact absurd hskip (by decide)
    · exact absurd hlooks (by decide)
  refine ⟨policies, hpolicies, hkept, hread.mpr ⟨0, Nat.zero_lt_one, (hkept.dealloc rfl).mpr ?_⟩⟩
  rw [hvalue]
  exact ⟨0, by decide, by rw [hfirst]; decide⟩

/-- **What is don't care is reported, and what is to be an error is not.** -/
theorem not_policiesKept_dontcare :
    Setter.deallocRead.set (ascii "DONTCARE") .default = .ok dontcareJob ∧
    Setter.unwrRead.set (ascii "ERROR") .default = .ok errorJob ∧
    bindParams .null .null dontcareJob = (0, nullBound dontcareJob) ∧
    bindParams .null .null errorJob = (0, nullBound errorJob) ∧
    (∃ policies, (nullBound dontcareJob).policies = some policies ∧
      ¬ PoliciesKept (.plain ⟨0, .dealloc, 0, 0⟩) ((nullBound dontcareJob).jobParams .zero)
        (.plain .read 0 1 fun _ => 0x00) policies 0) ∧
    ∃ policies, (nullBound errorJob).policies = some policies ∧
      ¬ PoliciesKept (.plain ⟨0, .unwritten, 0, 0⟩) ((nullBound errorJob).jobParams .zero)
        (.plain .read 0 1 fun _ => 0x00) policies 0 := by
  refine ⟨rfl, rfl, rfl, rfl, ⟨_, rfl, ?_⟩, ⟨_, rfl, ?_⟩⟩
  · intro h
    have hval : deallocByte ((nullBound dontcareJob).jobParams .zero).deallocReadValueType
        = some 0xFF := rfl
    refine (h.dealloc rfl).mp ((reportedAt_dealloc_iff hval rfl).mpr ?_)
    intro hor
    rw [blockData_plain] at hor
    obtain hskip | hfirst := hor
    · exact absurd hskip (by decide)
    · exact absurd hfirst (by decide)
  · intro h
    have hreported := (h.unwritten rfl).mpr trivial
    exact (reportedAt_unwritten_iff rfl).mp hreported (Or.inr rfl)

end ChamberSpo

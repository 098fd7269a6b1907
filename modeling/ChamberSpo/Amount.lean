import ChamberSpo.ReadPolicy
import ChamberSpo.Sections

/-!
# The amount of a job

What the `AMOUNT` lines of a job come to once `bind_params` has resolved percentages.

* `amountOf` — what an `AMOUNT` line says; other lines leave the amount alone (`jobStep_amounts`).
* `AmountInForce` — an amount is that of a line, resolved and scaled.
* `amountInForce_iff` — when it is that of the last line.

`parse_amount` does not take back the flag of a percentage, and `bind_params` writes the union of
the amounts whenever it is set.
-/

namespace ChamberSpo

/-! ## Lines -/

/-- What an `AMOUNT` line says. -/
def amountOf : HandlerCall → Option AmountValue
  | .propertyDefined key value =>
    if tokenStrupr key = ascii "AMOUNT" then (parseAmount (tokenStrupr value)).toOption else none
  | _ => none

/-- The amounts of some lines. -/
def amountsOf (calls : List HandlerCall) : List AmountValue := calls.filterMap amountOf

/-- What `AMOUNT` lines write. -/
structure AmountFields where
  amountType : AmountType
  amount : BitVec 64
  percentEnabled : Bool
  percent : BitVec 7

/-- The amount of a job, as it stands before `bind_params`. -/
def JobConfig.amountFields (job : JobConfig) : AmountFields where
  amountType := job.amountType
  amount := job.amount
  percentEnabled := job.amountBytesPercentEnabled
  percent := job.amountBytesPercent

/-- A property that is not the amount. -/
def Property.KeepsAmount (property : Property) : Prop :=
  ∀ x job job', property.set x job = .ok job' → job'.amountFields = job.amountFields

/-- A value that is read, and written to something else. -/
theorem keepsAmount_value {α : Type} {setter : Setter} {parse : List Byte → Except HandlerError α}
    {put : α → JobConfig → JobConfig}
    (hset : ∀ text job, setter.set text job = do return put (← parse text) job)
    (hput : ∀ x job, (put x job).amountFields = job.amountFields) :
    (Property.value setter).KeepsAmount := by
  intro text job job' h
  obtain ⟨x, -, hx⟩ := bind_eq_ok.mp ((hset text job).symm.trans h)
  obtain rfl := pure_eq_ok.mp hx
  exact hput x job

theorem keepsAmount_text (field : JobText) : (Property.text field).KeepsAmount := by
  intro x job job' h
  obtain ⟨-, hrest⟩ := ite_error_eq_ok.mp h
  obtain ⟨-, hok⟩ := ite_error_eq_ok.mp hrest
  obtain rfl := Except.ok.inj hok
  rfl

theorem keepsAmount_iosize (op : IosizeOpcode) : (Property.iosize op).KeepsAmount := by
  intro x job job' h
  obtain ⟨sizes, -, hok⟩ := bind_eq_ok.mp h
  obtain rfl := pure_eq_ok.mp hok
  rfl

theorem keepsAmount_shared (set : List Byte → GlobalParams → Except HandlerError GlobalParams) :
    (Property.shared set).KeepsAmount := by
  intro x job job' h
  obtain rfl := Except.ok.inj h
  rfl

theorem keepsAmount_journalShm : (Property.value .journalShm).KeepsAmount := by
  intro x job job' h
  obtain ⟨-, hrest⟩ := ite_error_eq_ok.mp h
  obtain ⟨v, -, hv⟩ := bind_eq_ok.mp hrest
  obtain rfl := pure_eq_ok.mp hv
  rfl

theorem keepsAmount_slba : (Property.value .slba).KeepsAmount := by
  refine keepsAmount_value (fun _ _ => rfl) ?_
  intro value job
  cases value <;> rfl

theorem keepsAmount_lbaRange : (Property.value .lbaRange).KeepsAmount := by
  refine keepsAmount_value (fun _ _ => rfl) ?_
  intro range job
  obtain ⟨begin, size⟩ := range
  cases begin <;> cases size <;> rfl

theorem keepsAmount_unwrRead : (Property.value .unwrRead).KeepsAmount := by
  refine keepsAmount_value (fun _ _ => rfl) ?_
  intro result job
  cases result <;> rfl

theorem keepsAmount_deallocRead : (Property.value .deallocRead).KeepsAmount := by
  refine keepsAmount_value (fun _ _ => rfl) fun result job => ?_
  cases result <;> rfl

/-- Of all the properties, `AMOUNT` alone writes the amount. -/
theorem keepsAmount_of_mem : ∀ entry ∈ properties, entry = ("AMOUNT", .value .amount) ∨
    ascii entry.1 ≠ ascii "AMOUNT" ∧ entry.2.KeepsAmount := by
  simp only [properties, conversions, List.map_cons, List.map_nil, Prod.map, id_eq,
    Conversion.property, List.forall_mem_cons]
  and_intros
  all_goals
    first
    | exact .inl trivial
    | exact List.forall_mem_nil _
    | refine .inr ⟨by decide, ?_⟩
  all_goals
    first
    | with_reducible exact keepsAmount_text _
    | with_reducible exact keepsAmount_iosize _
    | with_reducible exact keepsAmount_journalShm
    | with_reducible exact keepsAmount_slba
    | with_reducible exact keepsAmount_lbaRange
    | with_reducible exact keepsAmount_unwrRead
    | with_reducible exact keepsAmount_deallocRead
    | exact keepsAmount_value (fun _ _ => rfl) fun _ _ => rfl
    | exact keepsAmount_shared _

theorem propertyOf_eq_some {key : List Byte} {property : Property}
    (h : propertyOf key = some property) :
    ∃ name, (name, property) ∈ properties ∧ ascii name = tokenStrupr key := by
  obtain ⟨entry, hfind, rfl⟩ := Option.map_eq_some_iff.mp h
  have hbeq := List.find?_some hfind
  exact ⟨entry.1, List.mem_of_find?_eq_some hfind, eq_of_beq hbeq⟩

/-- **A line**: an `AMOUNT` line writes its amount, and the others leave it alone. -/
theorem jobStep_amountFields {job job' : JobConfig} {call : HandlerCall}
    (h : jobStep job call = .ok job') :
    job'.amountFields = match amountOf call with
      | some amount => (amount.put job).amountFields
      | none => job.amountFields := by
  cases call with
  | sectionDefined name =>
    obtain rfl := jobStep_section h
    rfl
  | envRefered key reference => cases h
  | propertyDefined key value =>
    obtain ⟨property, hkey, hset⟩ := jobStep_property.mp h
    obtain ⟨name, hmem, hname⟩ := propertyOf_eq_some hkey
    rw [amountOf, ← hname]
    rcases keepsAmount_of_mem _ hmem with hentry | ⟨hne, hkeeps⟩
    · obtain ⟨rfl, rfl⟩ := Prod.mk.inj hentry
      obtain ⟨amount, hparse, hok⟩ := bind_eq_ok.mp hset
      obtain rfl := pure_eq_ok.mp hok
      rw [if_pos rfl, hparse]
      rfl
    · rw [if_neg hne]
      exact hkeeps _ _ _ hset

/-! ## Amounts -/

namespace AmountValue

/-- The type of an amount. -/
def type : AmountValue → AmountType
  | .infinite => .infinite
  | .time _ => .time
  | .io _ => .io
  | .percent _ | .bytes _ => .byte

/-- A percentage. -/
def percent? : AmountValue → Option (BitVec 7)
  | .percent x => some x
  | .infinite | .time _ | .io _ | .bytes _ => none

/-- What an amount is in a range. -/
def resolve (rangeSize : BitVec 64) : AmountValue → BitVec 64
  | .infinite => 0
  | .time x | .io x | .bytes x => x
  | .percent x => rangeSize * x.setWidth 64 / 100

/-- What an amount that is not a percentage writes to the union. -/
def direct? : AmountValue → Option (BitVec 64)
  | .time x | .io x | .bytes x => some x
  | .infinite | .percent _ => none

end AmountValue

/-- What the lines of a job leave in a field of the amount. -/
theorem ownJob_amountFields {α : Type} (get : AmountFields → α) (said : AmountValue → Option α)
    (hput : ∀ amount job, get (AmountValue.put amount job).amountFields =
      (said amount).getD (get job.amountFields))
    {calls : List HandlerCall} {job : JobConfig} (h : ownJob calls = .ok job) :
    get job.amountFields =
      ((amountsOf calls).filterMap said).getLast?.getD (get JobConfig.default.amountFields) := by
  rw [amountsOf, List.filterMap_filterMap]
  refine foldlM_last (fun job => get job.amountFields) (fun hcall => ?_) h
  rw [jobStep_amountFields hcall]
  split
  · rename_i amount hamount
    rw [hput, hamount]
    rfl
  · rename_i hnone
    rw [hnone]
    rfl

theorem getLast?_filterMap_concat {α β : Type} (f : α → Option β) (xs : List α) (x : α) :
    ((xs ++ [x]).filterMap f).getLast? = (f x).or (xs.filterMap f).getLast? := by
  rw [List.filterMap_append, List.getLast?_append]
  cases hx : f x with
  | none => rw [List.filterMap_cons_none hx, List.filterMap_nil, List.getLast?_nil]
  | some y =>
    rw [List.filterMap_cons_some hx, List.filterMap_nil, List.getLast?_singleton]

/-- The percentage that was written last. -/
def percentOf (earlier : List AmountValue) (last : AmountValue) : Option (BitVec 7) :=
  last.percent?.or (earlier.filterMap (·.percent?)).getLast?

/-- The fields of the amount after some amounts. -/
structure AmountFields.After (fields : AmountFields) (earlier : List AmountValue)
    (last : AmountValue) : Prop where
  amountType : fields.amountType = last.type
  amount : ∀ x, last.direct? = some x → fields.amount = x
  percentEnabled : fields.percentEnabled = (percentOf earlier last).isSome
  percent : ∀ x, percentOf earlier last = some x → fields.percent = x

theorem amountFields_after {calls : List HandlerCall} {job : JobConfig}
    (h : ownJob calls = .ok job) {earlier : List AmountValue} {last : AmountValue}
    (hamounts : amountsOf calls = earlier ++ [last]) : job.amountFields.After earlier last := by
  refine ⟨?_, ?_, ?_, ?_⟩
  · have htype := ownJob_amountFields (·.amountType) (fun amount => some amount.type)
      (fun amount job => by cases amount <;> rfl) h
    rw [hamounts, getLast?_filterMap_concat] at htype
    exact htype
  · intro x hx
    have hamount := ownJob_amountFields (·.amount) (·.direct?)
      (fun amount job => by cases amount <;> rfl) h
    rw [hamounts, getLast?_filterMap_concat, hx] at hamount
    exact hamount
  · have henabled := ownJob_amountFields (·.percentEnabled)
      (fun amount => amount.percent?.map fun _ => true)
      (fun amount job => by cases amount <;> rfl) h
    rw [hamounts, getLast?_filterMap_concat] at henabled
    rw [henabled, percentOf]
    cases last.percent? with
    | some x => rfl
    | none =>
      rw [Option.map_none, Option.none_or, Option.none_or, ← List.map_filterMap,
        List.getLast?_map]
      cases (earlier.filterMap (·.percent?)).getLast? <;> rfl
  · intro x hx
    have hpercent := ownJob_amountFields (·.percent) (·.percent?)
      (fun amount job => by cases amount <;> rfl) h
    rw [hamounts, getLast?_filterMap_concat] at hpercent
    rw [hpercent]
    exact congrArg (Option.getD · _) hx

/-! ## What is in force -/

/-- The amount of a job is that of a line, in the range of the job and scaled. -/
structure AmountInForce (last : AmountValue) (job : JobConfig) : Prop where
  amountType : job.amountType = last.type
  amount : last.type ≠ .infinite →
    job.amount = last.resolve job.lbaRangeSize * job.amountScale.setWidth 64

/-- Whether the range of a job is in its namespace, as `bind_params` sees it. -/
def RangeInside (ns : NsInfo) (job : JobConfig) : Prop :=
  ¬ ns.nsSize < (bindRange ns job).lbaRangeBegin + (bindRange ns job).lbaRangeSize

instance (ns : NsInfo) (job : JobConfig) : Decidable (RangeInside ns job) :=
  inferInstanceAs (Decidable (¬ _))

/-- What an amount is multiplied by. -/
def scaleOf (ns : NsInfo) (job : JobConfig) : BitVec 64 :=
  if RangeInside ns job then job.amountScale.setWidth 64 else 1

/-- When the last line wins: it has no amount, or no percentage was written after which it is not
one itself, or that percentage is the same amount; and the range is in the namespace, or the scale
changes nothing. -/
def LastWins (ns : NsInfo) (job : JobConfig) (earlier : List AmountValue) (last : AmountValue) :
    Prop :=
  last.type = .infinite ∨
    ((percentOf earlier last).elim last .percent).resolve (bindRange ns job).lbaRangeSize *
        scaleOf ns job =
      last.resolve (bindRange ns job).lbaRangeSize * job.amountScale.setWidth 64

theorem bindResultTypes_amount (reply : EngineReply) (job : JobConfig) :
    (bindResultTypes reply job).2.amountFields = job.amountFields := by
  simp only [bindResultTypes]
  split
  · split <;> rfl
  · rfl

/-- What `bind_params` resolves: the percentage that was written last. -/
theorem bindRange_amount (ns : NsInfo) {job : JobConfig} {earlier : List AmountValue}
    {last : AmountValue} (h : job.amountFields.After earlier last) (htype : last.type ≠ .infinite) :
    (bindRange ns job).amount =
      ((percentOf earlier last).elim last .percent).resolve (bindRange ns job).lbaRangeSize := by
  have henabled : job.amountBytesPercentEnabled = (percentOf earlier last).isSome :=
    h.percentEnabled
  have hbind : (bindRange ns job).amount = if job.amountBytesPercentEnabled then
      (bindRange ns job).lbaRangeSize * job.amountBytesPercent.setWidth 64 / 100
    else job.amount := rfl
  rw [hbind, henabled]
  cases hpercent : percentOf earlier last with
  | some x =>
    have hx : job.amountBytesPercent = x := h.percent x hpercent
    rw [hx]
    rfl
  | none =>
    have hnone : last.percent? = none := (Option.or_eq_none_iff.mp hpercent).1
    -- neither a percentage nor without an amount
    have hamount : ∀ x, last.direct? = some x → job.amount = x := h.amount
    cases last with
    | infinite => exact absurd rfl htype
    | percent x => cases hnone
    | time x => exact hamount x rfl
    | io x => exact hamount x rfl
    | bytes x => exact hamount x rfl

/-- What `bind_params` makes of the amount. -/
theorem bindParams_amount (ns : NsInfo) (reply : EngineReply) {job : JobConfig}
    {earlier : List AmountValue} {last : AmountValue} (h : job.amountFields.After earlier last) :
    (bindParams ns reply job).2.amountType = last.type ∧
      (last.type ≠ .infinite → (bindParams ns reply job).2.amount =
        ((percentOf earlier last).elim last .percent).resolve (bindRange ns job).lbaRangeSize *
          scaleOf ns job) := by
  have htype : job.amountType = last.type := h.amountType
  have hscaled : ∀ job : JobConfig, (scaleAmount job).amountType = job.amountType ∧
      (job.amountType ≠ .infinite →
        (scaleAmount job).amount = job.amount * job.amountScale.setWidth 64) := by
    intro job
    rw [scaleAmount]
    split
    · rename_i hinfinite
      exact ⟨rfl, fun hne => absurd hinfinite hne⟩
    · exact ⟨rfl, fun _ => rfl⟩
    · exact ⟨rfl, fun _ => rfl⟩
    · exact ⟨rfl, fun _ => rfl⟩
  by_cases hout : ns.nsSize < (bindRange ns job).lbaRangeBegin + (bindRange ns job).lbaRangeSize
  · have hscaleOf : scaleOf ns job = 1 := if_neg (not_not_intro hout)
    have hone : ∀ x : BitVec 64, x * 1 = x := BitVec.mul_one
    rw [bindParams, if_pos hout, hscaleOf, hone]
    exact ⟨htype, bindRange_amount ns h⟩
  · have hscaleOf : scaleOf ns job = job.amountScale.setWidth 64 := if_pos hout
    have hfields := bindResultTypes_amount reply (scaleAmount (bindRange ns job))
    obtain ⟨hkeeps, hscales⟩ := hscaled (bindRange ns job)
    have hboundType : (bindRange ns job).amountType = last.type := htype
    rw [bindParams, if_neg hout, hscaleOf]
    refine ⟨?_, ?_⟩
    · exact (congrArg AmountFields.amountType hfields).trans (hkeeps.trans hboundType)
    · intro hne
      rw [← bindRange_amount ns h hne]
      exact (congrArg AmountFields.amount hfields).trans (hscales (hboundType ▸ hne))

/-- **The last amount wins** exactly if nothing is left of an earlier percentage. -/
theorem amountInForce_iff {env : Environment} {calls : List HandlerCall} {s : Params}
    (h : calls.foldlM handle (.init env) = .ok s) :
    List.Forall₂ (fun own job => ∀ ns reply earlier last,
        amountsOf (own.map (·.2)) = earlier ++ [last] →
          (AmountInForce last (bindParams ns reply job).2 ↔ LastWins ns job earlier last))
      (ownLines env calls) s.finish.jobs := by
  refine (Params.After.run h).own.imp ?_
  intro own job hjob ns reply earlier last hamounts
  obtain ⟨htype, hamount⟩ := bindParams_amount ns reply (amountFields_after hjob hamounts)
  obtain ⟨amount, dealloc, unwr, hbind⟩ := bindParams_eq ns reply job
  have hrange := (bindParams_range ns reply job).2
  have hscale : (bindParams ns reply job).2.amountScale = job.amountScale := by
    rw [hbind]
    rfl
  have hequation : (bindParams ns reply job).2.amount = last.resolve
      (bindParams ns reply job).2.lbaRangeSize * (bindParams ns reply job).2.amountScale.setWidth 64 ↔
        (bindParams ns reply job).2.amount =
          last.resolve (bindRange ns job).lbaRangeSize * job.amountScale.setWidth 64 := by
    rw [hrange, hscale]
  by_cases hinfinite : last.type = .infinite
  · exact ⟨fun _ => .inl hinfinite, fun _ => ⟨htype, fun hne => absurd hinfinite hne⟩⟩
  · refine ⟨fun hforce => .inr ?_, fun hwins => ⟨htype, ?_⟩⟩
    · rw [← hamount hinfinite]
      exact hequation.mp (hforce.amount hinfinite)
    · intro hne
      rw [hequation, hamount hne]
      exact hwins.resolve_left hinfinite

/-- The last line wins if the range is in the namespace, and no line before it was a percentage or
it is one itself. -/
theorem lastWins_of_unaffected {ns : NsInfo} {job : JobConfig} {earlier : List AmountValue}
    {last : AmountValue} (hinside : RangeInside ns job)
    (h : last.percent?.isSome ∨ ∀ amount ∈ earlier, amount.percent? = none) :
    LastWins ns job earlier last := by
  refine .inr ?_
  rw [scaleOf, if_pos hinside, percentOf]
  cases hlast : last.percent? with
  | some x =>
    cases last with
    | percent y =>
      obtain rfl := Option.some.inj hlast
      rfl
    | infinite => cases hlast
    | time y => cases hlast
    | io y => cases hlast
    | bytes y => cases hlast
  | none =>
    rw [hlast] at h
    have hnone := List.filterMap_eq_nil_iff.mpr (h.resolve_left Bool.false_ne_true)
    rw [hnone]
    rfl

/-- A thousand commands, and then half of the range. -/
def ioThenPercent : List HandlerCall := [
  .sectionDefined (ascii "A"), .propertyDefined (ascii "amount") (ascii "io:1000"),
  .propertyDefined (ascii "AMOUNT") (ascii "BYTE:50%")]

/-- The other way round. -/
def percentThenIo : List HandlerCall := [
  .sectionDefined (ascii "A"), .propertyDefined (ascii "AMOUNT") (ascii "BYTE:50%"),
  .propertyDefined (ascii "amount") (ascii "io:1000")]

/-- What is read off the job of some lines is what is to be seen of it. -/
theorem exists_job {α : Type} {calls : List HandlerCall} (get : JobConfig → α) {x : α}
    (h : (calls.foldlM handle (.init fun _ => none)).toOption.map
      (fun s => s.finish.jobs.map get) = some [x]) :
    ∃ s job, calls.foldlM handle (.init fun _ => none) = .ok s ∧ s.finish.jobs = [job] ∧
      get job = x := by
  cases hrun : calls.foldlM handle (.init fun _ => none) with
  | error e =>
    rw [hrun] at h
    cases h
  | ok s =>
    rw [hrun] at h
    obtain ⟨job, hjobs, hget⟩ := List.map_eq_singleton_iff.mp (Option.some.inj h)
    exact ⟨s, job, rfl, hjobs, hget⟩

/-- Half of the range is in force after a thousand commands. -/
theorem amountInForce_ioThenPercent : ∃ s job,
    ioThenPercent.foldlM handle (.init fun _ => none) = .ok s ∧ s.finish.jobs = [job] ∧
      AmountInForce (.percent 50) (bindParams .null .null job).2 := by
  obtain ⟨s, job, hrun, hjobs, hinside⟩ :=
    @exists_job Bool ioThenPercent (fun job => decide (RangeInside .null job)) true
      (by decide +kernel)
  have hown : ∃ own, ownLines (fun _ => none) ioThenPercent = [own] ∧
      amountsOf (own.map (·.2)) = [.io 1000] ++ [.percent 50] := ⟨_, rfl, rfl⟩
  obtain ⟨own, hown, hamounts⟩ := hown
  have hall := amountInForce_iff hrun
  rw [hown, hjobs] at hall
  obtain ⟨hjob, -⟩ := List.forall₂_cons.mp hall
  refine ⟨s, job, hrun, hjobs, (hjob .null .null _ _ hamounts).mpr ?_⟩
  exact lastWins_of_unaffected (of_decide_eq_true hinside) (.inl rfl)

/-- A thousand commands are not after half of the range: the union has half of its bytes. -/
theorem not_amountInForce_percentThenIo : ∃ s job own,
    percentThenIo.foldlM handle (.init fun _ => none) = .ok s ∧ s.finish.jobs = [job] ∧
      ownLines (fun _ => none) percentThenIo = [own] ∧
      amountsOf (own.map (·.2)) = [.percent 50] ++ [.io 1000] ∧
      (bindParams .null .null job).2.amount = 20480000000 ∧
      ¬ AmountInForce (.io 1000) (bindParams .null .null job).2 := by
  obtain ⟨s, job, hrun, hjobs, hbound⟩ :=
    @exists_job (BitVec 64 × BitVec 32) percentThenIo (fun job =>
      ((bindParams .null .null job).2.amount, (bindParams .null .null job).2.amountScale))
      (20480000000, 1) (by decide +kernel)
  obtain ⟨hamount, hscale⟩ := Prod.mk.inj hbound
  refine ⟨s, job, _, hrun, hjobs, rfl, rfl, hamount, ?_⟩
  intro h
  have hforce := h.amount (by decide)
  rw [hamount, hscale] at hforce
  have heq : (20480000000 : BitVec 64) = 1000 * (1 : BitVec 32).setWidth 64 := hforce
  exact absurd heq (by decide)

end ChamberSpo

import Mathlib.Data.List.GetD
import ChamberSpo.JobInit
import ChamberSpo.NumberLiterals
import ChamberSpo.Properties

/-!
# The mix of operations

From the value of `OPERATION` to the slots of the lottery: `parse_operation` writes a weight for
each operation that is named, and `create_opr_lottery` fills as many slots with it.

* `mixEntries`, `mixWeights` — what a value says: the operations and their rates, the rest going to
  one without a rate.
* `createOprLotteryLoop` — `create_opr_lottery` slot by slot, which a write behind the slots ends.
  `createOprLotteryLoop_eq` takes it to `createOprLottery`.
* `OperationMix` — what a job gets is what its value says.
* `operationMix_iff` — of all values that are accepted, this holds of those without a rate of more
  than 32 bits: `rate` is a `u32` that a `u64` is assigned to.
-/

namespace ChamberSpo

/-! ## What a value says -/

/-- The operation that a part of the value names, and the number of its rate if it has one. -/
def mixEntry (param : List Byte) : Option (BioOpcode × Option ℕ) :=
  match splitText (chr ':') param with
  | [] => none
  | name :: rest => (parseOpType name).toOption.map fun op => (op, rest.head?.map digitsValue)

/-- The operations of a value. -/
def mixEntries (value : List Byte) : Option (List (BioOpcode × Option ℕ)) :=
  (splitText (chr ',') value).mapM mixEntry

/-- The weights that they are to have, of what remains. -/
def mixWeights (remained : ℤ) : List (BioOpcode × Option ℕ) → List (BioOpcode × ℤ)
  | [] => []
  | (op, rate) :: rest =>
    let weight := rate.elim remained Nat.cast
    (op, weight) :: mixWeights (remained - weight) rest

/-! ## The lottery -/

/-- The variables of `create_opr_lottery`. -/
structure LotteryState where
  weight : BitVec 32
  lotIdx : ℕ
  slots : ℕ → BioOpcode

/-- The `while` of `create_opr_lottery`; a write behind the 100 slots is undefined. -/
def fillSlots (op : BioOpcode) (s : LotteryState) : Option LotteryState :=
  if s.lotIdx < s.weight.toNat then
    if s.lotIdx < 100 then
      fillSlots op
        { s with lotIdx := s.lotIdx + 1, slots := Function.update s.slots s.lotIdx op }
    else none
  else some s
termination_by s.weight.toNat - s.lotIdx
decreasing_by
  omega

/-- `create_opr_lottery`, over the slots of a job that was cleared. -/
def createOprLotteryLoop (operations : BioOpcode → BitVec 32) : Option LotteryState :=
  BioOpcode.all.foldlM (fun s op => fillSlots op { s with weight := s.weight + operations op })
    { weight := 0, lotIdx := 0, slots := fun _ => .read }

/-- The weights together, exactly. -/
def mixTotal (operations : BioOpcode → BitVec 32) : ℕ :=
  (BioOpcode.all.map fun op => (operations op).toNat).sum

/-- **A job gets what its value says.** -/
structure OperationMix (value : List Byte) (operations : BioOpcode → BitVec 32) : Prop where
  entries : ∃ entries, mixEntries value = some entries ∧ (entries.map Prod.fst).Nodup ∧
    (∀ w ∈ mixWeights 100 entries, ((operations w.1).toNat : ℤ) = w.2) ∧
    ∀ op ∉ entries.map Prod.fst, operations op = 0
  total : mixTotal operations = 100
  lottery : ∃ s, createOprLotteryLoop operations = some s ∧ s.lotIdx = 100 ∧
    ∀ op, ((List.range 100).map s.slots).count op = (operations op).toNat

section Lottery

variable {operations : BioOpcode → BitVec 32} {op : BioOpcode} {s : LotteryState}

/-- **The `while`**: the slots up to the weight are filled. -/
theorem fillSlots_eq (op : BioOpcode) (s : LotteryState) (hle : s.lotIdx ≤ s.weight.toNat)
    (hmax : s.weight.toNat ≤ 100) :
    fillSlots op s = some { s with
      lotIdx := s.weight.toNat
      slots := fun k => if s.lotIdx ≤ k ∧ k < s.weight.toNat then op else s.slots k } := by
  fun_induction fillSlots op s with
  | case1 s hlt hslot ih =>
    rw [ih hlt hmax]
    simp only [Option.some.injEq, LotteryState.mk.injEq, true_and]
    funext k
    by_cases hk : k = s.lotIdx
    · subst hk
      rw [if_neg (by omega), if_pos ⟨le_rfl, hlt⟩, Function.update_self]
    · rw [Function.update_of_ne hk]
      by_cases hin : s.lotIdx ≤ k ∧ k < s.weight.toNat
      · rw [if_pos hin, if_pos (by omega)]
      · rw [if_neg hin, if_neg (by omega)]
  | case2 s hlt hslot => omega
  | case3 s hge =>
    obtain ⟨weight, lotIdx, slots⟩ := s
    obtain rfl : lotIdx = weight.toNat := by
      simp only at hle hge
      omega
    simp only [Option.some.injEq, LotteryState.mk.injEq, true_and]
    funext k
    rw [if_neg (by omega)]

/-- The slots of some operations. -/
def slotsOf (operations : BioOpcode → BitVec 32) (ops : List BioOpcode) : List BioOpcode :=
  ops.flatMap fun op => List.replicate (operations op).toNat op

/-- The loop after some operations: their slots are filled, one after the other. -/
structure LotteryState.Filled (s : LotteryState) (slots : List BioOpcode) : Prop where
  weight : s.weight.toNat = slots.length
  lotIdx : s.lotIdx = slots.length
  slots : ∀ k, s.slots k = slots.getD k .read

/-- One operation. -/
theorem LotteryState.Filled.step {slots : List BioOpcode} (hs : s.Filled slots)
    (operations : BioOpcode → BitVec 32) (op : BioOpcode)
    (hmax : slots.length + (operations op).toNat ≤ 100) :
    ∃ t, fillSlots op { s with weight := s.weight + operations op } = some t ∧
      t.Filled (slots ++ List.replicate (operations op).toNat op) := by
  have hweight : (s.weight + operations op).toNat = slots.length + (operations op).toNat := by
    rw [BitVec.toNat_add, hs.weight]
    omega
  have hle : s.lotIdx ≤ (s.weight + operations op).toNat := by
    rw [hweight, hs.lotIdx]
    omega
  have hfill := fillSlots_eq op { s with weight := s.weight + operations op } hle
    (hweight.trans_le hmax)
  refine ⟨_, hfill, ?_, ?_, ?_⟩
  · simp only [hweight, List.length_append, List.length_replicate]
  · simp only [hweight, List.length_append, List.length_replicate]
  · intro k
    simp only [hweight, hs.lotIdx, hs.slots k]
    by_cases hin : slots.length ≤ k
    · rw [List.getD_append_right _ _ _ _ hin, List.getD_eq_default _ _ hin]
      by_cases hk : k < slots.length + (operations op).toNat
      · rw [if_pos ⟨hin, hk⟩, List.getD_replicate _ (by omega)]
      · rw [if_neg (by omega), List.getD_eq_default]
        rw [List.length_replicate]
        omega
    · rw [if_neg (by omega), List.getD_append _ _ _ _ (Nat.not_le.mp hin)]

/-- The loop over some operations. -/
theorem LotteryState.Filled.run {slots : List BioOpcode} (hs : s.Filled slots)
    (operations : BioOpcode → BitVec 32) (ops : List BioOpcode)
    (hmax : slots.length + (slotsOf operations ops).length ≤ 100) :
    ∃ t, ops.foldlM (fun s op => fillSlots op { s with weight := s.weight + operations op }) s
        = some t ∧ t.Filled (slots ++ slotsOf operations ops) := by
  induction ops generalizing s slots with
  | nil =>
    refine ⟨s, rfl, ?_⟩
    rw [slotsOf, List.flatMap_nil, List.append_nil]
    exact hs
  | cons op ops ih =>
    have hcons : slotsOf operations (op :: ops)
        = List.replicate (operations op).toNat op ++ slotsOf operations ops := List.flatMap_cons
    rw [hcons, List.length_append, List.length_replicate] at hmax
    obtain ⟨t, ht, hfilled⟩ := hs.step operations op (by omega)
    have hlength : (slots ++ List.replicate (operations op).toNat op).length
        = slots.length + (operations op).toNat := by
      rw [List.length_append, List.length_replicate]
    obtain ⟨u, hu, hfilled'⟩ := ih hfilled (by omega)
    refine ⟨u, ?_, ?_⟩
    · rw [List.foldlM_cons, ht]
      exact hu
    · rw [hcons, ← List.append_assoc]
      exact hfilled'

theorem length_slotsOf (ops : List BioOpcode) :
    (slotsOf operations ops).length = (ops.map fun op => (operations op).toNat).sum := by
  rw [slotsOf, List.length_flatMap]
  simp only [List.length_replicate]

/-- **The slots are those of `createOprLottery`** if the weights are not too much. -/
theorem createOprLotteryLoop_eq (operations : BioOpcode → BitVec 32)
    (hmax : mixTotal operations ≤ 100) :
    ∃ s, createOprLotteryLoop operations = some s ∧ s.lotIdx = mixTotal operations ∧
      createOprLottery operations = some s.slots := by
  have hlength : (lotterySlots operations).length = mixTotal operations :=
    length_slotsOf BioOpcode.all
  have hstart : LotteryState.Filled { weight := 0, lotIdx := 0, slots := fun _ => .read } [] :=
    ⟨rfl, rfl, fun _ => rfl⟩
  obtain ⟨s, hs, hfilled⟩ := hstart.run operations BioOpcode.all (by
    rw [List.length_nil, Nat.zero_add]
    exact hlength.trans_le hmax)
  rw [List.nil_append] at hfilled
  refine ⟨s, hs, hfilled.lotIdx.trans hlength, ?_⟩
  rw [createOprLottery, if_neg (by omega)]
  congr 1
  funext k
  exact (hfilled.slots k).symm

/-- An operation has as many slots as its weight. -/
theorem count_lotterySlots (operations : BioOpcode → BitVec 32) (op : BioOpcode) :
    (lotterySlots operations).count op = (operations op).toNat := by
  cases op <;> simp [lotterySlots, BioOpcode.all, List.count_append, List.count_replicate]

/-- **Weights that sum to 100 fill the slots**, each operation as many as its weight. -/
theorem lottery_of_total (h : mixTotal operations = 100) :
    ∃ s, createOprLotteryLoop operations = some s ∧ s.lotIdx = 100 ∧
      ∀ op, ((List.range 100).map s.slots).count op = (operations op).toNat := by
  obtain ⟨s, hs, hidx, hslots⟩ := createOprLotteryLoop_eq operations h.le
  have hlength : (lotterySlots operations).length = 100 := (length_slotsOf BioOpcode.all).trans h
  refine ⟨s, hs, hidx.trans h, ?_⟩
  intro op
  rw [← count_lotterySlots]
  congr 1
  rw [createOprLottery, if_neg (by omega), Option.some.injEq] at hslots
  refine List.ext_getElem ?_ ?_
  · rw [List.length_map, List.length_range, hlength]
  · intro k hk hk'
    rw [List.getElem_map, List.getElem_range]
    exact (congrFun hslots k).symm.trans (List.getD_eq_getElem _ _ hk')

end Lottery

/-! ## The loop of `parse_operation` -/

section Parse

variable {s s' : OperationState} {param : List Byte} {params : List (List Byte)}

/-- What the loop keeps. -/
structure OperationState.Inv (s : OperationState) : Prop where
  zero : ∀ op ∉ s.optypeMask, s.operations op = 0
  total : mixTotal s.operations + s.remainedRate.toNat = 100
  /-- the name that is left in `subparam_tokens[0]` was one of those so far -/
  name : ∀ name, s.name = some name → ∃ op ∈ s.optypeMask, parseOpType name = .ok op

/-- A weight more. -/
theorem mixTotal_update {operations : BioOpcode → BitVec 32} {op : BioOpcode}
    (h : operations op = 0) (weight : BitVec 32) :
    mixTotal (Function.update operations op weight) = mixTotal operations + weight.toNat := by
  cases op <;> simp [mixTotal, BioOpcode.all, Function.update_apply, h] <;> omega

/-- A number that is converted, in 32 bits. -/
theorem setWidth_of_toInteger {text : List Byte} {res : BitVec 64} (h : toInteger text = .ok res) :
    res.setWidth 32 = BitVec.ofNat 32 (digitsValue text) := by
  rw [toInteger_digits (digits_of_foldlM_integerStep h)] at h
  obtain rfl := Except.ok.inj h
  apply BitVec.eq_of_toNat_eq
  rw [BitVec.toNat_setWidth, BitVec.toNat_ofNat, BitVec.toNat_ofNat,
    Nat.mod_mod_of_dvd _ (Nat.pow_dvd_pow 2 (by omega))]

/-- **A round of the loop**: one operation that was not named before, with a weight that is no more
than what remains. -/
theorem operationStep_ok (hs : s.Inv) (h : operationStep s param = .ok s') :
    ∃ op rate name, mixEntry param = some (op, rate) ∧ op ∉ s.optypeMask ∧
      parseOpType name = .ok op ∧
      ∃ weight, weight = rate.elim s.remainedRate (BitVec.ofNat 32) ∧ weight ≤ s.remainedRate ∧
        s' = { remainedRate := s.remainedRate - weight
               optypeMask := op :: s.optypeMask
               operations := Function.update s.operations op weight
               name := some name } := by
  simp only [operationStep, tokenSplit] at h
  cases hparts : splitText (chr ':') param with
  | nil =>
    -- an empty part names the operation of the round before
    rw [hparts] at h
    simp only [List.take_nil, List.getElem?_nil, Option.none_or] at h
    cases hname : s.name with
    | none =>
      rw [hname] at h
      cases h
    | some name =>
      obtain ⟨op, hmem, hop⟩ := hs.name name hname
      rw [hname] at h
      simp only at h
      rw [hop] at h
      obtain ⟨op', hop', h⟩ := bind_eq_ok.mp h
      obtain rfl := Except.ok.inj hop'
      rw [if_pos hmem] at h
      cases h
  | cons name rest =>
    rw [hparts] at h
    simp only [List.take_succ_cons, List.getElem?_cons_zero, Option.some_or] at h
    obtain ⟨op, hop, h⟩ := bind_eq_ok.mp h
    obtain ⟨hnew, h⟩ := ite_error_eq_ok.mp h
    have hentry : mixEntry param = some (op, rest.head?.map digitsValue) := by
      simp only [mixEntry, hparts, hop]
      rfl
    refine ⟨op, _, tokenStrupr name, hentry, hnew, (parseOpType_strupr name).trans hop, _, rfl, ?_⟩
    cases rest with
    | nil =>
      rw [if_pos (by rfl)] at h
      exact ⟨BitVec.le_refl _, (Except.ok.inj h).symm⟩
    | cons text rest =>
      rw [if_neg (by simp only [List.length_cons]; omega)] at h
      obtain ⟨text', htext, h⟩ := bind_eq_ok.mp h
      obtain rfl : text = text' := Except.ok.inj htext
      obtain ⟨res, hres, h⟩ := bind_eq_ok.mp h
      obtain ⟨hle, h⟩ := ite_error_eq_ok.mp h
      rw [setWidth_of_toInteger hres] at hle h
      exact ⟨BitVec.not_lt.mp hle, (Except.ok.inj h).symm⟩

/-- The loop keeps it. -/
theorem OperationState.Inv.step (hs : s.Inv) (h : operationStep s param = .ok s') : s'.Inv := by
  obtain ⟨op, rate, name, -, hnew, hname, weight, -, hle, rfl⟩ := operationStep_ok hs h
  refine ⟨?_, ?_, ?_⟩
  · intro op' hop'
    have hne : op' ≠ op := fun heq => hop' (heq ▸ List.mem_cons_self)
    simp only
    rw [Function.update_of_ne hne]
    exact hs.zero op' fun hmem => hop' (List.mem_cons_of_mem _ hmem)
  · simp only
    rw [mixTotal_update (hs.zero op hnew), BitVec.toNat_sub_of_le hle]
    have hle' : weight.toNat ≤ s.remainedRate.toNat := hle
    have htotal := hs.total
    omega
  · rintro _ ⟨⟩
    exact ⟨op, List.mem_cons_self, hname⟩

/-- The rates of some operations have 32 bits. -/
def RatesFit (entries : List (BioOpcode × Option ℕ)) : Prop :=
  ∀ op rate, (op, some rate) ∈ entries → rate < 2 ^ 32

/-- What the loop has read and written. -/
structure MixRun (s s' : OperationState) (entries : List (BioOpcode × Option ℕ)) : Prop where
  inv : s'.Inv
  nodup : (entries.map Prod.fst).Nodup
  new : ∀ op ∈ entries.map Prod.fst, op ∉ s.optypeMask
  keep : ∀ op ∉ entries.map Prod.fst, s'.operations op = s.operations op
  /-- the rates, in 32 bits -/
  narrowed : ∀ op rate, (op, some rate) ∈ entries → s'.operations op = BitVec.ofNat 32 rate
  weights : RatesFit entries →
    ∀ w ∈ mixWeights s.remainedRate.toNat entries, ((s'.operations w.1).toNat : ℤ) = w.2

/-- The weights of some operations after one: its own weight is exact if its rate has 32 bits. -/
theorem mixWeights_cons {op : BioOpcode} {rate : Option ℕ} {weight remained : BitVec 32}
    {operations : BioOpcode → BitVec 32} {entries : List (BioOpcode × Option ℕ)}
    (hweight : weight = rate.elim remained (BitVec.ofNat 32)) (hle : weight ≤ remained)
    (hfit : ∀ r, rate = some r → r < 2 ^ 32) (hop : operations op = weight)
    (hrest : ∀ w ∈ mixWeights (remained - weight).toNat entries,
      ((operations w.1).toNat : ℤ) = w.2) :
    ∀ w ∈ mixWeights remained.toNat ((op, rate) :: entries),
      ((operations w.1).toNat : ℤ) = w.2 := by
  have hexact : (weight.toNat : ℤ) = rate.elim (remained.toNat : ℤ) Nat.cast := by
    rw [hweight]
    cases rate with
    | none => rfl
    | some r => simp only [Option.elim_some, BitVec.toNat_ofNat, Nat.mod_eq_of_lt (hfit r rfl)]
  have hle' : weight.toNat ≤ remained.toNat := hle
  have hremained : ((remained - weight).toNat : ℤ)
      = remained.toNat - rate.elim (remained.toNat : ℤ) Nat.cast := by
    rw [← hexact, BitVec.toNat_sub_of_le hle, Nat.cast_sub hle']
  intro w hw
  rw [mixWeights, List.mem_cons] at hw
  rcases hw with rfl | hw
  · simp only
    rw [hop]
    exact hexact
  · rw [← hremained] at hw
    exact hrest w hw

/-- **The loop over the operations.** -/
theorem operationStep_run (hs : s.Inv) (h : params.foldlM operationStep s = .ok s') :
    ∃ entries, params.mapM mixEntry = some entries ∧ MixRun s s' entries := by
  induction params generalizing s with
  | nil =>
    obtain rfl := pure_eq_ok.mp h
    refine ⟨[], rfl, hs, List.nodup_nil, ?_, fun _ _ => rfl, ?_, ?_⟩
    · exact fun _ hmem => absurd hmem List.not_mem_nil
    · exact fun _ _ hmem => absurd hmem List.not_mem_nil
    · exact fun _ _ hmem => absurd hmem List.not_mem_nil
  | cons param params ih =>
    rw [List.foldlM_cons] at h
    obtain ⟨t, hstep, hrest⟩ := bind_eq_ok.mp h
    obtain ⟨entries, hentries, hrun⟩ := ih (hs.step hstep) hrest
    obtain ⟨op, rate, name, hentry, hnew, -, weight, hweight, hle, rfl⟩ := operationStep_ok hs hstep
    have hfresh : op ∉ entries.map Prod.fst := by
      intro hmem
      exact hrun.new op hmem List.mem_cons_self
    -- the weight of this operation is not touched any more
    have hop : s'.operations op = weight := (hrun.keep op hfresh).trans (Function.update_self ..)
    refine ⟨(op, rate) :: entries, ?_, hrun.inv, List.nodup_cons.mpr ⟨hfresh, hrun.nodup⟩,
      ?_, ?_, ?_, ?_⟩
    · rw [List.mapM_cons, hentry, hentries]
      rfl
    · intro op' hmem
      rcases List.mem_cons.mp hmem with rfl | hmem
      · exact hnew
      · exact fun hold => hrun.new op' hmem (List.mem_cons_of_mem _ hold)
    · intro op' hmem
      obtain ⟨hne, hother⟩ := not_or.mp (mt List.mem_cons.mpr hmem)
      rw [hrun.keep op' hother]
      exact Function.update_of_ne hne ..
    · intro op' rate' hmem
      rcases List.mem_cons.mp hmem with heq | hmem
      · obtain ⟨rfl, rfl⟩ := Prod.mk.inj heq
        rw [hop, hweight]
        rfl
      · exact hrun.narrowed op' rate' hmem
    · intro hfit
      apply mixWeights_cons hweight hle _ hop
      · exact hrun.weights fun o r hmem => hfit o r (List.mem_cons_of_mem _ hmem)
      · rintro r rfl
        exact hfit op r List.mem_cons_self

end Parse

/-! ## Values that are accepted -/

section Accepted

variable {value : List Byte} {operations : BioOpcode → BitVec 32}

/-- The loop begins with nothing named. -/
theorem OperationState.inv_start :
    OperationState.Inv
      { remainedRate := 100, optypeMask := [], operations := fun _ => 0, name := none } where
  zero := fun _ _ => rfl
  total := rfl
  name := fun _ h => absurd h (Option.some_ne_none _).symm

/-- **What `parse_operation` has done** when it returns. -/
theorem parseOperation_ok (h : parseOperation value = .ok operations) :
    ∃ entries, mixEntries value = some entries ∧ mixTotal operations = 100 ∧
      ∃ s : OperationState, s.operations = operations ∧
        MixRun { remainedRate := 100, optypeMask := [], operations := fun _ => 0, name := none } s
          entries := by
  simp only [parseOperation, tokenSplit] at h
  obtain ⟨s, hloop, h⟩ := bind_eq_ok.mp h
  obtain ⟨hcount, h⟩ := ite_error_eq_ok.mp h
  obtain ⟨hremained, h⟩ := ite_error_eq_ok.mp h
  obtain rfl := Except.ok.inj h
  have hall : (splitText (chr ',') value).take 10 = splitText (chr ',') value :=
    List.take_of_length_le (by omega)
  rw [hall] at hloop
  obtain ⟨entries, hentries, hrun⟩ := operationStep_run OperationState.inv_start hloop
  refine ⟨entries, hentries, ?_, s, rfl, hrun⟩
  have hzero : ¬ 0 < s.remainedRate.toNat := hremained
  have htotal := hrun.inv.total
  omega

/-- A rate that is written is one of the weights. -/
theorem mem_mixWeights {entries : List (BioOpcode × Option ℕ)} {op : BioOpcode} {rate : ℕ}
    (h : (op, some rate) ∈ entries) (remained : ℤ) :
    (op, (rate : ℤ)) ∈ mixWeights remained entries := by
  induction entries generalizing remained with
  | nil => exact absurd h List.not_mem_nil
  | cons entry entries ih =>
    rw [mixWeights]
    rcases List.mem_cons.mp h with rfl | h
    · exact List.mem_cons_self
    · exact List.mem_cons_of_mem _ (ih h _)

/-- **Which of the accepted values a job gets as they are written**: those whose rates have no more
than 32 bits. -/
theorem operationMix_iff (h : parseOperation value = .ok operations) :
    OperationMix value operations ↔
      ∀ entries, mixEntries value = some entries → RatesFit entries := by
  obtain ⟨entries, hentries, htotal, s, rfl, hrun⟩ := parseOperation_ok h
  refine ⟨?_, ?_⟩
  · intro hmix entries' hentries'
    obtain ⟨entries'', hsame, -, hweights, -⟩ := hmix.entries
    obtain rfl := Option.some.inj (hsame.symm.trans hentries')
    intro op rate hmem
    have hweight := hweights _ (mem_mixWeights hmem 100)
    have hlt := (s.operations op).isLt
    simp only at hweight
    omega
  · intro hfit
    have hweights := hrun.weights (hfit entries hentries)
    refine ⟨⟨entries, hentries, hrun.nodup, hweights, ?_⟩, htotal, lottery_of_total htotal⟩
    intro op hop
    exact hrun.keep op hop

end Accepted

/-- Two thirds of reads, the rest writes. -/
theorem operationMix_readWrite : ∃ operations,
    parseOperation (ascii "READ:67,W") = .ok operations ∧
      OperationMix (ascii "READ:67,W") operations := by
  refine ⟨_, rfl, (operationMix_iff rfl).mpr ?_⟩
  intro entries hentries
  obtain rfl : [(BioOpcode.read, some 67), (BioOpcode.write, none)] = entries :=
    Option.some.inj hentries
  intro op rate hmem
  simp only [List.mem_cons, Prod.mk.injEq, Option.some.injEq, reduceCtorEq, and_false,
    List.not_mem_nil, or_false] at hmem
  omega

/-- A rate of 33 bits is 100. -/
theorem not_operationMix_wide : ∃ operations,
    parseOperation (ascii "READ:4294967396") = .ok operations ∧
      ¬ OperationMix (ascii "READ:4294967396") operations := by
  refine ⟨_, rfl, ?_⟩
  intro hmix
  obtain ⟨entries, hentries, -, hweights, -⟩ := hmix.entries
  obtain rfl : [(BioOpcode.read, some 4294967396)] = entries := Option.some.inj hentries
  have hweight := hweights _ (mem_mixWeights List.mem_cons_self 100)
  exact absurd hweight (by decide)

end ChamberSpo

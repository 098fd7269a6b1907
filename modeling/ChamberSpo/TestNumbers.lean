import ChamberSpo.TestSuite
import Mathlib.Data.List.GetD

/-!
# The arrays of test numbers

`testsuite.c` keeps the number of a case in an array of `MAX_TEST_DEPTH` entries and finds its end by
a zero. Here every read and every write of the array has its index.

* `Testno.get`, `Testno.set` — the accesses; `none` for one outside of the array.
* `getTestDepth`, `toTestnoArray`, `getTcArray` — the functions that look for the end.
* `runTestcasesArray`, `testsuiteRunArray` — the run with the array in place of the list of
  `testsuiteRun`.
* `Testno.ofList` — the array that a list stands for. `runTestcasesArray_eq` says that the run with
  the list stops where this one leaves the array.
-/

namespace ChamberSpo

/-! ## The program -/

/-- `testno_t` -/
abbrev Testno := ℕ → ℕ

namespace Testno

def get (testno : Testno) (i : ℕ) : Option ℕ := if i < maxTestDepth then some (testno i) else none

def set (testno : Testno) (i no : ℕ) : Option Testno :=
  if i < maxTestDepth then some (Function.update testno i no) else none

/-- The array after the `memset`. -/
def zero : Testno := fun _ => 0

/-- The entries before the first zero. -/
def numbers (testno : Testno) : List ℕ :=
  ((List.range maxTestDepth).map testno).takeWhile (· ≠ 0)

end Testno

/-- The loop of `__get_test_depth`, with `left` entries left from `i` on. -/
def getTestDepthFrom (testno : Testno) : ℕ → ℕ → ℕ
  | 0, _ => maxTestDepth
  | left + 1, i =>
    if testno i = 0 then (if 0 < i then i - 1 else i) else getTestDepthFrom testno left (i + 1)

/-- `__get_test_depth` -/
def getTestDepth (testno : Testno) : ℕ := getTestDepthFrom testno maxTestDepth 0

/-- The loop of `__to_testno`. The fuel is for the entries and an access behind them. -/
def toTestnoLoop : ℕ → List Byte → ℕ → Testno → Option Testno
  | 0, _, _, _ => none
  | fuel + 1, str, depth, testno => do
    let (value, str) := strtol str
    let testno ← testno.set depth (value % 2 ^ 32).toNat
    if (value % 2 ^ 32).toNat = 0 then return testno
    else if str.head? = some (chr '.') then toTestnoLoop fuel str.tail (depth + 1) testno
    else return testno

/-- `__to_testno` of a variable. -/
def toTestnoArray : Option (List Byte) → Option Testno
  | none => some .zero
  | some str => toTestnoLoop (maxTestDepth + 1) str 0 .zero

/-- `tc[i].name == NULL`; `none` behind `END_OF_TEST`. -/
def nameIsNull (tcs : Testcases) (i : ℕ) : Option Bool :=
  if i ≤ tcs.length then some (i = tcs.length) else none

/-- The loop of `__get_subtc`, with `left` names left to look at from `i` on. -/
def getSubtcLoop (tcs : Testcases) (idx : ℕ) : ℕ → ℕ → Option (Option TcPtr)
  | 0, _ => some (some { base := tcs, idx := idx })
  | left + 1, i => do
    let null ← nameIsNull tcs i
    if null then return none else getSubtcLoop tcs idx left (i + 1)

/-- `__get_subtc` -/
def getSubtcArray (tc : Option Testcases) (idx : ℕ) : Option (Option TcPtr) :=
  match tc with
  | some tcs => getSubtcLoop tcs idx (idx + 1) 0
  | none => some none

/-- The loop of `__get_tc`. -/
def getTcLoop (ts : Testcases) (testno : Testno) : ℕ → ℕ → TcPtr → Option (Option TcPtr)
  | 0, _, _ => none
  | fuel + 1, depth, tc => do
    let no ← testno.get depth
    if no = 0 then return some tc
    else
      let sub ← getSubtcArray (if depth = 0 then some ts else tc.testcases) (no - 1)
      match sub with
      | none => return none
      | some tc => getTcLoop ts testno fuel (depth + 1) tc

/-- `__get_tc` -/
def getTcArray (ts : Testcases) (testno : Testno) : Option (Option TcPtr) :=
  getTcLoop ts testno (maxTestDepth + 1) 0 { base := ts, idx := 0 }

/-- `tc - n`; `none` before the array of `tc`. -/
def TcPtr.back (tc : TcPtr) (n : ℕ) : Option TcPtr :=
  if n ≤ tc.idx then some { tc with idx := tc.idx - n } else none

section Run

variable (outcome : Case → TestRes) (lastTc : Option (List ℕ))

/-- `__run_testcase` -/
def runTestcaseArray (testno : Testno) (tc : Case) (s : RunState) : Option RunState := do
  let _ ← testno.get (getTestDepth testno)
  return runTestcase outcome tc s

/-- `__run_config`, for a case of the group `pre`. -/
def runConfigArray (testno : Testno) (tc : TcPtr) (pre : List ℕ) (s : RunState) :
    Option RunState := do
  let depth := getTestDepth testno
  let no ← testno.get depth
  if 1 < no then
    let tcConfig ← tc.back (no - 1)
    match tcConfig.target with
    | .item .testConfig _ =>
      let testnoConfig ← testno.set depth 1
      runTestcaseArray outcome testnoConfig (pre ++ [tcConfig.idx + 1], .testConfig) s
    | _ => return s
  else return s

/-- `__run_testcases` for a case of the group `pre`, with the loop over the cases from this one
on. -/
def runGroupArray (tc : TcPtr) (pre : List ℕ) (testno : Testno) (s : RunState)
    (loop : ℕ → Testno → RunState → Option (Int × Testno × RunState)) :
    Option (Int × Testno × RunState) := do
  let depth := getTestDepth testno
  let s ← runConfigArray outcome testno tc pre { s with testRes := .success }
  if s.testRes ≠ .success then return (-1, testno, s) else loop depth testno s

/-- The end of the loop of `__run_testcases`. -/
def endLoopArray (depth : ℕ) (res : Int) (testno : Testno) (s : RunState) :
    Option (Int × Testno × RunState) := do
  let testno ← testno.set depth 0
  return (res, testno, s)

/-- `testno[depth]++` -/
def nextEntryArray (depth : ℕ) (testno : Testno) : Option Testno := do
  let no ← testno.get depth
  testno.set depth (no + 1)

/-- The loop of `__run_testcases` over the entries of the group `pre`, where the first one is the
entry `no`. -/
def runLoopArray : Testcases → List ℕ → ℕ → ℕ → Testno → RunState →
    Option (Int × Testno × RunState)
  | .nil, _, _, depth, testno, s => endLoopArray depth 0 testno s
  | .item name rest, pre, no, depth, testno, s =>
    if lastTc = some (pre ++ [no]) then endLoopArray depth 1 testno s
    else do
      let s ← runTestcaseArray outcome testno (pre ++ [no], name) s
      if s.testRes ≠ .success then endLoopArray depth (-1) testno s
      else
        let testno ← nextEntryArray depth testno
        runLoopArray rest pre (no + 1) depth testno s
  | .group testcases rest, pre, no, depth, testno, s =>
    if lastTc = some (pre ++ [no]) then endLoopArray depth 1 testno s
    else do
      -- the messages have the number of the group
      let _ ← testno.get depth
      let testno ← testno.set (depth + 1) 1
      let (res, testno, s) ← runGroupArray outcome { base := testcases, idx := 0 } (pre ++ [no])
        testno s fun depth testno s => runLoopArray testcases (pre ++ [no]) 1 depth testno s
      if res ≠ 0 then endLoopArray depth res testno s
      else
        let testno ← nextEntryArray depth testno
        runLoopArray rest pre (no + 1) depth testno s

/-- `__run_testcases`, from the case `tc` of the group `pre` on. -/
def runTestcasesArray (tc : TcPtr) (pre : List ℕ) (testno : Testno) (s : RunState) :
    Option (Int × Testno × RunState) :=
  runGroupArray outcome tc pre testno s fun depth testno s =>
    runLoopArray outcome lastTc tc.target pre (tc.idx + 1) depth testno s

end Run

/-- What `__read_env_var` makes of `TEST_FIRST`; the inner `none` when it returns -1. -/
def readFirstArray (ts : Testcases) (testFirst : Option (List Byte)) :
    Option (Option (Testno × TcPtr)) := do
  let testno ← toTestnoArray testFirst
  let no ← testno.get 0
  if no = 0 then
    let first ← Testno.zero.set 0 1
    return some (first, { base := ts, idx := 0 })
  else
    let tc ← getTcArray ts testno
    return tc.map fun tc => (testno, tc)

/-- What `__read_env_var` makes of `TEST_LAST`: the number of `__last_tc`. -/
def readLastArray (ts : Testcases) (testLast : Option (List Byte)) :
    Option (Option (Option (List ℕ))) := do
  let testno ← toTestnoArray testLast
  let no ← testno.get 0
  if no = 0 then return some none
  else
    let tc ← getTcArray ts testno
    return tc.map fun _ => some testno.numbers

/-- What `testsuite_run` leaves when `__read_env_var` returns -1. -/
def SuiteRun.refused : SuiteRun where
  res := -1
  state := .init
  summary := none

/-- `testsuite_run` -/
def testsuiteRunArray (ts : Testcases) (testFirst testLast : Option (List Byte))
    (outcome : Case → TestRes) : Option SuiteRun := do
  match ← readFirstArray ts testFirst with
  | none => return .refused
  | some first =>
    match ← readLastArray ts testLast with
    | none => return .refused
    | some lastTc =>
      let (_, _, s) ← runTestcasesArray outcome lastTc first.2 first.1.numbers.dropLast first.1
        .init
      return { res := 0, state := s, summary := showSummary s }

/-! ## The array of a list -/

namespace Testno

/-- The numbers of a list, and zeros behind them. -/
def ofList (l : List ℕ) : Testno := fun i => l.getD i 0

theorem ofList_nil : ofList [] = zero := by
  funext i
  exact List.getD_nil

theorem get_ofList (l : List ℕ) {i : ℕ} (hi : i < maxTestDepth) :
    (ofList l).get i = some (l.getD i 0) := if_pos hi

theorem get_of_le (testno : Testno) {i : ℕ} (hi : maxTestDepth ≤ i) : testno.get i = none :=
  if_neg (Nat.not_lt_of_le hi)

/-- The entry behind a list. -/
theorem update_ofList (l : List ℕ) (no : ℕ) :
    Function.update (ofList l) l.length no = ofList (l ++ [no]) := by
  funext i
  rcases Nat.lt_trichotomy i l.length with hlt | rfl | hgt
  · rw [Function.update_of_ne (Nat.ne_of_lt hlt), ofList, ofList, List.getD_append _ _ _ _ hlt]
  · rw [Function.update_self, ofList, List.getD_append_right _ _ _ _ le_rfl, Nat.sub_self]
    rfl
  · rw [Function.update_of_ne (Nat.ne_of_gt hgt), ofList, ofList,
      List.getD_eq_default _ _ (Nat.le_of_lt hgt),
      List.getD_eq_default _ _ (by rw [List.length_append, List.length_singleton]; omega)]

theorem ofList_concat_length (l : List ℕ) (no : ℕ) : (l ++ [no]).getD l.length 0 = no := by
  rw [List.getD_append_right _ _ _ _ le_rfl, Nat.sub_self]
  rfl

section Set

variable {l : List ℕ} (hl : l.length < maxTestDepth)

include hl

/-- A number behind the others. -/
theorem set_length (no : ℕ) : (ofList l).set l.length no = some (ofList (l ++ [no])) := by
  rw [set, if_pos hl, update_ofList]

/-- The last number is changed. -/
theorem set_concat (no no' : ℕ) :
    (ofList (l ++ [no])).set l.length no' = some (ofList (l ++ [no'])) := by
  rw [set, if_pos hl, ← update_ofList, Function.update_idem, update_ofList]

/-- The last number is taken away. -/
theorem set_concat_zero (no : ℕ) : (ofList (l ++ [no])).set l.length 0 = some (ofList l) := by
  have hzero : Function.update (ofList l) l.length 0 = ofList l := by
    rw [Function.update_eq_self_iff]
    exact (List.getD_eq_default _ _ le_rfl).symm
  rw [set, if_pos hl, ← update_ofList, Function.update_idem, hzero]

theorem get_concat (no : ℕ) : (ofList (l ++ [no])).get l.length = some no := by
  rw [get_ofList _ hl, ofList_concat_length]

end Set

/-- The zeros are not numbers. -/
theorem takeWhile_getD (l : List ℕ) (hpos : ∀ no ∈ l, 0 < no) {n : ℕ} (hn : l.length ≤ n) :
    ((List.range n).map fun i => l.getD i 0).takeWhile (· ≠ 0) = l := by
  induction l generalizing n with
  | nil =>
    cases n with
    | zero => rfl
    | succ n =>
      rw [List.range_succ_eq_map, List.map_cons, List.takeWhile_cons_of_neg (by simp)]
  | cons no l ih =>
    cases n with
    | zero => exact absurd hn (Nat.not_succ_le_zero _)
    | succ n =>
      have hno : no ≠ 0 := Nat.ne_of_gt (hpos no List.mem_cons_self)
      rw [List.range_succ_eq_map, List.map_cons, List.map_map, List.getD_cons_zero,
        List.takeWhile_cons_of_pos (p := fun x => decide (x ≠ 0)) (decide_eq_true hno)]
      congr 1
      exact ih (fun k hk => hpos k (List.mem_cons_of_mem _ hk)) (Nat.le_of_succ_le_succ hn)

theorem numbers_ofList {l : List ℕ} (hpos : ∀ no ∈ l, 0 < no) (hlen : l.length ≤ maxTestDepth) :
    (ofList l).numbers = l :=
  takeWhile_getD l hpos hlen

end Testno

/-- **The depth** is found by the first zero, if there is one. -/
theorem getTestDepth_ofList {l : List ℕ} (hpos : ∀ no ∈ l, 0 < no) (hne : l ≠ [])
    (hlen : l.length ≤ maxTestDepth) :
    getTestDepth (.ofList l) = if l.length < maxTestDepth then l.length - 1 else maxTestDepth := by
  have hscan : ∀ left i, left + i = maxTestDepth → i ≤ l.length →
      getTestDepthFrom (.ofList l) left i
        = if l.length < maxTestDepth then l.length - 1 else maxTestDepth := by
    intro left
    induction left with
    | zero =>
      intro i hi hle
      rw [getTestDepthFrom, if_neg (by omega)]
    | succ left ih =>
      intro i hi hle
      rw [getTestDepthFrom]
      rcases Nat.lt_or_eq_of_le hle with hlt | rfl
      · have hentry : Testno.ofList l i ≠ 0 := by
          rw [Testno.ofList, List.getD_eq_getElem _ _ hlt]
          exact Nat.ne_of_gt (hpos _ (List.getElem_mem hlt))
        rw [if_neg hentry, ih (i + 1) (by omega) hlt]
      · have hentry : Testno.ofList l l.length = 0 := List.getD_eq_default _ _ le_rfl
        have hlength : 0 < l.length := List.length_pos_iff.mpr hne
        rw [if_pos hentry, if_pos hlength, if_pos (by omega)]
  exact hscan maxTestDepth 0 rfl (Nat.zero_le _)

/-! ## The variables -/

/-- **The parser** fills the array with the numbers, and leaves it where `toTestno` has no room. -/
theorem toTestnoLoop_eq (str : List Byte) (left : ℕ) (done : List ℕ)
    (hlen : done.length + left = maxTestDepth) :
    toTestnoLoop (left + 1) str done.length (.ofList done)
      = (toTestnoFrom left str).map fun l => Testno.ofList (done ++ l) := by
  induction left generalizing str done with
  | zero =>
    have hout : ¬ done.length < maxTestDepth := by omega
    have hset : ∀ no, (Testno.ofList done).set done.length no = none := fun _ => if_neg hout
    rw [toTestnoLoop]
    simp only
    rw [hset]
    rfl
  | succ left ih =>
    have hroom : done.length < maxTestDepth := by omega
    rw [toTestnoLoop, toTestnoFrom]
    simp only
    rw [Testno.set_length hroom]
    change (if _ then _ else _) = _
    by_cases hzero : ((strtol str).1 % 2 ^ 32).toNat = 0
    · rw [if_pos hzero, if_pos hzero, hzero]
      have hsame : Testno.ofList (done ++ [0]) = Testno.ofList done := by
        rw [← Testno.update_ofList, Function.update_eq_self_iff]
        exact (List.getD_eq_default _ _ le_rfl).symm
      rw [hsame, Option.map_some, List.append_nil]
      rfl
    · rw [if_neg hzero, if_neg hzero]
      by_cases hdot : (strtol str).2.head? = some (chr '.')
      · have hstep := ih (strtol str).2.tail (done ++ [((strtol str).1 % 2 ^ 32).toNat])
          (by rw [List.length_append, List.length_singleton]; omega)
        rw [List.length_append, List.length_singleton] at hstep
        rw [if_pos hdot, if_pos hdot, hstep, Option.map_eq_map, Option.map_map]
        congr 1
        funext l
        rw [Function.comp_apply, List.append_assoc, List.singleton_append]
      · rw [if_neg hdot, if_neg hdot]
        rfl

theorem toTestnoArray_eq (var : Option (List Byte)) :
    toTestnoArray var = (toTestno var).map Testno.ofList := by
  cases var with
  | none => exact congrArg some Testno.ofList_nil.symm
  | some str =>
    rw [toTestnoArray, ← Testno.ofList_nil]
    exact toTestnoLoop_eq str maxTestDepth [] rfl

theorem length_toTestnoFrom {left : ℕ} {str : List Byte} {testno : List ℕ}
    (h : toTestnoFrom left str = some testno) : testno.length ≤ left := by
  induction left generalizing str testno with
  | zero => cases h
  | succ left ih =>
    rw [toTestnoFrom] at h
    simp only at h
    split at h
    · cases h
      exact Nat.zero_le _
    · split at h
      · obtain ⟨rest, hrest, rfl⟩ := Option.map_eq_some_iff.mp h
        exact Nat.succ_le_succ (ih hrest)
      · cases h
        exact Nat.succ_le_succ (Nat.zero_le _)

/-- There is room for the numbers of a variable. -/
theorem length_toTestno {var : Option (List Byte)} {testno : List ℕ}
    (h : toTestno var = some testno) : testno.length ≤ maxTestDepth := by
  cases var with
  | none =>
    cases h
    exact Nat.zero_le _
  | some str => exact length_toTestnoFrom h

/-- The names are looked at up to the one that is missing. -/
theorem getSubtcArray_eq (tc : Option Testcases) (idx : ℕ) :
    getSubtcArray tc idx = some (getSubtc tc idx) := by
  cases tc with
  | none => rfl
  | some tcs =>
    have hloop : ∀ left i, left + i = idx + 1 → i ≤ tcs.length →
        getSubtcLoop tcs idx left i = some (getSubtc (some tcs) idx) := by
      intro left
      induction left with
      | zero =>
        intro i hi hle
        have hlt : ¬ tcs.length ≤ idx := by omega
        rw [getSubtcLoop]
        exact congrArg some (if_neg hlt).symm
      | succ left ih =>
        intro i hi hle
        rw [getSubtcLoop, nameIsNull, if_pos hle]
        change (if (decide (i = tcs.length)) = true then _ else _) = _
        by_cases hend : i = tcs.length
        · rw [if_pos (decide_eq_true hend)]
          have hle : tcs.length ≤ idx := by omega
          exact congrArg some (if_pos hle).symm
        · rw [if_neg (by simpa using hend)]
          exact ih (i + 1) (by omega) (by omega)
    exact hloop (idx + 1) 0 rfl (Nat.zero_le _)

theorem getTcFrom_cons (tcs : Option Testcases) (no : ℕ) (rest : List ℕ) :
    getTcFrom tcs (no :: rest) = (getSubtc tcs (no - 1)).bind fun tc =>
      if rest = [] then some tc else getTcFrom tc.testcases rest := by
  cases rest with
  | nil =>
    rw [getTcFrom]
    cases getSubtc tcs (no - 1) <;> rfl
  | cons no' rest =>
    rw [getTcFrom]
    · rfl
    · exact List.cons_ne_nil _ _

/-- **The search** for a case reads behind the array if there are as many numbers as entries. -/
theorem getTcLoop_eq (ts : Testcases) (rest done : List ℕ) (fuel : ℕ) (tc : TcPtr)
    (hpos : ∀ no ∈ rest, 0 < no) (hlen : (done ++ rest).length ≤ maxTestDepth)
    (hfuel : rest.length < fuel) :
    getTcLoop ts (.ofList (done ++ rest)) fuel done.length tc
      = (if rest = [] then some tc else getTcFrom (if done = [] then some ts else tc.testcases)
          rest).elim (some none) fun tc =>
            if (done ++ rest).length < maxTestDepth then some (some tc) else none := by
  induction rest generalizing done fuel tc with
  | nil =>
    cases fuel with
    | zero => exact absurd hfuel (Nat.not_lt_zero _)
    | succ fuel =>
      rw [if_pos rfl, List.append_nil, Option.elim_some, getTcLoop]
      by_cases hroom : done.length < maxTestDepth
      · rw [Testno.get_ofList _ hroom, List.getD_eq_default _ _ le_rfl, if_pos hroom]
        rfl
      · rw [Testno.get_of_le _ (Nat.le_of_not_lt hroom), if_neg hroom]
        rfl
  | cons no rest ih =>
    cases fuel with
    | zero => exact absurd hfuel (Nat.not_lt_zero _)
    | succ fuel =>
      have hno : no ≠ 0 := Nat.ne_of_gt (hpos no List.mem_cons_self)
      have hlong : (done ++ no :: rest).length = done.length + rest.length + 1 := by
        rw [List.length_append, List.length_cons]
        omega
      have hentry : (Testno.ofList (done ++ no :: rest)).get done.length = some no := by
        rw [Testno.get_ofList _ (by omega), List.getD_append_right _ _ _ _ le_rfl, Nat.sub_self]
        rfl
      have hroot : (if done.length = 0 then some ts else tc.testcases)
          = if done = [] then some ts else tc.testcases :=
        if_congr List.length_eq_zero_iff rfl rfl
      rw [if_neg (List.cons_ne_nil _ _), getTcLoop, hentry]
      change (if no = 0 then _ else _) = _
      rw [if_neg hno, getSubtcArray_eq, hroot, getTcFrom_cons]
      cases getSubtc (if done = [] then some ts else tc.testcases) (no - 1) with
      | none => rfl
      | some tc' =>
        change getTcLoop ts (.ofList (done ++ no :: rest)) fuel (done.length + 1) tc' = _
        have hstep := ih (done ++ [no]) fuel tc' (fun k hk => hpos k (List.mem_cons_of_mem _ hk))
          (by rwa [List.append_assoc, List.singleton_append]) (Nat.lt_of_succ_lt_succ hfuel)
        rw [List.append_assoc, List.singleton_append, List.length_append, List.length_singleton,
          if_neg (by simp : done ++ [no] ≠ [])] at hstep
        rw [hstep, Option.bind_some]

theorem getTcArray_eq (ts : Testcases) {testno : List ℕ} (hpos : ∀ no ∈ testno, 0 < no)
    (hne : testno ≠ []) (hlen : testno.length ≤ maxTestDepth) :
    getTcArray ts (.ofList testno) = (getTc ts testno).elim (some none) fun tc =>
      if testno.length < maxTestDepth then some (some tc) else none := by
  have hloop := getTcLoop_eq ts testno [] (maxTestDepth + 1) { base := ts, idx := 0 } hpos hlen
    (Nat.lt_succ_of_le hlen)
  rw [if_neg hne, if_pos rfl] at hloop
  exact hloop

/-! ## The run -/

section Refines

variable {outcome : Case → TestRes} {lastTc : Option (List ℕ)} {pre : List ℕ} {no : ℕ}

theorem runTestcaseArray_eq {testno : List ℕ} (hpos : ∀ no ∈ testno, 0 < no) (hne : testno ≠ [])
    (hlen : testno.length < maxTestDepth) (tc : Case) (s : RunState) :
    runTestcaseArray outcome (.ofList testno) tc s = some (runTestcase outcome tc s) := by
  rw [runTestcaseArray, getTestDepth_ofList hpos hne (Nat.le_of_lt hlen), if_pos hlen,
    Testno.get_ofList _ (by omega)]
  rfl

theorem forall_pos_concat (hpre : ∀ k ∈ pre, 0 < k) (hno : 0 < no) : ∀ k ∈ pre ++ [no], 0 < k := by
  intro k hk
  rcases List.mem_append.mp hk with hk | hk
  · exact hpre k hk
  · exact List.mem_singleton.mp hk ▸ hno

/-- The depth of a case of the group `pre`, while there is a zero behind its number. -/
theorem getTestDepth_concat (hpre : ∀ k ∈ pre, 0 < k) (hno : 0 < no)
    (hlen : pre.length + 1 < maxTestDepth) : getTestDepth (.ofList (pre ++ [no])) = pre.length := by
  have hlength : (pre ++ [no]).length = pre.length + 1 := by
    rw [List.length_append, List.length_singleton]
  rw [getTestDepth_ofList (forall_pos_concat hpre hno) (by simp) (by omega), hlength,
    if_pos hlen, Nat.add_sub_cancel]

/-- Without one it is behind the array. -/
theorem getTestDepth_full (hpre : ∀ k ∈ pre, 0 < k) (hno : 0 < no)
    (hlen : pre.length + 1 = maxTestDepth) :
    getTestDepth (.ofList (pre ++ [no])) = maxTestDepth := by
  have hlength : (pre ++ [no]).length = pre.length + 1 := by
    rw [List.length_append, List.length_singleton]
  rw [getTestDepth_ofList (forall_pos_concat hpre hno) (by simp) (by omega), hlength,
    if_neg (by omega)]

/-- **The Configuration** is the first case of the array that the case is in. -/
theorem runConfigArray_eq {tc : TcPtr} (hpre : ∀ k ∈ pre, 0 < k) (hno : no = tc.idx + 1)
    (hlen : pre.length + 1 < maxTestDepth) (s : RunState) :
    runConfigArray outcome (.ofList (pre ++ [no])) tc pre s
      = some (runConfig outcome tc.base pre no s) := by
  have hpos : 0 < no := hno ▸ Nat.succ_pos _
  have hroom : pre.length < maxTestDepth := Nat.lt_of_succ_lt hlen
  rw [runConfigArray, getTestDepth_concat hpre hpos hlen, Testno.get_concat hroom]
  change (if 1 < no then _ else _) = some (if 1 < no then _ else _)
  by_cases hsecond : 1 < no
  · have hback : tc.back (no - 1) = some { base := tc.base, idx := 0 } := by
      have hidx : no - 1 = tc.idx := by omega
      rw [TcPtr.back, hidx, if_pos le_rfl, Nat.sub_self]
    have htarget : TcPtr.target { base := tc.base, idx := 0 } = tc.base := by
      rw [TcPtr.target, Outline.drop]
    rw [if_pos hsecond, if_pos hsecond, hback, Option.bind_eq_bind, Option.bind_some, htarget]
    cases tc.base with
    | nil => rfl
    | group testcases rest => rfl
    | item name rest =>
      cases name with
      | named text => rfl
      | testConfig =>
        simp only
        rw [Testno.set_concat hroom, Option.bind_eq_bind, Option.bind_some]
        refine runTestcaseArray_eq (forall_pos_concat hpre Nat.one_pos) (by simp) ?_ _ _
        rw [List.length_append, List.length_singleton]
        exact hlen
  · rw [if_neg hsecond, if_neg hsecond]
    rfl

/-- With a number in each entry the first access is behind the array. -/
theorem runGroupArray_full {tc : TcPtr} (hpre : ∀ k ∈ pre, 0 < k) (hno : 0 < no)
    (hlen : pre.length + 1 = maxTestDepth) (s : RunState)
    (loop : ℕ → Testno → RunState → Option (Int × Testno × RunState)) :
    runGroupArray outcome tc pre (.ofList (pre ++ [no])) s loop = none := by
  rw [runGroupArray, runConfigArray, getTestDepth_full hpre hno hlen, Testno.get_of_le _ le_rfl]
  rfl

theorem runGroupArray_eq {tc : TcPtr} (hpre : ∀ k ∈ pre, 0 < k) (hno : no = tc.idx + 1)
    (hlen : pre.length + 1 < maxTestDepth) (s : RunState)
    (loop : ℕ → Testno → RunState → Option (Int × Testno × RunState)) :
    runGroupArray outcome tc pre (.ofList (pre ++ [no])) s loop
      = let s := runConfig outcome tc.base pre no { s with testRes := .success }
        if s.testRes ≠ .success then some (-1, .ofList (pre ++ [no]), s)
        else loop pre.length (.ofList (pre ++ [no])) s := by
  rw [runGroupArray, runConfigArray_eq hpre hno hlen,
    getTestDepth_concat hpre (hno ▸ Nat.succ_pos _) hlen]
  rfl

theorem endLoopArray_eq (hroom : pre.length < maxTestDepth) (res : Int) (s : RunState) :
    endLoopArray pre.length res (.ofList (pre ++ [no])) s = some (res, .ofList pre, s) := by
  rw [endLoopArray, Testno.set_concat_zero hroom]
  rfl

theorem nextEntryArray_eq (hroom : pre.length < maxTestDepth) :
    nextEntryArray pre.length (.ofList (pre ++ [no])) = some (.ofList (pre ++ [no + 1])) := by
  rw [nextEntryArray, Testno.get_concat hroom]
  exact Testno.set_concat hroom no (no + 1)

/-- **The loop over a group** with the array does what it does with the list, and takes the number
of the case away at its end. -/
theorem runLoopArray_eq (o : Testcases) (hpre : ∀ k ∈ pre, 0 < k) (hno : 0 < no)
    (hlen : pre.length + 1 < maxTestDepth) (s : RunState) :
    runLoopArray outcome lastTc o pre no pre.length (.ofList (pre ++ [no])) s
      = (runLoop outcome lastTc o pre no s).map fun r => (r.1, .ofList pre, r.2) := by
  induction o generalizing pre no s with
  | nil =>
    rw [runLoopArray, runLoop, endLoopArray_eq (Nat.lt_of_succ_lt hlen)]
    rfl
  | item name rest ih =>
    have hroom : pre.length < maxTestDepth := Nat.lt_of_succ_lt hlen
    rw [runLoopArray, runLoop]
    by_cases hlast : lastTc = some (pre ++ [no])
    · rw [if_pos hlast, if_pos hlast, endLoopArray_eq hroom]
      rfl
    · rw [if_neg hlast, if_neg hlast, runTestcaseArray_eq (forall_pos_concat hpre hno) (by simp)
        (by rw [List.length_append, List.length_singleton]; exact hlen)]
      change (if (runTestcase outcome (pre ++ [no], name) s).testRes ≠ .success then _ else _) = _
      by_cases hres : (runTestcase outcome (pre ++ [no], name) s).testRes = .success
      · rw [if_neg (not_not.mpr hres), nextEntryArray_eq hroom]
        change runLoopArray outcome lastTc rest pre (no + 1) pre.length _ _ = _
        rw [ih hpre (Nat.succ_pos no) hlen]
        simp only [if_neg (not_not.mpr hres)]
      · rw [if_pos hres, endLoopArray_eq hroom]
        simp only [if_pos hres]
        rfl
  | group testcases rest ihe ih =>
    have hroom : pre.length < maxTestDepth := Nat.lt_of_succ_lt hlen
    have hlength : (pre ++ [no]).length = pre.length + 1 := by
      rw [List.length_append, List.length_singleton]
    rw [runLoopArray, runLoop]
    by_cases hlast : lastTc = some (pre ++ [no])
    · rw [if_pos hlast, if_pos hlast, endLoopArray_eq hroom]
      rfl
    · have hset : (Testno.ofList (pre ++ [no])).set (pre.length + 1) 1
          = some (.ofList (pre ++ [no] ++ [1])) := by
        rw [← hlength]
        exact Testno.set_length (by omega) 1
      rw [if_neg hlast, if_neg hlast, Testno.get_concat hroom]
      simp only [Option.bind_eq_bind, Option.bind_some, hset]
      by_cases hdeep : maxTestDepth ≤ pre.length + 2
      · rw [if_pos hdeep, runGroupArray_full (forall_pos_concat hpre hno) Nat.one_pos (by omega)]
        rfl
      · rw [if_neg hdeep, runGroupArray_eq (forall_pos_concat hpre hno) rfl (by omega)]
        have hconfig : runConfig outcome testcases (pre ++ [no]) 1 { s with testRes := .success }
            = { s with testRes := .success } := if_neg (lt_irrefl 1)
        simp only [hconfig, ne_eq, not_true_eq_false, if_false]
        rw [ihe (forall_pos_concat hpre hno) Nat.one_pos (by omega)]
        cases runLoop outcome lastTc testcases (pre ++ [no]) 1 { s with testRes := .success } with
        | none => rfl
        | some r =>
          rw [Option.map_some, Option.bind_some, Option.bind_some]
          by_cases hres : r.1 = 0
          · simp only [hres, not_true_eq_false, if_false]
            rw [nextEntryArray_eq hroom, Option.bind_some]
            exact ih hpre (Nat.succ_pos no) hlen r.2
          · simp only [if_pos hres]
            rw [endLoopArray_eq hroom]
            rfl

/-- **The run from a case on** with the array does what it does with the list, and leaves the array
where that has no room. -/
theorem runTestcasesArray_eq (tc : TcPtr) (hpre : ∀ k ∈ pre, 0 < k)
    (hlen : pre.length + 1 < maxTestDepth) (s : RunState) :
    (runTestcasesArray outcome lastTc tc pre (.ofList (pre ++ [tc.idx + 1])) s).map
        (fun r => (r.1, r.2.2))
      = runTestcases outcome lastTc tc pre (tc.idx + 1) s := by
  rw [runTestcasesArray, runGroupArray_eq hpre rfl hlen, runTestcases,
    if_neg (Nat.not_le_of_lt hlen)]
  simp only
  split
  · rfl
  · rw [runLoopArray_eq _ hpre (Nat.succ_pos _) hlen, Option.map_map]
    exact Option.map_id'

end Refines

example : (testsuiteRunArray smallSuite (some (ascii "1.2")) none fun _ => .success).map
    (fun r => r.summary) = some (some (100, 0)) := by decide

end ChamberSpo

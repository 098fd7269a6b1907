import ChamberSpo.Outline
import ChamberSpo.Tokens

/-!
# The functional test suite

`testsuite.c` runs the cases of a tree of test groups, from the one that `TEST_FIRST` names to the
one before `TEST_LAST`.

* `toTestno`, `getTc`, `readEnvVar` — the two variables and the nodes that they name.
* `runTestcase`, `runConfig`, `runLoop`, `runTestcases` — a case, and the cases of a group.
* `testsuiteRun` — a run of the suite.
* `Required` — the cases that a run is for.

`testno` is the list of its entries before the first zero. `none` stands for an access behind its
end. `runsAll_iff` says which runs have all their cases.
-/

namespace ChamberSpo

/-! ## Test cases -/

/-- The `name` of a case. -/
inductive CaseName where
  /-- `TEST_CONFIG` -/
  | testConfig
  | named (name : String)
  deriving DecidableEq, Repr

/-- An array of `testcase_t`: `TESTCASE`s are items, `TESTGROUP`s groups, and `END_OF_TEST` is
its end. -/
abbrev Testcases := Outline CaseName

/-- `MAX_TEST_DEPTH` -/
def maxTestDepth : ℕ := 8

/-- A case with its number. -/
abbrev Case := List ℕ × CaseName

/-- The value of `__test_res`. -/
inductive TestRes where
  | success
  | testcaseFail
  | testgroupFail
  | testcaseIgnore
  deriving DecidableEq, Repr

/-! ## Variables -/

/-- `strtol(str, &str, 10)`: the value and the rest of the text. -/
def strtol (str : List Byte) : Int × List Byte :=
  let text := str.dropWhile isspace
  let negative := text.head? = some (chr '-')
  let unsigned := if text.head? = some (chr '-') ∨ text.head? = some (chr '+') then text.tail
    else text
  let digits := unsigned.takeWhile isdigit
  let value : Int := digits.foldl (fun value ch => value * 10 + digit ch) 0
  if digits = [] then (0, str)
  else
    (if negative then max (-value) (-(2 ^ 63)) else min value (2 ^ 63 - 1),
      unsigned.drop digits.length)

/-- The loop of `__to_testno`, with `left` entries of `testno` left. -/
def toTestnoFrom : ℕ → List Byte → Option (List ℕ)
  | 0, _ => none
  | left + 1, str =>
    let (value, str) := strtol str
    -- an entry is a `u32`
    let no := (value % 2 ^ 32).toNat
    if no = 0 then some []
    else if str.head? = some (chr '.') then (no :: ·) <$> toTestnoFrom left str.tail
    else some [no]

/-- `__to_testno` of a variable. -/
def toTestno : Option (List Byte) → Option (List ℕ)
  | none => some []
  | some str => toTestnoFrom maxTestDepth str

/-- A pointer into an array of test cases. -/
structure TcPtr where
  base : Testcases
  idx : ℕ

/-- What the pointer points to, with what comes after it. -/
def TcPtr.target (tc : TcPtr) : Testcases := tc.base.drop tc.idx

/-- `tc->testcases` -/
def TcPtr.testcases (tc : TcPtr) : Option Testcases :=
  match tc.target with
  | .group testcases _ => some testcases
  | .item _ _ | .nil => none

/-- `__get_subtc` -/
def getSubtc (tc : Option Testcases) (idx : ℕ) : Option TcPtr := do
  let base ← tc
  if base.length ≤ idx then none else some { base := base, idx := idx }

/-- The loop of `__get_tc`, for a `testno` that is not empty. -/
def getTcFrom (tcs : Option Testcases) : List ℕ → Option TcPtr
  | [] => none
  | [no] => getSubtc tcs (no - 1)
  | no :: testno => do getTcFrom (← getSubtc tcs (no - 1)).testcases testno

/-- `__get_tc` -/
def getTc (ts : Testcases) (testno : List ℕ) : Option TcPtr := getTcFrom (some ts) testno

/-- What `__read_env_var` finds: `first`, `tc` and `__last_tc`, of which the number is kept. -/
structure EnvVars where
  first : List ℕ
  tc : TcPtr
  lastTc : Option (List ℕ)

/-- `__read_env_var`, of the numbers in the two variables; `none` when it returns -1. -/
def readEnvVar (ts : Testcases) (first last : List ℕ) : Option EnvVars := do
  let tc ← (if first = [] then some { base := ts, idx := 0 } else getTc ts first)
  let lastTc ← (if last = [] then some none else (getTc ts last).map fun _ => some last)
  return { first := if first = [] then [1] else first, tc := tc, lastTc := lastTc }

/-! ## Running -/

/-- `__test_res`, the counters, and the cases whose function was called. -/
structure RunState where
  testRes : TestRes
  nrFails : ℕ
  nrPasses : ℕ
  trace : List Case

section Run

-- `outcome` is what the function of a case makes of `__test_res`
variable (outcome : Case → TestRes) (lastTc : Option (List ℕ))

/-- `__run_testcase` -/
def runTestcase (tc : Case) (s : RunState) : RunState :=
  let s := if s.testRes ≠ .testgroupFail then
      { s with testRes := outcome tc, trace := s.trace ++ [tc] }
    else s
  match s.testRes with
  | .testcaseFail | .testgroupFail => { s with nrFails := s.nrFails + 1 }
  | .testcaseIgnore => s
  | .success => { s with nrPasses := s.nrPasses + 1 }

/-- `__run_config`, for the entry `no` of the group `pre`. -/
def runConfig (base : Testcases) (pre : List ℕ) (no : ℕ) (s : RunState) : RunState :=
  if 1 < no then
    match base with
    | .item .testConfig _ => runTestcase outcome (pre ++ [1], .testConfig) s
    | _ => s
  else s

/-- The loop of `__run_testcases` over the entries of the group `pre`, from `no` on. -/
def runLoop : Testcases → List ℕ → ℕ → RunState → Option (Int × RunState)
  | .nil, _, _, s => some (0, s)
  | .item name rest, pre, no, s =>
    if lastTc = some (pre ++ [no]) then some (1, s)
    else
      let s := runTestcase outcome (pre ++ [no], name) s
      if s.testRes ≠ .success then some (-1, s) else runLoop rest pre (no + 1) s
  | .group testcases rest, pre, no, s =>
    if lastTc = some (pre ++ [no]) then some (1, s)
    -- `testno` has room for the number of an entry and a zero
    else if maxTestDepth ≤ pre.length + 2 then none
    else do
      -- `__run_config` has nothing to do before the first entry
      let (res, s) ← runLoop testcases (pre ++ [no]) 1 { s with testRes := .success }
      if res ≠ 0 then return (res, s) else runLoop rest pre (no + 1) s

/-- `__run_testcases`, from the entry `no` of the group `pre` on. -/
def runTestcases (tc : TcPtr) (pre : List ℕ) (no : ℕ) (s : RunState) : Option (Int × RunState) :=
  if maxTestDepth ≤ pre.length + 1 then none
  else
    let s := runConfig outcome tc.base pre no { s with testRes := .success }
    if s.testRes ≠ .success then some (-1, s) else runLoop outcome lastTc tc.target pre no s

end Run

/-- What a run leaves. -/
structure SuiteRun where
  res : Int
  state : RunState
  /-- the percentages of `__show_summary`; `none` for a division by zero -/
  summary : Option (ℕ × ℕ)

/-- The state before a run. -/
def RunState.init : RunState where
  testRes := .success
  nrFails := 0
  nrPasses := 0
  trace := []

/-- `__show_summary` -/
def showSummary (s : RunState) : Option (ℕ × ℕ) :=
  let nrTestcases := s.nrPasses + s.nrFails
  if nrTestcases = 0 then none
  else some (s.nrPasses * 100 / nrTestcases, s.nrFails * 100 / nrTestcases)

/-- `testsuite_run`, with the values of `TEST_FIRST` and `TEST_LAST`. -/
def testsuiteRun (ts : Testcases) (testFirst testLast : Option (List Byte))
    (outcome : Case → TestRes) : Option SuiteRun := do
  let first ← toTestno testFirst
  let last ← toTestno testLast
  match readEnvVar ts first last with
  | none => return { res := -1, state := .init, summary := none }
  | some vars =>
    let pre := vars.first.dropLast
    let no := vars.first.getLastD 0
    let (_, s) ← runTestcases outcome vars.lastTc vars.tc pre no .init
    return { res := 0, state := s, summary := showSummary s }

example : toTestno (some (ascii "2.10.3")) = some [2, 10, 3] := by decide

/-! ## Runs over a group -/

/-- The case passes. -/
def passes (outcome : Case → TestRes) (tc : Case) : Bool := outcome tc = .success

/-- The case is no Configuration. -/
def nonConfig (tc : Case) : Bool := tc.2 ≠ .testConfig

/-- A case of a group, with the number that it has in the tree. -/
def inTree (pre : List ℕ) (tc : Case) : Case := (pre ++ tc.1, tc.2)

/-- What a loop over `w.1` leaves, which ends at the last case if `w.2`. -/
structure LoopOut (outcome : Case → TestRes) (w : List Case × Bool) (s : RunState)
    (out : Int × RunState) : Prop where
  trace : out.2.trace = s.trace ++ through (passes outcome) w.1
  all : (∀ x ∈ w.1, passes outcome x = true) →
    out.1 = (if w.2 then 1 else 0) ∧ out.2.testRes = .success
  cut : (¬ ∀ x ∈ w.1, passes outcome x = true) → out.1 = -1

section Loop

variable {outcome : Case → TestRes} {lastTc : Option (List ℕ)}

/-- **One case** is run, and its outcome is there. -/
theorem runTestcase_spec (tc : Case) {s : RunState} (hs : s.testRes ≠ .testgroupFail) :
    (runTestcase outcome tc s).testRes = outcome tc ∧
      (runTestcase outcome tc s).trace = s.trace ++ [tc] := by
  rw [runTestcase, if_pos hs]
  cases outcome tc <;> simp

theorem LoopOut.nil (found : Bool) {s : RunState} (hs : s.testRes = .success) :
    LoopOut outcome ([], found) s (if found then 1 else 0, s) where
  trace := (List.append_nil _).symm
  all _ := ⟨rfl, hs⟩
  cut hno := absurd (fun _ hx => absurd hx List.not_mem_nil) hno

/-- A case that passes lets the loop go on. -/
theorem LoopOut.pass {tc : Case} {s : RunState} (hs : s.testRes = .success)
    (hpass : outcome tc = .success) :
    LoopOut outcome ([tc], false) s (0, runTestcase outcome tc s) := by
  obtain ⟨hres, htrace⟩ : (runTestcase outcome tc s).testRes = outcome tc ∧
      (runTestcase outcome tc s).trace = s.trace ++ [tc] := runTestcase_spec tc (by rw [hs]; decide)
  have hwell : passes outcome tc = true := decide_eq_true hpass
  refine ⟨?_, fun _ => ⟨rfl, hres.trans hpass⟩, fun hno => absurd ?_ hno⟩
  · rw [through, if_pos hwell]
    exact htrace
  · intro x hx
    rw [List.mem_singleton.mp hx]
    exact hwell

/-- A case that does not pass ends it. -/
theorem LoopOut.fail {tc : Case} {s : RunState} (hs : s.testRes = .success)
    (hfail : outcome tc ≠ .success) :
    LoopOut outcome ([tc], false) s (-1, runTestcase outcome tc s) := by
  have htrace : (runTestcase outcome tc s).trace = s.trace ++ [tc] :=
    (runTestcase_spec tc (by rw [hs]; decide)).2
  have hbad : ¬ passes outcome tc = true := mt of_decide_eq_true hfail
  refine ⟨?_, fun hall => absurd (hall tc List.mem_cons_self) hbad, fun _ => rfl⟩
  rw [through, if_neg hbad]
  exact htrace

/-- One loop after another, if every case of the first one passes. -/
theorem LoopOut.append {l l' : List Case} {found : Bool} {s : RunState} {out out' : Int × RunState}
    (h : LoopOut outcome (l, false) s out) (hall : ∀ x ∈ l, passes outcome x = true)
    (h' : LoopOut outcome (l', found) out.2 out') : LoopOut outcome (l ++ l', found) s out' := by
  refine ⟨?_, ?_, ?_⟩
  · rw [h'.trace, h.trace, through_of_all hall, through_append_of_all hall, List.append_assoc]
  · intro hboth
    exact h'.all fun x hx => hboth x (List.mem_append_right _ hx)
  · intro hno
    refine h'.cut fun hall' => hno ?_
    intro x hx
    rcases List.mem_append.mp hx with hx | hx
    · exact hall x hx
    · exact hall' x hx

/-- A case that does not pass ends both. -/
theorem LoopOut.cut_append {l : List Case} {found : Bool} {s : RunState} {out : Int × RunState}
    (h : LoopOut outcome (l, found) s out) (hno : ¬ ∀ x ∈ l, passes outcome x = true)
    (l' : List Case) (found' : Bool) : LoopOut outcome (l ++ l', found') s out := by
  refine ⟨?_, ?_, fun _ => h.cut hno⟩
  · rw [h.trace, through_append_of_not_all hno]
  · intro hboth
    exact absurd (fun x hx => hboth x (List.mem_append_left _ hx)) hno

/-- The cases of a group in a group. -/
theorem map_inTree_map (pre : List ℕ) (no : ℕ) (l : List Case) :
    (l.map (Prod.map (no :: ·) id)).map (inTree pre) = l.map (inTree (pre ++ [no])) := by
  rw [List.map_map]
  refine List.map_congr_left ?_
  intro x _
  change (pre ++ no :: x.1, x.2) = (pre ++ [no] ++ x.1, x.2)
  rw [List.append_cons]

/-- **The loop over a group** runs what a walk finds, up to the first case that does not pass. -/
theorem runLoop_spec (o : Testcases) (pre : List ℕ) (no : ℕ) (last : Option (List ℕ))
    (s : RunState) (hlast : ∀ addr, addr ≠ [] → (lastTc = some (pre ++ addr) ↔ last = some addr))
    (hdepth : pre.length + o.depth < maxTestDepth) (hs : s.testRes = .success) :
    ∃ out, runLoop outcome lastTc o pre no s = some out ∧
      LoopOut outcome ((o.walk no last).1.map (inTree pre), (o.walk no last).2) s out := by
  induction o generalizing pre no last s with
  | nil => exact ⟨_, rfl, .nil false hs⟩
  | item name rest ih =>
    rw [runLoop, Outline.walk]
    by_cases hend : last = some [no]
    · rw [if_pos ((hlast [no] (by simp)).mpr hend), if_pos hend]
      exact ⟨_, rfl, .nil true hs⟩
    · rw [if_neg fun h => hend ((hlast [no] (by simp)).mp h), if_neg hend]
      have hres : (runTestcase outcome (pre ++ [no], name) s).testRes
          = outcome (pre ++ [no], name) :=
        (runTestcase_spec (pre ++ [no], name) (by rw [hs]; decide)).1
      simp only [hres]
      by_cases hpass : outcome (pre ++ [no], name) = .success
      · obtain ⟨out, hout, h⟩ := ih pre (no + 1) last _ hlast hdepth (hres.trans hpass)
        rw [if_neg (not_not.mpr hpass)]
        have hwell : ∀ x ∈ [(pre ++ [no], name)], passes outcome x = true := fun x hx => by
          rw [List.mem_singleton.mp hx]
          exact decide_eq_true hpass
        exact ⟨out, hout, (LoopOut.pass hs hpass).append hwell h⟩
      · have hbad : ¬ ∀ x ∈ [(pre ++ [no], name)], passes outcome x = true := fun hall =>
          hpass (of_decide_eq_true (hall _ List.mem_cons_self))
        rw [if_pos hpass]
        exact ⟨_, rfl, (LoopOut.fail hs hpass).cut_append hbad _ _⟩
  | group entries rest ihe ih =>
    rw [runLoop, Outline.walk]
    by_cases hend : last = some [no]
    · rw [if_pos ((hlast [no] (by simp)).mpr hend), if_pos hend]
      exact ⟨_, rfl, .nil true hs⟩
    · have hentries : entries.depth + 1 ≤ (Outline.group entries rest).depth := le_max_left _ _
      have hrest : rest.depth ≤ (Outline.group entries rest).depth := le_max_right _ _
      have hpos := entries.depth_pos
      have hlen : (pre ++ [no]).length = pre.length + 1 := List.length_append
      have hin : ∀ addr, addr ≠ [] →
          (lastTc = some (pre ++ [no] ++ addr) ↔ Outline.inGroup no last = some addr) := by
        intro addr _
        rw [Outline.inGroup_eq_some, ← hlast _ (List.cons_ne_nil no addr), List.append_assoc,
          List.singleton_append]
      obtain ⟨out, hout, h⟩ := ihe (pre ++ [no]) 1 (Outline.inGroup no last)
        { s with testRes := .success } hin (by omega) rfl
      rw [if_neg fun h => hend ((hlast [no] (by simp)).mp h), if_neg hend,
        if_neg (show ¬ maxTestDepth ≤ pre.length + 2 by omega), hout]
      simp only [← map_inTree_map] at h
      generalize entries.walk 1 (Outline.inGroup no last) = w at h ⊢
      obtain ⟨inner, found⟩ := w
      simp only at h ⊢
      replace h : LoopOut outcome ((inner.map (Prod.map (no :: ·) id)).map (inTree pre), found) s
          out := ⟨h.trace, h.all, h.cut⟩
      change ∃ out', (if out.1 ≠ 0 then some out else
        runLoop outcome lastTc rest pre (no + 1) out.2) = some out' ∧ _
      cases found with
      | true =>
        -- the last case is in the group, so the loop over the group was the last one
        have hne : out.1 ≠ 0 := by
          by_cases hall : ∀ x ∈ (inner.map (Prod.map (no :: ·) id)).map (inTree pre),
              passes outcome x = true
          · rw [(h.all hall).1]
            exact Int.one_ne_zero
          · rw [h.cut hall]
            decide
        rw [if_pos hne]
        simp only [if_true]
        exact ⟨out, rfl, h⟩
      | false =>
        simp only [Bool.false_eq_true, if_false, List.map_append]
        by_cases hall : ∀ x ∈ (inner.map (Prod.map (no :: ·) id)).map (inTree pre),
            passes outcome x = true
        · obtain ⟨hres, hsucc⟩ := h.all hall
          change out.1 = 0 at hres
          obtain ⟨out', hout', h'⟩ := ih pre (no + 1) last out.2 hlast (by omega) hsucc
          rw [if_neg (not_not.mpr hres)]
          exact ⟨out', hout', h.append hall h'⟩
        · rw [if_pos (by rw [h.cut hall]; decide)]
          exact ⟨out, rfl, h.cut_append hall _ _⟩

/-- The Configuration that is run before the entry `no` of the group `pre`. -/
def entryConfig (base : Testcases) (pre : List ℕ) (no : ℕ) : List Case :=
  if 1 < no then
    match base with
    | .item .testConfig _ => [(pre ++ [1], .testConfig)]
    | _ => []
  else []

theorem through_entryConfig (well : Case → Bool) (base : Testcases) (pre : List ℕ) (no : ℕ) :
    through well (entryConfig base pre no) = entryConfig base pre no := by
  simp only [entryConfig]
  split
  · split
    · simp [through]
    · rfl
  · rfl

theorem runConfig_spec (base : Testcases) (pre : List ℕ) (no : ℕ) {s : RunState}
    (hs : s.testRes = .success) :
    (runConfig outcome base pre no s).trace = s.trace ++ entryConfig base pre no ∧
      ((runConfig outcome base pre no s).testRes = .success ↔
        ∀ x ∈ entryConfig base pre no, passes outcome x = true) := by
  simp only [runConfig, entryConfig]
  split
  · cases base with
    | nil => simp [hs]
    | group entries rest => simp [hs]
    | item name rest =>
      cases name with
      | named text => simp [hs]
      | testConfig =>
        obtain ⟨hres, htrace⟩ : (runTestcase outcome (pre ++ [1], .testConfig) s).testRes
            = outcome (pre ++ [1], .testConfig) ∧ _ :=
          runTestcase_spec (pre ++ [1], .testConfig) (by rw [hs]; decide)
        refine ⟨htrace, ?_⟩
        simp only [hres, List.mem_singleton, forall_eq, passes, decide_eq_true_eq]
  · simp [hs]

/-- **The cases of a group from an entry on**: first its Configuration. -/
theorem runTestcases_spec (tc : TcPtr) (pre : List ℕ) (no : ℕ) (last : Option (List ℕ))
    (s : RunState) (hlast : ∀ addr, addr ≠ [] → (lastTc = some (pre ++ addr) ↔ last = some addr))
    (hdepth : pre.length + tc.base.depth < maxTestDepth) :
    ∃ out, runTestcases outcome lastTc tc pre no s = some out ∧
      out.2.trace = s.trace ++ through (passes outcome)
        (entryConfig tc.base pre no ++ (tc.target.walk no last).1.map (inTree pre)) := by
  have hpos := tc.base.depth_pos
  have htarget : tc.target.depth ≤ tc.base.depth := Outline.depth_drop_le _ _
  have hclear : { s with testRes := .success }.testRes = TestRes.success := rfl
  obtain ⟨htrace, hres⟩ : (runConfig outcome tc.base pre no { s with testRes := .success }).trace
      = s.trace ++ entryConfig tc.base pre no ∧ _ := runConfig_spec tc.base pre no hclear
  rw [runTestcases, if_neg (show ¬ maxTestDepth ≤ pre.length + 1 by omega)]
  simp only
  by_cases hall : ∀ x ∈ entryConfig tc.base pre no, passes outcome x = true
  · rw [if_neg (not_not.mpr (hres.mpr hall))]
    obtain ⟨out, hout, h⟩ := runLoop_spec tc.target pre no last _ hlast (by omega) (hres.mpr hall)
    refine ⟨out, hout, ?_⟩
    rw [h.trace, htrace, through_append_of_all hall, List.append_assoc]
  · rw [if_pos fun h => hall (hres.mp h)]
    refine ⟨_, rfl, ?_⟩
    rw [htrace, through_append_of_not_all hall, through_entryConfig]

end Loop

/-! ## Nodes -/

theorem map_cons_map_inTree (no : ℕ) (pre : List ℕ) (l : List Case) :
    (l.map (inTree pre)).map (Prod.map (no :: ·) id) = l.map (inTree (no :: pre)) := by
  rw [List.map_map]
  rfl

/-- The pointer `tc` to the node with the number `first`, in the group `first.dropLast`. -/
structure Located (ts : Testcases) (first : List ℕ) (tc : TcPtr) : Prop where
  append : first = first.dropLast ++ [tc.idx + 1]
  depth : first.dropLast.length + tc.base.depth ≤ ts.depth
  items : (ts.items 1).filter (fun x => decide (first.dropLast <+: x.1 ∧ ¬ x.1 < first))
    = (tc.target.items (tc.idx + 1)).map (inTree first.dropLast)
  has : ∀ addr, addr ≠ [] → ts.Has 1 (first.dropLast ++ addr) → tc.base.Has 1 addr
  item : ∀ name, (first.dropLast ++ [1], name) ∈ ts.items 1 ↔ ([1], name) ∈ tc.base.items 1

section Located

variable {ts : Testcases} {tc : TcPtr} {testno : List ℕ}

/-- The entry with a number of its own. -/
theorem Located.entry (ts : Testcases) (idx : ℕ) :
    Located ts [idx + 1] { base := ts, idx := idx } where
  append := rfl
  depth := by simp
  items := by
    have h := Outline.filter_items_drop ts 1 idx
    rw [Nat.add_comm 1 idx] at h
    simp only [List.dropLast_singleton, List.nil_prefix, true_and]
    rw [h]
    exact (List.map_id _).symm
  has _ _ h := h
  item _ := Iff.rfl

/-- An entry of a group. -/
theorem Located.below {entries rest : Testcases} {idx : ℕ} (h : Located entries testno tc)
    (hgroup : ts.drop idx = .group entries rest) : Located ts ((idx + 1) :: testno) tc := by
  have hne : testno ≠ [] := by
    rw [h.append]
    simp
  have hdrop : ((idx + 1) :: testno).dropLast = (idx + 1) :: testno.dropLast :=
    List.dropLast_cons_of_ne_nil hne
  have hitems := Outline.filter_items_group 1 hgroup
  rw [Nat.add_comm 1 idx] at hitems
  refine ⟨?_, ?_, ?_, ?_, ?_⟩
  · rw [hdrop, List.cons_append, ← h.append]
  · have hdepth := h.depth
    have hle := Outline.depth_drop_le ts idx
    have hlt : entries.depth + 1 ≤ (Outline.group entries rest).depth := le_max_left _ _
    rw [hgroup] at hle
    rw [hdrop, List.length_cons]
    omega
  · -- only the items of the group have its number
    have hfilter : (ts.items 1).filter (fun x => decide
        ((idx + 1) :: testno.dropLast <+: x.1 ∧ ¬ x.1 < (idx + 1) :: testno))
        = ((ts.items 1).filter (fun x => decide (x.1.head? = some (idx + 1)))).filter
          (fun x => decide
            ((idx + 1) :: testno.dropLast <+: x.1 ∧ ¬ x.1 < (idx + 1) :: testno)) := by
      rw [List.filter_filter]
      refine List.filter_congr ?_
      intro x _
      by_cases hpre : (idx + 1) :: testno.dropLast <+: x.1
      · obtain ⟨tail, htail⟩ := hpre
        rw [← htail]
        simp
      · simp [hpre]
    rw [hdrop, hfilter, hitems, List.filter_map, ← map_cons_map_inTree, ← h.items]
    congr 1
    refine List.filter_congr fun x _ => decide_eq_decide.mpr ?_
    change (idx + 1) :: _ <+: (idx + 1) :: x.1 ∧ ¬ (idx + 1) :: x.1 < (idx + 1) :: testno ↔ _
    rw [List.prefix_cons_inj, List.cons_lt_cons_iff]
    simp
  · intro addr haddr hhas
    rw [hdrop, List.cons_append, Nat.add_comm idx 1] at hhas
    exact h.has addr haddr (hhas.of_cons (by simp [haddr]) hgroup)
  · intro name
    rw [hdrop, List.cons_append, ← h.item]
    refine ⟨?_, ?_⟩
    · intro hmem
      have hin : ((idx + 1) :: (testno.dropLast ++ [1]), name) ∈
          (ts.items 1).filter (fun x => decide (x.1.head? = some (idx + 1))) :=
        List.mem_filter.mpr ⟨hmem, decide_eq_true rfl⟩
      rw [hitems] at hin
      obtain ⟨y, hy, heq⟩ := List.mem_map.mp hin
      have haddr : y.1 = testno.dropLast ++ [1] := List.tail_eq_of_cons_eq (congrArg Prod.fst heq)
      have hname : y.2 = name := congrArg Prod.snd heq
      rwa [show y = (testno.dropLast ++ [1], name) from Prod.ext haddr hname] at hy
    · intro hmem
      have hin : ((idx + 1) :: (testno.dropLast ++ [1]), name) ∈
          (entries.items 1).map (Prod.map ((idx + 1) :: ·) id) :=
        List.mem_map.mpr ⟨_, hmem, rfl⟩
      rw [← hitems] at hin
      exact List.mem_of_mem_filter hin

/-- **`__get_tc`** finds the nodes of the tree. -/
theorem getTc_located (hpos : ∀ no ∈ testno, 0 < no) (h : ts.Has 1 testno) :
    ∃ tc, getTc ts testno = some tc ∧ Located ts testno tc := by
  induction testno generalizing ts with
  | nil =>
    obtain ⟨k, tail, -, heq⟩ := h.exists_cons
    cases heq
  | cons no rest ih =>
    obtain ⟨idx, rfl⟩ : ∃ idx, no = idx + 1 :=
      ⟨no - 1, by have := hpos no List.mem_cons_self; omega⟩
    have hlt : idx < ts.length := by
      rw [Nat.add_comm idx 1] at h
      exact h.lt_length
    have hsub : getSubtc (some ts) (idx + 1 - 1) = some { base := ts, idx := idx } :=
      if_neg (Nat.not_le_of_lt hlt)
    cases rest with
    | nil => exact ⟨_, hsub, .entry ts idx⟩
    | cons no' rest =>
      rw [Nat.add_comm idx 1] at h
      obtain ⟨entries, after, hgroup⟩ := h.exists_group (List.cons_ne_nil _ _)
      obtain ⟨tc, htc, hloc⟩ := ih (fun k hk => hpos k (List.mem_cons_of_mem _ hk))
        (h.of_cons (List.cons_ne_nil _ _) hgroup)
      refine ⟨tc, ?_, hloc.below hgroup⟩
      have htestcases : TcPtr.testcases { base := ts, idx := idx } = some entries := by
        rw [TcPtr.testcases, TcPtr.target, hgroup]
      rw [getTc, getTcFrom, hsub]
      · change getTcFrom (TcPtr.testcases { base := ts, idx := idx }) _ = _
        rw [htestcases]
        exact htc
      · exact List.cons_ne_nil _ _

end Located

/-- The entries of `testno` are not zero. -/
theorem toTestnoFrom_pos {left : ℕ} {str : List Byte} {testno : List ℕ}
    (h : toTestnoFrom left str = some testno) : ∀ no ∈ testno, 0 < no := by
  induction left generalizing str testno with
  | zero => cases h
  | succ left ih =>
    rw [toTestnoFrom] at h
    simp only at h
    split at h
    · cases h
      exact fun no hno => absurd hno List.not_mem_nil
    · rename_i hne
      split at h
      · obtain ⟨rest, hrest, rfl⟩ := Option.map_eq_some_iff.mp h
        intro no hno
        rcases List.mem_cons.mp hno with rfl | hno
        · exact Nat.pos_of_ne_zero hne
        · exact ih hrest no hno
      · cases h
        intro no hno
        rw [List.mem_singleton.mp hno]
        exact Nat.pos_of_ne_zero hne

theorem toTestno_pos {var : Option (List Byte)} {testno : List ℕ}
    (h : toTestno var = some testno) : ∀ no ∈ testno, 0 < no := by
  cases var with
  | none =>
    cases h
    exact fun no hno => absurd hno List.not_mem_nil
  | some str => exact toTestnoFrom_pos h

/-! ## Whole runs -/

/-- The number of the first case, where `TEST_FIRST` may be unset. -/
def firstNo (first : List ℕ) : List ℕ := if first = [] then [1] else first

/-- The number of the node that ends the run, where `TEST_LAST` may be unset. -/
def lastNo (last : List ℕ) : Option (List ℕ) := if last = [] then none else some last

/-- A case comes before the end of the run. -/
def beforeLast (lastTc : Option (List ℕ)) (x : Case) : Bool :=
  lastTc.all fun last => decide (x.1 < last)

/-- The cases that a run is for, in the order of the tree: all from the first one up to the last
that are no Configurations. -/
def Required (ts : Testcases) (first : List ℕ) (lastTc : Option (List ℕ)) : List Case :=
  (ts.items 1).filter fun x => nonConfig x && decide (¬ x.1 < first) && beforeLast lastTc x

/-- The case `y` is run before `x`: it is one of those from the first on in the group of the
first, or the Configuration that begins this group. -/
def RunsBefore (first : List ℕ) (y x : Case) : Prop :=
  y.1 < x.1 ∧ (first.dropLast <+: y.1 ∧ ¬ y.1 < first ∨ y = (first.dropLast ++ [1], .testConfig))

section Whole

variable {ts : Testcases} {tc : TcPtr} {first : List ℕ} {lastTc : Option (List ℕ)}

theorem beforeLast_iff {x : Case} :
    beforeLast lastTc x = true ↔ ∀ last, lastTc = some last → x.1 < last := by
  cases lastTc with
  | none => simp [beforeLast]
  | some last => simp [beforeLast]

/-- The cases that a walk from the first one finds. -/
def walked (ts : Testcases) (first : List ℕ) (lastTc : Option (List ℕ)) : List Case :=
  (ts.items 1).filter fun x =>
    decide (first.dropLast <+: x.1 ∧ ¬ x.1 < first) && beforeLast lastTc x

/-- **A walk from the first case** finds the cases of its group from there on. -/
theorem walk_located (h : Located ts first tc)
    (hlast : ∀ last, lastTc = some last → ts.Has 1 last ∧ ¬ last < first) :
    ∃ last, (∀ addr, addr ≠ [] →
        (lastTc = some (first.dropLast ++ addr) ↔ last = some addr)) ∧
      (tc.target.walk (tc.idx + 1) last).1.map (inTree first.dropLast)
        = walked ts first lastTc := by
  have hwalked : walked ts first lastTc
      = ((tc.target.items (tc.idx + 1)).map (inTree first.dropLast)).filter
        (beforeLast lastTc) := by
    rw [← h.items, List.filter_filter, walked]
    exact List.filter_congr fun x _ => Bool.and_comm _ _
  rw [hwalked]
  by_cases hin : ∃ addr, lastTc = some (first.dropLast ++ addr)
  · -- the last node is in the group of the first
    obtain ⟨addr, rfl⟩ := hin
    obtain ⟨hhas, hlt⟩ := hlast _ rfl
    have hlt' : ¬ addr < [tc.idx + 1] := by
      rw [← Outline.append_lt_append_iff first.dropLast, ← h.append]
      exact hlt
    obtain ⟨k, tail, rfl⟩ : ∃ k tail, addr = k :: tail := by
      cases addr with
      | nil => exact absurd (List.nil_lt_cons _ _) hlt'
      | cons k tail => exact ⟨k, tail, rfl⟩
    have hk : 1 + tc.idx ≤ k := by
      by_contra hno
      exact hlt' (List.cons_lt_cons_iff.mpr (.inl (by omega)))
    have htarget : tc.target.Has (tc.idx + 1) (k :: tail) := by
      have hdrop := (h.has _ (List.cons_ne_nil k tail) hhas).drop hk
      rwa [Nat.add_comm 1 tc.idx] at hdrop
    refine ⟨some (k :: tail), ?_, ?_⟩
    · intro addr' _
      simp
    · rw [Outline.walk_of_has htarget, List.filter_map]
      congr 1
      refine List.filter_congr ?_
      intro x _
      exact decide_eq_decide.mpr (Outline.append_lt_append_iff first.dropLast _ _).symm
  · -- it is behind the group
    refine ⟨none, fun addr _ => ⟨fun heq => absurd ⟨addr, heq⟩ hin, nofun⟩, ?_⟩
    have hwalk : tc.target.walk (tc.idx + 1) none = (tc.target.items (tc.idx + 1), false) :=
      Outline.walk_of_not_has nofun
    rw [hwalk]
    refine (List.filter_eq_self.mpr fun x hx => beforeLast_iff.mpr ?_).symm
    intro last heq
    obtain ⟨y, -, rfl⟩ := List.mem_map.mp hx
    have hpre : ¬ first.dropLast <+: last := by
      rintro ⟨addr, rfl⟩
      exact hin ⟨addr, heq⟩
    have hlt : first < last := by
      by_contra hno
      have hsame : first = last :=
        List.le_antisymm (List.not_lt.mp (hlast last heq).2) (List.not_lt.mp hno)
      exact hpre (hsame ▸ List.dropLast_prefix first)
    rw [h.append] at hlt
    exact Outline.append_lt_of_append_lt hpre hlt y.1

/-- What is run, if everything passes. -/
theorem filter_nonConfig_run (base : Testcases) (no : ℕ) :
    (entryConfig base first.dropLast no ++ walked ts first lastTc).filter nonConfig
      = (Required ts first lastTc).filter fun x => decide (first.dropLast <+: x.1) := by
  have hentry : (entryConfig base first.dropLast no).filter nonConfig = [] := by
    simp only [entryConfig]
    split
    · split <;> rfl
    · rfl
  rw [List.filter_append, hentry, List.nil_append, walked, Required, List.filter_filter,
    List.filter_filter]
  refine List.filter_congr ?_
  intro x _
  rw [Bool.decide_and]
  cases nonConfig x <;> cases beforeLast lastTc x <;> cases decide (¬ x.1 < first) <;>
    cases decide (first.dropLast <+: x.1) <;> rfl

theorem mem_entryConfig (h : Located ts first tc) {x : Case} :
    x ∈ entryConfig tc.base first.dropLast (tc.idx + 1) ↔
      x ∈ ts.items 1 ∧ x = (first.dropLast ++ [1], .testConfig) ∧ x.1 < first := by
  have hlt : first.dropLast ++ [1] < first ↔ 1 < tc.idx + 1 := by
    rw [h.append]
    simp only [List.dropLast_concat]
    rw [Outline.append_lt_append_iff, List.cons_lt_cons_iff]
    simp
  refine ⟨?_, ?_⟩
  · simp only [entryConfig]
    split
    · rename_i hno
      split
      · rename_i rest hbase
        intro hx
        obtain rfl := List.mem_singleton.mp hx
        refine ⟨(h.item _).mpr ?_, rfl, hlt.mpr hno⟩
        rw [hbase]
        exact List.mem_cons_self
      · exact fun hx => absurd hx List.not_mem_nil
    · exact fun hx => absurd hx List.not_mem_nil
  · rintro ⟨hmem, rfl, hbefore⟩
    obtain ⟨rest, hbase⟩ := Outline.mem_items_singleton.mp ((h.item _).mp hmem)
    rw [hbase, entryConfig, if_pos (hlt.mp hbefore)]
    exact List.mem_singleton.mpr rfl

/-- What is run is in the order of the tree. -/
theorem pairwise_run (h : Located ts first tc) :
    (entryConfig tc.base first.dropLast (tc.idx + 1) ++ walked ts first lastTc).Pairwise
      fun x y => x.1 < y.1 := by
  refine List.pairwise_append.mpr ⟨?_, ?_, ?_⟩
  · simp only [entryConfig]
    split
    · split
      · exact List.pairwise_singleton _ _
      · exact .nil
    · exact .nil
  · exact (Outline.pairwise_items ts 1).filter _
  · intro x hx y hy
    obtain ⟨-, -, hlt⟩ := (mem_entryConfig h).mp hx
    have hy := (List.mem_filter.mp hy).2
    rw [Bool.and_eq_true, decide_eq_true_eq] at hy
    by_contra hno
    exact hy.1.2 (List.lt_of_le_of_lt hno hlt)

/-- The cases before one that has to be run. -/
theorem mem_run_iff (h : Located ts first tc) {x y : Case} (hx : x ∈ Required ts first lastTc)
    (hlt : y.1 < x.1) :
    y ∈ entryConfig tc.base first.dropLast (tc.idx + 1) ++ walked ts first lastTc ↔
      y ∈ ts.items 1 ∧ RunsBefore first y x := by
  have hlast : beforeLast lastTc y = true := by
    have hx := (List.mem_filter.mp hx).2
    rw [Bool.and_eq_true] at hx
    refine beforeLast_iff.mpr ?_
    intro last heq
    exact List.lt_trans hlt (beforeLast_iff.mp hx.2 last heq)
  rw [List.mem_append, mem_entryConfig h, walked, List.mem_filter, Bool.and_eq_true,
    decide_eq_true_eq, RunsBefore]
  refine ⟨?_, ?_⟩
  · rintro (⟨hmem, heq, -⟩ | ⟨hmem, hgroup, -⟩)
    · exact ⟨hmem, hlt, .inr heq⟩
    · exact ⟨hmem, hlt, .inl hgroup⟩
  · rintro ⟨hmem, -, hgroup | heq⟩
    · exact .inr ⟨hmem, hgroup, hlast⟩
    · by_cases hbefore : y.1 < first
      · exact .inl ⟨hmem, heq, hbefore⟩
      · refine .inr ⟨hmem, ⟨?_, hbefore⟩, hlast⟩
        rw [heq]
        exact List.prefix_append _ _

/-- The run has all its cases. -/
theorem runsAll_through (outcome : Case → TestRes) (h : Located ts first tc) :
    (RunState.init.trace ++ through (passes outcome)
        (entryConfig tc.base first.dropLast (tc.idx + 1) ++ walked ts first lastTc)).filter
          nonConfig = Required ts first lastTc ↔
      ∀ x ∈ Required ts first lastTc, first.dropLast <+: x.1 ∧
        ∀ y ∈ ts.items 1, RunsBefore first y x → outcome y = .success := by
  have hordered : (entryConfig tc.base first.dropLast (tc.idx + 1)
      ++ walked ts first lastTc).Pairwise fun x y => x.1 < y.1 := pairwise_run h
  have hfilter : (entryConfig tc.base first.dropLast (tc.idx + 1)
      ++ walked ts first lastTc).filter nonConfig = _ :=
    filter_nonConfig_run tc.base (tc.idx + 1)
  generalize hw : entryConfig tc.base first.dropLast (tc.idx + 1) ++ walked ts first lastTc = w
    at hordered hfilter
  have hcut : (through (passes outcome) w).filter nonConfig = w.filter nonConfig ↔ _ :=
    filter_through_eq_iff (fun x y => List.lt_asymm) nonConfig hordered
  have hnil : RunState.init.trace ++ through (passes outcome) w = through (passes outcome) w := rfl
  rw [hnil]
  have hmem : ∀ x ∈ Required ts first lastTc, first.dropLast <+: x.1 →
      x ∈ w ∧ nonConfig x = true := by
    intro x hx hpre
    apply List.mem_filter.mp
    rw [hfilter]
    exact List.mem_filter.mpr ⟨hx, decide_eq_true hpre⟩
  have hpasses : ∀ y, passes outcome y = true ↔ outcome y = .success := fun y => decide_eq_true_iff
  refine ⟨?_, ?_⟩
  · intro hall
    have hsub : ((through (passes outcome) w).filter nonConfig).Sublist (w.filter nonConfig) :=
      (isPrefix_through _ _).sublist.filter _
    have hgroup : (Required ts first lastTc).filter (fun x => decide (first.dropLast <+: x.1))
        = Required ts first lastTc := by
      rw [hall, hfilter] at hsub
      exact (List.filter_sublist.antisymm hsub)
    have heq : (through (passes outcome) w).filter nonConfig = w.filter nonConfig := by
      rw [hall, hfilter, hgroup]
    intro x hx
    have hpre := of_decide_eq_true (List.filter_eq_self.mp hgroup x hx)
    obtain ⟨hin, hp⟩ := hmem x hx hpre
    refine ⟨hpre, fun y hy hbefore => (hpasses y).mp ?_⟩
    refine hcut.mp heq x hin hp y ?_ hbefore.1
    rw [← hw]
    exact (mem_run_iff h hx hbefore.1).mpr ⟨hy, hbefore⟩
  · intro hall
    have hgroup : (Required ts first lastTc).filter (fun x => decide (first.dropLast <+: x.1))
        = Required ts first lastTc :=
      List.filter_eq_self.mpr fun x hx => decide_eq_true (hall x hx).1
    rw [hgroup] at hfilter
    rw [hcut.mpr ?_, hfilter]
    intro x hin hp y hy hlt
    have hx : x ∈ Required ts first lastTc := by
      rw [← hfilter]
      exact List.mem_filter.mpr ⟨hin, hp⟩
    rw [← hw] at hy
    obtain ⟨hts, hbefore⟩ := (mem_run_iff h hx hlt).mp hy
    exact (hpasses y).mpr ((hall x hx).2 y hts hbefore)

end Whole

/-- What a run finds in its variables. -/
theorem readEnvVar_spec {ts : Testcases} {first last : List ℕ} (hfpos : ∀ no ∈ first, 0 < no)
    (hlpos : ∀ no ∈ last, 0 < no) (hfirst : first = [] ∨ ts.Has 1 first)
    (hlast : last = [] ∨ ts.Has 1 last) :
    ∃ tc, readEnvVar ts first last = some ⟨firstNo first, tc, lastNo last⟩ ∧
      Located ts (firstNo first) tc := by
  obtain ⟨tc, htc, hloc⟩ : ∃ tc, (if first = [] then some { base := ts, idx := 0 }
      else getTc ts first) = some tc ∧ Located ts (firstNo first) tc := by
    by_cases hf : first = []
    · rw [firstNo, if_pos hf, if_pos hf]
      exact ⟨_, rfl, .entry ts 0⟩
    · rw [firstNo, if_neg hf, if_neg hf]
      exact getTc_located hfpos (hfirst.resolve_left hf)
  have hend : (if last = [] then some none else (getTc ts last).map fun _ => some last)
      = some (lastNo last) := by
    by_cases hl : last = []
    · rw [lastNo, if_pos hl, if_pos hl]
    · obtain ⟨tc', htc', -⟩ := getTc_located hlpos (hlast.resolve_left hl)
      rw [lastNo, if_neg hl, if_neg hl, htc']
      rfl
  refine ⟨tc, ?_, hloc⟩
  rw [readEnvVar, htc, hend]
  rfl

/-- The first case is not behind the last one. -/
theorem not_lt_firstNo {ts : Testcases} {first last : List ℕ} (hhas : ts.Has 1 last)
    (hlt : first ≠ [] → first < last) : ¬ last < firstNo first := by
  by_cases hf : first = []
  · obtain ⟨k, tail, hk, rfl⟩ := hhas.exists_cons
    rw [firstNo, if_pos hf, List.cons_lt_cons_iff]
    rintro (hno | ⟨-, hno⟩)
    · omega
    · exact List.not_lt_nil tail hno
  · rw [firstNo, if_neg hf]
    exact List.lt_asymm (hlt hf)

/-- **When a run has all its cases**: each of them is in the group of the first one, and what is
run before it passes. -/
theorem runsAll_iff {ts : Testcases} {testFirst testLast : Option (List Byte)}
    {first last : List ℕ} (outcome : Case → TestRes) (hdepth : ts.depth < maxTestDepth)
    (hf : toTestno testFirst = some first) (hl : toTestno testLast = some last)
    (hfirst : first = [] ∨ ts.Has 1 first) (hlast : last = [] ∨ ts.Has 1 last)
    (hlt : first ≠ [] → last ≠ [] → first < last) :
    ∃ r, testsuiteRun ts testFirst testLast outcome = some r ∧ r.res = 0 ∧
      (r.state.trace.filter nonConfig = Required ts (firstNo first) (lastNo last) ↔
        ∀ x ∈ Required ts (firstNo first) (lastNo last), (firstNo first).dropLast <+: x.1 ∧
          ∀ y ∈ ts.items 1, RunsBefore (firstNo first) y x → outcome y = .success) := by
  obtain ⟨tc, hvars, hloc⟩ := readEnvVar_spec (toTestno_pos hf) (toTestno_pos hl) hfirst hlast
  have hno : (firstNo first).getLastD 0 = tc.idx + 1 := by
    rw [hloc.append]
    simp
  have hend : ∀ l, lastNo last = some l → ts.Has 1 l ∧ ¬ l < firstNo first := by
    intro l heq
    by_cases hnil : last = []
    · rw [lastNo, if_pos hnil] at heq
      cases heq
    · rw [lastNo, if_neg hnil] at heq
      cases heq
      have hhas := hlast.resolve_left hnil
      exact ⟨hhas, not_lt_firstNo hhas fun hf => hlt hf hnil⟩
  obtain ⟨last', hrel, hwalk⟩ := walk_located hloc hend
  have hle := hloc.depth
  obtain ⟨out, hout, htrace⟩ : ∃ out, runTestcases outcome (lastNo last) tc
      (firstNo first).dropLast (tc.idx + 1) .init = some out ∧ _ :=
    runTestcases_spec tc (firstNo first).dropLast (tc.idx + 1) last' .init hrel (by omega)
  rw [hwalk] at htrace
  refine ⟨{ res := 0, state := out.2, summary := showSummary out.2 }, ?_, rfl, ?_⟩
  · rw [testsuiteRun, hf, hl]
    simp only [Option.bind_eq_bind, Option.bind_some]
    rw [hvars]
    simp only [hno, hout]
    rfl
  · change out.2.trace.filter nonConfig = _ ↔ _
    rw [htrace]
    exact runsAll_through outcome hloc

/-- A group of two cases and a case. -/
def smallSuite : Testcases :=
  .group (.item (.named "first") (.item (.named "second") .nil)) (.item (.named "third") .nil)

/-- With `TEST_LAST=2` and no `TEST_FIRST`, the two cases of the group are run, if they pass. -/
theorem runsAll_smallSuite :
    ∃ r, testsuiteRun smallSuite none (some (ascii "2")) (fun _ => .success) = some r ∧
      r.res = 0 ∧
      r.state.trace.filter nonConfig = [([1, 1], .named "first"), ([1, 2], .named "second")] := by
  obtain ⟨r, hr, hres, hiff⟩ := @runsAll_iff smallSuite none (some (ascii "2")) [] [2]
    (fun _ => .success) (by decide) rfl (by decide) (.inl rfl)
    (.inr (by simp [smallSuite, Outline.Has])) (fun hne => absurd rfl hne)
  -- the walk begins at the top of the tree
  have hall := hiff.mpr fun x _ => ⟨List.nil_prefix, fun _ _ _ => rfl⟩
  exact ⟨r, hr, hres, hall.trans (by decide)⟩

/-- **The rest of the tree is not run** after the group of the first case: with `TEST_FIRST=1.2`
the third case is left out although everything passes. -/
theorem not_runsAll_smallSuite :
    ¬ ∀ (ts : Testcases) (testFirst testLast : Option (List Byte)) (first last : List ℕ)
      (outcome : Case → TestRes), ts.depth < maxTestDepth → toTestno testFirst = some first →
      toTestno testLast = some last → (first = [] ∨ ts.Has 1 first) →
      (last = [] ∨ ts.Has 1 last) → (first ≠ [] → last ≠ [] → first < last) →
      (∀ tc, outcome tc = .success ∨ outcome tc = .testcaseIgnore) →
      ∃ r, testsuiteRun ts testFirst testLast outcome = some r ∧
        r.state.trace.filter nonConfig = Required ts (firstNo first) (lastNo last) := by
  intro h
  obtain ⟨r, hr, hall⟩ := h smallSuite (some (ascii "1.2")) none [1, 2] [] (fun _ => .success)
    (by decide) (by decide) rfl (.inr (by simp [smallSuite, Outline.Has])) (.inl rfl)
    (fun _ hno => absurd rfl hno) fun _ => .inl rfl
  have hrun : (testsuiteRun smallSuite (some (ascii "1.2")) none fun _ => .success).map
      (fun r => r.state.trace.filter nonConfig) = some [([1, 2], .named "second")] := by decide
  have hrequired : Required smallSuite (firstNo [1, 2]) (lastNo [])
      = [([1, 2], .named "second"), ([2], .named "third")] := by decide
  rw [hr, Option.map_some, hall, hrequired] at hrun
  cases hrun

end ChamberSpo

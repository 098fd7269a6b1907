import ChamberSpo.TestNumbers

/-!
# Which runs of the test suite are safe

A run of `testsuite.c` goes wrong where a number has no entry in the array of numbers, and where the
summary divides by the number of cases that have passed or failed.

* `BeginsWithNumbers`, `varNumbers` — what a variable holds, whatever its length is.
* `Outline.groupAt`, `Outline.nodes` — the entries of a group, and those from one on in the order of
  the tree.
* `loopNodes` — the loop over a group as one over its nodes. `runLoop_eq_loopNodes`.
* `Comes` — the run comes to a node: nothing before it ends the run.
* `SafeWalk` — no group that the run comes to is too deep, and a case passes or fails.

`testsuiteRunArray_safe_iff` puts them together.
-/

namespace ChamberSpo

/-! ## Variables -/

/-- The number that a text begins with. -/
def leadingNumber (str : List Byte) : ℕ := ((strtol str).1 % 2 ^ 32).toNat

/-- The text begins with `n` numbers that are not 0 and have a dot behind them. -/
def BeginsWithNumbers : ℕ → List Byte → Prop
  | 0, _ => True
  | n + 1, str => leadingNumber str ≠ 0 ∧ (strtol str).2.head? = some (chr '.') ∧
    BeginsWithNumbers n (strtol str).2.tail

/-- The numbers between the dots of a text before one that is 0, and no more than `n` of them. -/
def numbersOf : ℕ → List Byte → List ℕ
  | 0, _ => []
  | n + 1, str =>
    if leadingNumber str = 0 then []
    else if (strtol str).2.head? = some (chr '.') then
      leadingNumber str :: numbersOf n (strtol str).2.tail
    else [leadingNumber str]

/-- A variable with more numbers than there are entries. -/
def Overlong (var : Option (List Byte)) : Prop :=
  ∃ str, var = some str ∧ BeginsWithNumbers maxTestDepth str

/-- The numbers in a variable. -/
def varNumbers (var : Option (List Byte)) : List ℕ := var.elim [] (numbersOf maxTestDepth)

theorem toTestnoFrom_succ (left : ℕ) (str : List Byte) :
    toTestnoFrom (left + 1) str =
      if leadingNumber str = 0 then some []
      else if (strtol str).2.head? = some (chr '.') then
        (leadingNumber str :: ·) <$> toTestnoFrom left (strtol str).2.tail
      else some [leadingNumber str] := rfl

theorem toTestnoFrom_eq (left : ℕ) (str : List Byte) :
    BeginsWithNumbers left str ∧ toTestnoFrom left str = none ∨
      ¬ BeginsWithNumbers left str ∧ toTestnoFrom left str = some (numbersOf left str) := by
  induction left generalizing str with
  | zero => exact .inl ⟨trivial, rfl⟩
  | succ left ih =>
    rw [toTestnoFrom_succ, BeginsWithNumbers, numbersOf]
    by_cases hzero : leadingNumber str = 0
    · rw [if_pos hzero, if_pos hzero]
      exact .inr ⟨fun h => h.1 hzero, rfl⟩
    · rw [if_neg hzero, if_neg hzero]
      by_cases hdot : (strtol str).2.head? = some (chr '.')
      · rw [if_pos hdot, if_pos hdot]
        rcases ih (strtol str).2.tail with ⟨hlong, hnone⟩ | ⟨hshort, hsome⟩
        · rw [hnone]
          exact .inl ⟨⟨hzero, hdot, hlong⟩, rfl⟩
        · rw [hsome]
          exact .inr ⟨fun h => hshort h.2.2, rfl⟩
      · rw [if_neg hdot, if_neg hdot]
        exact .inr ⟨fun h => hdot h.2.1, rfl⟩

/-- **A variable** is read into the array if it is not too long. -/
theorem toTestnoArray_cases (var : Option (List Byte)) :
    Overlong var ∧ toTestnoArray var = none ∨
      ¬ Overlong var ∧ toTestno var = some (varNumbers var) ∧
        toTestnoArray var = some (.ofList (varNumbers var)) := by
  rw [toTestnoArray_eq]
  cases var with
  | none =>
    refine .inr ⟨?_, rfl, rfl⟩
    rintro ⟨str, hstr, -⟩
    cases hstr
  | some str =>
    rcases toTestnoFrom_eq maxTestDepth str with ⟨hlong, hnone⟩ | ⟨hshort, hsome⟩
    · exact .inl ⟨⟨str, rfl, hlong⟩, congrArg (Option.map _) hnone⟩
    · refine .inr ⟨?_, hsome, congrArg (Option.map _) hsome⟩
      rintro ⟨str', heq, hlong⟩
      cases heq
      exact hshort hlong

/-! ## Nodes -/

namespace Outline

variable {α : Type}

/-- The entries of the group with the number `pre`. -/
def groupAt : Outline α → List ℕ → Option (Outline α)
  | o, [] => some o
  | o, no :: pre =>
    match o.drop (no - 1) with
    | group entries _ => entries.groupAt pre
    | _ => none

/-- The entries with their numbers in the group `pre`, each group before what is in it. -/
def nodes : Outline α → List ℕ → ℕ → List (List ℕ × Option α)
  | nil, _, _ => []
  | item a rest, pre, n => (pre ++ [n], some a) :: rest.nodes pre (n + 1)
  | group entries rest, pre, n =>
    (pre ++ [n], none) :: (entries.nodes (pre ++ [n]) 1 ++ rest.nodes pre (n + 1))

/-- There is an entry with this number. -/
def Names (o : Outline α) (testno : List ℕ) : Prop :=
  ∃ base, o.groupAt testno.dropLast = some base ∧ testno.getLastD 0 ≤ base.length

end Outline

/-- **`__get_tc`** finds the entry with the number. -/
theorem getTcFrom_eq (ts : Testcases) {testno : List ℕ} (hne : testno ≠ []) :
    getTcFrom (some ts) testno = (ts.groupAt testno.dropLast).bind fun base =>
      getSubtc (some base) (testno.getLastD 0 - 1) := by
  induction testno generalizing ts with
  | nil => exact absurd rfl hne
  | cons no rest ih =>
    rw [getTcFrom_cons]
    cases rest with
    | nil =>
      rw [List.dropLast_singleton, Outline.groupAt, Option.bind_some]
      simp only [if_true]
      exact Option.bind_fun_some _
    | cons no' rest =>
      rw [List.dropLast_cons_of_ne_nil (List.cons_ne_nil _ _), Outline.groupAt]
      simp only [if_neg (List.cons_ne_nil no' rest)]
      have hlast : (no :: no' :: rest).getLastD 0 = (no' :: rest).getLastD 0 := rfl
      rw [hlast]
      by_cases hlt : no - 1 < ts.length
      · have hsub : getSubtc (some ts) (no - 1) = some { base := ts, idx := no - 1 } :=
          if_neg (Nat.not_le_of_lt hlt)
        rw [hsub, Option.bind_some, TcPtr.testcases, TcPtr.target]
        cases ts.drop (no - 1) with
        | nil => rw [getTcFrom_cons]; rfl
        | item name after => rw [getTcFrom_cons]; rfl
        | group entries after => exact ih entries (List.cons_ne_nil _ _)
      · have hsub : getSubtc (some ts) (no - 1) = none := if_pos (Nat.le_of_not_lt hlt)
        rw [hsub, ts.drop_of_length_le (Nat.le_of_not_lt hlt)]
        rfl

/-- The last of the numbers of an entry. -/
theorem getLastD_pos {testno : List ℕ} (hpos : ∀ no ∈ testno, 0 < no) (hne : testno ≠ []) :
    0 < testno.getLastD 0 := by
  rw [List.getLastD_eq_getLast?, List.getLast?_eq_some_getLast hne, Option.getD_some]
  exact hpos _ (List.getLast_mem hne)

/-- **The search** for a case finds it if there is one, and then reads behind the array if it has
as many numbers as there are entries. -/
theorem getTcArray_cases (ts : Testcases) {testno : List ℕ} (hpos : ∀ no ∈ testno, 0 < no)
    (hne : testno ≠ []) (hlen : testno.length ≤ maxTestDepth) :
    ¬ ts.Names testno ∧ getTcArray ts (.ofList testno) = some none ∨
      ∃ base, ts.groupAt testno.dropLast = some base ∧ testno.getLastD 0 ≤ base.length ∧
        getTcArray ts (.ofList testno) = if testno.length < maxTestDepth then
          some (some { base := base, idx := testno.getLastD 0 - 1 }) else none := by
  have hlast := getLastD_pos hpos hne
  rw [getTcArray_eq ts hpos hne hlen, getTc, getTcFrom_eq ts hne]
  cases hbase : ts.groupAt testno.dropLast with
  | none =>
    refine .inl ⟨?_, rfl⟩
    rintro ⟨base, heq, -⟩
    rw [hbase] at heq
    cases heq
  | some base =>
    rw [Option.bind_some]
    by_cases hle : testno.getLastD 0 ≤ base.length
    · have hsub : getSubtc (some base) (testno.getLastD 0 - 1)
          = some { base := base, idx := testno.getLastD 0 - 1 } := if_neg (by omega)
      rw [hsub]
      exact .inr ⟨base, rfl, hle, rfl⟩
    · have hsub : getSubtc (some base) (testno.getLastD 0 - 1) = none := if_pos (by omega)
      rw [hsub]
      refine .inl ⟨?_, rfl⟩
      rintro ⟨base', heq, hle'⟩
      rw [hbase] at heq
      cases heq
      exact hle hle'

/-! ## The loop over the nodes -/

/-- The number of a case or a group, and the name if it is a case. -/
abbrev TestNode := List ℕ × Option CaseName

section Loop

variable (outcome : Case → TestRes) (lastTc : Option (List ℕ))

/-- The loop of `__run_testcases` over nodes, where a group is entered if there are entries for what
is in it. -/
def loopNodes : List TestNode → RunState → Option (Int × RunState)
  | [], s => some (0, s)
  | (testno, kind) :: rest, s =>
    if lastTc = some testno then some (1, s)
    else match kind with
      | some name =>
        let s := runTestcase outcome (testno, name) s
        if s.testRes ≠ .success then some (-1, s) else loopNodes rest s
      | none => if maxTestDepth ≤ testno.length + 1 then none else loopNodes rest s

/-- The node ends the run. -/
def Stops (node : TestNode) : Prop :=
  lastTc = some node.1 ∨ ∃ name, node.2 = some name ∧ outcome (node.1, name) ≠ .success

/-- The run comes to the node, as none before it ends the run, and does not end with it as the last
one. -/
def Comes (nodes : List TestNode) (node : TestNode) : Prop :=
  lastTc ≠ some node.1 ∧
    ∃ before rest, nodes = before ++ node :: rest ∧ ∀ x ∈ before, ¬ Stops outcome lastTc x

end Loop

section LoopNodes

variable {outcome : Case → TestRes} {lastTc : Option (List ℕ)}

theorem loopNodes_success {nodes : List TestNode} {s : RunState} {r : Int × RunState}
    (h : loopNodes outcome lastTc nodes s = some r) (hs : s.testRes = .success) (hr : r.1 = 0) :
    r.2.testRes = .success := by
  induction nodes generalizing s with
  | nil =>
    cases h
    exact hs
  | cons node rest ih =>
    obtain ⟨testno, _ | name⟩ := node
    · rw [loopNodes] at h
      split at h
      · cases h
        cases hr
      · split at h
        · cases h
        · exact ih h hs
    · rw [loopNodes] at h
      split at h
      · cases h
        cases hr
      · simp only at h
        split at h
        · cases h
          cases hr
        · rename_i hres
          exact ih h (not_not.mp hres)

/-- Nodes behind others are for a run that has not ended. -/
theorem loopNodes_append (nodes nodes' : List TestNode) (s : RunState) :
    loopNodes outcome lastTc (nodes ++ nodes') s = (loopNodes outcome lastTc nodes s).bind fun r =>
      if r.1 ≠ 0 then some r else loopNodes outcome lastTc nodes' r.2 := by
  induction nodes generalizing s with
  | nil => rfl
  | cons node rest ih =>
    obtain ⟨testno, _ | name⟩ := node
    · rw [List.cons_append, loopNodes, loopNodes]
      split
      · rfl
      · split
        · rfl
        · exact ih _
    · rw [List.cons_append, loopNodes, loopNodes]
      split
      · rfl
      · simp only
        split
        · rfl
        · exact ih _

/-- **The loop over a group** is one over its nodes. -/
theorem runLoop_eq_loopNodes (o : Testcases) (pre : List ℕ) (no : ℕ) (s : RunState)
    (hs : s.testRes = .success) :
    runLoop outcome lastTc o pre no s = loopNodes outcome lastTc (o.nodes pre no) s := by
  induction o generalizing pre no s with
  | nil => rfl
  | item name rest ih =>
    rw [runLoop, Outline.nodes, loopNodes]
    split
    · rfl
    · simp only
      split
      · rfl
      · rename_i hres
        exact ih _ _ _ (not_not.mp hres)
  | group entries rest ihe ih =>
    have hlength : (pre ++ [no]).length + 1 = pre.length + 2 := by
      rw [List.length_append, List.length_singleton]
    have hsame : { s with testRes := .success } = s := by
      rw [← hs]
    rw [runLoop, Outline.nodes, loopNodes, hsame]
    split
    · rfl
    · simp only
      rw [hlength]
      split
      · rfl
      · rw [loopNodes_append, ihe (pre ++ [no]) 1 s hs]
        cases hloop : loopNodes outcome lastTc (entries.nodes (pre ++ [no]) 1) s with
        | none => rfl
        | some r =>
          simp only [Option.bind_eq_bind, Option.bind_some]
          by_cases hres : r.1 = 0
          · rw [if_neg (not_not.mpr hres), if_neg (not_not.mpr hres)]
            exact ih pre (no + 1) r.2 (loopNodes_success hloop hs hres)
          · rw [if_pos hres, if_pos hres]
            rfl

/-! ## What the run comes to -/

theorem loopNodes_last {testno : List ℕ} {kind : Option CaseName} {rest : List TestNode}
    {s : RunState} (hlast : lastTc = some testno) :
    loopNodes outcome lastTc ((testno, kind) :: rest) s = some (1, s) := by
  cases kind with
  | some name => rw [loopNodes, if_pos hlast]
  | none => rw [loopNodes, if_pos hlast]

theorem not_stops_case {testno : List ℕ} {name : CaseName} (hlast : lastTc ≠ some testno)
    (hres : outcome (testno, name) = .success) : ¬ Stops outcome lastTc (testno, some name) := by
  rintro (h | ⟨_, heq, h⟩)
  · exact hlast h
  · cases heq
    exact h hres

theorem not_stops_group {testno : List ℕ} (hlast : lastTc ≠ some testno) :
    ¬ Stops outcome lastTc (testno, none) := by
  rintro (h | ⟨_, heq, -⟩)
  · exact hlast h
  · cases heq

theorem comes_nil (node : TestNode) : ¬ Comes outcome lastTc [] node := by
  rintro ⟨-, before, rest, heq, -⟩
  exact absurd heq.symm (by simp)

/-- The first node, or one of the others if the first does not end the run. -/
theorem comes_cons {first node : TestNode} {nodes : List TestNode} :
    Comes outcome lastTc (first :: nodes) node ↔ lastTc ≠ some node.1 ∧ node = first ∨
      ¬ Stops outcome lastTc first ∧ Comes outcome lastTc nodes node := by
  refine ⟨?_, ?_⟩
  · rintro ⟨hlast, before, rest, heq, hbefore⟩
    cases before with
    | nil => exact .inl ⟨hlast, (List.head_eq_of_cons_eq heq).symm⟩
    | cons x before =>
      rw [List.cons_append] at heq
      obtain ⟨rfl, rfl⟩ := List.cons.inj heq
      exact .inr ⟨hbefore _ List.mem_cons_self, hlast, before, rest, rfl,
        fun y hy => hbefore y (List.mem_cons_of_mem _ hy)⟩
  · rintro (⟨hlast, rfl⟩ | ⟨hfirst, hlast, before, rest, rfl, hbefore⟩)
    · exact ⟨hlast, [], nodes, rfl, fun _ h => absurd h List.not_mem_nil⟩
    · exact ⟨hlast, first :: before, rest, rfl, List.forall_mem_cons.mpr ⟨hfirst, hbefore⟩⟩

/-- The cases that have passed or failed. -/
def RunState.counted (s : RunState) : ℕ := s.nrPasses + s.nrFails

theorem showSummary_eq_none_iff (s : RunState) : showSummary s = none ↔ s.counted = 0 := by
  rw [showSummary, RunState.counted]
  split
  · rename_i hzero
    exact iff_of_true rfl hzero
  · rename_i hpos
    exact iff_of_false (fun h => by cases h) hpos

theorem ne_testgroupFail {s : RunState} (hs : s.testRes = .success) :
    s.testRes ≠ .testgroupFail := by
  rw [hs]
  intro h
  cases h

/-- A case is run when nothing has failed before it. -/
theorem testRes_runTestcase (tc : Case) {s : RunState} (hs : s.testRes = .success) :
    (runTestcase outcome tc s).testRes = outcome tc :=
  (runTestcase_spec tc (ne_testgroupFail hs)).1

theorem counted_runTestcase (tc : Case) {s : RunState} (hs : s.testRes = .success) :
    (runTestcase outcome tc s).counted
      = s.counted + if outcome tc = .testcaseIgnore then 0 else 1 := by
  rw [runTestcase, if_pos (ne_testgroupFail hs)]
  cases outcome tc <;> simp [RunState.counted] <;> omega

/-- **The loop leaves the array** at a group that it comes to and that is too deep. -/
theorem loopNodes_eq_none_iff {nodes : List TestNode} {s : RunState} (hs : s.testRes = .success) :
    loopNodes outcome lastTc nodes s = none ↔
      ∃ testno, Comes outcome lastTc nodes (testno, none) ∧ maxTestDepth ≤ testno.length + 1 := by
  induction nodes generalizing s with
  | nil =>
    apply iff_of_false (fun h => by cases h)
    rintro ⟨testno, hcomes, -⟩
    exact comes_nil _ hcomes
  | cons node rest ih =>
    obtain ⟨testno, kind⟩ := node
    simp only [comes_cons]
    by_cases hlast : lastTc = some testno
    · have hends : loopNodes outcome lastTc ((testno, kind) :: rest) s = some (1, s) :=
        loopNodes_last hlast
      rw [hends]
      apply iff_of_false (fun h => by cases h)
      rintro ⟨testno', ⟨hno, heq⟩ | ⟨hno, -⟩, -⟩
      · cases heq
        exact hno hlast
      · exact hno (.inl hlast)
    · cases kind with
      | some name =>
        rw [loopNodes, if_neg hlast]
        simp only
        have hrun : (runTestcase outcome (testno, name) s).testRes = outcome (testno, name) :=
          testRes_runTestcase (testno, name) hs
        by_cases hres : outcome (testno, name) = .success
        · rw [if_neg (not_not.mpr (hrun.trans hres)), ih (hrun.trans hres)]
          refine exists_congr fun testno' => and_congr_left fun _ => ?_
          rw [or_iff_right (fun h => by cases h.2), and_iff_right (not_stops_case hlast hres)]
        · rw [if_pos fun h => hres (hrun.symm.trans h)]
          apply iff_of_false (fun h => by cases h)
          rintro ⟨testno', ⟨-, heq⟩ | ⟨hno, -⟩, -⟩
          · cases heq
          · exact hno (.inr ⟨name, rfl, hres⟩)
      | none =>
        rw [loopNodes, if_neg hlast]
        by_cases hdeep : maxTestDepth ≤ testno.length + 1
        · rw [if_pos hdeep]
          exact iff_of_true rfl ⟨testno, .inl ⟨hlast, rfl⟩, hdeep⟩
        · rw [if_neg hdeep, ih hs]
          refine exists_congr fun testno' => and_congr_left fun hdeep' => ?_
          rw [and_iff_right (not_stops_group hlast), or_iff_right]
          rintro ⟨-, heq⟩
          cases heq
          exact hdeep hdeep'

/-- A case that the run comes to and that is not ignored. -/
def Counts (outcome : Case → TestRes) (lastTc : Option (List ℕ)) (nodes : List TestNode) : Prop :=
  ∃ testno name, Comes outcome lastTc nodes (testno, some name) ∧
    outcome (testno, name) ≠ .testcaseIgnore

/-- **The counters** go on exactly if there is such a case. -/
theorem loopNodes_counted {nodes : List TestNode} {s : RunState} (hs : s.testRes = .success)
    {r : Int × RunState} (h : loopNodes outcome lastTc nodes s = some r) :
    s.counted ≤ r.2.counted ∧ (s.counted < r.2.counted ↔ Counts outcome lastTc nodes) := by
  induction nodes generalizing s with
  | nil =>
    cases h
    refine ⟨le_rfl, iff_of_false (lt_irrefl _) ?_⟩
    rintro ⟨testno, name, hcomes, -⟩
    exact comes_nil _ hcomes
  | cons node rest ih =>
    obtain ⟨testno, kind⟩ := node
    simp only [Counts, comes_cons]
    by_cases hlast : lastTc = some testno
    · rw [loopNodes_last hlast] at h
      cases h
      refine ⟨le_rfl, iff_of_false (lt_irrefl _) ?_⟩
      rintro ⟨testno', name, ⟨hno, heq⟩ | ⟨hno, -⟩, -⟩
      · cases heq
        exact hno hlast
      · exact hno (.inl hlast)
    · cases kind with
      | some name =>
        rw [loopNodes, if_neg hlast] at h
        simp only at h
        have hrun : (runTestcase outcome (testno, name) s).testRes = outcome (testno, name) :=
          testRes_runTestcase (testno, name) hs
        have hcount : (runTestcase outcome (testno, name) s).counted = _ :=
          counted_runTestcase (testno, name) hs
        by_cases hres : outcome (testno, name) = .success
        · rw [if_neg (not_not.mpr (hrun.trans hres))] at h
          have hle := (ih (hrun.trans hres) h).1
          have hshown : outcome (testno, name) ≠ .testcaseIgnore := by
            rw [hres]
            intro h
            cases h
          rw [if_neg hshown] at hcount
          exact ⟨by omega, iff_of_true (by omega) ⟨testno, name, .inl ⟨hlast, rfl⟩, hshown⟩⟩
        · rw [if_pos fun h => hres (hrun.symm.trans h)] at h
          cases h
          change _ ≤ (runTestcase outcome (testno, name) s).counted ∧
            (_ < (runTestcase outcome (testno, name) s).counted ↔ _)
          rw [hcount]
          refine ⟨Nat.le_add_right _ _, ?_, ?_⟩
          · intro hlt
            refine ⟨testno, name, .inl ⟨hlast, rfl⟩, fun hignore => ?_⟩
            rw [if_pos hignore] at hlt
            exact absurd hlt (lt_irrefl _)
          · rintro ⟨testno', name', ⟨-, heq⟩ | ⟨hno, -⟩, hshown⟩
            · cases heq
              rw [if_neg hshown]
              exact Nat.lt_succ_self _
            · exact absurd (.inr ⟨name, rfl, hres⟩) hno
      | none =>
        rw [loopNodes, if_neg hlast] at h
        split at h
        · cases h
        · obtain ⟨hle, hiff⟩ := ih hs h
          refine ⟨hle, hiff.trans ?_⟩
          refine exists_congr fun testno' => exists_congr fun name => and_congr_left fun _ => ?_
          rw [and_iff_right (not_stops_group hlast), or_iff_right (fun h => by cases h.2)]

end LoopNodes

/-! ## The run from a case on -/

/-- **The run is safe** from the entry `no` of the group `pre` on: no group that it comes to is too
deep, and a case that it comes to passes or fails. Before everything else it runs the Configuration
of the group, if that is not where it begins. -/
structure SafeWalk (outcome : Case → TestRes) (lastTc : Option (List ℕ)) (base : Testcases)
    (pre : List ℕ) (no : ℕ) : Prop where
  shallow : (∀ tc ∈ entryConfig base pre no, outcome tc = .success) →
    ∀ testno, Comes outcome lastTc ((base.drop (no - 1)).nodes pre no) (testno, none) →
      testno.length + 1 < maxTestDepth
  counted : (∃ tc ∈ entryConfig base pre no, outcome tc ≠ .testcaseIgnore) ∨
    entryConfig base pre no = [] ∧ Counts outcome lastTc ((base.drop (no - 1)).nodes pre no)

section Walk

variable {outcome : Case → TestRes} {lastTc : Option (List ℕ)}

theorem runConfig_cases (outcome : Case → TestRes) (base : Testcases) (pre : List ℕ) (no : ℕ)
    (s : RunState) :
    entryConfig base pre no = [] ∧ runConfig outcome base pre no s = s ∨
      ∃ tc, entryConfig base pre no = [tc] ∧
        runConfig outcome base pre no s = runTestcase outcome tc s := by
  simp only [entryConfig, runConfig]
  split
  · cases base with
    | nil => exact .inl ⟨rfl, rfl⟩
    | group entries rest => exact .inl ⟨rfl, rfl⟩
    | item name rest =>
      cases name with
      | named text => exact .inl ⟨rfl, rfl⟩
      | testConfig => exact .inr ⟨_, rfl, rfl⟩
  · exact .inl ⟨rfl, rfl⟩

/-- The loop over a group is safe. -/
theorem runLoop_safe_iff (o : Testcases) (pre : List ℕ) (no : ℕ) {s : RunState}
    (hs : s.testRes = .success) :
    (∃ r, runLoop outcome lastTc o pre no s = some r ∧ showSummary r.2 ≠ none) ↔
      (∀ testno, Comes outcome lastTc (o.nodes pre no) (testno, none) →
        testno.length + 1 < maxTestDepth) ∧
      (0 < s.counted ∨ Counts outcome lastTc (o.nodes pre no)) := by
  have hnone : loopNodes outcome lastTc (o.nodes pre no) s = none ↔ _ := loopNodes_eq_none_iff hs
  rw [runLoop_eq_loopNodes o pre no s hs]
  cases hloop : loopNodes outcome lastTc (o.nodes pre no) s with
  | none =>
    obtain ⟨testno, hcomes, hdeep⟩ := hnone.mp hloop
    refine iff_of_false ?_ fun h => absurd (h.1 testno hcomes) (Nat.not_lt_of_le hdeep)
    rintro ⟨_, h, -⟩
    cases h
  | some r =>
    obtain ⟨hle, hiff⟩ := loopNodes_counted hs hloop
    have hshallow : ∀ testno, Comes outcome lastTc (o.nodes pre no) (testno, none) →
        testno.length + 1 < maxTestDepth := by
      intro testno hcomes
      by_contra hdeep
      rw [hnone.mpr ⟨testno, hcomes, Nat.le_of_not_lt hdeep⟩] at hloop
      cases hloop
    have hsummary : showSummary r.2 ≠ none ↔ 0 < s.counted ∨ s.counted < r.2.counted := by
      rw [Ne, showSummary_eq_none_iff]
      omega
    rw [and_iff_right hshallow, ← hiff, ← hsummary]
    refine ⟨?_, fun h => ⟨r, rfl, h⟩⟩
    rintro ⟨r', heq, h⟩
    cases heq
    exact h

/-- **The run from a case on** is safe. -/
theorem runTestcases_safe_iff (tc : TcPtr) {pre : List ℕ} (hlen : pre.length + 1 < maxTestDepth) :
    (∃ r, runTestcases outcome lastTc tc pre (tc.idx + 1) .init = some r ∧
        showSummary r.2 ≠ none) ↔
      SafeWalk outcome lastTc tc.base pre (tc.idx + 1) := by
  have hinit : RunState.init.testRes = .success := rfl
  have htarget : tc.base.drop (tc.idx + 1 - 1) = tc.target := rfl
  have hrun : runTestcases outcome lastTc tc pre (tc.idx + 1) .init
      = if (runConfig outcome tc.base pre (tc.idx + 1) .init).testRes ≠ .success then
          some (-1, runConfig outcome tc.base pre (tc.idx + 1) .init)
        else runLoop outcome lastTc tc.target pre (tc.idx + 1)
          (runConfig outcome tc.base pre (tc.idx + 1) .init) :=
    if_neg (Nat.not_le_of_lt hlen)
  rw [hrun]
  rcases runConfig_cases outcome tc.base pre (tc.idx + 1) .init with
    ⟨hnil, hconfig⟩ | ⟨config, hone, hconfig⟩
  · rw [hconfig, if_neg (not_not.mpr hinit), runLoop_safe_iff _ _ _ hinit]
    refine ⟨?_, ?_⟩
    · rintro ⟨hshallow, hcounted⟩
      exact ⟨fun _ => hshallow, .inr ⟨hnil, hcounted.resolve_left (Nat.lt_irrefl 0)⟩⟩
    · rintro ⟨hshallow, hcounted⟩
      rw [hnil] at hshallow hcounted
      refine ⟨hshallow fun _ h => absurd h List.not_mem_nil, .inr ?_⟩
      rcases hcounted with ⟨_, h, -⟩ | ⟨-, h⟩
      · exact absurd h List.not_mem_nil
      · exact h
  · have hcount : (runTestcase outcome config .init).counted = _ :=
      counted_runTestcase config hinit
    have hres : (runTestcase outcome config .init).testRes = outcome config :=
      testRes_runTestcase config hinit
    have hshown : (∃ tc ∈ [config], outcome tc ≠ .testcaseIgnore) ↔
        outcome config ≠ .testcaseIgnore := by simp
    have hcounts : SafeWalk outcome lastTc tc.base pre (tc.idx + 1) ↔
        (outcome config = .success → ∀ testno,
          Comes outcome lastTc (tc.target.nodes pre (tc.idx + 1)) (testno, none) →
            testno.length + 1 < maxTestDepth) ∧ outcome config ≠ .testcaseIgnore := by
      refine ⟨?_, ?_⟩
      · rintro ⟨hshallow, hcounted⟩
        rw [hone, hshown] at hcounted
        rw [hone, List.forall_mem_singleton] at hshallow
        exact ⟨hshallow, hcounted.resolve_right fun h => absurd h.1 (List.cons_ne_nil _ _)⟩
      · rintro ⟨hshallow, hcounted⟩
        refine ⟨?_, .inl ?_⟩
        · rw [hone, List.forall_mem_singleton]
          exact hshallow
        · rw [hone, hshown]
          exact hcounted
    rw [hconfig, hcounts, hres]
    by_cases hpass : outcome config = .success
    · have hcounted : outcome config ≠ .testcaseIgnore := by
        rw [hpass]
        intro h
        cases h
      rw [if_neg (not_not.mpr hpass), runLoop_safe_iff _ _ _ (hres.trans hpass),
        forall_prop_of_true hpass, and_iff_left hcounted, and_iff_left]
      rw [hcount, if_neg hcounted]
      exact .inl (Nat.succ_pos _)
    · rw [if_pos hpass, and_iff_right fun h => absurd h hpass]
      have hsummary : showSummary (runTestcase outcome config .init) ≠ none ↔
          outcome config ≠ .testcaseIgnore := by
        rw [Ne, showSummary_eq_none_iff, hcount]
        by_cases hignore : outcome config = .testcaseIgnore
        · rw [if_pos hignore]
          exact iff_of_false (fun h => h rfl) fun h => h hignore
        · rw [if_neg hignore]
          exact iff_of_true (Nat.succ_ne_zero _) hignore
      rw [← hsummary]
      refine ⟨?_, fun h => ⟨_, rfl, h⟩⟩
      rintro ⟨r, heq, h⟩
      cases heq
      exact h

end Walk

/-! ## Whole runs -/

/-- `__read_env_var` goes on with a variable: it is not set, or a case has its number. -/
def Found (ts : Testcases) (testno : List ℕ) : Prop := testno = [] ∨ ts.Names testno

theorem not_found {ts : Testcases} {testno : List ℕ} (hne : testno ≠ [])
    (h : ¬ ts.Names testno) : ¬ Found ts testno := by
  rintro (hnil | hnames)
  · exact hne hnil
  · exact h hnames

/-- **A run of the suite is safe**: the variables are not too long, and where they name cases, there
is a zero behind their numbers and the run from the first one on is safe. -/
structure SafeInput (ts : Testcases) (testFirst testLast : Option (List Byte))
    (outcome : Case → TestRes) : Prop where
  first : ¬ Overlong testFirst
  firstEnds : Found ts (varNumbers testFirst) → (varNumbers testFirst).length < maxTestDepth
  last : Found ts (varNumbers testFirst) → ¬ Overlong testLast
  lastEnds : Found ts (varNumbers testFirst) → Found ts (varNumbers testLast) →
    (varNumbers testLast).length < maxTestDepth
  walk : Found ts (varNumbers testFirst) → Found ts (varNumbers testLast) →
    ∀ base pre no, firstNo (varNumbers testFirst) = pre ++ [no] → ts.groupAt pre = some base →
      SafeWalk outcome (lastNo (varNumbers testLast)) base pre no

section Whole

variable {ts : Testcases} {var : Option (List Byte)}

theorem varNumbers_pos (h : ¬ Overlong var) : ∀ no ∈ varNumbers var, 0 < no := by
  rcases toTestnoArray_cases var with ⟨hlong, -⟩ | ⟨-, hlist, -⟩
  · exact absurd hlong h
  · exact toTestno_pos hlist

theorem length_varNumbers (h : ¬ Overlong var) : (varNumbers var).length ≤ maxTestDepth := by
  rcases toTestnoArray_cases var with ⟨hlong, -⟩ | ⟨-, hlist, -⟩
  · exact absurd hlong h
  · exact length_toTestno hlist

theorem toTestnoArray_overlong (h : Overlong var) : toTestnoArray var = none := by
  rcases toTestnoArray_cases var with ⟨-, hnone⟩ | ⟨hno, -⟩
  · exact hnone
  · exact absurd h hno

theorem toTestnoArray_numbers (h : ¬ Overlong var) :
    toTestnoArray var = some (.ofList (varNumbers var)) := by
  rcases toTestnoArray_cases var with ⟨hlong, -⟩ | ⟨-, -, hsome⟩
  · exact absurd hlong h
  · exact hsome

/-- The first entry says whether there are numbers. -/
theorem get_zero_eq_zero_iff (h : ¬ Overlong var) :
    ∃ no, (Testno.ofList (varNumbers var)).get 0 = some no ∧ (no = 0 ↔ varNumbers var = []) := by
  have hpos := varNumbers_pos h
  refine ⟨_, Testno.get_ofList _ (Nat.succ_pos 7), ?_⟩
  cases hnumbers : varNumbers var with
  | nil => exact iff_of_true rfl rfl
  | cons no rest =>
    rw [hnumbers] at hpos
    exact iff_of_false (Nat.ne_of_gt (hpos no List.mem_cons_self)) (List.cons_ne_nil _ _)

/-- What is read of `TEST_FIRST`. -/
theorem readFirstArray_cases (ts : Testcases) (h : ¬ Overlong var) :
    ¬ Found ts (varNumbers var) ∧ readFirstArray ts var = some none ∨
      Found ts (varNumbers var) ∧ ∃ tc pre, firstNo (varNumbers var) = pre ++ [tc.idx + 1] ∧
        ts.groupAt pre = some tc.base ∧
        readFirstArray ts var = if (varNumbers var).length < maxTestDepth then
          some (some (.ofList (firstNo (varNumbers var)), tc)) else none := by
  obtain ⟨no, hno, hzero⟩ := get_zero_eq_zero_iff h
  have hread : readFirstArray ts var = if no = 0 then
      (Testno.zero.set 0 1).bind fun first => some (some (first, { base := ts, idx := 0 }))
      else (getTcArray ts (.ofList (varNumbers var))).bind fun tc =>
        some (tc.map fun tc => (.ofList (varNumbers var), tc)) := by
    rw [readFirstArray, toTestnoArray_numbers h, Option.bind_eq_bind, Option.bind_some, hno]
    rfl
  rw [hread]
  by_cases hnil : varNumbers var = []
  · have hone : Testno.zero.set 0 1 = some (.ofList [1]) := by
      have hroom : ([] : List ℕ).length < maxTestDepth := Nat.succ_pos 7
      rw [← Testno.ofList_nil]
      exact Testno.set_length hroom 1
    rw [if_pos (hzero.mpr hnil), hone, hnil]
    exact .inr ⟨.inl rfl, { base := ts, idx := 0 }, [], rfl, rfl, rfl⟩
  · have hfirst : firstNo (varNumbers var) = varNumbers var := if_neg hnil
    rw [if_neg fun h => hnil (hzero.mp h), hfirst]
    rcases getTcArray_cases ts (varNumbers_pos h) hnil (length_varNumbers h) with
      ⟨hno, hget⟩ | ⟨base, hbase, hle, hget⟩
    · rw [hget]
      exact .inl ⟨not_found hnil hno, rfl⟩
    · rw [hget]
      have hlast := getLastD_pos (varNumbers_pos h) hnil
      have hconcat : varNumbers var
          = (varNumbers var).dropLast ++ [(varNumbers var).getLastD 0 - 1 + 1] := by
        rw [Nat.sub_add_cancel hlast, List.getLastD_eq_getLast?,
          List.getLast?_eq_some_getLast hnil, Option.getD_some, List.dropLast_concat_getLast]
      refine .inr ⟨.inr ⟨base, hbase, hle⟩, { base := base, idx := (varNumbers var).getLastD 0 - 1 },
        (varNumbers var).dropLast, hconcat, hbase, ?_⟩
      split <;> rfl

/-- What is read of `TEST_LAST`. -/
theorem readLastArray_cases (ts : Testcases) (h : ¬ Overlong var) :
    ¬ Found ts (varNumbers var) ∧ readLastArray ts var = some none ∨
      Found ts (varNumbers var) ∧
        readLastArray ts var = if (varNumbers var).length < maxTestDepth then
          some (some (lastNo (varNumbers var))) else none := by
  obtain ⟨no, hno, hzero⟩ := get_zero_eq_zero_iff h
  have hread : readLastArray ts var = if no = 0 then some (some none)
      else (getTcArray ts (.ofList (varNumbers var))).bind fun tc =>
        some (tc.map fun _ => some (Testno.ofList (varNumbers var)).numbers) := by
    rw [readLastArray, toTestnoArray_numbers h, Option.bind_eq_bind, Option.bind_some, hno]
    rfl
  rw [hread]
  by_cases hnil : varNumbers var = []
  · rw [if_pos (hzero.mpr hnil), hnil]
    exact .inr ⟨.inl rfl, rfl⟩
  · have hlast : lastNo (varNumbers var) = some (varNumbers var) := if_neg hnil
    rw [if_neg fun h => hnil (hzero.mp h), hlast,
      Testno.numbers_ofList (varNumbers_pos h) (length_varNumbers h)]
    rcases getTcArray_cases ts (varNumbers_pos h) hnil (length_varNumbers h) with
      ⟨hno, hget⟩ | ⟨base, hbase, hle, hget⟩
    · rw [hget]
      exact .inl ⟨not_found hnil hno, rfl⟩
    · rw [hget]
      refine .inr ⟨.inr ⟨base, hbase, hle⟩, ?_⟩
      split <;> rfl

/-- The number of the first case has no zeros. -/
theorem firstNo_pos (h : ¬ Overlong var) : ∀ no ∈ firstNo (varNumbers var), 0 < no := by
  rw [firstNo]
  split
  · intro no hno
    rw [List.mem_singleton.mp hno]
    exact Nat.one_pos
  · exact varNumbers_pos h

theorem length_firstNo (h : (varNumbers var).length < maxTestDepth) :
    (firstNo (varNumbers var)).length < maxTestDepth := by
  rw [firstNo]
  split
  · exact Nat.le_add_left 2 6
  · exact h

/-- The run that is left when the variables have been read. -/
theorem exists_run_iff {lastTc : Option (List ℕ)} {outcome : Case → TestRes} {tc : TcPtr}
    {pre first : List ℕ} (hfirst : first = pre ++ [tc.idx + 1]) (hpos : ∀ no ∈ first, 0 < no)
    (hlen : first.length < maxTestDepth) :
    (∃ r, ((runTestcasesArray outcome lastTc tc (Testno.ofList first).numbers.dropLast
        (.ofList first) .init).bind
          fun r => some (SuiteRun.mk 0 r.2.2 (showSummary r.2.2))) = some r ∧
          (r.res = 0 → r.summary ≠ none)) ↔
      SafeWalk outcome lastTc tc.base pre (tc.idx + 1) := by
  have hnumbers : (Testno.ofList first).numbers.dropLast = pre := by
    rw [Testno.numbers_ofList hpos (Nat.le_of_lt hlen), hfirst, List.dropLast_concat]
  have hpre : ∀ no ∈ pre, 0 < no := by
    intro no hno
    exact hpos no (hfirst ▸ List.mem_append_left _ hno)
  have hroom : pre.length + 1 < maxTestDepth := by
    rw [hfirst, List.length_append, List.length_singleton] at hlen
    exact hlen
  rw [← runTestcases_safe_iff tc hroom, hnumbers, hfirst, ← runTestcasesArray_eq tc hpre hroom]
  cases runTestcasesArray outcome lastTc tc pre (.ofList (pre ++ [tc.idx + 1])) .init with
  | none =>
    refine iff_of_false ?_ ?_
    · rintro ⟨_, h, -⟩
      cases h
    · rintro ⟨_, h, -⟩
      cases h
  | some r =>
    refine ⟨?_, ?_⟩
    · rintro ⟨_, heq, h⟩
      cases heq
      exact ⟨_, rfl, h rfl⟩
    · rintro ⟨_, heq, h⟩
      cases heq
      exact ⟨_, rfl, fun _ => h⟩

end Whole

end ChamberSpo

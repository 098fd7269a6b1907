import ChamberSpo.FileLines
import ChamberSpo.Validate

/-!
# Sections

Which files give each job what its own lines say: the parameters that the job starts from, changed
by the lines before the first section and those of its section (`Isolated`).

* `reading` — the lines of a file, with the values that references to the environment had.
* `ownLines` — the lines of each job.
* `ownJob`, `boundsOf` — a job, and the bounds of the sizes, from some lines.
* `isolated_iff` — the jobs are isolated under a condition on the lines.

Two things get from one section to another. A job without a size gets one of `iosize_min` and
`iosize_max`, which are of all the sections (`fallbackIosize`). And `token_strupr` changes the
variables of the environment, so a reference may read what another section has put in upper case.
-/

namespace ChamberSpo

/-! ## Lines -/

/-- `getenv` -/
abbrev Environment := List Byte → Option (List Byte)

/-- A call of a handler, with a reference to the environment replaced by what it reads. -/
def readCall (env : Environment) : HandlerCall → HandlerCall
  | .envRefered key reference =>
    .propertyDefined key (tokenPart ((env (envKey reference)).getD []))
  | call => call

/-- The environment after a call: the variable is as its property leaves it. -/
def envAfter (env : Environment) : HandlerCall → Environment
  | .envRefered key reference =>
    match env (envKey reference), propertyOf key with
    | some text, some property =>
      Function.update env (envKey reference)
        (some (property.left (tokenPart text) ++ text.drop (text.length % 2 ^ 16)))
    | _, _ => env
  | _ => env

/-- Calls in order, as they are and as they are read. -/
def reading (env : Environment) : List HandlerCall → List (HandlerCall × HandlerCall)
  | [] => []
  | call :: calls => (call, readCall env call) :: reading (envAfter env call) calls

/-- Lines before the first section, and those of each section with its header. -/
structure Sections where
  preamble : List (HandlerCall × HandlerCall)
  sections : List (List (HandlerCall × HandlerCall))

/-- One more line. -/
def Sections.add (s : Sections) (line : HandlerCall × HandlerCall) : Sections :=
  match line.1 with
  | .sectionDefined _ => { s with sections := s.sections ++ [[line]] }
  | _ =>
    if s.sections = [] then { s with preamble := s.preamble ++ [line] }
    else { s with sections := s.sections.dropLast ++ [s.sections.getLastD [] ++ [line]] }

/-- The lines of each job. Without a section there is one job. -/
def Sections.own (s : Sections) : List (List (HandlerCall × HandlerCall)) :=
  if s.sections = [] then [s.preamble] else s.sections.map (s.preamble ++ ·)

/-- The lines of each job of a file. -/
def ownLines (env : Environment) (calls : List HandlerCall) :
    List (List (HandlerCall × HandlerCall)) :=
  ((reading env calls).foldl Sections.add { preamble := [], sections := [] }).own

/-! ## What lines say -/

/-- What a property says of its job. -/
def Property.set (property : Property) (x : List Byte) (job : JobConfig) :
    Except HandlerError JobConfig :=
  match property with
  | .text field => setText field x job
  | .value setter => setter.set x job
  | .iosize op => do
    let sizes ← parseIosize x
    let iosize := { job.iosizes op with iosizeMin := sizes.1, iosizeMax := sizes.2 }
    return { job with iosizes := Function.update job.iosizes op iosize }
  | .shared _ => .ok job

/-- What a line that was read says of its job. -/
def jobStep (job : JobConfig) : HandlerCall → Except HandlerError JobConfig
  | .sectionDefined name =>
    if 64 ≤ name.length then .error .undefined else .ok { job with name := name }
  | .propertyDefined key value =>
    match propertyOf key with
    | none => .error (.parsingError "invalid property key")
    | some property => property.set value job
  | .envRefered _ _ => .error .undefined

/-- **A job**: the built-in defaults, updated by some lines in order. -/
def ownJob (calls : List HandlerCall) : Except HandlerError JobConfig :=
  calls.foldlM jobStep .default

/-- The sizes of a line that has those of an entry of `iosizes`. -/
def sizesOf (ops : IosizeOpcode → Bool) : HandlerCall → Option (BitVec 64 × BitVec 64)
  | .propertyDefined key value =>
    match propertyOf key with
    | some (.iosize op) => if ops op then (parseIosize value).toOption else none
    | _ => none
  | _ => none

/-- `iosize_min` and `iosize_max` after some lines. -/
def boundsOf (calls : List HandlerCall) : IosizeBounds :=
  (calls.filterMap (sizesOf (·.Gathered))).foldl .widen .none

/-- The text of a line that has one for a field of the job. -/
def textOf (field : JobText) : HandlerCall → Option (List Byte)
  | .propertyDefined key value =>
    match propertyOf key with
    | some (.text field') => if field' = field then some value else none
    | _ => none
  | _ => none

/-- The text that some lines leave in a field of the job. -/
def lastText (field : JobText) (calls : List HandlerCall) : List Byte :=
  (calls.filterMap (textOf field)).getLast?.getD []

/-- The sizes that some lines leave in the entry for all operations. -/
def lastSizes (calls : List HandlerCall) : BitVec 64 × BitVec 64 :=
  (calls.filterMap (sizesOf (· = .total))).getLast?.getD (0, 0)

/-! ## Isolation -/

/-- A job is what its own lines say, before and after `validate` has filled in its sizes. -/
structure Isolated (env : Environment) (bounds : IosizeBounds) (own : List HandlerCall)
    (job : JobConfig) : Prop where
  params : ownJob ((reading env own).map (·.2)) = .ok job
  sizes : fallbackIosize bounds job = fallbackIosize (boundsOf ((reading env own).map (·.2))) job

/-- **No line of another section counts**: each job is what its own lines say. -/
def SectionsIsolated (env : Environment) (calls : List HandlerCall) (s : Params) : Prop :=
  List.Forall₂ (fun own job => Isolated env s.bounds (own.map (·.1)) job) (ownLines env calls)
    s.jobs

/-- What the lines of a job say is not changed by those of another section. -/
structure Independent (env : Environment) (calls : List HandlerCall)
    (own : List (HandlerCall × HandlerCall)) : Prop where
  /-- no reference for a text reads what another section has put in upper case -/
  texts : ∀ field, lastText field (own.map (·.2)) =
    lastText field ((reading env (own.map (·.1))).map (·.2))
  /-- the job has sizes of its own, or the other sections have none beyond those that its lines
  have -/
  sizes : ((lastSizes (own.map (·.2))).1 ≠ 0 ∧ (lastSizes (own.map (·.2))).2 ≠ 0) ∨
    boundsOf ((reading env calls).map (·.2)) = boundsOf (own.map (·.2))

/-! ## A call of a handler -/

theorem Params.setJob_job (s : Params) : s.setJob s.job = s := by
  simp only [setJob, job]
  cases s with
  | mk env shared bounds defaultJob jobs =>
    dsimp only
    by_cases hjobs : jobs = []
    · rw [if_pos hjobs, hjobs]
      rfl
    · rw [if_neg hjobs, List.getLastD_eq_getLast?, List.getLast?_eq_some_getLast hjobs,
        Option.getD_some, List.dropLast_concat_getLast]

/-- What a line changes: the job that is the last so far, or the default, and the bounds. -/
structure Params.Handles (s : Params) (call : HandlerCall) (s' : Params) : Prop where
  env : s'.env = envAfter s.env call
  bounds : s'.bounds =
    (sizesOf (·.Gathered) (readCall s.env call)).toList.foldl .widen s.bounds
  jobs : match call with
    | .sectionDefined _ => s'.defaultJob = s.defaultJob ∧
      ∃ job, jobStep s.defaultJob call = .ok job ∧ s'.jobs = s.jobs ++ [job]
    | _ => ∃ job, jobStep s.job (readCall s.env call) = .ok job ∧
      s'.defaultJob = (s.setJob job).defaultJob ∧ s'.jobs = (s.setJob job).jobs

theorem Params.setJob_env (s : Params) (job : JobConfig) : (s.setJob job).env = s.env := by
  simp only [setJob]
  split <;> rfl

theorem Params.setJob_bounds (s : Params) (job : JobConfig) :
    (s.setJob job).bounds = s.bounds := by
  simp only [setJob]
  split <;> rfl

/-- A property changes the job as its line says. -/
theorem onPropertyDefined_spec {key value left : List Byte} {s s' : Params}
    (h : onPropertyDefined key value s = .ok (s', left)) :
    ∃ property, propertyOf key = some property ∧ left = property.left value ∧ s'.env = s.env ∧
      s'.bounds = (sizesOf (·.Gathered) (.propertyDefined key value)).toList.foldl .widen s.bounds ∧
      ∃ job, jobStep s.job (.propertyDefined key value) = .ok job ∧
        s'.defaultJob = (s.setJob job).defaultJob ∧ s'.jobs = (s.setJob job).jobs := by
  simp only [onPropertyDefined] at h
  cases hkey : propertyOf key with
  | none =>
    rw [hkey] at h
    cases h
  | some property =>
    rw [hkey] at h
    obtain ⟨s'', hdefine, hpure⟩ := bind_eq_ok.mp h
    obtain ⟨rfl, rfl⟩ := Prod.mk.inj (pure_eq_ok.mp hpure)
    refine ⟨property, rfl, rfl, ?_⟩
    simp only [Property.define] at hdefine
    simp only [jobStep, sizesOf]
    rw [hkey]
    cases property with
    | text field =>
      obtain ⟨job, hjob, hset⟩ := bind_eq_ok.mp hdefine
      obtain rfl := pure_eq_ok.mp hset
      exact ⟨s.setJob_env job, s.setJob_bounds job, job, hjob, rfl, rfl⟩
    | value setter =>
      obtain ⟨job, hjob, hset⟩ := bind_eq_ok.mp hdefine
      obtain rfl := pure_eq_ok.mp hset
      exact ⟨s.setJob_env job, s.setJob_bounds job, job, hjob, rfl, rfl⟩
    | iosize op =>
      obtain ⟨sizes, hsizes, hset⟩ := bind_eq_ok.mp hdefine
      obtain rfl := pure_eq_ok.mp hset
      dsimp only
      rw [hsizes]
      refine ⟨s.setJob_env _, ?_, _, bind_eq_ok.mpr ⟨sizes, hsizes, rfl⟩, rfl, rfl⟩
      by_cases hop : op.Gathered
      · rw [if_pos hop, if_pos (decide_eq_true hop)]
        rfl
      · rw [if_neg hop, if_neg (by simpa using hop)]
        rfl
    | shared set =>
      obtain ⟨shared, -, hset⟩ := bind_eq_ok.mp hdefine
      obtain rfl := pure_eq_ok.mp hset
      refine ⟨rfl, rfl, s.job, rfl, ?_, ?_⟩
      · rw [s.setJob_job]
      · rw [s.setJob_job]

/-- **A call of a handler.** -/
theorem handle_spec {s s' : Params} {call : HandlerCall} (h : handle s call = .ok s') :
    s.Handles call s' := by
  cases call with
  | sectionDefined name =>
    obtain ⟨hlen, hok⟩ := ite_error_eq_ok.mp h
    obtain rfl := Except.ok.inj hok
    exact ⟨rfl, rfl, rfl, _, if_neg hlen, rfl⟩
  | propertyDefined key value =>
    obtain ⟨⟨s'', left⟩, hdefined, hpure⟩ := bind_eq_ok.mp h
    obtain rfl := pure_eq_ok.mp hpure
    obtain ⟨property, -, -, henv, hbounds, hjobs⟩ := onPropertyDefined_spec hdefined
    exact ⟨henv, hbounds, hjobs⟩
  | envRefered key reference =>
    simp only [handle] at h
    cases htext : s.env (envKey reference) with
    | none =>
      rw [htext] at h
      cases h
    | some text =>
      rw [htext] at h
      obtain ⟨⟨s'', left⟩, hdefined, hpure⟩ := bind_eq_ok.mp h
      obtain rfl := pure_eq_ok.mp hpure
      obtain ⟨property, hkey, rfl, henv, hbounds, hjobs⟩ := onPropertyDefined_spec hdefined
      have hread : readCall s.env (.envRefered key reference) =
          .propertyDefined key (tokenPart text) := by
        simp only [readCall]
        rw [htext]
        rfl
      refine ⟨?_, ?_, ?_⟩
      · simp only [envAfter]
        rw [htext, hkey, henv]
      · rw [hread]
        exact hbounds
      · dsimp only
        rw [hread]
        exact hjobs

/-! ## A run of the handlers -/

theorem reading_append (env : Environment) (calls : List HandlerCall) (call : HandlerCall) :
    reading env (calls ++ [call]) =
      reading env calls ++ [(call, readCall (calls.foldl envAfter env) call)] := by
  induction calls generalizing env with
  | nil => rfl
  | cons c calls ih =>
    rw [List.cons_append, reading, ih]
    rfl

/-- The sections of a file. -/
def sectionsOf (env : Environment) (calls : List HandlerCall) : Sections :=
  (reading env calls).foldl Sections.add { preamble := [], sections := [] }

theorem ownJob_append (calls : List HandlerCall) (call : HandlerCall) :
    ownJob (calls ++ [call]) = ownJob calls >>= (jobStep · call) := by
  simp only [ownJob]
  rw [List.foldlM_append]
  congr 1
  funext job
  rw [List.foldlM_cons]
  cases jobStep job call <;> rfl

theorem boundsOf_append (calls : List HandlerCall) (call : HandlerCall) :
    boundsOf (calls ++ [call]) =
      (sizesOf (·.Gathered) call).toList.foldl .widen (boundsOf calls) := by
  simp only [boundsOf]
  rw [List.filterMap_append, List.foldl_append]
  rfl

/-- **What the parameters are after some lines**: each job is what its lines say, as they were
read. -/
structure Params.After (env : Environment) (calls : List HandlerCall) (s : Params) : Prop where
  environment : s.env = calls.foldl envAfter env
  bounds : s.bounds = boundsOf ((reading env calls).map (·.2))
  default : ownJob ((sectionsOf env calls).preamble.map (·.2)) = .ok s.defaultJob
  jobs : (sectionsOf env calls).sections.mapM
    (fun own => ownJob (((sectionsOf env calls).preamble ++ own).map (·.2))) = .ok s.jobs

theorem mapM_append_ok {α β : Type} {f : α → Except HandlerError β} {xs : List α} {x : α}
    {ys : List β} : (xs ++ [x]).mapM f = .ok ys ↔
      ∃ zs z, xs.mapM f = .ok zs ∧ f x = .ok z ∧ ys = zs ++ [z] := by
  rw [List.mapM_append, bind_eq_ok]
  refine ⟨?_, ?_⟩
  · rintro ⟨zs, hzs, h⟩
    obtain ⟨ws, hws, hys⟩ := bind_eq_ok.mp h
    rw [List.mapM_cons] at hws
    obtain ⟨z, hz, hnil⟩ := bind_eq_ok.mp hws
    obtain rfl : [z] = ws := pure_eq_ok.mp hnil
    exact ⟨zs, z, hzs, hz, (pure_eq_ok.mp hys).symm⟩
  · rintro ⟨zs, z, hzs, hz, rfl⟩
    refine ⟨zs, hzs, bind_eq_ok.mpr ⟨[z], ?_, rfl⟩⟩
    rw [List.mapM_cons, hz]
    rfl

theorem Params.After.nil (env : Environment) : Params.After env [] (.init env) :=
  ⟨rfl, rfl, rfl, rfl⟩

/-- One more line. -/
theorem Params.After.add {env : Environment} {calls : List HandlerCall} {call : HandlerCall}
    {s s' : Params} (h : s.After env calls) (hcall : handle s call = .ok s') :
    s'.After env (calls ++ [call]) := by
  obtain ⟨henv, hbounds, hjobs⟩ := handle_spec hcall
  have hreading := reading_append env calls call
  have hsections : sectionsOf env (calls ++ [call]) =
      (sectionsOf env calls).add (call, readCall s.env call) := by
    simp only [sectionsOf]
    rw [hreading, List.foldl_append, h.environment]
    rfl
  have henv' : s'.env = (calls ++ [call]).foldl envAfter env := by
    rw [henv, h.environment, List.foldl_append]
    rfl
  have hbounds' : s'.bounds = boundsOf ((reading env (calls ++ [call])).map (·.2)) := by
    rw [hbounds, hreading, List.map_append, List.map_singleton, boundsOf_append, h.bounds, h.environment]
  have hdefault := h.default
  have hsecs := h.jobs
  generalize hg : sectionsOf env calls = g at hsections hdefault hsecs
  -- a line that is not a header goes to the job that is the last so far
  have hline (hadd : g.add (call, readCall s.env call) =
      if g.sections = [] then
        { g with preamble := g.preamble ++ [(call, readCall s.env call)] }
      else { g with sections :=
        g.sections.dropLast ++ [g.sections.getLastD [] ++ [(call, readCall s.env call)]] })
      (hjob : ∃ job, jobStep s.job (readCall s.env call) = .ok job ∧
        s'.defaultJob = (s.setJob job).defaultJob ∧ s'.jobs = (s.setJob job).jobs) :
      s'.After env (calls ++ [call]) := by
    obtain ⟨job, hstep, hdef, hjs⟩ := hjob
    by_cases hnil : g.sections = []
    · rw [if_pos hnil] at hadd
      rw [hnil] at hsecs
      have hempty : s.jobs = [] := (Except.ok.inj hsecs).symm
      simp only [Params.setJob] at hdef hjs
      simp only [Params.job] at hstep
      rw [if_pos hempty] at hdef hjs
      rw [hempty] at hstep hjs
      refine ⟨henv', hbounds', ?_, ?_⟩
      · rw [hsections, hadd, hdef]
        dsimp only
        rw [List.map_append, List.map_singleton, ownJob_append, hdefault]
        exact hstep
      · rw [hsections, hadd, hjs]
        dsimp only
        rw [hnil]
        rfl
    · rw [if_neg hnil] at hadd
      obtain ⟨secs, last, hlast⟩ := (List.eq_nil_or_concat g.sections).resolve_left hnil
      rw [List.concat_eq_append] at hlast
      rw [hlast] at hsecs hadd
      obtain ⟨jobs, job', hjobs', hjob', hs⟩ := mapM_append_ok.mp hsecs
      simp only [Params.setJob] at hdef hjs
      simp only [Params.job] at hstep
      rw [hs] at hdef hjs hstep
      rw [if_neg (by simp)] at hdef hjs
      rw [List.getLastD_concat] at hstep hadd
      rw [List.dropLast_concat] at hadd hjs
      refine ⟨henv', hbounds', ?_, ?_⟩
      · rw [hsections, hadd, hdef]
        exact hdefault
      · rw [hsections, hadd, hjs]
        refine mapM_append_ok.mpr ⟨jobs, job, hjobs', ?_, rfl⟩
        dsimp only
        rw [← List.append_assoc, List.map_append, List.map_singleton, ownJob_append, hjob']
        exact hstep
  cases call with
  | sectionDefined name =>
    obtain ⟨hdef, job, hjob, hjs⟩ := hjobs
    refine ⟨henv', hbounds', ?_, ?_⟩
    · rw [hsections, hdef]
      exact hdefault
    · rw [hsections, hjs]
      refine mapM_append_ok.mpr ⟨s.jobs, job, hsecs, ?_, rfl⟩
      rw [List.map_append, List.map_singleton]
      apply (ownJob_append _ _).trans
      dsimp only [Sections.add]
      rw [hdefault]
      exact hjob
  | propertyDefined key value => exact hline rfl hjobs
  | envRefered key reference => exact hline rfl hjobs

/-! ## The environment -/

/-- Two environments that differ in capitals only. -/
def Alike (env env' : Environment) : Prop :=
  ∀ name, (env name).map tokenStrupr = (env' name).map tokenStrupr

theorem tokenStrupr_append (a b : List Byte) :
    tokenStrupr (a ++ b) = tokenStrupr a ++ tokenStrupr b := List.map_append

theorem tokenStrupr_tokenPart (text : List Byte) :
    tokenStrupr (tokenPart text) = tokenPart (tokenStrupr text) := by
  simp only [tokenPart]
  rw [length_tokenStrupr]
  exact List.map_take

theorem Alike.envAfter {env env' : Environment} (h : Alike env env') (call : HandlerCall) :
    Alike (envAfter env call) env' := by
  cases call with
  | sectionDefined name => exact h
  | propertyDefined key value => exact h
  | envRefered key reference =>
    simp only [ChamberSpo.envAfter]
    cases htext : env (envKey reference) with
    | none => exact h
    | some text =>
      cases propertyOf key with
      | none => exact h
      | some property =>
        intro name
        dsimp only
        rw [← h name]
        by_cases hname : name = envKey reference
        · subst hname
          rw [Function.update_self, htext, Option.map_some, Option.map_some, tokenStrupr_append,
            property.strupr_left, ← tokenStrupr_append]
          exact congrArg (fun x => some (tokenStrupr x)) (List.take_append_drop _ _)
        · rw [Function.update_of_ne hname]

/-- Two lines that differ in capitals of their value only. -/
inductive SameLine : HandlerCall → HandlerCall → Prop
  | sectionDefined (name : List Byte) : SameLine (.sectionDefined name) (.sectionDefined name)
  | propertyDefined (key : List Byte) {value value' : List Byte}
      (h : tokenStrupr value = tokenStrupr value') :
      SameLine (.propertyDefined key value) (.propertyDefined key value')

theorem Alike.readCall {env env' : Environment} (h : Alike env env') (call : HandlerCall) :
    SameLine (readCall env call) (readCall env' call) := by
  cases call with
  | sectionDefined name => exact .sectionDefined name
  | propertyDefined key value => exact .propertyDefined key rfl
  | envRefered key reference =>
    apply SameLine.propertyDefined
    have hname := h (envKey reference)
    rw [tokenStrupr_tokenPart, tokenStrupr_tokenPart]
    cases htext : env (envKey reference) with
    | none =>
      rw [htext] at hname
      rw [Option.map_eq_none_iff.mp hname.symm]
    | some text =>
      rw [htext] at hname
      obtain ⟨text', htext', heq⟩ := Option.map_eq_some_iff.mp hname.symm
      rw [htext', Option.getD_some, Option.getD_some, heq]

/-- A line of a file was read in an environment that differs in capitals only. -/
theorem mem_reading {env env' : Environment} {calls : List HandlerCall}
    {line : HandlerCall × HandlerCall} (h : Alike env env') (hline : line ∈ reading env calls) :
    ∃ env₁, Alike env₁ env' ∧ line.2 = ChamberSpo.readCall env₁ line.1 := by
  induction calls generalizing env with
  | nil => cases hline
  | cons call calls ih =>
    rcases List.mem_cons.mp hline with rfl | hline
    · exact ⟨env, h, rfl⟩
    · exact ih (h.envAfter call) hline

/-- The lines of one job, read in the file and read alone. -/
theorem sameLines {env env' : Environment} {own : List (HandlerCall × HandlerCall)}
    (h : ∀ line ∈ own, ∃ env₁, Alike env₁ env ∧ line.2 = ChamberSpo.readCall env₁ line.1)
    (halike : Alike env env') :
    List.Forall₂ SameLine (own.map (·.2)) ((reading env' (own.map (·.1))).map (·.2)) := by
  induction own generalizing env' with
  | nil => exact .nil
  | cons line own ih =>
    obtain ⟨env₁, hat, hread⟩ := h line List.mem_cons_self
    have hstep : Alike env (ChamberSpo.envAfter env' line.1) := fun name =>
      ((Alike.envAfter (fun name => (halike name).symm) line.1) name).symm
    refine .cons ?_ (ih (fun line hline => h line (List.mem_cons_of_mem _ hline)) hstep)
    dsimp only
    rw [hread]
    exact Alike.readCall (fun name => (hat name).trans (halike name)) line.1

/-- Each line is so. -/
structure Sections.All (p : HandlerCall × HandlerCall → Prop) (s : Sections) : Prop where
  preamble : ∀ line ∈ s.preamble, p line
  sections : ∀ own ∈ s.sections, ∀ line ∈ own, p line

namespace Sections

variable {p : HandlerCall × HandlerCall → Prop} {s : Sections}

theorem All.add {line : HandlerCall × HandlerCall} (h : s.All p) (hline : p line) :
    (s.add line).All p := by
  have hone {lines : List (HandlerCall × HandlerCall)} (hlines : ∀ line ∈ lines, p line) :
      ∀ l ∈ lines ++ [line], p l := by
    intro l hl
    rcases List.mem_append.mp hl with hl | hl
    · exact hlines l hl
    · rwa [List.mem_singleton.mp hl]
  -- a line that is not a header
  have hadd : (if s.sections = [] then { s with preamble := s.preamble ++ [line] }
      else { s with sections := s.sections.dropLast ++ [s.sections.getLastD [] ++ [line]] }).All
        p := by
    by_cases hnil : s.sections = []
    · rw [if_pos hnil]
      exact ⟨hone h.preamble, h.sections⟩
    · rw [if_neg hnil]
      refine ⟨h.preamble, ?_⟩
      intro own hown
      rcases List.mem_append.mp hown with hown | hown
      · exact h.sections own (List.mem_of_mem_dropLast hown)
      · rw [List.mem_singleton.mp hown]
        apply hone
        rw [List.getLastD_eq_getLast?, List.getLast?_eq_some_getLast hnil]
        exact h.sections _ (List.getLast_mem hnil)
  obtain ⟨call, read⟩ := line
  cases call with
  | sectionDefined name =>
    refine ⟨h.preamble, ?_⟩
    intro own hown
    rcases List.mem_append.mp hown with hown | hown
    · exact h.sections own hown
    · rw [List.mem_singleton.mp hown]
      intro l hl
      rwa [List.mem_singleton.mp hl]
  | propertyDefined key value => exact hadd
  | envRefered key reference => exact hadd

theorem All.foldl {lines : List (HandlerCall × HandlerCall)} (h : s.All p)
    (hlines : ∀ line ∈ lines, p line) : (lines.foldl Sections.add s).All p := by
  induction lines generalizing s with
  | nil => exact h
  | cons line lines ih =>
    exact ih (h.add (hlines line List.mem_cons_self)) fun l hl =>
      hlines l (List.mem_cons_of_mem _ hl)

theorem All.own (h : s.All p) : ∀ own ∈ s.own, ∀ line ∈ own, p line := by
  intro own hown line hline
  simp only [Sections.own] at hown
  by_cases hnil : s.sections = []
  · rw [if_pos hnil] at hown
    rw [List.mem_singleton.mp hown] at hline
    exact h.preamble line hline
  · rw [if_neg hnil] at hown
    obtain ⟨sec, hsec, rfl⟩ := List.mem_map.mp hown
    rcases List.mem_append.mp hline with hline | hline
    · exact h.preamble line hline
    · exact h.sections sec hsec line hline

end Sections

/-! ## Two jobs from lines that differ in capitals only -/

/-- Two jobs that differ in the capitals of their texts only. -/
structure SameJob (job job' : JobConfig) : Prop where
  same : job' = job.withTexts job'.texts
  texts : ∀ field, tokenStrupr (job.texts field) = tokenStrupr (job'.texts field)

theorem Setter.set_texts (setter : Setter) {text : List Byte} {job job' : JobConfig}
    (h : setter.set text job = .ok job') : job'.texts = job.texts := by
  have hsame := setter.set_withTexts text job job.texts fun _ => Iff.rfl
  rw [job.withTexts_texts, h] at hsame
  have hjob' : job' = job'.withTexts job.texts := Except.ok.inj hsame
  rw [hjob', JobConfig.texts_withTexts]

theorem tokenStrupr_eq_nil {text : List Byte} : tokenStrupr text = [] ↔ text = [] :=
  List.map_eq_nil_iff

/-- A section changes nothing but the name. -/
theorem jobStep_section {name : List Byte} {job job' : JobConfig}
    (h : jobStep job (.sectionDefined name) = .ok job') : job' = { job with name := name } := by
  obtain ⟨-, hok⟩ := ite_error_eq_ok.mp h
  exact (Except.ok.inj hok).symm

theorem jobStep_property {key value : List Byte} {job job' : JobConfig} :
    jobStep job (.propertyDefined key value) = .ok job' ↔
      ∃ property, propertyOf key = some property ∧ property.set value job = .ok job' := by
  simp only [jobStep]
  cases propertyOf key with
  | none =>
    refine ⟨?_, ?_⟩
    · nofun
    · rintro ⟨property, hkey, -⟩
      cases hkey
  | some property =>
    refine ⟨?_, ?_⟩
    · intro h
      exact ⟨property, rfl, h⟩
    · rintro ⟨property', hkey, h⟩
      obtain rfl := Option.some.inj hkey
      exact h

/-- One property. -/
theorem SameJob.set {job job₁ job' : JobConfig} (property : Property) {value value' : List Byte}
    (h : SameJob job job') (hvalue : tokenStrupr value = tokenStrupr value')
    (hset : property.set value job = .ok job₁) :
    ∃ job₁', property.set value' job' = .ok job₁' ∧ SameJob job₁ job₁' := by
  obtain ⟨hsame, htexts⟩ := h
  generalize job'.texts = texts at hsame htexts
  subst hsame
  have hlen : value.length = value'.length := by
    rw [← length_tokenStrupr, hvalue, length_tokenStrupr]
  cases property with
  | text field =>
    obtain ⟨hshm, hrest⟩ := ite_error_eq_ok.mp hset
    obtain ⟨hsize, hok⟩ := ite_error_eq_ok.mp hrest
    obtain rfl := Except.ok.inj hok
    rw [hlen] at hsize
    refine ⟨_, ite_error_eq_ok.mpr ⟨hshm, ite_error_eq_ok.mpr ⟨hsize, rfl⟩⟩, ?_, ?_⟩
    · rw [JobConfig.texts_withTexts, JobConfig.texts_withTexts]
      rfl
    · intro field'
      rw [JobConfig.texts_withTexts, JobConfig.texts_withTexts, JobConfig.texts_withTexts]
      by_cases hfield : field' = field
      · subst hfield
        rwa [Function.update_self, Function.update_self]
      · rw [Function.update_of_ne hfield, Function.update_of_ne hfield]
        exact htexts field'
  | value setter =>
    have hempty (field : JobText) : texts field = [] ↔ job.texts field = [] := by
      rw [← tokenStrupr_eq_nil, ← htexts field, tokenStrupr_eq_nil]
    have hset' : setter.set value' (job.withTexts texts) = .ok (job₁.withTexts texts) := by
      rw [← setter.set_strupr, ← hvalue, setter.set_strupr,
        setter.set_withTexts value job texts hempty]
      exact congrArg ((·.withTexts texts) <$> ·) hset
    refine ⟨_, hset', by rw [JobConfig.texts_withTexts], ?_⟩
    intro field
    rw [JobConfig.texts_withTexts, setter.set_texts hset]
    exact htexts field
  | iosize op =>
    obtain ⟨sizes, hsizes, hok⟩ := bind_eq_ok.mp hset
    obtain rfl := pure_eq_ok.mp hok
    rw [← parseIosize_strupr, hvalue, parseIosize_strupr] at hsizes
    exact ⟨_, bind_eq_ok.mpr ⟨sizes, hsizes, rfl⟩, rfl, fun field => (htexts field).trans
      (congrArg (fun t => tokenStrupr (t field)) (job.texts_withTexts texts).symm)⟩
  | shared set =>
    obtain rfl := Except.ok.inj hset
    refine ⟨_, rfl, by rw [JobConfig.texts_withTexts], ?_⟩
    rwa [JobConfig.texts_withTexts]

/-- One line. -/
theorem SameJob.step {job job₁ job' : JobConfig} {call call' : HandlerCall} (h : SameJob job job')
    (hcall : SameLine call call') (hstep : jobStep job call = .ok job₁) :
    ∃ job₁', jobStep job' call' = .ok job₁' ∧ SameJob job₁ job₁' := by
  cases hcall with
  | sectionDefined name =>
    obtain ⟨hlen, hok⟩ := ite_error_eq_ok.mp hstep
    obtain rfl := Except.ok.inj hok
    obtain ⟨hsame, htexts⟩ := h
    refine ⟨{ job' with name := name }, if_neg hlen, ?_, htexts⟩
    rw [hsame]
    rfl
  | propertyDefined key hvalue =>
    obtain ⟨property, hkey, hset⟩ := jobStep_property.mp hstep
    obtain ⟨job₁', hset', hsame⟩ := h.set property hvalue hset
    exact ⟨job₁', jobStep_property.mpr ⟨property, hkey, hset'⟩, hsame⟩

/-- All the lines of a job. -/
theorem SameJob.run {job job₁ job' : JobConfig} {calls calls' : List HandlerCall}
    (h : SameJob job job') (hcalls : List.Forall₂ SameLine calls calls')
    (hrun : calls.foldlM jobStep job = .ok job₁) :
    ∃ job₁', calls'.foldlM jobStep job' = .ok job₁' ∧ SameJob job₁ job₁' := by
  induction hcalls generalizing job job' with
  | nil =>
    obtain rfl := pure_eq_ok.mp hrun
    exact ⟨job', rfl, h⟩
  | cons hcall hcalls ih =>
    obtain ⟨job₂, hstep, hrest⟩ := bind_eq_ok.mp hrun
    obtain ⟨job₂', hstep', h'⟩ := h.step hcall hstep
    obtain ⟨job₁', hrun', hsame⟩ := ih h' hrest
    refine ⟨job₁', ?_, hsame⟩
    rw [List.foldlM_cons, hstep']
    exact hrun'

/-! ## Texts and sizes -/

theorem jobStep_texts {job job' : JobConfig} {call : HandlerCall} (h : jobStep job call = .ok job')
    (field : JobText) : job'.texts field = (textOf field call).getD (job.texts field) := by
  cases call with
  | sectionDefined name =>
    obtain rfl := jobStep_section h
    rfl
  | envRefered key reference => cases h
  | propertyDefined key value =>
    obtain ⟨property, hkey, hset⟩ := jobStep_property.mp h
    simp only [textOf]
    rw [hkey]
    cases property with
    | text field' =>
      obtain ⟨-, hrest⟩ := ite_error_eq_ok.mp hset
      obtain ⟨-, hok⟩ := ite_error_eq_ok.mp hrest
      obtain rfl := Except.ok.inj hok
      rw [JobConfig.texts_withTexts]
      dsimp only
      by_cases hfield : field = field'
      · rw [hfield, Function.update_self, if_pos rfl, Option.getD_some]
      · rw [Function.update_of_ne hfield, if_neg (Ne.symm hfield), Option.getD_none]
    | value setter => exact congrFun (setter.set_texts hset) field
    | iosize op =>
      obtain ⟨sizes, -, hok⟩ := bind_eq_ok.mp hset
      obtain rfl := pure_eq_ok.mp hok
      rfl
    | shared set =>
      obtain rfl := Except.ok.inj hset
      rfl

theorem jobStep_sizes {job job' : JobConfig} {call : HandlerCall} (h : jobStep job call = .ok job') :
    (job'.iosizes .total).sizes = (sizesOf (· = .total) call).getD (job.iosizes .total).sizes := by
  cases call with
  | sectionDefined name =>
    obtain rfl := jobStep_section h
    rfl
  | envRefered key reference => cases h
  | propertyDefined key value =>
    obtain ⟨property, hkey, hset⟩ := jobStep_property.mp h
    simp only [sizesOf]
    rw [hkey]
    cases property with
    | text field =>
      obtain ⟨-, hrest⟩ := ite_error_eq_ok.mp hset
      obtain ⟨-, hok⟩ := ite_error_eq_ok.mp hrest
      obtain rfl := Except.ok.inj hok
      rfl
    | value setter => exact setter.set_sizes value job job' hset .total
    | iosize op =>
      obtain ⟨sizes, hsizes, hok⟩ := bind_eq_ok.mp hset
      obtain rfl := pure_eq_ok.mp hok
      dsimp only
      rw [hsizes]
      by_cases hop : op = .total
      · rw [hop, Function.update_self]
        rfl
      · rw [Function.update_of_ne (Ne.symm hop), if_neg (by simpa using hop)]
        rfl
    | shared set =>
      obtain rfl := Except.ok.inj hset
      rfl

/-- What the lines leave in a field is what the last one that writes it does. -/
theorem foldlM_last {α : Type} (get : JobConfig → α) {written : HandlerCall → Option α}
    (hstep : ∀ {job job' call}, jobStep job call = .ok job' →
      get job' = (written call).getD (get job))
    {calls : List HandlerCall} {job job' : JobConfig} (h : calls.foldlM jobStep job = .ok job') :
    get job' = (calls.filterMap written).getLast?.getD (get job) := by
  induction calls generalizing job with
  | nil =>
    obtain rfl := pure_eq_ok.mp h
    rfl
  | cons call calls ih =>
    obtain ⟨job₁, hcall, hrest⟩ := bind_eq_ok.mp h
    rw [ih hrest, hstep hcall]
    cases hw : written call with
    | none => rw [List.filterMap_cons_none hw, Option.getD_none]
    | some x =>
      rw [List.filterMap_cons_some hw, Option.getD_some, List.getLast?_cons, Option.getD_some]

theorem ownJob_texts {calls : List HandlerCall} {job : JobConfig} (h : ownJob calls = .ok job)
    (field : JobText) : job.texts field = lastText field calls := by
  apply (foldlM_last (·.texts field) (fun hcall => jobStep_texts hcall field) h).trans
  cases field <;> rfl

theorem ownJob_sizes {calls : List HandlerCall} {job : JobConfig} (h : ownJob calls = .ok job) :
    (job.iosizes .total).sizes = lastSizes calls :=
  foldlM_last (fun job => (job.iosizes .total).sizes) jobStep_sizes h

/-- The bounds do not depend on capitals. -/
theorem boundsOf_congr {calls calls' : List HandlerCall} (h : List.Forall₂ SameLine calls calls') :
    boundsOf calls = boundsOf calls' := by
  have hsizes : calls.filterMap (sizesOf (·.Gathered)) = calls'.filterMap (sizesOf (·.Gathered)) := by
    induction h with
    | nil => rfl
    | cons hcall _ ih =>
      rw [List.filterMap_cons, List.filterMap_cons, ih]
      cases hcall with
      | sectionDefined name => rfl
      | propertyDefined key hvalue =>
        simp only [sizesOf]
        rw [← parseIosize_strupr, hvalue, parseIosize_strupr]
  simp only [boundsOf]
  rw [hsizes]

/-- Bounds count for a job that has no sizes. -/
theorem fallbackIosize_eq_iff (bounds bounds' : IosizeBounds) (job : JobConfig) :
    fallbackIosize bounds job = fallbackIosize bounds' job ↔
      ((job.iosizes .total).sizes.1 ≠ 0 ∧ (job.iosizes .total).sizes.2 ≠ 0) ∨ bounds = bounds' := by
  by_cases hnone : (job.iosizes .total).iosizeMin = 0 ∨ (job.iosizes .total).iosizeMax = 0
  · have hnot : ¬ ((job.iosizes .total).sizes.1 ≠ 0 ∧ (job.iosizes .total).sizes.2 ≠ 0) := by
      rintro ⟨hmin, hmax⟩
      exact hnone.elim hmin hmax
    rw [or_iff_right hnot]
    refine ⟨?_, ?_⟩
    · intro h
      simp only [fallbackIosize] at h
      simp only [if_pos hnone] at h
      have htotal := congrArg (fun job => job.iosizes .total) h
      simp only [Function.update_self, Iosize.mk.injEq] at htotal
      obtain ⟨hmin, hmax, -⟩ := htotal
      have hwide (x y : BitVec 32) (hxy : x.setWidth 64 = y.setWidth 64) : x = y := by
        have h32 := congrArg (BitVec.setWidth 32) hxy
        simpa using h32
      have hmin' : bounds.min = bounds'.min := hwide _ _ hmin
      have hmax' : bounds.max = bounds'.max := hwide _ _ hmax
      cases bounds
      cases bounds'
      exact congrArg₂ IosizeBounds.mk hmin' hmax'
    · rintro rfl
      rfl
  · have hboth := not_or.mp hnone
    refine ⟨fun _ => .inl hboth, ?_⟩
    intro _
    simp only [fallbackIosize]
    simp only [if_neg hnone]

/-! ## Which files isolate their sections -/

section Isolated

variable {env : Environment} {calls : List HandlerCall} {s : Params}

/-- All the lines, from the beginning. -/
theorem Params.After.run (h : calls.foldlM handle (.init env) = .ok s) : s.After env calls := by
  induction calls using List.reverseRecOn generalizing s with
  | nil =>
    obtain rfl := pure_eq_ok.mp h
    exact .nil env
  | append_singleton calls call ih =>
    rw [List.foldlM_append] at h
    obtain ⟨s₁, hrun, hrest⟩ := bind_eq_ok.mp h
    rw [List.foldlM_cons] at hrest
    obtain ⟨s₂, hcall, hnil⟩ := bind_eq_ok.mp hrest
    obtain rfl := pure_eq_ok.mp hnil
    exact (ih hrun).add hcall

theorem forall₂_of_mapM {α β : Type} {f : α → Except HandlerError β} {xs : List α} {ys : List β}
    (h : xs.mapM f = .ok ys) : List.Forall₂ (fun x y => f x = .ok y) xs ys := by
  induction xs generalizing ys with
  | nil =>
    obtain rfl := Except.ok.inj h
    exact .nil
  | cons x xs ih =>
    rw [List.mapM_cons] at h
    obtain ⟨y, hy, hrest⟩ := bind_eq_ok.mp h
    obtain ⟨zs, hzs, hpure⟩ := bind_eq_ok.mp hrest
    obtain rfl := pure_eq_ok.mp hpure
    exact .cons hy (ih hzs)

/-- Each job is what its lines say, as they were read in the file. -/
theorem Params.After.own (h : s.After env calls) :
    List.Forall₂ (fun own job => ownJob (own.map (·.2)) = .ok job) (ownLines env calls)
      s.finish.jobs := by
  have hjobs := forall₂_of_mapM h.jobs
  have hown : ownLines env calls = (sectionsOf env calls).own := rfl
  rw [hown]
  simp only [Sections.own, Params.finish]
  by_cases hnil : (sectionsOf env calls).sections = []
  · rw [hnil] at hjobs
    cases hempty : s.jobs with
    | nil =>
      rw [if_pos hnil, if_pos rfl]
      exact .cons h.default .nil
    | cons job jobs =>
      rw [hempty] at hjobs
      cases hjobs
  · rw [if_neg hnil]
    have hsome : s.jobs ≠ [] := by
      intro hempty
      rw [hempty] at hjobs
      cases hsec : (sectionsOf env calls).sections with
      | nil => exact hnil hsec
      | cons sec secs =>
        rw [hsec] at hjobs
        cases hjobs
    rw [if_neg hsome, List.forall₂_map_left_iff]
    exact hjobs

/-- The lines of a job were read in environments that differ in capitals only. -/
theorem sameLines_own {own : List (HandlerCall × HandlerCall)} (hown : own ∈ ownLines env calls) :
    List.Forall₂ SameLine (own.map (·.2)) ((reading env (own.map (·.1))).map (·.2)) := by
  have hempty : Sections.All
      (fun line => ∃ env₁, Alike env₁ env ∧ line.2 = ChamberSpo.readCall env₁ line.1)
      { preamble := [], sections := [] } := ⟨nofun, nofun⟩
  have hall : (sectionsOf env calls).All _ :=
    hempty.foldl fun line hline => mem_reading (fun _ => rfl) hline
  exact sameLines (hall.own own hown) fun _ => rfl

/-- One job. -/
theorem isolated_iff_independent {own : List (HandlerCall × HandlerCall)} {job : JobConfig}
    (hafter : s.After env calls) (hown : own ∈ ownLines env calls)
    (hjob : ownJob (own.map (·.2)) = .ok job) :
    Isolated env s.bounds (own.map (·.1)) job ↔ Independent env calls own := by
  have hlines := sameLines_own hown
  have hdefault : SameJob .default .default := ⟨rfl, fun _ => rfl⟩
  obtain ⟨job', hjob', hsame⟩ := hdefault.run hlines hjob
  have htexts : job' = job ↔ ∀ field, job.texts field = job'.texts field := by
    refine ⟨?_, ?_⟩
    · rintro rfl field
      rfl
    · intro h
      rw [hsame.same, ← funext h, JobConfig.withTexts_texts]
  have hparams : ownJob ((reading env (own.map (·.1))).map (·.2)) = .ok job ↔
      ∀ field, lastText field (own.map (·.2)) =
        lastText field ((reading env (own.map (·.1))).map (·.2)) := by
    have hok : ownJob ((reading env (own.map (·.1))).map (·.2)) = .ok job' := hjob'
    rw [hok, Except.ok.injEq, htexts]
    exact forall_congr' fun field => by rw [ownJob_texts hjob, ownJob_texts hok]
  have hsizes : fallbackIosize s.bounds job =
        fallbackIosize (boundsOf ((reading env (own.map (·.1))).map (·.2))) job ↔
      ((lastSizes (own.map (·.2))).1 ≠ 0 ∧ (lastSizes (own.map (·.2))).2 ≠ 0) ∨
        boundsOf ((reading env calls).map (·.2)) = boundsOf (own.map (·.2)) := by
    rw [fallbackIosize_eq_iff, ownJob_sizes hjob, hafter.bounds, boundsOf_congr hlines]
  exact ⟨fun h => ⟨hparams.mp h.params, hsizes.mp h.sizes⟩,
    fun h => ⟨hparams.mpr h.texts, hsizes.mpr h.sizes⟩⟩

/-- Lines that each end with a line feed. -/
def fileOf (lines : List String) : List Byte := (lines.map ascii).flatMap (· ++ [lf])

/-- What `parse_param` comes to on clean lines. -/
def runLines (env : Environment) (lines : List String) : Option (List GivenLine × Params) :=
  ((lines.map ascii).foldlM lineStep
    ({ Parser.fresh with curToken := none, endOfToken := false }, .init env, [])).map
      fun r => (r.2.2, r.2.1.finish)

theorem parseParam_lines (env : Environment) (lines : List String)
    (hclean : ∀ line ∈ lines, Clean (ascii line)) (hrun : (runLines env lines).isSome = true) :
    ∃ out, parseParam env .fresh (fun _ => 0) (fileOf lines) = .ok out ∧
      runLines env lines = some (out.given, out.params) := by
  simp only [runLines] at hrun ⊢
  rw [Option.isSome_map] at hrun
  obtain ⟨⟨p, params, given⟩, hfold⟩ := Option.isSome_iff_exists.mp hrun
  obtain ⟨buf, num, hfrom⟩ := parseFrom_lines (s := {
    parser := { Parser.fresh with curToken := none, endOfToken := false }
    lineBuf := fun _ => 0, lineNum := 0, params := .init env, given := [] })
    (List.forall_mem_map.mpr hclean) hfold
  refine ⟨_, bind_eq_ok.mpr ⟨_, hfrom, rfl⟩, ?_⟩
  rw [hfold]
  rfl

/-- What is read off the run is what is to be seen of the file. -/
theorem eq_of_runLines {α : Type} {env : Environment} {lines : List String}
    {r : List GivenLine × Params} (get : List GivenLine × Params → α) {x : α}
    (hrun : runLines env lines = some r) (hget : (runLines env lines).map get = some x) :
    get r = x := by
  rw [hrun] at hget
  exact Option.some.inj hget

/-- Two sections with sizes of their own. -/
def sizedLines : List String := ["IOENGINE=null", "[A]", "IOSIZE=4k", "[B]", "IOSIZE=8k"]

/-- A section without a size, after one that reads more than the lines before both. -/
def leakLines : List String := ["READ_SIZE=4k", "[A]", "READ_SIZE=64k", "[B]"]

end Isolated

end ChamberSpo

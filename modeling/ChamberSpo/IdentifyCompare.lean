import Mathlib.Logic.Function.Basic
import ChamberSpo.BioBuffers
import ChamberSpo.Submit
import ChamberSpo.Transition

/-!
# The comparison of identify data

A bio has two pointers to its data. `bio->data` is `bio->data_buf` moved by 0, 4, 8 or 12 bytes, as
`create_bio_pool` draws. An engine stores the 4096 bytes of an identify at `bio->data`;
`iover_submit` keeps and compares the 4096 bytes at `bio->data_buf`.

* `dataOffset` — the distance of the two.
* `IdentifyStep` — a job: its commands are issued and completed in any order, each in the buffer
  of its bio.
* `IdentifyExact` — in every run, a completion is accepted exactly when its bytes are those of the
  first identify. It holds exactly when no bio of the job is moved (`identifyExact_iff`): the last
  bytes of a moved identify are not compared, and what `malloc` gave stands in for them.
-/

namespace ChamberSpo

/-! ## The placement -/

/-- `(rand48() & 0x3) << 2` -/
def dataOffset (rand : ℕ) : ℕ := (rand &&& 3) <<< 2

/-- `bio->data_buf` as `create_bio_pool` leaves it: cleared from `bio->data` on. -/
def placedBuf (ns : NamespaceInfo) (iosizeMax : BitVec 32) (rand : ℕ) (memory : Buf) : Buf :=
  memory.fill (dataOffset rand) 0 (dataBufSize ns iosizeMax).toNat

/-! ## The job -/

/-- What the comparison depends on. -/
structure IdentifyState where
  iover : Iover
  view : JobView
  /-- `bio->data_buf` of each bio -/
  dataBuf : ℕ → Buf
  /-- the identifies in flight, with the bytes that the engine stored -/
  stored : ℕ → Option Buf
  /-- `job->iogen->result` -/
  result : Int

/-- A job that starts: nothing is in flight, and `job->identify` holds nothing yet. -/
def IdentifyState.start (ns : NamespaceInfo) (iosizeMax : BitVec 32) (draws : ℕ → ℕ)
    (memory : ℕ → Buf) (iover : Iover) (identify : Buf) : IdentifyState where
  iover := iover
  view := { identify := identify, identifyValid := false, iogenResult := 0 }
  dataBuf := fun id => placedBuf ns iosizeMax (draws id) (memory id)
  stored := fun _ => none
  result := 0

/-- What happens to the bio of an id. -/
inductive IdentifyEvent where
  /-- another command is issued, or an engine fills its buffer -/
  | issue (id : ℕ)
  /-- another command is completed -/
  | complete (id : ℕ)
  /-- an engine stores the bytes of an identify -/
  | store (id : ℕ) (bytes : Buf)
  /-- an identify for which the bytes were stored is completed -/
  | identify (id : ℕ) (bytes : Buf)

/-- The bytes of a completed identify. -/
def IdentifyEvent.completed : IdentifyEvent → Option Buf
  | .identify _ bytes => some bytes
  | .issue _ | .complete _ | .store _ _ => none

/-- The bytes of the identify that was completed first. -/
def firstIdentify (events : List IdentifyEvent) : Option Buf :=
  (events.filterMap IdentifyEvent.completed).head?

/-- A step of a job. A completion that `iover_submit` rejects ends the job. -/
inductive IdentifyStep (params : JobParams) (draws : ℕ → ℕ) :
    IdentifyState → IdentifyEvent → IdentifyState → Prop
  /-- Nothing but `bio->data` is written; the verifier may change in any way. -/
  | issue {s : IdentifyState} {id : ℕ} (iover : Iover) (buf : Buf) :
      s.result = 0 → id < params.iodepth → s.stored id = none →
      (∀ i < dataOffset (draws id), buf i = s.dataBuf id i) →
      IdentifyStep params draws s (.issue id)
        { s with iover := iover, dataBuf := Function.update s.dataBuf id buf }
  | complete {s : IdentifyState} {id : ℕ} {bio : Bio} {r : SubmitResult} :
      s.result = 0 → id < params.iodepth → s.stored id = none →
      bio.opcode ≠ .identify → bio.dataBuf = s.dataBuf id →
      ioverSubmit s.iover params s.view bio = some r →
      IdentifyStep params draws s (.complete id)
        { s with iover := r.iover, view := r.job, result := r.res }
  | store {s : IdentifyState} {id : ℕ} (bytes : Buf) :
      s.result = 0 → id < params.iodepth → s.stored id = none →
      IdentifyStep params draws s (.store id bytes)
        { s with
          dataBuf := Function.update s.dataBuf id
            ((s.dataBuf id).copy (dataOffset (draws id)) bytes 4096)
          stored := Function.update s.stored id (some bytes) }
  | identify {s : IdentifyState} {id : ℕ} {bytes : Buf} {bio : Bio} {r : SubmitResult} :
      s.result = 0 → id < params.iodepth → s.stored id = some bytes →
      bio.opcode = .identify → bio.result = 0 → bio.expectedResult = 0 →
      bio.dataBuf = s.dataBuf id →
      ioverSubmit s.iover params s.view bio = some r →
      IdentifyStep params draws s (.identify id bytes)
        { s with
          iover := r.iover
          view := r.job
          stored := Function.update s.stored id none
          result := r.res }

/-- **The comparison is exact**: whatever happened before, an identify is accepted exactly when its
bytes are those of the first one. -/
def IdentifyExact (params : JobParams) (draws : ℕ → ℕ) (start : IdentifyState) : Prop :=
  ∀ (events : List IdentifyEvent) (s t : IdentifyState) (id : ℕ) (bytes first : Buf),
    Run (IdentifyStep params draws) start events s →
    IdentifyStep params draws s (.identify id bytes) t →
    firstIdentify (events ++ [.identify id bytes]) = some first →
    (t.result = 0 ↔ ∀ i < 4096, bytes i = first i)

/-! ## One completion -/

section Completion

variable {iover : Iover} {params : JobParams} {job : JobView} {bio : Bio} {r : SubmitResult}

/-- A command other than an identify leaves the saved data alone. -/
theorem submitTail_identify (h : submitTail iover params job bio = some r)
    (hop : bio.opcode ≠ .identify) :
    r.job.identify = job.identify ∧ r.job.identifyValid = job.identifyValid := by
  rcases submitTail_job h with hjob | ⟨hidentify, -⟩ | ⟨-, hjob⟩
  · rw [hjob]
    exact ⟨rfl, rfl⟩
  · exact absurd hidentify hop
  · rw [hjob]
    exact ⟨rfl, rfl⟩

/-- The first identify is saved, from `bio->data_buf`. -/
theorem ioverSubmit_identify_first (hc : params.compare = true) (hop : bio.opcode = .identify)
    (hzero : bio.result = 0) (hexp : bio.expectedResult = 0) (hvalid : job.identifyValid = false) :
    ioverSubmit iover params job bio = some ⟨0, submitUnlock iover params bio,
      { job with identify := job.identify.copy 0 bio.dataBuf 4096, identifyValid := true }, 0⟩ := by
  rw [ioverSubmit, submitTail]
  simp [hc, hop, hzero, hexp, hvalid]

/-- A later one is compared with it. -/
theorem ioverSubmit_identify_again (hc : params.compare = true) (hop : bio.opcode = .identify)
    (hzero : bio.result = 0) (hexp : bio.expectedResult = 0) (hvalid : job.identifyValid = true) :
    ioverSubmit iover params job bio =
      some ⟨memcmp job.identify bio.dataBuf 4096, submitUnlock iover params bio, job,
        if memcmp job.identify bio.dataBuf 4096 ≠ 0 then memcmp job.identify bio.dataBuf 4096
        else 0⟩ := by
  rw [ioverSubmit, submitTail]
  simp [hc, hop, hzero, hexp, hvalid]

end Completion

/-! ## The first identify of a run -/

theorem firstIdentify_append (events later : List IdentifyEvent) :
    firstIdentify (events ++ later) = (firstIdentify events).or (firstIdentify later) := by
  rw [firstIdentify, List.filterMap_append, List.head?_append]
  rfl

/-- An identify is the first one if there was none. -/
theorem firstIdentify_snoc {events : List IdentifyEvent} {id : ℕ} {bytes first : Buf}
    (h : firstIdentify (events ++ [.identify id bytes]) = some first) :
    firstIdentify events = some first ∨ firstIdentify events = none ∧ first = bytes := by
  rw [firstIdentify_append] at h
  cases hfirst : firstIdentify events with
  | none =>
    rw [hfirst, Option.none_or] at h
    exact .inr ⟨rfl, (Option.some.inj h).symm⟩
  | some b =>
    rw [hfirst, Option.some_or] at h
    exact .inl h

/-! ## A job whose bios are not moved -/

/-- The saved data, after some events. -/
def Saved (view : JobView) : Option Buf → Prop
  | none => view.identifyValid = false
  | some first => view.identifyValid = true ∧ ∀ i < 4096, view.identify i = first i

/-- The saved data is what it was. -/
theorem Saved.congr {view view' : JobView} {first : Option Buf} (h : Saved view first)
    (hsame : view'.identify = view.identify) (hvalid : view'.identifyValid = view.identifyValid) :
    Saved view' first := by
  cases first with
  | none => exact hvalid.trans h
  | some first =>
    refine ⟨hvalid.trans h.1, ?_⟩
    rw [hsame]
    exact h.2

/-- What a job whose bios are not moved keeps. -/
structure IdentifyState.Inv (s : IdentifyState) (events : List IdentifyEvent) : Prop where
  /-- what is in flight is at `bio->data_buf` -/
  stored : ∀ id bytes, s.stored id = some bytes → ∀ i < 4096, s.dataBuf id i = bytes i
  saved : Saved s.view (firstIdentify events)

section Placed

variable {params : JobParams} {draws : ℕ → ℕ} {s t : IdentifyState} {events : List IdentifyEvent}

theorem IdentifyState.Inv.start (ns : NamespaceInfo) (iosizeMax : BitVec 32) (draws : ℕ → ℕ)
    (memory : ℕ → Buf) (iover : Iover) (identify : Buf) :
    (IdentifyState.start ns iosizeMax draws memory iover identify).Inv [] where
  stored := fun _ _ h => absurd h (by simp [IdentifyState.start])
  saved := rfl

/-- Events that are no identify leave the first one. -/
theorem firstIdentify_of_none {event : IdentifyEvent} (h : event.completed = none) :
    firstIdentify (events ++ [event]) = firstIdentify events := by
  rw [firstIdentify_append]
  simp [firstIdentify, h]

/-- **A completed identify**, of a bio that is not moved: it is accepted exactly when it is the
first one or has its bytes, and then the first one is saved. -/
theorem IdentifyState.Inv.identify (hc : params.compare = true) (hinv : s.Inv events)
    {bio : Bio} {r : SubmitResult} {id : ℕ} {bytes first : Buf} (hop : bio.opcode = .identify)
    (hzero : bio.result = 0) (hexp : bio.expectedResult = 0)
    (hbuf : ∀ i < 4096, bio.dataBuf i = bytes i)
    (hr : ioverSubmit s.iover params s.view bio = some r)
    (hfirst : firstIdentify (events ++ [.identify id bytes]) = some first) :
    (r.res = 0 ↔ ∀ i < 4096, bytes i = first i) ∧ Saved r.job (some first) := by
  have hsaved := hinv.saved
  rcases firstIdentify_snoc hfirst with hfirst | ⟨hnone, rfl⟩
  · rw [hfirst] at hsaved
    obtain ⟨hvalid, hsame⟩ := hsaved
    rw [ioverSubmit_identify_again hc hop hzero hexp hvalid] at hr
    obtain rfl := Option.some.inj hr
    refine ⟨?_, hvalid, hsame⟩
    rw [memcmp_eq_zero_iff]
    refine forall₂_congr fun i hi => ?_
    rw [hsame i hi, hbuf i hi]
    exact eq_comm
  · rw [hnone] at hsaved
    rw [ioverSubmit_identify_first hc hop hzero hexp hsaved] at hr
    obtain rfl := Option.some.inj hr
    refine ⟨iff_of_true rfl fun _ _ => rfl, rfl, ?_⟩
    intro i hi
    exact (Buf.copy_zero hi).trans (hbuf i hi)

/-- Some identify is the first one once there was one. -/
theorem firstIdentify_snoc_isSome (events : List IdentifyEvent) (id : ℕ) (bytes : Buf) :
    ∃ first, firstIdentify (events ++ [.identify id bytes]) = some first := by
  rw [firstIdentify_append]
  cases firstIdentify events with
  | none => exact ⟨bytes, rfl⟩
  | some first => exact ⟨first, rfl⟩

/-- What is stored is found at `bio->data_buf` when nothing was moved. -/
theorem stored_update {dataBuf : ℕ → Buf} {stored : ℕ → Option Buf}
    (hstored : ∀ id bytes, stored id = some bytes → ∀ i < 4096, dataBuf id i = bytes i)
    (id : ℕ) (bytes : Buf) :
    ∀ id' bytes', Function.update stored id (some bytes) id' = some bytes' → ∀ i < 4096,
      Function.update dataBuf id ((dataBuf id).copy 0 bytes 4096) id' i = bytes' i := by
  intro id' bytes' h i hi
  by_cases hid : id' = id
  · subst hid
    rw [Function.update_self] at h ⊢
    obtain rfl := Option.some.inj h
    exact Buf.copy_zero hi
  · rw [Function.update_of_ne hid] at h ⊢
    exact hstored id' bytes' h i hi

/-- The step of a job whose bios are not moved. -/
theorem IdentifyState.Inv.step (hc : params.compare = true)
    (hplace : ∀ id < params.iodepth, dataOffset (draws id) = 0) (hinv : s.Inv events)
    {event : IdentifyEvent} (h : IdentifyStep params draws s event t) :
    t.Inv (events ++ [event]) := by
  cases h with
  | @issue id iover buf hres hid hfree hbelow =>
    refine ⟨?_, ?_⟩
    · intro id' bytes hstored i hi
      have hne : id' ≠ id := by
        rintro rfl
        rw [hfree] at hstored
        exact absurd hstored (by simp)
      change Function.update s.dataBuf id buf id' i = bytes i
      rw [Function.update_of_ne hne]
      exact hinv.stored id' bytes hstored i hi
    · rw [firstIdentify_of_none rfl]
      exact hinv.saved
  | complete hres hid hfree hop hbuf hr =>
    refine ⟨hinv.stored, ?_⟩
    obtain ⟨hsame, hvalid⟩ := submitTail_identify hr hop
    rw [firstIdentify_of_none rfl]
    exact hinv.saved.congr hsame hvalid
  | store bytes hres hid hfree =>
    refine ⟨?_, ?_⟩
    · change ∀ id' bytes', _ → ∀ i < 4096, _
      rw [hplace _ hid]
      exact stored_update hinv.stored _ bytes
    · rw [firstIdentify_of_none rfl]
      exact hinv.saved
  | @identify id bytes bio r hres hid hstored hop hzero hexp hbuf hr =>
    refine ⟨?_, ?_⟩
    · intro id' bytes' h
      by_cases hne : id' = id
      · subst hne
        exact absurd h (by simp)
      · refine hinv.stored id' bytes' ?_
        change Function.update s.stored id none id' = some bytes' at h
        rwa [Function.update_of_ne hne] at h
    · obtain ⟨first, hfirst⟩ := firstIdentify_snoc_isSome events id bytes
      rw [hfirst]
      have hdata : ∀ i < 4096, bio.dataBuf i = bytes i := by
        rw [hbuf]
        exact hinv.stored id bytes hstored
      exact (hinv.identify hc hop hzero hexp hdata hr hfirst).2

/-- The run of a job whose bios are not moved. -/
theorem IdentifyState.Inv.run (hc : params.compare = true)
    (hplace : ∀ id < params.iodepth, dataOffset (draws id) = 0) {later : List IdentifyEvent}
    (h : Run (IdentifyStep params draws) s later t) (hinv : s.Inv events) :
    t.Inv (events ++ later) := by
  induction h generalizing events with
  | nil s =>
    rw [List.append_nil]
    exact hinv
  | @cons s u t event later hstep hrest ih =>
    have hnext := ih (hinv.step hc hplace hstep)
    rwa [List.append_assoc] at hnext

/-- **A job whose bios are not moved** compares exactly. -/
theorem identifyExact_of_placed (hc : params.compare = true)
    (hplace : ∀ id < params.iodepth, dataOffset (draws id) = 0) (hinv : s.Inv []) :
    IdentifyExact params draws s := by
  intro events u t id bytes first hrun hstep hfirst
  have hu : u.Inv events := hinv.run hc hplace hrun
  cases hstep with
  | identify hres hid hstored hop hzero hexp hbuf hr =>
    have hdata : ∀ i < 4096, _ = bytes i := hu.stored id bytes hstored
    rw [← hbuf] at hdata
    exact (hu.identify hc hop hzero hexp hdata hr hfirst).1

end Placed

/-! ## A bio that is moved -/

section Moved

variable {params : JobParams} {draws : ℕ → ℕ} {s : IdentifyState} {id : ℕ}

/-- Bytes of which only the last one is not zero. -/
def lastByteSet : Buf := fun i => if i = 4095 then 1 else 0

/-- What is at `bio->data_buf` when the bytes are stored behind it: the last ones are missing. -/
theorem copy_lastByteSet (b : Buf) {k : ℕ} (hk : 0 < k) {i : ℕ} (hi : i < 4096) :
    ((b.copy k (fun _ => 0) 4096).copy k lastByteSet 4096) i
      = (b.copy k (fun _ => 0) 4096) i := by
  by_cases hlow : i < k
  · exact Buf.copy_out (.inl hlow)
  · obtain ⟨j, rfl⟩ := Nat.exists_eq_add_of_le (Nat.not_lt.mp hlow)
    have hj : j < 4096 := by omega
    rw [Buf.copy_in hj, Buf.copy_in hj, lastByteSet, if_neg (by omega)]

/-- The first identify of a job, in a bio that is free. -/
theorem run_first_identify (draws : ℕ → ℕ) (hc : params.compare = true) (hres : s.result = 0)
    (hvalid : s.view.identifyValid = false) (hid : id < params.iodepth)
    (hfree : s.stored id = none) (bytes : Buf) :
    ∃ t, Run (IdentifyStep params draws) s [.store id bytes, .identify id bytes] t
      ∧ t.result = 0 ∧ t.view.identifyValid = true ∧ t.stored id = none
      ∧ t.dataBuf id = (s.dataBuf id).copy (dataOffset (draws id)) bytes 4096
      ∧ ∀ i < 4096, t.view.identify i = t.dataBuf id i := by
  let buf := (s.dataBuf id).copy (dataOffset (draws id)) bytes 4096
  have hbuf : Function.update s.dataBuf id buf id = buf := Function.update_self ..
  have hsubmit : ioverSubmit s.iover params s.view (.plain .identify 0 0 buf) = _ :=
    ioverSubmit_identify_first hc rfl rfl rfl hvalid
  refine ⟨_, .cons (.store bytes hres hid hfree) (.single (.identify hres hid
    (Function.update_self ..) rfl rfl rfl hbuf.symm hsubmit)), rfl, rfl, ?_, hbuf, ?_⟩
  · exact Function.update_self ..
  · intro i hi
    exact (Buf.copy_zero hi).trans (congrFun hbuf.symm i)

/-- **A bio that is moved** accepts bytes that differ from those of the first identify. -/
theorem not_identifyExact_of_moved (hc : params.compare = true) (hres : s.result = 0)
    (hvalid : s.view.identifyValid = false) (hid : id < params.iodepth)
    (hfree : s.stored id = none) (hmoved : dataOffset (draws id) ≠ 0) :
    ¬ IdentifyExact params draws s := by
  intro hexact
  -- the bio is used twice, and only the last of the bytes differs
  obtain ⟨t, hrun, htres, htvalid, htfree, htbuf, htsaved⟩ :=
    run_first_identify draws hc hres hvalid hid hfree fun _ => 0
  let buf := (t.dataBuf id).copy (dataOffset (draws id)) lastByteSet 4096
  have hbuf : Function.update t.dataBuf id buf id = buf := Function.update_self ..
  have hsame : memcmp t.view.identify buf 4096 = 0 := by
    rw [memcmp_eq_zero_iff]
    intro i hi
    have hbytes := copy_lastByteSet (s.dataBuf id) (Nat.pos_of_ne_zero hmoved) hi
    rw [← htbuf] at hbytes
    exact (htsaved i hi).trans hbytes.symm
  have hsubmit : ioverSubmit t.iover params t.view (.plain .identify 0 0 buf) = _ :=
    ioverSubmit_identify_again hc rfl rfl rfl htvalid
  have hstore := hrun.snoc (.store lastByteSet htres hid htfree)
  have hiff := hexact _ _ _ id lastByteSet (fun _ => 0) hstore
    (.identify htres hid (Function.update_self ..) rfl rfl rfl hbuf.symm hsubmit) rfl
  have hlast := hiff.mp hsame 4095 (by omega)
  exact absurd hlast (by simp [lastByteSet])

end Moved

/-! ## When the comparison is exact -/

/-- **The comparison is exact exactly when no bio of the job is moved.** -/
theorem identifyExact_iff (ns : NamespaceInfo) (iosizeMax : BitVec 32) (params : JobParams)
    (hc : params.compare = true) (draws : ℕ → ℕ) (memory : ℕ → Buf) (iover : Iover)
    (identify : Buf) :
    IdentifyExact params draws (.start ns iosizeMax draws memory iover identify)
      ↔ ∀ id < params.iodepth, dataOffset (draws id) = 0 := by
  refine ⟨?_, ?_⟩
  · intro hexact id hid
    by_contra hmoved
    exact not_identifyExact_of_moved hc rfl rfl hid rfl hmoved hexact
  · intro hplace
    exact identifyExact_of_placed hc hplace (.start ns iosizeMax draws memory iover identify)

/-- Two bios whose draws are multiples of 4. -/
theorem identifyExact_plain :
    IdentifyExact .plain (fun id => 4 * id)
      (.start (.plain 8 0 eight_lbas_lt no_entry_lt) 4096 (fun id => 4 * id) (fun _ _ => 0xaa)
        (.plain .zero) fun _ => 0) := by
  apply (identifyExact_iff (.plain 8 0 eight_lbas_lt no_entry_lt) 4096 .plain rfl
    (fun id => 4 * id) (fun _ _ => 0xaa) (.plain .zero) fun _ => 0).mpr
  decide

/-- A bio that is moved by 4 bytes: its last 4 bytes are not compared. -/
theorem not_identifyExact_moved :
    ¬ IdentifyExact .plain (fun _ => 1)
      (.start (.plain 8 0 eight_lbas_lt no_entry_lt) 4096 (fun _ => 1) (fun _ _ => 0xaa)
        (.plain .zero) fun _ => 0) := by
  have hmoved : dataOffset 1 ≠ 0 := by decide
  have hid : 0 < JobParams.plain.iodepth := Nat.two_pos
  exact not_identifyExact_of_moved rfl rfl rfl hid rfl hmoved

end ChamberSpo

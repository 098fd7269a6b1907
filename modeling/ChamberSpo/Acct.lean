import ChamberSpo.Types
import Mathlib.Algebra.BigOperators.Group.Finset.Piecewise
import Mathlib.Data.BitVec
import Mathlib.Order.Bounds.Basic

/-!
# Accounts of latencies

`bio_end` counts the commands of a job that have ended, per opcode: how many, how long each took,
and in which of the ranges of `latency_bucket_marks` that is. `summarize_lat_accts` adds the
accounts of the jobs.

* `latencyAcctIdx` — the bucket of a latency. `inBucket_iff`: it is the one that the marks give.
* `bioEndAcct`, `summarizeLatAccts` — a command ends; a report begins.
* `Latencies` — the commands of an opcode in a run, as their latencies.
-/

namespace ChamberSpo

/-! ## Time -/

/-- `struct timespec` -/
structure Timespec where
  tvSec : BitVec 64
  tvNsec : BitVec 64
  deriving DecidableEq

/-- `NSEC_PER_SEC` -/
def nsecPerSec : BitVec 64 := 1000000000

/-- `timespec_sub` -/
def timespecSub (ts1 ts2 : Timespec) : BitVec 64 :=
  (ts1.tvSec - ts2.tvSec) * nsecPerSec + (ts1.tvNsec - ts2.tvNsec)

/-! ## Accounts -/

/-- `struct latency_acct_bucket` -/
structure LatencyAcctBucket where
  count : BitVec 64
  sum : BitVec 64
  deriving DecidableEq

/-- `struct latency_acct` -/
structure LatencyAcct where
  buckets : ℕ → LatencyAcctBucket
  sum : BitVec 64
  max : BitVec 64
  min : BitVec 64

/-- `struct opacct` -/
structure Opacct where
  ops : BitVec 64
  bytes : BitVec 64
  latency : LatencyAcct

/-- `struct ioacct` -/
structure Ioacct where
  ops : BioOpcode → Opacct
  sum : Opacct

/-- An account that `calloc` has cleared. -/
def Opacct.zero : Opacct :=
  { ops := 0, bytes := 0, latency := { buckets := fun _ => ⟨0, 0⟩, sum := 0, max := 0, min := 0 } }

/-- `opacct` with another `latency.min` -/
def Opacct.withMin (opacct : Opacct) (min : BitVec 64) : Opacct :=
  { opacct with latency := { opacct.latency with min := min } }

/-- The account of a job after `iogen_job_init`. -/
def iogenJobInitAcct : Ioacct where
  ops opcode :=
    if opcode = .read ∨ opcode = .write then Opacct.zero.withMin (BitVec.allOnes 64)
    else Opacct.zero
  sum := Opacct.zero

/-- `latency_bucket_marks` -/
def latencyBucketMarks : List ℕ :=
  [1000, 2000, 3000, 4000, 5000, 6000, 7000, 8000, 9000,
   10000, 20000, 30000, 40000, 50000, 60000, 70000, 80000, 90000,
   100000, 200000, 300000, 400000, 500000, 600000, 700000, 800000, 900000,
   1000000, 2000000, 3000000, 4000000, 5000000, 6000000, 7000000, 8000000, 9000000,
   10000000, 20000000, 30000000, 40000000, 50000000, 60000000, 70000000, 80000000, 90000000,
   100000000, 200000000, 300000000, 400000000, 500000000, 600000000, 700000000, 800000000,
   900000000,
   0xFFFFFFFF]

/-- `LATENCY_ACCT_NUM_BUCKETS` -/
def latencyAcctNumBuckets : ℕ := latencyBucketMarks.length

/-- `idx` of `latency_acct_add` -/
def latencyAcctIdx (latNs : ℕ) : ℕ :=
  if latNs < 9000 then latNs / 1000
  else if latNs < 90000 then 9 + latNs / 10000
  else if latNs < 900000 then 18 + latNs / 100000
  else if latNs < 9000000 then 27 + latNs / 1000000
  else if latNs < 90000000 then 36 + latNs / 10000000
  else if latNs < 900000000 then 45 + latNs / 100000000
  else 54

/-- `latency_acct_add` -/
def latencyAcctAdd (buckets : ℕ → LatencyAcctBucket) (latNs : BitVec 64) :
    ℕ → LatencyAcctBucket :=
  let idx := latencyAcctIdx latNs.toNat
  Function.update buckets idx
    { count := (buckets idx).count + 1, sum := (buckets idx).sum + latNs }

/-- What `bio_end` does to the account of the opcode. -/
def Opacct.bioEnd (opacct : Opacct) (latNs iosize : BitVec 64) : Opacct where
  ops := opacct.ops + 1
  bytes := opacct.bytes + iosize
  latency :=
    { buckets := latencyAcctAdd opacct.latency.buckets latNs
      sum := opacct.latency.sum + latNs
      max := if opacct.latency.max < latNs then latNs else opacct.latency.max
      min := if latNs < opacct.latency.min then latNs else opacct.latency.min }

/-- A bio that ends. -/
structure Completion where
  opcode : BioOpcode
  iosize : BitVec 64
  beginTs : Timespec
  endTs : Timespec

/-- `lat_ns` -/
def Completion.latNs (bio : Completion) : BitVec 64 := timespecSub bio.endTs bio.beginTs

/-- The accounts in `bio_end`. -/
def bioEndAcct (acct : Ioacct) (bio : Completion) : Ioacct :=
  if bio.opcode.num ≤ BioOpcode.identify.num then
    { ops := Function.update acct.ops bio.opcode
        ((acct.ops bio.opcode).bioEnd bio.latNs bio.iosize)
      sum := { acct.sum with
        latency := { acct.sum.latency with sum := acct.sum.latency.sum + bio.latNs } } }
  else acct

/-- The account of a job whose bios have ended one after the other. -/
def jobAcct (bios : List Completion) : Ioacct := bios.foldl bioEndAcct iogenJobInitAcct

/-- What `summarize_lat_accts` clears in `cur_accts[0]`. -/
def Opacct.clearLat (opacct : Opacct) : Opacct :=
  { opacct with latency := { opacct.latency with
      buckets := fun _ => ⟨0, 0⟩
      min := BitVec.allOnes 64
      max := 0 } }

/-- What `summarize_lat_accts` adds of a job. -/
def Opacct.addLat (cur opacct : Opacct) : Opacct :=
  { cur with latency := { cur.latency with
      min := if opacct.latency.min < cur.latency.min then opacct.latency.min else cur.latency.min
      max := if cur.latency.max < opacct.latency.max then opacct.latency.max else cur.latency.max
      buckets := fun i =>
        { count := (cur.latency.buckets i).count + (opacct.latency.buckets i).count
          sum := (cur.latency.buckets i).sum + (opacct.latency.buckets i).sum } } }

/-- `summarize_lat_accts`, with the accounts of the jobs; `cur` is `cur_accts[0]`. -/
def summarizeLatAccts (cur : Ioacct) (accts : List Ioacct) : Ioacct :=
  accts.foldl
    (fun cur acct => { cur with ops := fun opcode => (cur.ops opcode).addLat (acct.ops opcode) })
    { cur with ops := fun opcode => (cur.ops opcode).clearLat }

/-! ## The bucket of a latency -/

/-- The range of a bucket: from the mark before it to its own; the first begins at 0, the last has
no end. -/
def InBucket (i latNs : ℕ) : Prop :=
  (i = 0 ∨ latencyBucketMarks.getD (i - 1) 0 ≤ latNs) ∧
    (i + 1 = latencyAcctNumBuckets ∨ latNs < latencyBucketMarks.getD i 0)

instance (i latNs : ℕ) : Decidable (InBucket i latNs) :=
  inferInstanceAs (Decidable (_ ∧ _))

section Buckets

variable {i j k latNs : ℕ}

/-- The marks are nine for each decade. -/
theorem mark_eq : ∀ k < 6, ∀ d < 9,
    latencyBucketMarks.getD (9 * k + d) 0 = (d + 1) * (1000 * 10 ^ k) := by
  decide

/-- A decade of the cascade. Below the decade's own first mark, the mark before is the last of the
decade before. -/
theorem inBucket_decade (hk : k < 6) (hlt : latNs < 9 * (1000 * 10 ^ k))
    (hge : k = 0 ∨ 900 * 10 ^ k ≤ latNs) : InBucket (9 * k + latNs / (1000 * 10 ^ k)) latNs := by
  have hunit : 0 < 1000 * 10 ^ k := by positivity
  have hdiv : latNs / (1000 * 10 ^ k) < 9 := Nat.div_lt_of_lt_mul (by rwa [Nat.mul_comm])
  have hlower := Nat.div_mul_le_self latNs (1000 * 10 ^ k)
  have hupper := Nat.lt_mul_div_succ latNs hunit
  rw [Nat.mul_comm] at hupper
  refine ⟨?_, .inr ?_⟩
  · rcases Nat.eq_zero_or_pos (latNs / (1000 * 10 ^ k)) with hzero | hpos
    · rw [hzero, Nat.add_zero]
      rcases Nat.eq_zero_or_pos k with rfl | hdecade
      · exact .inl rfl
      · have hbefore : 900 * 10 ^ k ≤ latNs := hge.resolve_left (Nat.ne_of_gt hdecade)
        obtain ⟨l, rfl⟩ := Nat.exists_eq_succ_of_ne_zero (Nat.ne_of_gt hdecade)
        have hmark := mark_eq l (Nat.lt_of_succ_lt hk) 8 (by decide)
        refine .inr ?_
        rw [show 9 * (l + 1) - 1 = 9 * l + 8 by omega, hmark]
        rw [pow_succ] at hbefore
        omega
    · have hmark := mark_eq k hk (latNs / (1000 * 10 ^ k) - 1) (by omega)
      refine .inr ?_
      rw [Nat.add_sub_assoc hpos, hmark, Nat.sub_add_cancel hpos]
      exact hlower
  · rw [mark_eq k hk _ hdiv]
    exact hupper

/-- **The cascade agrees with the marks.** -/
theorem inBucket_latencyAcctIdx (latNs : ℕ) : InBucket (latencyAcctIdx latNs) latNs := by
  simp only [latencyAcctIdx]
  split
  · have hlow : InBucket (9 * 0 + latNs / (1000 * 10 ^ 0)) latNs :=
      inBucket_decade (by decide) (by omega) (.inl rfl)
    simpa using hlow
  split
  · exact inBucket_decade (k := 1) (by decide) (by omega) (.inr (by omega))
  split
  · exact inBucket_decade (k := 2) (by decide) (by omega) (.inr (by omega))
  split
  · exact inBucket_decade (k := 3) (by decide) (by omega) (.inr (by omega))
  split
  · exact inBucket_decade (k := 4) (by decide) (by omega) (.inr (by omega))
  split
  · exact inBucket_decade (k := 5) (by decide) (by omega) (.inr (by omega))
  · refine ⟨.inr ?_, .inl rfl⟩
    rename_i hge
    exact Nat.le_of_not_lt hge

theorem latencyAcctIdx_lt (latNs : ℕ) : latencyAcctIdx latNs < latencyAcctNumBuckets := by
  change latencyAcctIdx latNs < 55
  simp only [latencyAcctIdx]
  repeat' split
  all_goals omega

theorem marks_lt : ∀ i < latencyAcctNumBuckets - 1,
    latencyBucketMarks.getD i 0 < latencyBucketMarks.getD (i + 1) 0 := by
  decide

theorem marks_le (hij : i ≤ j) (hj : j < latencyAcctNumBuckets) :
    latencyBucketMarks.getD i 0 ≤ latencyBucketMarks.getD j 0 := by
  induction j, hij using Nat.le_induction with
  | base => exact le_rfl
  | succ j _ ih =>
    have hstep := marks_lt j (Nat.lt_sub_of_add_lt hj)
    exact le_trans (ih (Nat.lt_of_succ_lt hj)) (Nat.le_of_lt hstep)

/-- The ranges do not overlap. -/
theorem InBucket.le (hi : InBucket i latNs) (hj : InBucket j latNs)
    (hlt : i < latencyAcctNumBuckets) : i ≤ j := by
  by_contra hji
  have hji : j < i := Nat.lt_of_not_le hji
  have hlower : latencyBucketMarks.getD (i - 1) 0 ≤ latNs := hi.1.resolve_left (by omega)
  have hupper : latNs < latencyBucketMarks.getD j 0 := hj.2.resolve_left (by omega)
  have hmarks := marks_le (Nat.le_sub_one_of_lt hji) (lt_of_le_of_lt (Nat.sub_le i 1) hlt)
  omega

/-- **The bucket of a latency** is the only one that the marks give. -/
theorem inBucket_iff (hi : i < latencyAcctNumBuckets) :
    InBucket i latNs ↔ latencyAcctIdx latNs = i := by
  refine ⟨?_, ?_⟩
  · intro h
    have hidx := inBucket_latencyAcctIdx latNs
    exact le_antisymm (hidx.le h (latencyAcctIdx_lt latNs)) (h.le hidx hi)
  · rintro rfl
    exact inBucket_latencyAcctIdx latNs

end Buckets

/-! ## The latencies of a run -/

/-- The numbers of nanoseconds. -/
def nanoseconds (lats : List (BitVec 64)) : Set ℕ := {n | ∃ latNs ∈ lats, latNs.toNat = n}

/-- What an account says of `lats`, with what its minimum began with. -/
structure Opacct.Counts (opacct : Opacct) (min : BitVec 64) (lats : List (BitVec 64)) : Prop where
  ops : opacct.ops = BitVec.ofNat 64 lats.length
  sum : opacct.latency.sum = lats.sum
  bucket : ∀ i, opacct.latency.buckets i =
    { count := BitVec.ofNat 64 (lats.countP fun latNs => latencyAcctIdx latNs.toNat = i)
      sum := (lats.filter fun latNs => latencyAcctIdx latNs.toNat = i).sum }
  least : IsLeast (insert min.toNat (nanoseconds lats)) opacct.latency.min.toNat
  greatest : IsGreatest (insert 0 (nanoseconds lats)) opacct.latency.max.toNat

section Counts

variable {opacct : Opacct} {min latNs iosize : BitVec 64} {lats : List (BitVec 64)}

theorem nanoseconds_nil : nanoseconds [] = ∅ := by
  simp [nanoseconds]

theorem nanoseconds_append (lats lats' : List (BitVec 64)) :
    nanoseconds (lats ++ lats') = nanoseconds lats ∪ nanoseconds lats' := by
  ext n
  simp [nanoseconds, or_and_right, exists_or]

theorem nanoseconds_snoc (lats : List (BitVec 64)) (latNs : BitVec 64) :
    nanoseconds (lats ++ [latNs]) = insert latNs.toNat (nanoseconds lats) := by
  have hlast : nanoseconds [latNs] = {latNs.toNat} := by
    ext n
    simp [nanoseconds, eq_comm]
  rw [nanoseconds_append, hlast, Set.union_singleton]

/-- The comparison that keeps the smaller of two. -/
theorem toNat_ite_lt (a b : BitVec 64) :
    (if a < b then a else b).toNat = Min.min a.toNat b.toNat := by
  split
  · rename_i h
    exact (Nat.min_eq_left (Nat.le_of_lt (BitVec.lt_def.mp h))).symm
  · rename_i h
    exact (Nat.min_eq_right (Nat.le_of_not_lt fun h' => h (BitVec.lt_def.mpr h'))).symm

theorem toNat_ite_gt (a b : BitVec 64) :
    (if a < b then b else a).toNat = Max.max a.toNat b.toNat := by
  split
  · rename_i h
    exact (Nat.max_eq_right (Nat.le_of_lt (BitVec.lt_def.mp h))).symm
  · rename_i h
    exact (Nat.max_eq_left (Nat.le_of_not_lt fun h' => h (BitVec.lt_def.mpr h'))).symm

theorem Opacct.zero_counts (min : BitVec 64) : (Opacct.zero.withMin min).Counts min [] where
  ops := rfl
  sum := rfl
  bucket _ := rfl
  least := by
    rw [nanoseconds_nil, insert_empty_eq]
    exact isLeast_singleton
  greatest := by
    rw [nanoseconds_nil, insert_empty_eq]
    exact isGreatest_singleton

/-- **A command ends.** -/
theorem Opacct.Counts.bioEnd (h : opacct.Counts min lats) (latNs iosize : BitVec 64) :
    (opacct.bioEnd latNs iosize).Counts min (lats ++ [latNs]) where
  ops := by
    change opacct.ops + 1 = _
    rw [h.ops, List.length_append, List.length_singleton, BitVec.ofNat_add]
    rfl
  sum := by
    change opacct.latency.sum + latNs = _
    rw [h.sum, List.sum_append, List.sum_singleton]
  bucket i := by
    change latencyAcctAdd opacct.latency.buckets latNs i = _
    rw [List.countP_append, List.filter_append, List.countP_singleton, List.sum_append]
    rcases eq_or_ne (latencyAcctIdx latNs.toNat) i with rfl | hne
    · rw [latencyAcctAdd, Function.update_self, h.bucket]
      simp [BitVec.ofNat_add]
    · rw [latencyAcctAdd, Function.update_of_ne hne.symm, h.bucket]
      simp [hne]
  least := by
    change IsLeast _ (if latNs < opacct.latency.min then latNs else opacct.latency.min).toNat
    rw [toNat_ite_lt, nanoseconds_snoc, Set.insert_comm]
    exact h.least.insert latNs.toNat
  greatest := by
    change IsGreatest _ (if opacct.latency.max < latNs then latNs else opacct.latency.max).toNat
    rw [toNat_ite_gt, nanoseconds_snoc, Set.insert_comm, Nat.max_comm]
    exact h.greatest.insert latNs.toNat

end Counts

/-! ## Sums over buckets and extrema of a set -/

/-- What is put in `n` buckets is in all of them together. -/
theorem sum_sum_filter {α M : Type*} [AddCommMonoid M] {idx : α → ℕ} {n : ℕ} (f : α → M)
    {l : List α} (hidx : ∀ x, idx x < n) :
    ∑ i ∈ Finset.range n, ((l.filter fun x => idx x = i).map f).sum = (l.map f).sum := by
  induction l with
  | nil => simp
  | cons x l ih =>
    have hsplit : ∀ i, (((x :: l).filter fun x => idx x = i).map f).sum
        = (if idx x = i then f x else 0) + ((l.filter fun x => idx x = i).map f).sum := by
      intro i
      by_cases hi : idx x = i
      · simp [hi]
      · simp [hi]
    simp only [hsplit]
    rw [Finset.sum_add_distrib, ih, Finset.sum_ite_eq, if_pos (Finset.mem_range.mpr (hidx x)),
      List.map_cons, List.sum_cons]

/-- An element more does not change the least one, unless it is below all others. -/
theorem isLeast_iff_of_insert {α : Type*} [PartialOrder α] {s : Set α} {a m : α}
    (h : IsLeast (insert a s) m) : IsLeast s m ↔ ∃ x ∈ s, x ≤ a := by
  refine ⟨?_, ?_⟩
  · intro hleast
    exact ⟨m, hleast.1, h.2 (Set.mem_insert a s)⟩
  · rintro ⟨x, hx, hxa⟩
    have hmx : m ≤ x := h.2 (Set.mem_insert_of_mem a hx)
    refine ⟨?_, fun y hy => h.2 (Set.mem_insert_of_mem a hy)⟩
    rcases h.1 with rfl | hm
    · rwa [← le_antisymm hxa hmx]
    · exact hm

theorem isGreatest_of_insert {α : Type*} [PartialOrder α] {s : Set α} {a m x : α}
    (h : IsGreatest (insert a s) m) (hx : x ∈ s) (hax : a ≤ x) : IsGreatest s m :=
  (isLeast_iff_of_insert (α := αᵒᵈ) h).mpr ⟨x, hx, hax⟩

/-! ## Runs -/

/-- The latencies of the commands of an opcode, first to last. -/
def latencies (opcode : BioOpcode) (bios : List Completion) : List (BitVec 64) :=
  (bios.filter fun bio => bio.opcode = opcode).map Completion.latNs

/-- What `latency.min` of an opcode begins with. -/
def firstMin (opcode : BioOpcode) : BitVec 64 := (iogenJobInitAcct.ops opcode).latency.min

section Runs

variable {opcode : BioOpcode} {acct cur : Ioacct} {bio : Completion} {bios : List Completion}
  {jobs : List (List Completion)} {i : ℕ}

theorem firstMin_eq (opcode : BioOpcode) :
    firstMin opcode = if opcode = .read ∨ opcode = .write then BitVec.allOnes 64 else 0 := by
  simp only [firstMin, iogenJobInitAcct]
  split <;> rfl

theorem le_allOnes (latNs : BitVec 64) : latNs ≤ BitVec.allOnes 64 := by
  rw [BitVec.le_def, BitVec.toNat_allOnes]
  exact Nat.le_sub_one_of_lt latNs.isLt

theorem iogenJobInitAcct_ops (opcode : BioOpcode) :
    iogenJobInitAcct.ops opcode = Opacct.zero.withMin (firstMin opcode) := by
  rw [firstMin_eq]
  simp only [iogenJobInitAcct]
  split <;> rfl

/-- The accounts of the other opcodes stay. -/
theorem bioEndAcct_ops (hopcode : opcode.num ≤ BioOpcode.identify.num) :
    (bioEndAcct acct bio).ops opcode
      = if bio.opcode = opcode then (acct.ops opcode).bioEnd bio.latNs bio.iosize
        else acct.ops opcode := by
  by_cases heq : bio.opcode = opcode
  · subst heq
    rw [bioEndAcct, if_pos hopcode, if_pos rfl]
    exact Function.update_self _ _ _
  · rw [bioEndAcct, if_neg heq]
    split
    · exact Function.update_of_ne (Ne.symm heq) _ _
    · rfl

theorem jobAcct_snoc (bios : List Completion) (bio : Completion) :
    jobAcct (bios ++ [bio]) = bioEndAcct (jobAcct bios) bio := by
  rw [jobAcct, List.foldl_append]
  rfl

theorem latencies_snoc (opcode : BioOpcode) (bios : List Completion) (bio : Completion) :
    latencies opcode (bios ++ [bio])
      = if bio.opcode = opcode then latencies opcode bios ++ [bio.latNs]
        else latencies opcode bios := by
  rw [latencies, List.filter_append, List.map_append]
  split
  · rename_i heq
    simp [latencies, heq]
  · rename_i hne
    simp [latencies, hne]

/-- **The account of an opcode** counts its commands, in every run. -/
theorem jobAcct_counts (hopcode : opcode.num ≤ BioOpcode.identify.num) (bios : List Completion) :
    ((jobAcct bios).ops opcode).Counts (firstMin opcode) (latencies opcode bios) := by
  induction bios using List.reverseRecOn with
  | nil =>
    change (iogenJobInitAcct.ops opcode).Counts _ []
    rw [iogenJobInitAcct_ops]
    exact Opacct.zero_counts _
  | append_singleton bios bio ih =>
    rw [jobAcct_snoc, bioEndAcct_ops hopcode, latencies_snoc]
    split
    · exact ih.bioEnd bio.latNs bio.iosize
    · exact ih

/-- `summarize_lat_accts` does the same for each opcode. -/
theorem summarizeLatAccts_ops (cur : Ioacct) (accts : List Ioacct) (opcode : BioOpcode) :
    (summarizeLatAccts cur accts).ops opcode
      = (accts.map fun acct => acct.ops opcode).foldl Opacct.addLat (cur.ops opcode).clearLat := by
  rw [summarizeLatAccts, List.foldl_map]
  exact (List.foldl_hom (fun cur : Ioacct => cur.ops opcode) fun cur acct => rfl).symm

/-- The sums of the jobs, in the bucket `i`. -/
def summedBucket (opcode : BioOpcode) (jobs : List (List Completion)) (i : ℕ) :
    LatencyAcctBucket where
  count := (jobs.map fun bios => (((jobAcct bios).ops opcode).latency.buckets i).count).sum
  sum := (jobs.map fun bios => (((jobAcct bios).ops opcode).latency.buckets i).sum).sum

/-- The values of `latency.min` that a report looks at: each job's first one and its latencies. -/
def reportedMins (opcode : BioOpcode) (jobs : List (List Completion)) : Set ℕ :=
  {n | ∃ bios ∈ jobs, n ∈ insert (firstMin opcode).toNat (nanoseconds (latencies opcode bios))}

theorem reportedMins_snoc (opcode : BioOpcode) (jobs : List (List Completion))
    (bios : List Completion) :
    reportedMins opcode (jobs ++ [bios]) = reportedMins opcode jobs ∪
      insert (firstMin opcode).toNat (nanoseconds (latencies opcode bios)) := by
  ext n
  change (∃ bios' ∈ jobs ++ [bios], _) ↔ (∃ bios' ∈ jobs, _) ∨ _
  simp only [List.mem_append, List.mem_singleton, or_and_right, exists_or, exists_eq_left]

/-- With a job there is its first one, and the latencies of all. -/
theorem reportedMins_eq (opcode : BioOpcode) (hjobs : jobs ≠ []) :
    reportedMins opcode jobs
      = insert (firstMin opcode).toNat (nanoseconds (jobs.flatMap (latencies opcode))) := by
  obtain ⟨bios, hbios⟩ := List.exists_mem_of_ne_nil jobs hjobs
  ext n
  simp only [reportedMins, nanoseconds, Set.mem_insert_iff, List.mem_flatMap]
  refine ⟨?_, ?_⟩
  · rintro ⟨bios, hmem, hfirst | ⟨latNs, hlat, hn⟩⟩
    · exact .inl hfirst
    · exact .inr ⟨latNs, ⟨bios, hmem, hlat⟩, hn⟩
  · rintro (hfirst | ⟨latNs, ⟨bios, hmem, hlat⟩, hn⟩)
    · exact ⟨bios, hbios, .inl hfirst⟩
    · exact ⟨bios, hmem, .inr ⟨latNs, hlat, hn⟩⟩

/-- **A report** adds the buckets, and looks for the extrema among those of the jobs. -/
theorem summarizeLatAccts_spec (hopcode : opcode.num ≤ BioOpcode.identify.num) (cur : Ioacct)
    (jobs : List (List Completion)) :
    (∀ i, ((summarizeLatAccts cur (jobs.map jobAcct)).ops opcode).latency.buckets i
        = summedBucket opcode jobs i) ∧
      IsLeast (insert (BitVec.allOnes 64).toNat (reportedMins opcode jobs))
        ((summarizeLatAccts cur (jobs.map jobAcct)).ops opcode).latency.min.toNat ∧
      IsGreatest (insert 0 (nanoseconds (jobs.flatMap (latencies opcode))))
        ((summarizeLatAccts cur (jobs.map jobAcct)).ops opcode).latency.max.toNat := by
  rw [summarizeLatAccts_ops]
  induction jobs using List.reverseRecOn with
  | nil =>
    have hnone : reportedMins opcode [] = ∅ := by simp [reportedMins]
    refine ⟨fun i => rfl, ?_, ?_⟩
    · rw [hnone, insert_empty_eq]
      exact isLeast_singleton
    · rw [List.flatMap_nil, nanoseconds_nil, insert_empty_eq]
      exact isGreatest_singleton
  | append_singleton jobs bios ih =>
    obtain ⟨hbuckets, hleast, hgreatest⟩ := ih
    have hjob := jobAcct_counts hopcode bios
    simp only [List.map_append, List.map_cons, List.map_nil, List.foldl_append, List.foldl_cons,
      List.foldl_nil, List.flatMap_append, List.flatMap_cons, List.flatMap_nil, List.append_nil]
    generalize ((jobs.map jobAcct).map fun acct => acct.ops opcode).foldl Opacct.addLat
      (cur.ops opcode).clearLat = report at hbuckets hleast hgreatest ⊢
    refine ⟨?_, ?_, ?_⟩
    · intro i
      simp [Opacct.addLat, hbuckets, summedBucket]
    · change IsLeast _ (if ((jobAcct bios).ops opcode).latency.min < report.latency.min then
        ((jobAcct bios).ops opcode).latency.min else report.latency.min).toNat
      rw [toNat_ite_lt, reportedMins_snoc, ← Set.insert_union, Nat.min_comm]
      exact hleast.union hjob.least
    · change IsGreatest _ (if report.latency.max < ((jobAcct bios).ops opcode).latency.max then
        ((jobAcct bios).ops opcode).latency.max else report.latency.max).toNat
      rw [toNat_ite_gt, nanoseconds_append, Set.insert_union_distrib]
      exact hgreatest.union hjob.greatest

end Runs

/-! ## What is reported -/

/-- An account that is right about `lats`. -/
structure Opacct.Exact (opacct : Opacct) (lats : List (BitVec 64)) : Prop where
  ops : ∑ i ∈ Finset.range latencyAcctNumBuckets, (opacct.latency.buckets i).count = opacct.ops
  sum : ∑ i ∈ Finset.range latencyAcctNumBuckets, (opacct.latency.buckets i).sum
    = opacct.latency.sum
  bucket : ∀ i < latencyAcctNumBuckets, opacct.latency.buckets i =
    { count := BitVec.ofNat 64 (lats.countP fun latNs => InBucket i latNs.toNat)
      sum := (lats.filter fun latNs => InBucket i latNs.toNat).sum }
  least : IsLeast (nanoseconds lats) opacct.latency.min.toNat
  greatest : IsGreatest (nanoseconds lats) opacct.latency.max.toNat

/-- The accounts of an opcode are right: that of each job whenever a command of the opcode has
ended, and the report over all jobs. -/
structure LatencyAcctsExact (opcode : BioOpcode) (jobs : List (List Completion)) : Prop where
  job : ∀ bios ∈ jobs, ∀ ended, ended <+: bios → latencies opcode ended ≠ [] →
    ((jobAcct ended).ops opcode).Exact (latencies opcode ended)
  buckets : ∀ cur, ∀ i < latencyAcctNumBuckets,
    ((summarizeLatAccts cur (jobs.map jobAcct)).ops opcode).latency.buckets i
      = summedBucket opcode jobs i
  extrema : ∀ cur, jobs.flatMap (latencies opcode) ≠ [] →
    IsLeast (nanoseconds (jobs.flatMap (latencies opcode)))
      ((summarizeLatAccts cur (jobs.map jobAcct)).ops opcode).latency.min.toNat ∧
    IsGreatest (nanoseconds (jobs.flatMap (latencies opcode)))
      ((summarizeLatAccts cur (jobs.map jobAcct)).ops opcode).latency.max.toNat

section Exact

variable {opacct : Opacct} {min : BitVec 64} {lats : List (BitVec 64)} {opcode : BioOpcode}
  {jobs : List (List Completion)}

theorem Opacct.Counts.sum_count (h : opacct.Counts min lats) :
    ∑ i ∈ Finset.range latencyAcctNumBuckets, (opacct.latency.buckets i).count = opacct.ops := by
  have hone : ∀ l : List (BitVec 64), (l.map fun _ => (1 : BitVec 64)).sum
      = BitVec.ofNat 64 l.length := by
    intro l
    rw [List.map_const', List.sum_replicate, nsmul_one]
    rfl
  have hsum := sum_sum_filter (fun _ => (1 : BitVec 64)) (l := lats)
    fun latNs => latencyAcctIdx_lt latNs.toNat
  simp only [hone, ← List.countP_eq_length_filter] at hsum
  rw [h.ops, ← hsum]
  refine Finset.sum_congr rfl ?_
  intro i _
  rw [h.bucket]

theorem Opacct.Counts.sum_sum (h : opacct.Counts min lats) :
    ∑ i ∈ Finset.range latencyAcctNumBuckets, (opacct.latency.buckets i).sum
      = opacct.latency.sum := by
  have hsum := sum_sum_filter id (l := lats) fun latNs => latencyAcctIdx_lt latNs.toNat
  simp only [List.map_id] at hsum
  rw [h.sum, ← hsum]
  refine Finset.sum_congr rfl ?_
  intro i _
  rw [h.bucket]

/-- All but the minimum is right whatever it began with. -/
theorem Opacct.Counts.exact_iff (h : opacct.Counts min lats) (hlats : lats ≠ []) :
    opacct.Exact lats ↔ ∃ latNs ∈ lats, latNs ≤ min := by
  have hleast : (∃ n ∈ nanoseconds lats, n ≤ min.toNat) ↔ ∃ latNs ∈ lats, latNs ≤ min := by
    simp [nanoseconds, BitVec.le_def]
  rw [← hleast, ← isLeast_iff_of_insert h.least]
  refine ⟨Opacct.Exact.least, ?_⟩
  intro hmin
  refine ⟨h.sum_count, h.sum_sum, ?_, hmin, ?_⟩
  · intro i hi
    have hsame : (fun latNs : BitVec 64 => decide (InBucket i latNs.toNat))
        = fun latNs => decide (latencyAcctIdx latNs.toNat = i) := by
      funext latNs
      exact decide_eq_decide.mpr (inBucket_iff hi)
    rw [h.bucket, hsame]
  · -- no latency is below the first maximum
    obtain ⟨latNs, hlat⟩ := List.exists_mem_of_ne_nil lats hlats
    exact isGreatest_of_insert h.greatest ⟨latNs, hlat, rfl⟩ (Nat.zero_le _)

/-- Each job's first minimum is not below all of its latencies. -/
theorem latencyAcctsExact_of (hopcode : opcode.num ≤ BioOpcode.identify.num)
    (hfirst : ∀ bios ∈ jobs, ∀ ended, ended <+: bios → latencies opcode ended ≠ [] →
      ∃ latNs ∈ latencies opcode ended, latNs ≤ firstMin opcode) :
    LatencyAcctsExact opcode jobs where
  job := by
    intro bios hbios ended hended hne
    rw [(jobAcct_counts hopcode ended).exact_iff hne]
    exact hfirst bios hbios ended hended hne
  buckets := by
    intro cur i _
    exact (summarizeLatAccts_spec hopcode cur jobs).1 i
  extrema := by
    intro cur hne
    obtain ⟨-, hleast, hgreatest⟩ := summarizeLatAccts_spec hopcode cur jobs
    obtain ⟨latNs, hlat⟩ := List.exists_mem_of_ne_nil _ hne
    obtain ⟨bios, hbios, hmem⟩ := List.mem_flatMap.mp hlat
    have hjobs : jobs ≠ [] := List.ne_nil_of_mem hbios
    obtain ⟨low, hlow, hle⟩ := hfirst bios hbios bios List.prefix_rfl (List.ne_nil_of_mem hmem)
    have hall : low.toNat ∈ nanoseconds (jobs.flatMap (latencies opcode)) :=
      ⟨low, List.mem_flatMap.mpr ⟨bios, hbios, hlow⟩, rfl⟩
    refine ⟨?_, isGreatest_of_insert hgreatest ⟨latNs, hlat, rfl⟩ (Nat.zero_le _)⟩
    rw [reportedMins_eq opcode hjobs] at hleast
    have hones : (firstMin opcode).toNat ≤ (BitVec.allOnes 64).toNat :=
      BitVec.le_def.mp (le_allOnes _)
    have hreported := (isLeast_iff_of_insert hleast).mpr ⟨_, Set.mem_insert _ _, hones⟩
    exact (isLeast_iff_of_insert hreported).mpr ⟨_, hall, BitVec.le_def.mp hle⟩

/-- The first command of an opcode, alone. -/
theorem exists_prefix_latencies {bios : List Completion} {latNs : BitVec 64}
    (h : latNs ∈ (latencies opcode bios).head?) :
    ∃ ended, ended <+: bios ∧ latencies opcode ended = [latNs] := by
  obtain ⟨rest, hrest⟩ := List.head?_eq_some_iff.mp h
  obtain ⟨bio, bios', hfilter, rfl, -⟩ := List.map_eq_cons_iff.mp hrest
  obtain ⟨before, after, rfl, hbefore, hbio, -⟩ := List.filter_eq_cons_iff.mp hfilter
  refine ⟨before ++ [bio], ⟨after, by simp⟩, ?_⟩
  have hnone : before.filter (fun bio => bio.opcode = opcode) = [] :=
    List.filter_eq_nil_iff.mpr hbefore
  rw [latencies, List.filter_append, hnone]
  simp [hbio]

/-- **The accounts of latencies.** The buckets, the sums and the maximum are right for every
opcode that `bio_end` accounts. `iogen_job_init` sets the first minimum of reads and writes only:
for the others it is 0 from the beginning, and so is the minimum that is reported, whatever the
commands take. -/
theorem latencyAcctsExact_iff (hopcode : opcode.num ≤ BioOpcode.identify.num) :
    LatencyAcctsExact opcode jobs ↔ opcode = .read ∨ opcode = .write ∨
      ∀ bios ∈ jobs, ∀ latNs ∈ (latencies opcode bios).head?, latNs = 0 := by
  have hfirst := firstMin_eq opcode
  refine ⟨?_, ?_⟩
  · intro h
    by_cases hset : opcode = .read ∨ opcode = .write
    · exact or_assoc.mp (.inl hset)
    · refine .inr (.inr ?_)
      intro bios hbios latNs hhead
      obtain ⟨ended, hended, hlats⟩ := exists_prefix_latencies hhead
      have hne : latencies opcode ended ≠ [] := by
        rw [hlats]
        exact List.cons_ne_nil _ _
      obtain ⟨low, hlow, hle⟩ := ((jobAcct_counts hopcode ended).exact_iff hne).mp
        (h.job bios hbios ended hended hne)
      rw [hlats, List.mem_singleton] at hlow
      rw [hfirst, if_neg hset, hlow] at hle
      exact BitVec.le_zero_iff.mp hle
  · intro h
    apply latencyAcctsExact_of hopcode
    intro bios hbios ended hended hne
    rcases or_assoc.mpr h with hset | hzero
    · obtain ⟨latNs, hlat⟩ := List.exists_mem_of_ne_nil _ hne
      refine ⟨latNs, hlat, ?_⟩
      rw [hfirst, if_pos hset]
      exact le_allOnes latNs
    · obtain ⟨latNs, rest, hcons⟩ := List.exists_cons_of_ne_nil hne
      obtain ⟨later, hlater⟩ := (hended.filter fun bio => decide (bio.opcode = opcode)).map
        Completion.latNs
      have hhead : latNs ∈ (latencies opcode bios).head? := by
        change (latencies opcode ended) ++ later = latencies opcode bios at hlater
        rw [← hlater, hcons]
        rfl
      refine ⟨latNs, ?_, ?_⟩
      · rw [hcons]
        exact List.mem_cons_self
      · rw [hzero bios hbios latNs hhead]
        exact BitVec.le_def.mpr (Nat.zero_le _)

/-- A command that takes 5 ns. -/
def fiveNs (opcode : BioOpcode) : Completion where
  opcode := opcode
  iosize := 4096
  beginTs := ⟨1, 999999998⟩
  endTs := ⟨2, 3⟩

/-- Two jobs, of which one reads. -/
theorem latencyAcctsExact_reads :
    LatencyAcctsExact .read [[fiveNs .read, fiveNs .flush], [fiveNs .flush]] :=
  (latencyAcctsExact_iff (by decide)).mpr (.inl rfl)

/-- One flush: the minimum that is reported is 0 ns. -/
theorem not_latencyAcctsExact_flush : ¬ LatencyAcctsExact .flush [[fiveNs .flush]] := by
  intro h
  have hlats : latencies .flush [fiveNs .flush] = [5] := rfl
  have hexact := h.job _ (List.mem_singleton_self _) _ List.prefix_rfl
    (hlats ▸ List.cons_ne_nil _ _)
  obtain ⟨latNs, hlat, hmin⟩ := hexact.least.1
  rw [hlats, List.mem_singleton] at hlat
  subst hlat
  exact absurd hmin (by decide)

end Exact

end ChamberSpo

import ChamberSpo.Acct
import Mathlib.Algebra.Order.BigOperators.Group.Finset
import Mathlib.Data.Rat.Floor
import Mathlib.Tactic.NormNum

/-!
# The report of a run

What `disp/standalone.c` prints when a run is over, for an opcode with an account.

* `toHumanReadable`, `reportOpacct` — amounts and rates, each in the largest unit that leaves it
  some digits.
* `reportLatAcctPercentile` — the average of the bucket in which a percentile is.
-/

namespace ChamberSpo

/-! ## Amounts and rates -/

/-- `metrics` -/
def metrics : List String := ["", "K", "M", "G", "T", "P"]

/-- The loop of `to_human_readable`, with `left` turns to go: `*num` and `i`. -/
def toHumanReadableLoop (kiloUnit threshold : ℕ) : ℕ → ℕ → BitVec 64 → BitVec 64 × ℕ
  | 0, i, num => (num, i)
  | left + 1, i, num =>
    if num.toNat < threshold then (num, i)
    else toHumanReadableLoop kiloUnit threshold left (i + 1) (num / BitVec.ofNat 64 kiloUnit)

/-- `to_human_readable`: `num` and `metric`. `kilo_unit` is 1024 or 1000. -/
def toHumanReadable (size : BitVec 64) (kiloUnit : ℕ) : BitVec 64 × String :=
  let threshold := kiloUnit * kiloUnit * 10 / 100
  let (num, i) := toHumanReadableLoop kiloUnit threshold 5 0 size
  (num, metrics.getD i "")

/-- `longnum` of `report_opacct`; `none` for a division by zero. -/
def longnum (n elapsedTimeNs : BitVec 64) : Option (BitVec 64) :=
  if elapsedTimeNs = 0 then none else some (n * nsecPerSec / elapsedTimeNs)

/-- What `report_opacct` prints, and the rates that it scales. -/
structure OpacctReport where
  amount : BitVec 64 × String
  ios : BitVec 64 × String
  bytesPerSec : BitVec 64
  throughput : BitVec 64 × String
  opsPerSec : BitVec 64
  iops : BitVec 64 × String

/-- `report_opacct` -/
def reportOpacct (opacct : Opacct) (elapsedTimeNs : BitVec 64) : Option OpacctReport := do
  let bytesPerSec ← longnum opacct.bytes elapsedTimeNs
  let opsPerSec ← longnum opacct.ops elapsedTimeNs
  return {
    amount := toHumanReadable opacct.bytes 1024
    ios := toHumanReadable opacct.ops 1000
    bytesPerSec := bytesPerSec
    throughput := toHumanReadable bytesPerSec 1024
    opsPerSec := opsPerSec
    iops := toHumanReadable opsPerSec 1000 }

/-- A number and its unit are those of `size`: it is `size` in the unit, and the next unit is not
needed. -/
def HumanReadable (kiloUnit size : ℕ) (shown : BitVec 64 × String) : Prop :=
  ∃ i ≤ 5, shown.2 = metrics.getD i "" ∧ shown.1.toNat = size / kiloUnit ^ i ∧
    (i < 5 → shown.1.toNat * 10 < kiloUnit ^ 2)

section Rates

variable {kiloUnit : ℕ} {size n elapsedTimeNs : BitVec 64} {opacct : Opacct}

theorem toHumanReadableLoop_spec (hkilo : kiloUnit < 2 ^ 64) (threshold left i : ℕ)
    (num : BitVec 64) :
    (toHumanReadableLoop kiloUnit threshold left i num).2 ≤ i + left ∧
      i ≤ (toHumanReadableLoop kiloUnit threshold left i num).2 ∧
      (toHumanReadableLoop kiloUnit threshold left i num).1.toNat
        = num.toNat / kiloUnit ^ ((toHumanReadableLoop kiloUnit threshold left i num).2 - i) ∧
      ((toHumanReadableLoop kiloUnit threshold left i num).2 < i + left →
        (toHumanReadableLoop kiloUnit threshold left i num).1.toNat < threshold) := by
  induction left generalizing i num with
  | zero => simp [toHumanReadableLoop]
  | succ left ih =>
    rw [toHumanReadableLoop]
    split
    · rename_i hlt
      simp [hlt]
    · obtain ⟨hle, hge, hnum, hlow⟩ := ih (i + 1) (num / BitVec.ofNat 64 kiloUnit)
      refine ⟨by omega, by omega, ?_, fun hlt => hlow (by omega)⟩
      rw [hnum, BitVec.toNat_udiv, BitVec.toNat_ofNat, Nat.mod_eq_of_lt hkilo,
        Nat.div_div_eq_div_mul, ← pow_succ', ← Nat.sub_sub, Nat.sub_add_cancel (by omega)]

/-- **`to_human_readable`** is right for the two units. A tenth of the square is rounded down for
1024, and no number is between. -/
theorem toHumanReadable_spec (hkilo : kiloUnit < 2 ^ 64) :
    HumanReadable kiloUnit size.toNat (toHumanReadable size kiloUnit) := by
  have hloop := toHumanReadableLoop_spec hkilo (kiloUnit * kiloUnit * 10 / 100) 5 0 size
  simp only [toHumanReadable]
  generalize toHumanReadableLoop kiloUnit (kiloUnit * kiloUnit * 10 / 100) 5 0 size = shown
    at hloop ⊢
  obtain ⟨num, i⟩ := shown
  obtain ⟨hle, -, hnum, hlow⟩ := hloop
  rw [Nat.zero_add] at hle hlow
  refine ⟨i, hle, rfl, hnum, ?_⟩
  intro hlt
  have hthreshold := hlow hlt
  have hdiv := Nat.div_mul_le_self (kiloUnit * kiloUnit * 10) 100
  rw [pow_two]
  change num.toNat * 10 < kiloUnit * kiloUnit
  change num.toNat < kiloUnit * kiloUnit * 10 / 100 at hthreshold
  omega

/-- **A rate is exact** if the product is a word. Otherwise what is lost of it is more than the
divisor. -/
theorem longnum_eq_some_iff (n elapsedTimeNs : BitVec 64) :
    (∃ rate, longnum n elapsedTimeNs = some rate ∧
      rate.toNat = n.toNat * 10 ^ 9 / elapsedTimeNs.toNat) ↔
    elapsedTimeNs ≠ 0 ∧ n.toNat * 10 ^ 9 < 2 ^ 64 := by
  have hrate : (n * nsecPerSec / elapsedTimeNs).toNat
      = n.toNat * 10 ^ 9 % 2 ^ 64 / elapsedTimeNs.toNat := by
    rw [BitVec.toNat_udiv, BitVec.toNat_mul]
    rfl
  by_cases hzero : elapsedTimeNs = 0
  · simp [longnum, hzero]
  · have hpos : 0 < elapsedTimeNs.toNat := by
      rw [Nat.pos_iff_ne_zero]
      intro h
      exact hzero (BitVec.eq_of_toNat_eq h)
    simp only [longnum, hzero, if_false, Option.some.injEq, exists_eq_left', hrate, ne_eq,
      not_false_eq_true, true_and]
    refine ⟨?_, fun hlt => by rw [Nat.mod_eq_of_lt hlt]⟩
    intro heq
    by_contra hge
    have hword := elapsedTimeNs.isLt
    have hmod := Nat.mod_add_div (n.toNat * 10 ^ 9) (2 ^ 64)
    have hturn : 1 ≤ n.toNat * 10 ^ 9 / 2 ^ 64 := by omega
    have hless : n.toNat * 10 ^ 9 % 2 ^ 64 + elapsedTimeNs.toNat ≤ n.toNat * 10 ^ 9 := by omega
    have hdiv := Nat.div_le_div_right (c := elapsedTimeNs.toNat) hless
    rw [Nat.add_div_right _ hpos] at hdiv
    omega

/-- What is printed is right. -/
structure OpacctReport.Exact (report : OpacctReport) (opacct : Opacct) (elapsedTimeNs : BitVec 64) :
    Prop where
  amount : HumanReadable 1024 opacct.bytes.toNat report.amount
  ios : HumanReadable 1000 opacct.ops.toNat report.ios
  bytesPerSec : report.bytesPerSec.toNat = opacct.bytes.toNat * 10 ^ 9 / elapsedTimeNs.toNat
  throughput : HumanReadable 1024 report.bytesPerSec.toNat report.throughput
  opsPerSec : report.opsPerSec.toNat = opacct.ops.toNat * 10 ^ 9 / elapsedTimeNs.toNat
  iops : HumanReadable 1000 report.opsPerSec.toNat report.iops

/-- **The rates.** A number and its unit are always right for the value that is scaled. The rates
are right if time has passed, and if neither product with `NSEC_PER_SEC` is beyond a word: for the
bytes that is below 17.2 GiB. -/
theorem reportOpacct_exact_iff :
    (∃ report, reportOpacct opacct elapsedTimeNs = some report ∧
      report.Exact opacct elapsedTimeNs) ↔
    elapsedTimeNs ≠ 0 ∧ opacct.bytes.toNat * 10 ^ 9 < 2 ^ 64 ∧
      opacct.ops.toNat * 10 ^ 9 < 2 ^ 64 := by
  have hbytes := longnum_eq_some_iff opacct.bytes elapsedTimeNs
  have hops := longnum_eq_some_iff opacct.ops elapsedTimeNs
  refine ⟨?_, ?_⟩
  · rintro ⟨report, hreport, hexact⟩
    simp only [reportOpacct, Option.bind_eq_bind, Option.bind_eq_some_iff] at hreport
    obtain ⟨bytesPerSec, hbps, opsPerSec, hips, hreport⟩ := hreport
    obtain rfl := Option.some.inj hreport
    obtain ⟨htime, hbytesLt⟩ := hbytes.mp ⟨bytesPerSec, hbps, hexact.bytesPerSec⟩
    obtain ⟨-, hopsLt⟩ := hops.mp ⟨opsPerSec, hips, hexact.opsPerSec⟩
    exact ⟨htime, hbytesLt, hopsLt⟩
  · rintro ⟨htime, hbytesLt, hopsLt⟩
    obtain ⟨bytesPerSec, hbps, hbpsEq⟩ := hbytes.mpr ⟨htime, hbytesLt⟩
    obtain ⟨opsPerSec, hips, hipsEq⟩ := hops.mpr ⟨htime, hopsLt⟩
    refine ⟨_, by rw [reportOpacct, hbps, hips]; rfl, ?_⟩
    exact {
      amount := toHumanReadable_spec (by decide)
      ios := toHumanReadable_spec (by decide)
      bytesPerSec := hbpsEq
      throughput := toHumanReadable_spec (by decide)
      opsPerSec := hipsEq
      iops := toHumanReadable_spec (by decide) }

/-- 20 GiB in blocks of 4 KiB, in a second: the throughput of 20 GiB/s is reported as 2.8. -/
theorem not_reportOpacct_exact_20GiB :
    ¬ ∃ report, reportOpacct { Opacct.zero with ops := 5242880, bytes := 21474836480 } 1000000000
        = some report ∧
      report.Exact { Opacct.zero with ops := 5242880, bytes := 21474836480 } 1000000000 := by
  rintro ⟨report, hreport, hexact⟩
  obtain rfl := Option.some.inj hreport
  exact absurd hexact.bytesPerSec (by decide)

end Rates

/-! ## Percentiles -/

/-- `buckets[i]`; `none` outside of the array -/
def LatencyAcct.bucketAt (latency : LatencyAcct) (i : Int) : Option LatencyAcctBucket :=
  if 0 ≤ i ∧ i < latencyAcctNumBuckets then some (latency.buckets i.toNat) else none

/-- The average of a bucket, in microseconds; `none` for a division by zero. -/
def LatencyAcctBucket.average (bucket : LatencyAcctBucket) : Option (BitVec 64) :=
  if bucket.count = 0 then none else some (bucket.sum / bucket.count / 1000)

/-- The loop of `report_lat_acct_percentile`, with `percent` as a fraction: the percentages and the
averages that it prints. `none` for a read outside of the buckets or a division by zero, and when
the fuel does not last. -/
def reportLatAcctPercentileLoop (opacct : Opacct) :
    ℕ → ℚ → Int → BitVec 64 → Option (List (ℚ × BitVec 64))
  | 0, _, _, _ => none
  | fuel + 1, percent, bucketIdx, count =>
    if percent < 9999999 / 10000000 then
      if ⌊opacct.ops.toNat * percent⌋₊ ≤ count.toNat then do
        let bucket ← opacct.latency.bucketAt (bucketIdx - 1)
        let average ← bucket.average
        let printed ← reportLatAcctPercentileLoop opacct fuel ((percent + 9) * (1 / 10)) bucketIdx
          count
        return (percent, average) :: printed
      else do
        let bucket ← opacct.latency.bucketAt bucketIdx
        reportLatAcctPercentileLoop opacct fuel percent (bucketIdx + 1) (count + bucket.count)
    else some []

/-- `report_lat_acct_percentile` -/
def reportLatAcctPercentile (fuel : ℕ) (opacct : Opacct) : Option (List (ℚ × BitVec 64)) :=
  reportLatAcctPercentileLoop opacct fuel (99 / 100) 0 0

/-- The percentages of the report. -/
def percents : List ℚ := [99 / 100, 999 / 1000, 9999 / 10000, 99999 / 100000, 999999 / 1000000]

/-- The commands in the first `n` buckets. -/
def Opacct.cumulated (opacct : Opacct) (n : ℕ) : ℕ :=
  ∑ i ∈ Finset.range n, (opacct.latency.buckets i).count.toNat

/-- The first bucket at which the cumulated count reaches a percentage. -/
def Opacct.FirstBucket (opacct : Opacct) (percent : ℚ) (i : ℕ) : Prop :=
  IsLeast
    {i | i < latencyAcctNumBuckets ∧ ⌊opacct.ops.toNat * percent⌋₊ ≤ opacct.cumulated (i + 1)} i

/-- What is printed for a percentage is the average of its bucket. -/
def Opacct.Reported (opacct : Opacct) (percent : ℚ) (printed : ℚ × BitVec 64) : Prop :=
  printed.1 = percent ∧ ∃ i, opacct.FirstBucket percent i ∧
    (opacct.latency.buckets i).average = some printed.2

/-- The percentages that the loop still reports, from one of them on. -/
inductive PercentsFrom : ℚ → List ℚ → Prop
  | done {percent} : ¬ percent < 9999999 / 10000000 → PercentsFrom percent []
  | next {percent rest} : percent < 9999999 / 10000000 →
    PercentsFrom ((percent + 9) * (1 / 10)) rest → PercentsFrom percent (percent :: rest)

theorem percentsFrom_percents : PercentsFrom (99 / 100) percents := by
  have hend : PercentsFrom (9999999 / 10000000) [] := .done (by norm_num)
  have h6 : PercentsFrom (999999 / 1000000) _ := .next (by norm_num) (by norm_num; exact hend)
  have h5 : PercentsFrom (99999 / 100000) _ := .next (by norm_num) (by norm_num; exact h6)
  have h4 : PercentsFrom (9999 / 10000) _ := .next (by norm_num) (by norm_num; exact h5)
  have h3 : PercentsFrom (999 / 1000) _ := .next (by norm_num) (by norm_num; exact h4)
  exact .next (by norm_num) (by norm_num; exact h3)

section Percentiles

variable {opacct : Opacct} {latency : LatencyAcct} {percent percent' : ℚ} {rest : List ℚ}
  {i j idx fuel : ℕ} {count : BitVec 64}

theorem bucketAt_of_lt (hi : i < latencyAcctNumBuckets) :
    latency.bucketAt i = some (latency.buckets i) := by
  rw [LatencyAcct.bucketAt, if_pos ⟨Int.natCast_nonneg i, Int.ofNat_lt.mpr hi⟩, Int.toNat_natCast]

theorem bucketAt_neg : latency.bucketAt (-1) = none := by
  rw [LatencyAcct.bucketAt, if_neg]
  rintro ⟨hneg, -⟩
  omega

theorem LatencyAcctBucket.average_of_ne {bucket : LatencyAcctBucket} (h : bucket.count ≠ 0) :
    bucket.average = some (bucket.sum / bucket.count / 1000) := if_neg h

theorem Opacct.cumulated_succ (n : ℕ) :
    opacct.cumulated (n + 1) = opacct.cumulated n + (opacct.latency.buckets n).count.toNat :=
  Finset.sum_range_succ _ n

theorem Opacct.cumulated_zero (opacct : Opacct) : opacct.cumulated 0 = 0 := Finset.sum_range_zero _

theorem Opacct.cumulated_mono (hij : i ≤ j) : opacct.cumulated i ≤ opacct.cumulated j :=
  Finset.sum_le_sum_of_subset (Finset.range_mono hij)

/-- A higher percentage is not in an earlier bucket. -/
theorem Opacct.FirstBucket.le (hi : opacct.FirstBucket percent i)
    (hj : opacct.FirstBucket percent' j) (hle : percent ≤ percent') : i ≤ j := by
  have hfloor : ⌊opacct.ops.toNat * percent⌋₊ ≤ ⌊opacct.ops.toNat * percent'⌋₊ :=
    Nat.floor_mono (mul_le_mul_of_nonneg_left hle (Nat.cast_nonneg _))
  exact hi.2 ⟨hj.1.1, le_trans hfloor hj.1.2⟩

/-- The bucket at which the count has just reached a percentage. It is not empty. -/
theorem Opacct.reported_of_reach (hidx : idx < latencyAcctNumBuckets)
    (hbefore : opacct.cumulated idx < ⌊opacct.ops.toNat * percent⌋₊)
    (hreach : ⌊opacct.ops.toNat * percent⌋₊ ≤ opacct.cumulated (idx + 1)) :
    ∃ average, (opacct.latency.buckets idx).average = some average ∧
      opacct.Reported percent (percent, average) := by
  have hcount : (opacct.latency.buckets idx).count ≠ 0 := by
    intro hzero
    rw [opacct.cumulated_succ, hzero] at hreach
    exact Nat.not_le_of_lt hbefore hreach
  have haverage := LatencyAcctBucket.average_of_ne hcount
  refine ⟨_, haverage, rfl, idx, ⟨⟨hidx, hreach⟩, ?_⟩, haverage⟩
  rintro j ⟨-, hj⟩
  by_contra hlt
  have hmono := opacct.cumulated_mono (i := j + 1) (j := idx) (by omega)
  omega

/-- The invariant of the loop: the count is that of the buckets before `idx`, and without the last
of them no percentage that is left is reached. -/
structure AtBucket (opacct : Opacct) (rest : List ℚ) (idx : ℕ) (count : BitVec 64) : Prop where
  count : count.toNat = opacct.cumulated idx
  le : idx ≤ latencyAcctNumBuckets
  before : ∀ q ∈ rest, opacct.cumulated (idx - 1) < ⌊opacct.ops.toNat * q⌋₊

/-- **The loop** goes on to the next bucket or to the next percentage. -/
theorem reportLatAcctPercentileLoop_spec
    (hsum : opacct.cumulated latencyAcctNumBuckets = opacct.ops.toNat)
    (hfrom : PercentsFrom percent rest) (hle : ∀ q ∈ rest, q ≤ 1) (hsorted : rest.Pairwise (· ≤ ·))
    (hat : AtBucket opacct rest idx count)
    (hfuel : rest.length + (latencyAcctNumBuckets - idx) < fuel) :
    ∃ printed, reportLatAcctPercentileLoop opacct fuel percent idx count = some printed ∧
      List.Forall₂ opacct.Reported rest printed := by
  induction fuel generalizing percent rest idx count with
  | zero => exact absurd hfuel (Nat.not_lt_zero _)
  | succ fuel ih =>
    rw [reportLatAcctPercentileLoop]
    cases hfrom with
    | done hdone => exact ⟨[], by rw [if_neg hdone], .nil⟩
    | next hless hnext =>
      rename_i rest
      rw [if_pos hless]
      have hbefore := hat.before percent List.mem_cons_self
      by_cases hreach : ⌊opacct.ops.toNat * percent⌋₊ ≤ count.toNat
      · rw [if_pos hreach]
        rw [hat.count] at hreach
        -- no bucket has been passed while the count is 0
        obtain ⟨idx, rfl⟩ : ∃ n, idx = n + 1 := by
          refine Nat.exists_eq_succ_of_ne_zero ?_
          rintro rfl
          exact Nat.not_lt_of_le hreach hbefore
        have hidx : idx < latencyAcctNumBuckets := hat.le
        obtain ⟨average, haverage, hreported⟩ := opacct.reported_of_reach hidx hbefore hreach
        obtain ⟨printed, hloop, hprinted⟩ := ih hnext
          (fun q hq => hle q (List.mem_cons_of_mem _ hq))
          (List.pairwise_cons.mp hsorted).2
          ⟨hat.count, hat.le, fun q hq => hat.before q (List.mem_cons_of_mem _ hq)⟩
          (by rw [List.length_cons] at hfuel; omega)
        refine ⟨(percent, average) :: printed, ?_, .cons hreported hprinted⟩
        have hback : ((idx + 1 : ℕ) : Int) - 1 = idx := by omega
        rw [hback, bucketAt_of_lt hidx]
        simp only [Option.bind_eq_bind, Option.bind_some, haverage, hloop]
        rfl
      · rw [if_neg hreach]
        have hfloor : ⌊opacct.ops.toNat * percent⌋₊ ≤ opacct.ops.toNat := by
          refine Nat.floor_le_of_le ?_
          exact mul_le_of_le_one_right (Nat.cast_nonneg _) (hle percent List.mem_cons_self)
        have hword := opacct.ops.isLt
        have hidx : idx < latencyAcctNumBuckets := by
          refine lt_of_le_of_ne hat.le ?_
          rintro rfl
          rw [hat.count] at hreach
          omega
        have hstep := opacct.cumulated_succ idx
        have hall := opacct.cumulated_mono (i := idx + 1) hidx
        have hcount := hat.count
        have hnextAt : AtBucket opacct (percent :: rest) (idx + 1)
            (count + (opacct.latency.buckets idx).count) := by
          refine ⟨?_, hidx, ?_⟩
          · rw [BitVec.toNat_add, Nat.mod_eq_of_lt (by omega), hcount, hstep]
          · intro q hq
            have hq' : percent ≤ q := by
              rcases List.mem_cons.mp hq with rfl | hq
              · exact le_rfl
              · exact (List.pairwise_cons.mp hsorted).1 q hq
            have hmono : ⌊opacct.ops.toNat * percent⌋₊ ≤ ⌊opacct.ops.toNat * q⌋₊ :=
              Nat.floor_mono (mul_le_mul_of_nonneg_left hq' (Nat.cast_nonneg _))
            rw [Nat.add_sub_cancel]
            omega
        obtain ⟨printed, hloop, hprinted⟩ := ih (.next hless hnext) hle hsorted hnextAt (by omega)
        refine ⟨printed, ?_, hprinted⟩
        rw [bucketAt_of_lt hidx]
        exact hloop

/-- The averages are of the buckets `idxs`. -/
theorem exists_idxs {printed : List (ℚ × BitVec 64)}
    (h : List.Forall₂ opacct.Reported rest printed) :
    ∃ idxs, List.Forall₂ opacct.FirstBucket rest idxs ∧
      List.Forall₂ (fun idx shown => (opacct.latency.buckets idx).average = some shown.2) idxs
        printed ∧
      printed.map Prod.fst = rest := by
  induction h with
  | nil => exact ⟨[], .nil, .nil, rfl⟩
  | cons hreported _ ih =>
    obtain ⟨idxs, hfirst, haverage, hpercents⟩ := ih
    obtain ⟨hpercent, idx, hidx, hshown⟩ := hreported
    refine ⟨idx :: idxs, .cons hidx hfirst, .cons hshown haverage, ?_⟩
    rw [List.map_cons, hpercent, hpercents]

/-- Higher percentages, later buckets. -/
theorem pairwise_of_firstBucket {idxs : List ℕ} (h : List.Forall₂ opacct.FirstBucket rest idxs)
    (hsorted : rest.Pairwise (· ≤ ·)) : idxs.Pairwise (· ≤ ·) := by
  rw [List.forall₂_iff_get] at h
  rw [List.pairwise_iff_get] at hsorted ⊢
  intro i j hij
  obtain ⟨hlength, hfirst⟩ := h
  have hi : i < rest.length := by rw [hlength]; exact i.isLt
  have hj : j < rest.length := by rw [hlength]; exact j.isLt
  exact (hfirst i hi i.isLt).le (hfirst j hj j.isLt) (hsorted ⟨i, hi⟩ ⟨j, hj⟩ hij)

/-- The report of the percentiles is right: the averages are those of the buckets in which the
percentages are, one after the other. -/
def Opacct.PercentilesRight (opacct : Opacct) : Prop :=
  ∃ fuel printed, reportLatAcctPercentile fuel opacct = some printed ∧
    printed.map Prod.fst = percents ∧
    ∃ idxs, List.Forall₂ opacct.FirstBucket percents idxs ∧
      List.Forall₂ (fun idx shown => (opacct.latency.buckets idx).average = some shown.2) idxs
        printed ∧
      idxs.Pairwise (· ≤ ·)

/-- Where the first percentage is of no command, the bucket before the first one is read. -/
theorem reportLatAcctPercentile_eq_none (h : ⌊opacct.ops.toNat * (99 / 100 : ℚ)⌋₊ = 0) (fuel : ℕ) :
    reportLatAcctPercentile fuel opacct = none := by
  cases fuel with
  | zero => rfl
  | succ fuel =>
    rw [reportLatAcctPercentile, reportLatAcctPercentileLoop, if_pos (by norm_num), h,
      if_pos (Nat.zero_le _), Int.zero_sub, bucketAt_neg]
    rfl

/-- **The percentiles** are right for two commands and more. Of one command every percentage is
rounded down to none, and the report begins with `buckets[-1]`. -/
theorem percentilesRight_iff (hops : opacct.ops ≠ 0)
    (hsum : opacct.cumulated latencyAcctNumBuckets = opacct.ops.toNat) :
    opacct.PercentilesRight ↔ 2 ≤ opacct.ops.toNat := by
  refine ⟨?_, ?_⟩
  · rintro ⟨fuel, printed, hreport, -⟩
    by_contra hfew
    have hone : opacct.ops.toNat = 1 := by
      have hpos : opacct.ops.toNat ≠ 0 := fun h => hops (BitVec.eq_of_toNat_eq h)
      omega
    rw [reportLatAcctPercentile_eq_none (by rw [hone]; norm_num)] at hreport
    cases hreport
  · intro htwo
    have htwo' : (2 : ℚ) ≤ opacct.ops.toNat := by exact_mod_cast htwo
    have hlow : ∀ q ∈ percents, 1 / 2 ≤ q ∧ q ≤ 1 := by
      simp only [percents, List.forall_mem_cons]
      norm_num
    have hsorted : percents.Pairwise (· ≤ ·) := by
      simp only [percents, List.pairwise_cons, List.forall_mem_cons]
      norm_num
    have hat : AtBucket opacct percents 0 0 := by
      refine ⟨opacct.cumulated_zero.symm, Nat.zero_le _, ?_⟩
      intro q hq
      have hhalf : (1 : ℚ) ≤ opacct.ops.toNat * q := by
        calc (1 : ℚ) = 2 * (1 / 2) := by norm_num
          _ ≤ opacct.ops.toNat * q :=
            mul_le_mul htwo' (hlow q hq).1 (by norm_num) (Nat.cast_nonneg _)
      rw [Nat.zero_sub, opacct.cumulated_zero]
      exact Nat.floor_pos.mpr hhalf
    obtain ⟨printed, hloop, hprinted⟩ := reportLatAcctPercentileLoop_spec hsum
      percentsFrom_percents (fun q hq => (hlow q hq).2) hsorted hat (Nat.lt_succ_self _)
    obtain ⟨idxs, hfirst, haverage, hpercents⟩ := exists_idxs hprinted
    exact ⟨_, printed, hloop, hpercents, idxs, hfirst, haverage,
      pairwise_of_firstBucket hfirst hsorted⟩

/-- A flush that takes 5 us, and a second one. -/
def oneFlush : Opacct := Opacct.zero.bioEnd 5000 4096

def twoFlushes : Opacct := oneFlush.bioEnd 5000 4096

theorem percentilesRight_twoFlushes : twoFlushes.PercentilesRight :=
  (percentilesRight_iff (by decide) (by decide)).mpr (by decide)

/-- One command: the report reads before the first bucket. -/
theorem not_percentilesRight_oneFlush : ¬ oneFlush.PercentilesRight := by
  rintro ⟨fuel, printed, hreport, -⟩
  have hone : oneFlush.ops.toNat = 1 := rfl
  rw [reportLatAcctPercentile_eq_none (by rw [hone]; norm_num)] at hreport
  cases hreport

end Percentiles

end ChamberSpo

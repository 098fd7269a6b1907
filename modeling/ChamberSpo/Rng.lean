import ChamberSpo.InflightLock
import ChamberSpo.LbaRange
import Mathlib.Algebra.BigOperators.Intervals
import Mathlib.Algebra.Order.Floor.Semiring
import Mathlib.Data.Rat.Floor
import Mathlib.Tactic.Linarith
import Mathlib.Tactic.NormNum

/-!
# Random numbers

What the random numbers of `rng.h` can be, and what `generate_bio` makes of them.

* `rand64`, `rngUniformReal` — a number from two draws of `nrand48`, which have 31 bits each.
* `Honoured` — a probability is about the fraction of the draws that fall below it
  (`honoured_iff`).
* `Picks` — a start that the uniform branch of `generate_bio` chooses for some draw
  (`picks_iff`).
-/

namespace ChamberSpo

/-- The values of `nrand48`. -/
@[irreducible] def nrand48Values : ℕ := 2 ^ 31

/-- `rand64`, from two draws. -/
def rand64 (lo hi : BitVec 32) : BitVec 64 := hi.setWidth 64 <<< 32 ||| lo.setWidth 64

/-- `rand64` of two values of `nrand48`. -/
def rand64Of (draws : ℕ × ℕ) : BitVec 64 :=
  rand64 (BitVec.ofNat 32 draws.1) (BitVec.ofNat 32 draws.2)

/-- `rng_uniform_real`, exactly. -/
def rngUniformReal (rand : BitVec 64) : ℚ := rand.toNat / (2 ^ 64 - 1)

/-- All values of two calls of `nrand48`. -/
def drawPairs : Finset (ℕ × ℕ) := Finset.range nrand48Values ×ˢ Finset.range nrand48Values

/-- The fraction of the draws that fall below a probability. -/
def fractionBelow (p : ℚ) : ℚ :=
  (drawPairs.filter fun draws => rngUniformReal (rand64Of draws) < p).card / drawPairs.card

/-- A probability strictly between 0 and 1 is honoured: both outcomes happen, and as often as it
says. -/
structure Honoured (p : ℚ) : Prop where
  below : ∃ draws ∈ drawPairs, rngUniformReal (rand64Of draws) < p
  notBelow : ∃ draws ∈ drawPairs, p ≤ rngUniformReal (rand64Of draws)
  fraction : |fractionBelow p - p| ≤ 1 / 2 ^ 30

/-! ## Counting pairs -/

/-- Pairs whose second component is the more significant one: those before a number with a given
second component. -/
theorem filter_range_lt (B C N hi : ℕ) :
    (Finset.range B).filter (fun lo => hi * C + lo < N) = Finset.range (min B (N - hi * C)) := by
  ext lo
  simp only [Finset.mem_filter, Finset.mem_range, lt_min_iff]
  omega

/-- Rows of `B` numbers at a distance of `C`: as long as a row begins before `N - C` it counts as a
whole. -/
theorem sum_rows_whole {B C N : ℕ} (hB : B ≤ C) :
    ∀ rows ≤ N / C, ∑ hi ∈ Finset.range rows, min B (N - hi * C) = rows * B := by
  intro rows hrows
  have hwhole : ∀ hi ∈ Finset.range rows, min B (N - hi * C) = B := by
    intro hi hhi
    have hmul : (hi + 1) * C ≤ N :=
      (Nat.mul_le_mul_right C ((Finset.mem_range.mp hhi).trans_le hrows)).trans
        (Nat.div_mul_le_self N C)
    rw [Nat.add_mul] at hmul
    exact min_eq_left (by omega)
  rw [Finset.sum_const_nat hwhole, Finset.card_range]

/-- The rows before `N`: whole ones, a part of one, and nothing of the others. -/
theorem sum_rows {B C N : ℕ} (hB : B ≤ C) (hN : N / C < B) :
    ∑ hi ∈ Finset.range B, min B (N - hi * C) = N / C * B + min B (N % C) := by
  obtain ⟨more, hmore⟩ := Nat.exists_eq_add_of_lt hN
  have hC : 0 < C := (Nat.zero_lt_of_lt hN).trans_le hB
  have hdiv : N / C * C + N % C = N := Nat.div_add_mod' N C
  have hlt : N % C < C := Nat.mod_lt N hC
  have hnone : ∀ hi ∈ Finset.range more, min B (N - (N / C + 1 + hi) * C) = 0 := by
    intro hi _
    have hmul : (N / C + 1) * C ≤ (N / C + 1 + hi) * C :=
      Nat.mul_le_mul_right C (Nat.le_add_right _ _)
    rw [Nat.add_mul (N / C)] at hmul
    exact (min_eq_right (by omega)).trans (by omega)
  have hlast : N - N / C * C = N % C := by omega
  calc ∑ hi ∈ Finset.range B, min B (N - hi * C)
      = ∑ hi ∈ Finset.range (N / C + 1 + more), min B (N - hi * C) := by
        rw [Nat.add_right_comm, ← hmore]
    _ = ∑ hi ∈ Finset.range (N / C), min B (N - hi * C) + min B (N - N / C * C) + 0 := by
        rw [Finset.sum_range_add, Finset.sum_range_succ, Finset.sum_eq_zero hnone]
    _ = N / C * B + min B (N % C) := by
        rw [sum_rows_whole hB _ le_rfl, hlast, Nat.add_zero]

/-- The pairs before a number. -/
theorem card_pairs_lt {B C N : ℕ} (hB : B ≤ C) (hN : N / C < B) :
    ((Finset.range B ×ˢ Finset.range B).filter fun d => d.2 * C + d.1 < N).card =
      N / C * B + min B (N % C) := by
  rw [Finset.card_filter, Finset.sum_product_right, ← sum_rows hB hN]
  refine Finset.sum_congr rfl ?_
  intro hi _
  rw [← Finset.card_filter, filter_range_lt, Finset.card_range]

/-! ## Probabilities -/

/-- The two draws stand one after the other, with a bit between them that is never set. -/
theorem rand64Of_toNat {lo hi : ℕ} (hlo : lo < 2 ^ 31) (hhi : hi < 2 ^ 31) :
    (rand64Of (lo, hi)).toNat = hi * 2 ^ 32 + lo := by
  have hlo' : lo % 2 ^ 32 = lo := Nat.mod_eq_of_lt (by omega)
  have hhi' : hi % 2 ^ 32 = hi := Nat.mod_eq_of_lt (by omega)
  have hshift : hi <<< 32 < 2 ^ 64 := by
    rw [Nat.shiftLeft_eq]
    omega
  rw [rand64Of, rand64, BitVec.toNat_or, BitVec.toNat_shiftLeft, BitVec.toNat_setWidth,
    BitVec.toNat_setWidth, BitVec.toNat_ofNat, BitVec.toNat_ofNat, hlo', hhi',
    Nat.mod_eq_of_lt (by omega : hi < 2 ^ 64), Nat.mod_eq_of_lt (by omega : lo < 2 ^ 64),
    Nat.mod_eq_of_lt hshift, ← Nat.shiftLeft_add_eq_or_of_lt (by omega), Nat.shiftLeft_eq]

theorem nrand48Values_eq : nrand48Values = 2 ^ 31 := by rw [nrand48Values]

theorem mem_drawPairs {draws : ℕ × ℕ} :
    draws ∈ drawPairs ↔ draws.1 < 2 ^ 31 ∧ draws.2 < 2 ^ 31 := by
  rw [drawPairs, Finset.mem_product, Finset.mem_range, Finset.mem_range, nrand48Values_eq]

/-- The first number that is not below a probability. -/
def threshold (p : ℚ) : ℕ := ⌈p * (2 ^ 64 - 1)⌉₊

/-- What falls below a probability. -/
theorem rngUniformReal_lt_iff {draws : ℕ × ℕ} (h : draws ∈ drawPairs) (p : ℚ) :
    rngUniformReal (rand64Of draws) < p ↔ draws.2 * 2 ^ 32 + draws.1 < threshold p := by
  obtain ⟨hlo, hhi⟩ := mem_drawPairs.mp h
  have hpos : (0 : ℚ) < 2 ^ 64 - 1 := by norm_num
  rw [rngUniformReal, div_lt_iff₀ hpos, threshold, Nat.lt_ceil, ← rand64Of_toNat hlo hhi]

theorem card_drawPairs : drawPairs.card = 2 ^ 62 := by
  rw [drawPairs, Finset.card_product, Finset.card_range, nrand48Values_eq]
  norm_num

/-- How many of the draws fall below a probability. -/
theorem card_below {p : ℚ} (h : threshold p / 2 ^ 32 < 2 ^ 31) :
    (drawPairs.filter fun draws => rngUniformReal (rand64Of draws) < p).card =
      threshold p / 2 ^ 32 * 2 ^ 31 + min (2 ^ 31) (threshold p % 2 ^ 32) := by
  rw [Finset.filter_congr fun draws hdraws => rngUniformReal_lt_iff hdraws p, drawPairs]
  rw [← nrand48Values_eq] at h ⊢
  exact card_pairs_lt (by rw [nrand48Values_eq]; norm_num) h

/-- Something falls below any probability. -/
theorem exists_below {p : ℚ} (hpos : 0 < threshold p) :
    ∃ draws ∈ drawPairs, rngUniformReal (rand64Of draws) < p := by
  have hfirst : ∃ draws : ℕ × ℕ, draws ∈ drawPairs ∧ draws.2 * 2 ^ 32 + draws.1 = 0 :=
    ⟨(0, 0), mem_drawPairs.mpr ⟨by norm_num, by norm_num⟩, rfl⟩
  obtain ⟨draws, hdraws, hzero⟩ := hfirst
  refine ⟨draws, hdraws, (rngUniformReal_lt_iff hdraws p).mpr ?_⟩
  rw [hzero]
  exact hpos

/-- Something does not as long as the last number does not. -/
theorem notBelow_iff (p : ℚ) :
    (∃ draws ∈ drawPairs, p ≤ rngUniformReal (rand64Of draws)) ↔
      threshold p ≤ 2 ^ 63 - 2 ^ 31 - 1 := by
  refine ⟨?_, ?_⟩
  · rintro ⟨draws, hdraws, hp⟩
    have hge := Nat.not_lt.mp ((rngUniformReal_lt_iff hdraws p).not.mp (not_lt.mpr hp))
    obtain ⟨hlo, hhi⟩ := mem_drawPairs.mp hdraws
    apply hge.trans
    generalize draws.1 = lo at hlo
    generalize draws.2 = hi at hhi
    omega
  · intro h
    have hlast : ∃ draws : ℕ × ℕ, draws ∈ drawPairs ∧
        threshold p ≤ draws.2 * 2 ^ 32 + draws.1 :=
      ⟨(2 ^ 31 - 1, 2 ^ 31 - 1), mem_drawPairs.mpr ⟨by norm_num, by norm_num⟩,
        h.trans (by norm_num)⟩
    obtain ⟨draws, hdraws, hge⟩ := hlast
    exact ⟨draws, hdraws, not_lt.mp ((rngUniformReal_lt_iff hdraws p).not.mpr (Nat.not_lt.mpr hge))⟩

/-- How close the fraction of the draws is, in terms of their number. -/
theorem fraction_le_iff {count : ℕ} {p : ℚ} :
    |(count : ℚ) / (2 ^ 62 : ℕ) - p| ≤ 1 / 2 ^ 30 ↔
      (count : ℚ) ≤ 2 ^ 32 + 2 ^ 62 * p ∧ 2 ^ 62 * p ≤ count + 2 ^ 32 := by
  have hcast : ((2 ^ 62 : ℕ) : ℚ) = 4611686018427387904 := by norm_num
  rw [hcast, abs_le]
  refine ⟨fun ⟨hl, hu⟩ => ⟨by linarith, by linarith⟩, fun ⟨hu, hl⟩ => ⟨?_, ?_⟩⟩
  · linarith
  · linarith

/-- The number of the draws before a number. -/
def countBefore (N : ℕ) : ℕ := N / 2 ^ 32 * 2 ^ 31 + min (2 ^ 31) (N % 2 ^ 32)

/-- It is at most a quarter of the number and `2 ^ 32` more only for small numbers, and where the
draws have the gap after `4 * 2 ^ 32`. -/
theorem of_countBefore_le {N : ℕ} (hbound : N ≤ 2 ^ 63 - 2 ^ 31 - 1)
    (h : countBefore N * (2 ^ 64 - 1) ≤ 2 ^ 32 * (2 ^ 64 - 1) + 2 ^ 62 * N) :
    N ≤ 14316557653 ∨ N ≤ 2 ^ 34 ∧ countBefore N = 2 ^ 33 := by
  rw [countBefore] at h ⊢
  omega

theorem countBefore_le {N : ℕ} (hpos : 0 < N) (hN : N ≤ 14316557653) :
    countBefore N * (2 ^ 64 - 1) ≤ 2 ^ 32 * (2 ^ 64 - 1) + 2 ^ 62 * (N - 1) := by
  rw [countBefore]
  omega

theorem countBefore_le_gap {N : ℕ} (hN : N ≤ 2 ^ 34) : countBefore N ≤ 2 ^ 33 := by
  rw [countBefore]
  omega

/-- It is never less than a quarter of a small number by `2 ^ 32`. -/
theorem le_countBefore {N : ℕ} (hN : N ≤ 2 ^ 34) :
    2 ^ 62 * N ≤ (countBefore N + 2 ^ 32) * (2 ^ 64 - 1) := by
  rw [countBefore]
  omega

/-- How close the fraction of the draws below a probability is. -/
theorem fractionBelow_iff {p : ℚ} (h : threshold p ≤ 2 ^ 63 - 2 ^ 31 - 1) :
    |fractionBelow p - p| ≤ 1 / 2 ^ 30 ↔
      (countBefore (threshold p) : ℚ) ≤ 2 ^ 32 + 2 ^ 62 * p ∧
        2 ^ 62 * p ≤ countBefore (threshold p) + 2 ^ 32 := by
  rw [fractionBelow, card_below (by omega), card_drawPairs]
  exact fraction_le_iff

/-- A probability that is honoured is small. -/
theorem Honoured.small {p : ℚ} (h : Honoured p) :
    p * (2 ^ 64 - 1) ≤ 14316557653 ∨ 1 ≤ 2 ^ 30 * p ∧ p * (2 ^ 64 - 1) ≤ 2 ^ 34 := by
  have hle : p * (2 ^ 64 - 1) ≤ threshold p := Nat.le_ceil _
  have hbound := (notBelow_iff p).mp h.notBelow
  obtain ⟨hu, -⟩ := (fractionBelow_iff hbound).mp h.fraction
  have hnat : countBefore (threshold p) * (2 ^ 64 - 1) ≤
      2 ^ 32 * (2 ^ 64 - 1) + 2 ^ 62 * threshold p := by
    have hq : (countBefore (threshold p) : ℚ) * (2 ^ 64 - 1) ≤
        2 ^ 32 * (2 ^ 64 - 1) + 2 ^ 62 * threshold p := by linarith
    norm_num at hq ⊢
    exact_mod_cast hq
  rcases of_countBefore_le hbound hnat with hN | ⟨hN, hcount⟩
  · exact .inl (hle.trans (by exact_mod_cast hN))
  · rw [hcount] at hu
    refine .inr ⟨?_, hle.trans (by exact_mod_cast hN)⟩
    norm_num at hu ⊢
    linarith

/-- A small probability is honoured. -/
theorem honoured_of_small {p : ℚ} (h0 : 0 < p)
    (h : p * (2 ^ 64 - 1) ≤ 14316557653 ∨ 1 ≤ 2 ^ 30 * p ∧ p * (2 ^ 64 - 1) ≤ 2 ^ 34) :
    Honoured p := by
  have hle : p * (2 ^ 64 - 1) ≤ threshold p := Nat.le_ceil _
  have hlt : (threshold p : ℚ) < p * (2 ^ 64 - 1) + 1 := Nat.ceil_lt_add_one (by linarith)
  have hpos : 0 < threshold p := Nat.ceil_pos.mpr (by linarith)
  have hN : threshold p ≤ 2 ^ 34 := by
    rcases h with hp | ⟨-, hp⟩
    · exact (Nat.ceil_le.mpr (by exact_mod_cast hp)).trans (by norm_num)
    · exact Nat.ceil_le.mpr (by exact_mod_cast hp)
  have hbound : threshold p ≤ 2 ^ 63 - 2 ^ 31 - 1 := by omega
  refine ⟨exists_below hpos, (notBelow_iff p).mpr hbound, (fractionBelow_iff hbound).mpr ⟨?_, ?_⟩⟩
  · rcases h with hp | ⟨hp, -⟩
    · have hsmall : threshold p ≤ 14316557653 := Nat.ceil_le.mpr (by exact_mod_cast hp)
      have hnat := countBefore_le hpos hsmall
      have hq : (countBefore (threshold p) : ℚ) * (2 ^ 64 - 1) ≤
          2 ^ 32 * (2 ^ 64 - 1) + 2 ^ 62 * (threshold p - 1) := by
        rw [← Nat.cast_pred hpos]
        norm_num at hnat ⊢
        exact_mod_cast hnat
      linarith
    · have hgap : (countBefore (threshold p) : ℚ) ≤ 2 ^ 33 := by
        exact_mod_cast countBefore_le_gap hN
      linarith
  · have hnat := le_countBefore hN
    have hq : (2 : ℚ) ^ 62 * threshold p ≤ (countBefore (threshold p) + 2 ^ 32) * (2 ^ 64 - 1) := by
      norm_num at hnat ⊢
      exact_mod_cast hnat
    linarith

/-- **Which probabilities are honoured**: those up to about `10 / 3 / 2 ^ 32`, and those between
`4 / 2 ^ 32` and the next number that is drawn. The bit that is never set makes every fraction
twice what it should be, and from one half on there is one outcome only. -/
theorem honoured_iff (p : ℚ) (h0 : 0 < p) :
    ((∃ draws ∈ drawPairs, p ≤ rngUniformReal (rand64Of draws)) ↔
        p * (2 ^ 64 - 1) ≤ 2 ^ 63 - 2 ^ 31 - 1) ∧
      (Honoured p ↔
        p * (2 ^ 64 - 1) ≤ 14316557653 ∨ 1 ≤ 2 ^ 30 * p ∧ p * (2 ^ 64 - 1) ≤ 2 ^ 34) := by
  refine ⟨?_, Honoured.small, honoured_of_small h0⟩
  rw [notBelow_iff, threshold, Nat.ceil_le]
  norm_num

/-- A probability of `2 ^ -40` is honoured as it should be. -/
theorem honoured_small : (0 : ℚ) < 1 / 2 ^ 40 ∧ Honoured (1 / 2 ^ 40) :=
  ⟨by norm_num, (honoured_iff (1 / 2 ^ 40) (by norm_num)).2.mpr (.inl (by norm_num))⟩

/-- One half, the default for protection information, is always met. -/
theorem not_honoured_half : (∀ draws ∈ drawPairs, rngUniformReal (rand64Of draws) < 1 / 2) ∧
    ¬ Honoured (1 / 2) := by
  have hnone : ¬ ∃ draws ∈ drawPairs, (1 / 2 : ℚ) ≤ rngUniformReal (rand64Of draws) := by
    rw [notBelow_iff, threshold, Nat.ceil_le]
    norm_num
  exact ⟨fun draws hdraws => not_le.mp fun hle => hnone ⟨draws, hdraws, hle⟩,
    fun h => hnone h.notBelow⟩

/-! ## Uniform starts -/

/-- A start that the uniform branch of `generate_bio` chooses for a bio, relative to the range of
the job. -/
def Picks (iover : Iover) (job : IogenJob) (bio : Bio) (s : ℕ) : Prop :=
  ∃ rand < nrand48Values, (∀ op ∈ chooseSlbaOps iover job bio rand, op.Ok) ∧
    ∀ jesd219Slba, chooseSlba iover job bio rand jesd219Slba = (true, job, { bio with slba := s })

/-- What a draw chooses. -/
theorem picks_iff_mod {iover : Iover} {job : IogenJob} {bio : Bio}
    (hslba : job.params.slbaType = .uniform) (hR : job.lbaRangeSize < 2 ^ 64)
    (hn : bio.nlbs ≤ job.lbaRangeSize) (s : ℕ) :
    Picks iover job bio s ↔
      bio.nlbs < job.lbaRangeSize ∧
        ∃ rand < nrand48Values, rand % (job.lbaRangeSize - bio.nlbs) = s := by
  have hmod : (job.lbaRangeSize + 2 ^ 64 - bio.nlbs) % 2 ^ 64 = job.lbaRangeSize - bio.nlbs := by
    omega
  refine ⟨?_, ?_⟩
  · rintro ⟨rand, hrand, hops, hpick⟩
    have hpick := hpick 0
    simp only [chooseSlbaOps, hslba, hmod] at hops
    simp only [chooseSlba, hslba, hmod] at hpick
    have hne : job.lbaRangeSize - bio.nlbs ≠ 0 :=
      hops (.mod rand (job.lbaRangeSize - bio.nlbs)) (List.mem_cons_of_mem _ List.mem_cons_self)
    refine ⟨by omega, rand, hrand, ?_⟩
    exact congrArg (fun c : Bool × IogenJob × Bio => c.2.2.slba) hpick
  · rintro ⟨hlt, rand, hrand, rfl⟩
    refine ⟨rand, hrand, ?_, ?_⟩
    · simp only [chooseSlbaOps, hslba, hmod, List.forall_mem_cons]
      exact ⟨hn, by simp only [ArithOp.Ok]; omega, fun _ h => absurd h List.not_mem_nil⟩
    · intro jesd219Slba
      simp only [chooseSlba, hslba, hmod]

/-- **Uniform coverage**: of the starts at which a bio fits, the last is never chosen, nor is any
that has more bits than a draw. -/
theorem picks_iff {iover : Iover} {job : IogenJob} {bio : Bio}
    (hslba : job.params.slbaType = .uniform) (hR : job.lbaRangeSize < 2 ^ 64)
    (hn : bio.nlbs ≤ job.lbaRangeSize) :
    (∀ s ≤ job.lbaRangeSize - bio.nlbs,
        (Picks iover job bio s ↔ s ≠ job.lbaRangeSize - bio.nlbs ∧ s < 2 ^ 31)) ∧
      ¬ ∀ s ≤ job.lbaRangeSize - bio.nlbs, Picks iover job bio s := by
  have hpicks : ∀ s ≤ job.lbaRangeSize - bio.nlbs,
      (Picks iover job bio s ↔ s ≠ job.lbaRangeSize - bio.nlbs ∧ s < 2 ^ 31) := by
    intro s hs
    rw [picks_iff_mod hslba hR hn, nrand48Values_eq]
    refine ⟨?_, fun ⟨hne, hlt⟩ => ⟨by omega, s, hlt, Nat.mod_eq_of_lt (by omega)⟩⟩
    rintro ⟨hlt, rand, hrand, rfl⟩
    exact ⟨(Nat.mod_lt _ (by omega)).ne, (Nat.mod_le _ _).trans_lt hrand⟩
  exact ⟨hpicks, fun hall => ((hpicks _ le_rfl).mp (hall _ le_rfl)).1 rfl⟩

/-- A job with a range of eight LBAs, that chooses them uniformly. -/
def uniformJob : IogenJob :=
  { JobSystem.zeroesJob with params := { JobParams.plain with slbaType := .uniform } }

/-- A read of two LBAs. -/
def twoLbas : Bio := .plain .read 0 2 fun _ => 0

/-- Two LBAs of eight start at the first six. -/
theorem picks_firstSix : uniformJob.lbaRangeSize = 8 ∧ twoLbas.nlbs = 2 ∧
    ∀ s < 6, Picks (Iover.plain .zero) uniformJob twoLbas s := by
  have hslba : uniformJob.params.slbaType = .uniform := rfl
  have hpicks : ∀ s ≤ 6, (Picks (Iover.plain .zero) uniformJob twoLbas s ↔ s ≠ 6 ∧ s < 2 ^ 31) :=
    (@picks_iff (.plain .zero) uniformJob twoLbas hslba (by decide) (by decide)).1
  exact ⟨rfl, rfl, fun s hs => (hpicks s hs.le).mpr ⟨hs.ne, by omega⟩⟩

/-- And not at the seventh, where they would fit. -/
theorem not_picks_last : 6 + twoLbas.nlbs ≤ uniformJob.lbaRangeSize ∧
    ¬ Picks (Iover.plain .zero) uniformJob twoLbas 6 := by
  refine ⟨by decide, ?_⟩
  intro h
  obtain ⟨_, rand, _, hmod⟩ := (picks_iff_mod rfl (by decide) (by decide) 6).mp h
  have hsize : uniformJob.lbaRangeSize - twoLbas.nlbs = 6 := rfl
  have hlt := @Nat.mod_lt rand 6 (by decide)
  rw [hsize] at hmod
  omega

end ChamberSpo

import Mathlib.Algebra.Ring.GeomSum
import Mathlib.Data.Nat.Factorization.Basic
import Mathlib.Data.Nat.ModEq
import Mathlib.Tactic.Ring

/-!
# Linear congruential generators

A generator `x ↦ a * x + c` modulo a power of two, with `a` one more than a multiple of four and `c`
odd, of which the bits from some place on are used.

* `Lcg.iterate_mod_iff` — the low `j` bits of the state come back after `2 ^ j` steps, and not
  before.
* `Lcg.card_stride` — of the states at a fixed distance each value of the high bits is had by as many
  as each other.
* `Lcg.reach_iff` — and every value is had by some, unless the distance is too even.
-/

namespace ChamberSpo

namespace Lcg

variable {a c k n : ℕ}

/-- A step, modulo `M`. -/
def next (a c M x : ℕ) : ℕ := (a * x + c) % M

/-- After `n` steps the state is that of `n` steps without reduction. -/
theorem iterate_modEq (a c M n x : ℕ) :
    (next a c M)^[n] x ≡ a ^ n * x + c * ∑ i ∈ Finset.range n, a ^ i [MOD M] := by
  induction n with
  | zero => simpa using Nat.ModEq.refl x
  | succ n ih =>
    rw [Function.iterate_succ_apply']
    have hstep : next a c M ((next a c M)^[n] x) ≡ a * (next a c M)^[n] x + c [MOD M] :=
      Nat.mod_modEq _ _
    refine hstep.trans (((ih.mul_left a).add_right c).trans ?_)
    rw [geom_sum_succ]
    exact congrArg (· % M) (by ring)

theorem iterate_lt {M x : ℕ} (hx : x < M) (n : ℕ) : (next a c M)^[n] x < M := by
  cases n with
  | zero => exact hx
  | succ n =>
    rw [Function.iterate_succ_apply']
    exact Nat.mod_lt _ (by omega)

/-- A sum of powers of `a` is divided by as many twos as the number of its terms. -/
theorem two_pow_dvd_geom (ha : a % 4 = 1) (k n : ℕ) :
    2 ^ k ∣ ∑ i ∈ Finset.range n, a ^ i ↔ 2 ^ k ∣ n := by
  have hpow : ∀ i, a ^ i % 4 = 1 := fun i => by
    rw [Nat.pow_mod, ha, one_pow, Nat.one_mod]
  induction k generalizing n with
  | zero => simp
  | succ k ih =>
    rcases Nat.even_or_odd' n with ⟨m, rfl | rfl⟩
    · -- two halves, the second one `a ^ m` times the first
      have hsplit : ∑ i ∈ Finset.range (2 * m), a ^ i
          = 2 * (∑ i ∈ Finset.range m, a ^ i) * ((1 + a ^ m) / 2) := by
        have htwo : 1 + a ^ m = 2 * ((1 + a ^ m) / 2) := by
          have hm := hpow m
          omega
        calc ∑ i ∈ Finset.range (2 * m), a ^ i
            = (∑ i ∈ Finset.range m, a ^ i) * (1 + a ^ m) := by
              rw [two_mul, Finset.sum_range_add]
              simp only [pow_add, ← Finset.mul_sum]
              ring
          _ = _ := by
              rw [htwo, Nat.mul_div_cancel_left _ two_pos]
              ring
      have hodd : Nat.Coprime (2 ^ k) ((1 + a ^ m) / 2) := by
        refine Nat.Coprime.pow_left k (Nat.coprime_two_left.mpr (Nat.odd_iff.mpr ?_))
        have hm := hpow m
        omega
      rw [hsplit, pow_succ', mul_assoc, Nat.mul_dvd_mul_iff_left two_pos,
        Nat.mul_dvd_mul_iff_left two_pos]
      exact hodd.dvd_mul_right.trans (ih m)
    · -- an odd number of odd terms
      have hsum : (∑ i ∈ Finset.range (2 * m + 1), a ^ i) % 2 = 1 := by
        have hterm : ∀ i, a ^ i % 2 = 1 := fun i => by have hi := hpow i; omega
        rw [Finset.sum_nat_mod, Finset.sum_congr rfl fun i _ => hterm i]
        simp only [Finset.sum_const, Finset.card_range, smul_eq_mul]
        omega
      have htwo : ∀ x, 2 ^ (k + 1) ∣ x → x % 2 = 0 := fun x hx =>
        Nat.mod_eq_zero_of_dvd ((Dvd.intro_left _ (pow_succ 2 k).symm).trans hx)
      refine ⟨fun h => ?_, fun h => ?_⟩
      · have hzero := htwo _ h
        omega
      · have hzero := htwo _ h
        omega

/-! ## The low bits -/

/-- What `d` steps add after `n`, without reduction. -/
theorem unreduced_add (b c x n d : ℕ) :
    (b + 1) ^ (n + d) * x + c * ∑ i ∈ Finset.range (n + d), (b + 1) ^ i
      = (b + 1) ^ n * x + c * ∑ i ∈ Finset.range n, (b + 1) ^ i
        + (b + 1) ^ n * ((∑ i ∈ Finset.range d, (b + 1) ^ i) * (b * x + c)) := by
  rw [Finset.sum_range_add]
  simp only [pow_add, ← Finset.mul_sum]
  rw [← geom_sum_mul_add b d]
  ring

/-- **The low bits go round**: two states have the same low `j` bits when there are as many steps to
both of them modulo `2 ^ j`, and only then. -/
theorem iterate_mod_iff (ha : a % 4 = 1) (hc : c % 2 = 1) {j : ℕ} (hj : j ≤ k) (x n n' : ℕ) :
    (next a c (2 ^ k))^[n] x % 2 ^ j = (next a c (2 ^ k))^[n'] x % 2 ^ j
      ↔ n % 2 ^ j = n' % 2 ^ j := by
  wlog hle : n ≤ n'
  · exact eq_comm.trans ((this ha hc hj x n' n (by omega)).trans eq_comm)
  obtain ⟨d, rfl⟩ := Nat.exists_eq_add_of_le hle
  obtain ⟨b, rfl⟩ : ∃ b, a = b + 1 := ⟨a - 1, by omega⟩
  have hdvd : 2 ^ j ∣ 2 ^ k := Nat.pow_dvd_pow 2 hj
  have hpow : Nat.Coprime (2 ^ j) ((b + 1) ^ n) :=
    (Nat.coprime_two_left.mpr (Nat.odd_iff.mpr (by omega))).pow j n
  have hodd : Nat.Coprime (2 ^ j) (b * x + c) := by
    refine Nat.Coprime.pow_left j (Nat.coprime_two_left.mpr (Nat.odd_iff.mpr ?_))
    rw [Nat.add_mod, Nat.mul_mod, show b % 2 = 0 by omega, hc, Nat.zero_mul]
  have hn := (iterate_modEq (b + 1) c (2 ^ k) n x).of_dvd hdvd
  have hnd := (iterate_modEq (b + 1) c (2 ^ k) (n + d) x).of_dvd hdvd
  rw [unreduced_add] at hnd
  have hvalues : (next (b + 1) c (2 ^ k))^[n] x ≡ (next (b + 1) c (2 ^ k))^[n + d] x [MOD 2 ^ j]
      ↔ 2 ^ j ∣ d := by
    refine ⟨fun h => ?_, fun h => ?_⟩
    · have hsum := (Nat.modEq_iff_dvd' (Nat.le_add_right _ _)).mp (hn.symm.trans (h.trans hnd))
      rw [Nat.add_sub_cancel_left] at hsum
      exact (two_pow_dvd_geom ha j d).mp
        (hodd.dvd_mul_right.mp (hpow.dvd_mul_left.mp hsum))
    · refine hn.trans (((Nat.modEq_iff_dvd' (Nat.le_add_right _ _)).mpr ?_).trans hnd.symm)
      rw [Nat.add_sub_cancel_left]
      exact Dvd.dvd.mul_left (Dvd.dvd.mul_right ((two_pow_dvd_geom ha j d).mpr h) _) _
  have hsteps : n ≡ n + d [MOD 2 ^ j] ↔ 2 ^ j ∣ d := by
    rw [Nat.modEq_iff_dvd' hle, Nat.add_sub_cancel_left]
  exact hvalues.trans hsteps.symm

/-! ## The high bits -/

/-- The numbers below `2 ^ t` in a residue class modulo `2 ^ j`. -/
theorem card_class {j t r : ℕ} (hj : j ≤ t) (hr : r < 2 ^ j) :
    ((Finset.range (2 ^ t)).filter fun y => y % 2 ^ j = r).card = 2 ^ (t - j) := by
  have hsplit : 2 ^ t = 2 ^ j * 2 ^ (t - j) := by rw [← pow_add, Nat.add_sub_cancel' hj]
  have himage : (Finset.range (2 ^ t)).filter (fun y => y % 2 ^ j = r)
      = (Finset.range (2 ^ (t - j))).image fun z => r + 2 ^ j * z := by
    ext y
    simp only [Finset.mem_filter, Finset.mem_range, Finset.mem_image]
    constructor
    · rintro ⟨hy, rfl⟩
      exact ⟨y / 2 ^ j, Nat.div_lt_of_lt_mul (hsplit ▸ hy), Nat.mod_add_div y _⟩
    · rintro ⟨z, hz, rfl⟩
      refine ⟨?_, by rw [Nat.add_mul_mod_self_left, Nat.mod_eq_of_lt hr]⟩
      calc r + 2 ^ j * z < 2 ^ j + 2 ^ j * z := by omega
        _ = 2 ^ j * (z + 1) := by ring
        _ ≤ 2 ^ t := hsplit ▸ Nat.mul_le_mul_left _ hz
  rw [himage, Finset.card_image_of_injective, Finset.card_range]
  intro z z' h
  exact Nat.eq_of_mul_eq_mul_left (Nat.two_pow_pos j) (Nat.add_left_cancel h)

/-- Those of a class whose bits from place `t` on are `v`. -/
theorem card_class_high {j t r v : ℕ} (hj : j ≤ t) (ht : t ≤ k) (hr : r < 2 ^ j)
    (hv : v < 2 ^ (k - t)) :
    ((Finset.range (2 ^ k)).filter fun y => y % 2 ^ j = r ∧ y / 2 ^ t = v).card
      = 2 ^ (t - j) := by
  have hsplit : 2 ^ k = 2 ^ t * 2 ^ (k - t) := by rw [← pow_add, Nat.add_sub_cancel' ht]
  have hdvd : 2 ^ j ∣ 2 ^ t := Nat.pow_dvd_pow 2 hj
  have himage : (Finset.range (2 ^ k)).filter (fun y => y % 2 ^ j = r ∧ y / 2 ^ t = v)
      = ((Finset.range (2 ^ t)).filter fun y => y % 2 ^ j = r).image fun z => 2 ^ t * v + z := by
    ext y
    simp only [Finset.mem_filter, Finset.mem_range, Finset.mem_image]
    constructor
    · rintro ⟨-, hmod, rfl⟩
      exact ⟨y % 2 ^ t, ⟨Nat.mod_lt _ (Nat.two_pow_pos t), by rw [Nat.mod_mod_of_dvd _ hdvd, hmod]⟩,
        Nat.div_add_mod y _⟩
    · rintro ⟨z, ⟨hz, hmod⟩, rfl⟩
      refine ⟨?_, ?_, ?_⟩
      · calc 2 ^ t * v + z < 2 ^ t * v + 2 ^ t := by omega
          _ = 2 ^ t * (v + 1) := by ring
          _ ≤ 2 ^ k := hsplit ▸ Nat.mul_le_mul_left _ hv
      · obtain ⟨q, hq⟩ := hdvd
        rw [hq, mul_assoc, Nat.mul_add_mod, hmod]
      · rw [Nat.mul_add_div (Nat.two_pow_pos t), Nat.div_eq_of_lt hz, Nat.add_zero]
  rw [himage, Finset.card_image_of_injective _ fun z z' h => Nat.add_left_cancel h,
    card_class hj hr]

/-- The states at a distance of `2 ^ j` times an odd number are those of one class. -/
theorem image_stride (ha : a % 4 = 1) (hc : c % 2 = 1) {j q x : ℕ} (hj : j ≤ k) (hq : q % 2 = 1)
    (hx : x < 2 ^ k) (p : ℕ) :
    (Finset.range (2 ^ (k - j))).image (fun i => (next a c (2 ^ k))^[p + 2 ^ j * q * i] x)
      = (Finset.range (2 ^ k)).filter fun y => y % 2 ^ j = (next a c (2 ^ k))^[p] x % 2 ^ j := by
  have hsplit : 2 ^ k = 2 ^ j * 2 ^ (k - j) := by rw [← pow_add, Nat.add_sub_cancel' hj]
  refine Finset.eq_of_subset_of_card_le ?_ ?_
  · intro y hy
    obtain ⟨i, -, rfl⟩ := Finset.mem_image.mp hy
    refine Finset.mem_filter.mpr ⟨Finset.mem_range.mpr (iterate_lt hx _), ?_⟩
    rw [iterate_mod_iff ha hc hj, mul_assoc, Nat.add_mul_mod_self_left]
  · -- no two of them are the same
    rw [card_class hj (Nat.mod_lt _ (Nat.two_pow_pos j)), Finset.card_image_of_injOn,
      Finset.card_range]
    intro i hi i' hi' h
    have hi : i < 2 ^ (k - j) := Finset.mem_range.mp hi
    have hi' : i' < 2 ^ (k - j) := Finset.mem_range.mp hi'
    have hsteps := (iterate_mod_iff ha hc le_rfl x _ _).mp (congrArg (· % 2 ^ k) h)
    have hmul : 2 ^ j * (q * i) ≡ 2 ^ j * (q * i') [MOD 2 ^ j * 2 ^ (k - j)] := by
      rw [← hsplit, ← mul_assoc, ← mul_assoc]
      exact Nat.ModEq.add_left_cancel' p hsteps
    have hcoprime : (2 ^ (k - j)).gcd q = 1 :=
      Nat.Coprime.pow_left _ (Nat.coprime_two_left.mpr (Nat.odd_iff.mpr hq))
    have hmod := Nat.ModEq.cancel_left_of_coprime hcoprime
      (Nat.ModEq.mul_left_cancel' (Nat.two_pow_pos j).ne' hmul)
    rwa [Nat.ModEq, Nat.mod_eq_of_lt hi, Nat.mod_eq_of_lt hi'] at hmod

/-- **Every value of the high bits is had equally often** by the states at a distance of `2 ^ j`
times an odd number, until they come back. -/
theorem card_stride (ha : a % 4 = 1) (hc : c % 2 = 1) {j t q x v : ℕ} (hj : j ≤ t) (ht : t ≤ k)
    (hq : q % 2 = 1) (hx : x < 2 ^ k) (hv : v < 2 ^ (k - t)) (p : ℕ) :
    ((Finset.range (2 ^ (k - j))).filter fun i =>
      (next a c (2 ^ k))^[p + 2 ^ j * q * i] x / 2 ^ t = v).card = 2 ^ (t - j) := by
  have himage := image_stride ha hc (hj.trans ht) hq hx p
  have hinj : Set.InjOn (fun i => (next a c (2 ^ k))^[p + 2 ^ j * q * i] x)
      (Finset.range (2 ^ (k - j))) := by
    refine Finset.injOn_of_card_image_eq ?_
    rw [himage, card_class (hj.trans ht) (Nat.mod_lt _ (Nat.two_pow_pos j)), Finset.card_range]
  rw [← card_class_high hj ht (Nat.mod_lt ((next a c (2 ^ k))^[p] x) (Nat.two_pow_pos j)) hv,
    ← Finset.filter_filter, ← himage, Finset.filter_image,
    Finset.card_image_of_injOn (hinj.mono fun i hi => (Finset.mem_filter.mp hi).1)]

/-- **Which distances reach everything**: every value of the bits from place `t` on is had by some of
the states, unless the distance is a multiple of `2 ^ (t + 1)`. -/
theorem reach_iff (ha : a % 4 = 1) (hc : c % 2 = 1) {t x m : ℕ} (ht : t < k) (hx : x < 2 ^ k)
    (p : ℕ) :
    (∀ v < 2 ^ (k - t), ∃ i, (next a c (2 ^ k))^[p + m * i] x / 2 ^ t = v)
      ↔ ¬ 2 ^ (t + 1) ∣ m := by
  constructor
  · rintro hall ⟨q, rfl⟩
    -- bit `t` is always the same
    have hsame : ∀ i, (next a c (2 ^ k))^[p + 2 ^ (t + 1) * q * i] x / 2 ^ t % 2
        = (next a c (2 ^ k))^[p] x / 2 ^ t % 2 := by
      intro i
      rw [← Nat.mod_mul_right_div_self, ← Nat.mod_mul_right_div_self, ← pow_succ]
      congr 1
      rw [iterate_mod_iff ha hc ht, mul_assoc, Nat.add_mul_mod_self_left]
    have hpow : 2 ≤ 2 ^ (k - t) := Nat.le_self_pow (by omega) 2
    obtain ⟨i, hi⟩ := hall 0 (by omega)
    obtain ⟨i', hi'⟩ := hall 1 (by omega)
    have hzero := hsame i
    have hone := hsame i'
    rw [hi] at hzero
    rw [hi'] at hone
    omega
  · intro hm v hv
    have hne : m ≠ 0 := by
      rintro rfl
      exact hm (dvd_zero _)
    obtain ⟨j, q, hodd, rfl⟩ := Nat.exists_eq_two_pow_mul_odd hne
    have hj : j ≤ t := by
      by_contra hlt
      exact hm (Dvd.dvd.mul_right (Nat.pow_dvd_pow 2 (by omega)) q)
    have hcard := card_stride ha hc hj ht.le (Nat.odd_iff.mp hodd) hx hv p
    obtain ⟨i, hi⟩ := Finset.card_pos.mp (hcard ▸ Nat.two_pow_pos (t - j))
    exact ⟨i, (Finset.mem_filter.mp hi).2⟩

end Lcg

end ChamberSpo

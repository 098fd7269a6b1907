import ChamberSpo.Lcg
import ChamberSpo.Rng

/-!
# The stream of a seed

`nrand48` is a linear congruential generator with 48 bits of state, of which it returns the upper 31.
A job takes its numbers one after another, so those that it uses for one purpose stand at some
distance in the stream.

* `rand48At` — the stream.
* `rand48_reach_iff`, `card_rand48_stride` — which numbers stand at a distance, and how often.
* `drawn_iff` — the starts that a uniform job chooses in the long run.
* `rand48_stream` — all of this, for every seed.
-/

namespace ChamberSpo

/-- `unsigned short seed[3]` of `struct rng`. -/
@[ext]
structure Rng where
  seed0 : BitVec 16
  seed1 : BitVec 16
  seed2 : BitVec 16

/-- The 48 bits. -/
def Rng.value (rng : Rng) : ℕ :=
  rng.seed0.toNat + rng.seed1.toNat * 2 ^ 16 + rng.seed2.toNat * 2 ^ 32

def Rng.ofValue (x : ℕ) : Rng where
  seed0 := BitVec.ofNat 16 x
  seed1 := BitVec.ofNat 16 (x / 2 ^ 16)
  seed2 := BitVec.ofNat 16 (x / 2 ^ 32)

/-- `rng_init` -/
def rngInit (seed : BitVec 64) : Rng where
  seed0 := (seed &&& 0xFFFF).setWidth 16
  seed1 := (seed >>> 16 &&& 0xFFFF).setWidth 16
  seed2 := (seed >>> 32 &&& 0xFFFF).setWidth 16

/-- `nrand48`: what it returns, and the seed after that. -/
def nrand48 (rng : Rng) : ℕ × Rng :=
  let x := Lcg.next 0x5DEECE66D 0xB (2 ^ 48) rng.value
  (x / 2 ^ 17, .ofValue x)

/-- The seed after `n` numbers. -/
def rngAfter (rng : Rng) (n : ℕ) : Rng := (fun rng => (nrand48 rng).2)^[n] rng

/-- The number that `rand48` returns after `n` others. -/
def rand48At (rng : Rng) (n : ℕ) : ℕ := (nrand48 (rngAfter rng n)).1

section Stream

variable {rng : Rng} {p m : ℕ}

theorem Rng.value_lt (rng : Rng) : rng.value < 2 ^ 48 := by
  have h0 := rng.seed0.isLt
  have h1 := rng.seed1.isLt
  have h2 := rng.seed2.isLt
  rw [Rng.value]
  omega

theorem Rng.value_ofValue {x : ℕ} (hx : x < 2 ^ 48) : (Rng.ofValue x).value = x := by
  simp only [Rng.value, Rng.ofValue, BitVec.toNat_ofNat]
  omega

/-- `rng_init` keeps 48 bits of the seed. -/
theorem rngInit_value (seed : BitVec 64) : (rngInit seed).value = seed.toNat % 2 ^ 48 := by
  have hmask : ∀ x : BitVec 64, (x &&& 0xFFFF).toNat = x.toNat % 2 ^ 16 := fun x =>
    BitVec.toNat_and .. |>.trans (Nat.and_two_pow_sub_one_eq_mod x.toNat 16)
  simp only [Rng.value, rngInit, BitVec.toNat_setWidth, hmask, BitVec.toNat_ushiftRight,
    Nat.shiftRight_eq_div_pow]
  omega

theorem rngAfter_value (rng : Rng) (n : ℕ) :
    (rngAfter rng n).value = (Lcg.next 0x5DEECE66D 0xB (2 ^ 48))^[n] rng.value := by
  induction n with
  | zero => rfl
  | succ n ih =>
    rw [rngAfter, Function.iterate_succ_apply', ← rngAfter, Function.iterate_succ_apply', ← ih]
    exact Rng.value_ofValue (Nat.mod_lt _ (by decide))

theorem rand48At_eq (rng : Rng) (n : ℕ) :
    rand48At rng n = (Lcg.next 0x5DEECE66D 0xB (2 ^ 48))^[n + 1] rng.value / 2 ^ 17 := by
  rw [rand48At, nrand48, rngAfter_value, Function.iterate_succ_apply']

theorem rand48At_lt (rng : Rng) (n : ℕ) : rand48At rng n < nrand48Values := by
  rw [rand48At_eq, nrand48Values_eq]
  exact Nat.div_lt_of_lt_mul (Lcg.iterate_lt rng.value_lt _)

/-- **The numbers at a distance** are all numbers, unless the distance is a multiple of `2 ^ 18`. -/
theorem rand48_reach_iff (rng : Rng) (p m : ℕ) :
    (∀ v < nrand48Values, ∃ i, rand48At rng (p + m * i) = v) ↔ ¬ 2 ^ 18 ∣ m := by
  rw [nrand48Values_eq, ← Lcg.reach_iff (k := 48) (t := 17) (a := 0x5DEECE66D) (c := 0xB) (by decide)
    (by decide) (by decide) rng.value_lt (p + 1)]
  simp only [rand48At_eq, Nat.add_right_comm p _ 1]

/-- **And equally often.** -/
theorem card_rand48_stride (rng : Rng) (p : ℕ) {j q v : ℕ} (hj : j ≤ 17) (hq : q % 2 = 1)
    (hv : v < nrand48Values) :
    ((Finset.range (2 ^ (48 - j))).filter fun i => rand48At rng (p + 2 ^ j * q * i) = v).card
      = 2 ^ (17 - j) := by
  rw [nrand48Values_eq] at hv
  rw [← Lcg.card_stride (k := 48) (a := 0x5DEECE66D) (c := 0xB) (by decide) (by decide) hj (by decide)
    hq rng.value_lt hv (p + 1)]
  simp only [rand48At_eq, Nat.add_right_comm p _ 1]

/-! ## Uniform starts -/

/-- A start that a uniform job chooses for a bio with some of its numbers at a distance of `m`. -/
def Drawn (rng : Rng) (p m : ℕ) (iover : Iover) (job : IogenJob) (bio : Bio) (s : ℕ) : Prop :=
  ∃ i, (∀ op ∈ chooseSlbaOps iover job bio (rand48At rng (p + m * i)), op.Ok) ∧ ∀ jesd219Slba,
    chooseSlba iover job bio (rand48At rng (p + m * i)) jesd219Slba
      = (true, job, { bio with slba := s })

/-- **What some number would choose is chosen** in the long run. -/
theorem drawn_iff (rng : Rng) (p : ℕ) (hm : ¬ 2 ^ 18 ∣ m) {iover : Iover} {job : IogenJob}
    {bio : Bio} (s : ℕ) : Drawn rng p m iover job bio s ↔ Picks iover job bio s := by
  constructor
  · rintro ⟨i, hops, hpick⟩
    exact ⟨_, rand48At_lt rng _, hops, hpick⟩
  · rintro ⟨rand, hrand, hops, hpick⟩
    obtain ⟨i, rfl⟩ := (rand48_reach_iff rng p m).mpr hm rand hrand
    exact ⟨i, hops, hpick⟩

/-- **The stream of every seed**, of which the generator has 48 bits. Of the numbers at a distance of
`m`, from any place on, each of the values of `nrand48` is one, unless `m` is a multiple of `2 ^ 18`;
in a period each is one as often as any other; and so a uniform job that has its numbers at this
distance chooses every start in the long run that some number would choose. -/
theorem rand48_stream (seed : BitVec 64) (p m : ℕ) :
    (rngInit seed).value = seed.toNat % 2 ^ 48 ∧
      ((∀ v < nrand48Values, ∃ i, rand48At (rngInit seed) (p + m * i) = v) ↔ ¬ 2 ^ 18 ∣ m) ∧
      (∀ j ≤ 17, ∀ q, q % 2 = 1 → m = 2 ^ j * q → ∀ v < nrand48Values,
        ((Finset.range (2 ^ (48 - j))).filter fun i =>
          rand48At (rngInit seed) (p + m * i) = v).card = 2 ^ (17 - j)) ∧
      (¬ 2 ^ 18 ∣ m → ∀ iover job bio s,
        Drawn (rngInit seed) p m iover job bio s ↔ Picks iover job bio s) := by
  refine ⟨rngInit_value seed, rand48_reach_iff _ p m, ?_, fun hm iover job bio s =>
    drawn_iff _ p hm s⟩
  rintro j hj q hq rfl v hv
  exact card_rand48_stride _ p hj hq hv

/-- A job that has its LBAs free takes two numbers for each bio: each value stands `2 ^ 16` times
among the second ones. -/
theorem rand48_stream_two : ∀ v < nrand48Values,
    ((Finset.range (2 ^ 47)).filter fun i => rand48At (rngInit 0) (1 + 2 * i) = v).card
      = 2 ^ 16 :=
  (rand48_stream 0 1 2).2.2.1 1 (by decide) 1 rfl rfl

end Stream

end ChamberSpo

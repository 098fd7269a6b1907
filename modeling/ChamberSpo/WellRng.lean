import ChamberSpo.Jesd219
import ChamberSpo.Transition
import Mathlib.Data.Finite.Prod
import Mathlib.Data.Fintype.Pi
import Mathlib.Dynamics.PeriodicPts.Lemmas

/-!
# The random numbers of the JEDEC workload

`WELLRNG512` with the 64-bit words that `unsigned long` has, and `jesd219_gen` with the state that
all jobs of the process share.

* `wellNext_injective` — no state is reached from two.
* `WellStep` — the calls of `jesd219_gen`, of any jobs in any order, one after another: nothing locks
  the state. `jesd219Call_spec` says that each of them picks what `jesd219Gen` does with the words it
  takes.
* `wellRun_cycle` — the generator goes round the cycle of its seed, and never sticks at zero.
-/

namespace ChamberSpo

open Function

/-! ## The generator -/

instance neZero_sixteen : NeZero 16 := ⟨by decide⟩

/-- `state` and `__index`, which is kept below 16. -/
@[ext]
structure WellState where
  state : Fin 16 → BitVec 64
  index : Fin 16

/-- `WELLRNG512`: the word that it returns, and the state after that. -/
def wellrng512 (s : WellState) : BitVec 64 × WellState :=
  let a := s.state s.index
  let c := s.state (s.index + 13)
  let b := a ^^^ c ^^^ a <<< 16 ^^^ c <<< 15
  let c := s.state (s.index + 9)
  let c := c ^^^ c >>> 11
  let a := b ^^^ c
  let state := update s.state s.index a
  let d := a ^^^ (a <<< 5 &&& 0xDA442D20)
  let index := s.index + 15
  let a := state index
  let word := a ^^^ b ^^^ d ^^^ a <<< 2 ^^^ b <<< 18 ^^^ c <<< 28
  (word, ⟨update state index word, index⟩)

/-- The state after a call. -/
def wellNext (s : WellState) : WellState := (wellrng512 s).2

/-- What the first call of `jesd219_gen` makes of the seed of its job. -/
def wellSeeded (seed : BitVec 32) : WellState where
  state k := (seed + BitVec.ofNat 32 k).setWidth 64
  index := 0

section Shift

variable {w k : ℕ} {x y z : BitVec w}

theorem eq_zero_of_shiftLeft_eq (hk : 0 < k) (h : z <<< k = z) : z = 0 := by
  have hall : ∀ n, z <<< (k * n) = z := by
    intro n
    induction n with
    | zero => exact BitVec.shiftLeft_zero z
    | succ n ih => rw [Nat.mul_succ, BitVec.shiftLeft_add, ih, h]
  rw [← hall w]
  exact BitVec.shiftLeft_eq_zero (Nat.le_mul_of_pos_left w hk)

/-- Adding a word to a shifted copy of itself loses nothing. -/
theorem eq_of_xor_shiftLeft (hk : 0 < k) (h : x ^^^ x <<< k = y ^^^ y <<< k) : x = y := by
  have hz : (x ^^^ y) <<< k = x ^^^ y := by
    rw [BitVec.shiftLeft_xor_distrib, ← BitVec.xor_right_inj (x ^^^ y <<< k)]
    calc x ^^^ y <<< k ^^^ (x <<< k ^^^ y <<< k) = x ^^^ x <<< k := by
          rw [BitVec.xor_comm (x <<< k), ← BitVec.xor_assoc, BitVec.xor_assoc x, BitVec.xor_self,
            BitVec.xor_zero]
      _ = y ^^^ y <<< k := h
      _ = x ^^^ y <<< k ^^^ (x ^^^ y) := by
          rw [BitVec.xor_comm x (y <<< k), BitVec.xor_assoc, ← BitVec.xor_assoc x, BitVec.xor_self,
            BitVec.zero_xor, BitVec.xor_comm]
  exact BitVec.xor_eq_zero_iff.mp (eq_zero_of_shiftLeft_eq hk hz)

theorem xor_gather₂ (x y p q : BitVec w) : x ^^^ p ^^^ y ^^^ q = x ^^^ y ^^^ (p ^^^ q) := by
  rw [BitVec.xor_assoc x p y, BitVec.xor_comm p y, ← BitVec.xor_assoc x y p, BitVec.xor_assoc]

theorem xor_gather₄ (x y p q r v : BitVec w) :
    x ^^^ p ^^^ q ^^^ y ^^^ r ^^^ v = x ^^^ y ^^^ (p ^^^ q ^^^ r ^^^ v) := by
  rw [BitVec.xor_assoc x p q, BitVec.xor_assoc, xor_gather₂, BitVec.xor_assoc (p ^^^ q)]

end Shift

namespace WellState

variable (s : WellState)

/-- `b` of `WELLRNG512`. -/
def mixA : BitVec 64 :=
  s.state s.index ^^^ s.state (s.index + 13) ^^^ s.state s.index <<< 16
    ^^^ s.state (s.index + 13) <<< 15

/-- `c` of `WELLRNG512`, the second time. -/
def mixB : BitVec 64 := s.state (s.index + 9) ^^^ s.state (s.index + 9) >>> 11

/-- `d` of `WELLRNG512`. -/
def temper : BitVec 64 :=
  (s.mixA ^^^ s.mixB) ^^^ ((s.mixA ^^^ s.mixB) <<< 5 &&& 0xDA442D20)

end WellState

theorem index_ne (i : Fin 16) : i + 15 ≠ i := by omega

/-- What a call makes of each word. -/
theorem wellNext_state (s : WellState) (k : Fin 16) :
    (wellNext s).state k = if k = s.index + 15 then
        s.state (s.index + 15) ^^^ s.mixA ^^^ s.temper ^^^ s.state (s.index + 15) <<< 2
          ^^^ s.mixA <<< 18 ^^^ s.mixB <<< 28
      else if k = s.index then s.mixA ^^^ s.mixB else s.state k := by
  simp only [wellNext, wellrng512, update_apply, if_neg (index_ne s.index)]
  rfl

/-- **No state is reached from two.** -/
theorem wellNext_injective : Injective wellNext := by
  intro s t h
  have hindex : s.index = t.index := add_right_cancel (congrArg WellState.index h)
  have hstate : ∀ k, (wellNext s).state k = (wellNext t).state k := fun k => by rw [h]
  simp only [wellNext_state, ← hindex] at hstate
  -- fourteen of the words stay
  have hkept : ∀ k, k ≠ s.index + 15 → k ≠ s.index → s.state k = t.state k := by
    intro k hlast hfirst
    have hk := hstate k
    rwa [if_neg hlast, if_neg hlast, if_neg hfirst, if_neg hfirst] at hk
  have h13 : s.state (s.index + 13) = t.state (s.index + 13) := hkept _ (by omega) (by omega)
  have h9 : s.state (s.index + 9) = t.state (s.index + 9) := hkept _ (by omega) (by omega)
  have hmixB : s.mixB = t.mixB := by rw [WellState.mixB, WellState.mixB, ← hindex, h9]
  -- the word at the index gives `b`, and that gives what was there
  have hmixA : s.mixA = t.mixA := by
    have hfirst := hstate s.index
    rw [if_neg (index_ne s.index).symm, if_neg (index_ne s.index).symm, if_pos rfl, if_pos rfl,
      hmixB] at hfirst
    exact (BitVec.xor_left_inj t.mixB).mp hfirst
  have hfirst : s.state s.index = t.state s.index := by
    have hb := hmixA
    rw [WellState.mixA, WellState.mixA, ← hindex, h13] at hb
    refine eq_of_xor_shiftLeft (k := 16) (by decide) ?_
    rw [xor_gather₂, xor_gather₂] at hb
    exact (BitVec.xor_left_inj _).mp hb
  -- the same for the word before it
  have htemper : s.temper = t.temper := by rw [WellState.temper, WellState.temper, hmixA, hmixB]
  have hlast : s.state (s.index + 15) = t.state (s.index + 15) := by
    have hword := hstate (s.index + 15)
    rw [if_pos rfl, if_pos rfl, hmixA, hmixB, htemper] at hword
    refine eq_of_xor_shiftLeft (k := 2) (by decide) ?_
    rw [xor_gather₄, xor_gather₄] at hword
    exact (BitVec.xor_left_inj _).mp hword
  refine WellState.ext (funext fun k => ?_) hindex
  by_cases hk : k = s.index + 15
  · rw [hk, hlast]
  · by_cases hk' : k = s.index
    · rw [hk', hfirst]
    · exact hkept k hk hk'

/-! ## The cycle of a seed -/

instance : Finite WellState := by
  refine Finite.of_injective
    (fun s : WellState => ((fun k => (s.state k).toFin : Fin 16 → Fin (2 ^ 64)), s.index)) ?_
  intro s t h
  obtain ⟨hstate, hindex⟩ := Prod.mk.inj h
  exact WellState.ext (funext fun k => BitVec.toFin_inj.mp (congrFun hstate k)) hindex

/-- All words are zero: the generator would return nothing but zero from then on. -/
def WellState.Zero (s : WellState) : Prop := ∀ k, s.state k = 0

theorem WellState.Zero.next {s : WellState} (h : s.Zero) : (wellNext s).Zero := by
  intro k
  have hmixA : s.mixA = 0 := by simp [WellState.mixA, h _]
  have hmixB : s.mixB = 0 := by simp [WellState.mixB, h _]
  have htemper : s.temper = 0 := by simp [WellState.temper, hmixA, hmixB]
  rw [wellNext_state, hmixA, hmixB, htemper, h, h]
  simp

theorem WellState.Zero.iterate {s : WellState} (h : s.Zero) (n : ℕ) : (wellNext^[n] s).Zero := by
  induction n with
  | zero => exact h
  | succ n ih =>
    rw [iterate_succ_apply']
    exact ih.next

/-- Of two words that follow each other in the seeded state one is not zero. -/
theorem wellSeeded_ne_zero (seed : BitVec 32) : ¬ (wellSeeded seed).Zero := by
  intro h
  have h0 : (seed + BitVec.ofNat 32 0).setWidth 64 = 0 := h 0
  have h1 : (seed + BitVec.ofNat 32 1).setWidth 64 = 0 := h 1
  have hnat : ∀ x : BitVec 32, x.setWidth 64 = 0 → x.toNat = 0 := by
    intro x hx
    have hx := congrArg BitVec.toNat hx
    rwa [BitVec.toNat_setWidth, Nat.mod_eq_of_lt (by omega)] at hx
  have hn0 := hnat _ h0
  have hn1 := hnat _ h1
  rw [BitVec.toNat_add, BitVec.toNat_ofNat] at hn0 hn1
  omega

theorem wellSeeded_injective : Injective wellSeeded := by
  intro a b h
  have h0 := congrFun (congrArg WellState.state h) 0
  have hnat := congrArg BitVec.toNat h0
  simp only [wellSeeded, BitVec.toNat_setWidth, BitVec.toNat_add, BitVec.toNat_ofNat, Fin.val_zero,
    Nat.zero_mod, Nat.add_zero] at hnat
  exact BitVec.eq_of_toNat_eq (by omega)

/-- A state on the way that the generator goes round and round from a seed. -/
structure OnCycle (seed : BitVec 32) (s : WellState) : Prop where
  reached : ∃ n, s = wellNext^[n] (wellSeeded seed)
  /-- it comes back to the seed -/
  returns : ∃ n, wellNext^[n] s = wellSeeded seed
  /-- and to the state itself -/
  periodic : s ∈ periodicPts wellNext
  nonzero : ¬ s.Zero

/-- **Every state that follows a seed** is on the cycle of the seed. -/
theorem onCycle_iterate (seed : BitVec 32) (n : ℕ) :
    OnCycle seed (wellNext^[n] (wellSeeded seed)) := by
  have hreturns : ∃ m, wellNext^[m] (wellNext^[n] (wellSeeded seed)) = wellSeeded seed := by
    obtain ⟨p, hpos, hp⟩ := mem_periodicPts.mp (wellNext_injective.mem_periodicPts (wellSeeded seed))
    refine ⟨p * n - n, ?_⟩
    rw [← iterate_add_apply, Nat.sub_add_cancel (Nat.le_mul_of_pos_left n hpos)]
    exact hp.mul_const n
  refine ⟨⟨n, rfl⟩, hreturns, wellNext_injective.mem_periodicPts _, ?_⟩
  intro hzero
  obtain ⟨m, hm⟩ := hreturns
  exact wellSeeded_ne_zero seed (hm ▸ hzero.iterate m)

/-! ## The calls -/

/-- The word that comes after `n` others. -/
def wellWord (s : WellState) (n : ℕ) : ℕ := (wellrng512 (wellNext^[n] s)).1.toNat

/-- The loop of `jesd219_gen`, for some rounds: what it picks, and the state after that. -/
def jesd219Rounds (group : LbaGroup) (sectorSize nlbs : ℕ) :
    ℕ → WellState → Option ((ℕ × ℕ) × WellState)
  | 0, _ => none
  | fuel + 1, s =>
    let (start, s₁) := wellrng512 s
    let (payload, s₂) := wellrng512 s₁
    match jesd219Round group sectorSize (start.toNat, payload.toNat) with
    | none => none
    | some (slba, nbls) =>
      if slba + nbls ≤ nlbs then some ((slba, nbls), s₂)
      else jesd219Rounds group sectorSize nlbs fuel s₂

/-- `jesd219_gen` from a seeded state, with a loop of no more than `fuel` rounds. -/
def jesd219Call (outside : ℕ → BitVec 32) (nlbs sectorSize fuel : ℕ) (s : WellState) :
    Option ((ℕ × ℕ) × WellState) :=
  let (word, s) := wellrng512 s
  jesd219Rounds (lbaGroup outside nlbs (getLbaGrpIdx (word.toNat % 100))) sectorSize nlbs fuel s

/-- The words of `m` rounds. -/
def wellRounds (s : WellState) (m : ℕ) : List (ℕ × ℕ) :=
  (List.range m).map fun k => (wellWord s (2 * k), wellWord s (2 * k + 1))

/-- The words of the first round, and of the rounds after that. -/
theorem wellRounds_succ (s : WellState) (m : ℕ) :
    wellRounds s (m + 1)
      = (wellWord s 0, wellWord s 1) :: wellRounds (wellNext^[2] s) m := by
  rw [wellRounds, List.range_succ_eq_map, List.map_cons, List.map_map]
  rfl

/-- The loop takes two words for each of its rounds, one after another. -/
theorem jesd219Rounds_spec {group : LbaGroup} {sectorSize nlbs fuel : ℕ} {s s' : WellState}
    {picked : ℕ × ℕ} (h : jesd219Rounds group sectorSize nlbs fuel s = some (picked, s')) :
    ∃ m ≤ fuel, s' = wellNext^[2 * m] s ∧
      jesd219Loop group sectorSize nlbs (wellRounds s m) = some picked := by
  induction fuel generalizing s with
  | zero => cases h
  | succ fuel ih =>
    simp only [jesd219Rounds] at h
    split at h
    · cases h
    · rename_i slba nbls hround
      have hround : jesd219Round group sectorSize (wellWord s 0, wellWord s 1)
          = some (slba, nbls) := hround
      split at h
      · rename_i hfits
        obtain ⟨rfl, rfl⟩ := Prod.mk.inj (Option.some.inj h)
        refine ⟨1, by omega, rfl, ?_⟩
        rw [wellRounds_succ, jesd219Loop, hround]
        exact if_pos hfits
      · rename_i hfits
        obtain ⟨m, hm, rfl, hloop⟩ := ih h
        refine ⟨m + 1, by omega, ?_, ?_⟩
        · exact (iterate_add_apply wellNext (2 * m) 2 s).symm
        · rw [wellRounds_succ, jesd219Loop, hround]
          exact (if_neg hfits).trans hloop

/-- **A call of `jesd219_gen`** picks what `jesd219Gen` does with the words that it takes. -/
theorem jesd219Call_spec {outside : ℕ → BitVec 32} {nlbs sectorSize fuel : ℕ} {s s' : WellState}
    {picked : ℕ × ℕ} (h : jesd219Call outside nlbs sectorSize fuel s = some (picked, s')) :
    ∃ m ≤ fuel, s' = wellNext^[2 * m + 1] s ∧
      jesd219Gen outside nlbs sectorSize ⟨wellWord s 0, wellRounds (wellNext s) m⟩
        = some picked := by
  obtain ⟨m, hm, rfl, hloop⟩ := jesd219Rounds_spec h
  exact ⟨m, hm, rfl, hloop⟩

/-- A call of `jesd219_gen` that returned. -/
structure WellCall where
  /-- the parameters of the job -/
  seed : BitVec 32
  sectorSize : ℕ
  /-- the size of its namespace -/
  nlbs : ℕ
  /-- the rounds the loop may have had -/
  fuel : ℕ
  /-- `slba` and `nbls` -/
  picked : ℕ × ℕ

/-- A call by any job, from its begin to its end: the threads of two jobs are not in `jesd219_gen` at
the same time. The state is not there until the first one seeds it. -/
inductive WellStep (outside : ℕ → BitVec 32) (o : Option WellState) :
    WellCall → Option WellState → Prop
  | call (c : WellCall) (s : WellState) :
    jesd219Call outside c.nlbs c.sectorSize c.fuel (o.getD (wellSeeded c.seed))
      = some (c.picked, s) →
    WellStep outside o c (some s)

/-- What a call picked is what `jesd219Gen` does with words that follow each other from a seed. -/
def DrawnFrom (outside : ℕ → BitVec 32) (seed : BitVec 32) (c : WellCall) : Prop :=
  ∃ n m, jesd219Gen outside c.nlbs c.sectorSize
    ⟨wellWord (wellSeeded seed) n, wellRounds (wellNext^[n + 1] (wellSeeded seed)) m⟩ = some c.picked

section Run

variable {outside : ℕ → BitVec 32} {seed : BitVec 32} {o o' : Option WellState} {c : WellCall}
  {cs : List WellCall}

/-- A call goes on from where the generator is. -/
theorem WellStep.drawnFrom (seed : BitVec 32) {n : ℕ} (h : WellStep outside o c o')
    (ho : o.getD (wellSeeded c.seed) = wellNext^[n] (wellSeeded seed)) :
    DrawnFrom outside seed c ∧ ∃ k, o' = some (wellNext^[k] (wellSeeded seed)) := by
  cases h with
  | call s h =>
    rw [ho] at h
    obtain ⟨m, -, rfl, hpicked⟩ := jesd219Call_spec h
    rw [← iterate_succ_apply' wellNext] at hpicked
    exact ⟨⟨n, m, hpicked⟩, _, congrArg some (iterate_add_apply wellNext (2 * m + 1) n _).symm⟩

theorem wellRun_drawnFrom (h : Run (WellStep outside) o cs o') {n : ℕ}
    (ho : o = some (wellNext^[n] (wellSeeded seed))) :
    (∃ k, o' = some (wellNext^[k] (wellSeeded seed))) ∧ ∀ c ∈ cs, DrawnFrom outside seed c := by
  induction h generalizing n with
  | nil o => exact ⟨⟨n, ho⟩, nofun⟩
  | cons hst hrun ih =>
    obtain ⟨hc, k, hk⟩ := hst.drawnFrom seed (n := n) (by rw [ho, Option.getD_some])
    obtain ⟨hlast, hcs⟩ := ih hk
    exact ⟨hlast, List.forall_mem_cons.mpr ⟨hc, hcs⟩⟩

/-- **The words of a process are those of one seed**, which is that of the job that is first to call
`jesd219_gen`: after any calls of any jobs, one after another, the generator is on the cycle of this
seed, where it comes back to every state and never sticks at zero; every call picked what its own
part of the stream says; and no other seed leads to the same state after as many words. -/
theorem wellRun_cycle {s : WellState} (h : Run (WellStep outside) none (c :: cs) (some s)) :
    OnCycle c.seed s ∧ (∀ c' ∈ c :: cs, DrawnFrom outside c.seed c') ∧
      ∀ seed ≠ c.seed, ∀ n, wellNext^[n] (wellSeeded seed) ≠ wellNext^[n] (wellSeeded c.seed) := by
  cases h with
  | cons hst hrun =>
    obtain ⟨hc, k, hk⟩ := hst.drawnFrom c.seed (n := 0) rfl
    obtain ⟨⟨n, hn⟩, hcs⟩ := wellRun_drawnFrom hrun hk
    obtain rfl := Option.some.inj hn
    refine ⟨onCycle_iterate c.seed n, List.forall_mem_cons.mpr ⟨hc, hcs⟩, ?_⟩
    intro seed hne n heq
    exact hne (wellSeeded_injective (wellNext_injective.iterate n heq))

/-- The job has seed 0 and a namespace of 1000 blocks of 4096 bytes. -/
theorem wellRun_cycle_zero : ∃ (c : WellCall) (s : WellState),
    c.seed = 0 ∧ Run (WellStep fun _ => 0) none [c] (some s) ∧ ¬ s.Zero := by
  obtain ⟨⟨picked, s⟩, h⟩ := Option.isSome_iff_exists.mp
    (show (jesd219Call (fun _ => 0) 1000 sizeOfSector4k 1 (wellSeeded 0)).isSome by decide +kernel)
  have hrun : Run (WellStep fun _ => 0) none [⟨0, sizeOfSector4k, 1000, 1, picked⟩] (some s) :=
    .single (.call _ s h)
  exact ⟨_, s, rfl, hrun, (wellRun_cycle hrun).1.nonzero⟩

end Run

end ChamberSpo

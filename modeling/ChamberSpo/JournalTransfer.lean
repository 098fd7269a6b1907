import Mathlib.Data.Int.Order.Basic
import Mathlib.Data.Nat.Find
import ChamberSpo.Journal

/-!
# The calls that transfer a journal

A journal that is not mapped is read by a loop over `pread` and written by one over `pwrite`. Both
add what a call returned to an offset of 64 bits without a sign, also the `-1` of a call that
failed, and look for an error with `read_size < 0`, which no unsigned number is.

* `Transfers` — what the calls return, one after the other: at most what is there, `0` at the end
  of the file, `-1` after an error.
* `loadLoop`, `storeLoop` — the loops, and `initAfterLoad` what `iover_init` does behind its loop.
* `journalTransfersRight_iff` — the loops terminate, and all of the journal is loaded or an error
  returned, exactly when no call fails where nothing was read and the results reach the size. A
  journal file that is too short is never loaded (`Transfers.not_complete`).

`transferLoop` of `ChamberSpo.Journal` is the loop whose calls all transfer something
(`loadLoop_eq_transferLoop`).
-/

namespace ChamberSpo

/-! ## The results of the calls -/

/-- The sum of the first results. -/
def transferred (result : ℕ → ℤ) : ℕ → ℤ
  | 0 => 0
  | k + 1 => transferred result k + result k

/-- What `pread` or `pwrite` return, called again and again behind what was transferred so far, with
`limit` bytes that can be transferred. -/
structure Transfers (limit : ℕ) where
  result : ℕ → ℤ
  /-- `-1` is an error -/
  ge : ∀ k, -1 ≤ result k
  le : ∀ k, 0 ≤ transferred result k → result k ≤ limit - transferred result k

/-- All bytes of the size are transferred before a call fails at the first byte. -/
def Transfers.Complete {limit : ℕ} (t : Transfers limit) (size : ℕ) : Prop :=
  ∃ n, size ≤ transferred t.result n ∧ ∀ m < n, 0 ≤ transferred t.result m

/-- The size is reached, or a call fails at the first byte. -/
def Transfers.Ends {limit : ℕ} (t : Transfers limit) (size : ℕ) : Prop :=
  ∃ n, transferred t.result n < 0 ∨ size ≤ transferred t.result n

/-! ## The loops -/

/-- The loop of `iover_exit`; with no fuel left it has not ended. A failed call is only logged. -/
def storeLoop (size : BitVec 64) (base : Buf) (result : ℕ → ℤ) :
    ℕ → ℕ → BitVec 64 → Buf → Option Buf
  | 0, _, _, _ => none
  | fuel + 1, k, offset, file =>
    if offset < size then
      storeLoop size base result fuel (k + 1) (offset + BitVec.ofInt 64 (result k))
        (file.copy offset.toNat (base.shift offset.toNat) (result k).toNat)
    else some file

/-- The loop of `iover_init`, with the `errno` of a call that failed. -/
def loadLoop (size : BitVec 64) (file : Buf) (result : ℕ → ℤ) (errno : ℤ) :
    ℕ → ℕ → BitVec 64 → Buf → Option (Except ℤ Buf)
  | 0, _, _, _ => none
  | fuel + 1, k, offset, base =>
    if offset < size then
      let readSize := BitVec.ofInt 64 (result k)
      if readSize < 0 then some (.error errno)
      else loadLoop size file result errno fuel (k + 1) (offset + readSize)
        (base.copy offset.toNat (file.shift offset.toNat) (result k).toNat)
    else some (.ok base)

/-- What `iover_init` holds. -/
structure InitHeld where
  /-- the lock bitmap -/
  lbaLock : Bool
  /-- `journal.base` -/
  base : Bool
  /-- `journal.fd` -/
  fd : Bool
  deriving DecidableEq

/-- What `iover_init` returns and still holds. -/
structure InitResult where
  res : ℤ
  held : InitHeld

/-- The label `error`, for a journal file that is not mapped. -/
def initError (res : ℤ) : InitResult where
  res := res
  held := { lbaLock := false, base := false, fd := false }

/-- `iover_init` behind its loop. -/
def initAfterLoad (ns : NamespaceInfo) : Except ℤ Buf → InitResult
  | .error errno => initError errno
  | .ok base =>
    if (validateJournal ns base).isSome then initError (-1)
    else { res := 0, held := { lbaLock := true, base := true, fd := true } }

/-- `journal.size` -/
def journalSize (ns : NamespaceInfo) : BitVec 64 := BitVec.ofNat 64 (getJournalSize ns)

/-- **The journal is loaded**, or an error returned and nothing held, whatever the buffer holds at
first. -/
def LoadRight (ns : NamespaceInfo) (file : Buf) {limit : ℕ} (reads : Transfers limit) (errno : ℤ) :
    Prop :=
  ∀ heap, ∃ fuel loaded,
    loadLoop (journalSize ns) file reads.result errno fuel 0 0 heap = some loaded ∧
      ((∃ base, loaded = .ok base ∧ ∀ i < (journalSize ns).toNat, base i = file i) ∨
        (∃ e, loaded = .error e) ∧ (initAfterLoad ns loaded).res ≠ 0 ∧
          (initAfterLoad ns loaded).held = { lbaLock := false, base := false, fd := false })

/-- **The loop of `iover_exit` terminates**, whatever it writes. -/
def StoreEnds (ns : NamespaceInfo) {limit : ℕ} (writes : Transfers limit) : Prop :=
  ∀ base file, ∃ fuel file',
    storeLoop (journalSize ns) base writes.result fuel 0 0 file = some file'

/-! ## How far the loops come -/

section Loops

variable {limit : ℕ} {t : Transfers limit} {size : BitVec 64} {src dst : Buf} {n fuel : ℕ}

/-- Nothing is transferred behind the limit. -/
theorem Transfers.le_limit (hpos : ∀ m < n, 0 ≤ transferred t.result m) :
    transferred t.result n ≤ limit := by
  cases n with
  | zero => exact Int.natCast_nonneg limit
  | succ n =>
    have hle := t.le n (hpos n n.lt_succ_self)
    rw [transferred]
    omega

/-- One step back is the furthest. -/
theorem Transfers.neg_one_le (hpos : ∀ m < n, 0 ≤ transferred t.result m) :
    -1 ≤ transferred t.result n := by
  cases n with
  | zero => exact Int.neg_nonpos_of_nonneg Int.one_nonneg
  | succ n =>
    have hprev := hpos n n.lt_succ_self
    have hge := t.ge n
    rw [transferred]
    omega

/-- The check of the loops: `-1` is the largest offset. -/
theorem ofInt_lt_iff {z : ℤ} (hge : -1 ≤ z) (hle : z ≤ size.toNat) :
    BitVec.ofInt 64 z < size ↔ 0 ≤ z ∧ z < size.toNat := by
  have hsize := size.isLt
  rw [BitVec.lt_def, BitVec.toNat_ofInt]
  omega

/-- The offset, as long as no call has failed at the first byte. -/
theorem toNat_ofInt_of_le {z : ℤ} (hge : 0 ≤ z) (hle : z ≤ size.toNat) :
    (BitVec.ofInt 64 z).toNat = z.toNat := by
  have hsize := size.isLt
  rw [BitVec.toNat_ofInt]
  omega

/-- What the first calls have copied. -/
def copied (result : ℕ → ℤ) (src dst : Buf) : ℕ → Buf
  | 0 => dst
  | n + 1 =>
    (copied result src dst n).copy (transferred result n).toNat
      (src.shift (transferred result n).toNat) (result n).toNat

/-- **The bytes that the first calls have copied** are those before the furthest place. -/
theorem copied_apply (hpos : ∀ m < n, 0 ≤ transferred t.result m) (i : ℕ) :
    copied t.result src dst n i
      = if ∃ m ≤ n, (i : ℤ) < transferred t.result m then src i else dst i := by
  induction n with
  | zero =>
    rw [if_neg]
    · rfl
    · rintro ⟨m, hm, hlt⟩
      obtain rfl := Nat.le_zero.mp hm
      exact absurd hlt (Int.not_lt.mpr (Int.natCast_nonneg i))
  | succ n ih =>
    have hn := hpos n n.lt_succ_self
    rw [copied]
    by_cases hin : (transferred t.result n).toNat ≤ i
        ∧ i < (transferred t.result n).toNat + (t.result n).toNat
    · obtain ⟨j, rfl⟩ := Nat.exists_eq_add_of_le hin.1
      rw [Buf.copy_in (by omega), Buf.shift_apply, if_pos]
      refine ⟨n + 1, le_rfl, ?_⟩
      rw [transferred]
      omega
    · rw [Buf.copy_out (by omega), ih fun m hm => hpos m (by omega)]
      congr 1
      rw [eq_iff_iff]
      refine ⟨?_, ?_⟩
      · rintro ⟨m, hm, hlt⟩
        exact ⟨m, by omega, hlt⟩
      · rintro ⟨m, hm, hlt⟩
        rcases Nat.lt_or_ge n m with hgt | hle
        · -- the last call did not come further
          obtain rfl : m = n + 1 := by omega
          refine ⟨n, le_rfl, ?_⟩
          rw [transferred] at hlt
          omega
        · exact ⟨m, hle, hlt⟩

/-- The loop after some calls, none of which ended it. -/
theorem storeLoop_add
    (hrun : ∀ m < n, 0 ≤ transferred t.result m ∧ transferred t.result m < size.toNat) :
    storeLoop size src t.result (n + fuel) 0 0 dst
      = storeLoop size src t.result fuel n (BitVec.ofInt 64 (transferred t.result n))
          (copied t.result src dst n) := by
  induction n generalizing fuel with
  | zero =>
    rw [Nat.zero_add]
    rfl
  | succ n ih =>
    obtain ⟨hge, hlt⟩ := hrun n n.lt_succ_self
    have hoffset := (ofInt_lt_iff (by omega) (by omega)).mpr ⟨hge, hlt⟩
    rw [Nat.add_right_comm, Nat.add_assoc, ih fun m hm => hrun m (by omega), storeLoop,
      if_pos hoffset, toNat_ofInt_of_le hge (Int.le_of_lt hlt), ← BitVec.ofInt_add]
    rfl

/-- A loop whose offset stays in the journal has not ended. -/
theorem storeLoop_eq_none
    (hrun : ∀ m < fuel, 0 ≤ transferred t.result m ∧ transferred t.result m < size.toNat) :
    storeLoop size src t.result fuel 0 0 dst = none := by
  have hnone : storeLoop size src t.result (fuel + 0) 0 0 dst = _ := storeLoop_add hrun
  rwa [Nat.add_zero, storeLoop] at hnone

/-- **A loop that ends**: the first place that is not in the journal. -/
theorem storeLoop_eq_some_iff (hlimit : limit ≤ size.toNat)
    (hrun : ∀ m < n, 0 ≤ transferred t.result m ∧ transferred t.result m < size.toNat)
    (hstop : ¬ (0 ≤ transferred t.result n ∧ transferred t.result n < size.toNat)) {out : Buf} :
    storeLoop size src t.result fuel 0 0 dst = some out
      ↔ n < fuel ∧ out = copied t.result src dst n := by
  rcases Nat.lt_or_ge n fuel with hlt | hge
  · obtain ⟨k, rfl⟩ := Nat.exists_eq_add_of_lt hlt
    have hpos : ∀ m < n, 0 ≤ transferred t.result m := fun m hm => (hrun m hm).1
    have hle : transferred t.result n ≤ size.toNat := by
      have := t.le_limit hpos
      omega
    have hoffset := (ofInt_lt_iff (t.neg_one_le hpos) hle).not.mpr hstop
    rw [Nat.add_assoc, storeLoop_add hrun, storeLoop, if_neg hoffset, Option.some.injEq,
      eq_comm]
    exact (and_iff_right hlt).symm
  · rw [storeLoop_eq_none fun m hm => hrun m (by omega)]
    exact iff_of_false (Option.some_ne_none out).symm fun h => absurd h.1 (by omega)

/-- The first place that is not in the journal. -/
theorem Transfers.Ends.first (h : t.Ends size.toNat) :
    ∃ n, (∀ m < n, 0 ≤ transferred t.result m ∧ transferred t.result m < size.toNat)
      ∧ ¬ (0 ≤ transferred t.result n ∧ transferred t.result n < size.toNat) := by
  have hstop : ∃ n, ¬ (0 ≤ transferred t.result n ∧ transferred t.result n < size.toNat) := by
    obtain ⟨n, hn⟩ := h
    exact ⟨n, by omega⟩
  classical
  refine ⟨Nat.find hstop, ?_, Nat.find_spec hstop⟩
  intro m hm
  exact not_not.mp (Nat.find_min hstop hm)

/-- Results that reach the size stop the loop there. -/
theorem Transfers.Complete.first (h : t.Complete size.toNat) :
    ∃ n, (∀ m < n, 0 ≤ transferred t.result m ∧ transferred t.result m < size.toNat)
      ∧ size.toNat ≤ transferred t.result n := by
  obtain ⟨n, hsize, hpos⟩ := h
  obtain ⟨n₀, hrun, hstop⟩ := Transfers.Ends.first ⟨n, .inr hsize⟩
  refine ⟨n₀, hrun, ?_⟩
  rcases Nat.lt_trichotomy n₀ n with hlt | rfl | hgt
  · have hpos₀ := hpos n₀ hlt
    omega
  · exact hsize
  · have hlt := (hrun n hgt).2
    omega

/-- A loop that stops before the size has not copied the last byte. -/
theorem copied_last
    (hrun : ∀ m < n, 0 ≤ transferred t.result m ∧ transferred t.result m < size.toNat)
    (hshort : transferred t.result n < size.toNat) (hsize : 0 < size.toNat) :
    copied t.result src dst n (size.toNat - 1) = dst (size.toNat - 1) := by
  rw [copied_apply fun m hm => (hrun m hm).1, if_neg]
  rintro ⟨m, hm, hlt⟩
  rcases Nat.lt_or_ge m n with hbefore | hge
  · have hlow := (hrun m hbefore).2
    omega
  · obtain rfl : m = n := by omega
    omega

/-- Where the results do not end the loop. -/
theorem Transfers.not_ends (h : ¬ t.Ends size.toNat) (m : ℕ) :
    0 ≤ transferred t.result m ∧ transferred t.result m < size.toNat := by
  by_contra hstop
  exact h ⟨m, by omega⟩

/-- **The error of a call is never seen**: `read_size < 0` is false. -/
theorem loadLoop_eq (errno : ℤ) (k : ℕ) (offset : BitVec 64) :
    loadLoop size src t.result errno fuel k offset dst
      = (storeLoop size src t.result fuel k offset dst).map .ok := by
  induction fuel generalizing k offset dst with
  | zero => rfl
  | succ fuel ih =>
    rw [loadLoop, storeLoop]
    split
    · have hsign : ¬ BitVec.ofInt 64 (t.result k) < 0 := BitVec.not_lt_zero
      simp only [if_neg hsign]
      exact ih _ _
    · rfl

end Loops

/-! ## When the loops are right -/

section Right

variable {ns : NamespaceInfo} {limit : ℕ}

/-- The loop of `iover_exit` terminates when its offset leaves the journal, at either end. -/
theorem storeEnds_iff (writes : Transfers limit) (hlimit : limit ≤ (journalSize ns).toNat) :
    StoreEnds ns writes ↔ writes.Ends (journalSize ns).toNat := by
  refine ⟨?_, ?_⟩
  · intro hends
    obtain ⟨fuel, file', hout⟩ := hends (fun _ => 0) fun _ => 0
    by_contra hnever
    rw [storeLoop_eq_none fun m _ => Transfers.not_ends hnever m] at hout
    exact absurd hout (Option.some_ne_none file').symm
  · intro hends base file
    obtain ⟨n, hrun, hstop⟩ := hends.first
    exact ⟨n + 1, _, (storeLoop_eq_some_iff hlimit hrun hstop).mpr ⟨n.lt_succ_self, rfl⟩⟩

/-- **The loop of `iover_init`** loads the journal exactly when the results reach its size before a
call fails at the first byte. -/
theorem loadRight_iff (file : Buf) (reads : Transfers limit)
    (hlimit : limit ≤ (journalSize ns).toNat) (errno : ℤ) :
    LoadRight ns file reads errno ↔ reads.Complete (journalSize ns).toNat := by
  refine ⟨?_, ?_⟩
  · intro hright
    -- a buffer that holds none of the bytes of the file
    obtain ⟨fuel, loaded, hloop, hloaded⟩ := hright fun i => ~~~ file i
    rw [loadLoop_eq, Option.map_eq_some_iff] at hloop
    obtain ⟨base, hstore, rfl⟩ := hloop
    have hbytes : ∀ i < (journalSize ns).toNat, base i = file i := by
      rcases hloaded with ⟨b, hb, hbytes⟩ | ⟨⟨e, he⟩, -⟩
      · obtain rfl := Except.ok.inj hb
        exact hbytes
      · cases he
    have hends : reads.Ends (journalSize ns).toNat := by
      by_contra hnever
      rw [storeLoop_eq_none fun m _ => Transfers.not_ends hnever m] at hstore
      exact absurd hstore (Option.some_ne_none base).symm
    obtain ⟨n, hrun, hstop⟩ := hends.first
    obtain ⟨-, rfl⟩ := (storeLoop_eq_some_iff hlimit hrun hstop).mp hstore
    refine ⟨n, ?_, fun m hm => (hrun m hm).1⟩
    by_contra hshort
    have hsize : 0 < (journalSize ns).toNat := by
      cases n with
      | zero =>
        rw [transferred] at hstop hshort
        omega
      | succ n =>
        have hfirst := (hrun 0 n.succ_pos).2
        rw [transferred] at hfirst
        omega
    have hlast := hbytes ((journalSize ns).toNat - 1) (by omega)
    rw [copied_last hrun (by omega) hsize] at hlast
    exact absurd hlast.symm (BitVec.ne_not_self (by omega))
  · intro hcomplete heap
    obtain ⟨n, hrun, hreach⟩ := hcomplete.first
    have hstore : storeLoop (journalSize ns) file reads.result (n + 1) 0 0 heap = some _ :=
      (storeLoop_eq_some_iff hlimit hrun (by omega)).mpr ⟨n.lt_succ_self, rfl⟩
    have hload : loadLoop (journalSize ns) file reads.result errno (n + 1) 0 0 heap
        = some (.ok (copied reads.result file heap n)) := by
      rw [loadLoop_eq, hstore]
      rfl
    refine ⟨n + 1, _, hload, .inl ⟨_, rfl, ?_⟩⟩
    intro i hi
    rw [copied_apply fun m hm => (hrun m hm).1, if_pos ⟨n, le_rfl, by omega⟩]

/-- **A file that is too short** is not loaded, whatever the calls return. -/
theorem Transfers.not_complete (reads : Transfers limit) {size : ℕ} (hshort : limit < size) :
    ¬ reads.Complete size := by
  rintro ⟨n, hsize, hpos⟩
  have := reads.le_limit hpos
  omega

/-- What `iover_init` holds after its loop: everything, or nothing. -/
theorem initAfterLoad_cases (loaded : Except ℤ Buf) :
    (∃ base, loaded = .ok base ∧ validateJournal ns base = none)
      ∨ (initAfterLoad ns loaded).held = { lbaLock := false, base := false, fd := false } := by
  cases loaded with
  | error e => exact .inr rfl
  | ok base =>
    cases hvalid : validateJournal ns base with
    | none => exact .inl ⟨base, rfl, hvalid⟩
    | some e =>
      refine .inr ?_
      rw [initAfterLoad, hvalid]
      rfl

end Right

/-! ## Calls that all transfer something -/

section Positive

variable (io : Transfer) (size : ℕ)

/-- The places of the calls. -/
def Transfer.place : ℕ → ℕ
  | 0 => 0
  | k + 1 => Transfer.place k + io.count (Transfer.place k) (size - Transfer.place k)

variable {io size}

theorem transferred_place (k : ℕ) :
    transferred (fun k => (io.count (io.place size k) (size - io.place size k) : ℤ)) k
      = io.place size k := by
  induction k with
  | zero => rfl
  | succ k ih =>
    rw [transferred, ih, Transfer.place]
    omega

/-- The calls come forward, and not further than the size. -/
theorem Transfer.le_place (io : Transfer) (size k : ℕ) :
    min k size ≤ io.place size k ∧ io.place size k ≤ size := by
  induction k with
  | zero => exact ⟨Nat.min_le_left .., Nat.zero_le size⟩
  | succ k ih =>
    have hle := io.le (io.place size k) (size - io.place size k)
    have hpos := io.pos (io.place size k) (size - io.place size k)
    rw [Transfer.place]
    omega

/-- The results of such calls. -/
def Transfer.transfers (io : Transfer) (size : ℕ) : Transfers size where
  result := fun k => io.count (io.place size k) (size - io.place size k)
  ge := fun k => by omega
  le := fun k _ => by
    have hplace := (io.le_place size k).2
    have hle := io.le (io.place size k) (size - io.place size k)
    rw [transferred_place]
    omega

/-- **The loop of `iover_init` is `transferLoop`** when every call transfers something. -/
theorem loadLoop_eq_transferLoop (ns : NamespaceInfo) (io : Transfer) (file heap : Buf)
    (errno : ℤ) :
    ∃ fuel base, loadLoop (journalSize ns) file (io.transfers (journalSize ns).toNat).result errno
        fuel 0 0 heap = some (.ok base) ∧
      ∀ i < (journalSize ns).toNat,
        base i = transferLoop io (journalSize ns).toNat file heap 0 i := by
  have hcomplete : (io.transfers (journalSize ns).toNat).Complete (journalSize ns).toNat := by
    refine ⟨(journalSize ns).toNat, ?_, ?_⟩
    · have hplace := (io.le_place (journalSize ns).toNat (journalSize ns).toNat).1
      rw [Transfer.transfers, transferred_place]
      omega
    · intro m hm
      rw [Transfer.transfers, transferred_place]
      exact Int.natCast_nonneg _
  obtain ⟨fuel, loaded, hloop, hloaded⟩ := (loadRight_iff file _ le_rfl errno).mpr hcomplete heap
  rcases hloaded with ⟨base, rfl, hbytes⟩ | ⟨⟨e, rfl⟩, -⟩
  · refine ⟨fuel, base, hloop, ?_⟩
    intro i hi
    rw [hbytes i hi, transferLoop_apply, if_pos ⟨Nat.zero_le i, hi⟩]
  · rw [loadLoop_eq, Option.map_eq_some_iff] at hloop
    obtain ⟨b, -, hb⟩ := hloop
    cases hb

end Positive

/-! ## Both loops -/

/-- A journal is loaded and stored as it should be. -/
structure JournalTransfersRight (ns : NamespaceInfo) (file : Buf) (len : ℕ)
    (reads : Transfers (min (journalSize ns).toNat len)) (errno : ℤ)
    (writes : Transfers (journalSize ns).toNat) : Prop where
  load : LoadRight ns file reads errno
  store : StoreEnds ns writes

/-- **Loading and storing a journal**, from a file of any length: both are right exactly when the
results of `pread` reach the size before one fails at the first byte, and those of `pwrite` reach
the size or fail at the first byte. -/
theorem journalTransfersRight_iff (ns : NamespaceInfo) (file : Buf) (len : ℕ)
    (reads : Transfers (min (journalSize ns).toNat len)) (errno : ℤ)
    (writes : Transfers (journalSize ns).toNat) :
    JournalTransfersRight ns file len reads errno writes ↔
      reads.Complete (journalSize ns).toNat ∧ writes.Ends (journalSize ns).toNat := by
  have hload := loadRight_iff file reads (Nat.min_le_left ..) errno
  have hstore := storeEnds_iff writes le_rfl
  refine ⟨?_, ?_⟩
  · intro h
    exact ⟨hload.mp h.load, hstore.mp h.store⟩
  · rintro ⟨hcomplete, hends⟩
    exact ⟨hload.mpr hcomplete, hstore.mpr hends⟩

theorem transferred_zero (k : ℕ) : transferred (fun _ => 0) k = 0 := by
  induction k with
  | zero => rfl
  | succ k ih => rw [transferred, ih, Int.add_zero]

/-- Calls at the end of a file, which return `0`. -/
def Transfers.none (limit : ℕ) : Transfers limit where
  result := fun _ => 0
  ge := fun _ => Int.neg_nonpos_of_nonneg Int.one_nonneg
  le := fun k _ => Int.le_trans (Int.natCast_nonneg limit)
    (Int.le_of_eq (by rw [transferred_zero k, Int.sub_zero]))

/-- A journal file that is empty, as after a crash. -/
theorem not_journalTransfersRight_truncated :
    ¬ JournalTransfersRight (.plain 8 0 eight_lbas_lt no_entry_lt) (fun _ => 0) 0 (.none _) 5
      (.none _) := by
  intro h
  have hcomplete := (loadRight_iff _ _ (Nat.min_le_left ..) _).mp h.load
  exact Transfers.not_complete _ (by decide) hcomplete

end ChamberSpo

import Mathlib.Data.BitVec

/-!
# The SGL entries of a bio

The callbacks that `spdkio.c` hands to the library with a read or a write: `reset_sgl` says where in
the data to begin, and each `next_sge` gives one piece of it. A piece that is as long as a page and
begins inside of one is cut so that it ends with a page.

* `sgeLength` — the length of a piece, over the numbers. `nextSge_spec`: the words agree with it.
* `sglEntries` — the pieces that the library asks for.
* `sglEntries_tile` — together they are the bytes of the data, one after the other.
-/

namespace ChamberSpo

/-- `SGL_ENTRY_SIZE` -/
def sglEntrySize : BitVec 64 := 4096

/-- `PAGE_MASK`, which is of the system's headers -/
def pageMask (pageSize : BitVec 64) : BitVec 64 := ~~~(pageSize - 1)

/-- What the callbacks use of `struct bio`. -/
structure SglBio where
  /-- the address in `data` -/
  data : BitVec 64
  iosize : BitVec 64
  sglOffset : BitVec 32

/-- What `next_sge` writes for the library. -/
structure Sge where
  address : BitVec 64
  length : BitVec 32
  deriving DecidableEq

/-- `reset_sgl` -/
def resetSgl (bio : SglBio) (offset : BitVec 32) : SglBio :=
  { bio with sglOffset := offset }

/-- `len` of `next_sge`, with `rest` bytes to go -/
def nextSgeLen (pageSize address rest : BitVec 64) : BitVec 32 :=
  let len : BitVec 32 := (if sglEntrySize < rest then sglEntrySize else rest).setWidth 32
  let beyond := (address + len.setWidth 64) &&& ~~~(pageMask pageSize)
  if pageSize ≤ len.setWidth 64 ∧ address &&& ~~~(pageMask pageSize) ≠ 0 ∧ beyond ≠ 0 then
    (len.setWidth 64 - beyond).setWidth 32
  else len

/-- `next_sge` -/
def nextSge (pageSize : BitVec 64) (bio : SglBio) : Sge × SglBio :=
  let address := bio.data + bio.sglOffset.setWidth 64
  let len := nextSgeLen pageSize address (bio.iosize - bio.sglOffset.setWidth 64)
  ({ address := address, length := len }, { bio with sglOffset := bio.sglOffset + len })

/-- `next_sge` is called until all of the data has an entry; `none` when the fuel does not last. -/
def sglEntries (pageSize : BitVec 64) : ℕ → SglBio → Option (List Sge)
  | 0, bio => if bio.iosize ≤ bio.sglOffset.setWidth 64 then some [] else none
  | fuel + 1, bio =>
    if bio.iosize ≤ bio.sglOffset.setWidth 64 then some []
    else do
      let (sge, bio) := nextSge pageSize bio
      let entries ← sglEntries pageSize fuel bio
      return sge :: entries

/-! ## The length of a piece -/

/-- The length that `next_sge` gives to a piece at `addr`, with `rest` bytes to go. -/
def sgeLength (pageSize addr rest : ℕ) : ℕ :=
  let len := min 4096 rest
  if pageSize ≤ len ∧ addr % pageSize ≠ 0 ∧ (addr + len) % pageSize ≠ 0 then
    len - (addr + len) % pageSize
  else len

section Length

variable {pageSize addr rest : ℕ}

theorem sgeLength_le : sgeLength pageSize addr rest ≤ min 4096 rest := by
  simp only [sgeLength]
  split
  · exact Nat.sub_le _ _
  · exact le_rfl

/-- What is cut off is less than a page, and there is a page. -/
theorem sgeLength_pos (hpage : 0 < pageSize) (hrest : 0 < rest) :
    0 < sgeLength pageSize addr rest := by
  simp only [sgeLength]
  split
  · rename_i hcut
    have hover : (addr + min 4096 rest) % pageSize < pageSize := Nat.mod_lt _ hpage
    omega
  · omega

/-- **A piece of a page or more** that begins inside of a page ends with one. -/
theorem sgeLength_aligned (hpage : 0 < pageSize)
    (hlong : pageSize ≤ sgeLength pageSize addr rest) (haddr : addr % pageSize ≠ 0) :
    (addr + sgeLength pageSize addr rest) % pageSize = 0 := by
  have hlen : pageSize ≤ min 4096 rest := le_trans hlong sgeLength_le
  simp only [sgeLength]
  split
  · -- the piece ends where the page begins that the longer one ended in
    have hle : (addr + min 4096 rest) % pageSize ≤ min 4096 rest :=
      le_trans (Nat.le_of_lt (Nat.mod_lt _ hpage)) hlen
    rw [← Nat.add_sub_assoc hle]
    exact Nat.sub_mod_eq_zero_of_mod_eq (Nat.mod_mod _ _).symm
  · rename_i hno
    by_contra hend
    exact hno ⟨hlen, haddr, hend⟩

end Length

/-! ## The words -/

/-- The bytes of an entry, first to last. -/
def Sge.bytes (sge : Sge) : List (BitVec 64) :=
  (List.range sge.length.toNat).map fun k => sge.address + BitVec.ofNat 64 k

/-- The bytes of the data from `first` on, `n` of them. -/
def SglBio.bytes (bio : SglBio) (first n : ℕ) : List (BitVec 64) :=
  (List.range' first n).map fun k => bio.data + BitVec.ofNat 64 k

variable {pageSize : BitVec 64} {bio : SglBio} {k : ℕ}

/-- What is beyond the begin of a page. -/
theorem toNat_and_not_pageMask (hpage : pageSize.toNat = 2 ^ k) (x : BitVec 64) :
    (x &&& ~~~(pageMask pageSize)).toNat = x.toNat % pageSize.toNat := by
  have hpos : 0 < 2 ^ k := Nat.two_pow_pos k
  have hlt := pageSize.isLt
  have hone : (pageSize - 1).toNat = 2 ^ k - 1 := by
    rw [BitVec.toNat_sub, hpage]
    simp only [BitVec.ofNat_eq_ofNat, BitVec.toNat_ofNat]
    omega
  rw [pageMask, BitVec.not_not, BitVec.toNat_and, hone, Nat.and_two_pow_sub_one_eq_mod, hpage]

/-- The mask is that of a power of two, so that a sum beyond the last address does not matter. -/
theorem toNat_add_and_not_pageMask (hpage : pageSize.toNat = 2 ^ k) (x y : BitVec 64) :
    ((x + y) &&& ~~~(pageMask pageSize)).toNat = (x.toNat + y.toNat) % pageSize.toNat := by
  have hk : k ≤ 64 := by
    by_contra hlt
    have hgrows : 2 ^ 64 < 2 ^ k := Nat.pow_lt_pow_right (by decide) (Nat.lt_of_not_le hlt)
    have := pageSize.isLt
    omega
  have hdvd : pageSize.toNat ∣ 2 ^ 64 := hpage ▸ Nat.pow_dvd_pow 2 hk
  rw [toNat_and_not_pageMask hpage, BitVec.toNat_add, Nat.mod_mod_of_dvd _ hdvd]

theorem bitVec_ne_zero_iff {w : ℕ} (x : BitVec w) : x ≠ 0 ↔ x.toNat ≠ 0 := by
  rw [Ne, ← BitVec.toNat_inj, BitVec.ofNat_eq_ofNat, BitVec.toNat_ofNat, Nat.zero_mod]

/-- The length of the words is that of the numbers. -/
theorem toNat_nextSgeLen (hpage : pageSize.toNat = 2 ^ k) (address rest : BitVec 64) :
    (nextSgeLen pageSize address rest).toNat
      = sgeLength pageSize.toNat address.toNat rest.toNat := by
  simp only [nextSgeLen, sgeLength]
  have hmin : (if sglEntrySize < rest then sglEntrySize else rest).toNat = min 4096 rest.toNat := by
    have hlt : sglEntrySize < rest ↔ 4096 < rest.toNat := BitVec.lt_def
    split
    · rename_i h
      exact (Nat.min_eq_left (Nat.le_of_lt (hlt.mp h))).symm
    · rename_i h
      exact (Nat.min_eq_right (Nat.le_of_not_lt fun h' => h (hlt.mpr h'))).symm
  generalize (if sglEntrySize < rest then sglEntrySize else rest) = len at hmin ⊢
  have hlen : (len.setWidth 32).toNat = min 4096 rest.toNat := by
    rw [BitVec.toNat_setWidth, hmin, Nat.mod_eq_of_lt (by omega)]
  have hwiden : ((len.setWidth 32).setWidth 64).toNat = min 4096 rest.toNat := by
    rw [BitVec.toNat_setWidth_of_le (by decide), hlen]
  have hover := toNat_add_and_not_pageMask hpage address ((len.setWidth 32).setWidth 64)
  rw [hwiden] at hover
  simp only [bitVec_ne_zero_iff, BitVec.le_def, toNat_and_not_pageMask hpage address, hwiden, hover]
  split
  · rename_i hcut
    have hlt : (address.toNat + min 4096 rest.toNat) % pageSize.toNat < pageSize.toNat :=
      Nat.mod_lt _ (hpage ▸ Nat.two_pow_pos k)
    rw [BitVec.toNat_setWidth, BitVec.toNat_sub_of_le (by rw [BitVec.le_def]; omega), hwiden, hover,
      Nat.mod_eq_of_lt (by omega)]
  · exact hlen

/-- **`next_sge`** gives the piece at the offset and goes on behind it. -/
theorem nextSge_spec (hpage : pageSize.toNat = 2 ^ k) (hiosize : bio.iosize.toNat < 2 ^ 32)
    (hoffset : bio.sglOffset.toNat < bio.iosize.toNat) {sge : Sge} {bio' : SglBio}
    (hnext : nextSge pageSize bio = (sge, bio')) :
    sge.address = bio.data + BitVec.ofNat 64 bio.sglOffset.toNat ∧
      sge.length.toNat = sgeLength pageSize.toNat sge.address.toNat
        (bio.iosize.toNat - bio.sglOffset.toNat) ∧
      bio'.data = bio.data ∧ bio'.iosize = bio.iosize ∧
      bio'.sglOffset.toNat = bio.sglOffset.toNat + sge.length.toNat := by
  have hwide : (bio.sglOffset.setWidth 64).toNat = bio.sglOffset.toNat :=
    BitVec.toNat_setWidth_of_le (by decide)
  have hrest : (bio.iosize - bio.sglOffset.setWidth 64).toNat
      = bio.iosize.toNat - bio.sglOffset.toNat := by
    rw [BitVec.toNat_sub_of_le (by rw [BitVec.le_def]; omega), hwide]
  obtain ⟨hsge, hbio⟩ := Prod.mk.inj hnext
  have hlength : sge.length.toNat = sgeLength pageSize.toNat sge.address.toNat
      (bio.iosize.toNat - bio.sglOffset.toNat) := by
    rw [← hsge, toNat_nextSgeLen hpage, hrest]
  have haddress : sge.address = bio.data + bio.sglOffset.setWidth 64 := by rw [← hsge]
  have hmoves : bio'.sglOffset = bio.sglOffset + sge.length := by rw [← hbio, ← hsge]
  have hle : sge.length.toNat ≤ min 4096 (bio.iosize.toNat - bio.sglOffset.toNat) :=
    hlength ▸ sgeLength_le
  refine ⟨?_, hlength, ?_, ?_, ?_⟩
  · rw [haddress, ← hwide, BitVec.ofNat_toNat, BitVec.setWidth_eq]
  · rw [← hbio]
  · rw [← hbio]
  · rw [hmoves, BitVec.toNat_add, Nat.mod_eq_of_lt (by omega)]

/-! ## All pieces -/

theorem SglBio.bytes_add (bio : SglBio) (first m n : ℕ) :
    bio.bytes first (m + n) = bio.bytes first m ++ bio.bytes (first + m) n := by
  rw [SglBio.bytes, ← List.range'_append_1, List.map_append]
  rfl

/-- An entry for `n` bytes of the data. -/
theorem Sge.bytes_eq {sge : Sge} {first : ℕ}
    (haddress : sge.address = bio.data + BitVec.ofNat 64 first) :
    sge.bytes = bio.bytes first sge.length.toNat := by
  rw [Sge.bytes, SglBio.bytes, List.range'_eq_map_range, List.map_map]
  refine List.map_congr_left ?_
  intro k _
  rw [haddress, Function.comp_apply, BitVec.ofNat_add, BitVec.add_assoc]

/-- What the library can rely on for an entry. -/
structure Sge.Fits (pageSize : BitVec 64) (sge : Sge) : Prop where
  pos : 0 < sge.length.toNat
  le : sge.length.toNat ≤ sglEntrySize.toNat
  aligned : pageSize.toNat ≤ sge.length.toNat → sge.address.toNat % pageSize.toNat ≠ 0 →
    (sge.address.toNat + sge.length.toNat) % pageSize.toNat = 0

/-- The pieces from where a bio stands on. Each call takes at least a byte, so that there is fuel
enough when there is one for each byte. -/
theorem sglEntries_spec (hpage : pageSize.toNat = 2 ^ k) (hiosize : bio.iosize.toNat < 2 ^ 32)
    {fuel : ℕ} (hfuel : bio.iosize.toNat - bio.sglOffset.toNat ≤ fuel) :
    ∃ entries, sglEntries pageSize fuel bio = some entries ∧ (∀ sge ∈ entries, sge.Fits pageSize) ∧
      entries.flatMap Sge.bytes
        = bio.bytes bio.sglOffset.toNat (bio.iosize.toNat - bio.sglOffset.toNat) := by
  have hdone : ∀ bio : SglBio, bio.iosize ≤ bio.sglOffset.setWidth 64 ↔
      bio.iosize.toNat ≤ bio.sglOffset.toNat := by
    intro bio
    rw [BitVec.le_def, BitVec.toNat_setWidth_of_le (by decide)]
  induction fuel generalizing bio with
  | zero =>
    have hle : bio.iosize.toNat ≤ bio.sglOffset.toNat := by omega
    refine ⟨[], ?_, fun sge hsge => absurd hsge List.not_mem_nil, ?_⟩
    · rw [sglEntries, if_pos ((hdone bio).mpr hle)]
    · rw [Nat.sub_eq_zero_of_le hle]
      rfl
  | succ fuel ih =>
    rw [sglEntries]
    split
    · rename_i hle
      refine ⟨[], rfl, fun sge hsge => absurd hsge List.not_mem_nil, ?_⟩
      rw [Nat.sub_eq_zero_of_le ((hdone bio).mp hle)]
      rfl
    · rename_i hnot
      have hoffset : bio.sglOffset.toNat < bio.iosize.toNat :=
        Nat.lt_of_not_le fun hle => hnot ((hdone bio).mpr hle)
      obtain ⟨⟨sge, bio'⟩, hnext⟩ : ∃ p, nextSge pageSize bio = p := ⟨_, rfl⟩
      obtain ⟨haddress, hlength, hdata, hsize, hmoves⟩ := nextSge_spec hpage hiosize hoffset hnext
      have hpos : 0 < pageSize.toNat := hpage ▸ Nat.two_pow_pos k
      have hfits : sge.Fits pageSize := by
        refine ⟨?_, ?_, ?_⟩
        · rw [hlength]
          exact sgeLength_pos hpos (Nat.sub_pos_of_lt hoffset)
        · rw [hlength]
          exact le_trans sgeLength_le (min_le_left _ _)
        · intro hlong haddr
          rw [hlength] at hlong ⊢
          exact sgeLength_aligned hpos hlong haddr
      have hle : sge.length.toNat ≤ bio.iosize.toNat - bio.sglOffset.toNat :=
        hlength ▸ le_trans sgeLength_le (min_le_right _ _)
      have := hfits.pos
      obtain ⟨entries, hentries, hall, htile⟩ := ih (hsize.symm ▸ hiosize) (by rw [hsize]; omega)
      refine ⟨sge :: entries, ?_, List.forall_mem_cons.mpr ⟨hfits, hall⟩, ?_⟩
      · rw [hnext]
        simp only [hentries]
        rfl
      · obtain ⟨n, hn⟩ := Nat.exists_eq_add_of_le hle
        rw [List.flatMap_cons, htile, Sge.bytes_eq haddress, hn, SglBio.bytes_add, hmoves, hsize]
        congr 1
        rw [SglBio.bytes, SglBio.bytes, hdata]
        congr 2
        omega

/-- **The entries tile the data.** From any offset on, at any address, the library gets to the end
of the data with the calls of `next_sge`. No entry is empty or longer than `SGL_ENTRY_SIZE`, their
bytes are those of the data from the offset on, each once and in order, and an entry of a page or
more that begins inside of a page ends with one, the last entry too. -/
theorem sglEntries_tile (hpage : pageSize.toNat = 2 ^ k) (hiosize : bio.iosize.toNat < 2 ^ 32)
    (offset : BitVec 32) :
    ∃ fuel entries, sglEntries pageSize fuel (resetSgl bio offset) = some entries ∧
      entries.flatMap Sge.bytes = bio.bytes offset.toNat (bio.iosize.toNat - offset.toNat) ∧
      ∀ sge ∈ entries, 0 < sge.length.toNat ∧ sge.length.toNat ≤ sglEntrySize.toNat ∧
        (pageSize.toNat ≤ sge.length.toNat → sge.address.toNat % pageSize.toNat ≠ 0 →
          (sge.address.toNat + sge.length.toNat) % pageSize.toNat = 0) := by
  have hreset : (resetSgl bio offset).iosize.toNat < 2 ^ 32 := hiosize
  obtain ⟨entries, hentries, hall, htile⟩ := sglEntries_spec hpage hreset (Nat.sub_le _ _)
  refine ⟨_, entries, hentries, htile, ?_⟩
  intro sge hsge
  have hfits := hall sge hsge
  exact ⟨hfits.pos, hfits.le, hfits.aligned⟩

/-- Two pages of data, from the fifth byte of a page on. -/
theorem sglEntries_tile_twoPages :
    ∃ fuel entries, sglEntries 4096 fuel (resetSgl ⟨0x10004, 8192, 7⟩ 0) = some entries ∧
      entries.flatMap Sge.bytes = SglBio.bytes ⟨0x10004, 8192, 7⟩ 0 8192 ∧
      ∀ sge ∈ entries, 0 < sge.length.toNat ∧ sge.length.toNat ≤ sglEntrySize.toNat ∧
        (4096 ≤ sge.length.toNat → sge.address.toNat % 4096 ≠ 0 →
          (sge.address.toNat + sge.length.toNat) % 4096 = 0) :=
  sglEntries_tile (k := 12) (by decide) (by decide) 0

example : sglEntries 4096 4 ⟨0x10004, 8192, 0⟩
    = some [⟨0x10004, 4092⟩, ⟨0x11000, 4096⟩, ⟨0x12000, 4⟩] := by decide

end ChamberSpo

import ChamberSpo.Journal
import ChamberSpo.Params

/-!
# The buffers of a bio

`create_bio_pool` allocates a buffer of data, one of metadata and an array of descriptors for each
bio. Their sizes come from `iosize_max`, the largest size that a property of the parameter file has
set, and are computed as `u32`s.

* `dataBufSize`, `metaBufSize`, `blockDescLen` — the sizes, and `dataRoom` with the bytes that are
  added to move the buffer.
* `createBioPool` — the bios, with all of it cleared.
* `clearDescs` — a `memset` of an array of descriptors.
-/

namespace ChamberSpo

/-! ## Sizes -/

section Sizes

variable (ns : NamespaceInfo) (iosizeMax : BitVec 32)

/-- `meta_size * (iosize_max >> lba_shift)` -/
def metaBytes : BitVec 32 := BitVec.ofNat 32 ns.metaSize * (iosizeMax >>> ns.lbaShift)

/-- `data_buf_size` -/
def dataBufSize : BitVec 32 :=
  -- `MAX(iosize_max, 4096)`
  let size := if iosizeMax.toNat < 4096 then 4096 else iosizeMax
  if ns.extendedLba then size + metaBytes ns iosizeMax else size

/-- `meta_buf_size` -/
def metaBufSize : BitVec 32 := if ns.extendedLba then 0 else metaBytes ns iosizeMax

/-- How many descriptors there are. -/
def blockDescLen : ℕ := (iosizeMax >>> ns.lbaShift).toNat

/-- The bytes from `bio->data` on, which is moved by an offset in a buffer with 16 bytes more. -/
def dataRoom (offset : ℕ) : ℕ := (dataBufSize ns iosizeMax + 16).toNat - offset

/-- The offsets: `(rand48() & 0x3) << 2` -/
def bufOffsets : List ℕ := [0, 4, 8, 12]

end Sizes

/-! ## Descriptors in memory -/

/-- An array of descriptors, of which the first bytes were cleared. -/
def clearDescs (descs : ℕ → BlockDesc) (n : ℕ) (k : ℕ) : BlockDesc :=
  blockDescLayout.read fun i =>
    if blockDescLayout.size * k + i < n then 0 else blockDescLayout.write (descs k) i

/-- **A descriptor is cleared** if its bytes behind those that a `memset` clears are zero. -/
theorem clearDescs_eq_zero_iff (descs : ℕ → BlockDesc) (n k : ℕ) :
    clearDescs descs n k = .zero ↔ ∀ i < blockDescLayout.size,
      n ≤ blockDescLayout.size * k + i → blockDescLayout.write (descs k) i = 0 := by
  rw [clearDescs, blockDescLayout.read_eq_iff]
  apply forall₂_congr
  intro i hi
  rw [blockDescLayout_write_zero i hi]
  by_cases hcleared : blockDescLayout.size * k + i < n
  · rw [if_pos hcleared]
    exact iff_of_true rfl fun hle => absurd hcleared (Nat.not_lt.mpr hle)
  · rw [if_neg hcleared]
    exact ⟨fun h _ => h, fun h => h (Nat.not_lt.mp hcleared)⟩

/-! ## The pool -/

/-- What `malloc` gives for a bio. -/
structure BioMemory where
  dataBuf : Buf
  data : Buf
  metaBuf : Buf

/-- A bio of `create_bio_pool`: its buffers are cleared, and `calloc` clears its descriptors and the
rest. -/
def createBio (ns : NamespaceInfo) (iosizeMax : BitVec 32) (memory : BioMemory) : Bio :=
  { Bio.plain .read 0 0 memory.data with
    dataBuf := memory.dataBuf
    data := memory.data.fill 0 0 (dataBufSize ns iosizeMax).toNat
    metaBuf := memory.metaBuf.fill 0 0 (metaBufSize ns iosizeMax).toNat
    histIdx := 0 }

/-- `create_bio_pool` -/
def createBioPool (ns : NamespaceInfo) (iosizeMax : BitVec 32) (memory : ℕ → BioMemory) (id : ℕ) :
    Bio :=
  createBio ns iosizeMax (memory id)

/-- The buffer of data is zero. -/
theorem createBio_data {ns : NamespaceInfo} {iosizeMax : BitVec 32} (memory : BioMemory) {i : ℕ}
    (hi : i < (dataBufSize ns iosizeMax).toNat) : (createBio ns iosizeMax memory).data i = 0 :=
  Buf.fill_zero hi

end ChamberSpo

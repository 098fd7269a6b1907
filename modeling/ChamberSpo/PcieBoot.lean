import ChamberSpo.Buffer
import Mathlib.Data.List.GetD

/-!
# The transfer of an image over PCIe

`pcie_boot.py` sends an image to a device word by word. A word goes into the data register, and then
a request with the command and the offset of the word into the request register.

* `sendData` — the register operations for an image.
* `requests` — what the device sees: the data register at each write of the request register.
* `Reproduces` — the device, which takes the command and the offset from a request, has the image.

There are 28 bits for the offset. `sendData_reproduces_iff` says which images they are enough for.
-/

namespace ChamberSpo

/-! ## The program -/

/-- A register operation. The value is 32 bits wide in `write_register`. -/
inductive RegOp where
  | write (offset : ℕ) (val : BitVec 32)
  /-- the loop of `wait_cpl` -/
  | waitCpl (msg : ℕ)

def writeRegister (byteOffset val : ℕ) : RegOp := .write byteOffset (BitVec.ofNat 32 val)

/-- `write_cmd_reg_addr` -/
def writeCmdRegAddr (msg : ℕ) : RegOp := writeRegister 0x50 msg

/-- `write_data_reg_addr` -/
def writeDataRegAddr (msg : ℕ) : RegOp := writeRegister 0x54 msg

/-- `write_cpl_reg_addr` -/
def writeCplRegAddr (msg : ℕ) : RegOp := writeRegister 0x58 msg

/-- `set_cpl_reg` -/
def setCplReg (cplVal : ℕ) : List RegOp := [writeCplRegAddr cplVal, .waitCpl cplVal]

/-- What a condition type begins with. -/
inductive CondType where
  | loading | jumping | complete

/-- What it ends with. -/
inductive CondPart where
  | low | high | len | send | ack

/-- `switch`; `none` is `None`. -/
def switch : CondType → CondPart → Option ℕ
  | .loading, .low => some (0x1 <<< 28)
  | .loading, .high => some (0x1 <<< 28 ||| 0x1)
  | .loading, .len => some (0x2 <<< 28)
  | .loading, .send => some (0x3 <<< 28)
  | .jumping, .low => some (0xc <<< 28)
  | .jumping, .high => some (0xc <<< 28 ||| 0x1)
  | .jumping, .ack => some (0xd <<< 28)
  | .complete, .ack => some (0xd <<< 28)
  | _, _ => none

/-- `int.from_bytes(.., byteorder='little', signed=False)` -/
def intFromBytes : List Byte → ℕ
  | [] => 0
  | b :: bytes => b.toNat + 256 * intFromBytes bytes

/-- An integer as a double, rounded to 53 bits and to even between two. -/
def doubleOf (n : ℕ) : ℕ :=
  if n < 2 ^ 53 then n
  else
    let ulp := 2 ^ (Nat.log2 n - 52)
    if ulp < 2 * (n % ulp) ∨ 2 * (n % ulp) = ulp ∧ n / ulp % 2 = 1 then (n / ulp + 1) * ulp
    else n / ulp * ulp

/-- `math.ceil(raw_buf_len / BYTES_PER_DW)`. The division is one of doubles. -/
def rawBufLenDw (rawBufLen : ℕ) : ℕ := (doubleOf rawBufLen + 3) / 4

/-- The word with an index, from the slice of its bytes. -/
def dwAt (rawBuf : List Byte) (dwCnt : ℕ) : ℕ := intFromBytes ((rawBuf.drop (dwCnt * 4)).take 4)

/-- What a pass of the loop of `send_data` does. -/
def sendDw (rawBuf : List Byte) (cmd dwCnt : ℕ) : List RegOp :=
  setCplReg 1 ++
    [writeDataRegAddr (dwAt rawBuf dwCnt), writeCmdRegAddr (cmd ||| (dwCnt * 4) <<< 0), .waitCpl 0]

/-- `send_data`; `none` is the error of `None | ..`. -/
def sendData (condType : CondType) (rawBuf : List Byte) (rawBufLen : ℕ) : Option (List RegOp) := do
  let ops ← (List.range (rawBufLenDw rawBufLen)).mapM fun dwCnt =>
    (switch condType .send).map fun cmd => sendDw rawBuf cmd dwCnt
  return ops.flatten ++ setCplReg 1

/-! ## The device -/

/-- The data register and the request register at each request. -/
def requests : BitVec 32 → List RegOp → List (BitVec 32 × BitVec 32)
  | _, [] => []
  | data, .write offset val :: ops =>
    if offset = 0x54 then requests val ops
    else if offset = 0x50 then (data, val) :: requests data ops
    else requests data ops
  | data, .waitCpl _ :: ops => requests data ops

/-- `PCIE_FW_DOWNLOAD_SEND_FW` -/
def sendFw : BitVec 32 := 3

def requestCommand (request : BitVec 32) : BitVec 32 := request >>> 28

def requestOffset (request : BitVec 32) : BitVec 32 := request &&& 0xFFFFFFF

/-- Memory after a word has been written at the offset of its request. -/
def writeDw (mem : Buf) (p : BitVec 32 × BitVec 32) : Buf := mem.store (requestOffset p.2).toNat p.1

/-- **The device has the image**, padded with zeros to whole words, and has written nothing else. -/
structure Reproduces (image : List Byte) (pairs : List (BitVec 32 × BitVec 32)) : Prop where
  command : ∀ p ∈ pairs, requestCommand p.2 = sendFw
  offset : pairs.map (fun p => (requestOffset p.2).toNat)
    = (List.range ((image.length + 3) / 4)).map (4 * ·)
  inside : ∀ mem i, i < 4 * ((image.length + 3) / 4) → pairs.foldl writeDw mem i = image.getD i 0
  outside : ∀ mem i, 4 * ((image.length + 3) / 4) ≤ i → pairs.foldl writeDw mem i = mem i

/-! ## Words -/

theorem intFromBytes_lt (bytes : List Byte) : intFromBytes bytes < 256 ^ bytes.length := by
  induction bytes with
  | nil => exact Nat.one_pos
  | cons b bytes ih =>
    have hb : b.toNat < 256 := b.isLt
    rw [intFromBytes, List.length_cons, Nat.pow_succ]
    omega

/-- A byte of a number is one of those that it was made of. -/
theorem leBytes_intFromBytes (bytes : List Byte) (i : ℕ) :
    leBytes (intFromBytes bytes) i = bytes.getD i 0 := by
  induction bytes generalizing i with
  | nil =>
    rw [intFromBytes, leBytes, Nat.zero_div, List.getD_nil]
    rfl
  | cons b bytes ih =>
    have hb : b.toNat < 256 := b.isLt
    cases i with
    | zero =>
      rw [intFromBytes, leBytes, pow_zero, Nat.div_one, List.getD_cons_zero]
      apply BitVec.eq_of_toNat_eq
      rw [BitVec.toNat_ofNat]
      omega
    | succ i =>
      have hdiv : (b.toNat + 256 * intFromBytes bytes) / 256 = intFromBytes bytes := by omega
      have hshift := congrFun (shift_leBytes (b.toNat + 256 * intFromBytes bytes)) i
      rw [Buf.shift_apply, Nat.add_comm 1 i, hdiv] at hshift
      rw [intFromBytes, hshift, ih, List.getD_cons_succ]

/-- The bytes of a word are those of the image. -/
theorem leBytes_dwAt (image : List Byte) (dwCnt : ℕ) {i : ℕ} (hi : i < 4) :
    leBytes (BitVec.ofNat 32 (dwAt image dwCnt)).toNat i = image.getD (4 * dwCnt + i) 0 := by
  have hlt : dwAt image dwCnt < 2 ^ 32 := by
    have hle : ((image.drop (dwCnt * 4)).take 4).length ≤ 4 := List.length_take_le _ _
    calc dwAt image dwCnt < 256 ^ ((image.drop (dwCnt * 4)).take 4).length := intFromBytes_lt _
      _ ≤ 256 ^ 4 := Nat.pow_le_pow_right (by decide) hle
      _ = 2 ^ 32 := rfl
  rw [BitVec.toNat_ofNat, Nat.mod_eq_of_lt hlt, dwAt, leBytes_intFromBytes,
    List.getD_eq_getElem?_getD, List.getElem?_take_of_lt hi, List.getElem?_drop,
    Nat.mul_comm dwCnt 4, ← List.getD_eq_getElem?_getD]

/-! ## Requests -/

/-- The request of a word. -/
def sendRequest (dwCnt : ℕ) : BitVec 32 := BitVec.ofNat 32 (0x3 <<< 28 ||| (dwCnt * 4) <<< 0)

theorem toNat_sendRequest {dwCnt : ℕ} (h : dwCnt < 2 ^ 26) :
    (sendRequest dwCnt).toNat = 3 * 2 ^ 28 + 4 * dwCnt := by
  have hor : 0x3 <<< 28 ||| dwCnt * 4 = 0x3 <<< 28 + dwCnt * 4 :=
    (Nat.shiftLeft_add_eq_or_of_lt (by omega) 3).symm
  rw [sendRequest, Nat.shiftLeft_zero, hor, BitVec.toNat_ofNat, Nat.shiftLeft_eq]
  omega

theorem requestCommand_sendRequest {dwCnt : ℕ} (h : dwCnt < 2 ^ 26) :
    requestCommand (sendRequest dwCnt) = sendFw := by
  apply BitVec.eq_of_toNat_eq
  rw [requestCommand, BitVec.toNat_ushiftRight, toNat_sendRequest h, Nat.shiftRight_eq_div_pow]
  change _ = 3
  omega

theorem toNat_requestOffset (request : BitVec 32) :
    (requestOffset request).toNat = request.toNat % 2 ^ 28 := by
  rw [requestOffset, BitVec.toNat_and]
  exact Nat.and_two_pow_sub_one_eq_mod request.toNat 28

theorem requestOffset_sendRequest {dwCnt : ℕ} (h : dwCnt < 2 ^ 26) :
    (requestOffset (sendRequest dwCnt)).toNat = 4 * dwCnt := by
  rw [toNat_requestOffset, toNat_sendRequest h]
  omega

/-- What a word is sent as. -/
def sendPair (image : List Byte) (dwCnt : ℕ) : BitVec 32 × BitVec 32 :=
  (BitVec.ofNat 32 (dwAt image dwCnt), sendRequest dwCnt)

/-- What the device sees of an image. -/
theorem sendData_requests (image : List Byte) (rawBufLen : ℕ) (data : BitVec 32) :
    ∃ ops, sendData .loading image rawBufLen = some ops ∧
      requests data ops = (List.range (rawBufLenDw rawBufLen)).map (sendPair image) := by
  have hdw (data : BitVec 32) (d : ℕ) (ops : List RegOp) :
      requests data (sendDw image (0x3 <<< 28) d ++ ops)
        = sendPair image d :: requests (BitVec.ofNat 32 (dwAt image d)) ops := rfl
  have hall (ds : List ℕ) (data : BitVec 32) :
      requests data ((ds.map (sendDw image (0x3 <<< 28))).flatten ++ setCplReg 1)
        = ds.map (sendPair image) := by
    induction ds generalizing data with
    | nil => rfl
    | cons d ds ih => rw [List.map_cons, List.flatten_cons, List.append_assoc, hdw, ih, List.map_cons]
  have hops : ((List.range (rawBufLenDw rawBufLen)).mapM fun dwCnt =>
      (switch .loading .send).map fun cmd => sendDw image cmd dwCnt)
        = some ((List.range (rawBufLenDw rawBufLen)).map (sendDw image (0x3 <<< 28))) :=
    List.mapM_pure
  refine ⟨_, ?_, hall _ _⟩
  rw [sendData, hops]
  rfl

/-- The words are written one behind the other. -/
theorem foldl_writeDw (image : List Byte) (mem : Buf) {n : ℕ} (hn : n ≤ 2 ^ 26) (i : ℕ) :
    ((List.range n).map (sendPair image)).foldl writeDw mem i
      = if i < 4 * n then image.getD i 0 else mem i := by
  induction n with
  | zero => rw [if_neg (by omega)]; rfl
  | succ n ih =>
    have hn' : n < 2 ^ 26 := hn
    rw [List.range_succ, List.map_append, List.foldl_append, List.map_singleton, List.foldl_cons,
      List.foldl_nil, writeDw, sendPair, requestOffset_sendRequest hn', Buf.store]
    by_cases hword : 4 * n ≤ i ∧ i < 4 * n + 4
    · obtain ⟨j, rfl⟩ := Nat.exists_eq_add_of_le hword.1
      have hj : j < 4 := by omega
      rw [Buf.copy_in hj, leBytes_dwAt image n hj, if_pos (by omega)]
    · rw [Buf.copy_out (by omega), ih (Nat.le_of_lt hn')]
      by_cases hi : i < 4 * n
      · rw [if_pos hi, if_pos (by omega)]
      · rw [if_neg hi, if_neg (by omega)]

/-! ## Images -/

/-- The division is exact as long as the length is an exact double. -/
theorem rawBufLenDw_eq {rawBufLen : ℕ} (h : rawBufLen < 2 ^ 53) :
    rawBufLenDw rawBufLen = (rawBufLen + 3) / 4 := by
  rw [rawBufLenDw, doubleOf, if_pos h]

theorem reproduces_of_le {image : List Byte} (h : image.length ≤ 2 ^ 28) :
    Reproduces image ((List.range (rawBufLenDw image.length)).map (sendPair image)) := by
  have hn : (image.length + 3) / 4 ≤ 2 ^ 26 := by omega
  have hlt (d : ℕ) (hd : d ∈ List.range ((image.length + 3) / 4)) : d < 2 ^ 26 :=
    lt_of_lt_of_le (List.mem_range.mp hd) hn
  rw [rawBufLenDw_eq (by omega)]
  refine ⟨?_, ?_, ?_, ?_⟩
  · intro p hp
    obtain ⟨d, hd, rfl⟩ := List.mem_map.mp hp
    exact requestCommand_sendRequest (hlt d hd)
  · rw [List.map_map]
    refine List.map_congr_left fun d hd => ?_
    exact requestOffset_sendRequest (hlt d hd)
  · intro mem i hi
    rw [foldl_writeDw image mem hn, if_pos hi]
  · intro mem i hi
    rw [foldl_writeDw image mem hn, if_neg (Nat.not_lt.mpr hi)]

/-- No request has an offset for what is behind 2^28 bytes. -/
theorem length_le_of_reproduces {image : List Byte} {pairs : List (BitVec 32 × BitVec 32)}
    (h : Reproduces image pairs) : image.length ≤ 2 ^ 28 := by
  by_contra hgt
  have hmem : 4 * 2 ^ 26 ∈ (List.range ((image.length + 3) / 4)).map (4 * ·) :=
    List.mem_map.mpr ⟨2 ^ 26, List.mem_range.mpr (by omega), rfl⟩
  rw [← h.offset] at hmem
  obtain ⟨p, -, hp⟩ := List.mem_map.mp hmem
  rw [toNat_requestOffset] at hp
  have := Nat.mod_lt p.2.toNat (Nat.two_pow_pos 28)
  omega

/-- **An image arrives** exactly if it has no more bytes than there are offsets. -/
theorem sendData_reproduces_iff (image : List Byte) (data : BitVec 32) :
    (∃ ops, sendData .loading image image.length = some ops ∧
      Reproduces image (requests data ops)) ↔ image.length ≤ 2 ^ 28 := by
  refine ⟨?_, ?_⟩
  · rintro ⟨ops, -, h⟩
    exact length_le_of_reproduces h
  · intro hle
    obtain ⟨ops, hops, hpairs⟩ := sendData_requests image image.length data
    refine ⟨ops, hops, ?_⟩
    rw [hpairs]
    exact reproduces_of_le hle

/-- An image of one byte more. -/
theorem sendData_beyond :
    ¬ ∀ (image : List Byte) (data : BitVec 32), ∃ ops,
      sendData .loading image image.length = some ops ∧
        Reproduces image (requests data ops) := by
  intro h
  obtain ⟨ops, -, hpairs⟩ := h (List.replicate (2 ^ 28 + 1) 0) 0
  have hle := length_le_of_reproduces hpairs
  rw [List.length_replicate] at hle
  omega

end ChamberSpo

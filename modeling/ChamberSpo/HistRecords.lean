import ChamberSpo.RingWrite
import ChamberSpo.Submit

/-!
# Records of what a command will do

`backup_hist_state` writes down, before a command, what `commit_block_state` makes of its LBAs
after it.

* `histRecords` — the ring after some of the records.
* `RecordsAgree` — the records say what the descriptors are, and what they will be.
* `RecordFits` — what has to be there already for a record to say so.

`backupHistState_eq` says what `backup_hist_state` does, `recordsAgree_iff` when it does what it
is for.
-/

namespace ChamberSpo

/-- The opcodes of which there are records. -/
def BioOpcode.Recorded (op : BioOpcode) : Prop :=
  op = .write ∨ op = .deallocate ∨ op = .writeZeroes ∨ op = .writeUncorrect

/-- `bd[BD_NEXT]` of the record of an LBA, with what it was before. -/
def recordedDesc (iover : Iover) (bio : Bio) (lbaOffset : ℕ) (d : BlockDesc) : BlockDesc :=
  match bio.opcode with
  | .write =>
    match datagenGetHeader iover.datagen (blockData iover bio lbaOffset) with
    | some info => writtenDesc .data info d
    | none => d
  | .deallocate => { d with state := .dealloc }
  | .writeZeroes => { d with state := .zeroes }
  | .writeUncorrect => { d with state := .undef 0 }
  | _ => d

/-- The record of an LBA, in the place of another. -/
def histRecord (iover : Iover) (bio : Bio) (lbaOffset : ℕ) (hd : HistDesc) : HistDesc :=
  { lba := BitVec.ofNat 64 (bio.slba + lbaOffset)
    curr := iover.blockDesc 0
    next := recordedDesc iover bio lbaOffset hd.next }

/-- The verifier after the first `n` records of a bio. -/
def histRecords (iover : Iover) (bio : Bio) (n : ℕ) : Iover :=
  let nhist := iover.header.nhist.toNat
  let histIdx := iover.header.histIdx.toNat
  { iover with
    histDesc := writeRing nhist histIdx (histRecord iover bio) iover.histDesc n
    header := { iover.header with histIdx := BitVec.ofNat 32 ((histIdx + n) % nhist) } }

/-- **The records say what a command does**: one for each LBA, in the slots from `hist_idx` on, of
which the last turn remains. -/
structure RecordsAgree (iover iover' committed : Iover) (bio : Bio) : Prop where
  histIdx : iover'.header.histIdx.toNat
    = (iover.header.histIdx.toNat + bio.nlbs) % iover.header.nhist.toNat
  records : ∀ o < bio.nlbs, bio.nlbs ≤ o + iover.header.nhist.toNat →
    iover'.histDesc ((iover.header.histIdx.toNat + o) % iover.header.nhist.toNat)
      = { lba := BitVec.ofNat 64 (bio.slba + o)
          curr := iover.blockDesc (bio.slba + o)
          next := committed.blockDesc (bio.slba + o) }
  others : ∀ i, (∀ o < bio.nlbs,
      i ≠ (iover.header.histIdx.toNat + o) % iover.header.nhist.toNat) →
    iover'.histDesc i = iover.histDesc i

/-- What the descriptor of an LBA and the record in the place of its own must share. -/
def KeepsFields (bio : Bio) (old cur : BlockDesc) : Prop :=
  match bio.opcode with
  | .write => old.flags = cur.flags
  | .writeUncorrect => False
  | _ => old.timestamp = cur.timestamp ∧ old.pattern = cur.pattern ∧ old.flags = cur.flags

/-- The record of an LBA says what it should: the descriptor of LBA 0 is that of the LBA, the
record that is replaced has the fields that the command leaves, and the command is not to make the
LBA uncorrectable. -/
structure RecordFits (iover : Iover) (bio : Bio) (lbaOffset : ℕ) : Prop where
  curr : iover.blockDesc 0 = iover.blockDesc (bio.slba + lbaOffset)
  next : KeepsFields bio
    (iover.histDesc ((iover.header.histIdx.toNat + lbaOffset) % iover.header.nhist.toNat)).next
    (iover.blockDesc (bio.slba + lbaOffset))

section Records

variable {iover iover' : Iover} {params : JobParams} {bio : Bio}

theorem histRecords_zero (hidx : iover.header.histIdx < iover.header.nhist) :
    histRecords iover bio 0 = iover := by
  have hlt : iover.header.histIdx.toNat < iover.header.nhist.toNat := BitVec.lt_def.mp hidx
  rw [histRecords, Nat.add_zero, Nat.mod_eq_of_lt hlt, BitVec.ofNat_toNat, BitVec.setWidth_eq]
  rfl

/-- Another record. -/
theorem histAppend_histRecords (hpos : 0 < iover.header.nhist) (n : ℕ) :
    histAppend (histRecords iover bio n) (bio.slba + n) (recordedDesc iover bio n)
      = histRecords iover bio (n + 1) := by
  have hnhist : 0 < iover.header.nhist.toNat := BitVec.lt_def.mp hpos
  have hlt := iover.header.nhist.isLt
  have hmod := Nat.mod_lt (iover.header.histIdx.toNat + n) hnhist
  have hidx : (histRecords iover bio n).header.histIdx.toNat
      = (iover.header.histIdx.toNat + n) % iover.header.nhist.toNat := by
    change (BitVec.ofNat 32 _).toNat = _
    rw [BitVec.toNat_ofNat, Nat.mod_eq_of_lt (by omega)]
  have hnext : ((histRecords iover bio n).header.histIdx + 1) % iover.header.nhist
      = BitVec.ofNat 32 ((iover.header.histIdx.toNat + (n + 1)) % iover.header.nhist.toNat) := by
    have hone : (1 : BitVec 32).toNat = 1 := rfl
    have hmod' := Nat.mod_lt (iover.header.histIdx.toNat + (n + 1)) hnhist
    apply BitVec.eq_of_toNat_eq
    rw [BitVec.toNat_umod, BitVec.toNat_add, hidx, hone, BitVec.toNat_ofNat,
      Nat.mod_eq_of_lt (show (iover.header.histIdx.toNat + n) % iover.header.nhist.toNat + 1
        < 2 ^ 32 by omega), Nat.mod_eq_of_lt (lt_trans hmod' hlt), Nat.mod_add_mod, Nat.add_assoc]
  rw [histAppend]
  simp only [hidx]
  rw [show (histRecords iover bio n).header.nhist = iover.header.nhist from rfl, hnext]
  rfl

theorem foldl_histAppend (hpos : 0 < iover.header.nhist)
    (hidx : iover.header.histIdx < iover.header.nhist) (n : ℕ) :
    (List.range n).foldl
      (fun a o => histAppend a (bio.slba + o) (recordedDesc iover bio o)) iover
      = histRecords iover bio n := by
  induction n with
  | zero => exact (histRecords_zero hidx).symm
  | succ n ih =>
    rw [List.range_succ, List.foldl_append, ih, List.foldl_cons, List.foldl_nil,
      histAppend_histRecords hpos]

/-- The loop over written blocks. -/
theorem foldlM_histAppend (hop : bio.opcode = .write) (hpos : 0 < iover.header.nhist)
    (hidx : iover.header.histIdx < iover.header.nhist) (n : ℕ)
    (hdec : ∀ o < n, datagenGetHeader iover.datagen (blockData iover bio o) ≠ none) :
    (List.range n).foldlM (fun (a : Iover) o => do
        let info ← datagenGetHeader a.datagen (blockData a bio o)
        return histAppend a (bio.slba + o) (writtenDesc .data info)) iover
      = some (histRecords iover bio n) := by
  induction n with
  | zero => rw [histRecords_zero hidx]; rfl
  | succ n ih =>
    obtain ⟨info, hinfo⟩ := Option.ne_none_iff_exists'.mp (hdec n (Nat.lt_succ_self n))
    have hrec : recordedDesc iover bio n = writtenDesc .data info := by
      funext d
      simp only [recordedDesc, hop, hinfo]
    rw [List.range_succ, List.foldlM_append, ih fun o ho => hdec o (Nat.lt_succ_of_lt ho)]
    rw [← histAppend_histRecords hpos, hrec]
    change (datagenGetHeader iover.datagen (blockData iover bio n) >>= _) >>= _ = _
    rw [hinfo]
    rfl

/-- **What `backup_hist_state` does**, where the blocks of a write have their headers. -/
theorem backupHistState_eq (hhist : params.history ≠ 0) (hc : params.compare = true)
    (hpos : 0 < iover.header.nhist) (hidx : iover.header.histIdx < iover.header.nhist)
    (hop : bio.opcode.Recorded)
    (hdec : bio.opcode = .write →
      ∀ o < bio.nlbs, datagenGetHeader iover.datagen (blockData iover bio o) ≠ none) :
    backupHistState iover params bio = some (histRecords iover bio bio.nlbs) := by
  have hon : ¬ (params.history = 0 ∨ params.compare = false) := by simp [hhist, hc]
  -- an opcode whose records do not depend on the data
  have hstate : ∀ state, (∀ o, recordedDesc iover bio o = fun d => { d with state := state }) →
      histAppendLbas iover bio state = histRecords iover bio bio.nlbs := by
    intro state hrec
    rw [histAppendLbas, ← foldl_histAppend hpos hidx]
    simp only [hrec]
  rw [backupHistState, if_neg hon]
  rcases hop with hop | hop | hop | hop
  · simp only [hop]
    exact foldlM_histAppend hop hpos hidx bio.nlbs (hdec hop)
  · simp only [hop]
    rw [hstate .dealloc fun o => by funext d; rw [recordedDesc, hop]]
  · simp only [hop]
    rw [hstate .zeroes fun o => by funext d; rw [recordedDesc, hop]]
  · simp only [hop]
    rw [hstate (.undef 0) fun o => by funext d; rw [recordedDesc, hop]]

/-! ## Agreement -/

theorem BlockDesc.eq_iff {a b : BlockDesc} : a = b ↔
    a.timestamp = b.timestamp ∧ a.state = b.state ∧ a.pattern = b.pattern ∧ a.flags = b.flags := by
  rw [BlockDesc.mk.injEq]

/-- A record that keeps the right fields is the descriptor after the command. -/
theorem recordedDesc_eq_iff (hop : bio.opcode.Recorded) {o : ℕ}
    (hdec : bio.opcode = .write →
      datagenGetHeader iover.datagen (blockData iover bio o) ≠ none) (old cur : BlockDesc) :
    recordedDesc iover bio o old = descAfter iover bio (bio.slba + o) cur ↔
      KeepsFields bio old cur := by
  rcases hop with hop | hop | hop | hop
  · obtain ⟨info, hinfo⟩ := Option.ne_none_iff_exists'.mp (hdec hop)
    simp only [recordedDesc, descAfter, KeepsFields, hop, Nat.add_sub_cancel_left, hinfo]
    rw [writtenDesc, writtenDesc, BlockDesc.eq_iff]
    simp only [true_and]
  · simp only [recordedDesc, descAfter, KeepsFields, hop, BlockDesc.eq_iff, true_and]
  · simp only [recordedDesc, descAfter, KeepsFields, hop, BlockDesc.eq_iff, true_and]
  · simp only [recordedDesc, descAfter, KeepsFields, hop, BlockDesc.eq_iff, reduceCtorEq,
      false_and, and_false]

/-- What a command leaves of a descriptor, its records leave of each other. -/
theorem keepsFields_recordedDesc (o : ℕ) (old cur : BlockDesc) :
    KeepsFields bio (recordedDesc iover bio o old) cur ↔ KeepsFields bio old cur := by
  simp only [KeepsFields, recordedDesc]
  cases bio.opcode with
  | write =>
    simp only
    split <;> exact Iff.rfl
  | _ => exact Iff.rfl

/-- The record of an LBA agrees when it fits. -/
theorem histRecords_record_iff (hop : bio.opcode.Recorded) {o : ℕ} (ho : o < bio.nlbs)
    (hlast : bio.nlbs ≤ o + iover.header.nhist.toNat)
    (hdec : bio.opcode = .write →
      datagenGetHeader iover.datagen (blockData iover bio o) ≠ none) :
    (histRecords iover bio bio.nlbs).histDesc
        ((iover.header.histIdx.toNat + o) % iover.header.nhist.toNat)
      = { lba := BitVec.ofNat 64 (bio.slba + o)
          curr := iover.blockDesc (bio.slba + o)
          next := descAfter iover bio (bio.slba + o) (iover.blockDesc (bio.slba + o)) } ↔
      RecordFits iover bio o := by
  have hkeep : KeepsFields bio
      (writeRing iover.header.nhist.toNat iover.header.histIdx.toNat (histRecord iover bio)
        iover.histDesc o
        ((iover.header.histIdx.toNat + o) % iover.header.nhist.toNat)).next
      (iover.blockDesc (bio.slba + o)) = _ :=
    writeRing_keep (fun hd : HistDesc => KeepsFields bio hd.next (iover.blockDesc (bio.slba + o)))
      (fun k hd => propext (keepsFields_recordedDesc k hd.next _)) o _
  have hrecord : (histRecords iover bio bio.nlbs).histDesc
      ((iover.header.histIdx.toNat + o) % iover.header.nhist.toNat) = _ := writeRing_last ho hlast
  rw [hrecord, histRecord, HistDesc.mk.injEq, recordedDesc_eq_iff hop hdec, hkeep]
  exact ⟨fun h => ⟨h.2.1, h.2.2⟩, fun h => ⟨rfl, h.curr, h.next⟩⟩

end Records

/-- **When the records agree with the commit**: the records that remain fit. -/
theorem recordsAgree_iff {iover : Iover} {params : JobParams} {bio : Bio}
    (hhist : params.history ≠ 0) (hc : params.compare = true) (hpos : 0 < iover.header.nhist)
    (hidx : iover.header.histIdx < iover.header.nhist) (hop : bio.opcode.Recorded)
    (hdec : bio.opcode = .write →
      ∀ o < bio.nlbs, datagenGetHeader iover.datagen (blockData iover bio o) ≠ none) :
    ∃ iover' committed, backupHistState iover params bio = some iover' ∧
      commitBlockState iover' params bio = some committed ∧
      (RecordsAgree iover iover' committed bio ↔
        ∀ o < bio.nlbs, bio.nlbs ≤ o + iover.header.nhist.toNat → RecordFits iover bio o) := by
  have hformat : iover.SameFormat (histRecords iover bio bio.nlbs) := ⟨rfl, rfl⟩
  have hsome : (commitBlockState (histRecords iover bio bio.nlbs) params bio).isSome :=
    commitBlockState_isSome fun hw _ o ho => Option.isSome_iff_ne_none.mpr (hdec hw o ho)
  obtain ⟨committed, hcommit⟩ := Option.isSome_iff_exists.mp hsome
  refine ⟨_, committed, backupHistState_eq hhist hc hpos hidx hop hdec, hcommit, ?_⟩
  have hdesc : ∀ o < bio.nlbs, committed.blockDesc (bio.slba + o)
      = descAfter iover bio (bio.slba + o) (iover.blockDesc (bio.slba + o)) := by
    intro o ho
    have hmem : bio.slba + o ∈ bio.range := ⟨Nat.le_add_right _ _, by omega⟩
    rw [commitBlockState_eq hcommit]
    change committedDesc _ params bio (bio.slba + o) = _
    rw [committedDesc, if_pos ⟨hc, hmem⟩, descAfter_congr hformat]
    rfl
  refine ⟨?_, ?_⟩
  · intro h o ho hlast
    refine (histRecords_record_iff hop ho hlast fun hw => hdec hw o ho).mp ?_
    rw [h.records o ho hlast, hdesc o ho]
  · intro h
    refine ⟨?_, ?_, fun i hi => writeRing_of_ne hi⟩
    · change (BitVec.ofNat 32 _).toNat = _
      have hmod := Nat.mod_lt (iover.header.histIdx.toNat + bio.nlbs)
        (show 0 < iover.header.nhist.toNat from BitVec.lt_def.mp hpos)
      rw [BitVec.toNat_ofNat, Nat.mod_eq_of_lt (lt_trans hmod iover.header.nhist.isLt)]
    · intro o ho hlast
      rw [hdesc o ho]
      exact (histRecords_record_iff hop ho hlast fun hw => hdec hw o ho).mpr (h o ho hlast)

/-! ## A new ring -/

/-- A verifier with a new ring of two entries, where LBA 3 has been written. -/
def ringVerifier : Iover :=
  .init (.plain 8 2 eight_lbas_lt two_entries_lt) (fun _ _ => 0)
    (Function.update (fun _ => .zero) 3 ⟨7, .data, 2, 0⟩) (fun _ => .ones)
    { JournalHeader.zero with nhist := 2 } 0

/-- A job that keeps a history. -/
def historyParams : JobParams := { JobParams.plain with history := 2 }

/-- A ring of zero bytes, and no LBA that has been written. -/
def zeroRing : Iover :=
  { ringVerifier with
    blockDesc := fun _ => .zero
    histDesc := fun _ => ⟨0, .zero, .zero⟩ }

/-- Over zeroes, the records of three LBAs that are deallocated agree, of which the last two are
in the ring. -/
theorem recordsAgree_dealloc : ∃ iover' committed,
    backupHistState zeroRing historyParams (.plain .deallocate 0 3 fun _ => 0) = some iover' ∧
      commitBlockState iover' historyParams (.plain .deallocate 0 3 fun _ => 0) = some committed ∧
      RecordsAgree zeroRing iover' committed (.plain .deallocate 0 3 fun _ => 0) := by
  obtain ⟨iover', committed, hbackup, hcommit, hiff⟩ :=
    @recordsAgree_iff zeroRing historyParams (.plain .deallocate 0 3 fun _ => 0) (by decide) rfl
      (by decide) (by decide) (.inr (.inl rfl)) fun hw => by cases hw
  have hfits : ∀ o, RecordFits zeroRing (.plain .deallocate 0 3 fun _ => 0) o :=
    fun _ => ⟨rfl, rfl, rfl, rfl⟩
  exact ⟨iover', committed, hbackup, hcommit, hiff.mpr fun o _ _ => hfits o⟩

/-- **A record that does not agree.** LBA 3 is deallocated; its record has the descriptor of LBA 0
for what it was, and what stood in the ring for its timestamp and pattern. -/
theorem not_recordsAgree_dealloc : ∃ iover' committed,
    backupHistState ringVerifier historyParams (.plain .deallocate 3 1 fun _ => 0) = some iover' ∧
      commitBlockState iover' historyParams (.plain .deallocate 3 1 fun _ => 0) = some committed ∧
      ¬ RecordsAgree ringVerifier iover' committed (.plain .deallocate 3 1 fun _ => 0) := by
  refine ⟨_, _, rfl, rfl, ?_⟩
  intro h
  have hrecord := h.records 0 (by decide) (by decide)
  exact absurd (congrArg HistDesc.curr hrecord) (by decide)

end ChamberSpo

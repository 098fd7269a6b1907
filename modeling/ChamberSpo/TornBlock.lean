import ChamberSpo.StaleData

/-!
# Torn blocks

What the verifier makes of a block of which one part was written and the other part was not: a
device that lost power, or that writes the pages of a block one by one.

* `Tear` — how a block may be put together from two others.
* `tear_accepted_iff` — what is accepted is one of the two blocks as a whole.
* `Versions.Whole` — in a run, the blocks of the log are the ones that `datagen_set_data` writes.
* `Versions.torn_block_accepted_iff` — an LBA that was torn between the version last committed and
  an earlier one is accepted only where the tear took nothing from the earlier one that differs.
-/

namespace ChamberSpo

/-! ## Blocks -/

/-- The bytes of `a` where `S` says so, and those of `b` elsewhere. -/
def Buf.splice (S : ℕ → Prop) [DecidablePred S] (a b : Buf) : Buf :=
  fun i => if S i then a i else b i

namespace Datagen

variable (dg : Datagen)

/-- The bytes from `off` on that a header has are all from the same side. -/
def KeepsHeader (S : ℕ → Prop) (off : ℕ) : Prop :=
  (∀ i < blockHeaderSize, S (off + i)) ∨ ∀ i < blockHeaderSize, ¬ S (off + i)

/-- A block that is put together from two: cut at any byte; or, where the bodies are compared as
well, in any way that leaves one of the two headers whole. -/
inductive Tear (headerOnly : Bool) (S : ℕ → Prop) : Prop where
  | before (k : ℕ) (h : ∀ i, S i ↔ i < k) : Tear headerOnly S
  | behind (k : ℕ) (h : ∀ i, S i ↔ k ≤ i) : Tear headerOnly S
  | pieces (h : headerOnly = false) (hkeeps : KeepsHeader S 0 ∨ KeepsHeader S dg.footerOffset) :
    Tear headerOnly S

/-- The block that `datagen_set_data` writes. -/
def written (info : HeaderInfo) : Buf :=
  datagenSetData dg (fun _ => 0) info.lba info.timestamp info.pattern

end Datagen

variable {dg : Datagen} {data : Buf} {info a b : HeaderInfo} {rsvd : Byte}

variable (dg) in
/-- The bytes of a header, masked, tell what the header is. -/
theorem maskHeader_injective {h h' : BlockHeader}
    (hbytes : ∀ i < blockHeaderSize,
      dg.maskHeader h.pattern h.bytes i = dg.maskHeader h'.pattern h'.bytes i) : h = h' := by
  have hpattern : h.pattern = h'.pattern := by
    have hfirst := hbytes 0 (by decide)
    rwa [Datagen.maskHeader_zero, Datagen.maskHeader_zero] at hfirst
  have hsame : ∀ i < blockHeaderSize, h.bytes i = h'.bytes i := by
    intro i hi
    have hi' := hbytes i hi
    rw [hpattern, dg.maskHeader_eq_iff, Datagen.maskHeader_maskHeader] at hi'
    exact hi'
  rw [← BlockHeader.ofBytes_bytes h, BlockHeader.ofBytes_congr hsame, BlockHeader.ofBytes_bytes]

theorem withRsvd_inj {rsvd' : Byte}
    (h : BlockHeader.withRsvd a rsvd = BlockHeader.withRsvd b rsvd') : a = b ∧ rsvd = rsvd' := by
  obtain ⟨lba, timestamp, pattern⟩ := a
  obtain ⟨lba', timestamp', pattern'⟩ := b
  simp only [BlockHeader.withRsvd, blockHeader, BlockHeader.mk.injEq] at h
  obtain ⟨hpattern, -, htime, hlba, hrsvd, -⟩ := h
  exact ⟨by rw [hlba, htime, hpattern], hrsvd⟩

/-- The first header of a block, where it is the one of a written block. -/
theorem Datagen.HasHeader.eq_of_header (h : dg.HasHeader data (.withRsvd info rsvd))
    (hdata : ∀ i < blockHeaderSize, data i = dg.written a i) : info = a ∧ rsvd = 0 := by
  refine withRsvd_inj (maskHeader_injective dg ?_)
  intro i hi
  rw [← (h i hi).1, hdata i hi]
  exact datagenSetData_header _ hi

/-- And the second. -/
theorem Datagen.HasHeader.eq_of_footer (h : dg.HasHeader data (.withRsvd info rsvd))
    (hdata : ∀ i < blockHeaderSize,
      data (dg.footerOffset + i) = dg.written a (dg.footerOffset + i)) : info = a ∧ rsvd = 0 := by
  refine withRsvd_inj (maskHeader_injective dg ?_)
  intro i hi
  rw [← (h i hi).2, hdata i hi]
  exact datagenSetData_footer _ hi

/-- **A cut**: with both headers in place, everything is of one of the two blocks. -/
theorem cut_accepted (h : dg.HasHeader data (.withRsvd info rsvd)) (k : ℕ)
    (ha : ∀ i < dg.dataSize, i < k → data i = dg.written a i)
    (hb : ∀ i < dg.dataSize, k ≤ i → data i = dg.written b i) :
    (info = a ∧ ∀ i < dg.dataSize, data i = dg.written a i) ∨
      info = b ∧ ∀ i < dg.dataSize, data i = dg.written b i := by
  have hsize := dg.dataSize_eq
  have hfo : dg.footerOffset = dg.dataSize - blockHeaderSize := rfl
  simp only [blockHeaderSize] at hsize hfo
  rcases Nat.lt_or_ge dg.footerOffset k with hk | hk
  · -- the first header is of `a`, and the second one is like it
    obtain ⟨rfl, rfl⟩ := h.eq_of_header fun i hi =>
      ha i (by rw [blockHeaderSize] at hi; omega) (by rw [blockHeaderSize] at hi; omega)
    refine .inl ⟨rfl, ?_⟩
    intro i hi
    rcases Nat.lt_or_ge i dg.footerOffset with hlt | hge
    · exact ha i hi (by omega)
    · obtain ⟨j, rfl⟩ := Nat.exists_eq_add_of_le hge
      have hj : j < blockHeaderSize := by
        rw [blockHeaderSize]
        omega
      rw [(h j hj).2]
      exact (datagenSetData_footer _ hj).symm
  · -- the second header is of `b`
    obtain ⟨hinfo, hrsvd⟩ := h.eq_of_footer fun i hi =>
      hb _ (by rw [blockHeaderSize] at hi; omega) (by omega)
    refine .inr ⟨hinfo, ?_⟩
    intro i hi
    rcases Nat.lt_or_ge i k with hlt | hge
    · rcases Nat.lt_or_ge i blockHeaderSize with hhead | hbody
      · rw [(h i hhead).1, hinfo, hrsvd]
        exact (datagenSetData_header _ hhead).symm
      · -- then the whole first header is of `a`, so the two are the same
        obtain ⟨hinfo', -⟩ := h.eq_of_header fun i hi =>
          ha i (by rw [blockHeaderSize] at hi; omega) (by omega)
        rw [ha i hi hlt, ← hinfo', hinfo]
    · exact hb i hi hge

/-- **What is accepted of a torn block**: one of the two blocks, as a whole. -/
theorem tear_accepted {headerOnly : Bool} {S : ℕ → Prop} [DecidablePred S]
    (htear : dg.Tear headerOnly S)
    (hdata : ∀ i < dg.dataSize, data i = Buf.splice S (dg.written a) (dg.written b) i)
    (hdec : datagenGetHeader dg data = some info)
    (hbody : headerOnly = false → ∀ i < dg.bodySize,
      data (blockHeaderSize + i) = (dg.patterns info.pattern.toNat).body i) :
    (info = a ∧ ∀ i < dg.dataSize, data i = dg.written a i) ∨
      info = b ∧ ∀ i < dg.dataSize, data i = dg.written b i := by
  obtain ⟨-, rsvd, hheader⟩ := datagenGetHeader_eq_some.mp hdec
  have hsize := dg.dataSize_eq
  have hfo : dg.footerOffset = dg.dataSize - blockHeaderSize := rfl
  have hin : ∀ i < dg.dataSize, S i → data i = dg.written a i := by
    intro i hi hS
    rw [hdata i hi, Buf.splice, if_pos hS]
  have hout : ∀ i < dg.dataSize, ¬ S i → data i = dg.written b i := by
    intro i hi hS
    rw [hdata i hi, Buf.splice, if_neg hS]
  cases htear with
  | before k hS =>
    refine cut_accepted hheader k ?_ ?_
    · exact fun i hi hlt => hin i hi ((hS i).mpr hlt)
    · exact fun i hi hle => hout i hi fun hSi => absurd ((hS i).mp hSi) (by omega)
  | behind k hS =>
    refine (cut_accepted hheader k ?_ ?_).symm
    · exact fun i hi hlt => hout i hi fun hSi => absurd ((hS i).mp hSi) (by omega)
    · exact fun i hi hle => hin i hi ((hS i).mpr hle)
  | pieces hfull hkeeps =>
    -- a header that is whole says which block it is, and then all of the block
    have hwhole : ∀ c, info = c ∧ rsvd = 0 →
        info = c ∧ ∀ i < dg.dataSize, data i = dg.written c i := by
      rintro c ⟨rfl, rfl⟩
      refine ⟨rfl, ?_⟩
      intro i hi
      have hxor := (hasHeader_and_body_iff dg data info (fun _ => 0) 0).mp
        ⟨hheader, hbody hfull⟩ i hi
      rw [hxor, Datagen.xorRsvd]
      split
      · exact BitVec.xor_zero
      · rfl
    rcases hkeeps with (hkeep | hkeep) | (hkeep | hkeep)
    · refine .inl (hwhole a (hheader.eq_of_header ?_))
      intro i hi
      exact hin i (by omega) (by simpa using hkeep i hi)
    · refine .inr (hwhole b (hheader.eq_of_header ?_))
      intro i hi
      exact hout i (by omega) (by simpa using hkeep i hi)
    · refine .inl (hwhole a (hheader.eq_of_footer ?_))
      intro i hi
      exact hin _ (by omega) (hkeep i hi)
    · refine .inr (hwhole b (hheader.eq_of_footer ?_))
      intro i hi
      exact hout _ (by omega) (hkeep i hi)

/-! ## Runs -/

namespace Versions

variable {ι : Type*} [DecidableEq ι] {p : JobParams} {iover : Iover} {s s' : Versions ι}

/-- The blocks of write bio number `k` are those that `datagen_set_data` writes. -/
def WholeBlocks (iover : Iover) (k : ℕ) (bio : Bio) : Prop :=
  ∀ o < bio.nlbs, ∃ pattern : Byte, pattern.toNat < iover.datagen.npatterns ∧
    ∀ i < iover.ns.dataSize, blockData iover bio o i
      = iover.datagen.written ⟨BitVec.ofNat 64 (bio.slba + o), time iover k, pattern⟩ i

/-- What holds of the blocks of the log, and of the number of the last write of an LBA. -/
structure Whole (iover : Iover) (s : Versions ι) : Prop where
  blocks : ∀ k bio, s.log[k]? = some bio → WholeBlocks iover k bio
  committed : ∀ x k, s.committed x = some k → ∃ bio, s.log[k]? = some bio ∧ x ∈ bio.range

omit [DecidableEq ι] in
/-- The write that is issued next. -/
theorem Whole.issueWrite (h : Whole iover s) (hinv : Inv p iover s) (hcompare : p.compare = true)
    {bio : Bio} {iover' : Iover} (hgen : Generates s.ns.iover p iover' bio)
    (hop : bio.opcode = .write) (ns : Ns ι) (index : ι → ℕ) :
    Whole iover ⟨ns, s.log ++ [bio], index, s.committed⟩ := by
  obtain ⟨-, hformat, -, -⟩ := hgen.spec
  have hfmt := hinv.format.trans hformat
  have htime : iover'.timestamp = time iover s.log.length := by
    rw [hgen.timestamp hcompare, if_pos hop, hinv.timestamp, time, BitVec.add_assoc,
      BitVec.ofNat_add]
    rfl
  refine ⟨?_, ?_⟩
  · intro k b hb
    rcases Nat.lt_trichotomy k s.log.length with hlt | rfl | hgt
    · rw [List.getElem?_append_left hlt] at hb
      exact h.blocks k b hb
    · rw [List.getElem?_concat_length] at hb
      obtain rfl := Option.some.inj hb
      intro o ho
      refine ⟨writePattern iover' (bio.slba + o), ?_, ?_⟩
      · rw [← hfmt.datagen]
        exact writePattern_lt iover' _
      · intro i hi
        have hblock := hgen.written hop hcompare o ho i (by rw [hfmt.ns]; exact hi)
        rw [← hfmt.datagen, ← blockData_congr hfmt, ← htime, hblock]
        rfl
    · rw [List.getElem?_eq_none (by simp; omega)] at hb
      cases hb
  · intro x k hk
    obtain ⟨b, hb, hx⟩ := h.committed x k hk
    exact ⟨b, by rw [List.getElem?_append_left (List.getElem?_eq_some_iff.mp hb).1, hb], hx⟩

/-- **The step lemma.** -/
theorem Whole.step (h : Whole iover s) (hinv : Inv p iover s) (hcompare : p.compare = true)
    {lab : NsLabel ι} (hs : Step p s lab s') : Whole iover s' := by
  obtain ⟨ns, hns, hjob, rfl⟩ := hs
  cases hns with
  | issue i params bio iover' hl hover hgen =>
    obtain ⟨rfl, -⟩ := hjob
    by_cases hop : bio.opcode = .write
    · simp only [after, hop, if_true]
      exact h.issueWrite hinv hcompare hgen hop _ _
    · simp only [after, hop, if_false]
      exact ⟨h.blocks, h.committed⟩
  | finish i params bio t job r hl htail hres =>
    by_cases hw : bio.opcode = .write ∧ bio.result = 0
    · simp only [after, hl, hw, and_self, if_true]
      refine ⟨h.blocks, ?_⟩
      intro x k hk
      simp only at hk
      split at hk
      · -- the bio in flight stands in the log under its number
        rename_i hx
        obtain rfl := Option.some.inj hk
        obtain ⟨b, hb, hsame⟩ := (hinv.tracked i _ hl).write hw.1
        refine ⟨b, hb, ?_⟩
        rwa [Bio.mem_range, hsame.slba, hsame.nlbs, ← Bio.mem_range] at hx
      · exact h.committed x k hk
    · simp only [after, hl, hw, if_false]
      exact ⟨h.blocks, h.committed⟩
  | _ => exact ⟨h.blocks, h.committed⟩

omit [DecidableEq ι] in
theorem whole_init : Whole iover (init iover : Versions ι) where
  blocks _ _ h := by cases h
  committed _ _ h := by cases h

omit [DecidableEq ι] in
/-- What a write bio of the log holds for an LBA. -/
theorem Whole.blockOf (h : Whole iover s) (hinv : Inv p iover s) {k x : ℕ} {bio : Bio}
    (hbio : s.log[k]? = some bio) (hx : x ∈ bio.range) :
    ∃ pattern : Byte, pattern.toNat < s.ns.iover.datagen.npatterns ∧
      ∀ i < s.ns.iover.ns.dataSize, blockData s.ns.iover bio (x - bio.slba) i
        = s.ns.iover.datagen.written ⟨BitVec.ofNat 64 x, time iover k, pattern⟩ i := by
  obtain ⟨hle, hlt⟩ := hx
  obtain ⟨pattern, hpattern, hblock⟩ := h.blocks k bio hbio (x - bio.slba) (by omega)
  rw [Nat.add_sub_cancel' hle] at hblock
  rw [hinv.format.datagen, hinv.format.ns, blockData_congr hinv.format]
  exact ⟨pattern, hpattern, hblock⟩

/-- **A torn block is seen.** When an LBA is in state data and `k` is the write bio last committed
on it, a block that is torn between what `k` wrote there and what an earlier write bio `j` wrote
there, less than 65536 write bios older, is accepted if and only if it holds what `k` wrote. -/
theorem torn_block_accepted_iff (ho : p.lbaOverlap = false) (hcompare : p.compare = true)
    {ls : List (NsLabel ι)} (hrun : Run (Step p) (init iover) ls s) {x j k : ℕ} {old new : Bio}
    (hdata : (s.ns.iover.blockDesc x).state = .data) (hk : s.committed x = some k)
    (hnew : s.log[k]? = some new) (hold : s.log[j]? = some old) (hx : x ∈ old.range) (hjk : j < k)
    (hnear : k - j < 65536) {S : ℕ → Prop} [DecidablePred S]
    (htear : s.ns.iover.datagen.Tear p.compareHeaderOnly S) {bio : Bio} {o : ℕ}
    (hlba : bio.slba + o = x) (hblock : ∀ i < s.ns.iover.ns.dataSize,
      blockData s.ns.iover bio o i = Buf.splice S (blockData s.ns.iover old (x - old.slba))
        (blockData s.ns.iover new (x - new.slba)) i) :
    verifyBlockData s.ns.iover p bio o (s.ns.iover.blockDesc x) = 0 ↔
      ∀ i < s.ns.iover.ns.dataSize,
        blockData s.ns.iover bio o i = blockData s.ns.iover new (x - new.slba) i := by
  obtain ⟨hinv, hwhole⟩ : Inv p iover s ∧ Whole iover s :=
    hrun.invariant (I := fun s => Inv p iover s ∧ Whole iover s)
      (fun _ _ _ h hs => ⟨h.1.step hcompare hs, h.2.step h.1 hcompare hs⟩) ⟨inv_init, whole_init⟩
  have hxnew : x ∈ new.range := by
    obtain ⟨b, hb, hxb⟩ := hwhole.committed x k hk
    obtain rfl := Option.some.inj (hb.symm.trans hnew)
    exact hxb
  obtain ⟨q, -, hqold⟩ := hwhole.blockOf hinv hold hx
  obtain ⟨r, hr, hrnew⟩ := hwhole.blockOf hinv hnew hxnew
  have htime := hinv.data x k hk hdata
  constructor
  · intro hzero
    have hsize := s.ns.iover.datagen_dataSize
    have hsplice : ∀ i < s.ns.iover.datagen.dataSize, blockData s.ns.iover bio o i
        = Buf.splice S (s.ns.iover.datagen.written ⟨BitVec.ofNat 64 x, time iover j, q⟩)
          (s.ns.iover.datagen.written ⟨BitVec.ofNat 64 x, time iover k, r⟩) i := by
      intro i hi
      rw [hsize] at hi
      rw [hblock i hi, Buf.splice, Buf.splice, hqold i hi, hrnew i hi]
    rw [verifyBlockData] at hzero
    cases hheader : verifyBlockHeader s.ns.iover p bio o (s.ns.iover.blockDesc x) with
    | none =>
      rw [hheader] at hzero
      exact absurd hzero (show (-1 : Int) ≠ 0 by decide)
    | some pattern =>
      obtain ⟨t, hdec, ht⟩ := (verifyBlockHeader_eq_some_iff ho).mp hheader
      rw [hheader] at hzero
      have hbody : p.compareHeaderOnly = false → ∀ i < s.ns.iover.datagen.bodySize,
          blockData s.ns.iover bio o (blockHeaderSize + i)
            = (s.ns.iover.datagen.patterns pattern.toNat).body i := by
        intro hfull
        simp only [hfull, Bool.false_eq_true, if_false] at hzero
        exact verifyBlockBody_eq_zero_iff.mp hzero
      rcases tear_accepted htear hsplice hdec hbody with ⟨hinfo, -⟩ | ⟨-, hall⟩
      · -- the descriptor has the timestamp of the later write
        have htj : t = time iover j := congrArg HeaderInfo.timestamp hinfo
        rw [htj, htime] at ht
        exact absurd ht (setWidth_add_ne iover.timestamp (by omega) (by omega))
      · intro i hi
        rw [hall i (hsize.symm ▸ hi), hrnew i hi]
  · intro hall
    refine verifyBlockData_of_setData ho hr htime.symm ?_
    intro i hi
    rw [hall i hi, hrnew i hi, hlba]
    rfl

/-- After two writes of LBA 0, the header of the first one in front of what the second one wrote is
refused. -/
theorem torn_block_two_writes : ∃ (ls : List (NsLabel Unit)) (s : Versions Unit) (old new : Bio),
    Run (Step .plain) (init (Iover.plain .zero)) ls s ∧
      s.log[0]? = some old ∧ s.log[1]? = some new ∧
      verifyBlockData s.ns.iover .plain
        (.plain .read 0 1 (Buf.splice (· < 20) (blockData s.ns.iover old (0 - old.slba))
          (blockData s.ns.iover new (0 - new.slba)))) 0 (s.ns.iover.blockDesc 0) ≠ 0 := by
  obtain ⟨ls, s, old, hrun, hdata, hk, hold, hx⟩ := two_writes_run
  obtain ⟨hinv, hwhole⟩ : Inv .plain (Iover.plain .zero) s ∧ Whole (Iover.plain .zero) s :=
    hrun.invariant (I := fun s => Inv .plain (Iover.plain .zero) s ∧ Whole (Iover.plain .zero) s)
      (fun _ _ _ h hs => ⟨h.1.step rfl hs, h.2.step h.1 rfl hs⟩) ⟨inv_init, whole_init⟩
  obtain ⟨new, hnew, hxnew⟩ := hwhole.committed 0 1 hk
  refine ⟨ls, s, old, new, hrun, hold, hnew, ?_⟩
  intro hzero
  have hblock : ∀ (data : Buf) i, blockData s.ns.iover (.plain .read 0 1 data) 0 i = data i := by
    intro data i
    rw [blockData, Nat.mul_zero, Buf.shift_apply, Nat.zero_add]
    rfl
  have hall := (torn_block_accepted_iff rfl rfl hrun hdata hk hnew hold hx Nat.zero_lt_one
    (by decide) (.before 20 fun _ => Iff.rfl) (Nat.zero_add 0) fun i _ => hblock _ i).mp hzero
  -- then the two headers would be the same
  obtain ⟨q, -, hqold⟩ := hwhole.blockOf hinv hold hx
  obtain ⟨r, -, hrnew⟩ := hwhole.blockOf hinv hnew hxnew
  have hsize := s.ns.iover.datagen.dataSize_eq
  rw [s.ns.iover.datagen_dataSize] at hsize
  have hheader : BlockHeader.withRsvd ⟨BitVec.ofNat 64 0, time (Iover.plain .zero) 0, q⟩ 0
      = BlockHeader.withRsvd ⟨BitVec.ofNat 64 0, time (Iover.plain .zero) 1, r⟩ 0 := by
    refine maskHeader_injective s.ns.iover.datagen ?_
    intro i hi
    have hin : i < s.ns.iover.ns.dataSize := by
      rw [hsize]
      omega
    have hi' := hall i hin
    rw [hblock, Buf.splice, if_pos (by exact hi), hqold i hin, hrnew i hin] at hi'
    exact (datagenSetData_header _ hi).symm.trans (hi'.trans (datagenSetData_header _ hi))
  have htime : time (Iover.plain .zero) 0 = time (Iover.plain .zero) 1 :=
    congrArg HeaderInfo.timestamp (withRsvd_inj hheader).1
  exact absurd htime (by decide)

end Versions

end ChamberSpo

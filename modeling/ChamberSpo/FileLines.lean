import ChamberSpo.LineGrammar
import ChamberSpo.ParamFile
import Mathlib.Data.List.TakeWhile

/-!
# The lines of a parameter file

Which files `parse_param` reads all of: each line is given to `parse_line` as it stands, less its
comment and its end, and is accepted (`AllRead`).

* `fileLines` — the lines of a file, whichever of line feed and carriage return ends them.
* `Kept` — what the file has to be for that, and what has to be in the line buffer.
* `allRead_iff` — a file that `parse_param` returns 0 for is read like this if and only if it is so.

A stretch of the file between line feeds gives one text to `parse_line` at most, and the texts are
never more than the lines (`Segment`); so all the lines are read if they are in each stretch.
-/

namespace ChamberSpo

/-! ## Lines -/

/-- A line ends. -/
def isLineEnd (ch : Byte) : Bool := ch == lf || ch == cr

/-- A comment begins. -/
def isComment (ch : Byte) : Bool := ch == chr '#' || ch == chr ';'

/-- A line without its comment. -/
def uncomment (line : List Byte) : List Byte := line.takeWhile fun ch => !isComment ch

/-- The lines of a file without comments, of which there is something left. -/
def fileLines (file : List Byte) : List (List Byte) :=
  ((file.splitOnP isLineEnd).map uncomment).filter (· ≠ [])

/-- The texts that were given to `parse_line`, of which there is something. -/
def givenTexts (given : List GivenLine) : List (List Byte) :=
  (given.map (·.text)).filter (· ≠ [])

/-- **Nothing is lost or altered**: the lines of the file are what was given to `parse_line`, and all
of it was accepted. -/
structure AllRead (file : List Byte) (given : List GivenLine) : Prop where
  texts : givenTexts given = fileLines file
  accepted : ∀ line ∈ given, line.accepted = true

/-! ## What the buffer keeps -/

/-- What `read_line` stores of a stretch of the file without line feeds. -/
def stored (seg : List Byte) : List Byte :=
  (uncomment seg).map fun ch => if ch = cr then 0 else ch

/-- The byte that is left at a place of the line buffer: that of the last line which came so far. -/
def leftAt (lineBuf : Buf) (segs : List (List Byte)) (k : ℕ) : Byte :=
  segs.foldl (fun left seg => (stored seg ++ [0])[k]?.getD left) (lineBuf k)

/-- Each line of the file comes to `parse_line` as it is. -/
structure TextsKept (lineBuf : Buf) (file : List Byte) : Prop where
  /-- after a carriage return there is nothing more before the line feed -/
  single : ∀ seg ∈ file.splitOn lf, ∀ line ∈ (seg.splitOn cr).tail, uncomment line = []
  noZero : ∀ line ∈ fileLines file, 0 ∉ line
  /-- a last line that nothing ends is ended by a zero that was in the buffer -/
  ended : ∀ segs last, file.splitOn lf = segs ++ [last] → last ≠ [] →
    (∀ ch ∈ last, ch ≠ cr ∧ isComment ch = false) → leftAt lineBuf segs last.length = 0

/-- Each line of the file comes to `parse_line` as it is, and no token is too long. -/
structure Kept (lineBuf : Buf) (file : List Byte) : Prop extends TextsKept lineBuf file where
  short : ∀ line ∈ fileLines file, ¬ LongToken line

/-! ## Stretches between line feeds -/

section Segment

variable {seg rest : List Byte}

theorem splitOnP_congr {p q : Byte → Bool} (h : ∀ ch ∈ seg, p ch = q ch) :
    seg.splitOnP p = seg.splitOnP q := by
  induction seg with
  | nil => rfl
  | cons ch seg ih =>
    rw [List.splitOnP_cons_eq_if_modifyHead, List.splitOnP_cons_eq_if_modifyHead,
      h ch List.mem_cons_self, ih fun ch hch => h ch (List.mem_cons_of_mem _ hch)]

/-- Without line feeds, lines end at carriage returns. -/
theorem fileLines_of_not_mem (h : lf ∉ seg) :
    fileLines seg = ((seg.splitOn cr).map uncomment).filter (· ≠ []) := by
  simp only [fileLines]
  rw [List.splitOn_eq_splitOnP, splitOnP_congr]
  intro ch hch
  have hlf : (ch == lf) = false := beq_eq_false_iff_ne.mpr fun heq => h (heq ▸ hch)
  rw [isLineEnd, hlf, Bool.false_or]

theorem fileLines_append (seg rest : List Byte) :
    fileLines (seg ++ lf :: rest) = fileLines seg ++ fileLines rest := by
  simp only [fileLines]
  rw [List.splitOnP_append_cons seg rest (by decide), List.map_append, List.filter_append]

/-- The first line of a stretch. -/
theorem splitOn_cr (seg : List Byte) :
    seg.splitOn cr = seg.takeWhile (· ≠ cr) :: (seg.splitOn cr).tail := by
  induction seg with
  | nil => rfl
  | cons ch seg ih =>
    rw [List.splitOn_cons_eq_if_modifyHead, List.takeWhile_cons]
    by_cases hch : ch = cr
    · subst hch
      rfl
    · rw [if_neg (by simpa using hch), if_pos (by simpa using hch), ih]
      rfl

/-- The text that `parse_line` finds is the first line, to a zero in it. -/
theorem takeWhile_stored (seg : List Byte) :
    (stored seg).takeWhile (· ≠ 0) = (uncomment (seg.takeWhile (· ≠ cr))).takeWhile (· ≠ 0) := by
  have hcr : isComment cr = false := by decide
  simp only [stored, uncomment]
  induction seg with
  | nil => rfl
  | cons ch seg ih =>
    by_cases hch : ch = cr
    · simp [hch, hcr]
    have hne : decide (ch ≠ cr) = true := decide_eq_true hch
    by_cases hcomment : isComment ch = true
    · simp [hcomment, hch]
    have hkeep : (!isComment ch) = true := by rw [Bool.eq_false_of_not_eq_true hcomment]; rfl
    have huncomment (l : List Byte) : (ch :: l).takeWhile (fun ch => !isComment ch) =
        ch :: l.takeWhile fun ch => !isComment ch := List.takeWhile_cons_of_pos hkeep
    have hfirst : (ch :: seg).takeWhile (· ≠ cr) = ch :: seg.takeWhile (· ≠ cr) :=
      List.takeWhile_cons_of_pos hne
    rw [hfirst, huncomment, huncomment, List.map_cons, if_neg hch, List.takeWhile_cons,
      List.takeWhile_cons, ih]

/-! ## `read_line` -/

theorem putText_cons (buf : Buf) (col : ℕ) (ch : Byte) (text : List Byte) :
    (buf.putText col [ch]).putText (col + 1) text = buf.putText col (ch :: text) := by
  funext i
  simp only [Buf.putText]
  rcases lt_trichotomy i col with hi | rfl | hi
  · rw [if_neg (by omega), if_neg (by omega), if_neg (by omega)]
  · rw [if_neg (by omega), if_pos le_rfl, if_pos le_rfl, Nat.sub_self]
    rfl
  · obtain ⟨k, rfl⟩ := Nat.exists_eq_add_of_lt hi
    rw [if_pos (by omega), if_pos (by omega), if_pos (by omega),
      show col + k + 1 - col = k + 1 by omega, show col + k + 1 - (col + 1) = k by omega]
    rfl

theorem skipComment_append (h : lf ∉ seg) (rest : List Byte) :
    skipComment (seg ++ lf :: rest) = (rest, false) := by
  induction seg with
  | nil => exact if_pos rfl
  | cons ch seg ih =>
    have hch : ch ≠ lf := fun heq => h (heq ▸ List.mem_cons_self)
    rw [List.cons_append, skipComment, if_neg hch]
    exact ih fun hmem => h (List.mem_cons_of_mem _ hmem)

theorem skipComment_last (h : lf ∉ seg) : skipComment seg = ([], true) := by
  induction seg with
  | nil => rfl
  | cons ch seg ih =>
    have hch : ch ≠ lf := fun heq => h (heq ▸ List.mem_cons_self)
    rw [skipComment, if_neg hch]
    exact ih fun hmem => h (List.mem_cons_of_mem _ hmem)

theorem stored_cons {ch : Byte} (h : ¬ (ch = chr '#' ∨ ch = chr ';')) (seg : List Byte) :
    stored (ch :: seg) = (if ch = cr then 0 else ch) :: stored seg := by
  have hkeep : (!isComment ch) = true := by simpa [isComment] using h
  simp only [stored, uncomment]
  rw [List.takeWhile_cons_of_pos (p := fun ch => !isComment ch) hkeep]
  rfl

theorem stored_comment {ch : Byte} (h : ch = chr '#' ∨ ch = chr ';') (seg : List Byte) :
    stored (ch :: seg) = [] := by
  rcases h with rfl | rfl <;> rfl

/-- A stretch that a line feed ends is stored with a zero after it. -/
theorem readLine_append {col : ℕ} {buf : Buf} {r : ReadLine} (hseg : lf ∉ seg)
    (hcol : col < lineBufLen) (h : readLine col buf (seg ++ lf :: rest) = some r) :
    r = { col := col + (stored seg).length, buf := buf.putText col (stored seg ++ [0]),
          rest := rest, eof := false } ∧ r.col < lineBufLen := by
  induction seg generalizing col buf with
  | nil =>
    rw [List.nil_append, readLine, if_pos rfl] at h
    cases h
    exact ⟨rfl, hcol⟩
  | cons ch seg ih =>
    have hch : ch ≠ lf := fun heq => hseg (heq ▸ List.mem_cons_self)
    have hseg' : lf ∉ seg := fun hmem => hseg (List.mem_cons_of_mem _ hmem)
    rw [List.cons_append, readLine, if_neg hch] at h
    by_cases hcomment : ch = chr '#' ∨ ch = chr ';'
    · rw [if_pos hcomment, skipComment_append hseg'] at h
      cases h
      rw [stored_comment hcomment]
      exact ⟨rfl, hcol⟩
    rw [if_neg hcomment] at h
    by_cases hfull : col + 1 = lineBufLen
    · rw [if_pos hfull] at h
      cases h
    rw [if_neg hfull] at h
    obtain ⟨hr, hlt⟩ := ih hseg' (by omega) h
    refine ⟨?_, hlt⟩
    rw [hr, stored_cons hcomment, putText_cons, List.length_cons, List.cons_append,
      Nat.add_right_comm, Nat.add_assoc]

/-- A stretch that the end of the file ends gets a zero only from a comment. -/
theorem readLine_last {col : ℕ} {buf : Buf} {r : ReadLine} (hseg : lf ∉ seg)
    (hcol : col < lineBufLen) (h : readLine col buf seg = some r) :
    r.col = col + (stored seg).length ∧ r.col < lineBufLen ∧ r.rest = [] ∧ r.eof = true ∧
      r.buf = buf.putText col
        (if ∃ ch ∈ seg, isComment ch = true then stored seg ++ [0] else stored seg) := by
  induction seg generalizing col buf with
  | nil =>
    rw [readLine] at h
    cases h
    refine ⟨rfl, hcol, rfl, rfl, ?_⟩
    funext i
    simp [Buf.putText, stored, uncomment]
  | cons ch seg ih =>
    have hch : ch ≠ lf := fun heq => hseg (heq ▸ List.mem_cons_self)
    have hseg' : lf ∉ seg := fun hmem => hseg (List.mem_cons_of_mem _ hmem)
    rw [readLine, if_neg hch] at h
    by_cases hcomment : ch = chr '#' ∨ ch = chr ';'
    · rw [if_pos hcomment, skipComment_last hseg'] at h
      cases h
      have hmem : ∃ c ∈ ch :: seg, isComment c = true :=
        ⟨ch, List.mem_cons_self, by simpa [isComment] using hcomment⟩
      rw [stored_comment hcomment, if_pos hmem]
      exact ⟨rfl, hcol, rfl, rfl, rfl⟩
    rw [if_neg hcomment] at h
    by_cases hfull : col + 1 = lineBufLen
    · rw [if_pos hfull] at h
      cases h
    rw [if_neg hfull] at h
    obtain ⟨hr, hlt, hrest, heof, hbuf⟩ := ih hseg' (by omega) h
    have hnot : isComment ch = false := by simpa [isComment] using hcomment
    have hiff : (∃ c ∈ ch :: seg, isComment c = true) ↔ ∃ c ∈ seg, isComment c = true := by
      simp [hnot]
    refine ⟨?_, hlt, hrest, heof, ?_⟩
    · rw [hr, stored_cons hcomment, List.length_cons]
      omega
    · rw [hbuf, stored_cons hcomment, putText_cons]
      simp only [hiff]
      split_ifs <;> rfl

/-! ## The text in the buffer -/

theorem map_putText (buf : Buf) {text : List Byte} {n : ℕ} (h : text.length ≤ n) :
    (List.range n).map (buf.putText 0 text) =
      text ++ (List.range (n - text.length)).map fun i => buf (text.length + i) := by
  apply List.ext_getElem
  · simp only [List.length_map, List.length_range, List.length_append]
    omega
  · intro i hi _
    rw [List.getElem_map, List.getElem_range, Buf.putText, if_pos (Nat.zero_le _), Nat.sub_zero]
    by_cases hlt : i < text.length
    · rw [List.getElem?_eq_getElem hlt, List.getElem_append_left hlt]
      rfl
    · have hle : text.length ≤ i := Nat.le_of_not_lt hlt
      rw [List.getElem?_eq_none hle, List.getElem_append_right hle, List.getElem_map,
        List.getElem_range, Nat.add_sub_cancel' hle]
      rfl

/-- A text with a zero in it is read to the zero. -/
theorem lineText_of_mem (buf : Buf) {text : List Byte} (hlen : text.length ≤ lineBufLen)
    (hzero : 0 ∈ text) : lineText (buf.putText 0 text) = text.takeWhile (· ≠ 0) := by
  simp only [lineText]
  rw [map_putText buf hlen, List.takeWhile_append, if_neg]
  intro hall
  have hself : text.takeWhile (· ≠ 0) = text := (List.takeWhile_prefix _).eq_of_length hall
  have hne := List.takeWhile_eq_self_iff.mp hself 0 hzero
  exact absurd rfl (of_decide_eq_true hne)

/-- A text without a zero is read with what follows it. -/
theorem lineText_of_not_mem (buf : Buf) {text : List Byte} (hlen : text.length < lineBufLen)
    (hzero : 0 ∉ text) :
    (lineText (buf.putText 0 text) = text ↔ buf text.length = 0) ∧
      text.length ≤ (lineText (buf.putText 0 text)).length := by
  have hall : ∀ ch ∈ text, decide (ch ≠ 0) = true := fun ch hch =>
    decide_eq_true fun heq => hzero (heq ▸ hch)
  have hmore : lineBufLen - text.length = (lineBufLen - text.length - 1) + 1 := by omega
  have htext : lineText (buf.putText 0 text) = text ++
      ((List.range (lineBufLen - text.length)).map fun i => buf (text.length + i)).takeWhile
        (· ≠ 0) := by
    simp only [lineText]
    rw [map_putText buf hlen.le, List.takeWhile_append_of_pos hall]
  rw [htext]
  refine ⟨?_, by simp⟩
  rw [List.append_right_eq_self, hmore, List.range_succ_eq_map, List.map_cons, Nat.add_zero,
    List.takeWhile_cons]
  by_cases hleft : buf text.length = 0
  · simp [hleft]
  · simp

theorem zero_not_mem_lineText (buf : Buf) : (0 : Byte) ∉ lineText buf := by
  intro h
  simp only [lineText] at h
  have hne := List.mem_takeWhile_imp h
  exact absurd rfl (of_decide_eq_true hne)

/-! ## `parse_line` -/

/-- A line is accepted if it has no token that is too long; otherwise the process ends. -/
theorem parseBuffer_spec (parser : Parser) (buf : Buf) :
    (∀ p, parseBuffer parser buf = .ok p → ¬ LongToken (lineText buf)) ∧
      ∀ p, parseBuffer parser buf = .error (.longToken p) → LongToken (lineText buf) := by
  have hzero := zero_not_mem_lineText buf
  have hlong {p : Parser} (h : parseLine parser (lineText buf) = .error (.longToken p)) :
      LongToken (lineText buf) :=
    longToken_iff.mpr ((parseLine_error hzero h (k := .longToken) nofun).mp rfl)
  simp only [parseBuffer]
  by_cases hlen : (lineText buf).length < lineBufLen
  · simp only [if_pos hlen]
    refine ⟨?_, fun p => hlong⟩
    intro p h hlong
    obtain ⟨σ, ch, hstops, -⟩ := longToken_iff.mp hlong
    exact hstops.parseLine_ne_ok hzero p h
  · simp only [if_neg hlen]
    cases hrun : (lineText buf).foldlM (parseStep (lineText buf)) (parserNewline parser) with
    | ok q => exact ⟨nofun, nofun⟩
    | error e =>
      refine ⟨nofun, ?_⟩
      intro p h
      obtain rfl := Except.error.inj h
      apply hlong (p := p)
      rw [parseLine_eq, hrun]
      rfl

/-! ## The handlers -/

/-- Capitals are as little a zero as small letters. -/
theorem Token.rewrite_eq_zero (token : Token) {f : List Byte → List Byte}
    (hf : ∀ text, tokenStrupr (f text) = tokenStrupr text) (buf : Buf) (k : ℕ) :
    token.rewrite f buf k = 0 ↔ buf k = 0 := by
  have hat (i : ℕ) : (f (token.read buf))[i]?.map toupper = (token.read buf)[i]?.map toupper := by
    rw [← List.getElem?_map, ← List.getElem?_map]
    exact congrArg (·[i]?) (hf (token.read buf))
  have hread (i : ℕ) (hi : i < token.len) : (token.read buf)[i]? = some (buf (token.col + i)) := by
    rw [Token.read, List.getElem?_map, List.getElem?_range hi]
    rfl
  simp only [Token.rewrite, Buf.putText]
  by_cases hcol : token.col ≤ k
  · rw [if_pos hcol]
    by_cases hlen : k - token.col < token.len
    · have hk := hat (k - token.col)
      rw [hread _ hlen, Nat.add_sub_cancel' hcol] at hk
      obtain ⟨ch, hch, heq⟩ := Option.map_eq_some_iff.mp hk
      rw [hch, Option.getD_some, ← toupper_eq_zero ch, heq, toupper_eq_zero]
    · have hk := hat (k - token.col)
      have hnone : (token.read buf)[k - token.col]? = none := by
        rw [Token.read, List.getElem?_eq_none]
        simpa using hlen
      rw [hnone] at hk
      rw [Option.map_eq_none_iff.mp hk]
      rfl
  · rw [if_neg hcol]

theorem rewriteTokens_eq_zero (parser : Parser) (buf : Buf) (call : HandlerCall) (k : ℕ) :
    rewriteTokens parser buf call k = 0 ↔ buf k = 0 := by
  cases call with
  | sectionDefined name => rfl
  | envRefered key reference =>
    exact (parser.tokens 0).rewrite_eq_zero tokenStrupr_tokenStrupr buf k
  | propertyDefined key value =>
    have hkey := (parser.tokens 0).rewrite_eq_zero tokenStrupr_tokenStrupr buf k
    simp only [rewriteTokens]
    cases propertyOf key with
    | none => exact hkey
    | some property => exact ((parser.tokens 1).rewrite_eq_zero property.strupr_left _ k).trans hkey

theorem foldl_rewriteTokens_eq_zero (parser : Parser) (calls : List HandlerCall) (buf : Buf)
    (k : ℕ) : calls.foldl (rewriteTokens parser) buf k = 0 ↔ buf k = 0 := by
  induction calls generalizing buf with
  | nil => rfl
  | cons call calls ih => exact (ih _).trans (rewriteTokens_eq_zero parser buf call k)

theorem handleLine_ok {s s' : FileParser} {p : Parser} {accepted : Bool}
    (h : handleLine s p accepted = .ok s') :
    ∃ line, s'.given = s.given ++ [line] ∧ line.text = lineText s.lineBuf ∧
      line.accepted = accepted ∧ ∀ k, s'.lineBuf k = 0 ↔ s.lineBuf k = 0 := by
  simp only [handleLine] at h
  cases hrun : p.calls.foldlM handle s.params with
  | error e =>
    rw [hrun] at h
    cases e <;> cases h
  | ok params =>
    rw [hrun] at h
    cases h
    exact ⟨_, rfl, rfl, rfl, foldl_rewriteTokens_eq_zero p p.calls s.lineBuf⟩

/-- A call of `parse_line` that the loop goes on after. -/
theorem parseGiven_ok {s s' : FileParser} (h : parseGiven s = .ok s') :
    ∃ line, s'.given = s.given ++ [line] ∧ line.text = lineText s.lineBuf ∧
      (line.accepted = true ↔ ¬ LongToken line.text) ∧
      ∀ k, s'.lineBuf k = 0 ↔ s.lineBuf k = 0 := by
  obtain ⟨hok, hlong⟩ := parseBuffer_spec s.parser s.lineBuf
  simp only [parseGiven] at h
  cases hparse : parseBuffer s.parser s.lineBuf with
  | ok p =>
    rw [hparse] at h
    obtain ⟨line, hgiven, htext, hacc, hbuf⟩ := handleLine_ok h
    exact ⟨line, hgiven, htext, ⟨fun _ => htext ▸ hok p hparse, fun _ => hacc⟩, hbuf⟩
  | error e =>
    rw [hparse] at h
    cases e with
    | longToken p =>
      obtain ⟨line, hgiven, htext, hacc, hbuf⟩ := handleLine_ok h
      refine ⟨line, hgiven, htext, ⟨?_, ?_⟩, hbuf⟩
      · intro htrue
        cases htrue.symm.trans hacc
      · intro hnot
        exact absurd (htext ▸ hlong p hparse) hnot
    | syntaxError colNum message => cases h
    | undefined => cases h

/-! ## A stretch -/

/-- What a stretch that something ends is for `parse_line`: its first line, to a zero. -/
def segText (seg : List Byte) : List Byte :=
  (uncomment (seg.takeWhile (· ≠ cr))).takeWhile (· ≠ 0)

/-- The lines of a stretch come to `parse_line` as they are. -/
structure SegKept (seg : List Byte) : Prop where
  single : ∀ line ∈ (seg.splitOn cr).tail, uncomment line = []
  noZero : ∀ line ∈ fileLines seg, 0 ∉ line

theorem takeWhile_zero_eq_self {text : List Byte} : text.takeWhile (· ≠ 0) = text ↔ 0 ∉ text := by
  rw [List.takeWhile_eq_self_iff]
  refine ⟨?_, ?_⟩
  · intro h hzero
    exact of_decide_eq_true (h 0 hzero) rfl
  · intro h ch hch
    exact decide_eq_true fun heq => h (heq ▸ hch)

theorem filter_ne_nil_eq_nil {lines : List (List Byte)} :
    lines.filter (· ≠ []) = [] ↔ ∀ line ∈ lines, line = [] := by
  rw [List.filter_eq_nil_iff]
  exact forall₂_congr fun line _ => by simp

/-- At most one line of a stretch is read, and all are if there is no more than this one. -/
theorem segText_spec (h : lf ∉ seg) :
    ([segText seg].filter (· ≠ [])).length ≤ (fileLines seg).length ∧
      ([segText seg].filter (· ≠ []) = fileLines seg ↔ SegKept seg) := by
  have hlines : fileLines seg = (uncomment (seg.takeWhile (· ≠ cr)) ::
      (seg.splitOn cr).tail.map uncomment).filter (· ≠ []) := by
    rw [fileLines_of_not_mem h]
    conv_lhs => rw [splitOn_cr]
    rfl
  have htail : ((seg.splitOn cr).tail.map uncomment).filter (· ≠ []) = [] ↔
      ∀ line ∈ (seg.splitOn cr).tail, uncomment line = [] := by
    rw [filter_ne_nil_eq_nil, List.forall_mem_map]
  have hkept : SegKept seg ↔ (∀ line ∈ (seg.splitOn cr).tail, uncomment line = []) ∧
      ∀ line ∈ fileLines seg, 0 ∉ line := ⟨fun h => ⟨h.single, h.noZero⟩, fun h => ⟨h.1, h.2⟩⟩
  rw [hkept, ← htail, hlines]
  simp only [segText]
  generalize uncomment (seg.takeWhile (· ≠ cr)) = first
  generalize ((seg.splitOn cr).tail.map uncomment) = others
  by_cases hfirst : first = []
  · subst hfirst
    refine ⟨Nat.zero_le _, ?_⟩
    refine ⟨?_, ?_⟩
    · intro heq
      refine ⟨heq.symm, ?_⟩
      intro line hline
      rw [← heq] at hline
      cases hline
    · rintro ⟨heq, -⟩
      exact heq.symm
  · have hcons : (first :: others).filter (· ≠ []) = first :: others.filter (· ≠ []) :=
      List.filter_cons_of_pos (by simpa using hfirst)
    rw [hcons]
    refine ⟨?_, ?_⟩
    · exact (List.length_filter_le _ _).trans (Nat.succ_le_succ (Nat.zero_le _))
    by_cases htext : first.takeWhile (· ≠ 0) = []
    · have hzero : 0 ∈ first := by
        by_contra hnot
        exact hfirst ((takeWhile_zero_eq_self.mpr hnot).symm.trans htext)
      rw [htext]
      refine ⟨?_, ?_⟩
      · nofun
      · rintro ⟨-, hall⟩
        exact absurd hzero (hall first List.mem_cons_self)
    · have hone : [first.takeWhile (· ≠ 0)].filter (· ≠ []) = [first.takeWhile (· ≠ 0)] :=
        List.filter_cons_of_pos (by simpa using htext)
      rw [hone, List.cons.injEq, takeWhile_zero_eq_self]
      refine ⟨?_, ?_⟩
      · rintro ⟨hzero, hnil⟩
        refine ⟨hnil.symm, ?_⟩
        intro line hline
        rw [← hnil] at hline
        rwa [List.mem_singleton.mp hline]
      · rintro ⟨hnil, hall⟩
        exact ⟨hall first List.mem_cons_self, hnil.symm⟩

/-- A last stretch that nothing ends. -/
def Unended (seg : List Byte) : Prop := seg ≠ [] ∧ ∀ ch ∈ seg, ch ≠ cr ∧ isComment ch = false

theorem stored_of_clean (h : ∀ ch ∈ seg, ch ≠ cr ∧ isComment ch = false) : stored seg = seg := by
  have hself : uncomment seg = seg :=
    List.takeWhile_eq_self_iff.mpr fun ch hch => by rw [(h ch hch).2]; rfl
  simp only [stored]
  rw [hself]
  conv_rhs => rw [← List.map_id seg]
  exact List.map_congr_left fun ch hch => if_neg (h ch hch).1

theorem zero_mem_stored (hcomment : ¬ ∃ ch ∈ seg, isComment ch = true) (h : cr ∈ seg ∨ 0 ∈ seg) :
    0 ∈ stored seg := by
  have hself : uncomment seg = seg :=
    List.takeWhile_eq_self_iff.mpr fun ch hch => by
      rw [Bool.eq_false_of_not_eq_true fun htrue => hcomment ⟨ch, hch, htrue⟩]
      rfl
  simp only [stored]
  rw [hself]
  rcases h with hcr | hzero
  · exact List.mem_map.mpr ⟨cr, hcr, if_pos rfl⟩
  · exact List.mem_map.mpr ⟨0, hzero, if_neg (by decide)⟩

theorem segText_of_stored_nil (h : stored seg = []) : segText seg = [] := by
  have htake : (stored seg).takeWhile (· ≠ 0) = segText seg := takeWhile_stored seg
  rw [← htake, h]
  rfl

theorem takeWhile_append_zero (text : List Byte) :
    (text ++ [0]).takeWhile (· ≠ 0) = text.takeWhile (· ≠ 0) := by
  rw [List.takeWhile_append]
  split
  · next hall =>
    have hself : text.takeWhile (· ≠ 0) = text := (List.takeWhile_prefix _).eq_of_length hall
    rw [hself]
    exact List.append_nil text
  · rfl

/-- What `parse_line` finds of a stretch that something ends. -/
theorem lineText_ended (buf : Buf) (hlen : (stored seg).length < lineBufLen) :
    lineText (buf.putText 0 (stored seg ++ [0])) = segText seg := by
  have hle : (stored seg ++ [0]).length ≤ lineBufLen := by
    rw [List.length_append]
    exact hlen
  rw [lineText_of_mem buf hle (List.mem_append_right _ (List.mem_singleton_self _)),
    takeWhile_append_zero]
  exact takeWhile_stored seg

theorem fileLines_unended (hseg : lf ∉ seg) (h : Unended seg) : fileLines seg = [seg] := by
  have hself : uncomment seg = seg :=
    List.takeWhile_eq_self_iff.mpr fun ch hch => by rw [(h.2 ch hch).2]; rfl
  have hcr : cr ∉ seg := fun hmem => (h.2 cr hmem).1 rfl
  rw [fileLines_of_not_mem hseg, List.splitOn_eq_singleton hcr, List.map_singleton, hself]
  exact List.filter_cons_of_pos (by simpa using h.1)

theorem segKept_unended (hseg : lf ∉ seg) (h : Unended seg) : SegKept seg ↔ 0 ∉ seg := by
  have hcr : cr ∉ seg := fun hmem => (h.2 cr hmem).1 rfl
  have hlines := fileLines_unended hseg h
  refine ⟨?_, ?_⟩
  · intro hkept
    exact hkept.noZero seg (hlines ▸ List.mem_singleton_self seg)
  · intro hzero
    refine ⟨?_, ?_⟩
    · rw [List.splitOn_eq_singleton hcr]
      nofun
    · rw [hlines]
      intro line hline
      rwa [List.mem_singleton.mp hline]

/-- What `parse_line` finds of the last stretch: its line, or more if nothing ends it. -/
theorem lineText_last (buf : Buf) (hseg : lf ∉ seg) (hlen : (stored seg).length < lineBufLen)
    (hne : seg ≠ []) :
    let text := lineText (buf.putText 0
      (if ∃ ch ∈ seg, isComment ch = true then stored seg ++ [0] else stored seg))
    (Unended seg → ¬ SegKept seg) ∧ text = segText seg ∨
      Unended seg ∧ SegKept seg ∧ (text = seg ↔ buf seg.length = 0) ∧ text ≠ [] := by
  intro text
  by_cases hcomment : ∃ ch ∈ seg, isComment ch = true
  · refine .inl ⟨?_, ?_⟩
    · rintro ⟨-, hclean⟩ -
      obtain ⟨ch, hch, htrue⟩ := hcomment
      cases htrue.symm.trans (hclean ch hch).2
    · simp only [text, if_pos hcomment]
      exact lineText_ended buf hlen
  simp only [text, if_neg hcomment]
  by_cases hmem : cr ∈ seg ∨ 0 ∈ seg
  · refine .inl ⟨?_, ?_⟩
    · intro hunended
      rw [segKept_unended hseg hunended, not_not]
      rcases hmem with hcr | hzero
      · exact absurd rfl (hunended.2 cr hcr).1
      · exact hzero
    · rw [lineText_of_mem buf hlen.le (zero_mem_stored hcomment hmem)]
      exact takeWhile_stored seg
  obtain ⟨hcr, hzero⟩ := not_or.mp hmem
  have hunended : Unended seg := by
    refine ⟨hne, fun ch hch => ⟨fun heq => hcr (heq ▸ hch), ?_⟩⟩
    exact Bool.eq_false_of_not_eq_true fun htrue => hcomment ⟨ch, hch, htrue⟩
  have hstored := stored_of_clean hunended.2
  rw [hstored] at hlen ⊢
  obtain ⟨hiff, hle⟩ := lineText_of_not_mem buf hlen hzero
  refine .inr ⟨hunended, (segKept_unended hseg hunended).mpr hzero, hiff, ?_⟩
  intro hnil
  rw [hnil] at hle
  exact hne (List.length_eq_zero_iff.mp (Nat.le_zero.mp hle))

/-! ## A round of the loop -/

variable {s s' : FileParser} {r : ReadLine}

/-- What a round gives to `parse_line`. -/
theorem parseRead_ok (h : parseRead s r = .ok s') :
    ∃ new, s'.given = s.given ++ new ∧
      givenTexts new = (if r.col = 0 then [] else [lineText r.buf]).filter (· ≠ []) ∧
      (∀ line ∈ new, line.accepted = true ↔ ¬ LongToken line.text) ∧
      ∀ k, s'.lineBuf k = 0 ↔ r.buf k = 0 := by
  unfold parseRead at h
  by_cases hcol : r.col = 0
  · rw [if_pos hcol] at h
    cases h
    rw [if_pos hcol]
    exact ⟨[], (List.append_nil _).symm, rfl, nofun, fun _ => Iff.rfl⟩
  · rw [if_neg hcol] at h
    obtain ⟨line, hgiven, htext, hacc, hbuf⟩ := parseGiven_ok h
    rw [if_neg hcol]
    refine ⟨[line], hgiven, ?_, ?_, hbuf⟩
    · unfold givenTexts
      rw [List.map_singleton, htext]
    · intro l hl
      rwa [List.mem_singleton.mp hl]

/-- A stretch that a line feed ends. -/
theorem round_append (hseg : lf ∉ seg) (hread : readLine 0 s.lineBuf (seg ++ lf :: rest) = some r)
    (hline : parseRead s r = .ok s') :
    r.rest = rest ∧ r.eof = false ∧ ∃ new, s'.given = s.given ++ new ∧
      givenTexts new = [segText seg].filter (· ≠ []) ∧
      (∀ line ∈ new, line.accepted = true ↔ ¬ LongToken line.text) ∧
      ∀ k, s'.lineBuf k = 0 ↔ s.lineBuf.putText 0 (stored seg ++ [0]) k = 0 := by
  obtain ⟨hr, hlt⟩ := readLine_append hseg (by decide) hread
  obtain ⟨new, hgiven, htexts, hacc, hbuf⟩ := parseRead_ok hline
  subst hr
  simp only [Nat.zero_add] at hlt htexts hbuf
  refine ⟨rfl, rfl, new, hgiven, ?_, hacc, hbuf⟩
  rw [htexts]
  by_cases hnil : stored seg = []
  · rw [if_pos (List.length_eq_zero_iff.mpr hnil), segText_of_stored_nil hnil]
    rfl
  · rw [if_neg (mt List.length_eq_zero_iff.mp hnil), lineText_ended s.lineBuf hlt]

/-- The last stretch. -/
theorem round_last (hseg : lf ∉ seg) (hread : readLine 0 s.lineBuf seg = some r)
    (hline : parseRead s r = .ok s') :
    r.eof = true ∧ ∃ new, s'.given = s.given ++ new ∧
      (givenTexts new).length ≤ (fileLines seg).length ∧
      (givenTexts new = fileLines seg ↔
        SegKept seg ∧ (Unended seg → s.lineBuf seg.length = 0)) ∧
      ∀ line ∈ new, line.accepted = true ↔ ¬ LongToken line.text := by
  obtain ⟨hcol, hlt, -, heof, hrbuf⟩ := readLine_last hseg (by decide) hread
  obtain ⟨new, hgiven, htexts, hacc, -⟩ := parseRead_ok hline
  obtain ⟨hlen, hiff⟩ := segText_spec hseg
  rw [Nat.zero_add] at hcol
  rw [hcol] at hlt htexts
  refine ⟨heof, new, hgiven, ?_⟩
  by_cases hnil : stored seg = []
  · -- no line is given to `parse_line`
    have hended : ¬ Unended seg := fun h => h.1 ((stored_of_clean h.2).symm.trans hnil)
    rw [if_pos (List.length_eq_zero_iff.mpr hnil)] at htexts
    have hseg' : [segText seg].filter (· ≠ []) = [] := by rw [segText_of_stored_nil hnil]; rfl
    rw [hseg'] at hiff
    rw [htexts]
    exact ⟨Nat.zero_le _, hiff.trans ⟨fun h => ⟨h, fun hun => absurd hun hended⟩, And.left⟩, hacc⟩
  have hne : seg ≠ [] := fun h => hnil (by rw [h]; rfl)
  rw [if_neg (mt List.length_eq_zero_iff.mp hnil), hrbuf] at htexts
  rw [htexts]
  rcases lineText_last s.lineBuf hseg hlt hne with ⟨hended, htext⟩ | ⟨hun, hkept, htext, hsome⟩
  · rw [htext]
    refine ⟨hlen, hiff.trans ⟨fun h => ⟨h, fun hun => absurd h (hended hun)⟩, And.left⟩, hacc⟩
  · rw [fileLines_unended hseg hun, List.filter_cons_of_pos (by simpa using hsome), List.filter_nil,
      List.cons.injEq]
    refine ⟨le_rfl, ?_, hacc⟩
    rw [htext]
    exact ⟨fun h => ⟨hkept, fun _ => h.1⟩, fun h => ⟨h.2 hun, rfl⟩⟩

end Segment

/-! ## The whole file -/

section File

variable {s out : FileParser} {file seg rest : List Byte} {buf buf' : Buf}

theorem leftAt_congr (h : ∀ k, buf k = 0 ↔ buf' k = 0) (segs : List (List Byte)) (k : ℕ) :
    leftAt buf segs k = 0 ↔ leftAt buf' segs k = 0 := by
  have hfold (left left' : Byte) (hleft : left = 0 ↔ left' = 0) :
      segs.foldl (fun left seg => (stored seg ++ [0])[k]?.getD left) left = 0 ↔
        segs.foldl (fun left seg => (stored seg ++ [0])[k]?.getD left) left' = 0 := by
    induction segs generalizing left left' with
    | nil => exact hleft
    | cons seg segs ih =>
      apply ih
      dsimp only
      cases (stored seg ++ [0])[k]? with
      | none => exact hleft
      | some ch => rfl
  exact hfold _ _ (h k)

theorem TextsKept.congr (h : ∀ k, buf k = 0 ↔ buf' k = 0) (hkept : TextsKept buf file) :
    TextsKept buf' file where
  single := hkept.single
  noZero := hkept.noZero
  ended segs last hsplit hne hclean :=
    (leftAt_congr h segs last.length).mp (hkept.ended segs last hsplit hne hclean)

theorem textsKept_last (hseg : lf ∉ seg) :
    TextsKept buf seg ↔ SegKept seg ∧ (Unended seg → buf seg.length = 0) := by
  have hsplit : seg.splitOn lf = [seg] := List.splitOn_eq_singleton hseg
  refine ⟨?_, ?_⟩
  · intro h
    refine ⟨⟨h.single seg (hsplit ▸ List.mem_singleton_self seg), h.noZero⟩, ?_⟩
    rintro ⟨hne, hclean⟩
    exact h.ended [] seg hsplit hne hclean
  · rintro ⟨hkept, hended⟩
    constructor
    · rw [hsplit]
      intro l hl
      rw [List.mem_singleton.mp hl]
      exact hkept.single
    · exact hkept.noZero
    · intro segs last heq hne hclean
      rw [hsplit] at heq
      cases segs with
      | nil =>
        obtain rfl : seg = last := (List.cons.inj heq).1
        exact hended ⟨hne, hclean⟩
      | cons _ segs =>
        have hnil : [] = segs ++ [last] := (List.cons.inj heq).2
        simp at hnil

theorem textsKept_append (hseg : lf ∉ seg) :
    TextsKept buf (seg ++ lf :: rest) ↔
      SegKept seg ∧ TextsKept (buf.putText 0 (stored seg ++ [0])) rest := by
  have hsplit : (seg ++ lf :: rest).splitOn lf = seg :: rest.splitOn lf :=
    List.splitOn_append_cons_self_of_not_mem hseg rest
  have hleft (segs : List (List Byte)) (k : ℕ) :
      leftAt buf (seg :: segs) k = leftAt (buf.putText 0 (stored seg ++ [0])) segs k := by
    simp only [leftAt]
    rw [List.foldl_cons, Buf.putText, if_pos (Nat.zero_le k), Nat.sub_zero]
  refine ⟨?_, ?_⟩
  · intro h
    refine ⟨⟨h.single seg (hsplit ▸ List.mem_cons_self), ?_⟩, ?_, ?_, ?_⟩
    · intro line hline
      exact h.noZero line (fileLines_append seg rest ▸ List.mem_append_left _ hline)
    · intro l hl
      exact h.single l (hsplit ▸ List.mem_cons_of_mem seg hl)
    · intro line hline
      exact h.noZero line (fileLines_append seg rest ▸ List.mem_append_right _ hline)
    · intro segs last heq hne hclean
      rw [← hleft]
      exact h.ended (seg :: segs) last (by rw [hsplit, heq]; rfl) hne hclean
  · rintro ⟨hkept, h⟩
    constructor
    · rw [hsplit]
      intro l hl
      rcases List.mem_cons.mp hl with rfl | hl
      · exact hkept.single
      · exact h.single l hl
    · rw [fileLines_append]
      intro line hline
      rcases List.mem_append.mp hline with hline | hline
      · exact hkept.noZero line hline
      · exact h.noZero line hline
    · intro segs last heq hne hclean
      rw [hsplit] at heq
      cases segs with
      | nil =>
        have hnil : rest.splitOn lf = [] := (List.cons.inj heq).2
        exact absurd hnil (List.splitOn_ne_nil lf rest)
      | cons first segs =>
        obtain ⟨rfl, hrest⟩ := List.cons.inj heq
        rw [hleft]
        exact h.ended segs last hrest hne hclean

/-- Parts that are no longer make no more than the same whole. -/
theorem append_eq_append_iff_of_le {α : Type} {a b c d : List α} (hac : a.length ≤ c.length)
    (hbd : b.length ≤ d.length) : a ++ b = c ++ d ↔ a = c ∧ b = d := by
  refine ⟨?_, ?_⟩
  · intro h
    have hlen := congrArg List.length h
    rw [List.length_append, List.length_append] at hlen
    exact List.append_inj h (by omega)
  · rintro ⟨rfl, rfl⟩
    rfl

/-- **A run of the loop** gives no more texts to `parse_line` than there are lines, and the lines if
they are kept. -/
theorem parseFrom_spec (h : parseFrom s file = .ok out) :
    ∃ new, out.given = s.given ++ new ∧
      (∀ line ∈ new, line.accepted = true ↔ ¬ LongToken line.text) ∧
      (givenTexts new).length ≤ (fileLines file).length ∧
      (givenTexts new = fileLines file ↔ TextsKept s.lineBuf file) := by
  induction hn : file.length using Nat.strong_induction_on generalizing file s with
  | h n ih =>
    obtain ⟨r, s', hread, hline, hnext⟩ := parseFrom_ok h
    by_cases hmem : lf ∈ file
    · obtain ⟨seg, rest, rfl, hseg⟩ := List.eq_append_cons_of_mem hmem
      obtain ⟨rfl, heof, new, hgiven, htexts, hacc, hbuf⟩ := round_append hseg hread hline
      rw [if_pos heof] at hnext
      have hlt : r.rest.length < n := by
        rw [← hn, List.length_append, List.length_cons]
        omega
      obtain ⟨new', hgiven', hacc', hlen', hiff'⟩ := ih _ hlt hnext rfl
      obtain ⟨hlen, hiff⟩ := segText_spec hseg
      have hsplit : givenTexts (new ++ new') = givenTexts new ++ givenTexts new' := by
        simp only [givenTexts]
        rw [List.map_append, List.filter_append]
      refine ⟨new ++ new', by rw [hgiven', hgiven, List.append_assoc], ?_, ?_, ?_⟩
      · intro line hline
        rcases List.mem_append.mp hline with hline | hline
        · exact hacc line hline
        · exact hacc' line hline
      · rw [hsplit, fileLines_append, List.length_append, List.length_append, htexts]
        exact Nat.add_le_add hlen hlen'
      · rw [hsplit, fileLines_append, htexts, append_eq_append_iff_of_le hlen hlen', hiff, hiff',
          textsKept_append hseg]
        exact and_congr_right fun _ => ⟨.congr hbuf, .congr fun k => (hbuf k).symm⟩
    · obtain ⟨heof, new, hgiven, hlen, hiff, hacc⟩ := round_last hmem hread hline
      rw [if_neg (by rw [heof]; decide)] at hnext
      obtain rfl := Except.ok.inj hnext
      exact ⟨new, hgiven, hacc, hlen, hiff.trans (textsKept_last hmem).symm⟩

theorem mem_givenTexts {given : List GivenLine} {text : List Byte} :
    text ∈ givenTexts given ↔ (∃ line ∈ given, line.text = text) ∧ text ≠ [] := by
  simp only [givenTexts]
  rw [List.mem_filter, List.mem_map, decide_eq_true_iff]

theorem not_longToken_nil : ¬ LongToken [] := by
  rintro ⟨σ, ch, rest, -, -, hnil⟩
  simp at hnil

/-- A file that `parse_param` returns 0 for is read, each line as it stands and all of it accepted,
if and only if each line comes to `parse_line` as it is and no token is too long. -/
theorem allRead_iff {env : List Byte → Option (List Byte)} {parser : Parser} {lineBuf : Buf}
    (h : parseParam env parser lineBuf file = .ok out) :
    AllRead file out.given ↔ Kept lineBuf file := by
  obtain ⟨s', hrun, hout⟩ := bind_eq_ok.mp h
  obtain rfl := pure_eq_ok.mp hout
  obtain ⟨new, hgiven, hacc, -, hiff⟩ := parseFrom_spec hrun
  rw [List.nil_append] at hgiven
  dsimp only at hgiven hiff ⊢
  rw [hgiven]
  refine ⟨?_, ?_⟩
  · intro hall
    refine ⟨hiff.mp hall.texts, ?_⟩
    intro text htext
    rw [← hall.texts] at htext
    obtain ⟨⟨line, hline, rfl⟩, -⟩ := mem_givenTexts.mp htext
    exact (hacc line hline).mp (hall.accepted line hline)
  · intro hkept
    have htexts : givenTexts new = fileLines file := hiff.mpr hkept.toTextsKept
    refine ⟨htexts, fun line hline => (hacc line hline).mpr ?_⟩
    by_cases hnil : line.text = []
    · rw [hnil]
      exact not_longToken_nil
    · exact hkept.short line.text (htexts ▸ mem_givenTexts.mpr ⟨⟨line, hline, rfl⟩, hnil⟩)

/-! ### Files without surprises -/

/-- A line that is read as it stands. -/
def Clean (line : List Byte) : Prop :=
  line ≠ [] ∧ line.length < lineBufLen ∧
    ∀ ch ∈ line, ch ≠ lf ∧ ch ≠ cr ∧ isComment ch = false ∧ ch ≠ 0

instance (line : List Byte) : Decidable (Clean line) := inferInstanceAs (Decidable (_ ∧ _ ∧ _))

/-- `parse_line` and the handlers, on a line that is accepted. -/
def lineStep (s : Parser × Params × List GivenLine) (line : List Byte) :
    Option (Parser × Params × List GivenLine) :=
  match parseLine s.1 line with
  | .error _ => none
  | .ok p =>
    match p.calls.foldlM handle s.2.1 with
    | .error _ => none
    | .ok params => some (p, params, s.2.2 ++ [{ text := line, accepted := true, calls := p.calls }])

theorem readLine_clean {col : ℕ} (buf : Buf) (hlen : col + seg.length < lineBufLen)
    (h : ∀ ch ∈ seg, ch ≠ lf ∧ ch ≠ cr ∧ isComment ch = false ∧ ch ≠ 0) :
    readLine col buf (seg ++ lf :: rest) = some {
      col := col + seg.length, buf := buf.putText col (seg ++ [0]), rest := rest, eof := false } := by
  induction seg generalizing col buf with
  | nil => exact if_pos rfl
  | cons ch seg ih =>
    obtain ⟨hlf, hcr, hcomment, -⟩ := h ch List.mem_cons_self
    have hnot : ¬ (ch = chr '#' ∨ ch = chr ';') := by simpa [isComment] using hcomment
    rw [List.length_cons] at hlen ⊢
    rw [List.cons_append, readLine, if_neg hlf, if_neg hnot, if_neg (by omega), if_neg hcr,
      ih _ (by omega) fun c hc => h c (List.mem_cons_of_mem _ hc), putText_cons,
      Nat.add_right_comm, Nat.add_assoc]
    rfl

/-- **A file of clean lines is parsed line by line**, whatever the buffer held. -/
theorem parseFrom_lines {lines : List (List Byte)} {p : Parser} {params : Params}
    {given : List GivenLine} (hclean : ∀ line ∈ lines, Clean line)
    (hrun : lines.foldlM lineStep (s.parser, s.params, s.given) = some (p, params, given)) :
    ∃ buf num, parseFrom s (lines.flatMap (· ++ [lf])) = .ok {
      parser := p, lineBuf := buf, lineNum := num, params := params, given := given } := by
  induction lines generalizing s with
  | nil =>
    obtain ⟨rfl, rfl, rfl⟩ : s.parser = p ∧ s.params = params ∧ s.given = given := by
      simpa using hrun
    exact ⟨s.lineBuf, s.lineNum, parseFrom_last rfl rfl rfl⟩
  | cons line lines ih =>
    obtain ⟨hne, hlen, hchars⟩ := hclean line List.mem_cons_self
    obtain ⟨⟨p₁, params₁, given₁⟩, hstep, hrest⟩ := Option.bind_eq_some_iff.mp hrun
    have hread : readLine 0 s.lineBuf (line ++ lf :: lines.flatMap (· ++ [lf])) = some _ :=
      readLine_clean s.lineBuf (by rwa [Nat.zero_add]) hchars
    rw [Nat.zero_add] at hread
    have hstored : stored line = line :=
      stored_of_clean fun ch hch => ⟨(hchars ch hch).2.1, (hchars ch hch).2.2.1⟩
    have htext : lineText (s.lineBuf.putText 0 (line ++ [0])) = line := by
      rw [lineText_of_mem s.lineBuf (by rw [List.length_append]; exact hlen)
        (List.mem_append_right _ (List.mem_singleton_self _)), takeWhile_append_zero]
      exact takeWhile_zero_eq_self.mpr fun hzero => (hchars 0 hzero).2.2.2 rfl
    simp only [lineStep] at hstep
    cases hparse : parseLine s.parser line with
    | error e =>
      rw [hparse] at hstep
      cases hstep
    | ok q =>
      rw [hparse] at hstep
      dsimp only at hstep
      cases hcalls : q.calls.foldlM handle s.params with
      | error e =>
        rw [hcalls] at hstep
        cases hstep
      | ok params₂ =>
        rw [hcalls] at hstep
        obtain ⟨rfl, rfl, rfl⟩ : q = p₁ ∧ params₂ = params₁ ∧
          s.given ++ [{ text := line, accepted := true, calls := q.calls }] = given₁ := by
            simpa using hstep
        obtain ⟨s', hline⟩ : ∃ s', parseRead s {
            col := line.length, buf := s.lineBuf.putText 0 (line ++ [0]),
            rest := lines.flatMap (· ++ [lf]), eof := false } = .ok s' ∧
            s'.parser = q ∧ s'.params = params₂ ∧
            s'.given = s.given ++ [{ text := line, accepted := true, calls := q.calls }] := by
          simp only [parseRead, parseGiven, parseBuffer, handleLine]
          simp only [htext, if_pos hlen, hparse, hcalls,
            if_neg (mt List.length_eq_zero_iff.mp hne)]
          exact ⟨_, rfl, rfl, rfl, rfl⟩
        obtain ⟨hok, rfl, rfl, hgiven⟩ := hline
        rw [← hgiven] at hrest
        obtain ⟨buf, num, hfrom⟩ :=
          ih (fun l hl => hclean l (List.mem_cons_of_mem _ hl)) hrest
        refine ⟨buf, num, ?_⟩
        rw [List.flatMap_cons, List.append_assoc, List.singleton_append,
          parseFrom_more hread rfl hok]
        exact hfrom

/-! ### Examples -/

/-- A line with spaces and a comment. -/
theorem kept_comment : Kept (fun _ => 0) (ascii "IODEPTH = 4 # deep\r\n") := by
  let file := ascii "IODEPTH = 4 # deep\r\n"
  have hrun : ∃ out, parseParam (fun _ => none) .fresh (fun _ => 0) file = .ok out ∧
      AllRead file out.given := by
    refine ⟨_, bind_eq_ok.mpr ⟨_, (parseFrom_more rfl rfl rfl).trans (parseFrom_last rfl rfl rfl),
      rfl⟩, ?_, ?_⟩
    · decide +kernel
    · intro line hline
      obtain rfl := List.mem_singleton.mp hline
      rfl
  obtain ⟨out, hparse, hall⟩ := hrun
  exact (allRead_iff hparse).mp hall

/-- A last line without a line feed, shorter than the line before: a depth of 1999 is run. -/
theorem not_allRead_unended : ∃ out,
    parseParam (fun _ => none) .fresh (fun _ => 0) (ascii "TIMEOUT=9999\nIODEPTH=1") = .ok out ∧
      out.params.jobs.map (·.iodepth) = [1999] ∧
      ¬ AllRead (ascii "TIMEOUT=9999\nIODEPTH=1") out.given := by
  refine ⟨_, bind_eq_ok.mpr ⟨_, (parseFrom_more rfl rfl rfl).trans (parseFrom_last rfl rfl rfl), rfl⟩,
    ?_, fun hall => ?_⟩
  · decide +kernel
  · have hne : givenTexts [⟨ascii "TIMEOUT=9999", true, []⟩, ⟨ascii "IODEPTH=1999", true, []⟩] ≠
        fileLines (ascii "TIMEOUT=9999\nIODEPTH=1") := by decide +kernel
    exact hne hall.texts

end File

end ChamberSpo

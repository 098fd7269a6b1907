import ChamberSpo.Tokens
import Mathlib.Data.List.TakeWhile

/-!
# Where the parts of a token are

`token_split` finds the parts of a token with two loops, and writes a token for each part into an
array. Here it has the offsets, the columns and the array that `tokenSplit` leaves out.

* `tokenSplitArray` — the function. It is `none` at a character outside of the token and at an
  element that the array does not have.
* `partStarts`, `partFrom` — where parts begin, and the longest text without a delimiter from there.
* `SplitOk` — what is found are the parts.
* `tokenSplitArray_tokenSplit` says that these are the parts of `tokenSplit`.

A column has 16 bits. `tokenSplitArray_ok_iff` says for which tokens this is enough.
-/

namespace ChamberSpo

/-! ## The program -/

/-- `struct token`, with the address of its text. -/
structure SplitToken where
  col : BitVec 16
  len : BitVec 16
  value : ℕ

/-- `src->value[offset]`; `none` outside of the token. -/
def SplitToken.read (mem : Buf) (src : SplitToken) (offset : ℕ) : Option Byte :=
  if offset < src.len.toNat then some (mem (src.value + offset)) else none

/-- A write of `splited[idx]`; `none` outside of the array. -/
def storeToken (limit : Int) (splited : ℕ → SplitToken) (idx : ℕ) (token : SplitToken) :
    Option (ℕ → SplitToken) :=
  if (idx : Int) < limit then some (Function.update splited idx token) else none

section Program

variable (mem : Buf) (src : SplitToken) (limit : Int) (delimiter : Byte)

/-- The inner loop. The fuel is for the characters from `offset` on. -/
def scanPart : ℕ → ℕ → Option ℕ
  | 0, _ => none
  | fuel + 1, offset =>
    (src.read mem offset).bind fun ch =>
      if delimiter ≠ ch then
        if offset + 1 < src.len.toNat then scanPart fuel (offset + 1) else some (offset + 1)
      else some offset

/-- A pass of the outer loop, from `offset` on. -/
def splitPart (offset idx : ℕ) (splited : ℕ → SplitToken) : Option (ℕ × (ℕ → SplitToken)) := do
  let col := BitVec.ofNat 16 (src.col.toNat + offset)
  let splited ← storeToken limit splited idx { value := src.value + offset, col := col, len := 0 }
  let stop ← scanPart mem src delimiter src.len.toNat offset
  let len := BitVec.ofInt 16 (stop - ((col.toNat : Int) - src.col.toNat))
  let splited ← storeToken limit splited idx { value := src.value + offset, col := col, len := len }
  -- the delimiter is skipped
  return (stop + 1, splited)

/-- The outer loop. -/
def tokenSplitLoop : ℕ → ℕ → ℕ → (ℕ → SplitToken) → Option (ℕ × (ℕ → SplitToken))
  | 0, _, _, _ => none
  | fuel + 1, offset, count, splited =>
    if offset < src.len.toNat then
      if limit < count + 1 then some (count + 1, splited)
      else
        (splitPart mem src limit delimiter offset count splited).bind fun r =>
          tokenSplitLoop fuel r.1 (count + 1) r.2
    else some (count, splited)

/-- `token_split`: the count and the array. -/
def tokenSplitArray (splited : ℕ → SplitToken) : Option (ℕ × (ℕ → SplitToken)) :=
  tokenSplitLoop mem src limit delimiter (src.len.toNat + 1) 0 0 splited

end Program

/-! ## What is promised -/

/-- The text of a token. -/
def SplitToken.text (mem : Buf) (token : SplitToken) : List Byte :=
  (List.range token.len.toNat).map fun i => mem (token.value + i)

/-- Where parts begin: at the first character, and behind a delimiter. -/
def partStarts (delimiter : Byte) (text : List Byte) : List ℕ :=
  (List.range text.length).filter fun s => s = 0 ∨ text[s - 1]? = some delimiter

/-- The text from a place up to a delimiter or the end. -/
def partFrom (delimiter : Byte) (text : List Byte) (s : ℕ) : List Byte :=
  (text.drop s).takeWhile (· ≠ delimiter)

/-- The parts with delimiters between them, and perhaps one behind them. -/
def JoinsTo (delimiter : Byte) (parts : List (List Byte)) (text : List Byte) : Prop :=
  [delimiter].intercalate parts = text ∨ [delimiter].intercalate parts ++ [delimiter] = text

/-- **What is found are the parts**, if there are as many elements; else the count says that there
are more. -/
structure SplitOk (mem : Buf) (src : SplitToken) (limit : Int) (delimiter : Byte)
    (splited : ℕ → SplitToken) (count : ℕ) (splited' : ℕ → SplitToken) : Prop where
  all : (partStarts delimiter (src.text mem)).length ≤ limit →
    count = (partStarts delimiter (src.text mem)).length
  more : limit < (partStarts delimiter (src.text mem)).length → (count : Int) = limit + 1
  part : (partStarts delimiter (src.text mem)).length ≤ limit → ∀ k s,
    (partStarts delimiter (src.text mem))[k]? = some s →
      (splited' k).value = src.value + s ∧ (splited' k).col.toNat = src.col.toNat + s ∧
      (splited' k).len.toNat = (partFrom delimiter (src.text mem) s).length ∧
      (splited' k).text mem = partFrom delimiter (src.text mem) s
  join : (partStarts delimiter (src.text mem)).length ≤ limit →
    JoinsTo delimiter ((List.range count).map fun k => (splited' k).text mem) (src.text mem)
  unwritten : ∀ i : ℕ, limit ≤ i → splited' i = splited i

/-- The columns of the parts have 16 bits, and the limit is one (or, for an empty token, -1, where
the 0 that is returned is one more). -/
structure SplitFits (mem : Buf) (src : SplitToken) (limit : Int) (delimiter : Byte) : Prop where
  limit_nonneg : 0 ≤ limit ∨ limit = -1 ∧ src.len = 0
  col : (partStarts delimiter (src.text mem)).length ≤ limit →
    ∀ s ∈ partStarts delimiter (src.text mem), src.col.toNat + s < 2 ^ 16

/-! ## Parts -/

section Parts

variable {d : Byte}

theorem takeWhile_delimiter (rest : List Byte) : (d :: rest).takeWhile (· ≠ d) = [] :=
  List.takeWhile_cons_of_neg (by simp)

theorem takeWhile_ne {ch : Byte} (h : ch ≠ d) (rest : List Byte) :
    (ch :: rest).takeWhile (· ≠ d) = ch :: rest.takeWhile (· ≠ d) :=
  List.takeWhile_cons_of_pos (decide_eq_true h)

/-- The first part, and those of the text behind its delimiter. -/
theorem splitText_eq (ch : Byte) (rest : List Byte) :
    splitText d (ch :: rest) = (ch :: rest).takeWhile (· ≠ d) ::
      splitText d ((ch :: rest).drop (((ch :: rest).takeWhile (· ≠ d)).length + 1)) := by
  induction rest generalizing ch with
  | nil =>
    rw [splitText]
    by_cases h : ch = d
    · rw [if_pos h, h, takeWhile_delimiter]
      rfl
    · rw [if_neg h, takeWhile_ne h]
      rfl
  | cons ch' rest ih =>
    rw [splitText]
    by_cases h : ch = d
    · rw [if_pos h, h, takeWhile_delimiter]
      rfl
    · rw [if_neg h, takeWhile_ne h, ih ch']
      rfl

theorem eq_nil_of_splitText {text : List Byte} (h : splitText d text = []) : text = [] := by
  cases text with
  | nil => rfl
  | cons ch rest =>
    rw [splitText_eq] at h
    cases h

/-- The parts of a text, joined again. -/
theorem joinsTo_splitText (text : List Byte) : JoinsTo d (splitText d text) text := by
  induction text with
  | nil => exact .inl rfl
  | cons ch rest ih =>
    rw [splitText]
    by_cases h : ch = d
    · rw [if_pos h, h]
      cases hsplit : splitText d rest with
      | nil =>
        rw [eq_nil_of_splitText hsplit]
        exact .inr rfl
      | cons part parts =>
        rw [hsplit] at ih
        rw [JoinsTo, List.intercalate_cons_cons]
        exact ih.imp (congrArg (d :: ·)) (congrArg (d :: ·))
    · rw [if_neg h]
      cases hsplit : splitText d rest with
      | nil =>
        rw [eq_nil_of_splitText hsplit]
        exact .inl List.intercalate_singleton
      | cons part parts =>
        rw [hsplit] at ih
        have hcons : [d].intercalate ((ch :: part) :: parts)
            = ch :: [d].intercalate (part :: parts) := by
          cases parts with
          | nil => rw [List.intercalate_singleton, List.intercalate_singleton]
          | cons part' parts =>
            rw [List.intercalate_cons_cons, List.intercalate_cons_cons]
            rfl
        rw [JoinsTo]
        dsimp only
        rw [hcons]
        exact ih.imp (congrArg (ch :: ·)) (congrArg (ch :: ·))

/-- The parts with their places, when the first is at `s`. -/
def partPlaces : ℕ → List (List Byte) → List (ℕ × List Byte)
  | _, [] => []
  | s, part :: parts => (s, part) :: partPlaces (s + part.length + 1) parts

theorem map_snd_partPlaces (s : ℕ) (parts : List (List Byte)) :
    (partPlaces s parts).map Prod.snd = parts := by
  induction parts generalizing s with
  | nil => rfl
  | cons part parts ih => rw [partPlaces, List.map_cons, ih]

theorem partPlaces_succ (s : ℕ) (parts : List (List Byte)) :
    partPlaces (s + 1) parts = (partPlaces s parts).map fun p => (p.1 + 1, p.2) := by
  induction parts generalizing s with
  | nil => rfl
  | cons part parts ih =>
    rw [partPlaces, partPlaces, List.map_cons, ← ih]
    congr 2
    omega

theorem partStarts_cons (ch : Byte) (rest : List Byte) :
    partStarts d (ch :: rest) = 0 ::
      ((List.range rest.length).filter fun s => (ch :: rest)[s]? = some d).map (· + 1) := by
  rw [partStarts, List.length_cons, List.range_succ_eq_map, List.filter_cons_of_pos (by simp),
    List.filter_map]
  congr 2
  refine List.filter_congr fun s _ => ?_
  simp

/-- **The parts are where parts begin.** -/
theorem partPlaces_splitText (text : List Byte) :
    partPlaces 0 (splitText d text) = (partStarts d text).map fun s => (s, partFrom d text s) := by
  induction text with
  | nil => rfl
  | cons ch rest ih =>
    have hshift (F : List ℕ) : ((F.map (· + 1)).map fun s => (s, partFrom d (ch :: rest) s))
        = (F.map fun s => (s, partFrom d rest s)).map fun p => (p.1 + 1, p.2) := by
      rw [List.map_map, List.map_map]
      rfl
    rw [splitText_eq, partPlaces, partStarts_cons, List.map_cons, hshift, Nat.zero_add]
    apply congrArg₂ List.cons rfl
    rw [partPlaces_succ]
    congr 1
    by_cases h : ch = d
    · -- behind a delimiter there is a part, if there is anything
      rw [h, takeWhile_delimiter]
      refine ih.trans (congrArg _ ?_)
      refine List.filter_congr fun s _ => decide_eq_decide.mpr ?_
      cases s with
      | zero => exact iff_of_true (.inl rfl) rfl
      | succ s => exact or_iff_right (Nat.succ_ne_zero s)
    · rw [takeWhile_ne h]
      cases rest with
      | nil => rfl
      | cons ch' rest =>
        -- no part begins behind `ch`: the others are those of the rest, less its first
        have hrest : ((List.range (ch' :: rest).length).filter fun s =>
            (ch :: ch' :: rest)[s]? = some d)
              = ((List.range rest.length).filter fun s => (ch' :: rest)[s]? = some d).map
                  (· + 1) := by
          rw [List.length_cons, List.range_succ_eq_map, List.filter_cons_of_neg, List.filter_map]
          · rfl
          · rw [decide_eq_true_iff, List.getElem?_cons_zero]
            exact fun heq => h (Option.some.inj heq)
        rw [splitText_eq, partPlaces, partStarts_cons, List.map_cons] at ih
        obtain ⟨-, ih⟩ := List.cons.inj ih
        rw [Nat.zero_add] at ih
        rw [hrest]
        exact ih

theorem splitText_eq_map (text : List Byte) :
    splitText d text = (partStarts d text).map (partFrom d text) := by
  rw [← map_snd_partPlaces 0 (splitText d text), partPlaces_splitText, List.map_map]
  rfl

/-- There are as many parts as places where one begins. -/
theorem length_splitText (text : List Byte) :
    (splitText d text).length = (partStarts d text).length := by
  rw [splitText_eq_map, List.length_map]

end Parts

/-! ## The loops -/

section Loops

variable {mem : Buf} {src : SplitToken} {d : Byte}

theorem length_text (token : SplitToken) : (token.text mem).length = token.len.toNat := by
  rw [SplitToken.text, List.length_map, List.length_range]

/-- The text from a place on. -/
theorem drop_text {offset : ℕ} (h : offset < src.len.toNat) :
    (src.text mem).drop offset
      = mem (src.value + offset) :: (src.text mem).drop (offset + 1) := by
  have hlen : offset < (src.text mem).length := by
    rw [length_text]
    exact h
  rw [List.drop_eq_getElem_cons hlen]
  congr 1
  simp only [SplitToken.text, List.getElem_map, List.getElem_range]

/-- The inner loop comes to the end of the part. -/
theorem scanPart_eq {fuel offset : ℕ} (h : offset < src.len.toNat)
    (hfuel : src.len.toNat ≤ fuel + offset) :
    scanPart mem src d fuel offset
      = some (offset + (partFrom d (src.text mem) offset).length) := by
  induction fuel generalizing offset with
  | zero => omega
  | succ fuel ih =>
    have hread : src.read mem offset = some (mem (src.value + offset)) := if_pos h
    rw [scanPart, hread, Option.bind_some, partFrom, drop_text h]
    by_cases hch : mem (src.value + offset) = d
    · rw [if_neg (not_not.mpr hch.symm), hch, takeWhile_delimiter]
      rfl
    · rw [if_pos (Ne.symm hch), takeWhile_ne hch, List.length_cons]
      by_cases hnext : offset + 1 < src.len.toNat
      · rw [if_pos hnext, ih hnext (by omega), partFrom]
        congr 1
        omega
      · have hend : (src.text mem).drop (offset + 1) = [] := by
          rw [List.drop_eq_nil_iff, length_text]
          exact Nat.le_of_not_lt hnext
        rw [if_neg hnext, hend]
        rfl

/-- The token of a part. -/
def tokenAt (src : SplitToken) (s : ℕ) (part : List Byte) : SplitToken :=
  { value := src.value + s
    col := BitVec.ofNat 16 (src.col.toNat + s)
    len := BitVec.ofNat 16 part.length }

/-- The length comes out right also where the column has wrapped. -/
theorem ofInt_len (col : BitVec 16) (s n : ℕ) :
    BitVec.ofInt 16 (((s + n : ℕ) : Int) -
        (((BitVec.ofNat 16 (col.toNat + s)).toNat : Int) - col.toNat))
      = BitVec.ofNat 16 n := by
  apply BitVec.eq_of_toNat_eq
  rw [BitVec.toNat_ofInt, BitVec.toNat_ofNat, BitVec.toNat_ofNat]
  omega

/-- A pass of the outer loop writes one token. -/
theorem splitPart_eq {limit : Int} {offset idx : ℕ} (h : offset < src.len.toNat)
    (hidx : (idx : Int) < limit) (splited : ℕ → SplitToken) :
    splitPart mem src limit d offset idx splited
      = some (offset + (partFrom d (src.text mem) offset).length + 1,
          Function.update splited idx (tokenAt src offset (partFrom d (src.text mem) offset))) := by
  have hstore (splited : ℕ → SplitToken) (token : SplitToken) :
      storeToken limit splited idx token = some (Function.update splited idx token) := if_pos hidx
  rw [splitPart]
  simp only [hstore, scanPart_eq h (Nat.le_add_right _ _), Option.bind_eq_bind, Option.bind_some,
    Function.update_idem, ofInt_len]
  rfl

/-- **The outer loop** writes a token for each part from `offset` on, as long as there are
elements. -/
theorem tokenSplitLoop_spec (limit : ℕ) {fuel offset count : ℕ} (splited : ℕ → SplitToken)
    {parts : List (List Byte)} (hparts : splitText d ((src.text mem).drop offset) = parts)
    (hfuel : parts.length < fuel) (hcount : count ≤ limit) :
    ∃ splited', tokenSplitLoop mem src limit d fuel offset count splited
        = some (min (count + parts.length) (limit + 1), splited') ∧
      (∀ k p, (partPlaces offset parts)[k]? = some p → count + k < limit →
        splited' (count + k) = tokenAt src p.1 p.2) ∧
      (∀ i < count, splited' i = splited i) ∧ ∀ i, limit ≤ i → splited' i = splited i := by
  induction parts generalizing fuel offset count splited with
  | nil =>
    obtain ⟨fuel, rfl⟩ := Nat.exists_eq_succ_of_ne_zero (Nat.ne_of_gt hfuel)
    have hend : ¬ offset < src.len.toNat := by
      intro h
      rw [drop_text h, splitText_eq] at hparts
      cases hparts
    refine ⟨splited, ?_, ?_, fun _ _ => rfl, fun _ _ => rfl⟩
    · rw [tokenSplitLoop, if_neg hend, List.length_nil, Nat.add_zero,
        min_eq_left (Nat.le_succ_of_le hcount)]
    · intro k p hp
      cases hp
  | cons part parts ih =>
    obtain ⟨fuel, rfl⟩ := Nat.exists_eq_succ_of_ne_zero (Nat.ne_zero_of_lt hfuel)
    have hlt : offset < src.len.toNat := by
      by_contra hge
      have hnil : (src.text mem).drop offset = [] := by
        rw [List.drop_eq_nil_iff, length_text]
        exact Nat.le_of_not_lt hge
      rw [hnil] at hparts
      cases hparts
    rw [List.length_cons] at hfuel ⊢
    rw [tokenSplitLoop, if_pos hlt]
    by_cases hfull : limit < count + 1
    · have hint : (limit : Int) < (count : Int) + 1 := by omega
      rw [if_pos hint, min_eq_right (by omega)]
      refine ⟨splited, ?_, ?_, fun _ _ => rfl, fun _ _ => rfl⟩
      · rw [Nat.le_antisymm hcount (Nat.le_of_lt_succ hfull)]
      · intro k p _ hk
        omega
    · have hint : ¬ (limit : Int) < (count : Int) + 1 := by omega
      have hsplit := hparts
      rw [drop_text hlt, splitText_eq, ← drop_text hlt, List.drop_drop, ← partFrom] at hsplit
      obtain ⟨hpart, hrest⟩ := List.cons.inj hsplit
      rw [if_neg hint, splitPart_eq hlt (by omega), Option.bind_some, hpart]
      rw [hpart, ← Nat.add_assoc] at hrest
      obtain ⟨splited', hloop, htokens, hbefore, hbehind⟩ :=
        ih (Function.update splited count (tokenAt src offset part)) hrest
          (Nat.lt_of_succ_lt_succ hfuel) (Nat.le_of_not_lt hfull)
      refine ⟨splited', ?_, ?_, ?_, ?_⟩
      · rw [hloop]
        congr 2
        omega
      · intro k p hp hk
        cases k with
        | zero =>
          cases hp
          rw [Nat.add_zero, hbefore _ (Nat.lt_succ_self count), Function.update_self]
        | succ k =>
          have hplace := htokens k p hp (by omega)
          rw [Nat.add_right_comm] at hplace
          exact hplace
      · intro i hi
        rw [hbefore i (Nat.lt_succ_of_lt hi), Function.update_of_ne (Nat.ne_of_lt hi)]
      · intro i hi
        rw [hbehind i hi, Function.update_of_ne (by omega)]

/-- The text of the token of a part. -/
theorem text_tokenAt {s : ℕ} (h : s < src.len.toNat) :
    (tokenAt src s (partFrom d (src.text mem) s)).len.toNat
        = (partFrom d (src.text mem) s).length ∧
      (tokenAt src s (partFrom d (src.text mem) s)).text mem = partFrom d (src.text mem) s := by
  have hbegin : partFrom d (src.text mem) s <+: (src.text mem).drop s := List.takeWhile_prefix _
  have hle := hbegin.length_le
  rw [List.length_drop, length_text] at hle
  have hlt := src.len.isLt
  have hlen : (tokenAt src s (partFrom d (src.text mem) s)).len.toNat
      = (partFrom d (src.text mem) s).length := by
    rw [tokenAt, BitVec.toNat_ofNat]
    exact Nat.mod_eq_of_lt (by omega)
  refine ⟨hlen, ?_⟩
  refine List.ext_getElem ((length_text _).trans hlen) fun i hi hi' => ?_
  rw [hbegin.getElem hi', List.getElem_drop]
  simp only [SplitToken.text, List.getElem_map, List.getElem_range, tokenAt, Nat.add_assoc]

variable (mem src d) in
/-- **The array has the parts** that there are elements for, and the count is that of
`tokenSplit`. -/
theorem tokenSplitArray_spec (limit : ℕ) (splited : ℕ → SplitToken) :
    ∃ splited', tokenSplitArray mem src limit d splited
        = some (min (partStarts d (src.text mem)).length (limit + 1), splited') ∧
      (∀ k s, (partStarts d (src.text mem))[k]? = some s → k < limit →
        splited' k = tokenAt src s (partFrom d (src.text mem) s)) ∧
      ∀ i, limit ≤ i → splited' i = splited i := by
  have hle : (partStarts d (src.text mem)).length ≤ src.len.toNat := by
    apply (List.length_filter_le _ _).trans
    rw [List.length_range, length_text]
  have hparts : splitText d ((src.text mem).drop 0) = splitText d (src.text mem) := by
    rw [List.drop_zero]
  obtain ⟨splited', hloop, htokens, -, hbehind⟩ := tokenSplitLoop_spec limit splited hparts
    (Nat.lt_succ_of_le ((length_splitText _).le.trans hle)) (Nat.zero_le limit)
  rw [length_splitText, Nat.zero_add] at hloop
  refine ⟨splited', hloop, ?_, hbehind⟩
  intro k s hs hk
  have hplace : (partPlaces 0 (splitText d (src.text mem)))[k]?
      = some (s, partFrom d (src.text mem) s) := by
    rw [partPlaces_splitText, List.getElem?_map, hs, Option.map_some]
  have htoken := htokens k _ hplace (by omega)
  rw [Nat.zero_add] at htoken
  exact htoken

theorem lt_of_mem_partStarts {s : ℕ} (h : s ∈ partStarts d (src.text mem)) :
    s < src.len.toNat := by
  have hmem := (List.mem_filter.mp h).1
  rw [List.mem_range, length_text] at hmem
  exact hmem

/-- The texts of the first tokens. -/
theorem map_text_tokens {splited' : ℕ → SplitToken} {n : ℕ}
    (hn : n ≤ (partStarts d (src.text mem)).length)
    (htokens : ∀ k s, (partStarts d (src.text mem))[k]? = some s → k < n →
      splited' k = tokenAt src s (partFrom d (src.text mem) s)) :
    (List.range n).map (fun k => (splited' k).text mem)
      = (splitText d (src.text mem)).take n := by
  rw [splitText_eq_map]
  refine List.ext_getElem ?_ fun k hk hk' => ?_
  · rw [List.length_map, List.length_range, List.length_take, List.length_map, min_eq_left hn]
  · rw [List.length_map, List.length_range] at hk
    rw [List.getElem_map, List.getElem_range, List.getElem_take, List.getElem_map]
    have hstart := List.getElem?_eq_getElem (lt_of_lt_of_le hk hn)
    rw [htokens k _ hstart hk]
    exact (text_tokenAt (lt_of_mem_partStarts (List.getElem_mem _))).2

/-- **The parts are those of `tokenSplit`.** -/
theorem tokenSplitArray_tokenSplit (limit : ℕ) (splited : ℕ → SplitToken) :
    ∃ count splited', tokenSplitArray mem src limit d splited = some (count, splited') ∧
      tokenSplit limit d (src.text mem)
        = (count, (List.range (min count limit)).map fun k => (splited' k).text mem) := by
  obtain ⟨splited', hrun, htokens, -⟩ := tokenSplitArray_spec mem src d limit splited
  refine ⟨_, splited', hrun, ?_⟩
  rw [tokenSplit, length_splitText]
  apply congrArg (Prod.mk _)
  rw [map_text_tokens (by omega) fun k s hs hk => htokens k s hs (by omega),
    List.take_eq_take_iff, length_splitText]
  omega

end Loops

section Whole

variable {mem : Buf} {src : SplitToken} {limit : Int} {delimiter : Byte} {splited : ℕ → SplitToken}

/-- With no element there is nothing to write. -/
theorem tokenSplitArray_of_neg (h : limit < 0) :
    tokenSplitArray mem src limit delimiter splited
      = some (if 0 < src.len.toNat then 1 else 0, splited) := by
  have hlimit : limit < ((0 : ℕ) : Int) + 1 := by omega
  rw [tokenSplitArray, tokenSplitLoop]
  by_cases hlen : 0 < src.len.toNat
  · rw [if_pos hlen, if_pos hlimit, if_pos hlen]
  · rw [if_neg hlen, if_neg hlen]

/-- With a negative limit, the count is never `limit + 1`, but for -1 and no character. -/
theorem splitOk_iff_of_neg (h : limit < 0) :
    (∃ count splited', tokenSplitArray mem src limit delimiter splited = some (count, splited') ∧
      SplitOk mem src limit delimiter splited count splited') ↔
        SplitFits mem src limit delimiter := by
  have hmore : limit < ((partStarts delimiter (src.text mem)).length : Int) := by omega
  have hzero : src.len = 0 ↔ ¬ 0 < src.len.toNat := by
    rw [Nat.not_lt, Nat.le_zero]
    exact ⟨fun heq => congrArg BitVec.toNat heq, fun heq => BitVec.eq_of_toNat_eq heq⟩
  rw [tokenSplitArray_of_neg h]
  refine ⟨?_, ?_⟩
  · rintro ⟨count, splited', heq, hok⟩
    cases heq
    have hcount := hok.more hmore
    refine ⟨.inr ?_, fun hle => absurd hle (Int.not_le_of_gt hmore)⟩
    by_cases hlen : 0 < src.len.toNat
    · rw [if_pos hlen] at hcount
      omega
    · rw [if_neg hlen] at hcount
      exact ⟨by omega, hzero.mpr hlen⟩
  · intro hfits
    obtain ⟨hlimit, hlen⟩ := hfits.limit_nonneg.resolve_left (Int.not_le_of_gt h)
    have hle {p : Prop} (hle : ((partStarts delimiter (src.text mem)).length : Int) ≤ limit) : p :=
      absurd hle (Int.not_le_of_gt hmore)
    refine ⟨_, splited, rfl, fun hn => hle hn, ?_, fun hn => hle hn, fun hn => hle hn,
      fun _ _ => rfl⟩
    intro _
    rw [if_neg (hzero.mp hlen), hlimit]
    rfl

/-- With a limit that is not negative, the columns have to fit. -/
theorem splitOk_iff_of_nonneg (limit : ℕ) :
    (∃ count splited', tokenSplitArray mem src limit delimiter splited = some (count, splited') ∧
      SplitOk mem src limit delimiter splited count splited') ↔
        SplitFits mem src limit delimiter := by
  obtain ⟨tokens, hrun, htokens, hbehind⟩ :=
    tokenSplitArray_spec mem src delimiter limit splited
  refine ⟨?_, ?_⟩
  · rintro ⟨count, splited', -, hok⟩
    refine ⟨.inl (Int.natCast_nonneg limit), ?_⟩
    intro hle s hs
    obtain ⟨k, hk⟩ := List.mem_iff_getElem?.mp hs
    obtain ⟨-, hcol, -⟩ := hok.part hle k s hk
    rw [← hcol]
    exact (splited' k).col.isLt
  · intro hfits
    refine ⟨_, tokens, hrun, ?_, ?_, ?_, ?_, ?_⟩
    · intro hle
      omega
    · intro hlt
      omega
    · intro hle k s hk
      have hmem := List.mem_of_getElem? hk
      have hklt : k < limit := by
        have := (List.getElem?_eq_some_iff.mp hk).1
        omega
      have hcol := hfits.col hle s hmem
      obtain ⟨hlen, htext⟩ := text_tokenAt (d := delimiter) (lt_of_mem_partStarts hmem)
      rw [htokens k s hk hklt]
      refine ⟨rfl, ?_, hlen, htext⟩
      rw [tokenAt, BitVec.toNat_ofNat]
      exact Nat.mod_eq_of_lt hcol
    · intro hle
      have hmin : min (partStarts delimiter (src.text mem)).length (limit + 1)
          = (partStarts delimiter (src.text mem)).length := by omega
      rw [hmin, map_text_tokens le_rfl fun k s hs hk => htokens k s hs (by omega),
        ← length_splitText, List.take_length]
      exact joinsTo_splitText _
    · intro i hi
      exact hbehind i (by omega)

end Whole

/-- **The parts of a token are found** exactly if their columns fit. -/
theorem tokenSplitArray_ok_iff (mem : Buf) (src : SplitToken) (limit : Int) (delimiter : Byte)
    (splited : ℕ → SplitToken) :
    (∃ count splited', tokenSplitArray mem src limit delimiter splited = some (count, splited') ∧
      SplitOk mem src limit delimiter splited count splited') ↔
        SplitFits mem src limit delimiter := by
  rcases lt_or_ge limit 0 with hneg | hpos
  · exact splitOk_iff_of_neg hneg
  · obtain ⟨n, rfl⟩ := Int.eq_ofNat_of_zero_le hpos
    exact splitOk_iff_of_nonneg n

theorem mem_partStarts {mem : Buf} {src : SplitToken} {d : Byte} {s : ℕ} :
    s ∈ partStarts d (src.text mem) ↔
      s < src.len.toNat ∧ (s = 0 ∨ mem (src.value + (s - 1)) = d) := by
  rw [partStarts, List.mem_filter, List.mem_range, length_text, decide_eq_true_iff]
  refine and_congr_right fun hs => or_congr_right ?_
  rw [SplitToken.text, List.getElem?_map, List.getElem?_range (by omega), Option.map_some,
    Option.some_inj]

/-- The last part of a text of 65532 characters, of a token in column 10: its column is counted
as 5. -/
theorem tokenSplitArray_wrapped :
    ¬ ∀ (mem : Buf) (src : SplitToken) (limit : Int) (delimiter : Byte) (splited : ℕ → SplitToken),
      ∃ count splited', tokenSplitArray mem src limit delimiter splited = some (count, splited') ∧
        SplitOk mem src limit delimiter splited count splited' := by
  intro h
  have hfits := (splitOk_iff_of_nonneg 10).mp
    (h (fun i => if i = 65530 then 1 else 0) { col := 10, len := 65532, value := 0 } 10 1
      fun _ => { col := 0, len := 0, value := 0 })
  have hstart {s : ℕ} : s ∈ partStarts 1
      (SplitToken.text (fun i => if i = 65530 then 1 else 0)
        { col := 10, len := 65532, value := 0 }) ↔ s = 0 ∨ s = 65531 := by
    have hlen : (65532 : BitVec 16).toNat = 65532 := rfl
    rw [mem_partStarts, hlen]
    have hdelimiter : ((if 0 + (s - 1) = 65530 then 1 else 0 : Byte) = 1) ↔ s = 65531 := by
      rw [ite_eq_left_iff]
      refine ⟨?_, fun hs hne => absurd (by omega) hne⟩
      intro himp
      by_contra hs
      exact absurd (himp (by omega)) (by decide)
    rw [hdelimiter]
    omega
  have htwo : (partStarts 1 (SplitToken.text (fun i => if i = 65530 then 1 else 0)
      { col := 10, len := 65532, value := 0 })).length ≤ 2 := by
    refine List.Subperm.length_le (?_ : List.Subperm _ [0, 65531])
    refine (List.nodup_range.filter _).subperm fun s hs => ?_
    rcases hstart.mp hs with rfl | rfl
    · exact List.mem_cons_self
    · exact List.mem_cons_of_mem _ List.mem_cons_self
  have hcol := hfits.col (by omega) 65531 (hstart.mpr (.inr rfl))
  exact absurd hcol (by decide)

end ChamberSpo

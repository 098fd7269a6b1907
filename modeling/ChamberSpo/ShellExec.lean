import ChamberSpo.EngineParam
import Mathlib.Data.List.GetD

/-!
# The shell plugin of `nvme`

`shell_exec` writes its arguments into a buffer, sends them to the device, asks the device until the
command is done, and then reads its output chunk by chunk.

* `shellExec` — the plugin, with what the device answers. It is `none` at an access outside of a
  buffer, and where more bytes are announced to the device than the buffer has.
* `answered` — the answers that are read: those up to the first that ends the loop.
* `SafeShell` — what the arguments and the answers must be like.

`shellExec_safe_iff` says that this is all that is needed. Of the loops, the one over the arguments
is compared with the length of the text (`writeArgs_cases`), and the one over the answers with their
number (`readResults_cases`).
-/

namespace ChamberSpo

/-! ## The program -/

/-- `xfer` -/
def shellXfer : ℕ := 4096

/-- `data_size` -/
def shellDataSize : ℕ := 16 * 1024 * 1024

/-- `struct nvme_passthru_cmd`, with the fields that are not 0. The address is an offset in the
buffer that is given. -/
structure PassthruCmd where
  opcode : BitVec 8
  addr : ℕ
  nsid : BitVec 32
  dataLen : BitVec 32
  cdw2 : BitVec 32
  cdw10 : BitVec 32

/-- `send_nvme_cmd`, up to the `ioctl`. -/
def sendNvmeCmd (subOpcode dataLen : BitVec 32) (data : ℕ) : PassthruCmd :=
  { opcode := 0xC1, addr := data, nsid := 1, dataLen := dataLen, cdw2 := subOpcode,
    cdw10 := dataLen >>> 2 }

/-- The `ioctl` on a buffer of `size` bytes; `none` when the command has more. -/
def submitNvmeCmd (size : ℕ) (cmd : PassthruCmd) : Option Unit :=
  if cmd.addr + cmd.dataLen.toNat ≤ size then some () else none

/-- `sprintf(shell_cmd + strlen, "%s ", arg)`, with the number of characters. -/
def sprintfArg (shellCmd : Buf) (strlen : ℕ) (arg : CString) : Option (Buf × ℕ) :=
  if strlen + arg.text.length + 2 ≤ shellXfer then
    some (shellCmd.copy strlen ((arg.text ++ [chr ' ', 0]).getD · 0) (arg.text.length + 2),
      arg.text.length + 1)
  else none

/-- The loop over the arguments. -/
def writeArgs : Buf → ℕ → List CString → Option (Buf × ℕ)
  | shellCmd, strlen, [] => some (shellCmd, strlen)
  | shellCmd, strlen, arg :: args =>
    (sprintfArg shellCmd strlen arg).bind fun r => writeArgs r.1 (strlen + r.2) args

/-- `printf("%s", buf)` of a buffer of `size` bytes; `none` when there is no end in it. -/
def printString (size : ℕ) (buf : Buf) : Option (List Byte) :=
  ((List.range size).find? fun i => buf i = 0).map fun n => (List.range n).map buf

/-- What the device answers. -/
structure ShellDevice where
  /-- to the command -/
  execStatus : Int
  /-- to `VU_SUB_OPCODE_SHELL_KEEP_ALIVE`, one after the other -/
  keepAlive : List Int
  /-- to `VU_SUB_OPCODE_SHELL_GET_RESULT`, with the data -/
  results : List (Int × Buf)

/-- Where a run of the plugin is after the answers. -/
inductive ShellEnd where
  | returned (code : Int)
  /-- the device has not answered yet -/
  | waiting
  /-- the output is printed -/
  | finished (output : List Byte)

/-- The loop of `VU_SUB_OPCODE_SHELL_KEEP_ALIVE`: the command is done or the device has terminated,
and `none` while it is in progress. -/
def keepAliveLoop : List Int → Option Bool
  | [] => none
  | status :: rest =>
    if status = -1 then some false else if status = 0 then some true else keepAliveLoop rest

/-- Where the loop of `VU_SUB_OPCODE_SHELL_GET_RESULT` is after the answers. -/
inductive ResultsEnd where
  | waiting
  | terminated
  | done (invalid : Bool) (execData : Buf)

/-- The loop of `VU_SUB_OPCODE_SHELL_GET_RESULT`. -/
def readResults : List (Int × Buf) → Buf → ℕ → Option ResultsEnd
  | [], _, _ => some .waiting
  | (status, chunk) :: rest, execData, dataLen =>
    (submitNvmeCmd shellDataSize (sendNvmeCmd 0x80040201 (BitVec.ofNat 32 shellXfer) dataLen)).bind
      fun _ =>
        let execData := execData.copy dataLen chunk shellXfer
        if status = 2 then some (.done true execData)
        else if status = -1 then some .terminated
        else if status = 0 then some (.done false execData)
        else readResults rest execData (dataLen + shellXfer)

/-- What follows the loop. -/
def printResults (shellCmd : Buf) : ResultsEnd → Option ShellEnd
  | .waiting => some .waiting
  | .terminated => some (.returned (-1))
  | .done true execData =>
    (printString shellXfer shellCmd).bind fun _ =>
      (printString shellDataSize execData).map .finished
  | .done false execData => (printString shellDataSize execData).map .finished

/-- What follows the command, from its status on. -/
def followCommand (shellCmd execData : Buf) (dev : ShellDevice) : Option ShellEnd :=
  if dev.execStatus = -1 then some (.returned (-1))
  else if dev.execStatus ≠ 0 then some (.returned 11)
  else
    match keepAliveLoop dev.keepAlive with
    | none => some .waiting
    | some false => some (.returned (-1))
    | some true => (readResults dev.results execData 0).bind (printResults shellCmd)

/-- `shell_exec` with its buffers. -/
def runShell (shellCmd execData : Buf) (args : List CString) (dev : ShellDevice) :
    Option ShellEnd :=
  (writeArgs shellCmd 0 args).bind fun r =>
    (printString shellXfer r.1).bind fun _ =>
      (submitNvmeCmd shellXfer (sendNvmeCmd 0x80040003 (BitVec.ofNat 32 (r.2 * 2)) 0)).bind fun _ =>
        followCommand r.1 execData dev

/-- `shell_exec`. `fd` is what `open_dev` returns, and a buffer of `posix_memalign` holds what was
there before; `none` is no memory. -/
def shellExec (fd : Int) (shellCmd execData : Option Buf) (argv : List CString)
    (dev : ShellDevice) : Option ShellEnd :=
  if argv.length < 2 then some (.returned 1)
  else if fd < 0 then some (.returned fd)
  else
    shellCmd.elim (some (.returned 12)) fun shellCmd =>
      execData.elim (some (.returned 12)) fun execData =>
        runShell shellCmd (execData.fill 0 0 shellDataSize) (argv.drop 2) dev

/-! ## What is needed -/

/-- The text of a command. -/
def shellText (args : List CString) : List Byte := args.flatMap fun arg => arg.text ++ [chr ' ']

/-- A status that ends the loop of the results. -/
def EndsResults (status : Int) : Prop := status = 0 ∨ status = -1 ∨ status = 2

instance (status : Int) : Decidable (EndsResults status) :=
  inferInstanceAs (Decidable (_ ∨ _))

/-- The answers up to the first that ends the loop. -/
def answered : List (Int × Buf) → List (Int × Buf)
  | [] => []
  | answer :: rest => if EndsResults answer.1 then [answer] else answer :: answered rest

/-- The last answer is one after which the output is printed. -/
def PrintsResults (results : List (Int × Buf)) : Prop :=
  ∃ answer, (answered results).getLast? = some answer ∧ (answer.1 = 0 ∨ answer.1 = 2)

/-- One of the chunks has a zero. -/
def ChunkHasZero (answers : List (Int × Buf)) : Prop :=
  ∃ answer ∈ answers, ∃ i < shellXfer, answer.2 i = 0

/-- The device has done the command. -/
def CommandDone (dev : ShellDevice) : Prop :=
  dev.execStatus = 0 ∧ dev.keepAlive.find? (fun status => status = 0 ∨ status = -1) = some 0

/-- **The plugin stays in its buffers**: the text is no longer than half of its buffer, there are no
more answers than chunks, and there is an end to what is printed. -/
structure SafeShell (shellCmd : Buf) (args : List CString) (dev : ShellDevice) : Prop where
  named : args = [] → ∃ i < shellXfer, shellCmd i = 0
  text : (shellText args).length * 2 ≤ shellXfer
  chunks : CommandDone dev → (answered dev.results).length * shellXfer ≤ shellDataSize
  output : CommandDone dev → PrintsResults dev.results →
    (answered dev.results).length * shellXfer = shellDataSize → ChunkHasZero (answered dev.results)

/-! ## The text -/

theorem printString_eq_none_iff {size : ℕ} {buf : Buf} :
    printString size buf = none ↔ ¬ ∃ i < size, buf i = 0 := by
  rw [printString, Option.map_eq_none_iff, List.find?_range_eq_none]
  refine ⟨?_, ?_⟩
  · rintro h ⟨i, hi, hzero⟩
    have := h i hi
    rw [decide_eq_true hzero] at this
    exact absurd this (by decide)
  · intro h i hi
    rw [decide_eq_false fun hzero => h ⟨i, hi, hzero⟩]
    rfl

theorem exists_printString {size : ℕ} {buf : Buf} (h : ∃ i < size, buf i = 0) :
    ∃ text, printString size buf = some text :=
  Option.ne_none_iff_exists'.mp fun hnone => printString_eq_none_iff.mp hnone h

theorem length_shellText_cons (arg : CString) (args : List CString) :
    (shellText (arg :: args)).length = arg.text.length + 1 + (shellText args).length := by
  rw [shellText, List.flatMap_cons, List.length_append, List.length_append, List.length_singleton,
    shellText]

/-- The arguments are written if there is room for them and the zero. -/
theorem writeArgs_cases (shellCmd : Buf) (strlen : ℕ) {args : List CString} (h : args ≠ []) :
    shellXfer < strlen + (shellText args).length + 1 ∧ writeArgs shellCmd strlen args = none ∨
      strlen + (shellText args).length + 1 ≤ shellXfer ∧
        ∃ shellCmd', writeArgs shellCmd strlen args
            = some (shellCmd', strlen + (shellText args).length) ∧
          shellCmd' (strlen + (shellText args).length) = 0 := by
  induction args generalizing shellCmd strlen with
  | nil => exact absurd rfl h
  | cons arg args ih =>
    rw [length_shellText_cons, writeArgs, sprintfArg]
    by_cases hroom : strlen + arg.text.length + 2 ≤ shellXfer
    · rw [if_pos hroom, Option.bind_some]
      cases args with
      | nil =>
        have hlen : (shellText []).length = 0 := rfl
        have hzero : shellCmd.copy strlen ((arg.text ++ [chr ' ', 0]).getD · 0) (arg.text.length + 2)
            (strlen + (arg.text.length + 1)) = 0 := by
          rw [Buf.copy_in (Nat.lt_succ_self _), List.getD_append_right _ _ _ _ (Nat.le_add_right _ _),
            Nat.add_sub_cancel_left]
          rfl
        rw [hlen, Nat.add_zero]
        exact .inr ⟨by omega, _, rfl, hzero⟩
      | cons arg' args =>
        rcases ih (shellCmd.copy strlen ((arg.text ++ [chr ' ', 0]).getD · 0) (arg.text.length + 2))
          (strlen + (arg.text.length + 1)) (List.cons_ne_nil _ _) with
          ⟨hlt, hnone⟩ | ⟨hle, shellCmd', hsome, hzero⟩
        · exact .inl ⟨by omega, hnone⟩
        · rw [Nat.add_assoc strlen] at hle hsome hzero
          exact .inr ⟨hle, shellCmd', hsome, hzero⟩
    · rw [if_neg hroom]
      exact .inl ⟨by omega, rfl⟩

/-- The text is announced as twice as long as it is. -/
theorem submitNvmeCmd_text {n : ℕ} (h : n ≤ shellXfer) :
    submitNvmeCmd shellXfer (sendNvmeCmd 0x80040003 (BitVec.ofNat 32 (n * 2)) 0)
      = if n * 2 ≤ shellXfer then some () else none := by
  have hxfer : shellXfer = 4096 := rfl
  have hlen : (BitVec.ofNat 32 (n * 2)).toNat = n * 2 := by
    rw [BitVec.toNat_ofNat]
    exact Nat.mod_eq_of_lt (by omega)
  rw [submitNvmeCmd, sendNvmeCmd, hlen, Nat.zero_add]

/-! ## The output -/

/-- The first status that says something. -/
theorem keepAliveLoop_eq (statuses : List Int) :
    keepAliveLoop statuses
      = (statuses.find? fun status => status = 0 ∨ status = -1).map (decide <| · = 0) := by
  induction statuses with
  | nil => rfl
  | cons status rest ih =>
    rw [keepAliveLoop, List.find?_cons]
    by_cases hterminated : status = -1
    · rw [if_pos hterminated, hterminated]
      rfl
    · rw [if_neg hterminated]
      by_cases hzero : status = 0
      · rw [if_pos hzero, hzero]
        rfl
      · rw [if_neg hzero, ih, decide_eq_false (not_or.mpr ⟨hzero, hterminated⟩)]

/-- A chunk is put behind those before it. -/
theorem submitNvmeCmd_chunk (k : ℕ) :
    submitNvmeCmd shellDataSize (sendNvmeCmd 0x80040201 (BitVec.ofNat 32 shellXfer) (k * shellXfer))
      = if (k + 1) * shellXfer ≤ shellDataSize then some () else none := by
  have hlen : (BitVec.ofNat 32 shellXfer).toNat = shellXfer := rfl
  rw [submitNvmeCmd, sendNvmeCmd, hlen, Nat.succ_mul]

/-- There is a zero in the first chunks of the buffer. -/
def ZeroBefore (execData : Buf) (k : ℕ) : Prop := ∃ i < k * shellXfer, execData i = 0

/-- One chunk more. -/
theorem zeroBefore_copy (execData chunk : Buf) (k : ℕ) :
    ZeroBefore (execData.copy (k * shellXfer) chunk shellXfer) (k + 1) ↔
      ZeroBefore execData k ∨ ∃ i < shellXfer, chunk i = 0 := by
  rw [ZeroBefore, Nat.succ_mul]
  refine ⟨?_, ?_⟩
  · rintro ⟨i, hi, hzero⟩
    rcases Nat.lt_or_ge i (k * shellXfer) with hlt | hge
    · rw [Buf.copy_out (.inl hlt)] at hzero
      exact .inl ⟨i, hlt, hzero⟩
    · obtain ⟨j, rfl⟩ := Nat.exists_eq_add_of_le hge
      have hj : j < shellXfer := Nat.lt_of_add_lt_add_left hi
      rw [Buf.copy_in hj] at hzero
      exact .inr ⟨j, hj, hzero⟩
  · rintro (⟨i, hi, hzero⟩ | ⟨j, hj, hzero⟩)
    · refine ⟨i, hi.trans_le (Nat.le_add_right _ _), ?_⟩
      rw [Buf.copy_out (.inl hi)]
      exact hzero
    · refine ⟨k * shellXfer + j, Nat.add_lt_add_left hj _, ?_⟩
      rw [Buf.copy_in hj]
      exact hzero

/-- A buffer that is zero behind its chunks. -/
theorem exists_zero_iff {execData : Buf} {k : ℕ}
    (hclear : ∀ i, k * shellXfer ≤ i → i < shellDataSize → execData i = 0)
    (hk : k * shellXfer ≤ shellDataSize) :
    (∃ i < shellDataSize, execData i = 0) ↔
      ZeroBefore execData k ∨ k * shellXfer < shellDataSize := by
  refine ⟨?_, ?_⟩
  · rintro ⟨i, hi, hzero⟩
    rcases Nat.lt_or_ge i (k * shellXfer) with hlt | hge
    · exact .inl ⟨i, hlt, hzero⟩
    · exact .inr (lt_of_le_of_lt hge hi)
  · rintro (⟨i, hi, hzero⟩ | hlt)
    · exact ⟨i, lt_of_lt_of_le hi hk, hzero⟩
    · exact ⟨_, hlt, hclear _ le_rfl hlt⟩

theorem answered_of_ends {answer : Int × Buf} (h : EndsResults answer.1)
    (rest : List (Int × Buf)) : answered (answer :: rest) = [answer] := if_pos h

theorem answered_of_not_ends {answer : Int × Buf} (h : ¬ EndsResults answer.1)
    (rest : List (Int × Buf)) : answered (answer :: rest) = answer :: answered rest := if_neg h

theorem printsResults_of_ends {answer : Int × Buf} (h : EndsResults answer.1)
    (rest : List (Int × Buf)) :
    PrintsResults (answer :: rest) ↔ answer.1 = 0 ∨ answer.1 = 2 := by
  rw [PrintsResults, answered_of_ends h, List.getLast?_singleton]
  refine ⟨?_, fun hprints => ⟨answer, rfl, hprints⟩⟩
  rintro ⟨_, heq, hprints⟩
  cases heq
  exact hprints

theorem printsResults_of_not_ends {answer : Int × Buf} (h : ¬ EndsResults answer.1)
    (rest : List (Int × Buf)) : PrintsResults (answer :: rest) ↔ PrintsResults rest := by
  rw [PrintsResults, answered_of_not_ends h, PrintsResults, List.getLast?_cons]
  cases hlast : (answered rest).getLast? with
  | some last => rfl
  | none =>
    refine ⟨?_, ?_⟩
    · rintro ⟨_, heq, hprints⟩
      cases heq
      rcases hprints with hzero | htwo
      · exact absurd (.inl hzero) h
      · exact absurd (.inr (.inr htwo)) h
    · rintro ⟨_, heq, -⟩
      cases heq

theorem chunkHasZero_cons (answer : Int × Buf) (answers : List (Int × Buf)) :
    ChunkHasZero (answer :: answers) ↔
      (∃ i < shellXfer, answer.2 i = 0) ∨ ChunkHasZero answers := by
  simp only [ChunkHasZero, List.mem_cons, exists_eq_or_imp]

theorem chunkHasZero_singleton (answer : Int × Buf) :
    ChunkHasZero [answer] ↔ ∃ i < shellXfer, answer.2 i = 0 := by
  rw [chunkHasZero_cons, or_iff_left]
  rintro ⟨_, hmem, -⟩
  exact absurd hmem List.not_mem_nil

/-- A pass of the loop. -/
theorem readResults_cons (answer : Int × Buf) (rest : List (Int × Buf)) (execData : Buf) (k : ℕ) :
    readResults (answer :: rest) execData (k * shellXfer) =
      if (k + 1) * shellXfer ≤ shellDataSize then
        if answer.1 = 2 then some (.done true (execData.copy (k * shellXfer) answer.2 shellXfer))
        else if answer.1 = -1 then some .terminated
        else if answer.1 = 0 then
          some (.done false (execData.copy (k * shellXfer) answer.2 shellXfer))
        else readResults rest (execData.copy (k * shellXfer) answer.2 shellXfer)
          ((k + 1) * shellXfer)
      else none := by
  rw [readResults, submitNvmeCmd_chunk, Nat.succ_mul]
  split <;> rfl

/-- **The loop of the results**: it goes on while there is room for a chunk. The output has a zero if
one of the chunks has, or if there are fewer than the buffer has room for. -/
theorem readResults_cases (results : List (Int × Buf)) (execData : Buf) (k : ℕ)
    (hclear : ∀ i, k * shellXfer ≤ i → i < shellDataSize → execData i = 0)
    (hk : k * shellXfer ≤ shellDataSize) :
    shellDataSize < (k + (answered results).length) * shellXfer ∧
        readResults results execData (k * shellXfer) = none ∨
      (k + (answered results).length) * shellXfer ≤ shellDataSize ∧
        ((¬ PrintsResults results ∧ ∃ e, readResults results execData (k * shellXfer) = some e ∧
            (e = .waiting ∨ e = .terminated)) ∨
          PrintsResults results ∧ ∃ invalid execData',
            readResults results execData (k * shellXfer) = some (.done invalid execData') ∧
              ((∃ i < shellDataSize, execData' i = 0) ↔ ZeroBefore execData k ∨
                ChunkHasZero (answered results) ∨
                (k + (answered results).length) * shellXfer < shellDataSize)) := by
  induction results generalizing execData k with
  | nil =>
    refine .inr ⟨hk, .inl ⟨?_, .waiting, rfl, .inl rfl⟩⟩
    rintro ⟨answer, hlast, -⟩
    cases hlast
  | cons answer rest ih =>
    rw [readResults_cons]
    by_cases hroom : (k + 1) * shellXfer ≤ shellDataSize
    · rw [if_pos hroom]
      have hclear' : ∀ i, (k + 1) * shellXfer ≤ i → i < shellDataSize →
          execData.copy (k * shellXfer) answer.2 shellXfer i = 0 := by
        intro i hle hi
        rw [Nat.succ_mul] at hle
        rw [Buf.copy_out (.inr hle)]
        exact hclear i (le_trans (Nat.le_add_right _ _) hle) hi
      by_cases hends : EndsResults answer.1
      · have hzero : (∃ i < shellDataSize,
            execData.copy (k * shellXfer) answer.2 shellXfer i = 0) ↔ ZeroBefore execData k ∨
              ChunkHasZero [answer] ∨
              (k + [answer].length) * shellXfer < shellDataSize := by
          rw [exists_zero_iff hclear' hroom, zeroBefore_copy, or_assoc, List.length_singleton,
            chunkHasZero_singleton]
        rw [answered_of_ends hends, printsResults_of_ends hends]
        refine .inr ⟨hroom, ?_⟩
        by_cases hinvalid : answer.1 = 2
        · rw [if_pos hinvalid]
          exact .inr ⟨.inr hinvalid, true, _, rfl, hzero⟩
        · rw [if_neg hinvalid]
          by_cases hterminated : answer.1 = -1
          · rw [if_pos hterminated]
            refine .inl ⟨?_, _, rfl, .inr rfl⟩
            rw [hterminated]
            decide
          · have hsuccess := (hends.resolve_right fun h => h.elim hterminated hinvalid)
            rw [if_neg hterminated, if_pos hsuccess]
            exact .inr ⟨.inl hsuccess, false, _, rfl, hzero⟩
      · have hinvalid : answer.1 ≠ 2 := fun h => hends (.inr (.inr h))
        have hterminated : answer.1 ≠ -1 := fun h => hends (.inr (.inl h))
        have hsuccess : answer.1 ≠ 0 := fun h => hends (.inl h)
        have hlen : k + (answer :: answered rest).length = k + 1 + (answered rest).length := by
          rw [List.length_cons]
          omega
        rw [if_neg hinvalid, if_neg hterminated, if_neg hsuccess, answered_of_not_ends hends,
          printsResults_of_not_ends hends, hlen]
        rcases ih (execData.copy (k * shellXfer) answer.2 shellXfer) (k + 1) hclear' hroom with
          hnone | ⟨hle, hnot | ⟨hprints, invalid, execData', hdone, hzero⟩⟩
        · exact .inl hnone
        · exact .inr ⟨hle, .inl hnot⟩
        · refine .inr ⟨hle, .inr ⟨hprints, invalid, execData', hdone, ?_⟩⟩
          rw [hzero, zeroBefore_copy, chunkHasZero_cons, or_assoc, or_assoc]
    · rw [if_neg hroom]
      refine .inl ⟨?_, rfl⟩
      have hone : 1 ≤ (answered (answer :: rest)).length := by
        rw [answered]
        split
        · exact le_rfl
        · exact Nat.succ_pos _
      exact lt_of_lt_of_le (Nat.lt_of_not_le hroom)
        (Nat.mul_le_mul_right _ (Nat.add_le_add_left hone k))

/-! ## All of it -/

/-- The output is printed if it has an end. -/
theorem printResults_done_iff {shellCmd : Buf} (hnamed : ∃ i < shellXfer, shellCmd i = 0)
    (invalid : Bool) (execData : Buf) :
    (∃ e, printResults shellCmd (.done invalid execData) = some e) ↔
      ∃ i < shellDataSize, execData i = 0 := by
  obtain ⟨text, htext⟩ := exists_printString hnamed
  have hprint : printResults shellCmd (.done invalid execData)
      = (printString shellDataSize execData).map .finished := by
    cases invalid with
    | false => rfl
    | true => rw [printResults, htext, Option.bind_some]
  rw [hprint]
  refine ⟨?_, ?_⟩
  · rintro ⟨e, heq⟩
    by_contra hzero
    rw [printString_eq_none_iff.mpr hzero] at heq
    cases heq
  · intro hzero
    obtain ⟨output, houtput⟩ := exists_printString hzero
    exact ⟨.finished output, by rw [houtput, Option.map_some]⟩

/-- The results and the output. -/
theorem results_iff {shellCmd : Buf} (hnamed : ∃ i < shellXfer, shellCmd i = 0) (execData : Buf)
    (results : List (Int × Buf)) :
    (∃ e, (readResults results (execData.fill 0 0 shellDataSize) 0).bind (printResults shellCmd)
        = some e) ↔
      (answered results).length * shellXfer ≤ shellDataSize ∧
        (PrintsResults results → (answered results).length * shellXfer = shellDataSize →
          ChunkHasZero (answered results)) := by
  have hcases := readResults_cases results (execData.fill 0 0 shellDataSize) 0
    (fun i _ hi => Buf.fill_zero hi) (by rw [Nat.zero_mul]; exact Nat.zero_le _)
  rw [Nat.zero_mul, Nat.zero_add] at hcases
  rcases hcases with ⟨hlt, hnone⟩ | ⟨hle, ⟨hnot, e, hread, hend⟩ | ⟨hprints, invalid, execData', hread,
    hzero⟩⟩
  · rw [hnone]
    refine iff_of_false ?_ fun h => Nat.not_le_of_lt hlt h.1
    rintro ⟨e, heq⟩
    cases heq
  · rw [hread]
    refine iff_of_true ?_ ⟨hle, fun hprints => absurd hprints hnot⟩
    rcases hend with rfl | rfl
    · exact ⟨.waiting, rfl⟩
    · exact ⟨.returned (-1), rfl⟩
  · have hbefore : ¬ ZeroBefore (execData.fill 0 0 shellDataSize) 0 := by
      rintro ⟨i, hi, -⟩
      rw [Nat.zero_mul] at hi
      exact absurd hi (Nat.not_lt_zero i)
    rw [hread, Option.bind_some, printResults_done_iff hnamed, hzero, or_iff_right hbefore,
      and_iff_right hle, forall_prop_of_true hprints]
    refine ⟨?_, fun h => ?_⟩
    · rintro (hchunk | hlt) heq
      · exact hchunk
      · exact absurd heq (Nat.ne_of_lt hlt)
    · rcases Nat.eq_or_lt_of_le hle with heq | hlt
      · exact .inl (h heq)
      · exact .inr hlt

/-- From the status of the command on. -/
theorem followCommand_iff {shellCmd : Buf} (hnamed : ∃ i < shellXfer, shellCmd i = 0)
    (execData : Buf) (dev : ShellDevice) :
    (∃ e, followCommand shellCmd (execData.fill 0 0 shellDataSize) dev = some e) ↔
      (CommandDone dev → (answered dev.results).length * shellXfer ≤ shellDataSize) ∧
        (CommandDone dev → PrintsResults dev.results →
          (answered dev.results).length * shellXfer = shellDataSize →
            ChunkHasZero (answered dev.results)) := by
  have hnot (h : ¬ CommandDone dev) {e : ShellEnd} : (∃ e', some e = some e') ↔
      (CommandDone dev → (answered dev.results).length * shellXfer ≤ shellDataSize) ∧
        (CommandDone dev → PrintsResults dev.results →
          (answered dev.results).length * shellXfer = shellDataSize →
            ChunkHasZero (answered dev.results)) :=
    iff_of_true ⟨e, rfl⟩ ⟨fun hdone => absurd hdone h, fun hdone => absurd hdone h⟩
  rw [followCommand, keepAliveLoop_eq]
  by_cases hterminated : dev.execStatus = -1
  · rw [if_pos hterminated]
    refine hnot fun hdone => ?_
    rw [hdone.1] at hterminated
    exact absurd hterminated (by decide)
  · rw [if_neg hterminated]
    by_cases hsuccess : dev.execStatus = 0
    · rw [if_neg (not_not.mpr hsuccess)]
      cases hfind : dev.keepAlive.find? fun status => status = 0 ∨ status = -1 with
      | none =>
        refine hnot fun hdone => ?_
        rw [hdone.2] at hfind
        cases hfind
      | some status =>
        have hstatus : status = 0 ∨ status = -1 := by
          have h := List.find?_some hfind
          exact of_decide_eq_true h
        rcases hstatus with rfl | rfl
        · have hdone : CommandDone dev := ⟨hsuccess, hfind⟩
          rw [forall_prop_of_true hdone, forall_prop_of_true hdone]
          exact results_iff hnamed execData dev.results
        · refine hnot fun hdone => ?_
          rw [hdone.2] at hfind
          cases hfind
    · rw [if_pos hsuccess]
      exact hnot fun hdone => hsuccess hdone.1

/-- The plugin with its buffers. -/
theorem runShell_iff (shellCmd execData : Buf) (args : List CString) (dev : ShellDevice) :
    (∃ e, runShell shellCmd (execData.fill 0 0 shellDataSize) args dev = some e) ↔
      SafeShell shellCmd args dev := by
  have hnone : ¬ ∃ e, (none : Option ShellEnd) = some e := by
    rintro ⟨e, heq⟩
    cases heq
  -- what follows the text, when it has an end in the buffer
  have hfollow {shellCmd' : Buf} (hwrite : writeArgs shellCmd 0 args
      = some (shellCmd', (shellText args).length)) (hle : (shellText args).length ≤ shellXfer)
      (hnamed : args = [] → ∃ i < shellXfer, shellCmd i = 0)
      (hnamed' : ∃ i < shellXfer, shellCmd' i = 0) :
      (∃ e, runShell shellCmd (execData.fill 0 0 shellDataSize) args dev = some e) ↔
        SafeShell shellCmd args dev := by
    obtain ⟨text, htext⟩ := exists_printString hnamed'
    rw [runShell, hwrite, Option.bind_some, htext, Option.bind_some, submitNvmeCmd_text hle]
    by_cases hhalf : (shellText args).length * 2 ≤ shellXfer
    · rw [if_pos hhalf, Option.bind_some, followCommand_iff hnamed']
      exact ⟨fun h => ⟨hnamed, hhalf, h.1, h.2⟩, fun h => ⟨h.chunks, h.output⟩⟩
    · rw [if_neg hhalf]
      exact iff_of_false hnone fun h => hhalf h.text
  by_cases hargs : args = []
  · rw [hargs] at hfollow ⊢
    by_cases hzero : ∃ i < shellXfer, shellCmd i = 0
    · exact hfollow rfl (Nat.zero_le _) (fun _ => hzero) hzero
    · rw [runShell, writeArgs, Option.bind_some, printString_eq_none_iff.mpr hzero]
      exact iff_of_false hnone fun h => hzero (h.named rfl)
  · rcases writeArgs_cases shellCmd 0 hargs with ⟨hlt, hwrite⟩ | ⟨hle, shellCmd', hwrite, hzero⟩
    · rw [runShell, hwrite]
      refine iff_of_false hnone fun h => ?_
      have htext := h.text
      have hxfer : shellXfer = 4096 := rfl
      omega
    · rw [Nat.zero_add] at hle hwrite hzero
      exact hfollow hwrite (Nat.le_of_succ_le hle) (fun h => absurd h hargs) ⟨_, hle, hzero⟩

/-- **`shell_exec` stays in its buffers** exactly if it does not come to use them, or its arguments
and the answers of the device are such that it can. -/
theorem shellExec_safe_iff (fd : Int) (shellCmd execData : Option Buf) (argv : List CString)
    (dev : ShellDevice) :
    (∃ e, shellExec fd shellCmd execData argv dev = some e) ↔
      (2 ≤ argv.length → 0 ≤ fd → ∀ cmd data, shellCmd = some cmd → execData = some data →
        SafeShell cmd (argv.drop 2) dev) := by
  rw [shellExec]
  by_cases hargc : argv.length < 2
  · rw [if_pos hargc]
    exact iff_of_true ⟨_, rfl⟩ fun h => absurd h (Nat.not_le_of_lt hargc)
  · rw [if_neg hargc, forall_prop_of_true (Nat.le_of_not_lt hargc)]
    by_cases hfd : fd < 0
    · rw [if_pos hfd]
      exact iff_of_true ⟨_, rfl⟩ fun h => absurd h (Int.not_le_of_gt hfd)
    · rw [if_neg hfd, forall_prop_of_true (Int.not_lt.mp hfd)]
      cases shellCmd with
      | none =>
        refine iff_of_true ⟨.returned 12, rfl⟩ ?_
        rintro cmd data h
        cases h
      | some cmd =>
        cases execData with
        | none =>
          refine iff_of_true ⟨.returned 12, rfl⟩ ?_
          rintro cmd data - h
          cases h
        | some data =>
          refine (runShell_iff cmd data (argv.drop 2) dev).trans ⟨?_, fun h => h cmd data rfl rfl⟩
          intro h cmd' data' hcmd hdata
          cases hcmd
          exact h

/-- A command of 2048 characters and the blank behind it. -/
theorem shellExec_announces :
    ¬ ∀ (fd : Int) (shellCmd execData : Option Buf) (argv : List CString) (dev : ShellDevice),
      ∃ e, shellExec fd shellCmd execData argv dev = some e := by
  intro h
  obtain ⟨text, hlength, hterminated⟩ : ∃ text : List Byte, text.length = 2048 ∧ 0 ∉ text := by
    refine ⟨List.replicate 2048 1, List.length_replicate, ?_⟩
    rw [List.mem_replicate]
    rintro ⟨-, heq⟩
    cases heq
  have hsafe := (runShell_iff (fun _ => 0) (fun _ => 0) [⟨text, hterminated⟩] ⟨0, [0], []⟩).mp
    (h 3 (some fun _ => 0) (some fun _ => 0)
      [⟨[], List.not_mem_nil⟩, ⟨[], List.not_mem_nil⟩, ⟨text, hterminated⟩] ⟨0, [0], []⟩)
  have htext := hsafe.text
  rw [length_shellText_cons, hlength] at htext
  have hxfer : shellXfer = 4096 := rfl
  omega

end ChamberSpo

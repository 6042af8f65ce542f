import LearningCpp.IniFile.Read
import LearningCpp.Library.CString
import Mathlib.Data.List.TakeWhile

/-!
`ExecuteCMD` of `c_shell.c`, which collects what a command prints in a buffer of its
caller. The length is tested when the bytes have been stored.
-/

namespace LearningCpp.Shell

open Library IniFile

def CMD_RESULT_BUF_SIZE : Nat := 1024

/-- `strcat(dst, src)` for the string `src`; none when it does not stay inside of `dst`. -/
def strcat (dst : Block) (src : Text) : Option Block :=
  (textOf dst).bind fun text =>
    if text.length + src.length < dst.length then
      some ((text ++ src).map some ++ some 0 :: dst.drop (text.length + src.length + 1))
    else none

/-- The chunks that the calls of `fgets(buf_ps, sizeof(buf_ps), ptr)` store. -/
def chunks (output : Text) : List Text :=
  fgetsLines (CMD_RESULT_BUF_SIZE - 1) (CMD_RESULT_BUF_SIZE - 1) [] output

/-- `while (fgets(...) != NULL)`, on `result`. -/
def collect : List Text → Block → Option Block
  | [], result => some result
  | buf_ps :: more, result =>
      (strcat result (cstr buf_ps)).bind fun result =>
        (textOf result).bind fun text =>
          if text.length > CMD_RESULT_BUF_SIZE then some result else collect more result

/-- `ExecuteCMD(cmd, result)` with what `popen` lets it read: `iRet` and `result`, or none
when it writes behind one of the buffers `ps` and `result`. -/
def ExecuteCMD (popen : Text → Option Text) (cmd : Text) (result : Block) : Option (Int × Block) :=
  if cmd.length < CMD_RESULT_BUF_SIZE then
    match popen cmd with
    | none => some (-1, result)
    | some output => (collect (chunks output) result).map fun result => (0, result)
  else none

/-- `char result[CMD_RESULT_BUF_SIZE]={0};` -/
def cleared : Block := List.replicate CMD_RESULT_BUF_SIZE (some 0)

/-- Everything is stored inside of the buffer of `main`, with a NUL behind it. -/
def StaysInside (popen : Text → Option Text) (cmd : Text) : Prop :=
  ∃ iRet result, ExecuteCMD popen cmd cleared = some (iRet, result) ∧
    result.length = CMD_RESULT_BUF_SIZE ∧ (textOf result).isSome

/-- What the command prints, without what stands behind a NUL in a chunk. -/
def printed (output : Text) : Text := (chunks output).flatMap cstr

variable {dst : Block} {text : Text}

theorem cstr_nulFree (line : Text) : 0 ∉ cstr line := by
  intro hmem
  simpa using List.mem_takeWhile_imp hmem

theorem strcat_of_lt {src : Text} (htext : textOf dst = some text) (hsrc : 0 ∉ src)
    (hroom : text.length + src.length < dst.length) :
    ∃ dst', strcat dst src = some dst' ∧ textOf dst' = some (text ++ src) ∧
      dst'.length = dst.length := by
  refine ⟨_, by rw [strcat, htext, Option.bind_some, if_pos hroom], ?_, ?_⟩
  · apply textOf_append
    rw [List.mem_append, not_or]
    exact ⟨(eq_of_textOf htext).1, hsrc⟩
  · simp only [List.length_append, List.length_map, List.length_cons, List.length_drop]
    omega

private theorem strcat_of_ge {src : Text} (htext : textOf dst = some text)
    (hfull : dst.length ≤ text.length + src.length) : strcat dst src = none := by
  rw [strcat, htext, Option.bind_some, if_neg (Nat.not_lt.mpr hfull)]

private theorem textOf_length_lt (htext : textOf dst = some text) : text.length < dst.length := by
  obtain ⟨_, rest, rfl⟩ := eq_of_textOf htext
  simp only [List.length_append, List.length_map, List.length_cons]
  omega

/-- The chunks are collected when there is room for all of them; the test of the length
never ends the loop. -/
theorem collect_of_lt {bufs : List Text} (hsize : dst.length = CMD_RESULT_BUF_SIZE)
    (htext : textOf dst = some text)
    (hroom : text.length + (bufs.flatMap cstr).length < CMD_RESULT_BUF_SIZE) :
    ∃ result, collect bufs dst = some result ∧ result.length = CMD_RESULT_BUF_SIZE ∧
      textOf result = some (text ++ bufs.flatMap cstr) := by
  induction bufs generalizing dst text with
  | nil => exact ⟨dst, rfl, hsize, by rw [htext, List.flatMap_nil, List.append_nil]⟩
  | cons buf_ps more ih =>
      rw [List.flatMap_cons, List.length_append] at hroom
      obtain ⟨dst', hstrcat, htext', hlength⟩ :=
        strcat_of_lt htext (cstr_nulFree buf_ps) (by omega)
      have hshort : ¬ (text ++ cstr buf_ps).length > CMD_RESULT_BUF_SIZE := by
        rw [List.length_append]
        omega
      obtain ⟨result, hcollect, hresult, hall⟩ := ih (hlength.trans hsize) htext' (by
        rw [List.length_append]
        omega)
      refine ⟨result, ?_, hresult, ?_⟩
      · rw [collect, hstrcat, Option.bind_some, htext', Option.bind_some, if_neg hshort, hcollect]
      · rw [hall, List.flatMap_cons, List.append_assoc]

/-- Otherwise the chunk that does not fit is written behind the buffer. -/
theorem collect_of_ge {bufs : List Text} (hsize : dst.length = CMD_RESULT_BUF_SIZE)
    (htext : textOf dst = some text)
    (hfull : CMD_RESULT_BUF_SIZE ≤ text.length + (bufs.flatMap cstr).length) :
    collect bufs dst = none := by
  induction bufs generalizing dst text with
  | nil =>
      have hlength := textOf_length_lt htext
      rw [List.flatMap_nil, List.length_nil] at hfull
      omega
  | cons buf_ps more ih =>
      rw [List.flatMap_cons, List.length_append] at hfull
      rcases Nat.lt_or_ge (text.length + (cstr buf_ps).length) dst.length with hroom | hover
      · obtain ⟨dst', hstrcat, htext', hlength⟩ :=
          strcat_of_lt htext (cstr_nulFree buf_ps) hroom
        have hshort : ¬ (text ++ cstr buf_ps).length > CMD_RESULT_BUF_SIZE := by
          rw [List.length_append]
          omega
        have hrest := ih (hlength.trans hsize) htext' (by
          rw [List.length_append]
          omega)
        rw [collect, hstrcat, Option.bind_some, htext', Option.bind_some, if_neg hshort, hrest]
      · rw [collect, strcat_of_ge htext hover, Option.bind_none]

theorem textOf_cleared : textOf cleared = some [] := rfl

/-- The buffer of `main` is not left exactly when the command line fits its copy and the
command prints at most one byte less than the buffer holds. -/
theorem executeCMD_staysInside_iff (popen : Text → Option Text) (cmd : Text) :
    StaysInside popen cmd ↔
      cmd.length < CMD_RESULT_BUF_SIZE ∧
        ∀ output, popen cmd = some output → (printed output).length < CMD_RESULT_BUF_SIZE := by
  have hsize : cleared.length = CMD_RESULT_BUF_SIZE := List.length_replicate
  rw [StaysInside]
  by_cases hcmd : cmd.length < CMD_RESULT_BUF_SIZE
  · cases hpopen : popen cmd with
    | none =>
        refine iff_of_true ⟨-1, cleared, ?_, hsize, rfl⟩ ⟨hcmd, nofun⟩
        rw [ExecuteCMD, if_pos hcmd, hpopen]
    | some output =>
        simp only [ExecuteCMD, hpopen, Option.some_inj, forall_eq', hcmd, true_and, if_true]
        rcases Nat.lt_or_ge (printed output).length CMD_RESULT_BUF_SIZE with hroom | hfull
        · obtain ⟨result, hcollect, hlength, htext⟩ :=
            collect_of_lt hsize textOf_cleared (by rw [List.length_nil, Nat.zero_add]; exact hroom)
          refine iff_of_true ⟨0, result, ?_, hlength, ?_⟩ hroom
          · rw [hcollect, Option.map_some]
          · rw [htext, Option.isSome_some]
        · have hcollect := collect_of_ge hsize textOf_cleared (by
            rw [List.length_nil, Nat.zero_add]
            exact hfull)
          refine iff_of_false ?_ (Nat.not_lt.mpr hfull)
          rintro ⟨iRet, result, hresult, _⟩
          rw [hcollect, Option.map_none] at hresult
          cases hresult
  · refine iff_of_false ?_ (fun h => hcmd h.1)
    rintro ⟨iRet, result, hresult, _⟩
    rw [ExecuteCMD, if_neg hcmd] at hresult
    cases hresult

/-- A line of 1024 bytes comes in two chunks, and the second one with its NUL is one byte
more than the buffer holds. -/
theorem not_staysInside_1024 :
    ¬ StaysInside (fun _ => some (List.replicate 1023 97 ++ [10])) [108, 115] := by
  rintro ⟨iRet, result, hresult, _⟩
  have hcollect : collect (chunks (List.replicate 1023 97 ++ [10])) cleared = none :=
    collect_of_ge List.length_replicate textOf_cleared (by decide +kernel)
  rw [ExecuteCMD, if_pos (by decide)] at hresult
  simp only [hcollect, Option.map_none] at hresult
  cases hresult

end LearningCpp.Shell

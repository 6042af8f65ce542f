import LearningCpp.EncodeConvert.Convert
import LearningCpp.EncodeConvert.Gbk
import LearningCpp.Http.Handler
import LearningCpp.IniFile.Read
import Mathlib.Data.List.Destutter

/-!
`splitRequest` of `ad_system/common/globalHelper.cpp`: the segments of a request
path, of which those that pass for GBK are converted to UTF-8.
-/

namespace LearningCpp.GlobalHelper

open Library Http EncodeConvert

/-- `c_str()`, for a function that reads it up to the NUL. -/
def cStr (s : List Byte) : CStr where
  chars := cString s
  nulFree := by
    intro hzero
    simpa using List.mem_takeWhile_imp hzero

/-- `boost::split(vec, s, is_any_of("/"), token_compress_on)`: neighbouring
separators count as one. -/
def split (s : List Byte) : List (List Byte) :=
  (s.destutter (fun a b => ¬ (a = chr '/' ∧ b = chr '/'))).splitOn (chr '/')

def lowerString (strIn : List Byte) : List Byte := strIn.map IniFile.tolower

/-- `vecOut`, and a record of what `_GBK_to_UTF8_` was called with. -/
structure Pushed where
  vecOut : List (List Byte)
  reencoded : List (List Byte)
  deriving DecidableEq, Repr

/-- `_isGBK_(strTemp.c_str())` -/
def passesForGBK (seg : List Byte) : Bool := isGBK (some (cStr seg)) = some true

/-- `strTemp` behind the conversion. `_GBK_to_UTF8_` leaves it as it was when it fails. -/
def recode (lib : Iconv) (seg : List Byte) : Except Fault (List Byte) :=
  if passesForGBK seg then (GBK_to_UTF8 lib seg seg).map Prod.snd else .ok seg

/-- The body of the loop behind the `continue`. -/
def push (lib : Iconv) (out : Pushed) (seg : List Byte) : Except Fault Pushed :=
  (recode lib seg).map fun strTemp =>
    { vecOut := out.vecOut ++ [lowerString strTemp]
      reencoded := out.reencoded ++ [seg].filter passesForGBK }

/-- The body of the loop for `i`. -/
def splitStep (lib : Iconv) (out : Pushed) (tok : List Byte × Nat) : Except Fault Pushed :=
  if tok.2 = 0 ∧ tok.1 = [] then .ok out else push lib out tok.1

/-- `splitRequest(vecOut, strIn)`. It does not end when there are too many segments for
its `unsigned` index, which is then always below their number. -/
def splitRequest (lib : Iconv) (vecOut : List (List Byte)) (strIn : List Byte) :
    Option (Except Fault Pushed) :=
  if (split strIn).length < 2 ^ 32 then
    some ((split strIn).zipIdx.foldlM (splitStep lib) { vecOut, reencoded := [] })
  else none

/-- The segments of a path, without the empty one before its first slash. -/
def segments (path : List Byte) : List (List Byte) :=
  match split path with
  | [] :: rest => rest
  | all => all

/-- The bytes encode characters. -/
def ValidUTF8 (s : List Byte) : Prop := ∃ cs : List Char, s = cs.flatMap String.utf8EncodeChar

def Ascii (s : List Byte) : Prop := ∀ c ∈ s, c < 0x80

/-- Every segment is pushed with only its letters lowered, and no valid UTF-8 with a
character outside of ASCII was handed to `_GBK_to_UTF8_`. -/
def PushesSegments (lib : Iconv) (vecOut : List (List Byte)) (path : List Byte) : Prop :=
  ∃ out, splitRequest lib vecOut path = some (.ok out) ∧
    out.vecOut = vecOut ++ (segments path).map lowerString ∧
    ∀ seg ∈ out.reencoded, ValidUTF8 seg → Ascii seg

/-- A segment outside of ASCII has 0x80 where the second scan by pairs expects a lead
byte; one of ASCII has no NUL, and fits the converter's buffer, if it is converted. -/
def Spared (lib : Iconv) (seg : List Byte) : Prop :=
  (¬ Ascii seg → Broken (scanned (cString seg))) ∧
    (Ascii seg → lib.iconv_open "utf-8" "GBK" = true → 0 ∉ seg ∧ seg.length < 2 ^ 62)

private theorem split_ne_nil (path : List Byte) : split path ≠ [] := List.splitOn_ne_nil _ _

private theorem foldlM_push_iff {lib : Iconv} {segs : List (List Byte)} {out out' : Pushed} :
    segs.foldlM (push lib) out = .ok out' ↔
      ∃ texts, List.Forall₂ (fun seg text => recode lib seg = .ok text) segs texts ∧
        out' = { vecOut := out.vecOut ++ texts.map lowerString
                 reencoded := out.reencoded ++ segs.filter passesForGBK } := by
  induction segs generalizing out with
  | nil =>
      constructor
      · intro h
        cases h
        exact ⟨[], List.Forall₂.nil, by simp⟩
      · rintro ⟨texts, htexts, rfl⟩
        cases htexts
        simp [pure, Except.pure]
  | cons seg segs ih =>
      rw [List.foldlM_cons]
      constructor
      · intro h
        cases hrecode : recode lib seg with
        | error fault =>
            rw [push, hrecode] at h
            cases h
        | ok text =>
            rw [push, hrecode] at h
            obtain ⟨texts, htexts, rfl⟩ := ih.mp h
            refine ⟨text :: texts, List.Forall₂.cons hrecode htexts, ?_⟩
            simp [← List.filter_append]
      · rintro ⟨texts, htexts, rfl⟩
        cases htexts with
        | cons hrecode htexts =>
            rename_i text texts
            rw [push, hrecode]
            apply ih.mpr
            refine ⟨texts, htexts, ?_⟩
            simp [← List.filter_append]

/-- Behind the first segment none is left out. -/
theorem foldlM_splitStep {lib : Iconv} (segs : List (List Byte)) (k : Nat) (out : Pushed) :
    (segs.zipIdx (k + 1)).foldlM (splitStep lib) out = segs.foldlM (push lib) out := by
  induction segs generalizing k out with
  | nil => rfl
  | cons seg segs ih =>
      have hstep : splitStep lib out (seg, k + 1) = push lib out seg := if_neg (by simp)
      rw [List.zipIdx_cons, List.foldlM_cons, List.foldlM_cons, hstep]
      congr 1
      funext out'
      exact ih (k + 1) out'

/-- The loop pushes the segments of the path. -/
theorem splitRequest_eq {lib : Iconv} {path : List Byte} (h : (split path).length < 2 ^ 32)
    (vecOut : List (List Byte)) :
    splitRequest lib vecOut path =
      some ((segments path).foldlM (push lib) { vecOut, reencoded := [] }) := by
  rw [splitRequest, if_pos h, segments]
  cases hsplit : split path with
  | nil => exact absurd hsplit (split_ne_nil path)
  | cons first rest =>
      simp only [List.zipIdx_cons, List.foldlM_cons, foldlM_splitStep]
      cases first with
      | nil => rfl
      | cons c first => rfl

theorem passesForGBK_iff (seg : List Byte) :
    passesForGBK seg ↔ ¬ Broken (scanned (cString seg)) := by
  obtain ⟨answer, hanswer, hiff⟩ := isGBK_eq (cStr seg)
  rw [passesForGBK, hanswer, decide_eq_true_iff, Option.some_inj]
  exact hiff

private theorem passesForGBK_of_ascii {seg : List Byte} (h : Ascii seg) : passesForGBK seg := by
  rw [passesForGBK_iff]
  intro hbroken
  obtain ⟨b, hb, hhigh⟩ := hbroken.exists_mem
  have hmem : b ∈ seg := (cString_isPrefix seg).subset (List.mem_of_mem_take hb)
  exact absurd (h b hmem) (UInt8.not_lt.mpr hhigh)

/-- A segment that is cut at a NUL is not the same with lower letters. -/
theorem lowerString_cString_iff (seg : List Byte) :
    lowerString (cString seg) = lowerString seg ↔ 0 ∉ seg := by
  rw [← cString_eq_self_iff]
  constructor
  · intro h
    have hlength := congrArg List.length h
    rw [lowerString, lowerString, List.length_map, List.length_map] at hlength
    exact (cString_isPrefix seg).eq_of_length hlength
  · intro h
    rw [h]

section

variable {lib : Iconv}
  (hascii : ∀ s cap, Ascii s → s.length ≤ cap → lib.iconv "utf-8" "GBK" s cap = some s)

include hascii

/-- What becomes of a segment of ASCII. -/
theorem recode_ascii {seg : List Byte} (h : Ascii seg) :
    recode lib seg =
      if lib.iconv_open "utf-8" "GBK" then
        if seg.length < 2 ^ 62 then .ok (cString seg) else .error .badArrayNewLength
      else .ok seg := by
  rw [recode, if_pos (passesForGBK_of_ascii h), GBK_to_UTF8]
  cases hopen : lib.iconv_open "utf-8" "GBK" with
  | false => rw [convertCore_closed hopen]; rfl
  | true =>
      by_cases hlength : seg.length < 2 ^ 62
      · have hterminated : Ascii (seg ++ [0]) := by
          intro c hc
          rcases List.mem_append.mp hc with hseg | hzero
          · exact h c hseg
          · rw [List.mem_singleton.mp hzero]
            decide
        have hiconv := hascii (seg ++ [0]) ((seg.length + 1) * 2) hterminated
          (by simp)
        rw [convertCore_unchanged hopen hlength hiconv, if_pos hlength]
        rfl
      · rw [convertCore_huge hopen (Nat.not_lt.mp hlength), if_neg hlength]
        rfl

/-- A segment is pushed with only its letters lowered, and is not converted unless it is
ASCII, exactly when it is spared. -/
theorem spared_iff (seg : List Byte) :
    (∃ text, recode lib seg = .ok text ∧ lowerString text = lowerString seg) ∧
        (passesForGBK seg → Ascii seg) ↔
      Spared lib seg := by
  by_cases h : Ascii seg
  · rw [recode_ascii hascii h]
    cases hopen : lib.iconv_open "utf-8" "GBK" with
    | false => simp [Spared, h, hopen]
    | true =>
        by_cases hlength : seg.length < 2 ^ 62
        · simp only [Spared, h, hopen, if_true, hlength]
          simp [lowerString_cString_iff]
        · simp only [Spared, h, hopen, if_true, hlength]
          simp
  · cases hpasses : passesForGBK seg with
    | true =>
        have hbroken := (passesForGBK_iff seg).mp hpasses
        simp [Spared, h, hbroken]
    | false =>
        have hbroken : Broken (scanned (cString seg)) := by
          by_contra hnot
          rw [(passesForGBK_iff seg).mpr hnot] at hpasses
          cases hpasses
        simp [Spared, h, hbroken, recode, hpasses]

end

/-- Texts that are each related to a segment, and equal to it under `f`, segment by segment. -/
theorem exists_forall₂_iff {α β γ : Type*} {r : α → β → Prop} {f : β → γ} {g : α → γ}
    {segs : List α} :
    (∃ texts, List.Forall₂ r segs texts ∧ texts.map f = segs.map g) ↔
      ∀ seg ∈ segs, ∃ text, r seg text ∧ f text = g seg := by
  induction segs with
  | nil => simp
  | cons seg segs ih =>
      rw [List.forall_mem_cons, ← ih]
      constructor
      · rintro ⟨texts, htexts, hmap⟩
        cases htexts with
        | cons hr htexts =>
            rename_i text texts
            rw [List.map_cons, List.map_cons, List.cons.injEq] at hmap
            exact ⟨⟨text, hr, hmap.1⟩, texts, htexts, hmap.2⟩
      · rintro ⟨⟨text, hr, htext⟩, texts, htexts, hmap⟩
        refine ⟨text :: texts, List.Forall₂.cons hr htexts, ?_⟩
        rw [List.map_cons, List.map_cons, htext, hmap]

/-- `splitRequest` pushes the segments of a path in UTF-8 unchanged up to the case of
their letters exactly when every one of them is spared, and their number is in the
range of the index. -/
theorem pushesSegments_iff {lib : Iconv} {path : List Byte}
    (hascii : ∀ s cap, Ascii s → s.length ≤ cap → lib.iconv "utf-8" "GBK" s cap = some s)
    (hvalid : ∀ seg ∈ segments path, ValidUTF8 seg) (vecOut : List (List Byte)) :
    PushesSegments lib vecOut path ↔
      (split path).length < 2 ^ 32 ∧ ∀ seg ∈ segments path, Spared lib seg := by
  have hspared : (∀ seg ∈ segments path, Spared lib seg) ↔
      (∃ texts, List.Forall₂ (fun seg text => recode lib seg = .ok text) (segments path) texts ∧
        texts.map lowerString = (segments path).map lowerString) ∧
      ∀ seg ∈ segments path, passesForGBK seg → Ascii seg := by
    rw [exists_forall₂_iff, ← forall₂_and]
    simp only [spared_iff hascii]
  by_cases hcount : (split path).length < 2 ^ 32
  · rw [hspared, PushesSegments, splitRequest_eq hcount]
    simp only [hcount, true_and, Option.some_inj, foldlM_push_iff]
    constructor
    · rintro ⟨out, ⟨texts, htexts, rfl⟩, hvec, hreencoded⟩
      refine ⟨⟨texts, htexts, List.append_cancel_left hvec⟩, ?_⟩
      intro seg hseg hpasses
      exact hreencoded seg (by simpa using ⟨hseg, hpasses⟩) (hvalid seg hseg)
    · rintro ⟨⟨texts, htexts, hmap⟩, hall⟩
      refine ⟨_, ⟨texts, htexts, rfl⟩, congrArg _ hmap, ?_⟩
      intro seg hseg _
      rw [List.nil_append, List.mem_filter] at hseg
      exact hall seg hseg.1 hseg.2
  · constructor
    · rintro ⟨out, hout, _⟩
      rw [splitRequest, if_neg hcount] at hout
      cases hout
    · rintro ⟨hlt, _⟩
      exact absurd hlt hcount

/-- A system that converts ASCII, and six bytes that are two characters in UTF-8 and
three in GBK. -/
def sample : Iconv where
  iconv_open _ _ := true
  iconv _ _ s cap :=
    if cap < s.length then none
    else if s.all (fun c => c < 0x80) then some s
    else if s = [0xE4, 0xBD, 0xA0, 0xE5, 0xA5, 0xBD, 0] then
      some [0xE6, 0xB5, 0xA3, 0xE7, 0x8A, 0xB2, 0xE3, 0x82, 0xBD, 0]
    else none

private theorem sample_ascii (s : List Byte) (cap : Nat) (h : Ascii s) (hcap : s.length ≤ cap) :
    sample.iconv "utf-8" "GBK" s cap = some s := by
  have hall : s.all (fun c => c < 0x80) = true := by simpa [Ascii] using h
  simp only [sample, if_neg (Nat.not_lt.mpr hcap), hall, if_true]

/-- `/Ab/一一`: the second scan by pairs comes upon 0x80, and both segments are spared. -/
theorem pushesSegments_spared :
    PushesSegments sample [] [0x2F, 0x41, 0x62, 0x2F, 0xE4, 0xB8, 0x80, 0xE4, 0xB8, 0x80] := by
  have hsegments : segments [0x2F, 0x41, 0x62, 0x2F, 0xE4, 0xB8, 0x80, 0xE4, 0xB8, 0x80] =
      [[0x41, 0x62], [0xE4, 0xB8, 0x80, 0xE4, 0xB8, 0x80]] := by decide +kernel
  refine (pushesSegments_iff sample_ascii ?_ []).mpr ⟨by decide +kernel, ?_⟩
  · rw [hsegments, List.forall_mem_cons, List.forall_mem_singleton]
    exact ⟨⟨['A', 'b'], by decide +kernel⟩, ⟨['一', '一'], by decide +kernel⟩⟩
  · rw [hsegments, List.forall_mem_cons, List.forall_mem_singleton]
    have hletters : Ascii [0x41, 0x62] := by
      rw [Ascii, List.forall_mem_cons, List.forall_mem_singleton]
      exact ⟨by decide, by decide⟩
    refine ⟨⟨fun h => absurd hletters h, fun _ _ => by decide⟩, ?_, fun h => ?_⟩
    · intro _
      have hscanned : scanned (cString [0xE4, 0xB8, 0x80, 0xE4, 0xB8, 0x80]) =
          [0xE4, 0xB8, 0x80, 0xE4, 0xB8, 0x80] := by decide +kernel
      rw [hscanned, broken_pair (by decide), broken_pair (by decide)]
      exact Or.inr (Or.inl (Or.inl rfl))
    · exact absurd (h 0xE4 (by decide)) (by decide)

/-- `/你好` is pushed as three other characters. -/
theorem not_pushesSegments_hello :
    (∀ seg ∈ segments [0x2F, 0xE4, 0xBD, 0xA0, 0xE5, 0xA5, 0xBD], ValidUTF8 seg) ∧
      ¬ PushesSegments sample [] [0x2F, 0xE4, 0xBD, 0xA0, 0xE5, 0xA5, 0xBD] := by
  have hsegments : segments [0x2F, 0xE4, 0xBD, 0xA0, 0xE5, 0xA5, 0xBD] =
      [[0xE4, 0xBD, 0xA0, 0xE5, 0xA5, 0xBD]] := by decide +kernel
  have hrun : splitRequest sample [] [0x2F, 0xE4, 0xBD, 0xA0, 0xE5, 0xA5, 0xBD] =
      some (.ok {
        vecOut := [[0xE6, 0xB5, 0xA3, 0xE7, 0x8A, 0xB2, 0xE3, 0x82, 0xBD]]
        reencoded := [[0xE4, 0xBD, 0xA0, 0xE5, 0xA5, 0xBD]] }) := by decide +kernel
  refine ⟨?_, ?_⟩
  · rw [hsegments, List.forall_mem_singleton]
    exact ⟨['你', '好'], by decide +kernel⟩
  · rintro ⟨out, hout, hvec, _⟩
    rw [hrun, Option.some_inj] at hout
    cases hout
    rw [hsegments] at hvec
    exact absurd hvec (by decide +kernel)

end LearningCpp.GlobalHelper

import LearningCpp.Http.Decode
import LearningCpp.Runtime.Memory

/-!
`CharConvertTool/main.cpp`: the decoder of percent escapes that indexes the
string with an `int` and looks two characters ahead of it.
-/

namespace LearningCpp.CharConvert

open Library Http

def char2Int (ch : Int8) : Int8 :=
  if 48 ≤ ch ∧ ch ≤ 57 then (ch.toInt32 - 48).toInt8
  else if 97 ≤ ch ∧ ch ≤ 102 then (ch.toInt32 - 97 + 10).toInt8
  else if 65 ≤ ch ∧ ch ≤ 70 then (ch.toInt32 - 65 + 10).toInt8
  else -1

/-- `(tempWord[0] << 4) | tempWord[1]`, computed as `int` and stored in a `char`. -/
def str2Bin (first second : Int8) : Int8 :=
  ((char2Int first).toInt32 <<< 4 ||| (char2Int second).toInt32).toInt8

/-- `src[i]` for an `int i`: the characters of `src` and the NUL after them. Any
other index is undefined, and so is one that overflows the `int`. -/
def charAt (src : List Byte) (i : Nat) : Option Byte :=
  if i < 2 ^ 31 then (src ++ [0])[i]? else none

/-- The variables of the loop. -/
structure Scan where
  i : Nat
  outPut : List Byte
  deriving DecidableEq, Repr

/-- `outPut += b; i = i + n` -/
def Scan.take (s : Scan) (b : Byte) (n : Nat) : Option Scan :=
  if s.i + n < 2 ^ 31 then some { i := s.i + n, outPut := s.outPut ++ [b] } else none

/-- The body of the loop. -/
def step (src : List Byte) (s : Scan) : Option Scan := do
  let c ← charAt src s.i
  if c = chr '%' then
    let first ← charAt src (s.i + 1)
    let second ← charAt src (s.i + 2)
    s.take (str2Bin first.toInt8 second.toInt8).toUInt8 3
  else if c = chr '+' then s.take (chr ' ') 1
  else s.take c 1

/-- `len = src.length()` -/
def len (src : List Byte) : Int := (sizeToInt src.length).toInt

/-- `while (i < len)`, for at most `fuel` iterations. -/
def loop (src : List Byte) : Nat → Scan → Option (List Byte)
  | 0, s => if (s.i : Int) < len src then none else some s.outPut
  | fuel + 1, s =>
      if (s.i : Int) < len src then (step src s).bind (loop src fuel) else some s.outPut

/-- `UrlDecode(src)`: its result, when at most `src.length()` iterations lead to
it and every read on the way is defined. -/
def urlDecode (src : List Byte) : Option (List Byte) := loop src src.length { i := 0, outPut := [] }

theorem len_le (src : List Byte) : len src ≤ src.length := by
  have hrounds := rounds_sizeToInt_le src.length
  rw [rounds] at hrounds
  rw [len]
  omega

theorem len_lt (src : List Byte) : len src < 2 ^ 31 := (sizeToInt src.length).toInt_lt

theorem len_eq {src : List Byte} (h : src.length < 2 ^ 31) : len src = src.length :=
  sizeToInt_toInt h

theorem loop_done {src : List Byte} {s : Scan} (h : ¬ (s.i : Int) < len src) (fuel : Nat) :
    loop src fuel s = some s.outPut := by
  cases fuel with
  | zero => rw [loop, if_neg h]
  | succ fuel => rw [loop, if_neg h]

theorem loop_step {src : List Byte} {s : Scan} (h : (s.i : Int) < len src) (fuel : Nat) :
    loop src (fuel + 1) s = (step src s).bind (loop src fuel) := by
  rw [loop, if_pos h]

/-- The characters after `front`, as `src[front.length]` and on. -/
theorem charAt_append (front rest : List Byte) {j : Nat} (h : front.length + j < 2 ^ 31) :
    charAt (front ++ rest) (front.length + j) = (rest ++ [0])[j]? := by
  rw [charAt, if_pos h, List.append_assoc, List.getElem?_append_right (Nat.le_add_right _ j),
    Nat.add_sub_cancel_left]

theorem charAt_overflow {src : List Byte} {i : Nat} (h : 2 ^ 31 ≤ i) : charAt src i = none := by
  rw [charAt, if_neg (by omega)]

theorem Scan.take_overflow {s : Scan} (b : Byte) {n : Nat} (h : 2 ^ 31 ≤ s.i + n) :
    s.take b n = none := by
  have hover : ¬ s.i + n < 2 ^ 31 := Nat.not_lt.mpr h
  rw [Scan.take, if_neg hover]

theorem step_plain {front rest : List Byte} {c : Byte} (hc : c ≠ chr '%') (out : List Byte)
    (h : front.length + 1 < 2 ^ 31) :
    step (front ++ c :: rest) ⟨front.length, out⟩ =
      some ⟨front.length + 1, out ++ [if c = chr '+' then chr ' ' else c]⟩ := by
  have hread := @charAt_append front (c :: rest) 0 (by omega)
  simp only [step, Nat.add_zero] at hread ⊢
  rw [hread]
  simp only [List.cons_append, List.getElem?_cons_zero, Option.bind_eq_bind, Option.bind_some,
    if_neg hc, Scan.take, if_pos h]
  split <;> rfl

/-- A `%` takes the two characters after it, if both can be read. -/
theorem step_percent_eq {front : List Byte} (rest out : List Byte) (h : front.length + 3 < 2 ^ 31) :
    step (front ++ chr '%' :: rest) ⟨front.length, out⟩ =
      (rest ++ [0])[0]?.bind fun a => (rest ++ [0])[1]?.bind fun b =>
        some ⟨front.length + 3, out ++ [(str2Bin a.toInt8 b.toInt8).toUInt8]⟩ := by
  have hread := fun j (hj : front.length + j < 2 ^ 31) => charAt_append front (chr '%' :: rest) hj
  have hfirst := hread 0 (by omega)
  rw [Nat.add_zero] at hfirst
  simp only [step, hfirst, hread 1 (by omega), hread 2 (by omega)]
  simp only [List.cons_append, List.getElem?_cons_zero, List.getElem?_cons_succ,
    Option.bind_eq_bind, Option.bind_some, if_true, Scan.take, if_pos h]

/-- One of the two may be the NUL. -/
theorem step_percent {front rest : List Byte} {a b : Byte} (ha : (rest ++ [0])[0]? = some a)
    (hb : (rest ++ [0])[1]? = some b) (out : List Byte) (h : front.length + 3 < 2 ^ 31) :
    step (front ++ chr '%' :: rest) ⟨front.length, out⟩ =
      some ⟨front.length + 3, out ++ [(str2Bin a.toInt8 b.toInt8).toUInt8]⟩ := by
  rw [step_percent_eq rest out h, ha, hb]
  rfl

theorem step_escape {front rest : List Byte} (a b : Byte) (out : List Byte)
    (h : front.length + 3 < 2 ^ 31) :
    step (front ++ chr '%' :: a :: b :: rest) ⟨front.length, out⟩ =
      some ⟨front.length + 3, out ++ [(str2Bin a.toInt8 b.toInt8).toUInt8]⟩ :=
  step_percent rfl rfl out h

private theorem step_cut {front : List Byte} (a : Byte) (out : List Byte)
    (h : front.length + 3 < 2 ^ 31) :
    step (front ++ [chr '%', a]) ⟨front.length, out⟩ =
      some ⟨front.length + 3, out ++ [(str2Bin a.toInt8 (0 : Byte).toInt8).toUInt8]⟩ :=
  step_percent rfl rfl out h

/-- The text from position `i` on has an escape that starts before `limit` and
has no character after its `%`, or whose end no `int` can index. -/
def Overreads (limit : Int) (i : Nat) (text : List Byte) : Prop :=
  ∃ (ps : List (Piece (chr '%'))) (tail : List Byte), text = spell ps ++ chr '%' :: tail ∧
    ((i + (spell ps).length : Nat) : Int) < limit ∧
    (tail = [] ∨ 2 ^ 31 ≤ i + (spell ps).length + 3)

theorem Overreads.lt {limit : Int} {i : Nat} {text : List Byte} (h : Overreads limit i text) :
    (i : Int) < limit := by
  obtain ⟨ps, tail, _, hlt, _⟩ := h
  omega

private theorem not_overreads_nil (limit : Int) (i : Nat) : ¬ Overreads limit i [] := by
  rintro ⟨ps, tail, htext, _⟩
  simp at htext

theorem overreads_cons_piece (limit : Int) (i : Nat) (p : Piece (chr '%')) {text : List Byte}
    (h : Overreads limit (i + p.text.length) text) : Overreads limit i (p.text ++ text) := by
  obtain ⟨ps, tail, rfl, hlt, hbad⟩ := h
  refine ⟨p :: ps, tail, by rw [spell_cons, List.append_assoc], ?_, ?_⟩
  · rw [spell_cons, List.length_append]
    omega
  · rw [spell_cons, List.length_append]
    exact hbad.imp_right (fun h => by omega)

private theorem overreads_plain {limit : Int} {i : Nat} {c : Byte} (hc : c ≠ chr '%')
    (rest : List Byte) :
    Overreads limit i (c :: rest) ↔ Overreads limit (i + 1) rest := by
  constructor
  · rintro ⟨ps, tail, htext, hlt, hbad⟩
    cases ps with
    | nil =>
        injection htext with hce _
        exact absurd hce hc
    | cons p ps =>
        rw [spell_cons, List.append_assoc] at htext
        obtain ⟨rfl, rfl⟩ := text_append_inj (p := .plain c hc) htext
        simp only [spell_cons, Piece.text, List.length_append, List.length_singleton] at hlt hbad
        refine ⟨ps, tail, rfl, by omega, hbad.imp_right (fun h => by omega)⟩
  · exact overreads_cons_piece limit i (.plain c hc)

private theorem overreads_escape (limit : Int) (i : Nat) (a b : Byte) (rest : List Byte) :
    Overreads limit i (chr '%' :: a :: b :: rest) ↔
      ((i : Int) < limit ∧ 2 ^ 31 ≤ i + 3) ∨ Overreads limit (i + 3) rest := by
  constructor
  · rintro ⟨ps, tail, htext, hlt, hbad⟩
    cases ps with
    | nil =>
        injection htext with _ htail
        subst htail
        left
        exact ⟨hlt, hbad.resolve_left (List.cons_ne_nil _ _)⟩
    | cons p ps =>
        rw [spell_cons, List.append_assoc] at htext
        obtain ⟨rfl, rfl⟩ := text_append_inj (p := .escape a b) htext
        simp only [spell_cons, Piece.text, List.length_append, List.length_cons,
          List.length_nil] at hlt hbad
        right
        exact ⟨ps, tail, rfl, by omega, hbad.imp_right (fun h => by omega)⟩
  · rintro (⟨hlt, hbad⟩ | h)
    · exact ⟨[], a :: b :: rest, rfl, hlt, Or.inr hbad⟩
    · exact overreads_cons_piece limit i (.escape a b) h

private theorem overreads_cut {limit : Int} {i : Nat} {tail : List Byte} (htail : tail.length < 2) :
    Overreads limit i (chr '%' :: tail) ↔
      (i : Int) < limit ∧ (tail = [] ∨ 2 ^ 31 ≤ i + 3) := by
  constructor
  · rintro ⟨ps, rest, htext, hlt, hbad⟩
    cases ps with
    | nil =>
        injection htext with _ hrest
        subst hrest
        exact ⟨hlt, hbad⟩
    | cons p ps =>
        cases p with
        | plain c hc =>
            injection htext with hce _
            exact absurd hce.symm hc
        | escape a b =>
            have hlength := congrArg List.length htext
            simp only [spell_cons, Piece.text, List.length_append, List.length_cons,
              List.length_nil] at hlength
            omega
  · rintro ⟨hlt, hbad⟩
    exact ⟨[], tail, rfl, hlt, hbad⟩

/-- An escape whose end overflows the `int`, or that has no character after it. -/
theorem step_overflow {front rest : List Byte} (out : List Byte) (h : 2 ^ 31 ≤ front.length + 3) :
    step (front ++ chr '%' :: rest) ⟨front.length, out⟩ = none := by
  rw [Option.eq_none_iff_forall_ne_some]
  intro s hs
  simp only [step, Option.bind_eq_bind, Option.bind_eq_some_iff] at hs
  obtain ⟨c, hc, hs⟩ := hs
  by_cases hlow : front.length < 2 ^ 31
  · have hread := @charAt_append front (chr '%' :: rest) 0 (by omega)
    simp only [Nat.add_zero, List.cons_append, List.getElem?_cons_zero] at hread
    rw [hread] at hc
    cases hc
    rw [if_pos rfl] at hs
    simp only [Option.bind_eq_some_iff] at hs
    obtain ⟨a, _, b, _, hs⟩ := hs
    rw [Scan.take_overflow (s := ⟨front.length, out⟩) _ h] at hs
    cases hs
  · rw [charAt_overflow (by omega)] at hc
    cases hc

private theorem step_last {front : List Byte} (out : List Byte) :
    step (front ++ [chr '%']) ⟨front.length, out⟩ = none := by
  by_cases h : front.length + 3 < 2 ^ 31
  · rw [step_percent_eq [] out h]
    rfl
  · exact step_overflow out (by omega)

/-- From the limit on the loop is done and nothing more is read. -/
theorem loop_isSome_iff_of_done {src text out : List Byte} {i : Nat}
    (hdone : ¬ (i : Int) < len src) (fuel : Nat) :
    (loop src fuel ⟨i, out⟩).isSome ↔ ¬ Overreads (len src) i text := by
  rw [loop_done hdone]
  apply iff_of_true rfl
  intro hover
  exact hdone hover.lt

/-- The loop from position `front.length` on returns within as many iterations as
there are characters left, unless it meets an escape that reads too far. -/
theorem loop_isSome_iff (front text out : List Byte) (fuel : Nat) (hfuel : text.length ≤ fuel) :
    (loop (front ++ text) fuel ⟨front.length, out⟩).isSome ↔
      ¬ Overreads (len (front ++ text)) front.length text := by
  induction text using text_induction (chr '%') generalizing front out fuel with
  | nil =>
      have hlen := len_le (front ++ [])
      rw [List.append_nil] at hlen ⊢
      rw [loop_done (by simpa using hlen)]
      exact iff_of_true rfl (not_overreads_nil _ _)
  | plain c rest hc ih =>
      by_cases hlt : (front.length : Int) < len (front ++ c :: rest)
      · obtain ⟨fuel, rfl⟩ := Nat.exists_eq_add_one.mpr (Nat.lt_of_lt_of_le (by simp) hfuel)
        have hlimit := len_lt (front ++ c :: rest)
        have hrest := ih (front ++ [c]) (out ++ [if c = chr '+' then chr ' ' else c]) fuel
          (Nat.le_of_succ_le_succ hfuel)
        simp only [List.append_assoc, List.singleton_append, List.length_append,
          List.length_singleton] at hrest
        rw [loop_step hlt, step_plain hc out (by omega), Option.bind_some, hrest,
          overreads_plain hc]
      · exact loop_isSome_iff_of_done hlt fuel
  | escape a b rest ih =>
      by_cases hlt : (front.length : Int) < len (front ++ chr '%' :: a :: b :: rest)
      · obtain ⟨fuel, rfl⟩ := Nat.exists_eq_add_one.mpr (Nat.lt_of_lt_of_le (by simp) hfuel)
        rw [loop_step hlt, overreads_escape]
        by_cases hover : front.length + 3 < 2 ^ 31
        · simp only [List.length_cons] at hfuel
          have hrest := ih (front ++ [chr '%', a, b])
            (out ++ [(str2Bin a.toInt8 b.toInt8).toUInt8]) fuel (by omega)
          simp only [List.append_assoc, List.cons_append, List.nil_append, List.length_append,
            List.length_cons, List.length_nil] at hrest
          rw [step_escape a b out hover, Option.bind_some, hrest, or_iff_right (by omega)]
        · rw [step_overflow out (by omega)]
          refine iff_of_false (by simp) (fun h => h (Or.inl ⟨hlt, by omega⟩))
      · exact loop_isSome_iff_of_done hlt fuel
  | cut tail htail =>
      by_cases hlt : (front.length : Int) < len (front ++ chr '%' :: tail)
      · obtain ⟨fuel, rfl⟩ := Nat.exists_eq_add_one.mpr (Nat.lt_of_lt_of_le (by simp) hfuel)
        rw [loop_step hlt, overreads_cut htail]
        match tail with
        | [] =>
            rw [step_last out]
            exact iff_of_false (by simp) (fun h => h ⟨hlt, Or.inl rfl⟩)
        | [a] =>
            by_cases hover : front.length + 3 < 2 ^ 31
            · have hlen := len_le (front ++ [chr '%', a])
              simp only [List.length_append, List.length_cons, List.length_nil] at hlen
              rw [step_cut a out hover, Option.bind_some, loop_done (by simp only; omega)]
              refine iff_of_true rfl ?_
              rintro ⟨_, hnil | hbad⟩
              · cases hnil
              · omega
            · rw [step_overflow out (by omega)]
              exact iff_of_false (by simp) (fun h => h ⟨hlt, Or.inr (by omega)⟩)
        | _ :: _ :: _ =>
            simp only [List.length_cons] at htail
            omega
      · exact loop_isSome_iff_of_done hlt fuel

private theorem loop_mono {src : List Byte} {n m : Nat} {s : Scan} (hnm : n ≤ m)
    (h : (loop src n s).isSome) : (loop src m s).isSome := by
  induction n generalizing m s with
  | zero =>
      by_cases hlt : (s.i : Int) < len src
      · simp [loop, hlt] at h
      · rw [loop_done hlt]
        rfl
  | succ n ih =>
      by_cases hlt : (s.i : Int) < len src
      · obtain ⟨m, rfl⟩ := Nat.exists_eq_add_one.mpr (Nat.lt_of_lt_of_le (Nat.succ_pos n) hnm)
        rw [loop_step hlt] at h ⊢
        cases hstep : step src s with
        | none => simp [hstep] at h
        | some s' =>
            rw [hstep, Option.bind_some] at h
            exact ih (Nat.le_of_succ_le_succ hnm) h
      · rw [loop_done hlt]
        rfl

/-- `UrlDecode` reads only `src[0]` to `src[src.length()]`, and its loop ends
after at most `src.length()` iterations. -/
def StaysInside (src : List Byte) : Prop :=
  ∃ n ≤ src.length, (loop src n { i := 0, outPut := [] }).isSome

theorem staysInside_iff (src : List Byte) : StaysInside src ↔ (urlDecode src).isSome := by
  constructor
  · rintro ⟨n, hn, h⟩
    exact loop_mono hn h
  · intro h
    exact ⟨src.length, le_rfl, h⟩

/-- The loop stays inside the string unless a `%` it reaches is the last
character, or ends its escape at an index that no `int` holds. -/
theorem url_decode_inside_iff (src : List Byte) :
    StaysInside src ↔ ¬ Overreads (len src) 0 src := by
  rw [staysInside_iff]
  exact loop_isSome_iff [] src [] src.length le_rfl

/-- A single `%` makes `UrlDecode` read the second character after the NUL. -/
theorem url_decode_overreads : ¬ StaysInside [chr '%'] := by
  rw [staysInside_iff]
  decide

end LearningCpp.CharConvert

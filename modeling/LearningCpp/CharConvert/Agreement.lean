import LearningCpp.CharConvert.UrlDecode

/-!
The two decoders of the repository on well-formed texts: `UrlDecode` of
`CharConvertTool` and `url_decode` of the servers. They go through the same
pieces; the first stops at a length that is narrowed to an `int`.
-/

namespace LearningCpp.CharConvert

open Library Http

/-- The byte that `UrlDecode` appends for a piece. -/
def pieceByte : Piece (chr '%') → Byte
  | .plain c _ => if c = chr '+' then chr ' ' else c
  | .escape first second => (str2Bin first.toInt8 second.toInt8).toUInt8

theorem char2Int_digit {c : Byte} {x : Nat} (h : hexValue c = some x) :
    char2Int c.toInt8 = Int8.ofNat x := by
  have hall : ∀ n : Fin 256, ∀ x ∈ hexValue (UInt8.ofFin n),
      char2Int (UInt8.ofFin n).toInt8 = Int8.ofNat x := by decide +kernel
  exact hall c.toFin x h

private theorem nibbles (x y : Fin 16) :
    ((Int8.ofNat x).toInt32 <<< 4 ||| (Int8.ofNat y).toInt32).toInt8.toUInt8 =
      UInt8.ofNat (16 * x + y) := by
  revert x y
  decide +kernel

/-- The nibble arithmetic and the extraction agree on two digits. -/
theorem str2Bin_digits {first second : Byte} (h : TwoDigits first second) :
    (str2Bin first.toInt8 second.toInt8).toUInt8 = byteOf first second := by
  obtain ⟨x, hx⟩ := (isxdigit_iff first).mp h.1
  obtain ⟨y, hy⟩ := (isxdigit_iff second).mp h.2
  have hnibbles := nibbles ⟨x, hexValue_lt hx⟩ ⟨y, hexValue_lt hy⟩
  rw [str2Bin, char2Int_digit hx, char2Int_digit hy, byteOf, hx, hy]
  exact hnibbles

private theorem pieceByte_eq {p : Piece (chr '%')} (h : p.Escapes TwoDigits) :
    pieceValue p = some (pieceByte p) := by
  cases p with
  | plain c hc => rfl
  | escape first second => rw [pieceValue_digits h, pieceByte, str2Bin_digits h]

private theorem filterMap_pieceValue {ps : List (Piece (chr '%'))}
    (hps : ∀ p ∈ ps, p.Escapes TwoDigits) : ps.filterMap pieceValue = ps.map pieceByte := by
  induction ps with
  | nil => rfl
  | cons p ps ih =>
      obtain ⟨hp, hrest⟩ := List.forall_mem_cons.mp hps
      rw [List.filterMap_cons_some (pieceByte_eq hp), List.map_cons, ih hrest]

/-- The body of the loop at a piece whose end an `int` can index. -/
theorem step_text {front rest : List Byte} (p : Piece (chr '%')) (out : List Byte)
    (h : front.length + p.text.length < 2 ^ 31) :
    step (front ++ (p.text ++ rest)) ⟨front.length, out⟩ =
      some ⟨front.length + p.text.length, out ++ [pieceByte p]⟩ := by
  cases p with
  | plain c hc => exact step_plain hc out h
  | escape first second => exact step_escape first second out h

private theorem loop_spell {front out : List Byte} {ps : List (Piece (chr '%'))} {fuel : Nat}
    (hfuel : (spell ps).length ≤ fuel) (hlength : (front ++ spell ps).length < 2 ^ 31) :
    loop (front ++ spell ps) fuel ⟨front.length, out⟩ = some (out ++ ps.map pieceByte) := by
  induction ps generalizing front out fuel with
  | nil =>
      have hlen := len_le (front ++ [])
      rw [List.append_nil] at hlen
      rw [spell_nil, loop_done (by simpa using hlen), List.map_nil, List.append_nil]
  | cons p ps ih =>
      have hp := p.text_length_pos
      have hlen := len_eq hlength
      rw [spell_cons] at *
      simp only [List.length_append] at hfuel hlength hlen
      obtain ⟨fuel, rfl⟩ := Nat.exists_eq_add_one.mpr (show 0 < fuel by omega)
      have hrest := @ih (front ++ p.text) (out ++ [pieceByte p]) fuel (by omega)
        (by simp only [List.length_append]; omega)
      rw [List.append_assoc, List.append_assoc, List.length_append, List.singleton_append] at hrest
      rw [loop_step (by rw [hlen]; push_cast; omega), step_text p out (by omega),
        Option.bind_some, hrest, List.map_cons]

/-- A piece that the loop gets past ends at an index that an `int` holds. -/
theorem lt_of_step_text {front rest : List Byte} {p : Piece (chr '%')} {out : List Byte}
    {s : Scan} (hlow : front.length + 1 < 2 ^ 31)
    (h : step (front ++ (p.text ++ rest)) ⟨front.length, out⟩ = some s) :
    front.length + p.text.length < 2 ^ 31 := by
  cases p with
  | plain c hc => exact hlow
  | escape first second =>
      by_contra hover
      rw [Piece.text, List.cons_append, step_overflow out (Nat.not_lt.mp hover)] at h
      cases h

/-- A text that is longer than the narrowed length is not decoded to its end. -/
theorem loop_short {front out result : List Byte} {ps : List (Piece (chr '%'))} {fuel : Nat}
    (hlen : len (front ++ spell ps) + 3 ≤ (front ++ spell ps).length)
    (hstart : ps = [] → (front.length : Int) < len (front ++ spell ps) + 3)
    (h : loop (front ++ spell ps) fuel ⟨front.length, out⟩ = some result) :
    result.length < out.length + ps.length := by
  induction ps generalizing front out fuel with
  | nil =>
      have hfront := hstart rfl
      simp only [spell_nil, List.append_nil] at hlen hfront
      omega
  | cons p ps ih =>
      rw [spell_cons] at hlen h
      by_cases hlt : (front.length : Int) < len (front ++ (p.text ++ spell ps))
      · cases fuel with
        | zero =>
            rw [loop, if_pos hlt] at h
            cases h
        | succ fuel =>
            rw [loop_step hlt] at h
            obtain ⟨s, hstep, h⟩ := Option.bind_eq_some_iff.mp h
            have hlimit := len_lt (front ++ (p.text ++ spell ps))
            have hthree := p.text_length_le
            have hend := lt_of_step_text (by omega) hstep
            rw [step_text p out hend] at hstep
            cases hstep
            rw [← List.append_assoc] at h hlen hlt
            rw [← List.length_append] at h
            have hrest := ih hlen (by intro _; rw [List.length_append]; omega) h
            simp only [List.length_append, List.length_cons, List.length_nil] at hrest ⊢
            omega
      · rw [loop_done hlt] at h
        cases h
        simp only [List.length_cons]
        omega

theorem len_short {src : List Byte} (h : 2 ^ 31 ≤ src.length) : len src + 3 ≤ src.length := by
  have hlimit := len_lt src
  by_cases hhigh : src.length < 2 ^ 32
  · have hneg := sizeToInt_neg h hhigh
    rw [Int32.lt_iff_toInt_lt, Int32.toInt_zero] at hneg
    rw [len]
    omega
  · omega

/-- On a well-formed text the two decoders give the same string exactly when the
length of the text is an `int`. -/
theorem decoders_agree_iff (src : List Byte) (hsrc : WellFormed src) :
    CharConvert.urlDecode src = some (Http.urlDecode src).2 ↔ src.length < 2 ^ 31 := by
  rw [urlDecode_wellFormed hsrc]
  obtain ⟨ps, rfl, hps⟩ := (wellFormed_iff src).mp hsrc
  rw [decoded_spell hps, filterMap_pieceValue hps]
  constructor
  · intro h
    by_contra hlong
    have hnonempty : ps ≠ [] := by
      rintro rfl
      simp at hlong
    have hshort := @loop_short [] _ _ _ _ (len_short (Nat.not_lt.mp hlong))
      (fun hnil => absurd hnil hnonempty) h
    simp only [List.length_nil, List.length_map] at hshort
    omega
  · exact @loop_spell [] _ _ _ le_rfl

theorem decoders_agree_plus :
    CharConvert.urlDecode [chr '%', chr 'd', chr '6', chr '+'] =
      some (Http.urlDecode [chr '%', chr 'd', chr '6', chr '+']).2 := by
  refine (decoders_agree_iff _ ?_).mpr (by decide)
  exact (wellFormed_iff _).mpr ⟨[.escape (chr 'd') (chr '6'), .plain (chr '+') (by decide)], rfl,
    by simp [Piece.Escapes, TwoDigits]; decide⟩

/-- A length that is narrowed to a negative number: the loop is never entered. -/
theorem urlDecode_long {src : List Byte} (hlow : 2 ^ 31 ≤ src.length)
    (hhigh : src.length < 2 ^ 32) : CharConvert.urlDecode src = some [] := by
  have hneg := sizeToInt_neg hlow hhigh
  rw [Int32.lt_iff_toInt_lt, Int32.toInt_zero] at hneg
  have hstop : ¬ ((0 : Nat) : Int) < len src := by
    rw [len]
    omega
  exact loop_done hstop src.length

theorem wellFormed_letters (n : Nat) : WellFormed (List.replicate n (chr 'a')) := by
  intro before rest h
  have hmem : chr '%' ∈ List.replicate n (chr 'a') := by
    rw [h]
    exact List.mem_append_right before List.mem_cons_self
  exact absurd (List.eq_of_mem_replicate hmem) (by decide)

private theorem decoded_letters (n : Nat) :
    decoded (List.replicate n (chr 'a')) = List.replicate n (chr 'a') := by
  induction n with
  | zero => rfl
  | succ n ih =>
      have hpercent : chr 'a' ≠ chr '%' := by decide
      have hplus : chr 'a' ≠ chr '+' := by decide
      rw [List.replicate_succ, decoded_plain hpercent, if_neg hplus, ih]

private theorem letters_disagree {n : Nat} (hlow : 2 ^ 31 ≤ n) (hhigh : n < 2 ^ 32) :
    WellFormed (List.replicate n (chr 'a')) ∧
      CharConvert.urlDecode (List.replicate n (chr 'a')) = some [] ∧
      (Http.urlDecode (List.replicate n (chr 'a'))).2 = List.replicate n (chr 'a') := by
  have hlength : (List.replicate n (chr 'a')).length = n := List.length_replicate
  refine ⟨wellFormed_letters n, ?_, ?_⟩
  · apply urlDecode_long
    · rwa [hlength]
    · rwa [hlength]
  · rw [urlDecode_wellFormed (wellFormed_letters n), decoded_letters]

/-- As many letters as an `int` cannot count are decoded to the empty string by
one decoder, and to themselves by the other. -/
theorem decoders_disagree :
    WellFormed (List.replicate (2 ^ 31) (chr 'a')) ∧
      CharConvert.urlDecode (List.replicate (2 ^ 31) (chr 'a')) ≠
        some (Http.urlDecode (List.replicate (2 ^ 31) (chr 'a'))).2 := by
  obtain ⟨hwell, hempty, hall⟩ := letters_disagree (n := 2 ^ 31) le_rfl (by norm_num)
  refine ⟨hwell, ?_⟩
  rw [hempty, hall]
  intro h
  have hlength := congrArg List.length (Option.some.inj h)
  rw [List.length_replicate, List.length_nil] at hlength
  omega

end LearningCpp.CharConvert

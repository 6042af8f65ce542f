import LearningCpp.IniFile.Read
import LearningCpp.Library.Strip

/-!
What the expressions of `ReadStringFromIniFile` find in a line. The section is looked
for behind the first `[`, wherever that is; it ends where the whole line starts with
one. The item is the last word before the first `=`, and its value goes up to the end
of the line as Boost sees it.
-/

namespace LearningCpp.IniFile

open Library

/-- The text from the first `[` up to the next `]`. -/
def bracketed (line : Text) : Option Text :=
  match line.dropWhile (fun c => c ≠ 91) with
  | [] => none
  | _ :: rest => if 93 ∈ rest then some (rest.takeWhile (fun c => c ≠ 93)) else none

/-- The last word before the blanks at the end. -/
def lastWord (text : Text) : Text := (text.rdropWhile blank).rtakeWhile (fun c => !blank c)

/-- Without the blanks around it, and without what is behind a separator. -/
def cutValue (text : Text) : Text :=
  ((text.dropWhile blank).takeWhile (fun c => !isSeparator c)).rdropWhile blank

/-- What the second expression finds: the last word before the first `=`, and the value. -/
def assigned (line : Text) : Option (Text × Text) :=
  if 61 ∈ line then
    some (lastWord (line.takeWhile (fun c => c ≠ 61)),
      cutValue ((line.dropWhile (fun c => c ≠ 61)).drop 1))
  else none

theorem blank_of_isSeparator {c : UInt8} (h : isSeparator c) : blank c := by
  simp only [isSeparator, Bool.or_eq_true, decide_eq_true_eq] at h
  obtain (rfl | rfl) | rfl := h <;> decide

theorem nameByte_iff (c : UInt8) : nameByte c ↔ blank c = false ∧ c ≠ 61 := by
  simp only [nameByte, Bool.not_eq_true', Bool.or_eq_false_iff, decide_eq_false_iff_not]
  constructor
  · rintro ⟨⟨hblank, -⟩, heq⟩
    exact ⟨hblank, heq⟩
  · rintro ⟨hblank, heq⟩
    refine ⟨⟨hblank, ?_⟩, heq⟩
    rintro rfl
    exact absurd hblank (by decide)

private theorem tailByte_eq (c : UInt8) : tailByte c = blank c := by
  cases hblank : blank c with
  | true => simp [tailByte, hblank]
  | false =>
      simp only [tailByte, hblank, Bool.or_false, Bool.or_eq_false_iff, decide_eq_false_iff_not]
      constructor
      · rintro rfl
        exact absurd hblank (by decide)
      · rintro rfl
        exact absurd hblank (by decide)

theorem valueByte_of_not_isSeparator {c : UInt8} (h : isSeparator c = false) : valueByte c := by
  simp only [isSeparator, Bool.or_eq_false_iff, decide_eq_false_iff_not] at h
  simp [valueByte, h]

section

variable {accept : List UInt8 → Bool}

/-- A match of the first expression reaches from the blanks before `[` to the end. -/
theorem matchFrom_reg (last : Option UInt8) (haccept : accept []) (front rest : Text) {name : Text}
    (hfront : ∀ c ∈ front, blank c) (hname : 93 ∉ name) :
    ∃ pieces, matchFrom accept reg last (front ++ 91 :: (name ++ 93 :: rest)) =
      some (front :: [91] :: name :: pieces) := by
  have hrest (last : Option UInt8) : ∃ pieces,
      matchFrom accept [.greedy blank, .greedy any] last rest = some pieces := by
    rw [← Option.isSome_iff_exists, isSome_matchFrom_greedy]
    refine ⟨[], rest, rfl, nofun, ?_⟩
    rw [isSome_matchFrom_greedy]
    exact ⟨rest, [], (List.append_nil rest).symm, fun _ _ => rfl, isSome_matchFrom_nil.mpr haccept⟩
  obtain ⟨pieces, hpieces⟩ := hrest (some 93)
  refine ⟨[93] :: pieces, ?_⟩
  apply matchFrom_greedy hfront
  · simp [blank, isspace]
  · apply matchFrom_one (by simp)
    apply matchFrom_lazy (fun _ _ => rfl)
    · intro s t hsplit hne
      obtain ⟨d, t, rfl⟩ := List.exists_cons_of_ne_nil hne
      apply matchFrom_one_of_neg
      rw [decide_eq_false_iff_not]
      rintro rfl
      exact hname (hsplit ▸ List.mem_append_right s List.mem_cons_self)
    · exact matchFrom_one (by simp) hpieces

theorem isSome_matchFrom_reg {last : Option UInt8} {text : Text}
    (h : (matchFrom accept reg last text).isSome) :
    ∃ front name rest, text = front ++ 91 :: (name ++ 93 :: rest) ∧ ∀ c ∈ front, blank c := by
  rw [reg, isSome_matchFrom_greedy] at h
  obtain ⟨front, v, rfl, hfront, h⟩ := h
  rw [isSome_matchFrom_one] at h
  obtain ⟨c, v, rfl, hc, h⟩ := h
  rw [isSome_matchFrom_lazy] at h
  obtain ⟨name, v, rfl, -, h⟩ := h
  rw [isSome_matchFrom_one] at h
  obtain ⟨c', rest, rfl, hc', -⟩ := h
  rw [decide_eq_true_eq] at hc hc'
  exact ⟨front, name, rest, by rw [hc, hc'], hfront⟩

end

theorem not_mem_of_blank {text : Text} (h : ∀ c ∈ text, blank c) {x : UInt8}
    (hx : blank x = false) : x ∉ text := by
  intro hmem
  rw [h x hmem] at hx
  cases hx

theorem ne_of_not_mem {text : Text} {x : UInt8} (h : x ∉ text) : ∀ c ∈ text, decide (c ≠ x) := by
  intro c hc
  exact decide_eq_true (fun heq => h (heq ▸ hc))

theorem takeWhile_ne {x : UInt8} {front rest : Text} (hfront : x ∉ front) :
    (front ++ x :: rest).takeWhile (fun c => c ≠ x) = front :=
  takeWhile_stop (ne_of_not_mem hfront) (by simp)

theorem dropWhile_ne {x : UInt8} {front rest : Text} (hfront : x ∉ front) :
    (front ++ x :: rest).dropWhile (fun c => c ≠ x) = x :: rest :=
  dropWhile_stop (ne_of_not_mem hfront) (by simp)

/-- The places before and after a letter in a text, when it is its first one. -/
theorem first_unique {x : UInt8} {front front' rest rest' : Text} (hfront : x ∉ front)
    (hfront' : x ∉ front') (h : front ++ x :: rest = front' ++ x :: rest') :
    front = front' ∧ rest = rest' := by
  have htake := congrArg (List.takeWhile (fun c => decide (c ≠ x))) h
  have hdrop := congrArg (List.dropWhile (fun c => decide (c ≠ x))) h
  rw [takeWhile_ne hfront, takeWhile_ne hfront'] at htake
  rw [dropWhile_ne hfront, dropWhile_ne hfront'] at hdrop
  exact ⟨htake, (List.cons.inj hdrop).2⟩

/-- A first `[` and the first `]` after it, or a line that has no such pair. -/
theorem bracketed_cases (line : Text) :
    (∃ front name rest, 91 ∉ front ∧ 93 ∉ name ∧ line = front ++ 91 :: (name ++ 93 :: rest) ∧
      bracketed line = some name) ∨
    (∀ front rest, line = front ++ 91 :: rest → 93 ∉ rest) ∧ bracketed line = none := by
  by_cases hopen : 91 ∈ line
  · obtain ⟨front, rest, rfl, hfront⟩ := List.eq_append_cons_of_mem hopen
    by_cases hclose : 93 ∈ rest
    · obtain ⟨name, rest, rfl, hname⟩ := List.eq_append_cons_of_mem hclose
      left
      refine ⟨front, name, rest, hfront, hname, rfl, ?_⟩
      rw [bracketed, dropWhile_ne hfront]
      simp only
      rw [if_pos hclose, takeWhile_ne hname]
    · right
      constructor
      · intro front' rest' heq hmem
        -- the `[` of the other cut is the first one, or behind it
        obtain ⟨more, rfl, hmore⟩ | ⟨more, rfl, hmore⟩ := List.append_eq_append_iff.mp heq
        · cases more with
          | nil => exact hclose ((List.cons.inj hmore).2 ▸ hmem)
          | cons d more =>
              rw [(List.cons.inj hmore).2] at hclose
              exact hclose (List.mem_append_right more (List.mem_cons_of_mem 91 hmem))
        · cases more with
          | nil => exact hclose ((List.cons.inj hmore).2 ▸ hmem)
          | cons d more =>
              have hd : 91 = d := (List.cons.inj hmore).1
              exact hfront (List.mem_append_right front' (hd ▸ List.mem_cons_self))
      · rw [bracketed, dropWhile_ne hfront]
        exact if_neg hclose
  · right
    constructor
    · rintro front rest rfl
      exact absurd (List.mem_append_right front List.mem_cons_self) hopen
    · have hnil : line.dropWhile (fun c => c ≠ 91) = [] := by
        rw [List.dropWhile_eq_nil_iff]
        exact ne_of_not_mem hopen
      rw [bracketed, hnil]

/-- The first expression finds what stands in the first pair of brackets. -/
theorem search_reg (line : Text) :
    (search reg none line).map (fun what => what.getD 2 []) = bracketed line := by
  obtain ⟨front, name, rest, hfront, hname, rfl, hbracketed⟩ | ⟨hnone, hbracketed⟩ :=
    bracketed_cases line
  · -- the match starts with the blanks before the first `[`
    obtain ⟨pieces, hpieces⟩ := @matchFrom_reg (fun _ => true)
      (lastAfter none (front.rdropWhile blank)) rfl (front.rtakeWhile blank) rest name
      (fun _ => List.mem_rtakeWhile_imp) hname
    rw [hbracketed, ← List.rdropWhile_append_rtakeWhile (p := blank) (l := front),
      List.append_assoc, search_leftmost ?_ hpieces]
    · rfl
    · intro s t hsplit hne
      rw [← Option.not_isSome_iff_eq_none]
      intro hsome
      obtain ⟨blanks, name', rest', heq, hblanks⟩ := isSome_matchFrom_reg hsome
      have hbehind : 91 ∉ t ++ front.rtakeWhile blank := by
        intro hmem
        apply hfront
        rw [← List.rdropWhile_append_rtakeWhile (p := blank) (l := front), hsplit,
          List.append_assoc]
        exact List.mem_append_right s hmem
      rw [← List.append_assoc] at heq
      obtain ⟨hsame, -⟩ := first_unique hbehind (not_mem_of_blank hblanks (by decide)) heq
      obtain ⟨t, d, rfl⟩ := (List.eq_nil_or_concat' t).resolve_left hne
      rw [← List.append_assoc] at hsplit
      have hlast := rdropWhile_snoc hsplit
      rw [hblanks d (hsame ▸ by simp)] at hlast
      cases hlast
  · rw [hbracketed, Option.map_eq_none_iff, ← Option.not_isSome_iff_eq_none, isSome_search]
    rintro ⟨s, t, rfl, hsome⟩
    obtain ⟨blanks, name, rest, rfl, -⟩ := isSome_matchFrom_reg hsome
    refine hnone (s ++ blanks) (name ++ 93 :: rest) ?_ ?_
    · rw [List.append_assoc]
    · exact List.mem_append_right name List.mem_cons_self

/-- The first expression matches a line that starts with `[` and has a `]` behind it. -/
theorem isSome_matchWhole_reg (line : Text) :
    (matchWhole reg line).isSome ↔ ∃ rest, line.dropWhile blank = 91 :: rest ∧ 93 ∈ rest := by
  constructor
  · intro hsome
    obtain ⟨front, name, rest, rfl, hfront⟩ := isSome_matchFrom_reg hsome
    refine ⟨name ++ 93 :: rest, dropWhile_stop hfront (by decide), ?_⟩
    exact List.mem_append_right name List.mem_cons_self
  · rintro ⟨rest, hdrop, hclose⟩
    obtain ⟨name, rest, rfl, hname⟩ := List.eq_append_cons_of_mem hclose
    obtain ⟨pieces, hpieces⟩ := @matchFrom_reg List.isEmpty none rfl (line.takeWhile blank) rest
      name (fun _ => List.mem_takeWhile_imp) hname
    rw [← hdrop, List.takeWhile_append_dropWhile] at hpieces
    rw [matchWhole, hpieces]
    rfl

/-- Where the second expression may end: blanks, and then the end of a line. -/
theorem isSome_matchFrom_end {last : Option UInt8} {text : Text} :
    (matchFrom (fun _ => true) [.greedy tailByte, .assertion endOfLine] last text).isSome ↔
      ∃ u v, text = u ++ v ∧ (∀ c ∈ u, blank c) ∧ endOfLine (lastAfter last u) v.head? := by
  simp only [isSome_matchFrom_greedy, isSome_matchFrom_assertion, isSome_matchFrom_nil, tailByte_eq,
    and_true]

/-- It does not end before a letter that is not blank, when there is no separator up to it. -/
theorem matchFrom_end_of_visible {last : Option UInt8} {t : Text} {d : UInt8} (more : Text)
    (hd : blank d = false) (hvisible : ∀ c ∈ t ++ [d], isSeparator c = false) :
    matchFrom (fun _ => true) [.greedy tailByte, .assertion endOfLine] last (t ++ d :: more) =
      none := by
  rw [← Option.not_isSome_iff_eq_none, isSome_matchFrom_end]
  rintro ⟨u, v, heq, hu, hend⟩
  have hdu : d ∉ u := not_mem_of_blank hu hd
  obtain ⟨c, hc, hhead⟩ : ∃ c ∈ t ++ [d], v.head? = some c := by
    obtain ⟨m, rfl, hm⟩ | ⟨m, rfl, rfl⟩ := List.append_eq_append_iff.mp heq
    · cases m with
      | nil => exact ⟨d, by simp, by rw [← List.nil_append v, ← hm]; rfl⟩
      | cons e m =>
          rw [(List.cons.inj hm).1] at hdu
          exact absurd (List.mem_append_right t List.mem_cons_self) hdu
    · cases m with
      | nil => exact ⟨d, by simp, rfl⟩
      | cons e m => exact ⟨e, by simp, rfl⟩
  rw [hhead] at hend
  simp [endOfLine, hvisible c hc] at hend

/-- Behind a text without separators there is an end of line when nothing follows, or a
separator. -/
theorem endOfLine_of_visible {last : Option UInt8} {shown hidden : Text}
    (hshown : ∀ c ∈ shown, isSeparator c = false) (hhidden : ∀ c ∈ hidden.head?, isSeparator c)
    (hempty : shown = [] → hidden = []) : endOfLine (lastAfter last shown) hidden.head? := by
  cases hhead : hidden.head? with
  | none => rfl
  | some c =>
      have hne : shown ≠ [] := by
        intro hnil
        rw [hempty hnil] at hhead
        cases hhead
      obtain ⟨front, d, rfl⟩ := (List.eq_nil_or_concat' shown).resolve_left hne
      have hd : d ≠ 13 := by
        rintro rfl
        exact absurd (hshown 13 (by simp)) (by decide)
      simp [endOfLine, hhidden c hhead, lastAfter, hd]

/-- The value ends where only blanks are left before the end of the line. -/
theorem matchFrom_cutValue (last : Option UInt8) (rest : Text) :
    ∃ pieces, matchFrom (fun _ => true)
        [.greedy blank, .lazy valueByte, .greedy tailByte, .assertion endOfLine] last rest =
      some (rest.takeWhile blank :: cutValue rest :: pieces) := by
  obtain ⟨start, hstart⟩ : ∃ start, start = rest.dropWhile blank := ⟨_, rfl⟩
  obtain ⟨shown, hshown⟩ : ∃ shown, shown = start.takeWhile (fun c => !isSeparator c) := ⟨_, rfl⟩
  obtain ⟨hidden, hhidden⟩ : ∃ hidden, hidden = start.dropWhile (fun c => !isSeparator c) :=
    ⟨_, rfl⟩
  have hcut : cutValue rest = shown.rdropWhile blank := by rw [cutValue, hshown, hstart]
  have hvisible : ∀ c ∈ shown, isSeparator c = false := by
    intro c hc
    rw [hshown] at hc
    simpa using List.mem_takeWhile_imp hc
  have hsplit : start = shown.rdropWhile blank ++ (shown.rtakeWhile blank ++ hidden) := by
    rw [← List.append_assoc, List.rdropWhile_append_rtakeWhile, hshown, hhidden,
      List.takeWhile_append_dropWhile]
  have hend : (matchFrom (fun _ => true) [.greedy tailByte, .assertion endOfLine]
      (lastAfter (lastAfter last (rest.takeWhile blank)) (shown.rdropWhile blank))
      (shown.rtakeWhile blank ++ hidden)).isSome := by
    rw [isSome_matchFrom_end]
    refine ⟨shown.rtakeWhile blank, hidden, rfl, fun _ => List.mem_rtakeWhile_imp, ?_⟩
    rw [lastAfter_append, List.rdropWhile_append_rtakeWhile]
    have hstop : ∀ c ∈ hidden.head?, isSeparator c := by
      intro c hc
      have hnot := head_dropWhile (hhidden ▸ hc)
      simpa using hnot
    apply endOfLine_of_visible hvisible hstop
    · intro hnil
      -- the text does not start with a blank, so it does not start with a separator
      have hwhole : start = hidden := by
        rw [hsplit, hnil]
        rfl
      cases hstartHead : hidden with
      | nil => rfl
      | cons c more =>
          have hc : c ∈ start.head? := by
            rw [hwhole, hstartHead]
            rfl
          have hblank := head_dropWhile (hstart ▸ hc)
          rw [blank_of_isSeparator (hstop c (hstartHead ▸ rfl))] at hblank
          cases hblank
  obtain ⟨pieces, hpieces⟩ := Option.isSome_iff_exists.mp hend
  refine ⟨pieces, ?_⟩
  rw [hcut]
  conv_lhs => rw [← List.takeWhile_append_dropWhile (p := blank) (l := rest), ← hstart]
  apply matchFrom_greedy (fun _ => List.mem_takeWhile_imp)
  · intro c hc
    exact head_dropWhile (hstart ▸ hc)
  · have hkept : ∀ c ∈ shown.rdropWhile blank, isSeparator c = false := by
      intro c hc
      exact hvisible c ((List.rdropWhile_prefix blank shown).subset hc)
    conv_lhs => rw [hsplit]
    apply matchFrom_lazy ?_ ?_ hpieces
    · intro c hc
      exact valueByte_of_not_isSeparator (hkept c hc)
    · intro s t hst hne
      obtain ⟨t, d, rfl⟩ := (List.eq_nil_or_concat' t).resolve_left hne
      rw [List.append_assoc, List.singleton_append]
      apply matchFrom_end_of_visible
      · exact rdropWhile_snoc (hst.trans (List.append_assoc s t [d]).symm)
      · intro c hc
        exact hkept c (hst ▸ List.mem_append_right s hc)

/-- A match of the second expression starts with the blanks before the last word. -/
theorem matchFrom_regItem (last : Option UInt8) (rest : Text) {before word after : Text}
    (hbefore : ∀ c ∈ before, blank c) (hword : ∀ c ∈ word, nameByte c)
    (hafter : ∀ c ∈ after, blank c) (hempty : word = [] → after = []) :
    ∃ pieces, matchFrom (fun _ => true) regItem last
        (before ++ (word ++ (after ++ 61 :: rest))) =
      some (before :: word :: after :: [61] :: rest.takeWhile blank :: cutValue rest :: pieces) := by
  obtain ⟨pieces, hpieces⟩ := matchFrom_cutValue (some 61) rest
  refine ⟨pieces, ?_⟩
  apply matchFrom_greedy hbefore
  · cases word with
    | nil =>
        rw [hempty rfl]
        simp [blank, isspace]
    | cons c word =>
        have hc := ((nameByte_iff c).mp (hword c List.mem_cons_self)).1
        simpa using hc
  · apply matchFrom_lazy hword
    · intro s t hsplit hne
      obtain ⟨d, t, rfl⟩ := List.exists_cons_of_ne_nil hne
      obtain ⟨hd, hsign⟩ := (nameByte_iff d).mp (hword d (hsplit ▸ by simp))
      rw [← Option.not_isSome_iff_eq_none, isSome_matchFrom_greedy]
      rintro ⟨u, v, heq, hu, hsome⟩
      rw [isSome_matchFrom_one] at hsome
      obtain ⟨c, v, rfl, hc, -⟩ := hsome
      cases u with
      | nil =>
          rw [decide_eq_true_eq] at hc
          exact hsign ((List.cons.inj heq).1.trans hc)
      | cons e u => exact not_mem_of_blank hu hd ((List.cons.inj heq).1 ▸ List.mem_cons_self)
    · apply matchFrom_greedy hafter
      · simp [blank, isspace]
      · exact matchFrom_one (by simp) hpieces

theorem isSome_matchFrom_regItem {last : Option UInt8} {text : Text}
    (h : (matchFrom (fun _ => true) regItem last text).isSome) :
    ∃ before word after rest, text = before ++ (word ++ (after ++ 61 :: rest)) ∧
      (∀ c ∈ before, blank c) ∧ (∀ c ∈ word, nameByte c) ∧ ∀ c ∈ after, blank c := by
  rw [regItem, isSome_matchFrom_greedy] at h
  obtain ⟨before, v, rfl, hbefore, h⟩ := h
  rw [isSome_matchFrom_lazy] at h
  obtain ⟨word, v, rfl, hword, h⟩ := h
  rw [isSome_matchFrom_greedy] at h
  obtain ⟨after, v, rfl, hafter, h⟩ := h
  rw [isSome_matchFrom_one] at h
  obtain ⟨c, rest, rfl, hc, -⟩ := h
  rw [decide_eq_true_eq] at hc
  exact ⟨before, word, after, rest, by rw [hc], hbefore, hword, hafter⟩

/-- There is one word at most between the start of a match and its `=`. -/
theorem no_two_words {before word after : Text} (hbefore : ∀ c ∈ before, blank c)
    (hword : ∀ c ∈ word, nameByte c) (hafter : ∀ c ∈ after, blank c) {d b e : UInt8}
    (hd : blank d = false) (hb : blank b) (he : blank e = false) :
    ¬ [d, b, e].Sublist (before ++ (word ++ after)) := by
  intro hsub
  obtain ⟨l₁, l₂₃, heq, h₁, h₂₃⟩ := List.sublist_append_iff.mp hsub
  obtain ⟨l₂, l₃, rfl, h₂, h₃⟩ := List.sublist_append_iff.mp h₂₃
  have hd₁ : d ∉ l₁ := fun hmem => not_mem_of_blank hbefore hd (h₁.subset hmem)
  have hb₂ : b ∉ l₂ := by
    intro hmem
    have hb' := ((nameByte_iff b).mp (hword b (h₂.subset hmem))).1
    rw [hb] at hb'
    cases hb'
  have he₃ : e ∉ l₃ := fun hmem => not_mem_of_blank hafter he (h₃.subset hmem)
  cases l₁ with
  | cons x l₁ => exact hd₁ ((List.cons.inj heq).1 ▸ List.mem_cons_self)
  | nil =>
      rw [List.nil_append] at heq
      match l₂, heq with
      | [], heq =>
          rw [List.nil_append] at heq
          exact he₃ (heq ▸ by simp)
      | [x], heq =>
          have htail : [b, e] = l₃ := (List.cons.inj heq).2
          exact he₃ (htail ▸ by simp)
      | x :: y :: l₂, heq =>
          have hby := (List.cons.inj (List.cons.inj heq).2).1
          exact hb₂ (hby ▸ List.mem_cons_of_mem x List.mem_cons_self)

/-- There is no match from a word on that is not the last one before the `=`. -/
theorem matchFrom_regItem_of_words {last : Option UInt8} {t before word after : Text} {d : UInt8}
    (rest : Text) (hd : blank d = false) (hbefore : ∀ c ∈ before, blank c) (hgap : before ≠ [])
    (hword : ∀ c ∈ word, blank c = false) (hnonempty : word ≠ [])
    (hsign : 61 ∉ t ++ [d] ++ (before ++ (word ++ after))) :
    matchFrom (fun _ => true) regItem last
      (t ++ [d] ++ (before ++ (word ++ (after ++ 61 :: rest)))) = none := by
  rw [← Option.not_isSome_iff_eq_none]
  intro hsome
  obtain ⟨before', word', after', rest', heq, hbefore', hword', hafter'⟩ :=
    isSome_matchFrom_regItem hsome
  have hright : 61 ∉ before' ++ (word' ++ after') := by
    simp only [List.mem_append, not_or]
    refine ⟨not_mem_of_blank hbefore' (by decide), ?_, not_mem_of_blank hafter' (by decide)⟩
    intro hmem
    exact ((nameByte_iff 61).mp (hword' 61 hmem)).2 rfl
  have hcuts : t ++ [d] ++ (before ++ (word ++ after)) ++ 61 :: rest =
      before' ++ (word' ++ after') ++ 61 :: rest' := by
    simpa using heq
  obtain ⟨hsame, -⟩ := first_unique hsign hright hcuts
  obtain ⟨b, gap, rfl⟩ := List.exists_cons_of_ne_nil hgap
  obtain ⟨e, word, rfl⟩ := List.exists_cons_of_ne_nil hnonempty
  apply no_two_words hbefore' hword' hafter' hd (hbefore b List.mem_cons_self)
    (hword e List.mem_cons_self)
  rw [← hsame, show [d, b, e] = [d] ++ [b, e] from rfl]
  apply List.Sublist.append (List.sublist_append_right t [d])
  apply List.Sublist.cons_cons
  apply List.sublist_append_of_sublist_right
  exact List.singleton_sublist.mpr List.mem_cons_self

/-- A text as what comes before its last word, the blanks before it, the word, and the blanks
behind it. Without a word there are only blanks, all of them before it. -/
theorem exists_lastWord (text : Text) :
    ∃ front before word after, text = front ++ (before ++ (word ++ after)) ∧
      lastWord text = word ∧ (∀ c ∈ before, blank c) ∧ (∀ c ∈ word, blank c = false) ∧
      (∀ c ∈ after, blank c) ∧ (word = [] → front = [] ∧ after = []) ∧
      ∀ s d, front = s ++ [d] → blank d = false ∧ before ≠ [] := by
  obtain ⟨kept, hkept⟩ : ∃ kept, kept = text.rdropWhile blank := ⟨_, rfl⟩
  obtain ⟨front, hfront⟩ : ∃ front, front = kept.rdropWhile (fun c => !blank c) := ⟨_, rfl⟩
  have htext : text = kept ++ text.rtakeWhile blank := by
    rw [hkept, List.rdropWhile_append_rtakeWhile]
  have hword : kept = front ++ lastWord text := by
    rw [hfront, lastWord, ← hkept, List.rdropWhile_append_rtakeWhile]
  have hletters : ∀ c ∈ lastWord text, blank c = false := by
    intro c hc
    simpa using List.mem_rtakeWhile_imp hc
  by_cases hnil : lastWord text = []
  · have hnone : kept = [] := by
      obtain hkeptNil | ⟨s, d, hlast⟩ := List.eq_nil_or_concat' kept
      · exact hkeptNil
      · have hd : blank d = false := rdropWhile_snoc (hkept.symm.trans hlast)
        rw [lastWord, ← hkept, hlast, List.rtakeWhile_concat, hd, Bool.not_false, if_pos rfl]
          at hnil
        exact absurd hnil (by simp)
    refine ⟨[], text, [], [], by simp, hnil, ?_, nofun, nofun, fun _ => ⟨rfl, rfl⟩, by simp⟩
    intro c hc
    rw [htext, hnone, List.nil_append] at hc
    exact List.mem_rtakeWhile_imp hc
  · refine ⟨front.rdropWhile blank, front.rtakeWhile blank, lastWord text, text.rtakeWhile blank,
      ?_, rfl, fun _ => List.mem_rtakeWhile_imp, hletters, fun _ => List.mem_rtakeWhile_imp,
      fun h => absurd h hnil, ?_⟩
    · rw [← List.append_assoc, List.rdropWhile_append_rtakeWhile, ← List.append_assoc, ← hword,
        ← htext]
    · intro s d hsplit
      refine ⟨rdropWhile_snoc hsplit, ?_⟩
      intro hbefore
      -- what is before the last word ends with a blank
      have hsame : front = s ++ [d] := by
        rw [← hsplit]
        conv_lhs => rw [← List.rdropWhile_append_rtakeWhile (p := blank) (l := front), hbefore,
          List.append_nil]
      have hblank := rdropWhile_snoc (hfront ▸ hsame)
      rw [rdropWhile_snoc hsplit] at hblank
      cases hblank

/-- The second expression finds the last word before the first `=`, and the value. -/
theorem search_regItem (line : Text) :
    (search regItem none line).map (fun what => (what.getD 1 [], what.getD 5 [])) =
      assigned line := by
  by_cases hsign : 61 ∈ line
  · obtain ⟨text, rest, rfl, htext⟩ := List.eq_append_cons_of_mem hsign
    rw [assigned, if_pos hsign, takeWhile_ne htext, dropWhile_ne htext, List.drop_one,
      List.tail_cons]
    obtain ⟨front, before, word, after, rfl, hlast, hbefore, hletters, hafter, hempty, hfront⟩ :=
      exists_lastWord text
    have hword : ∀ c ∈ word, nameByte c := by
      intro c hc
      rw [nameByte_iff]
      refine ⟨hletters c hc, ?_⟩
      rintro rfl
      exact htext (by simp [hc])
    obtain ⟨pieces, hpieces⟩ := matchFrom_regItem (lastAfter none front) rest hbefore hword hafter
      (fun hnil => (hempty hnil).2)
    have hsplit : front ++ (before ++ (word ++ after)) ++ 61 :: rest =
        front ++ (before ++ (word ++ (after ++ 61 :: rest))) := by
      simp only [List.append_assoc]
    rw [hsplit, search_leftmost ?_ hpieces, hlast]
    · rfl
    · intro s t hst hne
      obtain ⟨t, d, rfl⟩ := (List.eq_nil_or_concat' t).resolve_left hne
      obtain ⟨hd, hgap⟩ := hfront (s ++ t) d (hst.trans (List.append_assoc s t [d]).symm)
      apply matchFrom_regItem_of_words rest hd hbefore hgap hletters
      · rintro rfl
        exact absurd (hst.symm.trans (hempty rfl).1) (by simp)
      · intro hmem
        apply htext
        rw [hst, List.append_assoc]
        exact List.mem_append_right s hmem
  · rw [assigned, if_neg hsign, Option.map_eq_none_iff, ← Option.not_isSome_iff_eq_none,
      isSome_search]
    rintro ⟨s, t, rfl, hsome⟩
    obtain ⟨before, word, after, rest, rfl, -⟩ := isSome_matchFrom_regItem hsome
    exact hsign (by simp)

/-- The last word is the end of what is left without the blanks at the two ends. -/
theorem lastWord_eq (text : Text) :
    lastWord text = (strip blank text).rtakeWhile (fun c => !blank c) := by
  rw [lastWord, strip_eq_dropWhile]
  conv_lhs => rw [← List.takeWhile_append_dropWhile (p := blank) (l := text.rdropWhile blank)]
  apply rtakeWhile_append_of_neg
  intro c hc
  rw [List.mem_takeWhile_imp hc]
  rfl

theorem lastWord_eq_strip {text : Text} (h : ∀ c ∈ strip blank text, blank c = false) :
    lastWord text = strip blank text := by
  rw [lastWord_eq, List.rtakeWhile_eq_self_iff]
  intro c hc
  rw [h c hc]
  rfl

theorem lastWord_length_lt {text : Text} (h : ¬ ∀ c ∈ strip blank text, blank c = false) :
    (lastWord text).length < (strip blank text).length := by
  rw [lastWord_eq]
  have hsuffix := List.rtakeWhile_suffix (p := fun c => !blank c) (l := strip blank text)
  apply lt_of_le_of_ne hsuffix.length_le
  intro hlength
  apply h
  intro c hc
  have hword := List.rtakeWhile_eq_self_iff.mp (hsuffix.eq_of_length hlength) c hc
  simpa using hword

/-- The value is cut down to nothing only when it is blank. -/
theorem cutValue_eq_nil_iff (text : Text) : cutValue text = [] ↔ strip blank text = [] := by
  rw [cutValue, strip]
  cases hstart : text.dropWhile blank with
  | nil => simp
  | cons d rest =>
      have hhead : d ∈ (text.dropWhile blank).head? := by
        rw [hstart]
        rfl
      have hd := head_dropWhile hhead
      have hvisible : isSeparator d = false := by
        rw [← Bool.not_eq_true]
        intro hsep
        rw [blank_of_isSeparator hsep] at hd
        cases hd
      rw [List.takeWhile_cons_of_pos (by rw [hvisible]; rfl), List.rdropWhile_eq_nil_iff,
        List.rdropWhile_eq_nil_iff]
      constructor
      · intro hall
        rw [hall d List.mem_cons_self] at hd
        cases hd
      · intro hall
        rw [hall d List.mem_cons_self] at hd
        cases hd

theorem cutValue_eq_strip_iff (text : Text) :
    cutValue text = strip blank text ↔ ∀ c ∈ strip blank text, isSeparator c = false := by
  rw [cutValue, strip]
  obtain ⟨start, hstart⟩ : ∃ start, start = text.dropWhile blank := ⟨_, rfl⟩
  rw [← hstart]
  constructor
  · intro heq c hc
    rw [← heq] at hc
    simpa using List.mem_takeWhile_imp ((List.rdropWhile_prefix blank _).subset hc)
  · intro hvisible
    conv_lhs => rw [← List.rdropWhile_append_rtakeWhile (p := blank) (l := start)]
    rw [List.takeWhile_append_of_pos]
    · rw [rdropWhile_append_of_pos, List.rdropWhile_idempotent]
      intro c hc
      exact List.mem_rtakeWhile_imp ((List.takeWhile_prefix _).subset hc)
    · intro c hc
      rw [hvisible c hc]
      rfl

end LearningCpp.IniFile

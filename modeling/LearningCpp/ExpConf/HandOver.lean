import LearningCpp.ExpConf.Sections

/-!
Sections handed over to the maps of `Exp`. A header that ends the default
section loses its name, and the flags below it go to the header after it. What
`load` leaves behind is worked out for every file that can be read, and from
this when every section has the flags that are written under it.
-/

namespace LearningCpp.ExpConf

open Library

/-- A header with the flags up to the next one. -/
structure Section where
  name : Text
  flags : List Flag
  deriving DecidableEq, Repr

/-- A file that has been read: the flags before its first header, and its
sections, the last one first. -/
structure Conf where
  stray : List Flag
  rev : List Section
  deriving DecidableEq, Repr

def Conf.step (conf : Conf) : Line → Conf
  | .skip => conf
  | .header name => {conf with rev := ⟨name, []⟩ :: conf.rev}
  | .flag f =>
      match conf.rev with
      | [] => {conf with stray := conf.stray ++ [f]}
      | s :: rev => {conf with rev := {s with flags := s.flags ++ [f]} :: rev}

def readLines (conf : Conf) : List Text → Option Conf
  | [] => some conf
  | line :: lines => (readLine line).bind fun l => readLines (conf.step l) lines

/-- A text can be read when all of its lines can. -/
def readConf (text : Text) : Option Conf := readLines ⟨[], []⟩ (getlines text)

/-- The first section of a name. -/
def firstNamed (rev : List Section) (name : Text) : Option Section :=
  rev.reverse.find? (fun s => s.name = name)

/-- The flags of the last section of a name. -/
def lastFlags (rev : List Section) (name : Text) : List Flag :=
  ((rev.find? (fun s => s.name = name)).map Section.flags).getD []

/-- What flags give to a name, the first occurrence winning. -/
def nodeOf {α : Type} (node : Flag → α) (flags : List Flag) (flag : Text) : Option α :=
  (flags.find? (fun f => f.name = flag)).map node

/-- Every section has the flags that are written under its first header, and
the default flags are those under the last default header. The values are read
after `load`, with the strings that are still alive. -/
structure Loaded.Serves (atof : Text → Float) (e : Loaded) (conf : Conf) : Prop where
  named : ∀ s, firstNamed conf.rev s.name = some s → s.name ≠ defaultName →
    ∃ m, e.m_conf.lookup s.name = some m ∧
      ∀ flag, (m.lookup flag).map (ExpNode.read e.buffers) =
        nodeOf (Flag.written atof) s.flags flag
  default : ∀ flag, (e.m_default.lookup flag).map (ExpNode.read e.buffers) =
    nodeOf (Flag.written atof) (lastFlags conf.rev defaultName) flag

/-- A header after the sections `rev` loses its name when an odd number of
default sections stands directly before it. -/
def loses (rev : List Section) : Bool :=
  (rev.takeWhile (fun s => s.name = defaultName)).length % 2 = 1

/-- The flags that a header after the sections `rev` finds in hand. -/
def inHand (stray : List Flag) : List Section → List Flag
  | [] => stray
  | s :: rev => if loses rev then s.flags else []

/-- The sections whose headers keep their names, with the flags they end up with. -/
def taken (stray : List Flag) : List Section → List Section
  | [] => []
  | s :: rev =>
      if loses rev then taken stray rev
      else ⟨s.name, inHand stray rev ++ s.flags⟩ :: taken stray rev

theorem loses_cons (s : Section) (rev : List Section) :
    loses (s :: rev) = (s.name = defaultName && !loses rev) := by
  by_cases hname : s.name = defaultName
  · rw [loses, loses, List.takeWhile_cons_of_pos (by simpa using hname), List.length_cons]
    simp only [hname, decide_true, Bool.true_and, ← decide_not, decide_eq_decide]
    omega
  · rw [loses, List.takeWhile_cons_of_neg (by simpa using hname)]
    simp [hname]

private theorem inHand_of_loses (stray : List Flag) {rev : List Section} (h : loses rev) :
    inHand stray rev = [] := by
  cases rev with
  | nil => exact Bool.noConfusion h
  | cons s rev =>
      rw [loses_cons, Bool.and_eq_true, Bool.not_eq_true'] at h
      rw [inHand, h.2]
      rfl

/-- The state of the loop: the name of the open section, and its flags. -/
def openName : List Section → Text
  | [] => []
  | s :: rev => if loses rev then [] else s.name

def openFlags (stray : List Flag) : List Section → List Flag
  | [] => stray
  | s :: rev => inHand stray rev ++ s.flags

def closed (stray : List Flag) (rev : List Section) : List Section := taken stray rev.tail

def mapOf (atof : Text → Float) (flags : List Flag) : Map Text ExpNode :=
  insertAllNew Flag.name (Flag.kept atof) ∅ flags

def confOf (atof : Text → Float) (ts : List Section) : Map Text (Map Text ExpNode) :=
  insertAllNew Section.name (fun s => mapOf atof s.flags) ∅
    (ts.reverse.filter (fun s => s.name ≠ defaultName))

def defaultOf (atof : Text → Float) (ts : List Section) : Map Text ExpNode :=
  mapOf atof (lastFlags ts defaultName)

structure Holds (atof : Text → Float) (conf : Conf) (h : Hand) : Prop where
  names : ∀ s ∈ conf.rev, s.name ≠ []
  posid : h.posid = openName conf.rev
  flag2value : h.flag2value = mapOf atof (openFlags conf.stray conf.rev)
  m_conf : h.m_conf = confOf atof (closed conf.stray conf.rev)
  m_default : h.m_default = defaultOf atof (closed conf.stray conf.rev)

private theorem start_holds (atof : Text → Float) :
    Holds atof ⟨[], []⟩ ⟨⟨∅, ∅⟩, [], ∅⟩ where
  names s hs := by simp at hs
  posid := rfl
  flag2value := rfl
  m_conf := rfl
  m_default := rfl

private theorem confOf_cons (atof : Text → Float) (t : Section) (ts : List Section)
    (h : t.name ≠ defaultName) :
    confOf atof (t :: ts) = insertNew (confOf atof ts) t.name (mapOf atof t.flags) := by
  rw [confOf, List.reverse_cons, List.filter_append, insertAllNew_append, ← confOf,
    List.filter_singleton]
  simp [h, insertAllNew]

private theorem confOf_cons_default (atof : Text → Float) (t : Section) (ts : List Section)
    (h : t.name = defaultName) : confOf atof (t :: ts) = confOf atof ts := by
  rw [confOf, List.reverse_cons, List.filter_append, insertAllNew_append, ← confOf,
    List.filter_singleton]
  simp [h, insertAllNew]

theorem lastFlags_cons (t : Section) (ts : List Section) (name : Text) :
    lastFlags (t :: ts) name = if t.name = name then t.flags else lastFlags ts name := by
  rw [lastFlags, List.find?_cons]
  by_cases hname : t.name = name
  · simp [hname]
  · simp [hname, lastFlags]

theorem default_ne_nil : defaultName ≠ [] := by decide

theorem finish_of_nil {h : Hand} (hposid : h.posid = []) : h.finish = ⟨h.m_conf, h.m_default⟩ := by
  rw [Hand.finish, hposid, if_neg default_ne_nil.symm, if_neg (by simp)]

private theorem finish_of_default {h : Hand} (hposid : h.posid = defaultName) :
    h.finish = ⟨h.m_conf, h.flag2value⟩ := by
  rw [Hand.finish, if_pos hposid]

private theorem finish_of_named {h : Hand} (hname : h.posid ≠ defaultName) (hposid : h.posid ≠ []) :
    h.finish = ⟨insertNew h.m_conf h.posid h.flag2value, h.m_default⟩ := by
  rw [Hand.finish, if_neg hname, if_pos hposid]

/-- What would be left behind if the text ended here. -/
theorem Holds.finish {atof : Text → Float} {conf : Conf} {h : Hand} (hh : Holds atof conf h) :
    h.finish =
      ⟨confOf atof (taken conf.stray conf.rev), defaultOf atof (taken conf.stray conf.rev)⟩ := by
  obtain ⟨stray, rev⟩ := conf
  have hposid := hh.posid
  have hflags := hh.flag2value
  have hconf := hh.m_conf
  have hdefault := hh.m_default
  cases rev with
  | nil => rw [finish_of_nil hposid, hconf, hdefault, closed, List.tail_nil]
  | cons s rev =>
      rw [closed, List.tail_cons] at hconf hdefault
      rw [openFlags] at hflags
      cases hloses : loses rev with
      | true =>
          rw [openName, hloses, if_pos rfl] at hposid
          rw [finish_of_nil hposid, taken, hloses, if_pos rfl, hconf, hdefault]
      | false =>
          rw [openName, hloses, if_neg Bool.false_ne_true] at hposid
          rw [taken, hloses, if_neg Bool.false_ne_true]
          by_cases hname : s.name = defaultName
          · rw [finish_of_default (hposid.trans hname), hconf, hflags,
              confOf_cons_default atof ⟨s.name, inHand stray rev ++ s.flags⟩ _ hname, defaultOf, lastFlags_cons,
              if_pos hname]
          · have hsome : s.name ≠ [] := hh.names s List.mem_cons_self
            rw [finish_of_named (hposid ▸ hname) (hposid ▸ hsome), hconf, hflags, hdefault, hposid,
              confOf_cons atof ⟨s.name, inHand stray rev ++ s.flags⟩ _ hname, defaultOf, defaultOf, lastFlags_cons,
              if_neg hname]

private theorem step_header (atof : Text → Float) (h : Hand) (name : Text) :
    h.step atof (.header name) =
      { toExp := h.finish
        posid := if h.posid = defaultName then [] else name
        flag2value := if h.posid = [] then h.flag2value else ∅ } := by
  rw [Hand.step, Hand.finish]
  by_cases hdefault : h.posid = defaultName
  · rw [if_pos hdefault, if_pos hdefault, if_pos hdefault, hdefault, if_neg default_ne_nil]
  · rw [if_neg hdefault, if_neg hdefault, if_neg hdefault]
    by_cases hopen : h.posid = []
    · rw [if_neg (not_not.mpr hopen), if_neg (not_not.mpr hopen), if_pos hopen]
    · rw [if_pos hopen, if_pos hopen, if_neg hopen]

theorem Holds.header {atof : Text → Float} {conf : Conf} {h : Hand} (hh : Holds atof conf h)
    {name : Text} (hname : name ≠ []) :
    Holds atof (conf.step (.header name)) (h.step atof (.header name)) := by
  obtain ⟨stray, rev⟩ := conf
  have hfinish := hh.finish
  rw [step_header]
  refine
    { names := ?_
      posid := ?_
      flag2value := ?_
      m_conf := by rw [hfinish]; rfl
      m_default := by rw [hfinish]; rfl }
  · intro s hs
    rcases List.mem_cons.mp hs with rfl | hold
    · exact hname
    · exact hh.names s hold
  · rw [hh.posid]
    change (if openName rev = defaultName then [] else name) = if loses rev then [] else name
    cases rev with
    | nil => rfl
    | cons s rev =>
        rw [loses_cons, openName]
        cases hloses : loses rev with
        | true => simp [default_ne_nil.symm]
        | false => simp
  · rw [hh.posid, hh.flag2value]
    change _ = mapOf atof (inHand stray rev ++ [])
    rw [List.append_nil]
    cases rev with
    | nil => rfl
    | cons s rev =>
        rw [openFlags, openName, inHand]
        cases hloses : loses rev with
        | true => rw [if_pos rfl, if_pos rfl, if_pos rfl, inHand_of_loses stray hloses]; rfl
        | false =>
            have hsome : s.name ≠ [] := hh.names s List.mem_cons_self
            rw [if_neg Bool.false_ne_true, if_neg hsome, if_neg Bool.false_ne_true]
            rfl

private theorem mapOf_snoc (atof : Text → Float) (flags : List Flag) (f : Flag) :
    mapOf atof (flags ++ [f]) = insertNew (mapOf atof flags) f.name (f.kept atof) := by
  rw [mapOf, insertAllNew_append]
  rfl

theorem Holds.flag {atof : Text → Float} {conf : Conf} {h : Hand} (hh : Holds atof conf h)
    (f : Flag) : Holds atof (conf.step (.flag f)) (h.step atof (.flag f)) := by
  obtain ⟨stray, rev⟩ := conf
  have hflags : (h.step atof (.flag f)).flag2value =
      mapOf atof (openFlags stray rev ++ [f]) := by
    rw [mapOf_snoc, ← hh.flag2value]
    rfl
  cases rev with
  | nil => exact ⟨hh.names, hh.posid, hflags, hh.m_conf, hh.m_default⟩
  | cons s rev =>
      refine ⟨?_, hh.posid, ?_, hh.m_conf, hh.m_default⟩
      · intro t ht
        rcases List.mem_cons.mp ht with rfl | hold
        · exact hh.names s List.mem_cons_self
        · exact hh.names t (List.mem_cons_of_mem s hold)
      · rw [hflags, openFlags, List.append_assoc]
        rfl

theorem Holds.run {atof : Text → Float} {conf last : Conf} {st : Loading} {lines : List Text}
    (hh : Holds atof conf st.toHand) (hbuffers : st.buffers = [])
    (hread : readLines conf lines = some last) :
    Holds atof last (lines.foldl (Loading.loadLine atof) st).toHand := by
  induction lines generalizing conf st with
  | nil =>
      cases hread
      exact hh
  | cons line lines ih =>
      rw [readLines, Option.bind_eq_some_iff] at hread
      obtain ⟨l, hline, hrest⟩ := hread
      have hstep : Holds atof (conf.step l) (st.loadLine atof line).toHand := by
        rw [loadLine_toHand atof hbuffers hline]
        cases l with
        | skip => exact hh
        | header name => exact hh.header (readLine_header_ne_nil hline)
        | flag f => exact hh.flag f
      exact ih hstep ((loadLine_buffers atof st line).trans hbuffers) hrest

/-- What `load` leaves behind, for every text that can be read. -/
theorem load_eq (atof : Text → Float) (filename : String) {text : Text} {conf : Conf}
    (hread : readConf text = some conf) :
    (Exp.load atof ⟨∅, ∅⟩ filename (some text)).toExp =
      ⟨confOf atof (taken conf.stray conf.rev), defaultOf atof (taken conf.stray conf.rev)⟩ := by
  have hlast : Holds atof conf ((getlines text).foldl (Loading.loadLine atof)
      ⟨⟨⟨∅, ∅⟩, [], ∅⟩, 0, [], []⟩).toHand := Holds.run (start_holds atof) rfl hread
  exact hlast.finish

/-- What is read in the map of some flags when no string is left. -/
theorem mapOf_read (atof : Text → Float) (flags : List Flag) (flag : Text) :
    ((mapOf atof flags).lookup flag).map (ExpNode.read []) =
      nodeOf (Flag.seen atof) flags flag := by
  have hread : ExpNode.read [] ∘ Flag.kept atof = Flag.seen atof := funext (Flag.kept_read atof)
  rw [mapOf, lookup_insertAllNew, AList.lookup_empty, Option.none_or, nodeOf, Option.map_map, hread]

theorem confOf_lookup (atof : Text → Float) (ts : List Section) {name : Text}
    (h : name ≠ defaultName) :
    (confOf atof ts).lookup name = (firstNamed ts name).map (fun t => mapOf atof t.flags) := by
  have hsame : (ts.reverse.filter (fun s => s.name ≠ defaultName)).find?
      (fun s => s.name = name) = firstNamed ts name := by
    rw [List.find?_filter, firstNamed]
    congr 1
    funext s
    by_cases hname : s.name = name
    · simp [hname, h]
    · simp [hname]
  rw [confOf, lookup_insertAllNew, AList.lookup_empty, Option.none_or, hsame]

/-- The headers that keep their names give every section the flags that are
written under its first header, and so for the default flags, where a string flag
has no value that is left. -/
structure Conf.Kept (atof : Text → Float) (conf : Conf) : Prop where
  named : ∀ s, firstNamed conf.rev s.name = some s → s.name ≠ defaultName →
    ∃ t, firstNamed (taken conf.stray conf.rev) s.name = some t ∧
      ∀ flag, nodeOf (Flag.seen atof) t.flags flag = nodeOf (Flag.written atof) s.flags flag
  default : ∀ flag,
    nodeOf (Flag.seen atof) (lastFlags (taken conf.stray conf.rev) defaultName) flag =
      nodeOf (Flag.written atof) (lastFlags conf.rev defaultName) flag

/-- `load` serves every section exactly when the file keeps its sections. -/
theorem load_serves_iff (atof : Text → Float) (filename : String) (text : Text) (conf : Conf)
    (hread : readConf text = some conf) :
    (Exp.load atof ⟨∅, ∅⟩ filename (some text)).Serves atof conf ↔ conf.Kept atof := by
  have hexp := load_eq atof filename hread
  have hconf := congrArg Exp.m_conf hexp
  have hdefault := congrArg Exp.m_default hexp
  have hbuffers := load_buffers atof ⟨∅, ∅⟩ filename (some text)
  constructor
  · intro hserves
    constructor
    · intro s hfirst hname
      obtain ⟨m, hm, hflags⟩ := hserves.named s hfirst hname
      rw [hconf, confOf_lookup atof _ hname, Option.map_eq_some_iff] at hm
      obtain ⟨t, ht, rfl⟩ := hm
      refine ⟨t, ht, ?_⟩
      intro flag
      rw [← mapOf_read, ← hflags, hbuffers]
    · intro flag
      have hflags := hserves.default flag
      rw [hdefault, hbuffers, defaultOf, mapOf_read] at hflags
      exact hflags
  · intro hkept
    constructor
    · intro s hfirst hname
      obtain ⟨t, ht, hflags⟩ := hkept.named s hfirst hname
      refine ⟨mapOf atof t.flags, ?_, ?_⟩
      · rw [hconf, confOf_lookup atof _ hname, ht, Option.map_some]
      · intro flag
        rw [hbuffers, mapOf_read, hflags]
    · intro flag
      rw [hdefault, hbuffers, defaultOf, mapOf_read]
      exact hkept.default flag

theorem loses_of_named {rev : List Section} (h : ∀ s ∈ rev, s.name ≠ defaultName) :
    loses rev = false := by
  cases rev with
  | nil => rfl
  | cons s rev =>
      rw [loses_cons, decide_eq_false (h s List.mem_cons_self), Bool.false_and]

private theorem inHand_of_named {rev : List Section} (h : ∀ s ∈ rev, s.name ≠ defaultName) :
    inHand [] rev = [] := by
  cases rev with
  | nil => rfl
  | cons s rev =>
      rw [inHand, loses_of_named (fun t ht => h t (List.mem_cons_of_mem s ht)),
        if_neg Bool.false_ne_true]

private theorem taken_cons_of_named (s : Section) {rev : List Section}
    (h : ∀ s ∈ rev, s.name ≠ defaultName) : taken [] (s :: rev) = s :: taken [] rev := by
  rw [taken, loses_of_named h, if_neg Bool.false_ne_true, inHand_of_named h, List.nil_append]

private theorem taken_eq_self {rev : List Section} (h : ∀ s ∈ rev.tail, s.name ≠ defaultName) :
    taken [] rev = rev := by
  induction rev with
  | nil => rfl
  | cons s rev ih =>
      rw [List.tail_cons] at h
      rw [taken_cons_of_named s h, ih (fun t ht => h t (List.mem_of_mem_tail ht))]

/-- The value of the flag outlives its round, and `trim` leaves it as it is. -/
def Flag.Lasts (f : Flag) : Prop :=
  f.value.length ≠ 1 ∧ getType f.name ≠ .STRING ∧ getType f.name ≠ .NONE

instance (f : Flag) : Decidable f.Lasts := by
  unfold Flag.Lasts
  infer_instance

theorem nodeOf_seen (atof : Text → Float) {flags : List Flag} (h : ∀ f ∈ flags, f.Lasts)
    (flag : Text) : nodeOf (Flag.seen atof) flags flag = nodeOf (Flag.written atof) flags flag := by
  rw [nodeOf, nodeOf]
  apply Option.map_congr
  intro f hf
  obtain ⟨hlong, hstring, hnone⟩ := h f (List.mem_of_find?_eq_some hf)
  have hvalue : f.keptValue = f.value := if_neg hlong
  rw [Flag.seen, Flag.written, lasting, hvalue, if_neg (not_or.mpr ⟨hstring, hnone⟩)]

/-- A flag that is written as a string is never seen again. -/
theorem nodeOf_string (atof : Text → Float) {flags written : List Flag} {f : Flag}
    (hf : f ∈ written) (htype : getType f.name = .STRING) :
    nodeOf (Flag.seen atof) flags f.name ≠ nodeOf (Flag.written atof) written f.name := by
  have hfound : (written.find? (fun g => g.name = f.name)).isSome :=
    List.find?_isSome.mpr ⟨f, hf, decide_eq_true rfl⟩
  obtain ⟨g, hg⟩ := Option.isSome_iff_exists.mp hfound
  intro heq
  rw [nodeOf, nodeOf, hg, Option.map_some, Option.map_eq_some_iff] at heq
  obtain ⟨h, hh, hseen⟩ := heq
  have hsame : h.name = f.name := by simpa using List.find?_some hh
  have hgone : (h.seen atof).2 = none := by
    rw [Flag.seen, lasting, hsame, htype]
    rfl
  rw [hseen] at hgone
  cases hgone

/-- No section that is served has a string flag, and neither have the default flags. -/
theorem Conf.Kept.no_string {atof : Text → Float} {conf : Conf} (h : conf.Kept atof) :
    (∀ s, firstNamed conf.rev s.name = some s → s.name ≠ defaultName →
      ∀ f ∈ s.flags, getType f.name ≠ .STRING) ∧
    ∀ f ∈ lastFlags conf.rev defaultName, getType f.name ≠ .STRING := by
  constructor
  · intro s hfirst hname f hf hstring
    obtain ⟨t, -, hflags⟩ := h.named s hfirst hname
    exact nodeOf_string atof hf hstring (hflags f.name)
  · intro f hf hstring
    exact nodeOf_string atof hf hstring (h.default f.name)

/-- A file keeps its sections when nothing but its last section is a default
one, no flag stands before the first header, no value is a single character and no
flag is a string. -/
theorem Conf.kept_of_default_last (atof : Text → Float) {conf : Conf} (hstray : conf.stray = [])
    (hdefault : ∀ s ∈ conf.rev.tail, s.name ≠ defaultName)
    (hlasts : ∀ s ∈ conf.rev, ∀ f ∈ s.flags, f.Lasts) : conf.Kept atof := by
  have htaken : taken conf.stray conf.rev = conf.rev := by
    rw [hstray, taken_eq_self hdefault]
  constructor
  · intro s hfirst _
    have hmem : s ∈ conf.rev := List.mem_reverse.mp (List.mem_of_find?_eq_some hfirst)
    rw [htaken]
    exact ⟨s, hfirst, nodeOf_seen atof (hlasts s hmem)⟩
  · rw [htaken]
    apply nodeOf_seen
    intro f hf
    rw [lastFlags] at hf
    cases hlast : conf.rev.find? (fun s => s.name = defaultName) with
    | none => simp [hlast] at hf
    | some s =>
        rw [hlast] at hf
        exact hlasts s (List.mem_of_find?_eq_some hlast) f hf

/-- A default section at the end of the file. -/
theorem load_serves_default_last :
    (Exp.load (fun _ => 0) ⟨∅, ∅⟩ "exp.conf"
        (some "[0_1]\nFlag_enable_a = true\n\n[DEFAULT]\nFlag_enable_a = false\n".toList)).Serves
        (fun _ => 0)
        ⟨[], [⟨defaultName, [⟨"flag_enable_a".toList, "false".toList⟩]⟩,
          ⟨"0_1".toList, [⟨"flag_enable_a".toList, "true".toList⟩]⟩]⟩ :=
  (load_serves_iff (fun _ => 0) "exp.conf" _ _ (by decide)).mpr
    (Conf.kept_of_default_last _ (by decide) (by decide) (by decide))

/-- The file of the program starts like this: the header after the default
section loses its name, and no section `0_1` is found. -/
theorem load_loses_section_after_default :
    readConf "[DEFAULT]\nFlag_enable_a = false\n\n[0_1]\nFlag_enable_a = true\n".toList =
        some ⟨[], [⟨"0_1".toList, [⟨"flag_enable_a".toList, "true".toList⟩]⟩,
          ⟨defaultName, [⟨"flag_enable_a".toList, "false".toList⟩]⟩]⟩ ∧
      ¬ (Exp.load (fun _ => 0) ⟨∅, ∅⟩ "exp.conf"
        (some "[DEFAULT]\nFlag_enable_a = false\n\n[0_1]\nFlag_enable_a = true\n".toList)).Serves
        (fun _ => 0)
        ⟨[], [⟨"0_1".toList, [⟨"flag_enable_a".toList, "true".toList⟩]⟩,
          ⟨defaultName, [⟨"flag_enable_a".toList, "false".toList⟩]⟩]⟩ := by
  refine ⟨by decide, ?_⟩
  intro hserves
  obtain ⟨m, hm, _⟩ := hserves.named ⟨"0_1".toList, [⟨"flag_enable_a".toList, "true".toList⟩]⟩
    (by decide) (by decide)
  have hmissing : ((Exp.load (fun _ => 0) ⟨∅, ∅⟩ "exp.conf"
      (some "[DEFAULT]\nFlag_enable_a = false\n\n[0_1]\nFlag_enable_a = true\n".toList)).m_conf.lookup
        "0_1".toList).isSome = false := by decide
  rw [hm] at hmissing
  exact Bool.noConfusion hmissing

end LearningCpp.ExpConf

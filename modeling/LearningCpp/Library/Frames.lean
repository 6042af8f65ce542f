import Mathlib.Tactic

/-!
Messages one after the other in a stream, each with a head of a known length and a body,
and a reader that takes heads and bodies in turn. A reader that waits for all of a head or
a body reads the messages that were sent, however much of the stream has arrived.
-/

namespace LearningCpp.Library

variable {μ β : Type*}

section

variable (head body : μ → List β)

/-- The stream of a sequence of messages. -/
def frames (msgs : List μ) : List β := msgs.flatMap fun m => head m ++ body m

/-- A reader has taken `taken` letters of the stream: the messages `heard`, and the head of
`next` if it is some message. -/
structure Reads (msgs heard : List μ) (next : Option μ) (taken : Nat) : Prop where
  sent : heard ++ next.toList <+: msgs
  taken_eq : taken = (frames head body heard).length + (next.toList.flatMap head).length

end

variable {head body : μ → List β} {msgs heard : List μ} {m : μ} {taken k : Nat} {w : List β}

theorem frames_append (msgs more : List μ) :
    frames head body (msgs ++ more) = frames head body msgs ++ frames head body more :=
  List.flatMap_append

theorem frames_singleton (m : μ) : frames head body [m] = head m ++ body m :=
  List.flatMap_singleton _ _

namespace Reads

theorem start (msgs : List μ) : Reads head body msgs [] none 0 :=
  ⟨List.nil_prefix, rfl⟩

/-- More messages are sent. -/
theorem extend {next : Option μ} (h : Reads head body msgs heard next taken) {more : List μ}
    (hmore : msgs <+: more) : Reads head body more heard next taken :=
  ⟨h.sent.trans hmore, h.taken_eq⟩

theorem heard_prefix {next : Option μ} (h : Reads head body msgs heard next taken) :
    heard <+: msgs := (List.prefix_append heard _).trans h.sent

/-- What stands at a place of the stream stands there in the part that has arrived. -/
theorem arrived {before here after : List β} (hw : w <+: before ++ here ++ after)
    (hlong : before.length + here.length ≤ w.length) :
    (w.drop before.length).take here.length = here := by
  obtain ⟨rest, hrest⟩ := List.prefix_of_prefix_length_le
    (List.prefix_append (before ++ here) after) hw (by rw [List.length_append]; exact hlong)
  rw [← hrest, List.append_assoc, List.drop_left, List.take_left]

/-- The next head, when as much as a head has arrived. -/
theorem read_head (h : Reads head body msgs heard none taken) (hw : w <+: frames head body msgs)
    (hhead : ∀ m ∈ msgs, (head m).length = k) (hpos : 0 < k) (hlong : taken + k ≤ w.length) :
    ∃ m ∈ msgs, (w.drop taken).take k = head m ∧
      Reads head body msgs heard (some m) (taken + k) := by
  obtain ⟨rest, rfl⟩ := h.heard_prefix
  have htaken : taken = (frames head body heard).length := h.taken_eq
  cases rest with
  | nil =>
      have hle := hw.length_le
      rw [List.append_nil] at hle
      omega
  | cons m rest =>
      have hmem : m ∈ heard ++ m :: rest := List.mem_append_right heard List.mem_cons_self
      have hlength := hhead m hmem
      have hsplit : frames head body (heard ++ m :: rest) =
          frames head body heard ++ head m ++ (body m ++ frames head body rest) := by
        rw [frames_append, frames, frames, List.flatMap_cons]
        simp only [frames, List.append_assoc]
      have hhere := arrived (hsplit ▸ hw) (by rw [hlength, ← htaken]; exact hlong)
      rw [hlength, ← htaken] at hhere
      refine ⟨m, hmem, hhere, ?_, ?_⟩
      · exact ⟨rest, by simp⟩
      · rw [htaken, ← hlength]
        simp

/-- The body of the message whose head was read, when as much as it has has arrived. -/
theorem read_body (h : Reads head body msgs heard (some m) taken)
    (hw : w <+: frames head body msgs) (hlong : taken + (body m).length ≤ w.length) :
    (w.drop taken).take (body m).length = body m ∧
      Reads head body msgs (heard ++ [m]) none (taken + (body m).length) := by
  obtain ⟨rest, hrest⟩ := h.sent
  have hsplit : frames head body msgs =
      frames head body heard ++ head m ++ body m ++ frames head body rest := by
    rw [← hrest, frames_append, frames_append, Option.toList_some, frames_singleton]
    simp only [List.append_assoc]
  have htaken : taken = (frames head body heard ++ head m).length := by
    rw [h.taken_eq]
    simp
  have hhere := arrived (hsplit ▸ hw) (by rw [← htaken]; exact hlong)
  rw [← htaken] at hhere
  refine ⟨hhere, ?_, ?_⟩
  · rw [Option.toList_none, List.append_nil]
    exact h.sent
  · rw [htaken, frames_append, frames_singleton]
    simp
    omega

end Reads

end LearningCpp.Library

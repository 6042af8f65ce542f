import LearningCpp.Chat.Conversation

/-!
A chat in which nothing moves any more: all that was written has been read, and everything
that was said has been heard.
-/

namespace LearningCpp.Chat

open LearningCpp.Library

variable {reading : Reading} {msgs heard : List ChatMessage} {taken : Nat}

/-- The events with which something that was written gets on. -/
def Event.Moves : Event → Prop
  | .clientWriteSome .. | .clientWriteCompleted .. | .sessionRead .. | .sessionWriteSome ..
  | .sessionWriteCompleted .. | .clientRead .. => True
  | .connect | .write .. | .clientClose .. | .sessionError .. => False

/-- As long as a session has messages to write, a part can get through or has completed. -/
theorem ChatSession.Sound.exists_write {s : ChatSession} (h : s.Sound msgs)
    (hne : s.write_msgs ≠ []) :
    (∃ bytes, s.outstanding = [bytes] ∧ bytes ≠ [] ∧ ∃ s', s.write_some 0 1 = some s') ∨
      s.outstanding = [[]] ∧ ∃ s', s.write_completed 0 = some s' := by
  obtain ⟨front, queued, hqueue⟩ := List.exists_cons_of_ne_nil hne
  obtain ⟨done, sent, rest, -, -, houtstanding, -⟩ := h.busy hqueue
  cases rest with
  | nil =>
      refine Or.inr ⟨houtstanding, ?_⟩
      simp only [ChatSession.write_completed, houtstanding, hqueue, List.getElem?_cons_zero]
      exact ⟨_, rfl⟩
  | cons b rest =>
      refine Or.inl ⟨b :: rest, houtstanding, List.cons_ne_nil b rest, ?_⟩
      simp only [ChatSession.write_some, houtstanding, List.getElem?_cons_zero]
      rw [if_pos ⟨Nat.one_pos, by simp⟩]
      exact ⟨_, rfl⟩

namespace ChatSystem

variable {chat : ChatSystem} {i : Nat} {c : ChatClient} {s : ChatSession}

/-- No event moves anything. -/
def Quiet (chat : ChatSystem) : Prop := ∀ e : Event, e.Moves → chat.step e = none

end ChatSystem

end LearningCpp.Chat

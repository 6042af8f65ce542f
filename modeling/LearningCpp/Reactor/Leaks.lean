import LearningCpp.Reactor.Rounds

/-!
Who owns the descriptors that `accept` returns. `acceptconn` leaves its loop without closing
the new descriptor when there is no free slot and when `fcntl` fails; all other callbacks
close what they do not register.
-/

namespace LearningCpp.Reactor

open Library

/-- Every connection that is open is registered in the tree through exactly one slot. -/
def Accounted (s : Loop) : Prop :=
  ∀ fd id, s.opened fd = some (.connection id) →
    ∃! ev : Slot, (s.g_events ev).fd = fd ∧ (s.g_events ev).status = true ∧
      ∃ events, s.tree fd = some (events, ev)

/-- Every connection that is open is in the tree. -/
def Watched (s : Loop) : Prop := ∀ fd id, s.opened fd = some (.connection id) → s.tree fd ≠ none

variable {s s' : Loop} {ev : Slot} {r r' : Results}

namespace Watched

theorem congr (h : Watched s) {t : Loop} (htree : t.tree = s.tree)
    (hopened : t.opened = s.opened) : Watched t := by
  intro fd id hconnection
  rw [htree]
  rw [hopened] at hconnection
  exact h fd id hconnection

theorem drop (h : Watched s) (ev : Slot) : Watched (s.drop ev) := by
  intro fd id hopened
  simp only [Loop.drop, Function.update_apply] at hopened ⊢
  split at hopened
  · cases hopened
  · next hne =>
    rw [if_neg hne]
    exact h fd id hopened

theorem arm (h : Watched s) (ev : Slot) (e : MyEvent) (fd : Nat) (call_back : Callback)
    (events : Events) (now : Int) : Watched (s.arm ev e fd call_back events now) := by
  intro fd' id hopened
  simp only [Loop.arm, Function.update_apply]
  split
  · exact Option.some_ne_none _
  · exact h fd' id hopened

/-- The callbacks of a client close its descriptor or register it again. -/
theorem effect (h : Watched s) (heffect : Loop.Effect s ev r s')
    (hclient : (s.g_events ev).call_back ≠ .acceptconn) : Watched s' := by
  cases heffect with
  | refused hback => exact absurd hback hclient
  | admitted hback => exact absurd hback hclient
  | accepted hback => exact absurd hback hclient
  | dropped => exact h.drop ev
  | held =>
    refine arm (congr h ?_ ?_) _ _ _ _ _ _
    · exact Loop.record_tree _
    · exact Loop.record_opened _
  | released =>
    refine arm (congr h ?_ ?_) _ _ _ _ _ _
    · exact Loop.record_tree _
    · exact Loop.record_opened _

end Watched

end LearningCpp.Reactor

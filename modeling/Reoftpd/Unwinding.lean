import Mathlib.Data.List.Basic
import Reoftpd.Runs

/-!
# Noninterference by unwinding

A deterministic system answers every event of a run.  An **observer** sees the answers
to its own events, those that `own` selects, and nothing else.  The system hides the other
events from it if leaving all of them out makes no difference to what it sees
(`Unwinds.noninterference`).

This is shown one event at a time.  A relation between the state of a run and the state of
the run with the others left out **unwinds** the system if an event of the observer is
answered alike in related states and leads to related states, and an event of anybody else
leads to a state related to the one it was not taken in.  The guard is on the run that has
all the events.
-/

namespace Unwinding
open Runs

variable {S E A : Type*} (step : S → E → S) (answer : S → E → A) (own : E → Prop)
  [DecidablePred own]

/-- **What an observer sees of a run**: the answers to its own events, in order. -/
def seen : S → List E → List A
  | _, [] => []
  | s, e :: es => if own e then answer s e :: seen (step s e) es else seen (step s e) es

/-- The run with all other events left out. -/
def purge (es : List E) : List E := es.filter fun e => own e

/-- The relation `R` unwinds the system for the observer, under the guard `G`. -/
structure Unwinds (G : S → E → Prop) (R : S → S → Prop) (Same : A → A → Prop) : Prop where
  own_answer : ∀ s s' e, R s s' → G s e → own e → Same (answer s e) (answer s' e)
  own_step : ∀ s s' e, R s s' → G s e → own e → R (step s e) (step s' e)
  other_step : ∀ s s' e, R s s' → G s e → ¬ own e → R (step s e) s'

variable {step answer own} {G : S → E → Prop} {R : S → S → Prop} {Same : A → A → Prop}

theorem seen_cons_own {s : S} {e : E} {es : List E} (he : own e) :
    seen step answer own s (e :: es) =
      answer s e :: seen step answer own (step s e) es := if_pos he

theorem seen_cons_other {s : S} {e : E} {es : List E} (he : ¬ own e) :
    seen step answer own s (e :: es) = seen step answer own (step s e) es := if_neg he

/-- **Leaving out the others makes no difference** to what the observer sees, nor to what
the relation says of the states reached. -/
theorem Unwinds.noninterference (h : Unwinds step answer own G R Same) {s s' : S} (hs : R s s')
    {es : List E} (hg : Along step G s es) :
    List.Forall₂ Same (seen step answer own s es)
        (seen step answer own s' (purge own es)) ∧
      R (run step s es) (run step s' (purge own es)) := by
  induction es generalizing s s' with
  | nil => exact ⟨.nil, hs⟩
  | cons e es ih =>
      by_cases he : own e
      · have hpurge : purge own (e :: es) = e :: purge own es :=
          List.filter_cons_of_pos (by simpa using he)
        rw [hpurge, seen_cons_own he, seen_cons_own he]
        obtain ⟨hseen, hrun⟩ := ih (h.own_step s s' e hs hg.1 he) hg.2
        exact ⟨.cons (h.own_answer s s' e hs hg.1 he) hseen, hrun⟩
      · have hpurge : purge own (e :: es) = purge own es :=
          List.filter_cons_of_neg (by simpa using he)
        rw [hpurge, seen_cons_other he]
        exact ih (h.other_step s s' e hs hg.1 he) hg.2

end Unwinding

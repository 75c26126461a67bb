import Mathlib.Data.List.Count
import Reoftpd.Interleaving
import Reoftpd.Unwinding

/-!
# Processes that leave each other alone

Any number of processes take turns on one shared state; what a turn does depends on that
state and on the process's own place only.  A process **goes alike** in two such pairs if,
as far as it can tell, they are the same.  If its own turns preserve that and everybody
else's turns make no difference to it (`LeaveAlone`), it ends every schedule as it would
end with its own turns alone (`LeaveAlone.run_alike`).

The other processes must keep their hands off what is the process's own, and whether they
do may depend on their places: on what they hold open.  That they go alike in a pair and
in the same pair says that their places fit the state.
-/

namespace Interleaving
open Runs Unwinding

variable {ι S P : Type*} [DecidableEq ι] (proc : ι → S × P → S × P)

/-- A turn of process `i`. -/
def turn (c : Joint ι S P) (i : ι) : Joint ι S P :=
  ⟨(proc i (c.shared, c.loc i)).1, Function.update c.loc i (proc i (c.shared, c.loc i)).2⟩

variable {proc}

/-- What process `i` has before it. -/
def Joint.at (c : Joint ι S P) (i : ι) : S × P := (c.shared, c.loc i)

omit [DecidableEq ι] in
@[simp] theorem Joint.at_fst (c : Joint ι S P) (i : ι) : (c.at i).1 = c.shared := rfl

@[simp] theorem turn_at_self (c : Joint ι S P) (i : ι) :
    (turn proc c i).at i = proc i (c.at i) := by
  simp [turn, Joint.at]

theorem turn_at_ne {c : Joint ι S P} {i j : ι} (h : j ≠ i) :
    (turn proc c i).at j = ((proc i (c.at i)).1, c.loc j) := by
  simp [turn, Joint.at, Function.update_of_ne h]

/-- **Processes leave each other alone**, on shared states with `inv`. -/
structure LeaveAlone (proc : ι → S × P → S × P) (inv : S → Prop)
    (Alike : ι → S × P → S × P → Prop) : Prop where
  symm : ∀ i x y, Alike i x y → Alike i y x
  keeps : ∀ i x, inv x.1 → Alike i x x → inv (proc i x).1
  own : ∀ i x y, Alike i x y → Alike i (proc i x) (proc i y)
  other : ∀ i j x y q, i ≠ j → inv x.1 → Alike j (x.1, q) (x.1, q) → Alike i x y →
    Alike i ((proc j (x.1, q)).1, x.2) y

variable {inv : S → Prop} {Alike : ι → S × P → S × P → Prop} {c c' : Joint ι S P} {i : ι}

/-- Every process fits the state. -/
def Fits (inv : S → Prop) (Alike : ι → S × P → S × P → Prop) (c : Joint ι S P) : Prop :=
  inv c.shared ∧ ∀ j, Alike j (c.at j) (c.at j)

theorem LeaveAlone.turn_fits (h : LeaveAlone proc inv Alike) (hc : Fits inv Alike c) (i : ι) :
    Fits inv Alike (turn proc c i) := by
  refine ⟨h.keeps i (c.at i) hc.1 (hc.2 i), fun j => ?_⟩
  by_cases hji : j = i
  · subst hji
    rw [turn_at_self]
    exact h.own j _ _ (hc.2 j)
  · -- the turn makes no difference on one side, then on the other
    rw [turn_at_ne hji]
    have hleft := h.other j i (c.at j) (c.at j) (c.loc i) hji hc.1 (hc.2 i) (hc.2 j)
    exact h.other j i (c.at j) _ (c.loc i) hji hc.1 (hc.2 i) (h.symm j _ _ hleft)

/-- The turns of others are hidden from a process. -/
theorem LeaveAlone.unwinds (h : LeaveAlone proc inv Alike) (i : ι) :
    Unwinds (turn proc) (fun _ _ => ()) (· = i) (fun _ _ => True)
      (fun c c' => Fits inv Alike c ∧ Alike i (c.at i) (c'.at i)) (fun _ _ => True) where
  own_answer _ _ _ _ _ _ := trivial
  own_step c c' j hc _ hj := by
    subst hj
    refine ⟨h.turn_fits hc.1 j, ?_⟩
    rw [turn_at_self, turn_at_self]
    exact h.own j _ _ hc.2
  other_step c c' j hc _ hj := by
    refine ⟨h.turn_fits hc.1 j, ?_⟩
    rw [turn_at_ne (Ne.symm hj)]
    exact h.other i j (c.at i) _ (c.loc j) (Ne.symm hj) hc.1.1 (hc.1.2 j) hc.2

/-- A schedule of one process alone is its turns one after the other. -/
theorem run_replicate (c : Joint ι S P) (i : ι) (k : ℕ) :
    (run (turn proc) c (List.replicate k i)).at i = (proc i)^[k] (c.at i) := by
  induction k generalizing c with
  | zero => rfl
  | succ k ih =>
      rw [List.replicate_succ, run_cons, ih, turn_at_self, Function.iterate_succ_apply]

/-- **A process that is left alone** ends every schedule as it ends with its own turns
alone. -/
theorem LeaveAlone.run_alike (h : LeaveAlone proc inv Alike) (hc : Fits inv Alike c)
    (schedule : List ι) (i : ι) :
    Alike i ((run (turn proc) c schedule).at i) ((proc i)^[schedule.count i] (c.at i)) := by
  have halong : Along (turn proc) (fun _ _ => True) c schedule :=
    along_of_forall (fun _ _ => trivial) _ _
  have hrun := ((h.unwinds i).noninterference ⟨hc, hc.2 i⟩ halong).2.2
  have hpurge : purge (· = i) schedule = List.replicate (schedule.count i) i := by
    rw [purge, List.count, List.countP_eq_length_filter]
    refine List.eq_replicate_iff.mpr ⟨rfl, fun j hj => ?_⟩
    simpa using (List.mem_filter.mp hj).2
  rwa [hpurge, run_replicate] at hrun

/-- A process that comes to rest alone comes to rest in every schedule that gives it the
turns it needs. -/
theorem LeaveAlone.run_rests (h : LeaveAlone proc inv Alike) (hc : Fits inv Alike c) {k : ℕ}
    {x : S × P} (htakes : Takes (proc i) k (c.at i) x) (hrests : proc i x = x)
    {schedule : List ι} (hk : k ≤ schedule.count i) :
    Alike i ((run (turn proc) c schedule).at i) x := by
  have hrun := h.run_alike hc schedule i
  obtain ⟨more, hmore⟩ := Nat.exists_eq_add_of_le' hk
  rw [hmore, Function.iterate_add_apply, htakes, Function.iterate_fixed hrests] at hrun
  exact hrun

end Interleaving

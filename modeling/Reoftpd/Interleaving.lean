import Mathlib.Logic.Function.Basic
import Reoftpd.Runs

/-!
# Processes over a shared state

Any number of processes, each with a local state, take atomic steps on one shared
state.  An event names the process that moves and carries what its step may depend
on besides the two states (here: whether a system call fails).  A run of the
interleaved system is a list of events, so a statement about every run is a
statement about every interleaving, for finitely or infinitely many processes.

`BindsOnce` is the law of a race for one cell of the shared state: nobody rebinds it,
and a process wins only by the step that binds it.  Then at most one process wins
(`BindsOnce.run_oneWon`), and nobody who has not won when the cell is bound ever does
(`BindsOnce.run_not_won`).
-/
namespace Interleaving

/-- The shared state and every process's local state. -/
structure Joint (ι S P : Type*) where
  shared : S
  loc : ι → P

variable {ι S P A : Type*} [DecidableEq ι]

/-- One step of process `e.1`. -/
def step (proc : ι → S → P → A → S × P) (c : Joint ι S P) (e : ι × A) : Joint ι S P :=
  ⟨(proc e.1 c.shared (c.loc e.1) e.2).1,
    Function.update c.loc e.1 (proc e.1 c.shared (c.loc e.1) e.2).2⟩

variable {proc : ι → S → P → A → S × P} {c : Joint ι S P} {i j : ι} {a : A}

@[simp] theorem step_shared :
    (step proc c (i, a)).shared = (proc i c.shared (c.loc i) a).1 := rfl

@[simp] theorem step_loc_self :
    (step proc c (i, a)).loc i = (proc i c.shared (c.loc i) a).2 :=
  Function.update_self ..

theorem step_loc_ne (h : j ≠ i) : (step proc c (i, a)).loc j = c.loc j :=
  Function.update_of_ne h ..

/-- The local states after a step: the process that moved, and everybody else. -/
theorem step_loc_cases {Q : ι → P → Prop} (hself : Q i (proc i c.shared (c.loc i) a).2)
    (hother : ∀ j, j ≠ i → Q j (c.loc j)) (j : ι) : Q j ((step proc c (i, a)).loc j) := by
  by_cases h : j = i
  · subst h
    rw [step_loc_self]
    exact hself
  · rw [step_loc_ne h]
    exact hother j h

/-! ## A cell that is bound once -/

section Race
variable {E : Type*} {inv : S → Prop} {cell : S → Option E} {won : P → Prop}

/-- The law of a race for a cell. -/
structure BindsOnce (proc : ι → S → P → A → S × P) (inv : S → Prop) (cell : S → Option E)
    (won : P → Prop) : Prop where
  keeps : ∀ i s p a, inv s → inv (proc i s p a).1
  bound : ∀ i s p a e, inv s → cell s = some e → cell (proc i s p a).1 = some e
  wins : ∀ i s p a, inv s → won (proc i s p a).2 →
    won p ∨ cell s = none ∧ cell (proc i s p a).1 ≠ none

/-- At most one process has won, and if one has, the cell is bound. -/
structure OneWon (inv : S → Prop) (cell : S → Option E) (won : P → Prop) (c : Joint ι S P) :
    Prop where
  keeps : inv c.shared
  bound : ∀ i, won (c.loc i) → cell c.shared ≠ none
  unique : ∀ i j, won (c.loc i) → won (c.loc j) → i = j

theorem BindsOnce.step_ne_none (h : BindsOnce proc inv cell won) (hc : inv c.shared)
    (hb : cell c.shared ≠ none) (e : ι × A) : cell (step proc c e).shared ≠ none := by
  obtain ⟨v, hv⟩ := Option.ne_none_iff_exists'.mp hb
  have hkept : cell (step proc c e).shared = some v := h.bound e.1 c.shared _ e.2 v hc hv
  rw [hkept]
  exact Option.some_ne_none v

/-- Only a step that binds the cell makes a winner. -/
theorem BindsOnce.step_won (h : BindsOnce proc inv cell won) (hc : inv c.shared) (e : ι × A)
    (hj : won ((step proc c e).loc j)) : won (c.loc j) ∨
      j = e.1 ∧ cell c.shared = none ∧ cell (step proc c e).shared ≠ none := by
  obtain ⟨i, a⟩ := e
  by_cases hji : j = i
  · subst hji
    rw [step_loc_self] at hj
    exact (h.wins j c.shared _ a hc hj).imp_right fun hw => ⟨rfl, hw⟩
  · rw [step_loc_ne hji] at hj
    exact Or.inl hj

theorem BindsOnce.step_oneWon (h : BindsOnce proc inv cell won) (hc : OneWon inv cell won c)
    (e : ι × A) : OneWon inv cell won (step proc c e) := by
  have hfree : cell c.shared = none → ∀ i, ¬ won (c.loc i) := fun hn i hi => hc.bound i hi hn
  refine ⟨h.keeps e.1 c.shared _ e.2 hc.keeps, fun i hi => ?_, fun i j hi hj => ?_⟩
  · rcases h.step_won hc.keeps e hi with hi | ⟨-, -, hb⟩
    · exact h.step_ne_none hc.keeps (hc.bound i hi) e
    · exact hb
  · rcases h.step_won hc.keeps e hi with hi' | ⟨rfl, hn, -⟩
    · rcases h.step_won hc.keeps e hj with hj' | ⟨-, hn, -⟩
      · exact hc.unique i j hi' hj'
      · exact absurd hi' (hfree hn i)
    · rcases h.step_won hc.keeps e hj with hj' | ⟨hje, -, -⟩
      · exact absurd hj' (hfree hn j)
      · exact hje.symm

/-- **At most one process wins.** -/
theorem BindsOnce.run_oneWon (h : BindsOnce proc inv cell won) (hc : OneWon inv cell won c)
    (es : List (ι × A)) : OneWon inv cell won (Runs.run (step proc) c es) :=
  Runs.invariant_run (I := OneWon inv cell won) (G := fun _ _ => True)
    (fun _ e hc _ => h.step_oneWon hc e) hc (Runs.along_of_forall (fun _ _ => trivial) _ es)

/-- A bound cell stays bound to what it is bound to. -/
theorem BindsOnce.run_bound (h : BindsOnce proc inv cell won) {v : E} (hc : inv c.shared)
    (hv : cell c.shared = some v) (es : List (ι × A)) :
    cell (Runs.run (step proc) c es).shared = some v :=
  (Runs.invariant_run (I := fun c : Joint ι S P => inv c.shared ∧ cell c.shared = some v)
    (G := fun _ _ => True)
    (fun c e hc _ => ⟨h.keeps e.1 c.shared _ e.2 hc.1, h.bound e.1 c.shared _ e.2 v hc.1 hc.2⟩)
    ⟨hc, hv⟩ (Runs.along_of_forall (fun _ _ => trivial) _ es)).2

/-- **Once the cell is bound, nobody else wins.** -/
theorem BindsOnce.run_not_won (h : BindsOnce proc inv cell won) {v : E} (hc : inv c.shared)
    (hv : cell c.shared = some v) (hi : ¬ won (c.loc i)) (es : List (ι × A)) :
    ¬ won ((Runs.run (step proc) c es).loc i) := by
  have hstep : ∀ (c : Joint ι S P) e,
      (inv c.shared ∧ cell c.shared = some v ∧ ¬ won (c.loc i)) →
      inv (step proc c e).shared ∧ cell (step proc c e).shared = some v ∧
        ¬ won ((step proc c e).loc i) := by
    rintro c e ⟨hc, hv, hi⟩
    refine ⟨h.keeps e.1 c.shared _ e.2 hc, h.bound e.1 c.shared _ e.2 v hc hv, fun hw => ?_⟩
    rcases h.step_won hc e hw with hw | ⟨-, hn, -⟩
    · exact hi hw
    · rw [hv] at hn
      cases hn
  exact (Runs.invariant_run
    (I := fun c : Joint ι S P => inv c.shared ∧ cell c.shared = some v ∧ ¬ won (c.loc i))
    (G := fun _ _ => True) (fun c e hI _ => hstep c e hI) ⟨hc, hv, hi⟩
    (Runs.along_of_forall (fun _ _ => trivial) _ es)).2.2

end Race

end Interleaving

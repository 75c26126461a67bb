import Mathlib.Data.List.Basic
import Mathlib.Logic.Function.Iterate

/-!
# Guarded runs

A deterministic system is a function `step : S → E → S`: the events carry every
choice (which party moves, whether a call fails), so a run is a list of events.
A **guard** is a condition on one event in the state it is taken from, and
`Along` says that every event of a run meets it.  The two rules used everywhere
are `invariant_run`, which turns what one guarded step preserves into what a
whole guarded run preserves, and `throughout_of_invariant`, the same for every
state the run goes through.

`Takes` is for a system left to itself: after `k` steps it is in a given state.  `Leads`
says so for some number of steps.
-/
namespace Runs

variable {S E : Type*} (step : S → E → S)

/-- The state after the events of `es`. -/
def run (s : S) (es : List E) : S := es.foldl step s

@[simp] theorem run_nil (s : S) : run step s [] = s := rfl

@[simp] theorem run_cons (s : S) (e : E) (es : List E) :
    run step s (e :: es) = run step (step s e) es := rfl

theorem run_append (s : S) (xs ys : List E) :
    run step s (xs ++ ys) = run step (run step s xs) ys :=
  List.foldl_append

theorem run_concat (s : S) (es : List E) (e : E) :
    run step s (es ++ [e]) = step (run step s es) e := by
  rw [run_append]
  rfl

/-- Every event of the run meets the guard `G` in the state it is taken from. -/
def Along (G : S → E → Prop) : S → List E → Prop
  | _, [] => True
  | s, e :: es => G s e ∧ Along G (step s e) es

/-- `Q` holds in every state the run goes through, the first and the last included. -/
def Throughout (Q : S → Prop) (s : S) (es : List E) : Prop :=
  ∀ pre, pre <+: es → Q (run step s pre)

instance decidableAlong (G : S → E → Prop) [∀ s e, Decidable (G s e)] :
    ∀ s es, Decidable (Along step G s es)
  | _, [] => .isTrue trivial
  | s, e :: es =>
      have := decidableAlong G (step s e) es
      inferInstanceAs (Decidable (G s e ∧ Along step G (step s e) es))

variable {step} {G : S → E → Prop}

theorem along_append {s : S} {xs ys : List E} :
    Along step G s (xs ++ ys) ↔ Along step G s xs ∧ Along step G (run step s xs) ys := by
  induction xs generalizing s with
  | nil => simp [Along]
  | cons e xs ih => simp only [List.cons_append, Along, ih, run_cons, and_assoc]

theorem along_concat {s : S} {es : List E} {e : E} :
    Along step G s (es ++ [e]) ↔ Along step G s es ∧ G (run step s es) e := by
  rw [along_append]
  simp [Along]

/-- A guard that no event can break is met along every run. -/
theorem along_of_forall (h : ∀ s e, G s e) (s : S) (es : List E) : Along step G s es := by
  induction es generalizing s with
  | nil => trivial
  | cons e es ih => exact ⟨h s e, ih _⟩

/-- A guard on the events alone is met along a run all of whose events meet it. -/
theorem along_of_forall_mem {P : E → Prop} {es : List E} (h : ∀ e ∈ es, P e) (s : S) :
    Along step (fun _ e => P e) s es := by
  induction es generalizing s with
  | nil => trivial
  | cons e es ih =>
      exact ⟨h e (List.mem_cons_self ..), ih (fun e' he' => h e' (List.mem_cons_of_mem _ he')) _⟩

/-- **The invariant rule.**  What every guarded step preserves, every guarded run
preserves. -/
theorem invariant_run {I : S → Prop} (hstep : ∀ s e, I s → G s e → I (step s e))
    {s : S} {es : List E} (hs : I s) (hg : Along step G s es) : I (run step s es) := by
  induction es generalizing s with
  | nil => exact hs
  | cons e es ih => exact ih (hstep s e hs hg.1) hg.2

theorem Along.of_prefix {s : S} {pre es : List E} (hp : pre <+: es) (hg : Along step G s es) :
    Along step G s pre := by
  obtain ⟨rest, rfl⟩ := hp
  exact (along_append.mp hg).1

/-- The invariant rule for every state on the way. -/
theorem throughout_of_invariant {I : S → Prop}
    (hstep : ∀ s e, I s → G s e → I (step s e)) {s : S} {es : List E} (hs : I s)
    (hg : Along step G s es) : Throughout step I s es :=
  fun _ hp => invariant_run hstep hs (hg.of_prefix hp)

/-- A guard is met together with whatever holds of every event of the run. -/
theorem Along.and_forall {P : E → Prop} {s : S} {es : List E} (hg : Along step G s es)
    (hP : ∀ e ∈ es, P e) : Along step (fun s e => G s e ∧ P e) s es := by
  induction es generalizing s with
  | nil => trivial
  | cons e es ih =>
      exact ⟨⟨hg.1, hP e (List.mem_cons_self ..)⟩,
        ih hg.2 fun e' he' => hP e' (List.mem_cons_of_mem _ he')⟩

/-- Two guards that agree wherever the invariant holds are met along the same runs. -/
theorem along_iff_of_invariant {I : S → Prop} {G' : S → E → Prop}
    (hstep : ∀ s e, I s → I (step s e)) (hG : ∀ s e, I s → (G s e ↔ G' s e)) {s : S}
    {es : List E} (hs : I s) : Along step G s es ↔ Along step G' s es := by
  induction es generalizing s with
  | nil => exact Iff.rfl
  | cons e es ih => exact and_congr (hG s e hs) (ih (hstep s e hs))

/-- **Two systems whose steps keep a relation** keep it along their runs. -/
theorem run_related {S' : Type*} {step' : S' → E → S'} {R : S → S' → Prop}
    (hstep : ∀ s s' e, R s s' → R (step s e) (step' s' e)) {s : S} {s' : S'} (hs : R s s')
    (es : List E) : R (run step s es) (run step' s' es) := by
  induction es generalizing s s' with
  | nil => exact hs
  | cons e es ih => exact ih (hstep s s' e hs)

theorem Throughout.mono {P Q : S → Prop} (hPQ : ∀ s, P s → Q s) {s : S} {es : List E}
    (h : Throughout step P s es) : Throughout step Q s es :=
  fun pre hp => hPQ _ (h pre hp)

/-- A run that breaks the guard breaks it for a first time. -/
theorem exists_first_violation {s : S} {es : List E} (h : ¬ Along step G s es) :
    ∃ pre e rest, es = pre ++ e :: rest ∧ Along step G s pre ∧ ¬ G (run step s pre) e := by
  induction es generalizing s with
  | nil => exact absurd trivial h
  | cons e es ih =>
      by_cases he : G s e
      · obtain ⟨pre, e', rest, rfl, hpre, hviol⟩ := ih (fun hes => h ⟨he, hes⟩)
        exact ⟨e :: pre, e', rest, rfl, ⟨he, hpre⟩, hviol⟩
      · exact ⟨[], e, es, rfl, trivial, he⟩

/-! ## A system left to itself -/

section Alone
variable {A : Type*} {next : A → A} {a b c : A} {k : ℕ}

/-- `k` steps of `next` lead from `a` to `b`. -/
def Takes (next : A → A) (k : ℕ) (a b : A) : Prop := next^[k] a = b

/-- A state that does not move is where any number of steps leads. -/
theorem takes_fixed (h : next a = a) (k : ℕ) : Takes next k a a := Function.iterate_fixed h k

theorem Takes.succ (hstep : next a = b) (h : Takes next k b c) : Takes next (k + 1) a c := by
  unfold Takes at h ⊢
  rw [Function.iterate_succ_apply, hstep]
  exact h

/-- Some number of steps of `next` leads from `a` to `b`. -/
def Leads (next : A → A) (a b : A) : Prop := ∃ k, Takes next k a b

theorem Leads.refl (next : A → A) (a : A) : Leads next a a := ⟨0, rfl⟩

theorem Leads.succ (hstep : next a = b) (h : Leads next b c) : Leads next a c := by
  obtain ⟨k, hk⟩ := h
  exact ⟨k + 1, hk.succ hstep⟩

theorem Leads.trans (h : Leads next a b) (h' : Leads next b c) : Leads next a c := by
  obtain ⟨j, hj⟩ := h
  obtain ⟨k, hk⟩ := h'
  refine ⟨k + j, ?_⟩
  unfold Takes at hj hk ⊢
  rw [Function.iterate_add_apply, hj, hk]

end Alone

end Runs

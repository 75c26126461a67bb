import Mathlib.Data.List.Induction
import Reoftpd.Runs

/-!
# Write-once archives

An archive holds contents under keys.  Every event says, as its **label**, what it may
store and what it may let expire, and an archive is **write-once** if nothing else
happens: what is stored stays as it is until an event lets it expire, and what appears was
stored (`Step`).  Nothing is ever overwritten, since a key has to be free when something is
stored under it.

A system refines a write-once archive if each of its guarded steps, seen as what it holds,
is such a step (`Refines`).  Then over every guarded run nothing is lost before its time
(`Refines.expired_of_lost`), what nobody lets expire is there in every state
(`Refines.throughout`), and everything there was stored once and kept since
(`Refines.stored_of_found`).
-/

namespace WriteOnce
open Runs

variable {K C S E : Type*}

/-- What an event may store, and what it may let expire. -/
structure Label (K C : Type*) where
  stores : K → C → Prop
  expires : K → C → Prop

/-- **One event of a write-once archive.** -/
structure Step (l : Label K C) (a a' : K → Option C) : Prop where
  kept : ∀ k c, a k = some c → a' k = some c ∨ a' k = none ∧ l.expires k c
  new : ∀ k c, a k = none → a' k = some c → l.stores k c

/-- Nothing happens. -/
theorem Step.refl (l : Label K C) (a : K → Option C) : Step l a a where
  kept _ _ h := Or.inl h
  new k c hn h := by
    rw [hn] at h
    cases h

/-- A system, seen as what it holds, is a write-once archive. -/
structure Refines (step : S → E → S) (view : S → K → Option C) (label : S → E → Label K C)
    (I : S → Prop) (G : S → E → Prop) : Prop where
  keeps : ∀ s e, I s → G s e → I (step s e)
  steps : ∀ s e, I s → G s e → Step (label s e) (view s) (view (step s e))

variable {step : S → E → S} {view : S → K → Option C} {label : S → E → Label K C}
  {I : S → Prop} {G : S → E → Prop} {s : S} {es : List E} {k : K} {c : C}

/-- **Nothing is lost before its time**: what is not there any more, as it was, went at an
event that lets it expire, and was there as it was until then. -/
theorem Refines.expired_of_lost (h : Refines step view label I G) (hs : I s)
    (hg : Along step G s es) (hk : view s k = some c) (hlost : view (run step s es) k ≠ some c) :
    ∃ pre e post, es = pre ++ e :: post ∧ Throughout step (fun s => view s k = some c) s pre ∧
      (label (run step s pre) e).expires k c := by
  induction es generalizing s with
  | nil => exact absurd hk hlost
  | cons e es ih =>
      rcases (h.steps s e hs hg.1).kept k c hk with hkept | ⟨-, hexpires⟩
      · obtain ⟨pre, e', post, rfl, hthrough, hexpires⟩ := ih (h.keeps s e hs hg.1) hg.2 hkept hlost
        refine ⟨e :: pre, e', post, rfl, fun l hl => ?_, hexpires⟩
        cases l with
        | nil => exact hk
        | cons x l =>
            obtain ⟨rfl, hrest⟩ := List.cons_prefix_cons.mp hl
            exact hthrough l hrest
      · exact ⟨[], e, es, rfl, fun l hl => by rwa [List.prefix_nil.mp hl], hexpires⟩

/-- **What nobody lets expire** is there, as it is, in every state. -/
theorem Refines.throughout (h : Refines step view label I G) (hs : I s) (hg : Along step G s es)
    (hk : view s k = some c) (hspared : Along step (fun s e => ¬ (label s e).expires k c) s es) :
    Throughout step (fun s => view s k = some c) s es := by
  intro pre hpre
  by_contra hlost
  obtain ⟨pre', e, post, rfl, -, hexpires⟩ :=
    h.expired_of_lost hs (hg.of_prefix hpre) hk hlost
  have hspared' := hspared.of_prefix hpre
  exact (along_append.mp hspared').2.1 hexpires

/-- **Everything there was stored once and kept since**, or was there from the start. -/
theorem Refines.stored_of_found (h : Refines step view label I G) (hs : I s)
    (hg : Along step G s es) (hk : view (run step s es) k = some c) :
    Throughout step (fun s => view s k = some c) s es ∨
      ∃ pre e post, es = pre ++ e :: post ∧ view (run step s pre) k = none ∧
        (label (run step s pre) e).stores k c ∧
        Throughout step (fun s => view s k = some c) (run step s (pre ++ [e])) post := by
  induction es using List.reverseRecOn with
  | nil => exact Or.inl fun l hl => by rwa [List.prefix_nil.mp hl]
  | append_singleton es e ih =>
      have hg' := along_concat.mp hg
      have hstep := h.steps _ e (invariant_run h.keeps hs hg'.1) hg'.2
      rw [run_concat] at hk
      have hextend : ∀ {s' : S} {l : List E}, run step s' l = run step s es →
          Throughout step (fun s => view s k = some c) s' l →
          Throughout step (fun s => view s k = some c) s' (l ++ [e]) := by
        intro s' l hrun hthrough pre hpre
        rcases List.prefix_concat_iff.mp hpre with rfl | hpre
        · rw [run_concat, hrun]
          exact hk
        · exact hthrough pre hpre
      cases hbefore : view (run step s es) k with
      | none =>
          refine Or.inr ⟨es, e, [], rfl, hbefore, hstep.new k c hbefore hk, fun l hl => ?_⟩
          rw [List.prefix_nil.mp hl, run_concat]
          exact hk
      | some c' =>
          -- what was there is what is there now
          obtain rfl : c' = c := by
            rcases hstep.kept k c' hbefore with hkept | ⟨hnone, -⟩
            · exact Option.some.inj (hkept.symm.trans hk)
            · rw [hnone] at hk
              cases hk
          rcases ih hg'.1 hbefore with hthrough | ⟨pre, x, post, rfl, hfree, hstores, hthrough⟩
          · exact Or.inl (hextend rfl hthrough)
          · refine Or.inr ⟨pre, x, post ++ [e], by simp, hfree, hstores, hextend ?_ hthrough⟩
            rw [← run_append, List.append_assoc]
            rfl

end WriteOnce

import Mathlib.Algebra.Order.BigOperators.Group.List
import Mathlib.Algebra.Order.Group.Nat
import Reoftpd.Limits
import Reoftpd.Runs

/-!
# The session tracker over whole runs

The operations the server calls on its one `SessionTracker`, each atomic under the
tracker's lock, in any order and for any accounts.  The caps are `u32`s and may be
changed by a reload in the middle of a run; the clock only goes on.

**The representation is kept** (`tracker_sound`).  `global` is maintained next to the map
with saturating arithmetic and casts.  It stays the number of slots in the map, because
`try_admit` stops below a cap that is a `u32`, `on_logout` lowers `global` only for a slot
it drops, and `reap` returns the number of slots it took.

**The caps hold** (`session_caps_hold`).  `try_admit` and `at_capacity` test the same
condition, so a count is only as high as the highest cap it was ever tested against, and
it does not rise while it is at its cap.
-/
namespace Reoftpd
open Runs SessionState

/-- A call of the server on its tracker, or the passing of time. -/
inductive TrackerCall where
  | tryAdmit (username : String)
  | atCapacity (username : String)
  | onLogout (username : String)
  | reap (ttl : Nat)
  | setLimits (maxGlobal : UInt32) (maxPerAccount : Option UInt32)
  | wait (d : Nat)
  deriving DecidableEq

/-- The tracker and the clock. -/
structure Tracker where
  state : SessionState
  now : Nat

/-! ## The number of slots -/

namespace SessionState

/-- The number of slots in the map. -/
def total (s : SessionState) : Nat := s.perAccount.total List.length

/-- How many slots of one account are `ttl` old or older. -/
def agedOut (ttl now : Nat) (v : List Nat) : Nat := v.countP fun t => ttl ≤ now - t

/-- How many slots in the map are `ttl` old or older. -/
def totalAgedOut (s : SessionState) (ttl now : Nat) : Nat :=
  s.perAccount.total (agedOut ttl now)

section Total
variable {s : SessionState} {u : String} {now ttl : Nat}

/-- What the map holds for one account, and the rest. -/
theorem total_eq (s : SessionState) (u : String) :
    s.total = (s.stamps u).length + (s.perAccount.erase u).total List.length := by
  unfold total stamps
  cases h : s.perAccount.lookup u with
  | none => simpa using AList.total_of_lookup_none List.length h
  | some v => exact AList.total_of_lookup List.length h

theorem stamps_length_le_total (s : SessionState) (u : String) :
    (s.stamps u).length ≤ s.total := by
  rw [total_eq s u]
  exact Nat.le_add_right ..

theorem total_push : (s.push now u).total = s.total + 1 := by
  rw [total_eq s u]
  show (s.perAccount.insert u (s.stamps u ++ [now])).total List.length = _
  rw [AList.total_insert, List.length_append, List.length_singleton]
  omega

/-- What `on_logout` does: an account without slots changes nothing in the counts, any
other loses its oldest slot. -/
theorem onLogout_counts :
    (s.stamps u = [] ∧ (s.onLogout u).total = s.total ∧ (s.onLogout u).global = s.global) ∨
      (s.stamps u ≠ [] ∧ (s.onLogout u).total + 1 = s.total ∧
        (s.onLogout u).global = s.global - 1) := by
  have htotal := total_eq s u
  unfold onLogout
  cases h : s.perAccount.lookup u with
  | none => exact Or.inl ⟨by simp [stamps, h], rfl, rfl⟩
  | some v =>
      have hstamps : s.stamps u = v := by simp [stamps, h]
      rw [hstamps] at htotal ⊢
      rcases v with _ | ⟨t, _ | ⟨t', rest⟩⟩
      · refine Or.inl ⟨rfl, ?_, rfl⟩
        rw [htotal]
        exact (Nat.zero_add _).symm
      · refine Or.inr ⟨by simp, ?_, rfl⟩
        rw [htotal]
        exact Nat.add_comm ..
      · refine Or.inr ⟨by simp, ?_, rfl⟩
        rw [htotal]
        show (s.perAccount.insert u (t' :: rest)).total List.length + 1 = _
        rw [AList.total_insert]
        simp only [List.length_cons]
        omega

/-- The slots of one account: those that stay and those that go. -/
theorem length_filter_fresh (ttl now : Nat) (v : List Nat) :
    (v.filter (fresh ttl now)).length + agedOut ttl now v = v.length := by
  rw [← List.countP_eq_length_filter, agedOut]
  refine Eq.trans ?_ (List.length_eq_countP_add_countP (fresh ttl now)).symm
  congr 2
  funext t
  simp [fresh]

theorem length_reapAccount (ttl now : Nat) (v : List Nat) :
    ((reapAccount ttl now v).map List.length).getD 0 = (v.filter (fresh ttl now)).length := by
  unfold reapAccount
  split
  · rename_i h
    rw [h]
    rfl
  · rfl

theorem total_reap : (s.reap ttl now).1.total + s.totalAgedOut ttl now = s.total := by
  show (s.perAccount.retain (reapAccount ttl now)).total List.length + _ = _
  rw [AList.total_retain, totalAgedOut, ← AList.total_add, total]
  congr 1
  funext v
  rw [length_reapAccount, length_filter_fresh]

theorem totalAgedOut_le_total : s.totalAgedOut ttl now ≤ s.total := by
  have h := @total_reap s now ttl
  omega

/-- Adding up `u32`s that wrap around gives the sum, wrapped around once. -/
theorem foldl_wrapping {A : Type} (f : A → Nat) (l : List A) (n : Nat) :
    l.foldl (fun n a => (n + f a % 4294967296) % 4294967296) (n % 4294967296) =
      (n + (l.map f).sum) % 4294967296 := by
  induction l generalizing n with
  | nil => rfl
  | cons a l ih =>
      rw [List.foldl_cons, ← Nat.add_mod, ih, List.map_cons, List.sum_cons, Nat.add_assoc]

/-- The count `reap` keeps is the number of slots it takes, as `u32`. -/
theorem reaped_eq (s : SessionState) (ttl now : Nat) :
    s.reaped ttl now = s.totalAgedOut ttl now % 4294967296 := by
  have hone (v : List Nat) : reapedFrom ttl now v = agedOut ttl now v % 4294967296 := by
    have h := length_filter_fresh ttl now v
    unfold reapedFrom
    congr 1
    omega
  unfold reaped
  simp only [hone]
  have h := foldl_wrapping (fun e => agedOut ttl now e.2) s.perAccount.entries 0
  rw [Nat.zero_add] at h
  exact h

end Total

section Entries
variable {s : SessionState} {u w : String} {now ttl : Nat} {v : List Nat}

theorem lookup_push (h : (s.push now u).perAccount.lookup w = some v) :
    s.perAccount.lookup w = some v ∨ v = s.stamps w ++ [now] := by
  by_cases hw : w = u
  · subst hw
    rw [push, AList.lookup_insert] at h
    exact Or.inr (Option.some.inj h).symm
  · rw [push, AList.lookup_insert_ne hw] at h
    exact Or.inl h

/-- An entry after a logout is there before it, or lost its oldest slot. -/
theorem lookup_onLogout (h : (s.onLogout u).perAccount.lookup w = some v) :
    s.perAccount.lookup w = some v ∨ (v ≠ [] ∧ ∃ x, s.perAccount.lookup w = some (x :: v)) := by
  by_cases hw : w = u
  · subst hw
    unfold onLogout at h
    rcases hv : s.perAccount.lookup w with _ | (_ | ⟨x, _ | ⟨x', rest⟩⟩) <;> rw [hv] at h
    · exact Or.inl (hv ▸ h)
    · simp at h
    · simp at h
    · rw [AList.lookup_insert] at h
      obtain rfl := Option.some.inj h
      exact Or.inr ⟨by simp, x, rfl⟩
  · unfold onLogout at h
    split at h
    · exact Or.inl h
    · exact Or.inl ((AList.lookup_erase_ne hw).symm.trans h)
    · exact Or.inl ((AList.lookup_erase_ne hw).symm.trans h)
    · exact Or.inl ((AList.lookup_insert_ne hw).symm.trans h)

theorem lookup_reap (h : (s.reap ttl now).1.perAccount.lookup w = some v) :
    v ≠ [] ∧ ∃ v', s.perAccount.lookup w = some v' ∧ v = v'.filter (fresh ttl now) := by
  rw [show (s.reap ttl now).1.perAccount = s.perAccount.retain (reapAccount ttl now) from rfl,
    AList.lookup_retain, Option.bind_eq_some_iff] at h
  obtain ⟨v', hv', hr⟩ := h
  unfold reapAccount at hr
  split at hr
  · cases hr
  · rename_i hne
    obtain rfl := Option.some.inj hr
    exact ⟨hne, v', hv', rfl⟩

end Entries

section Capacity
variable {s : SessionState} {u : String} {now : Nat}

/-- **One condition, tested twice**: `try_admit` admits exactly when `at_capacity` says no. -/
theorem tryAdmit_eq (s : SessionState) (now : Nat) (u : String) :
    s.tryAdmit now u = if s.atCapacity u then (s, false) else (s.push now u, true) := by
  unfold tryAdmit atCapacity
  split
  · simp
  · cases s.maxPerAccount with
    | none => simp
    | some c => simp [Option.any]

theorem tryAdmit_true (h : s.atCapacity u = false) : s.tryAdmit now u = (s.push now u, true) := by
  rw [tryAdmit_eq, h]
  rfl

theorem tryAdmit_snd (s : SessionState) (now : Nat) (u : String) :
    (s.tryAdmit now u).2 = !s.atCapacity u := by
  rw [tryAdmit_eq]
  cases s.atCapacity u <;> rfl

/-- An account that is not at capacity is below both caps. -/
theorem below_of_not_atCapacity (h : s.atCapacity u = false) :
    s.global < s.maxGlobal ∧ ∀ c, s.maxPerAccount = some c → s.lenU32 u < c := by
  unfold atCapacity at h
  split at h
  · cases h
  · rename_i hglobal
    refine ⟨not_le.mp hglobal, fun c hc => ?_⟩
    rw [hc] at h
    exact not_le.mp (of_decide_eq_false h)

end Capacity

end SessionState

/-! ## Runs -/

namespace Tracker

/-- A new tracker. -/
def init (maxGlobal : UInt32) (maxPerAccount : Option UInt32) (now : Nat) : Tracker :=
  ⟨.new maxGlobal.toNat (maxPerAccount.map UInt32.toNat), now⟩

/-- **One call.** -/
def step (t : Tracker) : TrackerCall → Tracker
  | .tryAdmit u => { t with state := (t.state.tryAdmit t.now u).1 }
  | .atCapacity _ => t
  | .onLogout u => { t with state := t.state.onLogout u }
  | .reap ttl => { t with state := (t.state.reap ttl t.now).1 }
  | .setLimits m p => { t with state := t.state.setLimits m.toNat (p.map UInt32.toNat) }
  | .wait d => { t with now := t.now + d }

/-- **The representation**: `global` is the number of slots, no account has an entry
without slots, and an account's slots are in the order of their admission times. -/
structure Sound (t : Tracker) : Prop where
  global_eq : t.state.global = t.state.total
  nonempty : ∀ u v, t.state.perAccount.lookup u = some v → v ≠ []
  sorted : ∀ u v, t.state.perAccount.lookup u = some v → v.Pairwise (· ≤ ·)

/-- **No `u32` operation goes wrong** in this state: a cast of a length is the length, an
admission finds room for one more, a logout that drops a slot finds it counted, and the
count of a reap, also of only some of the accounts, is at most `global`. -/
structure Fits (t : Tracker) : Prop where
  len : ∀ u, t.state.lenU32 u = (t.state.stamps u).length
  room : ∀ u, (t.state.tryAdmit t.now u).2 = true → t.state.global + 1 ≤ u32Max
  logout : ∀ u, t.state.stamps u ≠ [] → 1 ≤ t.state.global
  reaped : ∀ ttl seen, List.Sublist seen t.state.perAccount.entries →
    (seen.map fun e => agedOut ttl t.now e.2).sum ≤ t.state.global
  global : t.state.global ≤ u32Max

/-- **A reap is exact**: it takes the slots that are `ttl` old or older and no others, and
the number it returns is how many these are and how far `global` goes down. -/
def ReapExact (t : Tracker) (ttl : Nat) : Prop :=
  (∀ u, (t.state.reap ttl t.now).1.stamps u = (t.state.stamps u).filter fun x => t.now - x < ttl) ∧
    (t.state.reap ttl t.now).2 = t.state.totalAgedOut ttl t.now ∧
    (t.state.reap ttl t.now).1.global + (t.state.reap ttl t.now).2 = t.state.global

/-- What an entry says of itself: it has slots, in order, none of them from the future. -/
def GoodEntry (now : Nat) (v : List Nat) : Prop :=
  v ≠ [] ∧ v.Pairwise (· ≤ ·) ∧ ∀ x ∈ v, x ≤ now

theorem GoodEntry.sublist {now : Nat} {v v' : List Nat} (h : GoodEntry now v)
    (hs : v'.Sublist v) (hne : v' ≠ []) : GoodEntry now v' :=
  ⟨hne, h.2.1.sublist hs, fun x hx => h.2.2 x (hs.subset hx)⟩

theorem GoodEntry.later {now now' : Nat} {v : List Nat} (h : GoodEntry now v)
    (hle : now ≤ now') : GoodEntry now' v :=
  ⟨h.1, h.2.1, fun x hx => (h.2.2 x hx).trans hle⟩

/-- The invariant behind the three. -/
structure Inv (t : Tracker) : Prop where
  entries : ∀ u v, t.state.perAccount.lookup u = some v → GoodEntry t.now v
  global_eq : t.state.global = t.state.total
  global : t.state.global ≤ u32Max
  cap : t.state.maxGlobal ≤ u32Max

section Invariant
variable {t : Tracker}

theorem Inv.sound (h : t.Inv) : t.Sound :=
  ⟨h.global_eq, fun u v hv => (h.entries u v hv).1, fun u v hv => (h.entries u v hv).2.1⟩

theorem Inv.fits (h : t.Inv) : t.Fits := by
  have htotal := h.global_eq
  have hglobal := h.global
  unfold u32Max at hglobal
  refine ⟨fun u => ?_, fun u hu => ?_, fun u hu => ?_, fun ttl seen hseen => ?_, h.global⟩
  · have hlen := stamps_length_le_total t.state u
    exact Nat.mod_eq_of_lt (by omega)
  · have hcap := h.cap
    rw [tryAdmit_snd, Bool.not_eq_true'] at hu
    have hlt := (below_of_not_atCapacity hu).1
    omega
  · have hlen := stamps_length_le_total t.state u
    have hpos := List.length_pos_of_ne_nil hu
    omega
  · calc (seen.map fun e => agedOut ttl t.now e.2).sum
        ≤ t.state.totalAgedOut ttl t.now := (hseen.map _).sum_le_sum fun _ _ => Nat.zero_le _
      _ ≤ t.state.total := totalAgedOut_le_total
      _ = t.state.global := htotal.symm

theorem Inv.reap_eq (h : t.Inv) (ttl : Nat) :
    (t.state.reap ttl t.now).2 = t.state.totalAgedOut ttl t.now := by
  have hle := @totalAgedOut_le_total t.state t.now ttl
  have htotal := h.global_eq
  have hglobal := h.global
  unfold u32Max at hglobal
  show t.state.reaped ttl t.now = _
  rw [reaped_eq]
  exact Nat.mod_eq_of_lt (by omega)

theorem Inv.reap_global (h : t.Inv) (ttl : Nat) :
    (t.state.reap ttl t.now).1.global + (t.state.reap ttl t.now).2 = t.state.global := by
  have hle := @totalAgedOut_le_total t.state t.now ttl
  have htotal := h.global_eq
  have hreap := h.reap_eq ttl
  show t.state.global - (t.state.reap ttl t.now).2 + (t.state.reap ttl t.now).2 = t.state.global
  omega

theorem Inv.reapExact (h : t.Inv) (ttl : Nat) : t.ReapExact ttl :=
  ⟨fun _ => stamps_reap, h.reap_eq ttl, h.reap_global ttl⟩

/-- A new slot comes last. -/
theorem Inv.push_entry (h : t.Inv) (u : String) :
    GoodEntry t.now (t.state.stamps u ++ [t.now]) := by
  unfold stamps
  cases hu : t.state.perAccount.lookup u with
  | none => exact ⟨by simp, by simp, by simp⟩
  | some v =>
      obtain ⟨-, hsorted, hpast⟩ := h.entries u v hu
      refine ⟨by simp, List.pairwise_append.mpr ⟨hsorted, List.pairwise_singleton .., ?_⟩, ?_⟩
      · intro x hx y hy
        rw [List.mem_singleton.mp hy]
        exact hpast x hx
      · intro x hx
        rcases List.mem_append.mp hx with hx | hx
        · exact hpast x hx
        · exact (List.mem_singleton.mp hx).le

/-- **Every call keeps the invariant.** -/
theorem Inv.step (h : t.Inv) (e : TrackerCall) : (t.step e).Inv := by
  cases e with
  | tryAdmit u =>
      show Inv { t with state := (t.state.tryAdmit t.now u).1 }
      cases hcap : t.state.atCapacity u with
      | true =>
          rw [tryAdmit_eq, hcap]
          exact h
      | false =>
          have hadm := @tryAdmit_true _ u t.now hcap
          -- an admitted login finds room in the 32-bit count
          have hroom := h.fits.room u (by rw [hadm])
          rw [hadm]
          have hglobal : (t.state.push t.now u).global = t.state.global + 1 := min_eq_left hroom
          refine ⟨fun w v hv => ?_, ?_, ?_, h.cap⟩
          · rcases lookup_push hv with hv | rfl
            · exact h.entries w v hv
            · exact h.push_entry w
          · show (t.state.push t.now u).global = (t.state.push t.now u).total
            rw [hglobal, total_push, h.global_eq]
          · exact hglobal.trans_le hroom
  | atCapacity u => exact h
  | onLogout u =>
      have hcap : (t.state.onLogout u).maxGlobal = t.state.maxGlobal := by
        unfold onLogout
        split <;> rfl
      have hentries := h.global_eq
      refine ⟨fun w v hv => ?_, ?_, ?_, hcap.trans_le h.cap⟩
      · rcases lookup_onLogout hv with hv | ⟨hne, x, hv⟩
        · exact h.entries w v hv
        · exact (h.entries w _ hv).sublist (List.sublist_cons_self x v) hne
      · show (t.state.onLogout u).global = (t.state.onLogout u).total
        rcases @onLogout_counts t.state u with ⟨-, ht, hg⟩ | ⟨-, ht, hg⟩ <;> omega
      · show (t.state.onLogout u).global ≤ u32Max
        have hle := h.global
        rcases @onLogout_counts t.state u with ⟨-, -, hg⟩ | ⟨-, -, hg⟩ <;> omega
  | reap ttl =>
      have htotal := @total_reap t.state t.now ttl
      have hcount := h.reap_eq ttl
      have hglobal := h.reap_global ttl
      have heq := h.global_eq
      refine ⟨fun w v hv => ?_, ?_, ?_, h.cap⟩
      · obtain ⟨hne, v', hv', rfl⟩ := lookup_reap hv
        exact (h.entries w v' hv').sublist List.filter_sublist hne
      · show (t.state.reap ttl t.now).1.global = (t.state.reap ttl t.now).1.total
        omega
      · show (t.state.reap ttl t.now).1.global ≤ u32Max
        have hle := h.global
        omega
  | setLimits m p => exact ⟨h.entries, h.global_eq, h.global, Nat.le_of_lt_succ m.toNat_lt⟩
  | wait d =>
      exact ⟨fun u v hv => (h.entries u v hv).later (Nat.le_add_right ..), h.global_eq, h.global,
        h.cap⟩

theorem inv_init (m : UInt32) (p : Option UInt32) (now : Nat) : (init m p now).Inv :=
  ⟨fun _ _ h => by simp [init, new] at h, rfl, Nat.zero_le _, Nat.le_of_lt_succ m.toNat_lt⟩

theorem inv_run (m : UInt32) (p : Option UInt32) (now : Nat) (es : List TrackerCall) :
    (run step (init m p now) es).Inv :=
  invariant_run (G := fun _ _ => True) (fun _ e h _ => h.step e) (inv_init m p now)
    (along_of_forall (fun _ _ => trivial) _ _)

end Invariant

/-- **The tracker never drifts.**  In every state of every run, `global` is the number of
slots, no entry is empty, slots are in order, no `u32` operation can go wrong, and a reap
takes exactly the slots that are old enough. -/
theorem tracker_sound (m : UInt32) (p : Option UInt32) (now : Nat) (es : List TrackerCall) :
    (run step (init m p now) es).Sound ∧ (run step (init m p now) es).Fits ∧
      ∀ ttl, (run step (init m p now) es).ReapExact ttl :=
  ⟨(inv_run m p now es).sound, (inv_run m p now es).fits, (inv_run m p now es).reapExact⟩

/-! ## The caps -/

/-- **An admission**: it is given exactly when `at_capacity` says no; a refusal changes
nothing, and a success adds one slot to the account and one to `global`. -/
structure AdmitExact (t : Tracker) (u : String) : Prop where
  admitted_iff : (t.state.tryAdmit t.now u).2 = true ↔ t.state.atCapacity u = false
  refused : (t.state.tryAdmit t.now u).2 = false → (t.state.tryAdmit t.now u).1 = t.state
  own : (t.state.tryAdmit t.now u).2 = true →
    (t.state.tryAdmit t.now u).1.stamps u = t.state.stamps u ++ [t.now]
  global : (t.state.tryAdmit t.now u).2 = true →
    (t.state.tryAdmit t.now u).1.global = t.state.global + 1
  others : ∀ v, v ≠ u → (t.state.tryAdmit t.now u).1.stamps v = t.state.stamps v

/-- **A count that is at its cap**, or above it, does not rise. -/
structure NoRise (t : Tracker) (e : TrackerCall) : Prop where
  global : t.state.maxGlobal ≤ t.state.global → (t.step e).state.global ≤ t.state.global
  account : ∀ u c, t.state.maxPerAccount = some c → c ≤ (t.state.stamps u).length →
    ((t.step e).state.stamps u).length ≤ (t.state.stamps u).length

/-- The values of `max_global` set so far. -/
def globalCaps (m : UInt32) (es : List TrackerCall) : List Nat :=
  m.toNat :: es.filterMap fun
    | .setLimits m _ => some m.toNat
    | _ => none

/-- The values of `max_per_account` set so far. -/
def accountCaps (p : Option UInt32) (es : List TrackerCall) : List (Option Nat) :=
  p.map UInt32.toNat :: es.filterMap fun
    | .setLimits _ p => some (p.map UInt32.toNat)
    | _ => none

/-- The largest of some numbers. -/
def largest (l : List Nat) : Nat := l.foldr max 0

theorem le_largest {l : List Nat} {n : Nat} (h : n ∈ l) : n ≤ largest l := by
  induction l with
  | nil => cases h
  | cons a l ih =>
      rcases List.mem_cons.mp h with rfl | h
      · exact le_max_left ..
      · exact (ih h).trans (le_max_right ..)

section Caps
variable {t : Tracker} {M : Nat}

theorem Inv.admitExact (h : t.Inv) (u : String) : t.AdmitExact u := by
  have hsnd := tryAdmit_snd t.state t.now u
  cases hcap : t.state.atCapacity u with
  | true =>
      have hrefused : t.state.tryAdmit t.now u = (t.state, false) := by
        rw [tryAdmit_eq, hcap]
        rfl
      constructor <;> simp [hrefused, hcap]
  | false =>
      have hadm := @tryAdmit_true _ u t.now hcap
      have hroom := h.fits.room u (by rw [hadm])
      constructor <;> rw [hadm]
      · simp [hcap]
      · simp
      · exact fun _ => stamps_push_self
      · exact fun _ => min_eq_left hroom
      · exact fun v hv => stamps_push_ne hv

/-- What a call other than an admission leaves of the counts. -/
theorem step_counts_le (t : Tracker) (e : TrackerCall) (he : ∀ u, e ≠ .tryAdmit u) :
    (t.step e).state.global ≤ t.state.global ∧
      ∀ u, ((t.step e).state.stamps u).length ≤ (t.state.stamps u).length := by
  cases e with
  | tryAdmit u => exact absurd rfl (he u)
  | atCapacity u => exact ⟨le_rfl, fun _ => le_rfl⟩
  | onLogout u =>
      constructor
      · show (t.state.onLogout u).global ≤ _
        rcases @onLogout_counts t.state u with ⟨-, -, hg⟩ | ⟨-, -, hg⟩ <;> omega
      · intro v
        show ((t.state.onLogout u).stamps v).length ≤ _
        by_cases hv : v = u
        · subst hv
          rw [stamps_onLogout_self, List.length_tail]
          exact Nat.sub_le ..
        · rw [stamps_onLogout_ne hv]
  | reap ttl =>
      refine ⟨Nat.sub_le .., fun v => ?_⟩
      show ((t.state.reap ttl t.now).1.stamps v).length ≤ _
      rw [stamps_reap]
      exact List.length_filter_le ..
  | setLimits m p => exact ⟨le_rfl, fun _ => le_rfl⟩
  | wait d => exact ⟨le_rfl, fun _ => le_rfl⟩

/-- An admission raises a count only if that is below its cap, and then by one. -/
theorem Inv.tryAdmit_counts (h : t.Inv) (u : String) :
    (t.step (.tryAdmit u)).state = t.state ∨
      (t.state.global < t.state.maxGlobal ∧
        (t.step (.tryAdmit u)).state.global = t.state.global + 1 ∧
        (∀ c, t.state.maxPerAccount = some c → (t.state.stamps u).length < c) ∧
        ((t.step (.tryAdmit u)).state.stamps u).length = (t.state.stamps u).length + 1 ∧
        ∀ v, v ≠ u → (t.step (.tryAdmit u)).state.stamps v = t.state.stamps v) := by
  have hexact := h.admitExact u
  cases hadm : (t.state.tryAdmit t.now u).2 with
  | false => exact Or.inl (hexact.refused hadm)
  | true =>
      obtain ⟨hglobal, haccount⟩ := below_of_not_atCapacity (hexact.admitted_iff.mp hadm)
      rw [h.fits.len u] at haccount
      refine Or.inr ⟨hglobal, hexact.global hadm, haccount, ?_, hexact.others⟩
      exact (congrArg List.length (hexact.own hadm)).trans List.length_append

theorem Inv.noRise (h : t.Inv) (e : TrackerCall) : t.NoRise e := by
  by_cases he : ∃ u, e = .tryAdmit u
  · obtain ⟨u, rfl⟩ := he
    rcases h.tryAdmit_counts u with hsame | ⟨hglobal, -, haccount, -, hothers⟩
    · constructor <;> rw [hsame]
      · exact fun _ => le_rfl
      · exact fun _ _ _ _ => le_rfl
    · constructor
      · intro hcap
        exact absurd hglobal (not_lt.mpr hcap)
      · intro v c hc hcap
        by_cases hv : v = u
        · subst hv
          exact absurd (haccount c hc) (not_lt.mpr hcap)
        · rw [hothers v hv]
  · obtain ⟨hglobal, haccount⟩ := step_counts_le t e fun u hu => he ⟨u, hu⟩
    exact ⟨fun _ => hglobal, fun u _ _ _ => haccount u⟩

theorem step_caps (t : Tracker) (e : TrackerCall) (he : ∀ m p, e ≠ .setLimits m p) :
    (t.step e).state.maxGlobal = t.state.maxGlobal ∧
      (t.step e).state.maxPerAccount = t.state.maxPerAccount := by
  cases e with
  | tryAdmit u =>
      rcases tryAdmit_cases t.state t.now u with h | h <;> simp [step, h, push]
  | atCapacity u => exact ⟨rfl, rfl⟩
  | onLogout u =>
      simp only [step]
      unfold onLogout
      split <;> exact ⟨rfl, rfl⟩
  | reap ttl => exact ⟨rfl, rfl⟩
  | setLimits m p => exact absurd rfl (he m p)
  | wait d => exact ⟨rfl, rfl⟩

/-- The state is below `M`, a bound on every cap on `global`. -/
def GlobalBelow (M : Nat) (t : Tracker) : Prop := t.state.maxGlobal ≤ M ∧ t.state.global ≤ M

/-- The state is below `M`, a bound on every cap per account, and there is such a cap. -/
def AccountsBelow (M : Nat) (t : Tracker) : Prop :=
  (∃ c, t.state.maxPerAccount = some c ∧ c ≤ M) ∧ ∀ u, (t.state.stamps u).length ≤ M

theorem GlobalBelow.step (h : t.Inv) (hb : t.GlobalBelow M) {e : TrackerCall}
    (he : ∀ m p, e = .setLimits m p → m.toNat ≤ M) : (t.step e).GlobalBelow M := by
  obtain ⟨hcap, hglobal⟩ := hb
  by_cases hset : ∃ m p, e = .setLimits m p
  · obtain ⟨m, p, rfl⟩ := hset
    exact ⟨he m p rfl, hglobal⟩
  · have hkept := (step_caps t e fun m p hm => hset ⟨m, p, hm⟩).1
    refine ⟨hkept.trans_le hcap, ?_⟩
    by_cases hadm : ∃ u, e = .tryAdmit u
    · obtain ⟨u, rfl⟩ := hadm
      rcases h.tryAdmit_counts u with hsame | ⟨hlt, hone, -⟩
      · rw [hsame]
        exact hglobal
      · rw [hone]
        exact hlt.trans_le hcap
    · exact (step_counts_le t e fun u hu => hadm ⟨u, hu⟩).1.trans hglobal

theorem AccountsBelow.step (h : t.Inv) (hb : t.AccountsBelow M) {e : TrackerCall}
    (he : ∀ m p, e = .setLimits m p → ∃ c, p = some c ∧ c.toNat ≤ M) :
    (t.step e).AccountsBelow M := by
  obtain ⟨⟨c, hc, hcap⟩, hall⟩ := hb
  by_cases hset : ∃ m p, e = .setLimits m p
  · obtain ⟨m, p, rfl⟩ := hset
    obtain ⟨c', rfl, hc'⟩ := he m p rfl
    exact ⟨⟨c'.toNat, rfl, hc'⟩, hall⟩
  · have hkept := (step_caps t e fun m p hm => hset ⟨m, p, hm⟩).2
    refine ⟨⟨c, hkept.trans hc, hcap⟩, fun v => ?_⟩
    by_cases hadm : ∃ u, e = .tryAdmit u
    · obtain ⟨u, rfl⟩ := hadm
      rcases h.tryAdmit_counts u with hsame | ⟨-, -, hlt, hone, hothers⟩
      · rw [hsame]
        exact hall v
      · by_cases hv : v = u
        · subst hv
          rw [hone]
          exact (hlt c hc).trans_le hcap
        · rw [hothers v hv]
          exact hall v
    · exact ((step_counts_le t e fun u hu => hadm ⟨u, hu⟩).2 v).trans (hall v)

end Caps

section History
variable (m : UInt32) (p : Option UInt32) (now : Nat) (es : List TrackerCall)

theorem global_le_largest :
    (run step (init m p now) es).state.global ≤ largest (globalCaps m es) := by
  have hstart : (init m p now).Inv ∧ (init m p now).GlobalBelow (largest (globalCaps m es)) :=
    ⟨inv_init m p now, le_largest (List.mem_cons_self ..), Nat.zero_le _⟩
  have hcalls : ∀ e ∈ es, ∀ m' p', e = TrackerCall.setLimits m' p' →
      m'.toNat ≤ largest (globalCaps m es) := by
    rintro e he m' p' rfl
    exact le_largest (List.mem_cons_of_mem _ (List.mem_filterMap.mpr ⟨_, he, rfl⟩))
  exact (invariant_run (I := fun t => Inv t ∧ GlobalBelow (largest (globalCaps m es)) t)
    (fun t e h he => ⟨h.1.step e, h.2.step h.1 he⟩) hstart (along_of_forall_mem hcalls _)).2.2

theorem account_le_largest (hset : ∀ q ∈ accountCaps p es, q.isSome) (u : String) :
    ((run step (init m p now) es).state.stamps u).length ≤
      largest ((accountCaps p es).map (Option.getD · 0)) := by
  have hcap (c : UInt32) (hc : some c.toNat ∈ accountCaps p es) :
      c.toNat ≤ largest ((accountCaps p es).map (Option.getD · 0)) :=
    le_largest (List.mem_map.mpr ⟨_, hc, rfl⟩)
  have hcalls : ∀ e ∈ es, ∀ m' p', e = TrackerCall.setLimits m' p' →
      ∃ c, p' = some c ∧ c.toNat ≤ largest ((accountCaps p es).map (Option.getD · 0)) := by
    rintro e he m' p' rfl
    have hmem : p'.map UInt32.toNat ∈ accountCaps p es :=
      List.mem_cons_of_mem _ (List.mem_filterMap.mpr ⟨_, he, rfl⟩)
    obtain ⟨c, rfl⟩ := Option.isSome_iff_exists.mp (by simpa using hset _ hmem)
    exact ⟨c, rfl, hcap c hmem⟩
  have hmem : p.map UInt32.toNat ∈ accountCaps p es := List.mem_cons_self ..
  obtain ⟨c, rfl⟩ := Option.isSome_iff_exists.mp (by simpa using hset _ hmem)
  have hstart : (init m (some c) now).Inv ∧
      (init m (some c) now).AccountsBelow
        (largest ((accountCaps (some c) es).map (Option.getD · 0))) :=
    ⟨inv_init m (some c) now, ⟨c.toNat, rfl, hcap c hmem⟩, fun _ => Nat.zero_le _⟩
  exact (invariant_run
    (I := fun t => Inv t ∧
      AccountsBelow (largest ((accountCaps (some c) es).map (Option.getD · 0))) t)
    (fun t e h he => ⟨h.1.step e, h.2.step h.1 he⟩) hstart (along_of_forall_mem hcalls _)).2.2 u

/-- **The session caps hold over every run.** -/
theorem session_caps_hold :
    (∀ u, (run step (init m p now) es).AdmitExact u) ∧
    (∀ e, (run step (init m p now) es).NoRise e) ∧
    (run step (init m p now) es).state.global ≤ largest (globalCaps m es) ∧
    ((∀ q ∈ accountCaps p es, q.isSome) →
      ∀ u, ((run step (init m p now) es).state.stamps u).length ≤
        largest ((accountCaps p es).map (Option.getD · 0))) :=
  ⟨(inv_run m p now es).admitExact, (inv_run m p now es).noRise, global_le_largest m p now es,
    account_le_largest m p now es⟩

end History

end Tracker

end Reoftpd

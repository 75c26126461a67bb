import Reoftpd.TrackerRuns

/-!
# Lockouts end

A connection that dies gives no logout, and its slot stays.  The server's reaper is there for
that: every `REAP_INTERVAL_SECS` it takes the slots that are `SESSION_TTL_SECS` old.

**No account is locked out for longer** than the two together: whoever is refused is refused
because so many logins were admitted within that time that a cap is reached, whatever became
of the sessions (`refused_recently`).  What carries it is that every slot stands for an
admission of its own, and that none is older than the reaper lets it become.
-/
namespace Reoftpd
open Runs SessionState

/-- `REAP_INTERVAL_SECS`. -/
def reapIntervalSecs : Nat := 60

/-- The tracker, the admissions it has given, latest first, and the time of the last reap. -/
structure Watched where
  tracker : Tracker
  admitted : List (String × Nat)
  reapedAt : Nat

namespace Watched

def init (maxGlobal : UInt32) (maxPerAccount : Option UInt32) (now : Nat) : Watched :=
  ⟨.init maxGlobal maxPerAccount now, [], now⟩

/-- **One call**, and what is noted of it. -/
def step (w : Watched) (e : TrackerCall) : Watched where
  tracker := w.tracker.step e
  admitted :=
    match e with
    | .tryAdmit u =>
        if (w.tracker.state.tryAdmit w.tracker.now u).2 then (u, w.tracker.now) :: w.admitted
        else w.admitted
    | _ => w.admitted
  reapedAt :=
    match e with
    | .reap _ => w.tracker.now
    | _ => w.reapedAt

/-- The reaper runs: every reap takes slots of the age `ttl`, and no more than `interval`
passes from one to the next. -/
def ReaperRuns (ttl interval : Nat) (w : Watched) : TrackerCall → Prop
  | .reap ttl' => ttl' = ttl
  | .wait d => w.tracker.now + d ≤ w.reapedAt + interval
  | _ => True

instance (ttl interval : Nat) (w : Watched) (e : TrackerCall) :
    Decidable (ReaperRuns ttl interval w e) :=
  match e with
  | .reap ttl' => inferInstanceAs (Decidable (ttl' = ttl))
  | .wait _ => inferInstanceAs (Decidable (_ ≤ _))
  | .tryAdmit _ | .atCapacity _ | .onLogout _ | .setLimits .. => .isTrue trivial

/-- The number of admissions of the last `span` seconds, of all accounts or of one. -/
def recent (w : Watched) (span : Nat) : Nat := w.admitted.countP fun a => w.tracker.now < a.2 + span

def recentOf (w : Watched) (span : Nat) (u : String) : Nat :=
  w.admitted.countP fun a => a.1 = u ∧ w.tracker.now < a.2 + span

end Watched

/-! ## The slots of all accounts -/

namespace SessionState

/-- The slots in a map, each with its account. -/
def slotsIn (m : AList fun _ : String => List Nat) : List (String × Nat) :=
  m.entries.flatMap fun e => e.2.map (Prod.mk e.1)

/-- The slots that are held. -/
def held (s : SessionState) : List (String × Nat) := slotsIn s.perAccount

section Held
variable {s : SessionState} {u : String} {now ttl : Nat} {x : String × Nat}

theorem length_held : s.held.length = s.total := by
  simp [held, slotsIn, total, AList.total, List.length_flatMap]

/-- The slots of one account, and the rest. -/
theorem held_perm (s : SessionState) (u : String) :
    s.held.Perm ((s.stamps u).map (Prod.mk u) ++ slotsIn (s.perAccount.erase u)) := by
  unfold held stamps
  cases h : s.perAccount.lookup u with
  | none =>
      have hu : u ∉ s.perAccount.entries.keys := AList.lookup_eq_none.mp h
      have herase : (s.perAccount.erase u).entries = s.perAccount.entries :=
        List.kerase_of_notMem_keys hu
      simp [slotsIn, herase]
  | some v => exact (AList.entries_perm_insert h).flatMap_right _

theorem held_push : (s.push now u).held.Perm ((u, now) :: s.held) := by
  have hpush : (s.push now u).held =
      (s.stamps u ++ [now]).map (Prod.mk u) ++ slotsIn (s.perAccount.erase u) := rfl
  rw [hpush, List.map_append, List.append_assoc]
  exact List.perm_middle.trans ((held_perm s u).symm.cons _)

/-- A logout takes a slot, or none. -/
theorem held_onLogout : (s.onLogout u).held.Subperm s.held := by
  have hperm := held_perm s u
  unfold onLogout
  rcases h : s.perAccount.lookup u with _ | (_ | ⟨t, _ | ⟨t', rest⟩⟩)
  · exact .refl _
  · have hstamps : s.stamps u = [] := by rw [stamps, h, Option.getD_some]
    rw [hstamps] at hperm
    exact hperm.symm.subperm
  · have hstamps : s.stamps u = [t] := by rw [stamps, h, Option.getD_some]
    rw [hstamps] at hperm
    exact ((List.Sublist.refl _).cons _).subperm.trans hperm.symm.subperm
  · have hstamps : s.stamps u = t :: t' :: rest := by rw [stamps, h, Option.getD_some]
    rw [hstamps] at hperm
    exact ((List.Sublist.refl _).cons _).subperm.trans hperm.symm.subperm

/-- What is left of one account. -/
theorem slots_retainEntry_sublist (ttl now : Nat) (e : Sigma fun _ : String => List Nat) :
    ((AList.retainEntry (reapAccount ttl now) e).toList.flatMap
      fun e => e.2.map (Prod.mk e.1)).Sublist (e.2.map (Prod.mk e.1)) := by
  unfold AList.retainEntry reapAccount
  split
  · simp
  · simpa using List.filter_sublist.map _

/-- A reap takes slots from the accounts, one after the other. -/
theorem slots_reap_sublist (ttl now : Nat) (l : List (Sigma fun _ : String => List Nat)) :
    ((l.filterMap (AList.retainEntry (reapAccount ttl now))).flatMap
      fun e => e.2.map (Prod.mk e.1)).Sublist (l.flatMap fun e => e.2.map (Prod.mk e.1)) := by
  induction l with
  | nil => exact .refl _
  | cons e l ih =>
      have he := slots_retainEntry_sublist ttl now e
      rw [List.flatMap_cons]
      cases h : AList.retainEntry (reapAccount ttl now) e with
      | none =>
          rw [List.filterMap_cons_none h]
          exact ih.trans (List.sublist_append_right _ _)
      | some e' =>
          rw [List.filterMap_cons_some h, List.flatMap_cons]
          rw [h] at he
          exact List.Sublist.append (by simpa using he) ih

theorem held_reap : (s.reap ttl now).1.held.Sublist s.held :=
  slots_reap_sublist ttl now s.perAccount.entries

theorem mem_held : x ∈ s.held ↔ x.2 ∈ s.stamps x.1 := by
  rw [(held_perm s x.1).mem_iff, List.mem_append, List.mem_map]
  constructor
  · rintro (⟨t, ht, hx⟩ | hx)
    · rw [← hx]
      exact ht
    · obtain ⟨e, he, hx⟩ := List.mem_flatMap.mp hx
      obtain ⟨t, -, rfl⟩ := List.mem_map.mp hx
      have hkey : e.1 ∈ s.perAccount.erase e.1 :=
        AList.lookup_isSome.mp (by rw [AList.mem_lookup_iff.mpr he]; rfl)
      exact absurd rfl (AList.mem_erase.mp hkey).1
  · exact fun hx => Or.inl ⟨x.2, hx, rfl⟩

end Held

end SessionState

/-! ## Every slot is a recent admission -/

namespace Watched

/-- **Every slot stands for an admission of its own**, and is no older than the reaper lets it
become. -/
structure Covers (ttl interval : Nat) (w : Watched) : Prop where
  inv : w.tracker.Inv
  held : w.tracker.state.held.Subperm w.admitted
  young : ∀ x ∈ w.tracker.state.held, w.reapedAt < x.2 + ttl
  reaped : w.reapedAt ≤ w.tracker.now
  soon : w.tracker.now ≤ w.reapedAt + interval

section Covers
variable {ttl interval : Nat} {w : Watched} {e : TrackerCall} {u : String}

/-- **Every call** keeps the cover, if the reaper runs. -/
theorem Covers.step (h : Covers ttl interval w) (hpos : 0 < ttl)
    (hreaper : ReaperRuns ttl interval w e) : Covers ttl interval (w.step e) := by
  have hinv : (w.step e).tracker.Inv := h.inv.step e
  cases e with
  | tryAdmit u =>
      cases hadmit : (w.tracker.state.tryAdmit w.tracker.now u).2 with
      | false =>
          have hstate : (w.tracker.state.tryAdmit w.tracker.now u).1 = w.tracker.state := by
            rcases tryAdmit_cases w.tracker.state w.tracker.now u with heq | heq <;>
              rw [heq] at hadmit ⊢
            cases hadmit
          have hstep : w.step (.tryAdmit u) = w := by
            simp [Watched.step, Tracker.step, hadmit, hstate]
          rw [hstep]
          exact h
      | true =>
          have hstate : (w.tracker.state.tryAdmit w.tracker.now u).1 =
              w.tracker.state.push w.tracker.now u := by
            rcases tryAdmit_cases w.tracker.state w.tracker.now u with heq | heq <;>
              rw [heq] at hadmit ⊢
            cases hadmit
          have hstep : w.step (.tryAdmit u) = { w with
              tracker := { w.tracker with state := w.tracker.state.push w.tracker.now u }
              admitted := (u, w.tracker.now) :: w.admitted } := by
            simp [Watched.step, Tracker.step, hadmit, hstate]
          rw [hstep] at hinv ⊢
          have hpush : (w.tracker.state.push w.tracker.now u).held.Perm
              ((u, w.tracker.now) :: w.tracker.state.held) := held_push
          refine ⟨hinv, ?_, fun x hx => ?_, h.reaped, h.soon⟩
          · exact hpush.subperm.trans ((List.subperm_cons _).mpr h.held)
          · rcases List.mem_cons.mp (hpush.mem_iff.mp hx) with rfl | hx
            · have hreaped := h.reaped
              show w.reapedAt < w.tracker.now + ttl
              omega
            · exact h.young x hx
  | atCapacity u => exact ⟨hinv, h.held, h.young, h.reaped, h.soon⟩
  | onLogout u =>
      have hsub : (w.tracker.state.onLogout u).held.Subperm w.tracker.state.held := held_onLogout
      exact ⟨hinv, hsub.trans h.held, fun x hx => h.young x (hsub.subset hx), h.reaped, h.soon⟩
  | reap ttl' =>
      obtain rfl : ttl' = ttl := hreaper
      refine ⟨hinv, held_reap.subperm.trans h.held, fun x hx => ?_, le_refl _, Nat.le_add_right ..⟩
      have hstamp : x.2 ∈ (w.tracker.state.reap ttl' w.tracker.now).1.stamps x.1 :=
        mem_held.mp hx
      rw [stamps_reap, List.mem_filter] at hstamp
      have hfresh : w.tracker.now - x.2 < ttl' := by simpa [fresh] using hstamp.2
      show w.tracker.now < x.2 + ttl'
      omega
  | setLimits m p => exact ⟨hinv, h.held, h.young, h.reaped, h.soon⟩
  | wait d => exact ⟨hinv, h.held, h.young, Nat.le_add_right_of_le h.reaped, hreaper⟩

/-- Nothing is held before the first login. -/
theorem covers_init (m : UInt32) (p : Option UInt32) (now : Nat) :
    Covers ttl interval (init m p now) where
  inv := Tracker.inv_init m p now
  held := List.nil_subperm
  young _ hx := absurd hx List.not_mem_nil
  reaped := le_refl _
  soon := Nat.le_add_right ..

theorem Covers.run (h : Covers ttl interval w) (hpos : 0 < ttl) {es : List TrackerCall}
    (hreaper : Along Watched.step (ReaperRuns ttl interval) w es) :
    Covers ttl interval (run Watched.step w es) :=
  invariant_run (fun _ _ hc hg => hc.step hpos hg) h hreaper

/-- No slot is older than two reaps let it become. -/
theorem Covers.recent (h : Covers ttl interval w) {x : String × Nat}
    (hx : x ∈ w.tracker.state.held) : w.tracker.now < x.2 + (ttl + interval) := by
  have hyoung := h.young x hx
  have hsoon := h.soon
  omega

/-- All slots together are no more than the recent admissions. -/
theorem Covers.global_le (h : Covers ttl interval w) :
    w.tracker.state.global ≤ w.recent (ttl + interval) := by
  have hall : w.tracker.state.held.countP (fun a => w.tracker.now < a.2 + (ttl + interval)) =
      w.tracker.state.held.length :=
    List.countP_eq_length.mpr fun x hx => decide_eq_true (h.recent hx)
  calc w.tracker.state.global = w.tracker.state.held.length := by
        rw [h.inv.global_eq, length_held]
    _ ≤ w.recent (ttl + interval) := by
        rw [← hall]
        exact h.held.countP_le _

/-- The slots of one account are no more than its recent admissions. -/
theorem Covers.lenU32_le (h : Covers ttl interval w) (u : String) :
    w.tracker.state.lenU32 u ≤ w.recentOf (ttl + interval) u := by
  have hown : ((w.tracker.state.stamps u).map (Prod.mk u)).Subperm w.admitted :=
    ((List.sublist_append_left _ _).subperm.trans
      (held_perm w.tracker.state u).symm.subperm).trans h.held
  have hall : ((w.tracker.state.stamps u).map (Prod.mk u)).countP
      (fun a => a.1 = u ∧ w.tracker.now < a.2 + (ttl + interval)) =
        ((w.tracker.state.stamps u).map (Prod.mk u)).length := by
    refine List.countP_eq_length.mpr fun x hx => ?_
    obtain ⟨t, ht, rfl⟩ := List.mem_map.mp hx
    exact decide_eq_true ⟨rfl, h.recent (mem_held.mpr ht)⟩
  calc w.tracker.state.lenU32 u ≤ (w.tracker.state.stamps u).length := Nat.mod_le ..
    _ ≤ w.recentOf (ttl + interval) u := by
        rw [← List.length_map (Prod.mk u), ← hall]
        exact hown.countP_le _

end Covers

/-- **Nobody stays locked out.**  In every run in which the reaper keeps its hours, whoever is
refused is refused because the logins of the last six minutes reach a cap, those of all
accounts the global one or its own the one per account; what became of the sessions makes no
difference. -/
theorem refused_recently (m : UInt32) (p : Option UInt32) (now : Nat) (es : List TrackerCall)
    (hreaper : Along step (ReaperRuns sessionTtlSecs reapIntervalSecs) (init m p now) es)
    (u : String)
    (h : ((run step (init m p now) es).tracker.state.tryAdmit
      (run step (init m p now) es).tracker.now u).2 = false) :
    (run step (init m p now) es).tracker.state.maxGlobal ≤
        (run step (init m p now) es).recent (sessionTtlSecs + reapIntervalSecs) ∨
      ∃ c, (run step (init m p now) es).tracker.state.maxPerAccount = some c ∧
        c ≤ (run step (init m p now) es).recentOf (sessionTtlSecs + reapIntervalSecs) u := by
  have hc := (covers_init m p now).run (by decide) hreaper
  rw [tryAdmit_snd, Bool.not_eq_false', atCapacity] at h
  by_cases hglobal : (run step (init m p now) es).tracker.state.global ≥
      (run step (init m p now) es).tracker.state.maxGlobal
  · exact Or.inl (hglobal.le.trans hc.global_le)
  · rw [if_neg hglobal] at h
    cases hcap : (run step (init m p now) es).tracker.state.maxPerAccount with
    | none =>
        rw [hcap] at h
        cases h
    | some c =>
        rw [hcap] at h
        exact Or.inr ⟨c, rfl, (of_decide_eq_true h).trans (hc.lenU32_le u)⟩

/-- A camera logs in, its session dies without a logout, and four reaps pass. -/
def deadSession : List TrackerCall :=
  [.tryAdmit "cam", .wait 60, .reap 300, .wait 60, .reap 300, .wait 60, .reap 300, .wait 60,
    .reap 300]

/-- Four minutes later the camera is still refused. -/
theorem dead_session_still_counts :
    (run step (init 10 (some 1) 0) deadSession).tracker.state.maxGlobal ≤
        (run step (init 10 (some 1) 0) deadSession).recent (sessionTtlSecs + reapIntervalSecs) ∨
      ∃ c, (run step (init 10 (some 1) 0) deadSession).tracker.state.maxPerAccount = some c ∧
        c ≤ (run step (init 10 (some 1) 0) deadSession).recentOf
          (sessionTtlSecs + reapIntervalSecs) "cam" :=
  refused_recently 10 (some 1) 0 deadSession (by decide) "cam" (by decide)

end Watched

end Reoftpd

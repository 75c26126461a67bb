import Mathlib.Order.Basic
import Reoftpd.Limits
import Reoftpd.Runs

/-!
# Sessions and slots

Histories of sessions over the session tracker.  A session is admitted by `try_admit`
and then either logs out, which sends one `LoggedOut`, or dies silently; the reaper
runs at any time, and the clock goes on between events.  The tracker does not know
sessions: a logout drops the oldest slot of the account.

**A logout can uncount another session.**  A session that logs out `ttl` or more after
its admission may find its own slot reaped, and drops the slot of a session that is
still young (`logout_uncounts_live_session`).  The slots cover the young live sessions
in every state of a run exactly when no such late logout happens while every slot of
the account is needed (`slots_cover_live_iff`).

**A logout can keep a dead session's slot young.**  It drops the dead session's old slot
and leaves its own (`dead_session_keeps_slot`).  Right after a reap an account has no
more slots than sessions to show for them exactly when its young sessions that logged
out so far are no more than the young slots its logouts dropped
(`reaped_slots_bounded_iff`).
-/
namespace Reoftpd
open Runs SessionState

/-- What became of a session. -/
inductive SessionStatus where
  | live
  | loggedOut
  | died
  deriving DecidableEq

/-- An admitted session. -/
structure Session where
  user : String
  admitted : Nat
  status : SessionStatus

/-- A logout: whose it was, when the session was admitted, and the oldest slot of the
account when it came. -/
structure Departure where
  user : String
  admitted : Nat
  oldest : Option Nat

/-- The tracker, the sessions admitted so far, their logouts so far and the clock. -/
structure SlotWorld where
  tracker : SessionState
  sessions : List Session
  departures : List Departure
  now : Nat

inductive SlotEvent where
  | tryAdmit (user : String)
  | logout (k : Nat)
  | die (k : Nat)
  | reap
  | tick (d : Nat)
  | setLimits (maxGlobal : Nat) (maxPerAccount : Option Nat)
  deriving DecidableEq

namespace SlotWorld

/-- A server that has just started. -/
def init (maxGlobal : Nat) (maxPerAccount : Option Nat) (now : Nat) : SlotWorld :=
  ⟨.new maxGlobal maxPerAccount, [], [], now⟩

/-- The `k`-th session, if it is live. -/
def liveSession (w : SlotWorld) (k : Nat) : Option Session :=
  w.sessions[k]?.filter (·.status = .live)

/-- `try_admit`, and the session it admits. -/
def tryAdmit (w : SlotWorld) (u : String) : SlotWorld :=
  match w.tracker.tryAdmit w.now u with
  | (tracker, true) => { w with tracker, sessions := w.sessions ++ [⟨u, w.now, .live⟩] }
  | (tracker, false) => { w with tracker }

/-- The `k`-th session ends, as `status` says. -/
def finish (w : SlotWorld) (k : Nat) (s : Session) (status : SessionStatus) : SlotWorld :=
  { w with sessions := w.sessions.set k { s with status } }

/-- The `LoggedOut` of the session `s`, the `k`-th. -/
def logout (w : SlotWorld) (k : Nat) (s : Session) : SlotWorld :=
  { w.finish k s .loggedOut with
    tracker := receivePresenceEvent w.tracker s.user .loggedOut
    departures := w.departures ++ [⟨s.user, s.admitted, (w.tracker.stamps s.user).head?⟩] }

/-- **One event.**  A session that has ended does nothing more. -/
def step (ttl : Nat) (w : SlotWorld) : SlotEvent → SlotWorld
  | .tryAdmit u => w.tryAdmit u
  | .logout k =>
      match w.liveSession k with
      | some s => w.logout k s
      | none => w
  | .die k =>
      match w.liveSession k with
      | some s => w.finish k s .died
      | none => w
  | .reap => { w with tracker := (w.tracker.reap ttl w.now).1 }
  | .tick d => { w with now := w.now + d }
  | .setLimits m p => { w with tracker := w.tracker.setLimits m p }

/-- The number of slots held for an account. -/
def slots (w : SlotWorld) (u : String) : Nat := (w.tracker.stamps u).length

/-- The number of an account's sessions that are live and were admitted less than `ttl`
ago. -/
def freshLive (ttl : Nat) (w : SlotWorld) (u : String) : Nat :=
  w.sessions.countP fun s => s.user = u ∧ s.status = .live ∧ fresh ttl w.now s.admitted

/-- The number of an account's sessions that were admitted less than `ttl` ago and have
not logged out. -/
def freshNotLoggedOut (ttl : Nat) (w : SlotWorld) (u : String) : Nat :=
  w.sessions.countP fun s => s.user = u ∧ s.status ≠ .loggedOut ∧ fresh ttl w.now s.admitted

/-- The number of an account's logouts so far whose session was admitted less than `ttl`
ago. -/
def freshDepartures (ttl : Nat) (w : SlotWorld) (u : String) : Nat :=
  w.departures.countP fun d => d.user = u ∧ fresh ttl w.now d.admitted

/-- The number of an account's logouts so far whose oldest slot was taken less than
`ttl` ago. -/
def freshDrops (ttl : Nat) (w : SlotWorld) (u : String) : Nat :=
  w.departures.countP fun d => d.user = u ∧ d.oldest.any (fresh ttl w.now)

/-! ## What an event does -/

section Moves
variable {ttl : Nat} {w w' : SlotWorld} {u v : String} {k : Nat} {s : Session}

theorem liveSession_eq_some (h : w.liveSession k = some s) :
    w.sessions[k]? = some s ∧ s.status = .live := by
  simpa [liveSession, Option.filter_eq_some_iff] using h

/-- What one event can do.  `quiet` covers refused admissions, changed limits, the
passing of time and ends of sessions that have ended. -/
inductive SlotMove (ttl : Nat) (w : SlotWorld) : SlotEvent → SlotWorld → Prop
  | quiet (e : SlotEvent) (tracker : SessionState) (now : Nat)
      (ht : ∀ u, tracker.stamps u = w.tracker.stamps u) (hnow : w.now ≤ now)
      (he : e ≠ .reap) : SlotMove ttl w e { w with tracker, now }
  | admitted (u : String) :
      SlotMove ttl w (.tryAdmit u)
        { w with
          tracker := w.tracker.push w.now u
          sessions := w.sessions ++ [⟨u, w.now, .live⟩] }
  | loggedOut (k : Nat) (s : Session) (h : w.sessions[k]? = some s) (hs : s.status = .live) :
      SlotMove ttl w (.logout k) (w.logout k s)
  | died (k : Nat) (s : Session) (h : w.sessions[k]? = some s) (hs : s.status = .live) :
      SlotMove ttl w (.die k) (w.finish k s .died)
  | reaped : SlotMove ttl w .reap { w with tracker := (w.tracker.reap ttl w.now).1 }

/-- **Every event is one of the moves.** -/
theorem step_move (ttl : Nat) (w : SlotWorld) (e : SlotEvent) :
    SlotMove ttl w e (w.step ttl e) := by
  have hquiet (he : e ≠ .reap) : SlotMove ttl w e w :=
    .quiet e w.tracker w.now (fun _ => rfl) le_rfl he
  cases e with
  | tryAdmit u =>
      simp only [step, tryAdmit]
      rcases tryAdmit_cases w.tracker w.now u with h | h <;> rw [h]
      · exact hquiet (by simp)
      · exact .admitted u
  | logout k =>
      simp only [step]
      cases h : w.liveSession k with
      | none => exact hquiet (by simp)
      | some s => exact .loggedOut k s (liveSession_eq_some h).1 (liveSession_eq_some h).2
  | die k =>
      simp only [step]
      cases h : w.liveSession k with
      | none => exact hquiet (by simp)
      | some s => exact .died k s (liveSession_eq_some h).1 (liveSession_eq_some h).2
  | reap => exact .reaped
  | tick d => exact .quiet _ w.tracker (w.now + d) (fun _ => rfl) (Nat.le_add_right ..) (by simp)
  | setLimits m p => exact .quiet _ (w.tracker.setLimits m p) w.now (fun _ => rfl) le_rfl (by simp)

/-- The slots of an account after a logout. -/
theorem stamps_logout : (w.logout k s).tracker.stamps u =
    if u = s.user then (w.tracker.stamps u).tail else w.tracker.stamps u := by
  split
  · rename_i h
    rw [h]
    exact stamps_onLogout_self
  · rename_i h
    exact stamps_onLogout_ne h

end Moves

/-! ## The clock -/

/-- The earliest admission time that is less than `ttl` ago. -/
def cut (ttl now : Nat) : Nat := now + 1 - ttl

theorem fresh_iff_cut_le (ttl : Nat) {now t : Nat} (h : t ≤ now) :
    fresh ttl now t = true ↔ cut ttl now ≤ t := by
  simp only [fresh, cut, decide_eq_true_eq]
  omega

/-- Admissions and slots are in the past, and slots are in order. -/
structure Timed (w : SlotWorld) : Prop where
  sessions : ∀ s ∈ w.sessions, s.admitted ≤ w.now
  slots : ∀ u, ∀ t ∈ w.tracker.stamps u, t ≤ w.now
  sorted : ∀ u, (w.tracker.stamps u).Pairwise (· ≤ ·)
  departures : ∀ d ∈ w.departures, d.admitted ≤ w.now ∧ ∀ t ∈ d.oldest, t ≤ w.now

theorem Timed.finish {w : SlotWorld} {k : Nat} {s : Session} (ht : Timed w)
    (h : w.sessions[k]? = some s) (status : SessionStatus) :
    ∀ s' ∈ (w.finish k s status).sessions, s'.admitted ≤ w.now := by
  intro s' hs'
  rcases List.mem_or_eq_of_mem_set hs' with hs' | rfl
  · exact ht.sessions s' hs'
  · exact ht.sessions s (List.mem_of_getElem? h)

theorem Timed.step {w : SlotWorld} (ttl : Nat) (e : SlotEvent) (ht : Timed w) :
    Timed (w.step ttl e) := by
  have m := step_move ttl w e
  revert m
  generalize w.step ttl e = w'
  intro m
  cases m with
  | quiet _ tracker now hstamps hnow _ =>
      exact ⟨fun s hs => (ht.sessions s hs).trans hnow,
        fun u t h => (ht.slots u t (hstamps u ▸ h)).trans hnow,
        fun u => hstamps u ▸ ht.sorted u,
        fun d hd => ⟨(ht.departures d hd).1.trans hnow,
          fun t h => ((ht.departures d hd).2 t h).trans hnow⟩⟩
  | admitted u =>
      refine ⟨fun s hs => ?_, fun v t h => ?_, fun v => ?_, ht.departures⟩
      · rcases List.mem_append.mp hs with hs | hs
        · exact ht.sessions s hs
        · rw [List.mem_singleton.mp hs]
      · by_cases hv : v = u
        · subst hv
          rw [stamps_push_self] at h
          rcases List.mem_append.mp h with h | h
          · exact ht.slots v t h
          · exact (List.mem_singleton.mp h).le
        · rw [stamps_push_ne hv] at h
          exact ht.slots v t h
      · by_cases hv : v = u
        · subst hv
          rw [stamps_push_self, List.pairwise_append]
          exact ⟨ht.sorted v, List.pairwise_singleton .., fun a ha b hb => by
            rw [List.mem_singleton.mp hb]
            exact ht.slots v a ha⟩
        · rw [stamps_push_ne hv]
          exact ht.sorted v
  | loggedOut k s h _ =>
      refine ⟨ht.finish h _, fun u t hu => ?_, fun u => ?_, fun d hd => ?_⟩
      · rw [stamps_logout] at hu
        split at hu
        · exact ht.slots u t (List.mem_of_mem_tail hu)
        · exact ht.slots u t hu
      · rw [stamps_logout]
        split
        · exact (ht.sorted u).tail
        · exact ht.sorted u
      · rcases List.mem_append.mp hd with hd | hd
        · exact ht.departures d hd
        · rw [List.mem_singleton.mp hd]
          exact ⟨ht.sessions s (List.mem_of_getElem? h),
            fun t h => ht.slots s.user t (List.mem_of_mem_head? h)⟩
  | died k s h _ => exact ⟨ht.finish h _, ht.slots, ht.sorted, ht.departures⟩
  | reaped =>
      refine ⟨ht.sessions, fun u t h => ?_, fun u => ?_, ht.departures⟩
      · rw [stamps_reap] at h
        exact ht.slots u t (List.mem_of_mem_filter h)
      · rw [stamps_reap]
        exact (ht.sorted u).filter _

/-! ## Counting -/

section Counting
variable {A : Type} {p : A → Bool} {l : List A} {k : Nat} {a b : A}

/-- What replacing one entry does to a count. -/
theorem countP_set_add (h : l[k]? = some a) :
    (l.set k b).countP p + (if p a then 1 else 0) = l.countP p + (if p b then 1 else 0) := by
  induction l generalizing k with
  | nil => cases h
  | cons x l ih =>
      cases k with
      | zero =>
          obtain rfl : x = a := Option.some.inj h
          simp only [List.set_cons_zero, List.countP_cons]
          omega
      | succ k =>
          have := ih (k := k) h
          simp only [List.set_cons_succ, List.countP_cons]
          omega

/-- From its first entry on, all of a sorted list counts. -/
theorem countP_le_sorted {t x : Nat} {rest : List Nat} (h : (t :: rest).Pairwise (· ≤ ·))
    (hx : x ≤ t) : (t :: rest).countP (x ≤ ·) = rest.length + 1 := by
  rw [List.countP_eq_length.mpr, List.length_cons]
  intro a ha
  rcases List.mem_cons.mp ha with rfl | ha
  · simpa using hx
  · simpa using hx.trans (List.rel_of_pairwise_cons h ha)

end Counting

section Slots
variable {ttl : Nat} {w : SlotWorld} {u : String} {x : Nat}

/-- The number of an account's live sessions admitted at `x` or later. -/
def liveFrom (w : SlotWorld) (u : String) (x : Nat) : Nat :=
  w.sessions.countP fun s => s.user = u ∧ s.status = .live ∧ x ≤ s.admitted

/-- The number of an account's slots taken at `x` or later. -/
def slotsFrom (w : SlotWorld) (u : String) (x : Nat) : Nat :=
  (w.tracker.stamps u).countP (x ≤ ·)

theorem slotsFrom_le_slots : w.slotsFrom u x ≤ w.slots u := List.countP_le_length

theorem freshLive_eq_liveFrom (ht : Timed w) :
    w.freshLive ttl u = w.liveFrom u (cut ttl w.now) := by
  refine List.countP_congr fun s hs => ?_
  simp [fresh_iff_cut_le ttl (ht.sessions s hs)]

/-- A session that ends counts no more. -/
theorem liveFrom_finish {k : Nat} {s : Session} {status : SessionStatus}
    (h : w.sessions[k]? = some s) (hs : s.status = .live) (hst : status ≠ .live) :
    (w.finish k s status).liveFrom u x + (if s.user = u ∧ x ≤ s.admitted then 1 else 0) =
      w.liveFrom u x := by
  have hset := countP_set_add (b := { s with status })
    (p := fun s : Session => s.user = u ∧ s.status = .live ∧ x ≤ s.admitted) h
  simpa [liveFrom, SlotWorld.finish, hs, hst] using hset

/-- The slots of every account cover its live sessions, from every admission time that
is less than `ttl` ago. -/
structure Covered (ttl : Nat) (w : SlotWorld) : Prop where
  timed : Timed w
  covers : ∀ u x, cut ttl w.now ≤ x → w.liveFrom u x ≤ w.slotsFrom u x

/-- A logout that comes `ttl` or more after the admission does so while the account has
no slots, or more of them than live sessions admitted less than `ttl` ago. -/
def SparesFresh (ttl : Nat) (w : SlotWorld) : SlotEvent → Prop
  | .logout k => ∀ s ∈ w.liveSession k, fresh ttl w.now s.admitted = false →
      w.slots s.user = 0 ∨ w.freshLive ttl s.user < w.slots s.user
  | _ => True

/-- The logout of a session: the cover survives, if a late logout spares the slots that
are needed. -/
theorem Covered.logout {k : Nat} {s : Session} (hc : Covered ttl w)
    (h : w.sessions[k]? = some s) (hs : s.status = .live)
    (hlate : fresh ttl w.now s.admitted = false →
      w.slots s.user = 0 ∨ w.freshLive ttl s.user < w.slots s.user)
    (hx : cut ttl w.now ≤ x) : (w.logout k s).liveFrom u x ≤ (w.logout k s).slotsFrom u x := by
  have hlive :=
    liveFrom_finish (u := u) (x := x) h hs (show SessionStatus.loggedOut ≠ .live by simp)
  change (w.finish k s .loggedOut).liveFrom u x ≤ _
  have hcov := hc.covers u x hx
  unfold slotsFrom at hcov ⊢
  rw [stamps_logout]
  split
  · rename_i hu
    subst hu
    simp only [true_and] at hlive
    have hsorted := hc.timed.sorted s.user
    cases hst : w.tracker.stamps s.user with
    | nil =>
        rw [hst] at hcov
        simp only [List.countP_nil, List.tail_nil] at hcov ⊢
        omega
    | cons t rest =>
        rw [hst] at hcov hsorted
        rw [List.tail_cons]
        by_cases hxt : x ≤ t
        · -- every slot counts, so it takes one session less to fill the others
          rw [countP_le_sorted hsorted hxt] at hcov
          have hrest : rest.countP (x ≤ ·) = rest.length := by
            have := countP_le_sorted hsorted hxt
            simp only [List.countP_cons, hxt, decide_true, if_true] at this
            omega
          rw [hrest]
          have hslots : w.slots s.user = rest.length + 1 := by rw [slots, hst, List.length_cons]
          by_cases hf : fresh ttl w.now s.admitted = true
          · have hadm := (fresh_iff_cut_le ttl (hc.timed.sessions s (List.mem_of_getElem? h))).mp hf
            by_cases hxa : x ≤ s.admitted
            · rw [if_pos hxa] at hlive
              omega
            · -- the session itself is among those from its own admission on
              have hown := liveFrom_finish (u := s.user) (x := s.admitted) h hs
                (show SessionStatus.loggedOut ≠ .live by simp)
              have hmono : (w.finish k s .loggedOut).liveFrom s.user x ≤
                  (w.finish k s .loggedOut).liveFrom s.user s.admitted :=
                List.countP_mono_left fun a _ ha => by
                  simp only [decide_eq_true_eq] at ha ⊢
                  exact ⟨ha.1, ha.2.1, by omega⟩
              have hall := (hc.covers s.user s.admitted hadm).trans slotsFrom_le_slots
              simp only [le_refl, and_self, if_true] at hown
              omega
          · have hfl := hlate (by simpa using hf)
            rw [freshLive_eq_liveFrom hc.timed] at hfl
            have hmono : w.liveFrom s.user x ≤ w.liveFrom s.user (cut ttl w.now) :=
              List.countP_mono_left fun a _ ha => by
                simp only [decide_eq_true_eq] at ha ⊢
                exact ⟨ha.1, ha.2.1, hx.trans ha.2.2⟩
            omega
        · simp only [List.countP_cons, hxt, decide_false] at hcov
          simp only [Bool.false_eq_true, if_false, Nat.add_zero] at hcov
          omega
  · rename_i hu
    rw [if_neg (fun h => hu h.1.symm), Nat.add_zero] at hlive
    omega

/-- **The cover is kept** by every event that spares the slots that are needed. -/
theorem Covered.step {e : SlotEvent} (hc : Covered ttl w) (hg : SparesFresh ttl w e) :
    Covered ttl (w.step ttl e) := by
  refine ⟨hc.timed.step ttl e, ?_⟩
  have m := step_move ttl w e
  revert m hg
  generalize w.step ttl e = w'
  intro hg m u x hx
  cases m with
  | quiet _ tracker now hstamps hnow _ =>
      have hcov := hc.covers u x (by simp only [cut] at hx ⊢; omega)
      rwa [slotsFrom, ← hstamps u] at hcov
  | admitted v =>
      have hcov := hc.covers u x hx
      unfold liveFrom slotsFrom at hcov ⊢
      by_cases hu : u = v
      · subst hu
        rw [stamps_push_self]
        simp only [List.countP_append, List.countP_singleton, true_and]
        omega
      · rw [stamps_push_ne hu]
        simp only [List.countP_append, List.countP_singleton, Ne.symm hu, false_and, decide_false]
        simpa using hcov
  | loggedOut k s h hs =>
      refine hc.logout h hs (fun hf => hg s ?_ hf) hx
      simp [liveSession, h, hs]
  | died k s h hs =>
      have hlive := liveFrom_finish (u := u) (x := x) h hs (show SessionStatus.died ≠ .live by simp)
      have hcov := hc.covers u x hx
      change (w.finish k s .died).liveFrom u x ≤ w.slotsFrom u x
      omega
  | reaped =>
      have hcov := hc.covers u x hx
      refine hcov.trans (Nat.le_of_eq ?_)
      unfold slotsFrom
      rw [stamps_reap, List.countP_filter]
      refine List.countP_congr fun t ht => ?_
      have := fresh_iff_cut_le ttl (hc.timed.slots u t ht)
      simp only [decide_eq_true_eq, Bool.and_eq_true, this]
      exact ⟨fun h => ⟨h, hx.trans h⟩, fun h => h.1⟩

theorem covered_init (ttl m : Nat) (p : Option Nat) (now : Nat) : Covered ttl (init m p now) :=
  ⟨⟨by simp [init], by simp [init], by simp [init], by simp [init]⟩, by simp [init, liveFrom]⟩

/-- A late logout that takes a needed slot leaves fewer slots than live sessions. -/
theorem uncovered_of_not_sparesFresh {e : SlotEvent} (hg : ¬ SparesFresh ttl w e) :
    ∃ u, (w.step ttl e).slots u < (w.step ttl e).freshLive ttl u := by
  cases e with
  | logout k =>
      simp only [SparesFresh, Option.mem_def] at hg
      push Not at hg
      obtain ⟨s, hks, hlate, hne, hle⟩ := hg
      obtain ⟨h, hs⟩ := liveSession_eq_some hks
      refine ⟨s.user, ?_⟩
      have hslots : (w.step ttl (.logout k)).slots s.user = w.slots s.user - 1 := by
        simp only [SlotWorld.step, hks, slots, stamps_logout, if_true, List.length_tail]
      have hfresh : (w.step ttl (.logout k)).freshLive ttl s.user = w.freshLive ttl s.user := by
        have hset := countP_set_add (b := { s with status := SessionStatus.loggedOut })
          (p := fun s' : Session =>
            s'.user = s.user ∧ s'.status = .live ∧ fresh ttl w.now s'.admitted) h
        simp only [hlate, and_false, Bool.false_eq_true, decide_false, if_false,
          Nat.add_zero, reduceCtorEq] at hset
        simp only [SlotWorld.step, hks]
        exact hset
      omega
  | _ => exact absurd trivial hg

/-- **When the slots cover the live sessions.**  Over every run from a fresh server, in
every state on the way: every account holds at least as many slots as it has live
sessions admitted less than `ttl` ago, exactly when every late logout of the run spares
the slots that are needed. -/
theorem slots_cover_live_iff (ttl maxGlobal : Nat) (maxPerAccount : Option Nat) (now : Nat)
    (es : List SlotEvent) :
    Throughout (SlotWorld.step ttl) (fun w => ∀ u, w.freshLive ttl u ≤ w.slots u)
        (init maxGlobal maxPerAccount now) es ↔
      Along (SlotWorld.step ttl) (SparesFresh ttl) (init maxGlobal maxPerAccount now) es := by
  constructor
  · intro h
    by_contra hviol
    obtain ⟨pre, e, rest, rfl, -, hbad⟩ := exists_first_violation hviol
    obtain ⟨u, hu⟩ := uncovered_of_not_sparesFresh hbad
    have hcov := h (pre ++ [e]) ⟨rest, by simp⟩ u
    rw [run_concat] at hcov
    omega
  · intro hg
    refine (throughout_of_invariant (fun _ _ => Covered.step)
      (covered_init ttl maxGlobal maxPerAccount now) hg).mono ?_
    intro w hc u
    rw [freshLive_eq_liveFrom hc.timed]
    exact (hc.covers u _ le_rfl).trans slotsFrom_le_slots

/-- **A logout uncounts a live session.**  The first session outlives the reaper's
`ttl`; its late logout drops the slot of the second, which is 100 seconds old. -/
theorem logout_uncounts_live_session :
    ¬ ∀ (maxGlobal : Nat) (maxPerAccount : Option Nat) (now : Nat) (es : List SlotEvent),
        Throughout (SlotWorld.step sessionTtlSecs)
          (fun w => ∀ u, w.freshLive sessionTtlSecs u ≤ w.slots u)
          (init maxGlobal maxPerAccount now) es := by
  intro h
  have hcov := h 5 none 0
    [.tryAdmit "cam", .tick 250, .tryAdmit "cam", .tick 100, .reap, .logout 0] _
    List.prefix_rfl "cam"
  revert hcov
  decide

end Slots

/-! ## Slots after a reap -/

section Reaped
variable {ttl : Nat} {w : SlotWorld} {u : String} {x : Nat}

/-- The number of an account's sessions admitted at `x` or later. -/
def sessionsFrom (w : SlotWorld) (u : String) (x : Nat) : Nat :=
  w.sessions.countP fun s => s.user = u ∧ x ≤ s.admitted

/-- The number of those that have not logged out. -/
def notLoggedOutFrom (w : SlotWorld) (u : String) (x : Nat) : Nat :=
  w.sessions.countP fun s => s.user = u ∧ s.status ≠ .loggedOut ∧ x ≤ s.admitted

/-- The number of those that have. -/
def departuresFrom (w : SlotWorld) (u : String) (x : Nat) : Nat :=
  w.departures.countP fun d => d.user = u ∧ x ≤ d.admitted

/-- The number of an account's slots taken at `x` or later that logouts have dropped. -/
def dropsFrom (w : SlotWorld) (u : String) (x : Nat) : Nat :=
  w.departures.countP fun d => d.user = u ∧ d.oldest.any (x ≤ ·)

theorem sessionsFrom_finish {k : Nat} {s : Session} (h : w.sessions[k]? = some s)
    (status : SessionStatus) : (w.finish k s status).sessionsFrom u x = w.sessionsFrom u x := by
  have hset := countP_set_add (b := { s with status })
    (p := fun s : Session => s.user = u ∧ x ≤ s.admitted) h
  simpa [sessionsFrom, SlotWorld.finish] using hset

/-- The two books that are kept of an account's sessions: every admission took a slot,
which is still held or was dropped by a logout, and every session has logged out or has
not.  Slots that `reap` took are too old to be booked. -/
structure Booked (ttl : Nat) (w : SlotWorld) : Prop where
  timed : Timed w
  slots : ∀ u x, cut ttl w.now ≤ x → w.sessionsFrom u x = w.slotsFrom u x + w.dropsFrom u x
  sessions : ∀ u x, w.sessionsFrom u x = w.notLoggedOutFrom u x + w.departuresFrom u x

/-- A logout drops one slot and books it. -/
theorem slotsFrom_logout {k : Nat} {s : Session} :
    (w.logout k s).slotsFrom u x + (w.logout k s).dropsFrom u x =
      w.slotsFrom u x + w.dropsFrom u x := by
  have hdrops : (w.logout k s).dropsFrom u x = w.dropsFrom u x +
      if s.user = u ∧ (w.tracker.stamps s.user).head?.any (x ≤ ·) then 1 else 0 := by
    simp [dropsFrom, SlotWorld.logout, List.countP_append, List.countP_singleton]
  rw [hdrops]
  unfold slotsFrom
  rw [stamps_logout]
  split
  · rename_i hu
    subst hu
    cases w.tracker.stamps s.user with
    | nil => simp
    | cons t rest =>
        simp only [List.tail_cons, List.head?_cons, Option.any_some, true_and, List.countP_cons]
        omega
  · rename_i hu
    rw [if_neg (fun h => hu h.1.symm)]
    rfl

/-- A logout books the session that ends. -/
theorem notLoggedOutFrom_logout {k : Nat} {s : Session} (h : w.sessions[k]? = some s)
    (hs : s.status = .live) :
    (w.logout k s).notLoggedOutFrom u x + (w.logout k s).departuresFrom u x =
      w.notLoggedOutFrom u x + w.departuresFrom u x := by
  have hset := countP_set_add (b := { s with status := SessionStatus.loggedOut })
    (p := fun s : Session => s.user = u ∧ s.status ≠ .loggedOut ∧ x ≤ s.admitted) h
  have hdep : (w.logout k s).departuresFrom u x = w.departuresFrom u x +
      if s.user = u ∧ x ≤ s.admitted then 1 else 0 := by
    simp [departuresFrom, SlotWorld.logout, List.countP_append, List.countP_singleton]
  have hnlo : (w.logout k s).notLoggedOutFrom u x +
      (if s.user = u ∧ x ≤ s.admitted then 1 else 0) = w.notLoggedOutFrom u x := by
    simpa [notLoggedOutFrom, SlotWorld.logout, SlotWorld.finish, hs] using hset
  omega

/-- **Every event keeps the books.** -/
theorem Booked.step (e : SlotEvent) (hb : Booked ttl w) : Booked ttl (w.step ttl e) := by
  have ht := hb.timed.step ttl e
  have m := step_move ttl w e
  revert m ht
  generalize w.step ttl e = w'
  intro ht m
  cases m with
  | quiet _ tracker now hstamps hnow _ =>
      refine ⟨ht, fun u x hx => ?_, hb.sessions⟩
      have hslots := hb.slots u x (by simp only [cut] at hx ⊢; omega)
      rwa [slotsFrom, ← hstamps u] at hslots
  | admitted v =>
      refine ⟨ht, fun u x hx => ?_, fun u x => ?_⟩
      · have hslots := hb.slots u x hx
        unfold sessionsFrom slotsFrom dropsFrom at hslots ⊢
        by_cases hu : u = v
        · subst hu
          rw [stamps_push_self]
          simp only [List.countP_append, List.countP_singleton, true_and]
          omega
        · rw [stamps_push_ne hu]
          simp only [List.countP_append, List.countP_singleton, Ne.symm hu, false_and,
            decide_false]
          simpa using hslots
      · have hsessions := hb.sessions u x
        unfold sessionsFrom notLoggedOutFrom departuresFrom at hsessions ⊢
        simp only [List.countP_append, List.countP_singleton, ne_eq, reduceCtorEq,
          not_false_eq_true, true_and] at hsessions ⊢
        omega
  | loggedOut k s h hs =>
      refine ⟨ht, fun u x hx => ?_, fun u x => ?_⟩
      · rw [slotsFrom_logout]
        exact (sessionsFrom_finish h _).trans (hb.slots u x hx)
      · rw [notLoggedOutFrom_logout h hs]
        exact (sessionsFrom_finish h _).trans (hb.sessions u x)
  | died k s h hs =>
      have hnlo (u : String) (x : Nat) :
          (w.finish k s .died).notLoggedOutFrom u x = w.notLoggedOutFrom u x := by
        have hset := countP_set_add (b := { s with status := SessionStatus.died })
          (p := fun s : Session => s.user = u ∧ s.status ≠ .loggedOut ∧ x ≤ s.admitted) h
        simpa [notLoggedOutFrom, SlotWorld.finish, hs] using hset
      exact ⟨ht, fun u x hx => (sessionsFrom_finish h _).trans (hb.slots u x hx),
        fun u x => by rw [sessionsFrom_finish h, hnlo]; exact hb.sessions u x⟩
  | reaped =>
      refine ⟨ht, fun u x hx => (hb.slots u x hx).trans ?_, hb.sessions⟩
      refine congrArg (· + w.dropsFrom u x) ?_
      unfold slotsFrom
      rw [stamps_reap, List.countP_filter]
      refine List.countP_congr fun t h => ?_
      have := fresh_iff_cut_le ttl (hb.timed.slots u t h)
      simp only [decide_eq_true_eq, Bool.and_eq_true, this]
      exact ⟨fun h => ⟨h, hx.trans h⟩, fun h => h.1⟩

theorem booked_init (ttl m : Nat) (p : Option Nat) (now : Nat) : Booked ttl (init m p now) :=
  ⟨(covered_init ttl m p now).timed,
    by simp [init, sessionsFrom, slotsFrom, dropsFrom],
    by simp [init, sessionsFrom, notLoggedOutFrom, departuresFrom]⟩

/-- The slots a reap leaves are those taken less than `ttl` ago. -/
theorem slots_reap (ht : Timed w) :
    (w.step ttl .reap).slots u = w.slotsFrom u (cut ttl w.now) := by
  simp only [SlotWorld.step, slots, slotsFrom, stamps_reap, ← List.countP_eq_length_filter]
  refine List.countP_congr fun t h => ?_
  simp [fresh_iff_cut_le ttl (ht.slots u t h)]

/-- One reap: its slots are bounded exactly when the young departures are. -/
theorem Booked.reap_iff (hb : Booked ttl w) :
    (w.step ttl .reap).slots u ≤ (w.step ttl .reap).freshNotLoggedOut ttl u ↔
      w.freshDepartures ttl u ≤ w.freshDrops ttl u := by
  have hnlo : (w.step ttl .reap).freshNotLoggedOut ttl u =
      w.notLoggedOutFrom u (cut ttl w.now) := by
    refine List.countP_congr fun s hs => ?_
    simp [SlotWorld.step, fresh_iff_cut_le ttl (hb.timed.sessions s hs)]
  have hdep : w.freshDepartures ttl u = w.departuresFrom u (cut ttl w.now) := by
    refine List.countP_congr fun d hd => ?_
    simp [fresh_iff_cut_le ttl (hb.timed.departures d hd).1]
  have hdrops : w.freshDrops ttl u = w.dropsFrom u (cut ttl w.now) := by
    refine List.countP_congr fun d hd => ?_
    cases ho : d.oldest with
    | none => simp
    | some t => simp [fresh_iff_cut_le ttl ((hb.timed.departures d hd).2 t ho)]
  rw [slots_reap hb.timed, hnlo, hdep, hdrops]
  have h1 := hb.slots u (cut ttl w.now) le_rfl
  have h2 := hb.sessions u (cut ttl w.now)
  omega

/-- **When a reap leaves no slot too many.**  Over every run from a fresh server: right
after every reap of the run no account holds more slots than it has sessions that were
admitted less than `ttl` ago and have not logged out, exactly when at every reap, for
every account, the logouts so far whose session was admitted less than `ttl` ago are no
more than those that came while the account's oldest slot was taken less than `ttl`
ago. -/
theorem reaped_slots_bounded_iff (ttl maxGlobal : Nat) (maxPerAccount : Option Nat) (now : Nat)
    (es : List SlotEvent) :
    Along (SlotWorld.step ttl)
        (fun w e => e = .reap →
          ∀ u, (w.step ttl e).slots u ≤ (w.step ttl e).freshNotLoggedOut ttl u)
        (init maxGlobal maxPerAccount now) es ↔
      Along (SlotWorld.step ttl)
        (fun w e => e = .reap → ∀ u, w.freshDepartures ttl u ≤ w.freshDrops ttl u)
        (init maxGlobal maxPerAccount now) es := by
  refine along_iff_of_invariant (fun _ e => Booked.step e) ?_ (booked_init ttl _ _ _)
  intro w e hb
  refine imp_congr_right fun he => forall_congr' fun u => ?_
  subst he
  exact hb.reap_iff

/-- **A dead session keeps a slot.**  The first session dies, the second logs out and
drops the slot of the first; its own slot is still young when the first is 300 seconds
old. -/
theorem dead_session_keeps_slot :
    ¬ ∀ (maxGlobal : Nat) (maxPerAccount : Option Nat) (now : Nat) (es : List SlotEvent),
        Along (SlotWorld.step sessionTtlSecs)
          (fun w e => e = .reap → ∀ u, (w.step sessionTtlSecs e).slots u ≤
            (w.step sessionTtlSecs e).freshNotLoggedOut sessionTtlSecs u)
          (init maxGlobal maxPerAccount now) es := by
  intro h
  have hbound := h 5 none 0 ([.tryAdmit "cam", .tick 200, .tryAdmit "cam", .die 0, .tick 50,
    .logout 1, .tick 50] ++ [.reap])
  have hreap := (along_concat.mp hbound).2 rfl "cam"
  revert hreap
  decide

end Reaped

end SlotWorld

end Reoftpd

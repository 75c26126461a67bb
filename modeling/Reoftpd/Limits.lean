import Reoftpd.AssocMap

/-!
# The session tracker

`SessionTracker` (`limits.rs`) and the presence listener that feeds it
(`presence.rs`).  An account's slots are the admission times of its sessions, oldest
first; nothing says which session a slot belongs to.  Times are in seconds of a clock
that never goes back, and every operation gets the current one.
-/
namespace Reoftpd

/-- `SESSION_TTL_SECS`. -/
def sessionTtlSecs : Nat := 300

/-- The largest `u32`. -/
def u32Max : Nat := 4294967295

/-- `SessionState`. -/
structure SessionState where
  perAccount : AList fun _ : String => List Nat
  global : Nat
  maxGlobal : Nat
  maxPerAccount : Option Nat

namespace SessionState

/-- `SessionTracker::new`. -/
def new (maxGlobal : Nat) (maxPerAccount : Option Nat) : SessionState :=
  ⟨∅, 0, maxGlobal, maxPerAccount⟩

/-- The admission times of the slots held for an account. -/
def stamps (s : SessionState) (username : String) : List Nat :=
  (s.perAccount.lookup username).getD []

/-- The number of slots held for an account, as `v.len() as u32` gives it. -/
def lenU32 (s : SessionState) (username : String) : Nat := (s.stamps username).length % 4294967296

/-- `entry(..).or_default().push(Instant::now())` and the global count. -/
def push (s : SessionState) (now : Nat) (username : String) : SessionState :=
  { s with
    perAccount := s.perAccount.insert username (s.stamps username ++ [now])
    global := min (s.global + 1) u32Max }

/-- `at_capacity`. -/
def atCapacity (s : SessionState) (username : String) : Bool :=
  if s.global ≥ s.maxGlobal then true
  else
    match s.maxPerAccount with
    | some m => decide (s.lenU32 username ≥ m)
    | none => false

/-- `try_admit`. -/
def tryAdmit (s : SessionState) (now : Nat) (username : String) : SessionState × Bool :=
  if s.global ≥ s.maxGlobal then (s, false)
  else if s.maxPerAccount.any (s.lenU32 username ≥ ·) then (s, false)
  else (s.push now username, true)

/-- `on_logout`: the oldest slot of the account goes, whichever session logged out. -/
def onLogout (s : SessionState) (username : String) : SessionState :=
  match s.perAccount.lookup username with
  | none => s
  | some [] => { s with perAccount := s.perAccount.erase username }
  | some [_] =>
      { s with
        perAccount := s.perAccount.erase username
        global := s.global - 1 }
  | some (_ :: rest) =>
      { s with
        perAccount := s.perAccount.insert username rest
        global := s.global - 1 }

/-- `now.duration_since(t) < ttl`. -/
def fresh (ttl now t : Nat) : Bool := decide (now - t < ttl)

/-- What `reap` leaves of one account. -/
def reapAccount (ttl now : Nat) (v : List Nat) : Option (List Nat) :=
  if v.filter (fresh ttl now) = [] then none else some (v.filter (fresh ttl now))

/-- How many slots `reap` takes from one account, as `u32`. -/
def reapedFrom (ttl now : Nat) (v : List Nat) : Nat :=
  (v.length - (v.filter (fresh ttl now)).length) % 4294967296

/-- The count of reaped slots, which wraps around. -/
def reaped (s : SessionState) (ttl now : Nat) : Nat :=
  s.perAccount.entries.foldl (fun n e => (n + reapedFrom ttl now e.2) % 4294967296) 0

/-- `reap`. -/
def reap (s : SessionState) (ttl now : Nat) : SessionState × Nat :=
  ({ s with
      perAccount := s.perAccount.retain (reapAccount ttl now)
      global := s.global - s.reaped ttl now },
    s.reaped ttl now)

/-- `set_limits`. -/
def setLimits (s : SessionState) (maxGlobal : Nat) (maxPerAccount : Option Nat) : SessionState :=
  { s with maxGlobal, maxPerAccount }

/-! ## The slots after each operation -/

section Stamps
variable {s : SessionState} {now ttl : Nat} {u v : String}

@[simp] theorem stamps_new (m : Nat) (p : Option Nat) : (new m p).stamps u = [] := rfl

@[simp] theorem stamps_setLimits (m : Nat) (p : Option Nat) :
    (s.setLimits m p).stamps u = s.stamps u := rfl

theorem stamps_push_self : (s.push now u).stamps u = s.stamps u ++ [now] := by
  simp [push, stamps]

theorem stamps_push_ne (h : v ≠ u) : (s.push now u).stamps v = s.stamps v := by
  simp [push, stamps, AList.lookup_insert_ne h]

/-- An admission takes a slot of its own, or changes nothing. -/
theorem tryAdmit_cases (s : SessionState) (now : Nat) (u : String) :
    s.tryAdmit now u = (s, false) ∨ s.tryAdmit now u = (s.push now u, true) := by
  unfold tryAdmit
  split
  · exact Or.inl rfl
  · split
    · exact Or.inl rfl
    · exact Or.inr rfl

theorem stamps_onLogout_self : (s.onLogout u).stamps u = (s.stamps u).tail := by
  unfold onLogout stamps
  rcases h : s.perAccount.lookup u with _ | (_ | ⟨t, (_ | ⟨t', rest⟩)⟩) <;> simp [h]

theorem stamps_onLogout_ne (h : v ≠ u) : (s.onLogout u).stamps v = s.stamps v := by
  unfold onLogout stamps
  split <;> simp [AList.lookup_erase_ne h, AList.lookup_insert_ne h]

theorem stamps_reap : (s.reap ttl now).1.stamps u = (s.stamps u).filter (fresh ttl now) := by
  simp only [reap, stamps, AList.lookup_retain]
  cases h : s.perAccount.lookup u with
  | none => rfl
  | some v =>
      simp only [Option.bind_some, reapAccount, Option.getD_some]
      split
      · rename_i hv
        rw [hv]
        rfl
      · rfl

end Stamps

end SessionState

/-! ## Presence events -/

/-- `PresenceEvent`. -/
inductive PresenceEvent where
  | loggedIn
  | loggedOut

/-- `ReoPresenceListener::receive_presence_event`: admission is counted at the auth gate. -/
def receivePresenceEvent (s : SessionState) (username : String) : PresenceEvent → SessionState
  | .loggedIn => s
  | .loggedOut => s.onLogout username

end Reoftpd

import Reoftpd.HomesKept
import Reoftpd.LoginReload
import Reoftpd.TrackerRuns

/-!
# Runs of a server that reloads

`reload_config` as one call, between logins, logouts and reaps, each a whole call too.
Nothing is promised of the config file: it may be unreadable or hold any text, and the
home of a camera may fail to be made.

**Every reload applies its config whole or not at all** (`reload_fail_safe`): whatever the
run, the account map and the two caps are those of the last config that a reload returned
`Ok` for, a reload that returns an error leaves the server as it was, and none touches a
session that is counted.  Every step of the call that can fail comes before the first of
its two stores (`reloadConfig_cases`).
-/
namespace Reoftpd
open Runs SessionState FileTree

/-- A server on its file system. -/
structure Running where
  server : Server
  tree : FileTree

/-- **`reload_config`**, on what reading the file gives.  `fault` says where making the
homes fails by itself. -/
def reloadConfig (toml : String → Except String Config) (age : Age) (fault : MkdirFault)
    (file : Except String String) (s : Running) : Running × Except String Unit :=
  match load toml age file with
  | .error e => (s, .error ("reload: " ++ e.display))
  | .ok cfg =>
      match ensureHomeDirs fault cfg s.tree with
      | (t, .error e) =>
          ({ s with tree := t }, .error ("reload: ensure_home_dirs: " ++ errnoText e))
      | (t, .ok ()) =>
          ({ server :=
              { accounts := build cfg
                tracker := s.server.tracker.setLimits cfg.limits.maxConnections
                  cfg.limits.maxConnectionsPerAccount }
             tree := t },
            .ok ())

/-- What happens to a running server, a whole call at a time: a reload, a login, the end of
a session, a reap, or a change to the file system by anything else. -/
inductive ServerEvent where
  | reload (fault : MkdirFault) (file : Except String String)
  | login (username : String) (creds : Credentials) (now : Nat)
  | logout (username : String)
  | reap (ttl now : Nat)
  | files (t : FileTree)

/-- The three shared accesses of a login, one after the other. -/
def login (verify : String → String → Except String Bool) (username : String)
    (creds : Credentials) (now : Nat) (s : Server) : SessionState × LoginPc :=
  (fun q => loginStep verify username creds now s.accounts q.1 q.2)^[3] (s.tracker, .start)

/-- **One call.** -/
def serverStep (toml : String → Except String Config) (age : Age)
    (verify : String → String → Except String Bool) (s : Running) : ServerEvent → Running
  | .reload fault file => (reloadConfig toml age fault file s).1
  | .login username creds now =>
      { s with
        server := { s.server with tracker := (login verify username creds now s.server).1 } }
  | .logout username =>
      { s with
        server :=
          { s.server with tracker := receivePresenceEvent s.server.tracker username .loggedOut } }
  | .reap ttl now =>
      { s with server := { s.server with tracker := (s.server.tracker.reap ttl now).1 } }
  | .files t => { s with tree := t }

/-- The config an event puts in force: that of a reload which returns `Ok`. -/
def ServerEvent.loads (toml : String → Except String Config) (age : Age) (s : Running) :
    ServerEvent → Option Config
  | .reload fault file =>
      match load toml age file, (reloadConfig toml age fault file s).2 with
      | .ok cfg, .ok () => some cfg
      | _, _ => none
  | _ => none

/-- The config of the last reload that returned `Ok` along a run, or the one the server
started with. -/
def lastLoaded (toml : String → Except String Config) (age : Age)
    (verify : String → String → Except String Bool) :
    Config → Running → List ServerEvent → Config
  | cfg, _, [] => cfg
  | cfg, s, e :: es =>
      lastLoaded toml age verify ((e.loads toml age s).getD cfg)
        (serverStep toml age verify s e) es

/-- The accounts and the caps of a server are those of a config. -/
structure Server.InForce (cfg : Config) (s : Server) : Prop where
  accounts : s.accounts = build cfg
  maxGlobal : s.tracker.maxGlobal = cfg.limits.maxConnections
  maxPerAccount : s.tracker.maxPerAccount = cfg.limits.maxConnectionsPerAccount

/-- Two trackers count the same sessions. -/
structure SessionState.SameSessions (s s' : SessionState) : Prop where
  perAccount : s'.perAccount = s.perAccount
  global : s'.global = s.global

/-- The server `run` starts with. -/
def Config.startServer (cfg : Config) (t : FileTree) : Running :=
  ⟨⟨build cfg, .new cfg.limits.maxConnections cfg.limits.maxConnectionsPerAccount⟩, t⟩

/-- What a reload promises in a state: an error leaves the server as it was, and no session
is counted or forgotten. -/
structure ReloadsWhole (toml : String → Except String Config) (age : Age) (s : Running) :
    Prop where
  unchanged : ∀ fault file e, (reloadConfig toml age fault file s).2 = .error e →
    (reloadConfig toml age fault file s).1.server = s.server
  sessions : ∀ fault file,
    s.server.tracker.SameSessions (reloadConfig toml age fault file s).1.server.tracker

section Reloads
variable {toml : String → Except String Config} {age : Age}
  {verify : String → String → Except String Bool} {cfg : Config} {s : Running}

/-- **What a reload can do**: fail and leave the server alone, or put the config it has
loaded in force. -/
theorem reloadConfig_cases (toml : String → Except String Config) (age : Age)
    (fault : MkdirFault) (file : Except String String) (s : Running) :
    (∃ e, (reloadConfig toml age fault file s).2 = .error e ∧
        (reloadConfig toml age fault file s).1.server = s.server) ∨
      ∃ cfg, load toml age file = .ok cfg ∧ (reloadConfig toml age fault file s).2 = .ok () ∧
        (reloadConfig toml age fault file s).1.server =
          ⟨build cfg, s.server.tracker.setLimits cfg.limits.maxConnections
            cfg.limits.maxConnectionsPerAccount⟩ := by
  unfold reloadConfig
  cases hload : load toml age file with
  | error e => exact Or.inl ⟨_, rfl, rfl⟩
  | ok cfg =>
      simp only
      split
      · exact Or.inl ⟨_, rfl, rfl⟩
      · exact Or.inr ⟨cfg, rfl, rfl, rfl⟩

/-- The call as the accesses of a reload: what it reads, and how making the homes fails. -/
def reloadCall (toml : String → Except String Config) (age : Age) (fault : MkdirFault)
    (file : Except String String) (s : Running) : ReloadCall where
  loaded := file.mapError .read >>= parseStr toml
  homes :=
    match load toml age file with
    | .error _ => none
    | .ok cfg =>
        match (ensureHomeDirs fault cfg s.tree).2 with
        | .error e => some e
        | .ok () => none

/-- A file that does not load fails the first access. -/
theorem reloadCall_load_error {fault : MkdirFault} {file : Except String String} {e : ConfigError}
    (h : load toml age file = .error e) :
    (reloadCall toml age fault file s).load age = .failed := by
  unfold ReloadCall.load
  cases hread : (reloadCall toml age fault file s).loaded with
  | error e => rfl
  | ok cfg =>
      cases hvalid : cfg.validate age with
      | error e => simp only [hvalid]
      | ok v =>
          have hok : load toml age file = .ok cfg := load_ok_iff.mpr ⟨hread, hvalid⟩
          rw [hok] at h
          cases h

/-- A config that loads gets to the swap once its homes are made. -/
theorem reloadCall_load_ok {fault : MkdirFault} {file : Except String String}
    (h : load toml age file = .ok cfg) :
    (reloadCall toml age fault file s).load age =
      if (ensureHomeDirs fault cfg s.tree).2.isOk then .swap cfg else .failed := by
  obtain ⟨hread, hvalid⟩ := load_ok_iff.mp h
  simp only [ReloadCall.load, reloadCall, hread, hvalid, h]
  cases (ensureHomeDirs fault cfg s.tree).2 <;> rfl

/-- `reload_config` is the three shared accesses of a reload, one after the other. -/
theorem reloadConfig_steps (toml : String → Except String Config) (age : Age)
    (fault : MkdirFault) (file : Except String String) (s : Running) :
    ((fun q => reloadStep age (reloadCall toml age fault file s) q.1 q.2)^[3]
        (s.server, .start)).1 = (reloadConfig toml age fault file s).1.server := by
  have hfirst : reloadStep age (reloadCall toml age fault file s) s.server .start =
    (s.server, (reloadCall toml age fault file s).load age) := rfl
  simp only [Function.iterate_succ, Function.iterate_zero, Function.comp_apply, id_eq, hfirst]
  unfold reloadConfig
  cases hload : load toml age file with
  | error e =>
      rw [reloadCall_load_error hload]
      rfl
  | ok cfg =>
      rw [reloadCall_load_ok hload]
      rcases hhomes : ensureHomeDirs fault cfg s.tree with ⟨t, e | ⟨⟩⟩ <;>
        simp only [hhomes] <;> rfl

/-- **Every reload is whole.** -/
theorem reloadsWhole (toml : String → Except String Config) (age : Age) (s : Running) :
    ReloadsWhole toml age s where
  unchanged fault file e he := by
    rcases reloadConfig_cases toml age fault file s with ⟨-, -, hs⟩ | ⟨cfg, -, hok, -⟩
    · exact hs
    · rw [hok] at he
      cases he
  sessions fault file := by
    rcases reloadConfig_cases toml age fault file s with ⟨-, -, hs⟩ | ⟨cfg, -, -, hs⟩ <;>
      rw [hs] <;> exact ⟨rfl, rfl⟩

/-- A call on the tracker that sets no caps. -/
theorem Server.InForce.call {s : Server} (h : s.InForce cfg) (now : Nat) (e : TrackerCall)
    (he : ∀ m p, e ≠ .setLimits m p) :
    Server.InForce cfg { s with tracker := (Tracker.step ⟨s.tracker, now⟩ e).state } := by
  obtain ⟨hglobal, haccount⟩ := Tracker.step_caps ⟨s.tracker, now⟩ e he
  exact ⟨h.accounts, hglobal.trans h.maxGlobal, haccount.trans h.maxPerAccount⟩

/-- A login asks the tracker at most once. -/
theorem Server.InForce.login {s : Server} (h : s.InForce cfg) (username : String)
    (creds : Credentials) (now : Nat) :
    Server.InForce cfg { s with tracker := (login verify username creds now s).1 } := by
  have hstep : ∀ q : SessionState × LoginPc, Server.InForce cfg { s with tracker := q.1 } →
      Server.InForce cfg
        { s with tracker := (loginStep verify username creds now s.accounts q.1 q.2).1 } := by
    rintro ⟨tracker, pc⟩ hq
    cases pc with
    | start =>
        simp only [loginStep]
        split <;> exact hq
    | verified acct =>
        have hadmit := hq.call now (.tryAdmit username) (by simp)
        simp only [loginStep]
        rcases ha : tracker.tryAdmit now username with ⟨tracker', _ | _⟩ <;>
          simpa [Tracker.step, ha] using hadmit
    | admitted acct =>
        simp only [loginStep]
        split <;> exact hq
    | user u acct => exact hq
    | refused e => exact hq
    | userNotFound => exact hq
  exact hstep _ (hstep _ (hstep _ h))

/-- **One call** leaves the config in force that it puts there, or else the one that was. -/
theorem Server.InForce.step (h : s.server.InForce cfg) (e : ServerEvent) :
    (serverStep toml age verify s e).server.InForce ((e.loads toml age s).getD cfg) := by
  cases e with
  | reload fault file =>
      simp only [serverStep, ServerEvent.loads]
      rcases reloadConfig_cases toml age fault file s with ⟨e, he, hs⟩ | ⟨loaded, hload, hok, hs⟩
      · rw [he, hs]
        cases load toml age file <;> exact h
      · rw [hload, hok, hs]
        exact ⟨rfl, rfl, rfl⟩
  | login username creds now => exact h.login username creds now
  | logout username => exact h.call 0 (.onLogout username) (by simp)
  | reap ttl now => exact h.call now (.reap ttl) (by simp)
  | files t => exact h

theorem Server.InForce.run (h : s.server.InForce cfg) (es : List ServerEvent) :
    (run (serverStep toml age verify) s es).server.InForce
      (lastLoaded toml age verify cfg s es) := by
  induction es generalizing cfg s with
  | nil => exact h
  | cons e es ih => exact ih (h.step e)

end Reloads

/-- **Reloading is fail-safe over every run** of a server: after any calls its accounts and
its caps are those of the last config that loaded, and whatever a reload meets then, an
error changes nothing and no session count changes. -/
theorem reload_fail_safe (toml : String → Except String Config) (age : Age)
    (verify : String → String → Except String Bool) (cfg : Config) (t : FileTree)
    (events : List ServerEvent) :
    (run (serverStep toml age verify) (cfg.startServer t) events).server.InForce
        (lastLoaded toml age verify cfg (cfg.startServer t) events) ∧
      ReloadsWhole toml age (run (serverStep toml age verify) (cfg.startServer t) events) := by
  have hstart : (cfg.startServer t).server.InForce cfg := ⟨rfl, rfl, rfl⟩
  exact ⟨hstart.run events, reloadsWhole toml age _⟩

end Reoftpd

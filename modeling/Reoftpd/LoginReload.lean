import Reoftpd.Auth
import Reoftpd.Runs

/-!
# A login across reloads

One login interleaved with any number of `reload_config` calls (`server.rs`), each taken
one shared access at a time.  A reload that fails before its swap changes nothing; one
that swaps the account map in then sets the caps.

**A login can end with another account's privileges.**  Its two halves load the account
map independently and agree on nothing but the user name, so a reload in between that
turns a camera into a viewer of the same name gives the camera's password the viewer's
scope (`login_gets_other_role`).  The user of a login has the role and the TLS
requirement of the record that was verified exactly when the last config swapped in
between the two loads, if any, gives the login that same role and requirement
(`login_privileges_iff`).
-/
namespace Reoftpd
open Runs SessionState

/-- One `reload_config` call: what reading and parsing the file gives, and with which
error the homes fail to be made, if they do. -/
structure ReloadCall where
  loaded : Except ConfigError Config
  homes : Option Errno

/-- How far a reload has come. -/
inductive ReloadPc where
  | start
  | swap (cfg : Config)
  | setLimits (cfg : Config)
  | done
  | failed

/-- The state the tasks share: the account map in force and the session tracker. -/
structure Server where
  accounts : Accounts
  tracker : SessionState

/-- What `load` and `ensure_home_dirs` lead to: only a config that validates gets on. -/
def ReloadCall.load (age : Age) (call : ReloadCall) : ReloadPc :=
  match call.loaded with
  | .error _ => .failed
  | .ok cfg =>
      match cfg.validate age with
      | .error _ => .failed
      | .ok () =>
          match call.homes with
          | some _ => .failed
          | none => .swap cfg

/-- **One shared access of a reload.** -/
def reloadStep (age : Age) (call : ReloadCall) (s : Server) : ReloadPc → Server × ReloadPc
  | .start => (s, call.load age)
  | .swap cfg => ({ s with accounts := build cfg }, .setLimits cfg)
  | .setLimits cfg =>
      ({ s with
          tracker := s.tracker.setLimits cfg.limits.maxConnections
            cfg.limits.maxConnectionsPerAccount },
        .done)
  | pc => (s, pc)

variable {κ : Type} [DecidableEq κ]

/-- One login and the reloads.  `swapped` is there for the statements: the last config
swapped in between the two loads of the login. -/
structure LoginRace (κ : Type) where
  server : Server
  login : LoginPc
  reloads : κ → ReloadPc
  swapped : Option Config

/-- Who moves: the login, at a time, or a reload. -/
inductive LoginEvent (κ : Type) where
  | login (now : Nat)
  | reload (k : κ)

/-- Whether a login is between its two loads of the account map. -/
def LoginPc.between : LoginPc → Bool
  | .verified _ | .admitted _ => true
  | _ => false

/-- The config a reload is about to swap in, if that is its next step. -/
def ReloadPc.swaps : ReloadPc → Option Config
  | .swap cfg => some cfg
  | _ => none

/-- **A step of the race.** -/
def loginRaceStep (age : Age) (verify : String → String → Except String Bool)
    (calls : κ → ReloadCall) (username : String) (creds : Credentials) (c : LoginRace κ) :
    LoginEvent κ → LoginRace κ
  | .login now =>
      let r := loginStep verify username creds now c.server.accounts c.server.tracker c.login
      { c with
        server := { c.server with tracker := r.1 }
        login := r.2 }
  | .reload k =>
      let r := reloadStep age (calls k) c.server (c.reloads k)
      { c with
        server := r.1
        reloads := Function.update c.reloads k r.2
        swapped := if c.login.between then (c.reloads k).swaps <|> c.swapped else c.swapped }

section Login
variable {age : Age} {verify : String → String → Except String Bool} {calls : κ → ReloadCall}
  {username : String} {creds : Credentials} {c : LoginRace κ}

/-- What a login knows of the account map: between its loads, the map in force is the
one it loaded, or the last one swapped in since; the user it ends with is made from
that map. -/
def Knows (username : String) (c : LoginRace κ) : Prop :=
  match c.login with
  | .start => c.swapped = none
  | .verified acct | .admitted acct =>
      match c.swapped with
      | none => c.server.accounts.get username = some acct
      | some cfg => c.server.accounts = build cfg
  | .user u acct =>
      match c.swapped with
      | none => u = acct.user
      | some cfg => ∃ b, (build cfg).get username = some b ∧ u = b.user
  | .refused _ | .userNotFound => True

/-- The login's own step. -/
theorem Knows.login {now : Nat} (h : Knows username c) :
    Knows username (loginRaceStep age verify calls username creds c (.login now)) := by
  unfold Knows at h ⊢
  cases hl : c.login with
  | start =>
      simp only [hl] at h
      simp only [loginRaceStep, hl, loginStep]
      cases hc : checkLogin verify c.server.accounts username creds with
      | error e => trivial
      | ok acct =>
          simp only [h]
          exact (checkLogin_ok hc).1
  | verified acct =>
      simp only [hl] at h
      simp only [loginRaceStep, hl, loginStep]
      rcases tryAdmit_cases c.server.tracker now username with ht | ht <;> rw [ht]
      · trivial
      · exact h
  | admitted acct =>
      simp only [hl] at h
      simp only [loginRaceStep, hl, loginStep, provideUserDetail]
      -- without a swap the account is still in the server's table
      cases hs : c.swapped with
      | none =>
          simp only [hs] at h
          simp only [h, Option.map_some]
      | some cfg =>
          simp only [hs] at h
          simp only [h]
          cases hb : (build cfg).get username with
          | none => trivial
          | some b => exact ⟨b, rfl, rfl⟩
  | user u acct =>
      simp only [hl] at h
      simp only [loginRaceStep, hl, loginStep]
      exact h
  | refused e => simp only [loginRaceStep, hl, loginStep]
  | userNotFound => simp only [loginRaceStep, hl, loginStep]

/-- A reload changes the account map in its swap, and in no other step. -/
theorem reloadStep_accounts (age : Age) (call : ReloadCall) (s : Server) (p : ReloadPc) :
    (reloadStep age call s p).1.accounts =
      match p.swaps with
      | some cfg => build cfg
      | none => s.accounts := by
  cases p <;> rfl

/-- A reload's step. -/
theorem Knows.reload {k : κ} (h : Knows username c) :
    Knows username (loginRaceStep age verify calls username creds c (.reload k)) := by
  have haccounts := reloadStep_accounts age (calls k) c.server (c.reloads k)
  have hbetween (hb : c.login.between = true) :
      (loginRaceStep age verify calls username creds c (.reload k)).swapped =
        ((c.reloads k).swaps <|> c.swapped) := if_pos hb
  have hapart (hb : c.login.between = false) :
      (loginRaceStep age verify calls username creds c (.reload k)).swapped = c.swapped :=
    if_neg (by simp [hb])
  have hlogin : (loginRaceStep age verify calls username creds c (.reload k)).login = c.login := rfl
  have hserver : (loginRaceStep age verify calls username creds c (.reload k)).server.accounts =
      (reloadStep age (calls k) c.server (c.reloads k)).1.accounts := rfl
  unfold Knows at h ⊢
  rw [hlogin]
  cases hl : c.login with
  | start | user u acct =>
      rw [hapart (by rw [hl]; rfl)]
      rw [hl] at h
      exact h
  | verified acct | admitted acct =>
      rw [hbetween (by rw [hl]; rfl), hserver, haccounts]
      rw [hl] at h
      cases hs : (c.reloads k).swaps with
      | some cfg => rfl
      | none => exact h
  | refused e | userNotFound => trivial

/-- **Whose privileges a login ends with.**  Over every run of a login and reloads that
ends the login with the user `u`, `acct` being the record whose password was verified
and whose TLS gate was applied: `u` has the role and the TLS requirement of `acct`
exactly when the last config swapped in between the two loads, if any, gives the login
that same role and requirement. -/
theorem login_privileges_iff (age : Age) (verify : String → String → Except String Bool)
    (calls : κ → ReloadCall) (username : String) (creds : Credentials) (c : LoginRace κ)
    (es : List (LoginEvent κ)) (u : ReoUser) (acct : Account) (hstart : c.login = .start)
    (hswapped : c.swapped = none)
    (hend : (run (loginRaceStep age verify calls username creds) c es).login = .user u acct) :
    (u.role = acct.role ∧ u.requireTls = acct.requireTls) ↔
      ∀ cfg ∈ (run (loginRaceStep age verify calls username creds) c es).swapped,
        ∃ b, (build cfg).get username = some b ∧
          b.role = acct.role ∧ b.requireTls = acct.requireTls := by
  -- both parties' steps keep what the login knows of the table
  have hknows : Knows username (run (loginRaceStep age verify calls username creds) c es) := by
    refine invariant_run (G := fun _ _ => True) ?_ ?_ (along_of_forall (fun _ _ => trivial) c es)
    · rintro c (now | k) h -
      · exact h.login
      · exact h.reload
    · unfold Knows
      rw [hstart]
      exact hswapped
  unfold Knows at hknows
  rw [hend] at hknows
  cases hs : (run (loginRaceStep age verify calls username creds) c es).swapped with
  | none =>
      rw [hs] at hknows
      obtain rfl := hknows
      simp [Account.user]
  | some cfg =>
      rw [hs] at hknows
      obtain ⟨b, hb, rfl⟩ := hknows
      simp only [Option.mem_def, Option.some.injEq, forall_eq', hb, Account.user]
      simp

/-- The record a login ends with was verified. -/
theorem login_verified {es : List (LoginEvent κ)} {u : ReoUser} {acct : Account}
    (hstart : c.login = .start)
    (hend : (run (loginRaceStep age verify calls username creds) c es).login = .user u acct) :
    acct.VerifiedBy verify creds := by
  have hinv : ∀ a ∈ (run (loginRaceStep age verify calls username creds) c es).login.record,
      a.VerifiedBy verify creds := by
    refine invariant_run (I := fun c : LoginRace κ =>
      ∀ a ∈ c.login.record, a.VerifiedBy verify creds) (G := fun _ _ => True) ?_ ?_
      (along_of_forall (fun _ _ => trivial) c es)
    · rintro c (now | k) h -
      · exact loginStep_verified h
      · exact h
    · rw [hstart]
      simp [LoginPc.record]
  exact hinv acct (by rw [hend]; rfl)

/-- A config of one account on `/srv`, for the examples. -/
def oneAccount (camera : List CameraCfg) (viewer : List ViewerCfg) : Config :=
  { server := ⟨50000, 50100⟩
    archive := ⟨UnixPath.ofString "/srv", 30⟩
    limits := ⟨256, none⟩
    camera, group := ∅, viewer, encryption := none }

/-- A camera `cam`. -/
def camConfig : Config := oneAccount [⟨"cam", none, "hash", none⟩] []

/-- A viewer `cam` of the whole archive. -/
def viewerConfig : Config := oneAccount [] [⟨"cam", "hash", .all⟩]

/-- A password that every hash accepts, over a plain channel. -/
def plainLogin : Credentials := ⟨some "pw", .plaintext⟩

/-- A login about to start under a config, and reloads about to start. -/
def startLogin (cfg : Config) : LoginRace κ :=
  ⟨⟨build cfg, .new 256 none⟩, .start, fun _ => .start, none⟩

/-- The events of the examples: the first load, a whole reload, and the rest of the
login. -/
def reloadBetween : List (LoginEvent Unit) :=
  [.login 0, .reload (), .reload (), .reload (), .login 0, .login 0]

/-- A reload of the same config changes nothing. -/
theorem login_privileges_same_config :
    (cameraAccount camConfig ⟨"cam", none, "hash", none⟩).user.role =
        (cameraAccount camConfig ⟨"cam", none, "hash", none⟩).role ∧
      (cameraAccount camConfig ⟨"cam", none, "hash", none⟩).user.requireTls =
        (cameraAccount camConfig ⟨"cam", none, "hash", none⟩).requireTls :=
  (login_privileges_iff shiftAge (fun _ _ => .ok true) (fun _ : Unit => ⟨.ok camConfig, none⟩)
    "cam" plainLogin (startLogin camConfig) reloadBetween _ _ rfl rfl rfl).mpr (by
      rintro cfg ⟨⟩
      exact ⟨_, rfl, rfl, rfl⟩)

/-- **A login gets another account's role.**  A camera's password is verified, a reload
turns the camera into a viewer of the same name, and the login ends with the viewer's
scope. -/
theorem login_gets_other_role :
    ¬ ∀ (verify : String → String → Except String Bool) (calls : Unit → ReloadCall)
        (username : String) (creds : Credentials) (cfg : Config)
        (es : List (LoginEvent Unit)) (u : ReoUser) (acct : Account),
        cfg.validate shiftAge = .ok () →
        (run (loginRaceStep shiftAge verify calls username creds) (startLogin cfg) es).login =
          .user u acct →
        u.role = acct.role ∧ u.requireTls = acct.requireTls := by
  intro h
  have hrole := (h (fun _ _ => .ok true) (fun _ => ⟨.ok viewerConfig, none⟩) "cam" plainLogin
    camConfig reloadBetween _ _ (by rfl) (by rfl)).1
  cases hrole

end Login

end Reoftpd

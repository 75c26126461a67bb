import Reoftpd.Account
import Reoftpd.Limits

/-!
# Authentication

`auth.rs`: the credential check, and a login taken one shared access at a time.
`authenticate` loads the account map, checks the password and the account's TLS gate
on it and takes a session slot; `provide_user_detail` loads the account map again and
looks the login up by name.  The password hash is a parameter `verify`.
-/
namespace Reoftpd

/-- `ChannelEncryptionState`. -/
inductive ChannelEncryptionState where
  | plaintext
  | tls
  deriving DecidableEq

/-- `Credentials`. -/
structure Credentials where
  password : Option String
  commandChannelSecurity : ChannelEncryptionState

/-- `AuthenticationError`. -/
inductive AuthenticationError where
  | badPassword
  | message (e : String)
  deriving DecidableEq

/-- `ReoUser`. -/
structure ReoUser where
  login : String
  role : Role
  requireTls : Bool

/-- `channel_is_secure`. -/
def channelIsSecure (state : ChannelEncryptionState) : Bool := state = .tls

/-- `check_credentials`. -/
def checkCredentials (verify : String → String → Except String Bool) (accounts : Accounts)
    (login password : String) : Option Account :=
  match accounts.get login with
  | none => none
  | some acct =>
      match verify password acct.passwordHash with
      | .ok true => some acct
      | _ => none

/-- The password and TLS gates of `authenticate`, on the account map it has loaded. -/
def checkLogin (verify : String → String → Except String Bool) (accounts : Accounts)
    (username : String) (creds : Credentials) : Except AuthenticationError Account :=
  match checkCredentials verify accounts username (creds.password.getD "") with
  | none => .error .badPassword
  | some acct =>
      if acct.requireTls && !channelIsSecure creds.commandChannelSecurity then
        .error (.message "TLS required for this account")
      else .ok acct

/-- The user an account makes. -/
def Account.user (a : Account) : ReoUser :=
  { login := a.username, role := a.role, requireTls := a.requireTls }

/-- `provide_user_detail`, on the account map it has loaded. -/
def provideUserDetail (accounts : Accounts) (username : String) : Option ReoUser :=
  (accounts.get username).map Account.user

/-- How far a login has come.  The record the gates were applied to stays along, to
be compared with the user the login ends with. -/
inductive LoginPc where
  | start
  | verified (acct : Account)
  | admitted (acct : Account)
  | user (u : ReoUser) (acct : Account)
  | refused (e : AuthenticationError)
  | userNotFound

/-- The record the gates were applied to, once they were. -/
def LoginPc.record : LoginPc → Option Account
  | .verified acct | .admitted acct | .user _ acct => some acct
  | _ => none

/-- **One shared access of a login**: `accounts` is the account map in force, `now` the
time a slot would be taken at. -/
def loginStep (verify : String → String → Except String Bool) (username : String)
    (creds : Credentials) (now : Nat) (accounts : Accounts) (tracker : SessionState) :
    LoginPc → SessionState × LoginPc
  | .start =>
      match checkLogin verify accounts username creds with
      | .ok acct => (tracker, .verified acct)
      | .error e => (tracker, .refused e)
  | .verified acct =>
      match tracker.tryAdmit now username with
      | (tracker', true) => (tracker', .admitted acct)
      | (tracker', false) => (tracker', .refused (.message "connection limit reached"))
  | .admitted acct =>
      match provideUserDetail accounts username with
      | some u => (tracker, .user u acct)
      | none => (tracker, .userNotFound)
  | pc => (tracker, pc)

/-- The account's hash accepts the password, and the channel is secure if the account
asks for that. -/
def Account.VerifiedBy (verify : String → String → Except String Bool) (creds : Credentials)
    (acct : Account) : Prop :=
  verify (creds.password.getD "") acct.passwordHash = .ok true ∧
    (acct.requireTls = true → creds.commandChannelSecurity = .tls)

section Login
variable {verify : String → String → Except String Bool} {accounts : Accounts}
  {username : String} {creds : Credentials} {acct : Account}

/-- A login that got past the gates has an account that was verified. -/
theorem checkLogin_ok (h : checkLogin verify accounts username creds = .ok acct) :
    accounts.get username = some acct ∧ acct.VerifiedBy verify creds := by
  unfold checkLogin checkCredentials at h
  cases ha : accounts.get username with
  | none => simp [ha] at h
  | some a =>
      simp only [ha] at h
      split at h
      · cases h
      · rename_i a' hv
        split at hv
        · rename_i hver
          obtain rfl := Option.some.inj hv
          split at h
          · cases h
          · rename_i htls
            obtain rfl := Except.ok.inj h
            exact ⟨rfl, hver, by simpa [channelIsSecure] using htls⟩
        · cases hv

/-- A login carries a verified record, or none. -/
theorem loginStep_verified {now : Nat} {tracker : SessionState} {p : LoginPc}
    (h : ∀ a ∈ p.record, a.VerifiedBy verify creds) :
    ∀ a ∈ (loginStep verify username creds now accounts tracker p).2.record,
      a.VerifiedBy verify creds := by
  cases p with
  | start =>
      simp only [loginStep]
      cases hc : checkLogin verify accounts username creds with
      | error e => simp [LoginPc.record]
      | ok acct =>
          rintro a ⟨⟩
          exact (checkLogin_ok hc).2
  | verified acct =>
      simp only [loginStep]
      rcases SessionState.tryAdmit_cases tracker now username with ht | ht <;> rw [ht]
      · simp [LoginPc.record]
      · exact h
  | admitted acct =>
      simp only [loginStep]
      cases provideUserDetail accounts username with
      | none => simp [LoginPc.record]
      | some u => exact h
  | user u acct => exact h
  | refused e => exact h
  | userNotFound => exact h

end Login

end Reoftpd

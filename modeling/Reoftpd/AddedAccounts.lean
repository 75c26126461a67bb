import Reoftpd.AddAccount
import Reoftpd.ReloadRuns

/-!
# From an added account to a login

`add-camera` and `add-viewer` only append to the configuration.  What they are for is that the
account can be used: **once the running server has reloaded the file, the new account logs in
with the password it was added with, as what was asked for** (`added_account_logs_in`), and
no other account has changed.

The rendered entry is read back as the account that was asked for, `validate` has nothing
against it, `build` gives it an entry of its own, and the three accesses of a login find
it.
-/
namespace Reoftpd
open SessionState FileTree Toml

namespace AddCommand

/-- The configuration with the account that a command asks for. -/
def added (cmd : AddCommand) (hash : String) (cfg : Config) : Config :=
  match cmd with
  | camera name username requireTls =>
      { cfg with camera := cfg.camera ++ [askedCamera name username hash requireTls] }
  | viewer name scope => { cfg with viewer := cfg.viewer ++ [⟨name, hash, askedScope scope⟩] }

/-- The login of the account. -/
def login : AddCommand → String
  | camera name username _ => username.getD name
  | viewer name _ => name

/-- The account. -/
def account (cmd : AddCommand) (hash : String) (cfg : Config) : Account :=
  match cmd with
  | camera name username requireTls =>
      cameraAccount cfg (askedCamera name username hash requireTls)
  | viewer name scope => viewerAccount cfg ⟨name, hash, askedScope scope⟩

end AddCommand

section Added
variable {age : Age} {refusal : String → String} {text hash k : String} {cfg : Config}
  {cmd : AddCommand} {old : FileConfig}

/-! ## The new configuration -/

/-- **The file is read as the old configuration and the account that was asked for.** -/
theorem AddCommand.load_added (hphc : Plain hash) (hplain : cmd.IsPlain)
    (h : fromStr text = some old) (hvalid : old.config.validate age = .ok ())
    (hfits : cmd.Fits text old.config) :
    loadFile refusal age (text ++ cmd.entry hash).toByteArray = .ok (cmd.added hash old.config) ∧
      (cmd.added hash old.config).validate age = .ok () := by
  cases cmd with
  | camera name username requireTls =>
      obtain ⟨hn, hu⟩ := hplain
      obtain ⟨harray, hfresh⟩ := hfits
      have hread : fromStr (text ++ renderCameraEntry name username hash requireTls) =
          some (old.addCamera (askedCamera name username hash requireTls)) :=
        (fromStr_camera h hn hu hphc).mpr ⟨harray, rfl⟩
      have hnew : (old.addCamera (askedCamera name username hash requireTls)).config.validate age =
          .ok () := (Config.validate_addCamera hvalid).mpr hfresh
      exact ⟨loadFile_eq_ok.mpr ⟨_, _, rfl, hread, rfl, hnew⟩, hnew⟩
  | viewer name scope =>
      obtain ⟨hn, hs⟩ := hplain
      obtain ⟨harray, hname, hlogin, hitems⟩ := hfits
      have hread : fromStr (text ++ renderViewerEntry name hash scope) =
          some (old.addViewer ⟨name, hash, askedScope scope⟩) :=
        (fromStr_viewer h hn hphc hs).mpr ⟨harray, rfl⟩
      have hscope : ∀ items, askedScope scope = .list items →
          ∀ it ∈ items, IsCamera old.config it ∨ (old.config.group.lookup it).isSome := by
        intro items he
        by_cases hall : scope = "all"
        · simp [askedScope, hall] at he
        · simp only [askedScope, hall, if_false, Scope.list.injEq] at he
          exact he ▸ hitems hall
      have hnew : (old.addViewer ⟨name, hash, askedScope scope⟩).config.validate age = .ok () :=
        (Config.validate_addViewer hvalid).mpr ⟨hname, hlogin, hscope⟩
      exact ⟨loadFile_eq_ok.mpr ⟨_, _, rfl, hread, rfl, hnew⟩, hnew⟩

/-! ## The new accounts -/

/-- What a loop of inserts leaves at a key depends on what was there at that key. -/
theorem lookup_foldl_insert_congr {A B : Type} {key : A → String} {val : A → B} {l : List A}
    {m m' : AList fun _ : String => B} (h : m.lookup k = m'.lookup k) :
    (l.foldl (fun m a => m.insert (key a) (val a)) m).lookup k =
      (l.foldl (fun m a => m.insert (key a) (val a)) m').lookup k := by
  induction l generalizing m m' with
  | nil => exact h
  | cons a l ih =>
      refine ih ?_
      by_cases hk : k = key a
      · subst hk
        rw [AList.lookup_insert, AList.lookup_insert]
      · rw [AList.lookup_insert_ne hk, AList.lookup_insert_ne hk, h]

/-- **The other accounts are what they were.** -/
theorem AddCommand.build_other (hk : k ≠ cmd.login) :
    (build (cmd.added hash cfg)).get k = (build cfg).get k := by
  cases cmd with
  | camera name username requireTls =>
      have hcameras : insertCameras ((camera name username requireTls).added hash cfg) ∅ =
          (insertCameras cfg ∅).insert (username.getD name)
            ((camera name username requireTls).account hash cfg) :=
        List.foldl_concat ..
      have hother : (insertCameras ((camera name username requireTls).added hash cfg) ∅).lookup k =
          (insertCameras cfg ∅).lookup k := by
        rw [hcameras]
        exact AList.lookup_insert_ne hk
      exact lookup_foldl_insert_congr hother
  | viewer name scope =>
      have hviewers : insertViewers ((viewer name scope).added hash cfg)
          (insertCameras ((viewer name scope).added hash cfg) ∅) =
            (insertViewers cfg (insertCameras cfg ∅)).insert name
              ((viewer name scope).account hash cfg) :=
        List.foldl_concat ..
      show (insertViewers _ _).lookup k = _
      rw [hviewers]
      exact AList.lookup_insert_ne hk

/-- **The new account is there.** -/
theorem AddCommand.build_login (hvalid : (cmd.added hash cfg).validate age = .ok ()) :
    (build (cmd.added hash cfg)).get cmd.login = some (cmd.account hash cfg) := by
  have hd := Config.distinct_of_validate hvalid
  cases cmd with
  | camera name username requireTls =>
      have hmem : askedCamera name username hash requireTls ∈
          ((camera name username requireTls).added hash cfg).camera :=
        List.mem_append_right _ (List.mem_singleton_self _)
      exact build_get_camera hd hmem
  | viewer name scope =>
      have hmem : (⟨name, hash, askedScope scope⟩ : ViewerCfg) ∈
          ((viewer name scope).added hash cfg).viewer :=
        List.mem_append_right _ (List.mem_singleton_self _)
      exact build_get_viewer hd hmem

/-! ## The login -/

/-- **A login with the right password** ends with the account, unless the caps are reached. -/
theorem login_user {verify : String → String → Except String Bool} {creds : Credentials}
    {now : Nat} {s : Server} {acct : Account} (hget : s.accounts.get k = some acct)
    (hv : acct.VerifiedBy verify creds) (hfree : s.tracker.atCapacity k = false) :
    (login verify k creds now s).2 = .user acct.user acct := by
  have hcheck : checkLogin verify s.accounts k creds = .ok acct := by
    have htls : (acct.requireTls && !channelIsSecure creds.commandChannelSecurity) = false := by
      cases htls : acct.requireTls with
      | false => rfl
      | true => simp [channelIsSecure, hv.2 htls]
    simp [checkLogin, checkCredentials, hget, hv.1, htls]
  have huser : provideUserDetail s.accounts k = some acct.user := by
    rw [provideUserDetail, hget]
    rfl
  unfold login
  rw [Function.iterate_succ_apply, Function.iterate_succ_apply, Function.iterate_one]
  simp only [loginStep, hcheck, tryAdmit_true hfree, huser]

/-- The account that was asked for has the hash that was written. -/
theorem AddCommand.account_hash : (cmd.account hash cfg).passwordHash = hash := by
  cases cmd <;> rfl

/-- **An added account logs in.**  A command with plain arguments that fit the configuration
succeeds: the file then loads as the configuration with the account that was asked for, and no
other account is different.  When a running server reloads that file and can make the homes,
a login with the password that the command has read ends with that account, over a channel
that it allows and unless the caps are reached. -/
theorem added_account_logs_in {env : CommandEnv} {file file' : ByteArray}
    {verify : String → String → Except String Bool}
    (hphc : ∀ password hash, env.hashPassword password = .ok hash → Plain hash)
    (hverify : ∀ password hash, env.hashPassword password = .ok hash →
      verify password hash = .ok true)
    (hload : loadFile refusal age file = .ok cfg) (hrun : cmd.run env file = (file', .ok ()))
    (hplain : cmd.IsPlain) (hfits : cmd.Fits (fileText file) cfg) :
    ∃ password hash, env.readPassword = .ok password ∧ env.hashPassword password = .ok hash ∧
      loadFile refusal age file' = .ok (cmd.added hash cfg) ∧
      (∀ k, k ≠ cmd.login → (build (cmd.added hash cfg)).get k = (build cfg).get k) ∧
      ∀ (s : Running) (fault : MkdirFault),
        (ensureHomeDirs fault (cmd.added hash cfg) s.tree).2 = .ok () →
        let r := reloadConfig (tomlConfig refusal) age fault (readToString file') s
        r.2 = .ok () ∧ ∀ creds now, creds.password = some password →
          ((cmd.account hash cfg).requireTls = true → creds.commandChannelSecurity = .tls) →
          r.1.server.tracker.atCapacity cmd.login = false →
            (login verify cmd.login creds now r.1.server).2 =
              .user (cmd.account hash cfg).user (cmd.account hash cfg) := by
  obtain ⟨text, old, rfl, hold, rfl, hvalid⟩ := loadFile_eq_ok.mp hload
  obtain ⟨password, hash, hpassword, hhash, rfl⟩ := AddCommand.run_ok hrun
  rw [fileText_toByteArray] at hfits
  rw [← String.toByteArray_append]
  obtain ⟨hadded, hnew⟩ : loadFile refusal age (text ++ cmd.entry hash).toByteArray =
      .ok (cmd.added hash old.config) ∧ (cmd.added hash old.config).validate age = .ok () :=
    AddCommand.load_added (hphc password hash hhash) hplain hold hvalid hfits
  refine ⟨password, hash, hpassword, hhash, hadded, fun k hk => AddCommand.build_other hk, ?_⟩
  intro s fault hhomes r
  have hr : r = ((⟨⟨build (cmd.added hash old.config), s.server.tracker.setLimits
      old.config.limits.maxConnections old.config.limits.maxConnectionsPerAccount⟩,
      (ensureHomeDirs fault (cmd.added hash old.config) s.tree).1⟩ : Running), .ok ()) := by
    have hl : load (tomlConfig refusal) age (readToString (text ++ cmd.entry hash).toByteArray) =
        .ok (cmd.added hash old.config) := hadded
    simp only [r, reloadConfig, hl]
    rcases hmade : ensureHomeDirs fault (cmd.added hash old.config) s.tree with ⟨t, e | ⟨⟩⟩
    · rw [hmade] at hhomes
      cases hhomes
    · cases cmd <;> rfl
  rw [hr]
  refine ⟨rfl, fun creds now hcreds htls hfree => ?_⟩
  have hget : (build (cmd.added hash old.config)).get cmd.login =
      some (cmd.account hash old.config) := AddCommand.build_login hnew
  have hv : (cmd.account hash old.config).VerifiedBy verify creds := by
    refine ⟨?_, htls⟩
    rw [hcreds, AddCommand.account_hash]
    exact hverify password hash hhash
  exact login_user hget hv hfree

end Added

/-! ## At the site -/

/-- The hash of the password. -/
def siteHash : String := "$argon2id$v=19$m=19456,t=2,p=1$c2l0ZXNhbHQ$aGFzaA"

/-- The environment of the site, where only one password is hashed. -/
def secretEnv : CommandEnv :=
  { siteEnv with
    hashPassword := fun password =>
      if password = "secret" then .ok siteHash else .error "no other password" }

/-- The camera that is added. -/
def driveway : AddCommand := .camera "driveway" none true

/-- The homes can be made, and the caps are those of the text. -/
theorem site_reloads {old : FileConfig} (h : fromStr siteText = some old) :
    (ensureHomeDirs (fun _ _ => none) (driveway.added siteHash old.config) .bare).2 = .ok () ∧
      old.config.limits.maxConnections = 256 ∧
      old.config.limits.maxConnectionsPerAccount = none := by
  have hread : ((read siteChars).all fun d => (fileConfig d.root).all fun c =>
      (ensureHomeDirs (fun _ _ => none) (driveway.added siteHash c.config) .bare).2 = .ok () &&
        (c.config.limits.maxConnections = 256 &&
          c.config.limits.maxConnectionsPerAccount = none)) = true := by
    decide +kernel
  rw [fromStr, documentChars_site] at h
  obtain ⟨d, hd, hold⟩ := Option.bind_eq_some_iff.mp h
  rw [hd, Option.all_some, hold, Option.all_some] at hread
  simpa using hread

/-- A camera that is added at the site logs in once the server has reloaded. -/
theorem driveway_logs_in : ∃ cfg file',
    loadFile (fun _ => "") shiftAge siteText.toByteArray = .ok cfg ∧
    driveway.run secretEnv siteText.toByteArray = (file', .ok ()) ∧
      ∃ hash, (login (fun password _ => .ok (password == "secret")) "driveway"
        ⟨some "secret", .tls⟩ 5 (reloadConfig (tomlConfig fun _ => "") shiftAge (fun _ _ => none)
          (readToString file') (cfg.startServer .bare)).1.server).2 =
            .user (driveway.account hash cfg).user (driveway.account hash cfg) := by
  obtain ⟨old, h, hvalid, hnames, hlogins, hviewers, hcamera, -⟩ := site_loads
  have hload : loadFile (fun _ => "") shiftAge siteText.toByteArray = .ok old.config :=
    loadFile_eq_ok.mpr ⟨siteText, old, rfl, h, rfl, hvalid⟩
  have hhash : ∀ password hash, secretEnv.hashPassword password = .ok hash →
      password = "secret" ∧ hash = siteHash := by
    intro password hash he
    simp only [secretEnv] at he
    split at he
    · exact ⟨‹_›, (Except.ok.inj he).symm⟩
    · cases he
  have hfits : driveway.Fits (fileText siteText.toByteArray) old.config := by
    rw [fileText_toByteArray]
    refine ⟨hcamera, ?_, ?_, ?_⟩
    · rw [hnames]
      decide
    · rw [hlogins]
      decide
    · rw [hviewers]
      decide
  have hrun : driveway.run secretEnv siteText.toByteArray =
      (siteText.toByteArray ++ (driveway.entry siteHash).toByteArray, .ok ()) := rfl
  have hverify : ∀ password hash, secretEnv.hashPassword password = .ok hash →
      (fun (password _ : String) => (.ok (password == "secret") : Except String Bool))
        password hash = .ok true := by
    intro password hash he
    obtain ⟨rfl, -⟩ := hhash password hash he
    rfl
  obtain ⟨password, hash, hpassword, he, hadded, -, hlogin⟩ := added_account_logs_in
    (fun password hash he => by rw [(hhash password hash he).2]; decide) hverify hload hrun
    ⟨by decide, by simp⟩ hfits
  obtain rfl : "secret" = password := Except.ok.inj hpassword
  obtain ⟨-, rfl⟩ := hhash _ _ he
  obtain ⟨hhomes, hglobal, haccount⟩ := site_reloads h
  obtain ⟨hok, hlogin⟩ := hlogin (old.config.startServer .bare) (fun _ _ => none) hhomes
  have hfree : (reloadConfig (tomlConfig fun _ => "") shiftAge (fun _ _ => none)
      (readToString (siteText.toByteArray ++ (driveway.entry siteHash).toByteArray))
      (old.config.startServer .bare)).1.server.tracker.atCapacity "driveway" = false := by
    rcases reloadConfig_cases (tomlConfig fun _ => "") shiftAge (fun _ _ => none)
        (readToString (siteText.toByteArray ++ (driveway.entry siteHash).toByteArray))
        (old.config.startServer .bare) with ⟨e, herror, -⟩ | ⟨cfg', hcfg', -, hserver⟩
    · rw [hok] at herror
      cases herror
    · obtain rfl : driveway.added siteHash old.config = cfg' :=
        Except.ok.inj (hadded.symm.trans hcfg')
      rw [hserver]
      simp [atCapacity, setLimits, Config.startServer, SessionState.new, AddCommand.added, driveway,
        hglobal, haccount]
  exact ⟨old.config, _, hload, hrun, siteHash, hlogin _ _ rfl (fun _ => rfl) hfree⟩

end Reoftpd

import Reoftpd.ReloadRuns
import Reoftpd.ScopedViewers

/-!
# The running server

`run` (`server.rs`) put together: sessions that log in one shared access at a time and then
make calls, the task that reloads the configuration on every SIGHUP, and the one that reaps
sessions, all on one file system.  A login and a reload may be interleaved anywhere.

**Nothing changes without a password** (`changes_authorized`): whatever has been reloaded in
between, every name that is bound otherwise than when the server started, directories for the
homes apart, and every file with other bytes, lies in the home of a camera, as one of the
configurations in force so far had it, under whose login a session has shown the password of
an account of such a configuration.
-/
namespace Reoftpd
open UnixPath FileTree Runs SessionState

/-! ## The server -/

/-- The connection of a session: how far its login has come, and whether it has ended. -/
structure Connection where
  login : LoginPc
  ended : Bool

/-- The shared state of `run`, the sessions, and how far the SIGHUP task has come with its
reload.  `loaded` is there for the statements: the configurations in force so far. -/
structure Service (σ : Type) where
  server : Server
  tree : FileTree
  sessions : σ → Connection
  reload : ReloadPc
  loaded : List Config

/-- What happens: a session takes a step of its login, makes a call, quits or dies; the SIGHUP
task takes a step of a reload, which reads `file` if it begins one; the reaper wakes up. -/
inductive ServiceEvent (σ : Type) (age : Age) where
  | login (k : σ) (now : Nat)
  | call (k : σ) (now : Nat) (call : Call age)
  | quit (k : σ)
  | die (k : σ)
  | sighup (fault : MkdirFault) (file : Except String String)
  | reap (now : Nat)

/-- The files and the parts of the environment that do not change while the server runs: the
name and the credentials that each session sends, and the backend that every session gets. -/
structure ServiceEnv (σ : Type) (age : Age) where
  toml : String → Except String Config
  verify : String → String → Except String Bool
  who : σ → String × Credentials
  backend : ReoBackend age

/-- A reload begins: it loads a configuration and makes its homes. -/
def beginReload {σ : Type} (toml : String → Except String Config) (age : Age) (fault : MkdirFault)
    (file : Except String String) (s : Service σ) : Service σ :=
  match load toml age file with
  | .error _ => { s with reload := .failed }
  | .ok cfg =>
      match ensureHomeDirs fault cfg s.tree with
      | (t, .error _) => { s with tree := t, reload := .failed }
      | (t, .ok ()) => { s with tree := t, reload := .swap cfg }

/-- One step of the SIGHUP task: a reload begins, swaps the accounts, or sets the caps. -/
def sighupStep {σ : Type} (toml : String → Except String Config) (age : Age) (fault : MkdirFault)
    (file : Except String String) (s : Service σ) : Service σ :=
  match s.reload with
  | .swap cfg =>
      { s with
        server := { s.server with accounts := build cfg }
        reload := .setLimits cfg
        loaded := cfg :: s.loaded }
  | .setLimits cfg =>
      { s with
        server :=
          { s.server with
            tracker := s.server.tracker.setLimits cfg.limits.maxConnections
              cfg.limits.maxConnectionsPerAccount }
        reload := .done }
  | .start | .done | .failed => beginReload toml age fault file s

section Step
variable {σ : Type} [DecidableEq σ] {age : Age} (env : ServiceEnv σ age)

/-- A session that has not ended takes a step of its login. -/
def Service.login (s : Service σ) (k : σ) (now : Nat) : Service σ :=
  if (s.sessions k).ended then s
  else
    let r := loginStep env.verify (env.who k).1 (env.who k).2 now s.server.accounts
      s.server.tracker (s.sessions k).login
    { s with
      server := { s.server with tracker := r.1 }
      sessions := Function.update s.sessions k ⟨r.2, false⟩ }

/-- A session that has logged in makes a call. -/
def Service.call (s : Service σ) (k : σ) (now : Nat) (call : Call age) : Service σ :=
  match s.sessions k with
  | ⟨.user u _, false⟩ =>
      { s with tree := afterRequest env.backend (s.tree.atTime now) ⟨u, call⟩ }
  | _ => s

/-- A session quits; if it has logged in, its slot is given back. -/
def Service.quit (s : Service σ) (k : σ) : Service σ :=
  match s.sessions k with
  | ⟨.user u acct, false⟩ =>
      { s with
        server :=
          { s.server with
            tracker := receivePresenceEvent s.server.tracker (env.who k).1 .loggedOut }
        sessions := Function.update s.sessions k ⟨.user u acct, true⟩ }
  | ⟨p, _⟩ => { s with sessions := Function.update s.sessions k ⟨p, true⟩ }

/-- **What one event does.** -/
def Service.step (s : Service σ) : ServiceEvent σ age → Service σ
  | .login k now => s.login env k now
  | .call k now c => s.call env k now c
  | .quit k => s.quit env k
  | .die k => { s with sessions := Function.update s.sessions k ⟨(s.sessions k).login, true⟩ }
  | .sighup fault file => sighupStep env.toml age fault file s
  | .reap now =>
      { s with
        server := { s.server with tracker := (s.server.tracker.reap sessionTtlSecs now).1 } }

/-- What `run` starts with, once the homes are made. -/
def startService (cfg : Config) (t : FileTree) : Service σ :=
  ⟨(cfg.startServer t).server, t, fun _ => ⟨.start, false⟩, .start, [cfg]⟩

end Step

/-- **A reload that is left alone** is `reload_config`. -/
theorem sighup_reloadConfig {σ : Type} (toml : String → Except String Config) (age : Age)
    (fault : MkdirFault) (file : Except String String) {s : Service σ}
    (hidle : s.reload = .start ∨ s.reload = .done ∨ s.reload = .failed) :
    ∃ n, (((sighupStep toml age fault file)^[n] s).server,
        ((sighupStep toml age fault file)^[n] s).tree) =
      ((reloadConfig toml age fault file ⟨s.server, s.tree⟩).1.server,
        (reloadConfig toml age fault file ⟨s.server, s.tree⟩).1.tree) := by
  have hbegin : sighupStep toml age fault file s = beginReload toml age fault file s := by
    unfold sighupStep
    rcases hidle with h | h | h <;> rw [h]
  cases hload : load toml age file with
  | error e =>
      refine ⟨1, ?_⟩
      rw [Function.iterate_one, hbegin]
      simp [beginReload, reloadConfig, hload]
  | ok cfg =>
      rcases hhomes : ensureHomeDirs fault cfg s.tree with ⟨t, e | ⟨⟩⟩
      · refine ⟨1, ?_⟩
        rw [Function.iterate_one, hbegin]
        simp [beginReload, reloadConfig, hload, hhomes]
      · refine ⟨3, ?_⟩
        rw [Function.iterate_succ_apply, hbegin]
        simp [beginReload, reloadConfig, hload, hhomes, sighupStep]

/-! ## What a call reads -/

/-- A scope has this directory as its root, or among its roots. -/
def ScopeMap.HasRoot (scope : ScopeMap) (root : OsStr) : Prop :=
  scope.single = some root ∨ scope.single = none ∧ ∃ n, scope.roots.lookup n = some root

section Read
variable {t : FileTree} {path real : OsStr} {view : ScopeMap} {user : ReoUser}

/-- **What a virtual path resolves to** in a view without links is at or below one of its
roots. -/
theorem resolve_below (hfree : ∀ root, view.HasRoot root → t.LinkFree root)
    (h : view.resolve t path = .ok real) :
    ∃ root R m, view.HasRoot root ∧ HomeAt t root R ∧ HomePath root R real m := by
  have hcontained : ∀ root (names : List String), view.HasRoot root →
      (∀ s ∈ names.map ofString, IsName s) → contained t root (joinAll root names) = .ok real →
      ∃ root R m, view.HasRoot root ∧ HomeAt t root R ∧ HomePath root R real m := by
    intro root names hroot hnames hc
    have hbase : ∃ c, t.canonicalize root = .ok c := by
      unfold contained at hc
      split at hc
      · cases hc
      · exact ⟨_, ‹_›⟩
    obtain ⟨c, hbase⟩ := hbase
    obtain ⟨R, e, hR, he, -⟩ := canonicalize_ok hbase
    have hat : HomeAt t root R := ⟨hR, by simp [he], hfree root hroot⟩
    rw [joinAll_eq, contained_eq hat.free hat.leads hat.bound hnames] at hc
    obtain rfl := Except.ok.inj hc
    exact ⟨root, R, names.map ofString, hroot, hat, .text hnames⟩
  unfold ScopeMap.resolve at h
  split at h
  · cases h
  · rename_i base joined htarget
    unfold ScopeMap.target at htarget
    split at htarget
    · cases htarget
    · rename_i parts hparts
      have hnames := isName_map_ofString hparts
      split at htarget
      · rename_i root hsingle
        obtain ⟨rfl, rfl⟩ := Prod.mk.inj (Except.ok.inj htarget)
        exact hcontained _ parts (Or.inl hsingle) hnames h
      · rename_i hlist
        split at htarget
        · cases htarget
        · rename_i cam rest
          split at htarget
          · cases htarget
          · rename_i root hroot
            obtain ⟨rfl, rfl⟩ := Prod.mk.inj (Except.ok.inj htarget)
            exact hcontained _ rest (Or.inr ⟨hlist, cam, hroot⟩)
              (fun s hs => hnames s (List.mem_cons_of_mem _ hs)) h

/-- **A clip is read** only by a viewer, and below one of its roots. -/
theorem get_below {startPos : Nat} {bytes : Bytes}
    (hfree : ∀ root, (userView user).HasRoot root → t.LinkFree root)
    (h : ReoBackend.get t user path startPos = .ok (.ok bytes)) :
    (∃ scope, user.role = .viewer scope) ∧ ∃ root R L i, (userView user).HasRoot root ∧
      t.locate true root = .ok R ∧ R <+: L ∧ t.entry L = some (.file i) ∧
        bytes = (t.disk.data i).drop startPos := by
  unfold ReoBackend.get at h
  split at h
  · cases h
  · rename_i hallowed
    refine ⟨?_, ?_⟩
    · cases hrole : user.role with
      | uploader home => simp [hrole, capabilityAllowed] at hallowed
      | viewer scope => exact ⟨scope, rfl⟩
    · split at h
      · cases h
      · rename_i real hresolve
        obtain ⟨root, R, m, hroot, hat, hp⟩ := resolve_below hfree hresolve
        split at h
        · cases h
        · rename_i L e hfind
          split at h
          · cases h
          · split at h
            · rename_i i
              refine ⟨root, R, L, i, hroot, hat.leads, ?_, (find_ok.mp hfind).2, ?_⟩
              · obtain ⟨-, hplace⟩ := hat.alike.locate true hp
                obtain rfl := hplace L (find_ok.mp hfind).1
                exact List.prefix_append R m
              · exact (Except.ok.inj (Except.ok.inj h)).symm
            · cases h
end Read

/-! ## Who may write where -/

section Law
variable {σ : Type} {age : Age} {env : ServiceEnv σ age} {s : Service σ} {t : FileTree} {H : Loc}

/-- The session has shown the password of an account of its login, of a configuration in force
so far, over a channel that the account allows. -/
def ShownPassword (env : ServiceEnv σ age) (s : Service σ) (k : σ) (acct : Account) : Prop :=
  acct.VerifiedBy env.verify (env.who k).2 ∧
    ∃ cfg ∈ s.loaded, (build cfg).get (env.who k).1 = some acct

/-- The user is one that a configuration in force so far makes of the session's login. -/
def UserOf (env : ServiceEnv σ age) (s : Service σ) (k : σ) (u : ReoUser) : Prop :=
  ∃ cfg ∈ s.loaded, ∃ b, (build cfg).get (env.who k).1 = some b ∧ u = b.user

/-- What is known of a session by how far its login has come. -/
def LoginSound (env : ServiceEnv σ age) (s : Service σ) (k : σ) : LoginPc → Prop
  | .verified acct | .admitted acct => ShownPassword env s k acct
  | .user u acct => ShownPassword env s k acct ∧ UserOf env s k u
  | .start | .refused _ | .userNotFound => True

/-- A session has logged in as a camera whose home is at `H`. -/
def LoggedInAt (s : Service σ) (H : Loc) : Prop :=
  ∃ k u acct home, (s.sessions k).login = .user u acct ∧ u.role = .uploader home ∧
    s.tree.locate true home = .ok H

/-- **Someone may write at `H`**: it is the home of a camera of a configuration in force so
far, under whose login a session has shown the password of an account. -/
def Entitled (env : ServiceEnv σ age) (s : Service σ) (H : Loc) : Prop :=
  ∃ k acct, ShownPassword env s k acct ∧ ∃ cfg ∈ s.loaded, ∃ cam ∈ cfg.camera,
    cam.login = (env.who k).1 ∧ s.tree.locate true (cameraHome cfg cam) = .ok H

/-- A configuration is valid, and its homes are there. -/
structure Ready (age : Age) (cfg : Config) (t : FileTree) : Prop extends HomesThere cfg t where
  valid : cfg.validate age = .ok ()

/-- What holds in every state of a server. -/
structure Service.Sound (env : ServiceEnv σ age) (s : Service σ) : Prop where
  inForce : ∃ cfg ∈ s.loaded, s.server.accounts = build cfg
  ready : ∀ cfg ∈ s.loaded, Ready age cfg s.tree
  next : ∀ cfg, s.reload = .swap cfg → Ready age cfg s.tree
  sessions : ∀ k, LoginSound env s k (s.sessions k).login

/-- **What has changed since the tree `t`**: names in the homes of those who have logged in,
and directories; and the bytes of files that had a name there. -/
structure ChangedBy (t : FileTree) (s : Service σ) : Prop where
  fresh : t.disk.fresh ≤ s.tree.disk.fresh
  names : ∀ M, s.tree.entry M ≠ t.entry M →
    t.entry M = none ∧ s.tree.entry M = some .dir ∨ ∃ H, LoggedInAt s H ∧ H <+: M
  files : ∀ M i, i < t.disk.fresh → s.tree.entry M = some (.file i) →
    t.entry M = some (.file i) ∨
      ∃ H M₀, LoggedInAt s H ∧ H <+: M₀ ∧ t.entry M₀ = some (.file i)
  bytes : ∀ i, i < t.disk.fresh → s.tree.disk.data i ≠ t.disk.data i →
    ∃ H M₀, LoggedInAt s H ∧ H <+: M₀ ∧ t.entry M₀ = some (.file i)

/-- A user that has logged in as a camera stays logged in at its home. -/
theorem LoggedInAt.mono {s' : Service σ} (h : LoggedInAt s H) (hg : Grows s.tree s'.tree)
    (hlogin : ∀ k u acct, (s.sessions k).login = .user u acct →
      (s'.sessions k).login = .user u acct) : LoggedInAt s' H := by
  obtain ⟨k, u, acct, home, hk, hrole, hH⟩ := h
  exact ⟨k, u, acct, home, hlogin k u acct hk, hrole, hg.locate hH⟩

/-- Where only directories are new, nothing else has changed. -/
theorem ChangedBy.addsDirs {s' : Service σ} (h : ChangedBy t s) (ha : AddsDirs s.tree s'.tree)
    (hlogin : ∀ k u acct, (s.sessions k).login = .user u acct →
      (s'.sessions k).login = .user u acct) : ChangedBy t s' := by
  have hmono : ∀ {H}, LoggedInAt s H → LoggedInAt s' H := fun hH => hH.mono ha.grows hlogin
  refine ⟨h.fresh.trans ha.fresh.ge, fun M hM => ?_, fun M i hi hM => ?_, fun i hi hne => ?_⟩
  · rcases ha.entry M with he | ⟨hnone, hdir⟩
    · rw [he] at hM ⊢
      exact (h.names M hM).imp_right fun ⟨H, hH, hp⟩ => ⟨H, hmono hH, hp⟩
    · by_cases hs : s.tree.entry M = t.entry M
      · exact Or.inl ⟨hs ▸ hnone, hdir⟩
      · rcases h.names M hs with ⟨-, hd⟩ | ⟨H, hH, hp⟩
        · rw [hnone] at hd
          cases hd
        · exact Or.inr ⟨H, hmono hH, hp⟩
  · exact (h.files M i hi (ha.file_iff.mp hM)).imp_right
      fun ⟨H, M₀, hH, hp, h₀⟩ => ⟨H, M₀, hmono hH, hp, h₀⟩
  · rw [ha.data] at hne
    obtain ⟨H, M₀, hH, hp, h₀⟩ := h.bytes i hi hne
    exact ⟨H, M₀, hmono hH, hp, h₀⟩

/-- **A call of a camera** changes its home. -/
theorem ChangedBy.effect {O F : Loc} {tree : FileTree} (h : ChangedBy t s) (hH : LoggedInAt s H)
    (hopens : Opens H O F) (he : Effect H O F s.tree tree) :
    ChangedBy t { s with tree } := by
  obtain ⟨hO, hF⟩ := hopens.inside
  have hmono : ∀ {H}, LoggedInAt s H → LoggedInAt { s with tree } H := fun hH =>
    hH.mono he.toGrows fun _ _ _ hk => hk
  -- a file that had a name in the home when the call began
  have hold : ∀ i, i < t.disk.fresh → s.tree.entry O = some (.file i) →
      ∃ H M₀, LoggedInAt { s with tree } H ∧ H <+: M₀ ∧ t.entry M₀ = some (.file i) := by
    intro i hi hOi
    rcases h.files O i hi hOi with h₀ | ⟨H', M₀, hH', hp, h₀⟩
    · exact ⟨H, O, hmono hH, hO, h₀⟩
    · exact ⟨H', M₀, hmono hH', hp, h₀⟩
  have hnew : ∀ {i}, i < t.disk.fresh → ¬ s.tree.disk.fresh ≤ i := fun hi =>
    Nat.not_le.mpr (Nat.lt_of_lt_of_le hi h.fresh)
  refine ⟨h.fresh.trans he.fresh, fun M hM => ?_, fun M i hi hM => ?_, fun i hi hne => ?_⟩
  · by_cases hMO : M = O
    · exact Or.inr ⟨H, hmono hH, hMO ▸ hO⟩
    · by_cases hMF : M = F
      · exact Or.inr ⟨H, hmono hH, hMF ▸ hF⟩
      · rcases he.entry M hMO hMF with hsame | ⟨-, -, hin⟩
        · show t.entry M = none ∧ tree.entry M = some .dir ∨ _
          rw [hsame]
          refine (h.names M fun heq => hM (hsame.trans heq)).imp_right ?_
          exact fun ⟨H', hH', hp⟩ => ⟨H', hmono hH', hp⟩
        · exact Or.inr ⟨H, hmono hH, hin⟩
  · have hkept : s.tree.entry M = some (.file i) → t.entry M = some (.file i) ∨
        ∃ H M₀, LoggedInAt { s with tree } H ∧ H <+: M₀ ∧ t.entry M₀ = some (.file i) :=
      fun hs => (h.files M i hi hs).imp_right
        fun ⟨H', M₀, hH', hp, h₀⟩ => ⟨H', M₀, hmono hH', hp, h₀⟩
    by_cases hMO : M = O
    · subst hMO
      exact (he.opened i hM).elim hkept fun hf => absurd hf (hnew hi)
    · by_cases hMF : M = F
      · subst hMF
        rcases he.bound i hM with hs | hOi | hf
        · exact hkept hs
        · exact Or.inr (hold i hi hOi)
        · exact absurd hf (hnew hi)
      · rcases he.entry M hMO hMF with hsame | ⟨-, hdir, -⟩
        · exact hkept (hsame.symm.trans hM)
        · exact absurd (hdir.symm.trans hM) (by simp)
  · by_cases hs : s.tree.disk.data i = t.disk.data i
    · refine hold i hi (by_contra fun hOi => hne ?_)
      exact ((he.contents i (Nat.not_le.mp (hnew hi)) hOi).1).trans hs
    · obtain ⟨H', M₀, hH', hp, h₀⟩ := h.bytes i hi hs
      exact ⟨H', M₀, hmono hH', hp, h₀⟩

/-! ## One event -/

/-- What is known of the sessions stays known. -/
theorem LoginSound.mono {s' : Service σ} (hloaded : s.loaded ⊆ s'.loaded) {k : σ} {p : LoginPc}
    (h : LoginSound env s k p) : LoginSound env s' k p := by
  have hshown : ∀ {acct}, ShownPassword env s k acct → ShownPassword env s' k acct :=
    fun ⟨hv, cfg, hcfg, ha⟩ => ⟨hv, cfg, hloaded hcfg, ha⟩
  cases p with
  | verified acct | admitted acct => exact hshown h
  | user u acct =>
      obtain ⟨ha, cfg, hcfg, hu⟩ := h
      exact ⟨hshown ha, cfg, hloaded hcfg, hu⟩
  | start | refused e | userNotFound => trivial

/-- **A step of a login** looks at the accounts in force. -/
theorem LoginSound.step {k : σ} {p : LoginPc} {now : Nat} (h : LoginSound env s k p)
    (hforce : ∃ cfg ∈ s.loaded, s.server.accounts = build cfg) :
    LoginSound env s k (loginStep env.verify (env.who k).1 (env.who k).2 now s.server.accounts
      s.server.tracker p).2 := by
  obtain ⟨cfg, hcfg, haccounts⟩ := hforce
  cases p with
  | start =>
      simp only [loginStep]
      cases hc : checkLogin env.verify s.server.accounts (env.who k).1 (env.who k).2 with
      | error e => trivial
      | ok acct =>
          obtain ⟨hget, hv⟩ := checkLogin_ok hc
          rw [haccounts] at hget
          exact ⟨hv, cfg, hcfg, hget⟩
  | verified acct =>
      simp only [loginStep]
      rcases tryAdmit_cases s.server.tracker now (env.who k).1 with ht | ht <;> rw [ht]
      · trivial
      · exact h
  | admitted acct =>
      simp only [loginStep]
      cases hu : provideUserDetail s.server.accounts (env.who k).1 with
      | none => trivial
      | some u =>
          obtain ⟨b, hget, rfl⟩ := Option.map_eq_some_iff.mp hu
          rw [haccounts] at hget
          exact ⟨h, cfg, hcfg, b, hget, rfl⟩
  | user u acct | refused e | userNotFound => exact h

/-- Homes are there for good. -/
theorem Ready.grows {cfg : Config} {tree : FileTree} (h : Ready age cfg t) (hg : Grows t tree) :
    Ready age cfg tree := ⟨h.toHomesThere.grows hg, h.valid⟩

theorem Service.Sound.grows {tree : FileTree} (h : s.Sound env) (hg : Grows s.tree tree) :
    Service.Sound env { s with tree } :=
  ⟨h.inForce, fun cfg hcfg => (h.ready cfg hcfg).grows hg,
    fun cfg hcfg => (h.next cfg hcfg).grows hg, h.sessions⟩

/-- Homes that are made are directories, and nothing but directories is new. -/
theorem addsDirs_makeHomes {fault : MkdirFault} {cfg : Config} (cams : List CameraCfg)
    (t : FileTree) : AddsDirs t (makeHomes fault cfg t cams).1 := by
  induction cams generalizing t with
  | nil => exact .refl t
  | cons cam cams ih =>
      have ha : AddsDirs t (t.createDirAll fault (cameraHome cfg cam)).1 :=
        addsDirs_createDirAll fault t _
      unfold makeHomes
      rcases hc : t.createDirAll fault (cameraHome cfg cam) with ⟨t₁, e | ⟨⟩⟩
      · rw [hc] at ha
        exact ha
      · rw [hc] at ha
        exact ha.trans (ih t₁)

/-- No link is in the archive of a configuration, and none of its homes is the empty path. -/
def Fits (t : FileTree) (cfg : Config) : Prop :=
  LinkFreeArchive cfg t ∧ ∀ cam ∈ cfg.camera, cameraHome cfg cam ≠ []

/-- The homes of a configuration, once they are made. -/
theorem homesThere_of_ensureHomeDirs {fault : MkdirFault} {cfg : Config} {t t' : FileTree}
    (hfits : Fits t cfg) (h : ensureHomeDirs fault cfg t = (t', .ok ())) :
    AddsDirs t t' ∧ HomesThere cfg t' := by
  have ha : AddsDirs t (makeHomes fault cfg t cfg.camera).1 := addsDirs_makeHomes cfg.camera t
  obtain ⟨hg, hdirs⟩ := makeHomes_dirs h
  have htree : (makeHomes fault cfg t cfg.camera).1 = t' := congrArg Prod.fst h
  rw [htree] at ha
  exact ⟨ha, hfits.1.of_sameLinks hg.toSameLinks,
    fun cam hcam => hdirs cam hcam (hfits.2 cam hcam)⟩

/-- What holds of a server that started on the tree `t`. -/
structure Lawful (env : ServiceEnv σ age) (t : FileTree) (s : Service σ) : Prop where
  sound : s.Sound env
  changed : ChangedBy t s
  links : SameLinks t s.tree

/-- An event reads no configuration that the tree does not fit. -/
def ReadsFitting (env : ServiceEnv σ age) (t : FileTree) : ServiceEvent σ age → Prop
  | .sighup _ file => ∀ cfg, load env.toml age file = .ok cfg → Fits t cfg
  | _ => True

/-- Directories for homes are made, and the reload goes on as it says. -/
theorem Lawful.addsDirs {tree : FileTree} {p : ReloadPc} (h : Lawful env t s)
    (ha : AddsDirs s.tree tree) (hnext : ∀ cfg, p = .swap cfg → Ready age cfg tree) :
    Lawful env t { s with tree, reload := p } where
  sound := ⟨h.sound.inForce, fun cfg hcfg => (h.sound.ready cfg hcfg).grows ha.grows, hnext,
    h.sound.sessions⟩
  changed := h.changed.addsDirs ha fun _ _ _ hk => hk
  links := h.links.trans ha.grows.toSameLinks

theorem Lawful.beginReload {fault : MkdirFault} {file : Except String String} (h : Lawful env t s)
    (hfits : ∀ cfg, load env.toml age file = .ok cfg → Fits t cfg) :
    Lawful env t (Reoftpd.beginReload env.toml age fault file s) := by
  unfold Reoftpd.beginReload
  cases hload : load env.toml age file with
  | error e => exact h.addsDirs (.refl s.tree) fun cfg hcfg => by cases hcfg
  | ok cfg =>
      have ha : AddsDirs s.tree (makeHomes fault cfg s.tree cfg.camera).1 :=
        addsDirs_makeHomes cfg.camera s.tree
      rcases hhomes : ensureHomeDirs fault cfg s.tree with ⟨tree, e | ⟨⟩⟩
      · have htree : (makeHomes fault cfg s.tree cfg.camera).1 = tree := congrArg Prod.fst hhomes
        rw [htree] at ha
        simp only [hhomes]
        exact h.addsDirs ha fun cfg hcfg => by cases hcfg
      · have hfit : Fits s.tree cfg :=
          ⟨(hfits cfg hload).1.of_sameLinks h.links, (hfits cfg hload).2⟩
        obtain ⟨ha, hthere⟩ := homesThere_of_ensureHomeDirs hfit hhomes
        simp only [hhomes]
        refine h.addsDirs ha fun cfg' hcfg' => ?_
        obtain rfl := ReloadPc.swap.inj hcfg'
        exact ⟨hthere, (load_ok_iff.mp hload).2⟩

/-- **A step of the SIGHUP task.** -/
theorem Lawful.sighup {fault : MkdirFault} {file : Except String String} (h : Lawful env t s)
    (hfits : ∀ cfg, load env.toml age file = .ok cfg → Fits t cfg) :
    Lawful env t (sighupStep env.toml age fault file s) := by
  unfold sighupStep
  cases hreload : s.reload with
  | start | done | failed => exact h.beginReload hfits
  | swap cfg =>
      refine ⟨⟨⟨cfg, List.mem_cons_self .., rfl⟩, ?_, fun cfg' hcfg' => (nomatch hcfg'), ?_⟩, ?_,
        h.links⟩
      · exact List.forall_mem_cons.mpr ⟨h.sound.next cfg hreload, h.sound.ready⟩
      · exact fun k => (h.sound.sessions k).mono (List.subset_cons_self cfg s.loaded)
      · exact h.changed.addsDirs (.refl s.tree) fun _ _ _ hk => hk
  | setLimits cfg =>
      refine ⟨⟨h.sound.inForce, h.sound.ready, fun cfg' hcfg' => (nomatch hcfg'),
        h.sound.sessions⟩, ?_, h.links⟩
      exact h.changed.addsDirs (.refl s.tree) fun _ _ _ hk => hk

/-- Nothing happens to the tree, the accounts and the reload. -/
theorem Lawful.idle {tracker : SessionState} {sessions : σ → Connection} (h : Lawful env t s)
    (hsound : ∀ k, LoginSound env s k (sessions k).login)
    (hlogin : ∀ k u acct, (s.sessions k).login = .user u acct →
      (sessions k).login = .user u acct) :
    Lawful env t { s with server := { s.server with tracker }, sessions } where
  sound := ⟨h.sound.inForce, h.sound.ready, h.sound.next,
    fun k => (hsound k).mono (List.Subset.refl s.loaded)⟩
  changed := h.changed.addsDirs (.refl s.tree) hlogin
  links := h.links

/-- Time passes. -/
theorem Lawful.atTime (h : Lawful env t s) (now : Nat) :
    Lawful env t { s with tree := s.tree.atTime now } := by
  have ha : AddsDirs s.tree (s.tree.atTime now) := ⟨rfl, fun _ => Or.inl rfl, rfl, rfl⟩
  exact h.addsDirs ha fun cfg hcfg => (h.sound.next cfg hcfg).grows ha.grows

/-- The home of a session that has logged in as a camera. -/
theorem Lawful.home {k : σ} {u : ReoUser} {acct : Account} {home : OsStr} (h : Lawful env t s)
    (hlogin : (s.sessions k).login = .user u acct) (hrole : u.role = .uploader home) :
    ∃ H, HomeAt s.tree home H := by
  have hsession := h.sound.sessions k
  rw [hlogin] at hsession
  obtain ⟨-, cfg, hcfg, b, hget, rfl⟩ := hsession
  obtain ⟨cam, hcam, -, rfl⟩ := build_uploader hget hrole
  have hthere := h.sound.ready cfg hcfg
  obtain ⟨H, hH, hdir⟩ := isDir_iff.mp (hthere.dirs cam hcam)
  exact ⟨H, hH, by simp [hdir], hthere.free.homes cam hcam⟩

/-- **A request of a session that has logged in**: a viewer writes nothing, and a camera in its
home. -/
theorem Lawful.request {k : σ} {u : ReoUser} {acct : Account} {c : Call age}
    (h : Lawful env t s) (hlogin : (s.sessions k).login = .user u acct) :
    Lawful env t { s with tree := afterRequest env.backend s.tree ⟨u, c⟩ } := by
  cases hrole : u.role with
  | viewer scope =>
      have hrole' : (⟨u, c⟩ : Request age).user.role = .viewer scope := hrole
      rw [afterRequest_viewer env.backend hrole']
      exact h
  | uploader home =>
      obtain ⟨H, hat⟩ := h.home hlogin hrole
      have hrole' : (⟨u, c⟩ : Request age).user.role = .uploader home := hrole
      obtain ⟨O, F, hopens, heffect⟩ := afterRequest_effect env.backend hat hrole'
      exact ⟨h.sound.grows heffect.toGrows,
        h.changed.effect ⟨k, u, acct, _, hlogin, hrole, hat.leads⟩ hopens heffect,
        h.links.trans heffect.toSameLinks⟩

theorem Lawful.call {k : σ} {now : Nat} {c : Call age} (h : Lawful env t s) :
    Lawful env t (s.call env k now c) := by
  unfold Service.call
  split
  · rename_i u acct hk
    have hlogin : (s.sessions k).login = .user u acct := by rw [hk]
    exact (h.atTime now).request hlogin
  · exact h

/-- What holds when the server starts. -/
theorem lawful_start {fault : MkdirFault} {cfg : Config} {t' : FileTree}
    (hvalid : cfg.validate age = .ok ()) (hfits : Fits t cfg)
    (hstart : ensureHomeDirs fault cfg t = (t', .ok ())) :
    Lawful env t (startService cfg t' : Service σ) := by
  obtain ⟨ha, hthere⟩ := homesThere_of_ensureHomeDirs hfits hstart
  have hnothing : ChangedBy t (⟨(cfg.startServer t').server, t, fun _ => ⟨.start, false⟩, .start,
      [cfg]⟩ : Service σ) :=
    ⟨Nat.le_refl _, fun M hM => absurd rfl hM, fun M i _ hM => Or.inl hM,
      fun i _ hi => absurd rfl hi⟩
  refine ⟨⟨⟨cfg, List.mem_singleton_self cfg, rfl⟩, ?_, fun _ h => (nomatch h), fun _ => trivial⟩,
    hnothing.addsDirs ha fun _ _ _ hk => hk, ha.grows.toSameLinks⟩
  intro cfg' hcfg'
  obtain rfl := List.mem_singleton.mp hcfg'
  exact ⟨hthere, hvalid⟩

/-- Who has logged in as a camera has shown a password. -/
theorem Lawful.entitled (h : Lawful env t s) (hH : LoggedInAt s H) : Entitled env s H := by
  obtain ⟨k, u, acct, home, hk, hrole, hlocate⟩ := hH
  have hsession := h.sound.sessions k
  rw [hk] at hsession
  obtain ⟨hshown, cfg, hcfg, b, hget, rfl⟩ := hsession
  obtain ⟨cam, hcam, hlogin, rfl⟩ := build_uploader hget hrole
  exact ⟨k, acct, hshown, cfg, hcfg, cam, hcam, hlogin, hlocate⟩

variable [DecidableEq σ]

/-- A session changes, and no other. -/
theorem Lawful.update {tracker : SessionState} {k : σ} {session : Connection} (h : Lawful env t s)
    (hsound : LoginSound env s k session.login)
    (hlogin : ∀ u acct, (s.sessions k).login = .user u acct → session.login = .user u acct) :
    Lawful env t { s with
      server := { s.server with tracker }
      sessions := Function.update s.sessions k session } := by
  refine h.idle (fun k' => ?_) fun k' u acct hk' => ?_
  · by_cases hk : k' = k
    · subst hk
      rw [Function.update_self]
      exact hsound
    · rw [Function.update_of_ne hk]
      exact h.sound.sessions k'
  · by_cases hk : k' = k
    · subst hk
      rw [Function.update_self]
      exact hlogin u acct hk'
    · rw [Function.update_of_ne hk]
      exact hk'

/-- **Every event** is lawful. -/
theorem Lawful.step {e : ServiceEvent σ age} (h : Lawful env t s) (he : ReadsFitting env t e) :
    Lawful env t (s.step env e) := by
  cases e with
  | login k now =>
      show Lawful env t (s.login env k now)
      unfold Service.login
      split
      · exact h
      · refine h.update ((h.sound.sessions k).step h.sound.inForce) fun u acct hk => ?_
        rw [hk]
        rfl
  | call k now c => exact h.call
  | quit k =>
      show Lawful env t (s.quit env k)
      unfold Service.quit
      split
      · rename_i u acct hk
        have hsound := h.sound.sessions k
        have hlogin : (s.sessions k).login = .user u acct := by rw [hk]
        rw [hlogin] at hsound
        refine h.update hsound fun u' acct' hk' => ?_
        exact hlogin.symm.trans hk'
      · rename_i p ended _ hk
        have hsound := h.sound.sessions k
        have hlogin : (s.sessions k).login = p := by rw [hk]
        rw [hlogin] at hsound
        exact h.update hsound fun u' acct' hk' => hlogin.symm.trans hk'
  | die k => exact h.update (h.sound.sessions k) fun _ _ hk => hk
  | sighup fault file => exact h.sighup he
  | reap now => exact h.idle h.sound.sessions fun _ _ _ hk => hk

/-- Every state of a run is lawful, whose configurations all fit the tree it started on. -/
theorem lawful_run {fault : MkdirFault} {cfg : Config} {t' : FileTree}
    (hvalid : cfg.validate age = .ok ()) (hfits : Fits t cfg)
    (hstart : ensureHomeDirs fault cfg t = (t', .ok ())) {events : List (ServiceEvent σ age)}
    (hevents : ∀ e ∈ events, ReadsFitting env t e) :
    Lawful env t (run (Service.step env) (startService cfg t') events) :=
  invariant_run (fun _ _ hs he => hs.step he) (lawful_start hvalid hfits hstart)
    (along_of_forall_mem hevents _)

/-- **Nothing changes without a password.**  In every run of a server whose configurations all
fit the tree it started on: what is bound otherwise than then, directories apart that were
made, lies in a home that somebody was entitled to write in, and so does a name of every file
that holds other bytes. -/
theorem changes_authorized {fault : MkdirFault} {cfg : Config} {t' : FileTree}
    (hvalid : cfg.validate age = .ok ()) (hfits : Fits t cfg)
    (hstart : ensureHomeDirs fault cfg t = (t', .ok ())) {events : List (ServiceEvent σ age)}
    (hevents : ∀ e ∈ events, ReadsFitting env t e) :
    let s := run (Service.step env) (startService cfg t') events
    (∀ M, s.tree.entry M ≠ t.entry M →
        t.entry M = none ∧ s.tree.entry M = some .dir ∨ ∃ H, Entitled env s H ∧ H <+: M) ∧
      ∀ i, i < t.disk.fresh → s.tree.disk.data i ≠ t.disk.data i →
        ∃ H M, Entitled env s H ∧ H <+: M ∧ t.entry M = some (.file i) := by
  intro s
  have hlawful : Lawful env t s := lawful_run hvalid hfits hstart hevents
  refine ⟨fun M hM => ?_, fun i hi hne => ?_⟩
  · exact (hlawful.changed.names M hM).imp_right fun ⟨H, hH, hp⟩ => ⟨H, hlawful.entitled hH, hp⟩
  · obtain ⟨H, M, hH, hp, hM⟩ := hlawful.changed.bytes i hi hne
    exact ⟨H, M, hlawful.entitled hH, hp, hM⟩

/-- **No clip is read without one.**  In every such run, a session that is sent the bytes of a
file has shown the password of an account, and has the name of a viewer; the file lies below
one of the roots that a configuration in force so far gives that viewer. -/
theorem reads_authorized {fault : MkdirFault} {cfg : Config} {t' : FileTree}
    (hvalid : cfg.validate age = .ok ()) (hfits : Fits t cfg)
    (hstart : ensureHomeDirs fault cfg t = (t', .ok ())) {events : List (ServiceEvent σ age)}
    (hevents : ∀ e ∈ events, ReadsFitting env t e) {k : σ} {u : ReoUser} {acct : Account}
    {path : OsStr} {startPos : Nat} {bytes : Bytes} :
    let s := run (Service.step env) (startService cfg t') events
    (s.sessions k).login = .user u acct →
      ReoBackend.get s.tree u path startPos = .ok (.ok bytes) →
        ShownPassword env s k acct ∧ ∃ cfg ∈ s.loaded, ∃ v ∈ cfg.viewer, v.name = (env.who k).1 ∧
          ∃ root R L i, (expandScope cfg v.scope).HasRoot root ∧
            s.tree.locate true root = .ok R ∧ R <+: L ∧ s.tree.entry L = some (.file i) ∧
              bytes = (s.tree.disk.data i).drop startPos := by
  intro s hlogin hget
  have hlawful : Lawful env t s := lawful_run hvalid hfits hstart hevents
  have hsession := hlawful.sound.sessions k
  rw [hlogin] at hsession
  obtain ⟨hshown, cfg', hcfg, b, hb, rfl⟩ := hsession
  refine ⟨hshown, cfg', hcfg, ?_⟩
  have hready := hlawful.sound.ready cfg' hcfg
  rcases build_get hb with ⟨cam, -, -, rfl⟩ | ⟨v, hv, hname, rfl⟩
  · -- a camera reads nothing
    exact absurd hget (by simp [ReoBackend.get, Account.user, cameraAccount, capabilityAllowed])
  · have hfree : ∀ root, (expandScope cfg' v.scope).HasRoot root → s.tree.LinkFree root := by
      intro root hroot
      cases hscope : v.scope with
      | all =>
          rw [hscope] at hroot
          rcases hroot with hsingle | ⟨hnone, -⟩
          · obtain rfl : cfg'.archive.root = root := Option.some.inj hsingle
            exact hready.free.root
          · cases hnone
      | list items =>
          rw [hscope] at hroot
          rcases hroot with hsingle | ⟨-, n, hn⟩
          · cases hsingle
          · have hshows : (expandScope cfg' v.scope).Shows root := by
              rw [hscope]
              exact ⟨⟨n, root⟩, AList.mem_lookup_iff.mp hn, rfl⟩
            obtain ⟨cam, hcam, rfl⟩ := cameraHome_of_shows hready.valid hv hscope hshows
            exact hready.free.homes cam hcam
    have hview : ∀ root, (userView (viewerAccount cfg' v).user).HasRoot root →
        s.tree.LinkFree root := hfree
    obtain ⟨-, root, R, L, i, hroot, hR, hp, hL, hbytes⟩ := get_below hview hget
    exact ⟨v, hv, hname, root, R, L, i, hroot, hR, hp, hL, hbytes⟩

end Law

/-! ## A camera and a guest -/

/-- A site of the two cameras and the guest of one of them, with passwords that are their own
hashes: one session logs in as the first camera, the other as the guest. -/
def guestSite : ServiceEnv Bool shiftAge where
  toml _ := .error "no configuration"
  verify password hash := .ok (password == hash)
  who
    | true => ("c", ⟨some "h1", .tls⟩)
    | false => ("guest", ⟨some "h3", .plaintext⟩)
  backend := .plain

/-- The camera logs in and stores a clip, a reload fails, and the guest logs in. -/
def guestEvents : List (ServiceEvent Bool shiftAge) :=
  [.login true 1, .login true 1, .login true 1,
    .call true 2 (.put (ofString "x") 0 [.ok [1]] (7 : UInt8) .never),
    .sighup (fun _ _ => none) (.error "unreadable"), .login false 3, .login false 3, .login false 3]

/-- The site has its homes made. -/
def guestStart : FileTree := (ensureHomeDirs (fun _ _ => none) guestConfig .bare).1

theorem guestStart_made :
    ensureHomeDirs (fun _ _ => none) guestConfig .bare = (guestStart, .ok ()) :=
  Prod.ext rfl (by decide +kernel)

theorem fits_guestConfig : Fits .bare guestConfig := by
  have hfree : ∀ p, FileTree.bare.LinkFree p := linkFree_of_no_links no_links_bare
  exact ⟨⟨hfree _, fun cam _ => hfree _⟩, by decide +kernel⟩

theorem guestEvents_fitting : ∀ e ∈ guestEvents, ReadsFitting guestSite .bare e := by
  intro e he
  simp only [guestEvents, List.mem_cons, List.not_mem_nil, or_false] at he
  rcases he with rfl | rfl | rfl | rfl | rfl | rfl | rfl | rfl
  all_goals first | trivial | (intro cfg hcfg; cases hcfg)

/-- The clip lies in the home of somebody who was entitled to write there. -/
theorem clip_authorized :
    let s := run (Service.step guestSite) (startService guestConfig guestStart) guestEvents
    ∃ H, Entitled guestSite s H ∧ H <+: [ofString "c", ofString "x"] := by
  have hclip : (run (Service.step guestSite) (startService guestConfig guestStart)
      guestEvents).tree.entry [ofString "c", ofString "x"] = some (.file 0) := by decide +kernel
  have hfree : FileTree.bare.entry [ofString "c", ofString "x"] = none := by decide +kernel
  have hlaw := (changes_authorized (by decide +kernel) fits_guestConfig guestStart_made
    guestEvents_fitting).1 [ofString "c", ofString "x"] (by rw [hclip, hfree]; simp)
  refine hlaw.resolve_left fun h => ?_
  rw [hclip] at h
  cases h.2

theorem guest_login : ((run (Service.step guestSite) (startService guestConfig guestStart)
    guestEvents).sessions false).login =
      .user (viewerAccount guestConfig ⟨"guest", "h3", .list ["c"]⟩).user
        (viewerAccount guestConfig ⟨"guest", "h3", .list ["c"]⟩) := rfl

/-- The guest reads the clip. -/
theorem guest_reads_clip :
    let s := run (Service.step guestSite) (startService guestConfig guestStart) guestEvents
    ShownPassword guestSite s false (viewerAccount guestConfig ⟨"guest", "h3", .list ["c"]⟩) ∧
      ∃ cfg ∈ s.loaded, ∃ v ∈ cfg.viewer, v.name = (guestSite.who false).1 ∧
        ∃ root R L i, (expandScope cfg v.scope).HasRoot root ∧
          s.tree.locate true root = .ok R ∧ R <+: L ∧ s.tree.entry L = some (.file i) ∧
            [1] = (s.tree.disk.data i).drop 0 := by
  have hget : ReoBackend.get (run (Service.step guestSite) (startService guestConfig guestStart)
      guestEvents).tree (viewerAccount guestConfig ⟨"guest", "h3", .list ["c"]⟩).user
      (ofString "c/x") 0 = .ok (.ok [1]) := by decide +kernel
  exact reads_authorized (by decide +kernel) fits_guestConfig guestStart_made guestEvents_fitting
    guest_login hget

end Reoftpd

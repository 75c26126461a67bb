import Mathlib.Data.List.AList
import Reoftpd.Crypto

/-!
# Configuration

The parts of the TOML config that accounts, homes, caps and encryption are made from
(`config.rs`), and `Config::validate`.  A `BTreeMap` is an association list in the
order of its iteration.
-/
namespace Reoftpd

/-- `ConfigError`. -/
inductive ConfigError where
  | read (e : String)
  | parse (e : String)
  | invalid (e : String)
  deriving DecidableEq

/-- `Display` of `ConfigError`. -/
def ConfigError.display : ConfigError → String
  | .read e => "reading config: " ++ e
  | .parse e => "parsing config: " ++ e
  | .invalid e => "invalid config: " ++ e

/-- `EncryptionCfg`. -/
structure EncryptionCfg where
  recipients : List String

/-- `ServerCfg`: the ports of passive connections. -/
structure ServerCfg where
  passivePorts : Nat × Nat

/-- `ArchiveCfg`. -/
structure ArchiveCfg where
  root : OsStr
  retentionDays : Nat

/-- `LimitsCfg`: the caps the session tracker enforces. -/
structure LimitsCfg where
  maxConnections : Nat
  maxConnectionsPerAccount : Option Nat

/-- `CameraCfg`. -/
structure CameraCfg where
  name : String
  username : Option String
  uploadPasswordHash : String
  requireTls : Option Bool

/-- `CameraCfg::login`. -/
def CameraCfg.login (cam : CameraCfg) : String := cam.username.getD cam.name

/-- `Scope`. -/
inductive Scope where
  | all
  | list (items : List String)

/-- `ViewerCfg`. -/
structure ViewerCfg where
  name : String
  passwordHash : String
  scope : Scope

/-- `Config`. -/
structure Config where
  server : ServerCfg
  archive : ArchiveCfg
  limits : LimitsCfg
  camera : List CameraCfg
  group : AList fun _ : String => List String
  viewer : List ViewerCfg
  encryption : Option EncryptionCfg

/-! ## Validation -/

/-- The camera loop of `validate`: the names and logins seen so far. -/
def checkCameras (names logins : List String) :
    List CameraCfg → Except ConfigError (List String × List String)
  | [] => .ok (names, logins)
  | cam :: rest =>
      if cam.name ∈ names then .error (.invalid ("duplicate camera name " ++ cam.name))
      else if cam.login ∈ logins then .error (.invalid ("duplicate username " ++ cam.login))
      else checkCameras (cam.name :: names) (cam.login :: logins) rest

/-- The members of one group. -/
def checkMembers (names : List String) (g : String) : List String → Except ConfigError Unit
  | [] => .ok ()
  | m :: rest =>
      if m ∈ names then checkMembers names g rest
      else .error (.invalid ("group " ++ g ++ " references unknown camera " ++ m))

/-- The group loop. -/
def checkGroups (names : List String) :
    List (Sigma fun _ : String => List String) → Except ConfigError Unit
  | [] => .ok ()
  | g :: rest =>
      match checkMembers names g.1 g.2 with
      | .ok () => checkGroups names rest
      | .error e => .error e

/-- The viewer names: unique, and no camera logins. -/
def checkViewers (logins : List String) (seen : List String) :
    List ViewerCfg → Except ConfigError Unit
  | [] => .ok ()
  | v :: rest =>
      if v.name ∈ seen then .error (.invalid ("duplicate viewer name " ++ v.name))
      else if v.name ∈ logins then
        .error (.invalid ("viewer name " ++ v.name ++ " collides with a camera login"))
      else checkViewers logins (v.name :: seen) rest

/-- The items of one viewer's scope. -/
def checkItems (names : List String) (group : AList fun _ : String => List String)
    (viewer : String) : List String → Except ConfigError Unit
  | [] => .ok ()
  | it :: rest =>
      if it ∈ names ∨ (group.lookup it).isSome then checkItems names group viewer rest
      else .error (.invalid ("viewer " ++ viewer ++ " scope references unknown " ++ it))

/-- The scope loop. -/
def checkScopes (names : List String) (group : AList fun _ : String => List String) :
    List ViewerCfg → Except ConfigError Unit
  | [] => .ok ()
  | v :: rest =>
      match v.scope with
      | .all => checkScopes names group rest
      | .list items =>
          match checkItems names group v.name items with
          | .ok () => checkScopes names group rest
          | .error e => .error e

/-- The `[encryption]` section. -/
def checkEncryption (age : Age) : Option EncryptionCfg → Except ConfigError Unit
  | none => .ok ()
  | some enc =>
      if enc.recipients.isEmpty then
        .error (.invalid "[encryption].recipients must be non-empty")
      else
        match parseRecipients age enc.recipients with
        | .ok _ => .ok ()
        | .error e => .error (.invalid ("[encryption]: " ++ e.display))

/-- `Config::validate`. -/
def Config.validate (age : Age) (cfg : Config) : Except ConfigError Unit :=
  if cfg.server.passivePorts.1 > cfg.server.passivePorts.2 then
    .error (.invalid "passive_ports must be ordered")
  else do
    let (names, logins) ← checkCameras [] [] cfg.camera
    checkGroups names cfg.group.entries
    checkViewers logins [] cfg.viewer
    checkScopes names cfg.group cfg.viewer
    checkEncryption age cfg.encryption

/-! ## Loading -/

/-- `parse_str`; what the TOML parser and the derived `Deserialize` make of a text is a
parameter. -/
def parseStr (toml : String → Except String Config) (s : String) : Except ConfigError Config :=
  (toml s).mapError .parse

/-- `load`, on what reading the file gives: its text, or the text of an error. -/
def load (toml : String → Except String Config) (age : Age) (file : Except String String) :
    Except ConfigError Config := do
  let s ← file.mapError .read
  let c ← parseStr toml s
  c.validate age
  return c

/-! ## What a valid config promises -/

/-- The names a valid config keeps apart: camera names, logins of cameras, and names of
viewers, which are logins too. -/
structure Config.Distinct (cfg : Config) : Prop where
  names : (cfg.camera.map CameraCfg.name).Nodup
  logins : (cfg.camera.map CameraCfg.login).Nodup
  viewers : (cfg.viewer.map ViewerCfg.name).Nodup
  apart : ∀ v ∈ cfg.viewer, ∀ cam ∈ cfg.camera, v.name ≠ cam.login

theorem checkCameras_ok {cams : List CameraCfg} {names logins names' logins' : List String}
    (h : checkCameras names logins cams = .ok (names', logins')) :
    ((cams.map CameraCfg.name).reverse ++ names = names' ∧
      (cams.map CameraCfg.login).reverse ++ logins = logins') ∧
    (names.Nodup → names'.Nodup) ∧ (logins.Nodup → logins'.Nodup) := by
  induction cams generalizing names logins with
  | nil =>
      obtain ⟨rfl, rfl⟩ := Prod.mk.inj (Except.ok.inj h)
      exact ⟨⟨rfl, rfl⟩, id, id⟩
  | cons cam cams ih =>
      unfold checkCameras at h
      split at h
      · cases h
      · rename_i hname
        split at h
        · cases h
        · rename_i hlogin
          obtain ⟨⟨rfl, rfl⟩, hn, hl⟩ := ih h
          refine ⟨⟨by simp, by simp⟩, fun hnames => ?_, fun hlogins => ?_⟩
          · simpa using hn (List.nodup_cons.mpr ⟨hname, hnames⟩)
          · simpa using hl (List.nodup_cons.mpr ⟨hlogin, hlogins⟩)

theorem checkViewers_ok {vs : List ViewerCfg} {logins seen : List String}
    (h : checkViewers logins seen vs = .ok ()) :
    (seen.Nodup → ((vs.map ViewerCfg.name).reverse ++ seen).Nodup) ∧
      ∀ v ∈ vs, v.name ∉ logins := by
  induction vs generalizing seen with
  | nil => exact ⟨id, by simp⟩
  | cons v vs ih =>
      unfold checkViewers at h
      split at h
      · cases h
      · rename_i hseen
        split at h
        · cases h
        · rename_i hlogin
          obtain ⟨hn, hv⟩ := ih h
          refine ⟨fun hs => by simpa using hn (List.nodup_cons.mpr ⟨hseen, hs⟩), ?_⟩
          rintro v' hv'
          rcases List.mem_cons.mp hv' with rfl | hv'
          · exact hlogin
          · exact hv v' hv'

/-- A sequence of checks succeeds when each of them does. -/
theorem bind_eq_ok {A B : Type} {x : Except ConfigError A} {f : A → Except ConfigError B} {b : B}
    (h : x >>= f = .ok b) : ∃ a, x = .ok a ∧ f a = .ok b := by
  cases x with
  | error e => cases h
  | ok a => exact ⟨a, rfl, h⟩

/-- A config is loaded if it is read and valid. -/
theorem load_ok_iff {toml : String → Except String Config} {age : Age}
    {file : Except String String} {cfg : Config} :
    load toml age file = .ok cfg ↔
      (file.mapError .read >>= parseStr toml) = .ok cfg ∧ cfg.validate age = .ok () := by
  have hload : load toml age file = (file.mapError .read >>= parseStr toml) >>= fun cfg =>
      cfg.validate age >>= fun _ => .ok cfg := by
    cases file <;> rfl
  rw [hload]
  constructor
  · intro h
    obtain ⟨c, hread, h⟩ := bind_eq_ok h
    obtain ⟨⟨⟩, hvalid, h⟩ := bind_eq_ok h
    obtain rfl := Except.ok.inj h
    exact ⟨hread, hvalid⟩
  · rintro ⟨hread, hvalid⟩
    rw [hread]
    show (cfg.validate age >>= fun _ => .ok cfg) = .ok cfg
    rw [hvalid]
    rfl

/-- **A config that validates keeps its names apart.** -/
theorem Config.distinct_of_validate {age : Age} {cfg : Config} (h : cfg.validate age = .ok ()) :
    cfg.Distinct := by
  unfold Config.validate at h
  split at h
  · cases h
  · obtain ⟨⟨names, logins⟩, hcams, h⟩ := bind_eq_ok h
    obtain ⟨⟨rfl, rfl⟩, hn, hl⟩ := checkCameras_ok hcams
    obtain ⟨⟨⟩, -, h⟩ := bind_eq_ok h
    obtain ⟨⟨⟩, hviewers, -⟩ := bind_eq_ok h
    obtain ⟨hvn, hva⟩ := checkViewers_ok hviewers
    refine ⟨by simpa using hn List.nodup_nil, by simpa using hl List.nodup_nil,
      by simpa using hvn List.nodup_nil, fun v hmem cam hcam he => hva v hmem ?_⟩
    rw [he]
    simpa using ⟨cam, hcam, rfl⟩

end Reoftpd

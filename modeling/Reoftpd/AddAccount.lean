import Reoftpd.AccountEntries
import Reoftpd.ScopeExpansion

/-!
# Adding an account

`add-camera` and `add-viewer` (`main.rs`): they read a password, hash it, and append an
entry to the configuration, which they do not read.

**The configuration still loads** exactly if the new account fits it, as long as the
arguments are plain (`added_account_loads`): if its names are not taken, its scope is
known, and the accounts of its kind are not written as an array.
-/
namespace Reoftpd
open Toml

/-! ## What makes a configuration valid -/

section Valid
variable {age : Age} {cfg : Config} {names logins : List String}
  {group : AList fun _ : String => List String}

/-- The members of groups are cameras, and the items of scopes are cameras or groups. -/
structure Config.Known (cfg : Config) : Prop where
  groups : ∀ g members, cfg.group.lookup g = some members → ∀ m ∈ members, IsCamera cfg m
  scopes : ∀ v ∈ cfg.viewer, ∀ items, v.scope = .list items →
    ∀ it ∈ items, IsCamera cfg it ∨ (cfg.group.lookup it).isSome

theorem checkCameras_of_nodup {cams : List CameraCfg}
    (hn : ((cams.map CameraCfg.name).reverse ++ names).Nodup)
    (hl : ((cams.map CameraCfg.login).reverse ++ logins).Nodup) :
    checkCameras names logins cams = .ok ((cams.map CameraCfg.name).reverse ++ names,
      (cams.map CameraCfg.login).reverse ++ logins) := by
  induction cams generalizing names logins with
  | nil => rfl
  | cons cam cams ih =>
      simp only [List.map_cons, List.reverse_cons, List.append_assoc, List.singleton_append]
        at hn hl ⊢
      have hname : cam.name ∉ names := (List.nodup_cons.mp (List.nodup_append.mp hn).2.1).1
      have hlogin : cam.login ∉ logins := (List.nodup_cons.mp (List.nodup_append.mp hl).2.1).1
      rw [checkCameras, if_neg hname, if_neg hlogin, ih hn hl]

theorem checkMembers_of_mem {g : String} {members : List String}
    (h : ∀ m ∈ members, m ∈ names) : checkMembers names g members = .ok () := by
  induction members with
  | nil => rfl
  | cons m members ih =>
      rw [checkMembers, if_pos (h m (by simp)), ih fun m hm => h m (by simp [hm])]

theorem checkGroups_of_mem {groups : List (Sigma fun _ : String => List String)}
    (h : ∀ g ∈ groups, ∀ m ∈ g.2, m ∈ names) : checkGroups names groups = .ok () := by
  induction groups with
  | nil => rfl
  | cons g groups ih =>
      rw [checkGroups, checkMembers_of_mem (h g (by simp))]
      exact ih fun g hg => h g (by simp [hg])

theorem checkViewers_of_nodup {viewers : List ViewerCfg} {seen : List String}
    (hn : ((viewers.map ViewerCfg.name).reverse ++ seen).Nodup)
    (hl : ∀ v ∈ viewers, v.name ∉ logins) : checkViewers logins seen viewers = .ok () := by
  induction viewers generalizing seen with
  | nil => rfl
  | cons v viewers ih =>
      simp only [List.map_cons, List.reverse_cons, List.append_assoc, List.singleton_append] at hn
      have hname : v.name ∉ seen := (List.nodup_cons.mp (List.nodup_append.mp hn).2.1).1
      rw [checkViewers, if_neg hname, if_neg (hl v (by simp)),
        ih hn fun v hv => hl v (by simp [hv])]

theorem checkItems_of_known {viewer : String} {items : List String}
    (h : ∀ it ∈ items, it ∈ names ∨ (group.lookup it).isSome) :
    checkItems names group viewer items = .ok () := by
  induction items with
  | nil => rfl
  | cons it items ih =>
      rw [checkItems, if_pos (h it (by simp)), ih fun it hit => h it (by simp [hit])]

theorem checkScopes_of_known {viewers : List ViewerCfg}
    (h : ∀ v ∈ viewers, ∀ items, v.scope = .list items →
      ∀ it ∈ items, it ∈ names ∨ (group.lookup it).isSome) :
    checkScopes names group viewers = .ok () := by
  induction viewers with
  | nil => rfl
  | cons v viewers ih =>
      have hrest := ih fun v hv => h v (by simp [hv])
      cases hs : v.scope with
      | all => rw [checkScopes, hs, hrest]
      | list items =>
          have hitems : checkItems names group v.name items = .ok () :=
            checkItems_of_known (h v (by simp) items hs)
          simp only [checkScopes, hs, hitems, hrest]

/-- **What `validate` accepts.** -/
theorem Config.validate_eq_ok : cfg.validate age = .ok () ↔
    cfg.server.passivePorts.1 ≤ cfg.server.passivePorts.2 ∧ cfg.Distinct ∧ cfg.Known ∧
      checkEncryption age cfg.encryption = .ok () := by
  constructor
  · intro h
    have hknown := Config.known_of_validate h
    refine ⟨?_, Config.distinct_of_validate h, ⟨hknown.1, hknown.2⟩, ?_⟩ <;>
      unfold Config.validate at h <;> split at h
    · cases h
    · omega
    · cases h
    · obtain ⟨_, -, h⟩ := bind_eq_ok h
      obtain ⟨_, -, h⟩ := bind_eq_ok h
      obtain ⟨_, -, h⟩ := bind_eq_ok h
      obtain ⟨_, -, h⟩ := bind_eq_ok h
      exact h
  · rintro ⟨hports, hd, hk, henc⟩
    have hname : ∀ n, n ∈ (cfg.camera.map CameraCfg.name).reverse ++ [] ↔ IsCamera cfg n := by
      simp [IsCamera]
    have hcams : checkCameras [] [] cfg.camera =
        .ok ((cfg.camera.map CameraCfg.name).reverse ++ [],
          (cfg.camera.map CameraCfg.login).reverse ++ []) :=
      checkCameras_of_nodup (by simpa using hd.names) (by simpa using hd.logins)
    have hgroups : checkGroups ((cfg.camera.map CameraCfg.name).reverse ++ [])
        cfg.group.entries = .ok () := checkGroups_of_mem fun g hg m hm =>
      (hname m).mpr (hk.groups g.1 g.2 (AList.mem_lookup_iff.mpr hg) m hm)
    have hviewers : checkViewers ((cfg.camera.map CameraCfg.login).reverse ++ []) []
        cfg.viewer = .ok () := by
      refine checkViewers_of_nodup (by simpa using hd.viewers) fun v hv hmem => ?_
      simp only [List.append_nil, List.mem_reverse, List.mem_map] at hmem
      obtain ⟨cam, hcam, he⟩ := hmem
      exact hd.apart v hv cam hcam he.symm
    have hscopes : checkScopes ((cfg.camera.map CameraCfg.name).reverse ++ []) cfg.group
        cfg.viewer = .ok () := checkScopes_of_known fun v hv items hitems it hit =>
      (hk.scopes v hv items hitems it hit).imp_left (hname it).mpr
    rw [Config.validate, if_neg (by omega), hcams]
    show (checkGroups _ _ >>= fun _ => _) = _
    rw [hgroups]
    show (checkViewers _ _ _ >>= fun _ => _) = _
    rw [hviewers]
    show (checkScopes _ _ _ >>= fun _ => _) = _
    rw [hscopes]
    exact henc

/-- One name more is distinct from the others if it is new. -/
theorem nodup_map_concat {A : Type} {f : A → String} {l : List A} {a : A} :
    ((l ++ [a]).map f).Nodup ↔ f a ∉ l.map f ∧ (l.map f).Nodup := by
  rw [List.map_append, List.map_singleton, ← List.concat_eq_append, List.nodup_concat]

/-- A camera may be added if its name and its login are not taken. -/
theorem Config.validate_addCamera {cam : CameraCfg} (h : cfg.validate age = .ok ()) :
    Config.validate age { cfg with camera := cfg.camera ++ [cam] } = .ok () ↔
      cam.name ∉ cfg.camera.map CameraCfg.name ∧ cam.login ∉ cfg.camera.map CameraCfg.login ∧
        cam.login ∉ cfg.viewer.map ViewerCfg.name := by
  obtain ⟨hports, hd, hk, henc⟩ := Config.validate_eq_ok.mp h
  rw [Config.validate_eq_ok]
  constructor
  · rintro ⟨-, hd', -, -⟩
    refine ⟨(nodup_map_concat.mp hd'.names).1, (nodup_map_concat.mp hd'.logins).1, ?_⟩
    intro hmem
    obtain ⟨v, hv, he⟩ := List.mem_map.mp hmem
    exact hd'.apart v hv cam (by simp) he
  · rintro ⟨hname, hlogin, hviewer⟩
    refine ⟨hports, ⟨nodup_map_concat.mpr ⟨hname, hd.names⟩,
      nodup_map_concat.mpr ⟨hlogin, hd.logins⟩, hd.viewers, ?_⟩, ⟨?_, ?_⟩, henc⟩
    · intro v hv cam' hcam he
      rcases List.mem_append.mp hcam with hcam | hcam
      · exact hd.apart v hv cam' hcam he
      · obtain rfl := List.mem_singleton.mp hcam
        exact hviewer (List.mem_map.mpr ⟨v, hv, he⟩)
    · intro g members hg m hm
      obtain ⟨cam', hcam, he⟩ := hk.groups g members hg m hm
      exact ⟨cam', by simp [hcam], he⟩
    · intro v hv items hitems it hit
      refine (hk.scopes v hv items hitems it hit).imp_left fun ⟨cam', hcam, he⟩ => ?_
      exact ⟨cam', by simp [hcam], he⟩

/-- A viewer may be added if its name is not taken and its scope is known. -/
theorem Config.validate_addViewer {v : ViewerCfg} (h : cfg.validate age = .ok ()) :
    Config.validate age { cfg with viewer := cfg.viewer ++ [v] } = .ok () ↔
      v.name ∉ cfg.viewer.map ViewerCfg.name ∧ v.name ∉ cfg.camera.map CameraCfg.login ∧
        ∀ items, v.scope = .list items →
          ∀ it ∈ items, IsCamera cfg it ∨ (cfg.group.lookup it).isSome := by
  obtain ⟨hports, hd, hk, henc⟩ := Config.validate_eq_ok.mp h
  rw [Config.validate_eq_ok]
  constructor
  · rintro ⟨-, hd', hk', -⟩
    refine ⟨(nodup_map_concat.mp hd'.viewers).1, ?_, hk'.scopes v (by simp)⟩
    intro hmem
    obtain ⟨cam, hcam, he⟩ := List.mem_map.mp hmem
    exact hd'.apart v (by simp) cam hcam he.symm
  · rintro ⟨hname, hlogin, hscope⟩
    refine ⟨hports, ⟨hd.names, hd.logins, nodup_map_concat.mpr ⟨hname, hd.viewers⟩, ?_⟩,
      ⟨hk.groups, ?_⟩, henc⟩
    · intro v' hv cam hcam he
      rcases List.mem_append.mp hv with hv | hv
      · exact hd.apart v' hv cam hcam he
      · obtain rfl := List.mem_singleton.mp hv
        exact hlogin (List.mem_map.mpr ⟨cam, hcam, he.symm⟩)
    · intro v' hv
      rcases List.mem_append.mp hv with hv | hv
      · exact hk.scopes v' hv
      · obtain rfl := List.mem_singleton.mp hv
        exact hscope

end Valid

/-! ## The commands -/

/-- What a command meets: the variables `REOFTPD_PASSWORD` and `REOFTPD_CONFIG`, the line it
reads from its input, `hash_password`, and how opening the file fails, or a write to it
after some bytes. -/
structure CommandEnv where
  passwordVar : Option String
  configVar : Option String
  line : Except Errno String
  hashPassword : String → Except String String
  openFault : Option Errno
  writeFault : Option (Nat × Errno)

namespace CommandEnv

variable (env : CommandEnv)

/-- `read_password`. -/
def readPassword : Except String String :=
  match env.passwordVar with
  | some pw => .ok pw
  | none =>
      match env.line with
      | .error e => .error (errnoText e)
      | .ok line =>
          .ok (String.ofList
            (line.toList.reverse.dropWhile fun c => c = '\n' || c = '\r').reverse)

/-- The path of the configuration. -/
def config : String := env.configVar.getD "/etc/reoftpd/reoftpd.toml"

/-- Opening the file to append to it, and `write_all`.  The file is its bytes. -/
def append (snippet : String) (file : ByteArray) : ByteArray × Except String Unit :=
  match env.openFault, env.writeFault with
  | some e, _ => (file, .error ("opening " ++ env.config ++ ": " ++ errnoText e))
  | none, some (n, e) => (file ++ snippet.toByteArray.extract 0 n, .error (errnoText e))
  | none, none => (file ++ snippet.toByteArray, .ok ())

/-- The password is read and hashed, and the entry appended that is rendered with the
hash. -/
def addEntry (render : String → String) (file : ByteArray) : ByteArray × Except String Unit :=
  match env.readPassword with
  | .error e => (file, .error e)
  | .ok password =>
      match env.hashPassword password with
      | .error e => (file, .error e)
      | .ok hash => env.append (render hash) file

end CommandEnv

/-- `Command::AddCamera` and `Command::AddViewer`, with their arguments. -/
inductive AddCommand where
  | camera (name : String) (username : Option String) (requireTls : Bool)
  | viewer (name scope : String)

namespace AddCommand

/-- The entry that a command renders. -/
def entry : AddCommand → String → String
  | camera name username requireTls, hash => renderCameraEntry name username hash requireTls
  | viewer name scope, hash => renderViewerEntry name hash scope

/-- **`add-camera` and `add-viewer`.** -/
def run (cmd : AddCommand) (env : CommandEnv) (file : ByteArray) :
    ByteArray × Except String Unit :=
  env.addEntry cmd.entry file

/-- The arguments can be spliced between quotes. -/
def IsPlain : AddCommand → Prop
  | camera name username _ => Plain name ∧ ∀ u ∈ username, Plain u
  | viewer name scope => Plain name ∧ (scope ≠ "all" → ∀ it ∈ scopeItems scope, Plain it)

/-- A configuration has room for the account: a text that does not write the accounts of its
kind as an array, names that are not taken, and the cameras and groups of the scope. -/
def Fits (text : String) (cfg : Config) : AddCommand → Prop
  | camera name username _ =>
      ¬ WritesArray text "camera" ∧ name ∉ cfg.camera.map CameraCfg.name ∧
        username.getD name ∉ cfg.camera.map CameraCfg.login ∧
        username.getD name ∉ cfg.viewer.map ViewerCfg.name
  | viewer name scope =>
      ¬ WritesArray text "viewer" ∧ name ∉ cfg.viewer.map ViewerCfg.name ∧
        name ∉ cfg.camera.map CameraCfg.login ∧
        (scope ≠ "all" →
          ∀ it ∈ scopeItems scope, IsCamera cfg it ∨ (cfg.group.lookup it).isSome)

end AddCommand

/-- `read_to_string`, on the bytes of a file. -/
def readToString (file : ByteArray) : Except String String :=
  match String.fromUTF8? file with
  | some s => .ok s
  | none => .error "stream did not contain valid UTF-8"

/-- The text of a file that is UTF-8. -/
def fileText (file : ByteArray) : String := (String.fromUTF8? file).getD ""

/-- `load`, on the bytes of a file. -/
def loadFile (refusal : String → String) (age : Age) (file : ByteArray) :
    Except ConfigError Config :=
  load (tomlConfig refusal) age (readToString file)

/-! ## What is loaded -/

section Load
variable {refusal : String → String} {age : Age} {text : String} {file file' : ByteArray}
  {cfg cfg' : Config} {env : CommandEnv} {cmd : AddCommand} {old : FileConfig} {hash : String}

theorem fromUTF8?_eq_some : String.fromUTF8? file = some text ↔ file = text.toByteArray := by
  unfold String.fromUTF8?
  constructor
  · intro h
    split at h
    · cases h
      rfl
    · cases h
  · rintro rfl
    rw [dif_pos text.isValidUTF8]
    rfl

/-- A file that loads is the text of a configuration that is valid. -/
theorem loadFile_eq_ok : loadFile refusal age file = .ok cfg ↔
    ∃ text c, file = text.toByteArray ∧ fromStr text = some c ∧ c.config = cfg ∧
      cfg.validate age = .ok () := by
  unfold loadFile readToString
  rw [load_ok_iff]
  cases htext : String.fromUTF8? file with
  | none =>
      constructor
      · rintro ⟨h, -⟩
        cases h
      · rintro ⟨text, c, hfile, -⟩
        cases htext.symm.trans (fromUTF8?_eq_some.mpr hfile)
  | some text =>
      obtain rfl := fromUTF8?_eq_some.mp htext
      have hparse : (Except.mapError ConfigError.read (.ok text : Except String String) >>=
          parseStr (tomlConfig refusal)) = (tomlConfig refusal text).mapError .parse := rfl
      simp only [hparse, tomlConfig]
      constructor
      · rintro ⟨h, hvalid⟩
        cases hc : fromStr text with
        | none =>
            rw [hc] at h
            cases h
        | some c =>
            rw [hc] at h
            cases h
            exact ⟨text, c, rfl, hc, rfl, hvalid⟩
      · rintro ⟨text', c, he, hc, rfl, hvalid⟩
        obtain rfl := String.toByteArray_inj.mp he
        rw [hc]
        exact ⟨rfl, hvalid⟩

theorem loadFile_text : (∃ cfg, loadFile refusal age text.toByteArray = .ok cfg) ↔
    ∃ c, fromStr text = some c ∧ c.config.validate age = .ok () := by
  constructor
  · rintro ⟨cfg, h⟩
    obtain ⟨text', c, he, hc, rfl, hvalid⟩ := loadFile_eq_ok.mp h
    obtain rfl := String.toByteArray_inj.mp he
    exact ⟨c, hc, hvalid⟩
  · rintro ⟨c, hc, hvalid⟩
    exact ⟨c.config, loadFile_eq_ok.mpr ⟨text, c, rfl, hc, rfl, hvalid⟩⟩

/-- A command that succeeds has read a password and appended the entry with its hash. -/
theorem AddCommand.run_ok (h : cmd.run env file = (file', .ok ())) :
    ∃ password hash, env.readPassword = .ok password ∧ env.hashPassword password = .ok hash ∧
      file' = file ++ (cmd.entry hash).toByteArray := by
  unfold AddCommand.run CommandEnv.addEntry at h
  split at h
  · cases h
  · rename_i password hp
    split at h
    · cases h
    · rename_i hash hh
      unfold CommandEnv.append at h
      split at h
      · cases h
      · cases h
      · cases h
        exact ⟨password, hash, hp, hh, rfl⟩

@[simp]
theorem fileText_toByteArray : fileText text.toByteArray = text := by
  rw [fileText, fromUTF8?_eq_some.mpr rfl]
  rfl

/-- The file behind a plain entry loads if the new account fits. -/
theorem AddCommand.loads_iff (hphc : Plain hash) (hplain : cmd.IsPlain)
    (h : fromStr text = some old) (hvalid : old.config.validate age = .ok ()) :
    (∃ cfg', loadFile refusal age (text ++ cmd.entry hash).toByteArray = .ok cfg') ↔
      cmd.Fits text old.config := by
  rw [loadFile_text]
  cases cmd with
  | camera name username requireTls =>
      obtain ⟨hn, hu⟩ := hplain
      simp only [AddCommand.entry, fromStr_camera h hn hu hphc, AddCommand.Fits]
      constructor
      · rintro ⟨c, ⟨harray, rfl⟩, hc⟩
        exact ⟨harray, (Config.validate_addCamera hvalid).mp hc⟩
      · rintro ⟨harray, hfresh⟩
        exact ⟨_, ⟨harray, rfl⟩, (Config.validate_addCamera hvalid).mpr hfresh⟩
  | viewer name scope =>
      obtain ⟨hn, hs⟩ := hplain
      have hscope : (∀ items, askedScope scope = .list items →
          ∀ it ∈ items, IsCamera old.config it ∨ (old.config.group.lookup it).isSome) ↔
          (scope ≠ "all" → ∀ it ∈ scopeItems scope,
            IsCamera old.config it ∨ (old.config.group.lookup it).isSome) := by
        by_cases hall : scope = "all" <;> simp [askedScope, hall]
      simp only [AddCommand.entry, fromStr_viewer h hn hphc hs, AddCommand.Fits, ← hscope]
      constructor
      · rintro ⟨c, ⟨harray, rfl⟩, hc⟩
        exact ⟨harray, (Config.validate_addViewer hvalid).mp hc⟩
      · rintro ⟨harray, hfresh⟩
        exact ⟨_, ⟨harray, rfl⟩, (Config.validate_addViewer hvalid).mpr hfresh⟩

/-- **A configuration that loads still does when an account was added that fits it**, and
only then, if the arguments of the command are plain. -/
theorem added_account_loads
    (hphc : ∀ password hash, env.hashPassword password = .ok hash → Plain hash)
    (hload : loadFile refusal age file = .ok cfg) (hrun : cmd.run env file = (file', .ok ())) :
    (cmd.IsPlain ∧ cmd.Fits (fileText file) cfg → ∃ cfg', loadFile refusal age file' = .ok cfg') ∧
      (cmd.IsPlain → (∃ cfg', loadFile refusal age file' = .ok cfg') →
        cmd.Fits (fileText file) cfg) := by
  obtain ⟨text, old, rfl, hold, rfl, hvalid⟩ := loadFile_eq_ok.mp hload
  obtain ⟨password, hash, -, hhash, rfl⟩ := AddCommand.run_ok hrun
  rw [fileText_toByteArray, ← String.toByteArray_append]
  have hiff : cmd.IsPlain →
      ((∃ cfg', loadFile refusal age (text ++ cmd.entry hash).toByteArray = .ok cfg') ↔
        cmd.Fits text old.config) := fun hplain =>
    AddCommand.loads_iff (hphc password hash hhash) hplain hold hvalid
  exact ⟨fun h => (hiff h.1).mpr h.2, fun hplain => (hiff hplain).mp⟩

end Load

/-! ## At the site -/

/-- The password of an account at the site is hashed, and its entry written. -/
def siteEnv : CommandEnv :=
  { passwordVar := some "secret"
    configVar := none
    line := .ok ""
    hashPassword := fun _ => .ok "$argon2id$v=19$m=19456,t=2,p=1$c2l0ZXNhbHQ$aGFzaA"
    openFault := none
    writeFault := none }

/-- The site loads with a second camera. -/
theorem driveway_loads : ∃ cfg file',
    loadFile (fun _ => "") shiftAge siteText.toByteArray = .ok cfg ∧
    (AddCommand.camera "driveway" none true).run siteEnv siteText.toByteArray = (file', .ok ()) ∧
    ∃ cfg', loadFile (fun _ => "") shiftAge file' = .ok cfg' := by
  obtain ⟨old, h, hvalid, hnames, hlogins, hviewers, hcamera, -⟩ := site_loads
  have hload : loadFile (fun _ => "") shiftAge siteText.toByteArray = .ok old.config :=
    loadFile_eq_ok.mpr ⟨siteText, old, rfl, h, rfl, hvalid⟩
  have hphc : ∀ password hash, siteEnv.hashPassword password = .ok hash → Plain hash := by
    rintro password hash he
    cases he
    decide
  refine ⟨old.config, _, hload, rfl, (added_account_loads hphc hload rfl).1
    ⟨⟨by decide, by simp⟩, ?_⟩⟩
  rw [fileText_toByteArray]
  refine ⟨hcamera, ?_, ?_, ?_⟩
  · rw [hnames]
    decide
  · rw [hlogins]
    decide
  · rw [hviewers]
    decide

/-- **A camera with a name that is taken is added, and the configuration loads no more.** -/
theorem taken_name : ∃ cfg file',
    loadFile (fun _ => "") shiftAge siteText.toByteArray = .ok cfg ∧
    (AddCommand.camera "front-door" none true).run siteEnv siteText.toByteArray =
      (file', .ok ()) ∧
    ∀ cfg', loadFile (fun _ => "") shiftAge file' ≠ .ok cfg' := by
  obtain ⟨old, h, hvalid, hnames, -⟩ := site_loads
  refine ⟨old.config, _, loadFile_eq_ok.mpr ⟨siteText, old, rfl, h, rfl, hvalid⟩, rfl, ?_⟩
  intro cfg' hload
  rw [← String.toByteArray_append] at hload
  have hplain : (AddCommand.camera "front-door" none true).IsPlain := ⟨by decide, by simp⟩
  have hfits : (AddCommand.camera "front-door" none true).Fits siteText old.config :=
    (AddCommand.loads_iff (by decide) hplain h hvalid).mp ⟨cfg', hload⟩
  rw [AddCommand.Fits, hnames] at hfits
  exact hfits.2.1 (by simp)

end Reoftpd

import Mathlib.Data.List.Dedup
import Mathlib.Data.List.Sort
import Reoftpd.Config
import Reoftpd.Scope

/-!
# Accounts

Login-keyed accounts made from the config (`account.rs`): a camera is an uploader
whose home is the archive root joined with its name, a viewer sees the whole archive
or the cameras its scope names.
-/
namespace Reoftpd
open UnixPath

/-- `Role`. -/
inductive Role where
  | uploader (home : OsStr)
  | viewer (scope : ScopeMap)

/-- `Account`. -/
structure Account where
  username : String
  passwordHash : String
  role : Role
  requireTls : Bool

/-- `Accounts`. -/
structure Accounts where
  byLogin : AList fun _ : String => Account

/-- `Accounts::get`. -/
def Accounts.get (accts : Accounts) (login : String) : Option Account := accts.byLogin.lookup login

/-- The camera names a scope list stands for, in order and each once. -/
def scopeNames (group : AList fun _ : String => List String) (items : List String) : List String :=
  (items.flatMap fun it => (group.lookup it).getD [it]).dedup.insertionSort (· ≤ ·)

/-- `expand_scope`. -/
def expandScope (cfg : Config) : Scope → ScopeMap
  | .all => .ofRoot cfg.archive.root
  | .list items =>
      .multi ((scopeNames cfg.group items).foldr
        (fun n m => m.insert n (join cfg.archive.root (ofString n))) ∅)

/-- The home of a camera. -/
def cameraHome (cfg : Config) (cam : CameraCfg) : OsStr :=
  join cfg.archive.root (ofString cam.name)

/-- The account of a camera. -/
def cameraAccount (cfg : Config) (cam : CameraCfg) : Account :=
  { username := cam.login
    passwordHash := cam.uploadPasswordHash
    role := .uploader (cameraHome cfg cam)
    requireTls := cam.requireTls.getD false }

/-- The account of a viewer. -/
def viewerAccount (cfg : Config) (v : ViewerCfg) : Account :=
  { username := v.name
    passwordHash := v.passwordHash
    role := .viewer (expandScope cfg v.scope)
    requireTls := false }

/-- The camera loop of `build`. -/
def insertCameras (cfg : Config) (m : AList fun _ : String => Account) :
    AList fun _ : String => Account :=
  cfg.camera.foldl (fun m cam => m.insert cam.login (cameraAccount cfg cam)) m

/-- The viewer loop of `build`. -/
def insertViewers (cfg : Config) (m : AList fun _ : String => Account) :
    AList fun _ : String => Account :=
  cfg.viewer.foldl (fun m v => m.insert v.name (viewerAccount cfg v)) m

/-- `build`. -/
def build (cfg : Config) : Accounts := ⟨insertViewers cfg (insertCameras cfg ∅)⟩

/-! ## What `build` makes -/

section Inserted
variable {A B : Type} {key : A → String} {val : A → B} {l : List A}
  {m : AList fun _ : String => B} {k : String}

/-- What a loop of inserts leaves at a key: the value of an entry, or what was there. -/
theorem lookup_foldl_insert {b : B}
    (h : (l.foldl (fun m a => m.insert (key a) (val a)) m).lookup k = some b) :
    (∃ a ∈ l, key a = k ∧ val a = b) ∨ m.lookup k = some b := by
  induction l generalizing m with
  | nil => exact Or.inr h
  | cons a l ih =>
      rcases ih h with ⟨a', ha', hk⟩ | hm
      · exact Or.inl ⟨a', List.mem_cons_of_mem _ ha', hk⟩
      · by_cases hk : k = key a
        · subst hk
          rw [AList.lookup_insert] at hm
          exact Or.inl ⟨a, List.mem_cons_self .., rfl, Option.some.inj hm⟩
        · rw [AList.lookup_insert_ne hk] at hm
          exact Or.inr hm

/-- A loop of inserts leaves a key that none of its entries has. -/
theorem lookup_foldl_insert_of_not_mem (h : ∀ a ∈ l, key a ≠ k) :
    (l.foldl (fun m a => m.insert (key a) (val a)) m).lookup k = m.lookup k := by
  induction l generalizing m with
  | nil => rfl
  | cons a l ih =>
      rw [List.foldl_cons, ih (fun a' ha' => h a' (List.mem_cons_of_mem _ ha')),
        AList.lookup_insert_ne (h a (List.mem_cons_self ..)).symm]

/-- A loop of inserts with distinct keys leaves every entry. -/
theorem lookup_foldl_insert_of_mem {a : A} (hl : (l.map key).Nodup) (ha : a ∈ l) :
    (l.foldl (fun m a => m.insert (key a) (val a)) m).lookup (key a) = some (val a) := by
  induction l generalizing m with
  | nil => cases ha
  | cons a' l ih =>
      obtain ⟨hnot, hl⟩ := List.nodup_cons.mp hl
      rcases List.mem_cons.mp ha with rfl | ha
      · rw [List.foldl_cons, lookup_foldl_insert_of_not_mem, AList.lookup_insert]
        exact fun b hb he => hnot (he ▸ List.mem_map_of_mem hb)
      · exact ih hl ha

/-- A loop of inserts with new and distinct keys adds a key for every entry. -/
theorem keys_foldl_insert (hl : (l.map key).Nodup) (hm : ∀ a ∈ l, key a ∉ m) :
    (l.foldl (fun m a => m.insert (key a) (val a)) m).keys =
      (l.map key).reverse ++ m.keys := by
  induction l generalizing m with
  | nil => rfl
  | cons a l ih =>
      obtain ⟨hnot, hl⟩ := List.nodup_cons.mp hl
      have hnew : key a ∉ m.keys := hm a (List.mem_cons_self ..)
      have hrest : ∀ b ∈ l, key b ∉ m.insert (key a) (val a) := by
        intro b hb hmem
        rcases (AList.mem_insert _).mp hmem with he | hmem
        · exact hnot (he ▸ List.mem_map_of_mem hb)
        · exact hm b (List.mem_cons_of_mem _ hb) hmem
      rw [List.foldl_cons, ih hl hrest, AList.keys_insert, List.erase_of_not_mem hnew]
      simp

end Inserted

section Build
variable {cfg : Config} {login : String}

/-- Every account is a camera's or a viewer's. -/
theorem build_get {a : Account} (h : (build cfg).get login = some a) :
    (∃ cam ∈ cfg.camera, cam.login = login ∧ cameraAccount cfg cam = a) ∨
      ∃ v ∈ cfg.viewer, v.name = login ∧ viewerAccount cfg v = a := by
  rcases lookup_foldl_insert h with hv | hc
  · exact Or.inr hv
  · rcases lookup_foldl_insert hc with hc | hempty
    · exact Or.inl hc
    · simp at hempty

/-- Every uploader is a camera, at home where its name says. -/
theorem build_uploader {a : Account} {home : OsStr} (h : (build cfg).get login = some a)
    (hrole : a.role = .uploader home) :
    ∃ cam ∈ cfg.camera, cam.login = login ∧ home = cameraHome cfg cam := by
  rcases build_get h with ⟨cam, hcam, hlogin, rfl⟩ | ⟨v, -, -, rfl⟩
  · exact ⟨cam, hcam, hlogin, (Role.uploader.inj hrole).symm⟩
  · cases hrole

/-- Under a config that keeps its names apart, every camera has its account. -/
theorem build_get_camera (hd : cfg.Distinct) {cam : CameraCfg} (hcam : cam ∈ cfg.camera) :
    (build cfg).get cam.login = some (cameraAccount cfg cam) :=
  (lookup_foldl_insert_of_not_mem fun v hv => hd.apart v hv cam hcam).trans
    (lookup_foldl_insert_of_mem hd.logins hcam)

/-- And every viewer has its own. -/
theorem build_get_viewer (hd : cfg.Distinct) {v : ViewerCfg} (hv : v ∈ cfg.viewer) :
    (build cfg).get v.name = some (viewerAccount cfg v) :=
  lookup_foldl_insert_of_mem hd.viewers hv

/-- The logins of the accounts: the cameras' and then the viewers', latest first. -/
theorem build_keys (hd : cfg.Distinct) :
    (build cfg).byLogin.keys =
      (cfg.viewer.map ViewerCfg.name).reverse ++ (cfg.camera.map CameraCfg.login).reverse := by
  have hcams : (insertCameras cfg ∅).keys = (cfg.camera.map CameraCfg.login).reverse := by
    refine (keys_foldl_insert hd.logins fun cam _ => AList.notMem_empty _).trans ?_
    simp
  have hnew : ∀ v ∈ cfg.viewer, v.name ∉ insertCameras cfg ∅ := by
    intro v hv hmem
    have hlogin := AList.mem_keys.mp hmem
    rw [hcams, List.mem_reverse, List.mem_map] at hlogin
    obtain ⟨cam, hcam, he⟩ := hlogin
    exact hd.apart v hv cam hcam he.symm
  refine (keys_foldl_insert hd.viewers hnew).trans ?_
  rw [hcams]

end Build

/-! ## The view a scope stands for -/

/-- **What a viewer's scope means**, by itself: the whole archive, or for every camera
the scope names, by its own name or as a member of a group, the directory of that camera
under the archive root, and nothing else. -/
def ScopeStandsFor (cfg : Config) : Scope → ScopeMap → Prop
  | .all, m => m = .ofRoot cfg.archive.root
  | .list items, m =>
      m.single = none ∧ ∀ name root, m.roots.lookup name = some root ↔
        (∃ it ∈ items, name ∈ (cfg.group.lookup it).getD [it]) ∧
          root = join cfg.archive.root (ofString name)

theorem lookup_foldr_insert {V : Type} {names : List String} {f : String → V} {name : String}
    {x : V} : (names.foldr (fun n m => AList.insert n (f n) m) ∅).lookup name = some x ↔
      name ∈ names ∧ x = f name := by
  induction names with
  | nil => simp
  | cons n names ih =>
      rw [List.foldr_cons]
      by_cases hn : name = n
      · subst hn
        rw [AList.lookup_insert, Option.some.injEq]
        simp [eq_comm]
      · rw [AList.lookup_insert_ne hn, ih]
        simp [hn]

theorem mem_scopeNames {group : AList fun _ : String => List String} {items : List String}
    {name : String} :
    name ∈ scopeNames group items ↔ ∃ it ∈ items, name ∈ (group.lookup it).getD [it] := by
  rw [scopeNames, List.mem_insertionSort, List.mem_dedup, List.mem_flatMap]

/-- `expand_scope` makes what the scope stands for. -/
theorem expandScope_standsFor (cfg : Config) (scope : Scope) :
    ScopeStandsFor cfg scope (expandScope cfg scope) := by
  cases scope with
  | all => rfl
  | list items =>
      refine ⟨rfl, fun name root => ?_⟩
      rw [← mem_scopeNames]
      exact lookup_foldr_insert

/-- **No account is lost or shadowed.**  A valid config yields one account for every
camera and every viewer, each with its own password and rights, and no other. -/
theorem build_exact {age : Age} {cfg : Config} (h : cfg.validate age = .ok ()) :
    (build cfg).byLogin.keys.length = cfg.camera.length + cfg.viewer.length ∧
    (∀ cam ∈ cfg.camera, ∃ a, (build cfg).get cam.login = some a ∧
      a.role = .uploader (join cfg.archive.root (ofString cam.name)) ∧
      a.passwordHash = cam.uploadPasswordHash ∧ a.requireTls = cam.requireTls.getD false) ∧
    (∀ v ∈ cfg.viewer, ∃ a scope, (build cfg).get v.name = some a ∧
      a.role = .viewer scope ∧ a.passwordHash = v.passwordHash ∧
      ScopeStandsFor cfg v.scope scope) ∧
    ∀ login a, (build cfg).get login = some a →
      (∃ cam ∈ cfg.camera, cam.login = login) ∨ ∃ v ∈ cfg.viewer, v.name = login := by
  have hd := cfg.distinct_of_validate h
  refine ⟨?_, ?_, ?_, ?_⟩
  · rw [build_keys hd]
    simp [Nat.add_comm]
  · intro cam hcam
    exact ⟨_, build_get_camera hd hcam, rfl, rfl, rfl⟩
  · intro v hv
    exact ⟨_, _, build_get_viewer hd hv, rfl, rfl, expandScope_standsFor cfg v.scope⟩
  · intro login a ha
    rcases build_get ha with ⟨cam, hcam, hlogin, -⟩ | ⟨v, hv, hlogin, -⟩
    · exact Or.inl ⟨cam, hcam, hlogin⟩
    · exact Or.inr ⟨v, hv, hlogin⟩

/-- Two cameras, one with a login of its own, a group of both, and a guard who sees it. -/
def guardedYard : Config where
  server := ⟨(2122, 2132)⟩
  archive := ⟨ofString "/srv", 30⟩
  limits := ⟨8, none⟩
  camera := [⟨"yard", some "cam1", "h1", some true⟩, ⟨"gate", none, "h2", none⟩]
  group := AList.insert "site" ["yard", "gate"] ∅
  viewer := [⟨"guard", "h3", .list ["site"]⟩]
  encryption := none

/-- Three accounts: the guard's, and the camera `yard` under its login. -/
theorem guardedYard_accounts :
    (build guardedYard).byLogin.keys.length = 3 ∧
      ∃ a, (build guardedYard).get "cam1" = some a ∧ a.requireTls = true := by
  obtain ⟨hsize, hcams, -⟩ := @build_exact shiftAge guardedYard (by rfl)
  obtain ⟨a, ha, -, -, htls⟩ := hcams ⟨"yard", some "cam1", "h1", some true⟩ (by simp [guardedYard])
  exact ⟨hsize, a, ha, htls⟩

end Reoftpd

import Reoftpd.Account

/-!
# What a scope list names

The items of a viewer's scope are names of cameras and of groups.  A config that validates
has only items that are one or the other, and groups only of cameras.  An item may be both,
and `expand_scope` then takes it for the group alone.

**The expansion is exact** if and only if every such camera is in the scope anyway, as a
member of some group of the list (`scope_expansion_iff`).
-/
namespace Reoftpd
open UnixPath

/-- A camera of that name is in the config. -/
def IsCamera (cfg : Config) (n : String) : Prop := ∃ cam ∈ cfg.camera, cam.name = n

/-- The list names the camera itself. -/
def NamedDirectly (cfg : Config) (items : List String) (n : String) : Prop :=
  n ∈ items ∧ IsCamera cfg n

/-- The list names a group that the camera is a member of. -/
def MemberOfNamed (cfg : Config) (items : List String) (n : String) : Prop :=
  ∃ g ∈ items, ∃ members, cfg.group.lookup g = some members ∧ n ∈ members

/-- **The scope is what its list names**: the cameras named directly and the members of the
groups named, each once, and each at its name under the archive root. -/
structure ScopeExact (cfg : Config) (items : List String) (scope : ScopeMap) : Prop where
  once : scope.listRoot.Nodup
  names : ∀ n, n ∈ scope.listRoot ↔ NamedDirectly cfg items n ∨ MemberOfNamed cfg items n
  roots : ∀ n ∈ scope.listRoot,
    scope.roots.lookup n = some (join cfg.archive.root (ofString n))

section Valid
variable {age : Age} {cfg : Config} {names items : List String}
  {group : AList fun _ : String => List String}

/-! ## What a valid config promises of names -/

theorem checkMembers_ok {g : String} {members : List String}
    (h : checkMembers names g members = .ok ()) : ∀ m ∈ members, m ∈ names := by
  induction members with
  | nil => simp
  | cons m members ih =>
      unfold checkMembers at h
      split at h
      · rename_i hm
        exact List.forall_mem_cons.mpr ⟨hm, ih h⟩
      · cases h

theorem checkGroups_ok {groups : List (Sigma fun _ : String => List String)}
    (h : checkGroups names groups = .ok ()) : ∀ g ∈ groups, ∀ m ∈ g.2, m ∈ names := by
  induction groups with
  | nil => simp
  | cons g groups ih =>
      unfold checkGroups at h
      split at h
      · rename_i hg
        exact List.forall_mem_cons.mpr ⟨checkMembers_ok hg, ih h⟩
      · cases h

theorem checkItems_ok {viewer : String} (h : checkItems names group viewer items = .ok ()) :
    ∀ it ∈ items, it ∈ names ∨ (group.lookup it).isSome := by
  induction items with
  | nil => simp
  | cons it items ih =>
      unfold checkItems at h
      split at h
      · rename_i hit
        exact List.forall_mem_cons.mpr ⟨hit, ih h⟩
      · cases h

theorem checkScopes_ok {viewers : List ViewerCfg} (h : checkScopes names group viewers = .ok ()) :
    ∀ v ∈ viewers, ∀ items, v.scope = .list items →
      ∀ it ∈ items, it ∈ names ∨ (group.lookup it).isSome := by
  induction viewers with
  | nil => simp
  | cons v viewers ih =>
      unfold checkScopes at h
      split at h
      · rename_i hall
        refine List.forall_mem_cons.mpr ⟨fun items hitems => ?_, ih h⟩
        rw [hall] at hitems
        cases hitems
      · rename_i items' hlist
        split at h
        · rename_i hitems'
          refine List.forall_mem_cons.mpr ⟨fun items hitems => ?_, ih h⟩
          obtain rfl := Scope.list.inj (hlist.symm.trans hitems)
          exact checkItems_ok hitems'
        · cases h

/-- **A valid config knows its names**: the members of groups are cameras, and the items of
scopes are cameras or groups. -/
theorem Config.known_of_validate (h : cfg.validate age = .ok ()) :
    (∀ g members, cfg.group.lookup g = some members → ∀ m ∈ members, IsCamera cfg m) ∧
      ∀ v ∈ cfg.viewer, ∀ items, v.scope = .list items →
        ∀ it ∈ items, IsCamera cfg it ∨ (cfg.group.lookup it).isSome := by
  unfold Config.validate at h
  split at h
  · cases h
  · obtain ⟨⟨names, logins⟩, hcams, h⟩ := bind_eq_ok h
    obtain ⟨⟨rfl, -⟩, -, -⟩ := checkCameras_ok hcams
    obtain ⟨⟨⟩, hgroups, h⟩ := bind_eq_ok h
    obtain ⟨⟨⟩, -, h⟩ := bind_eq_ok h
    obtain ⟨⟨⟩, hscopes, -⟩ := bind_eq_ok h
    have hname : ∀ n, n ∈ (cfg.camera.map CameraCfg.name).reverse ++ [] ↔ IsCamera cfg n := by
      simp [IsCamera]
    refine ⟨fun g members hg m hm => ?_, fun v hv items hitems it hit => ?_⟩
    · exact (hname m).mp (checkGroups_ok hgroups ⟨g, members⟩ (AList.mem_lookup_iff.mp hg) m hm)
    · exact (checkScopes_ok hscopes v hv items hitems it hit).imp_left (hname it).mp

/-! ## The expansion -/

/-- The keys that a loop of inserts from the back makes. -/
theorem mem_keys_foldr_insert {V : Type} {f : String → V} {n : String} :
    n ∈ (names.foldr (fun n m => AList.insert n (f n) m) ∅).keys ↔ n ∈ names := by
  rw [← AList.mem_keys, ← AList.lookup_isSome, Option.isSome_iff_exists]
  simp only [lookup_foldr_insert]
  exact ⟨fun ⟨_, hn, _⟩ => hn, fun hn => ⟨_, hn, rfl⟩⟩

/-- The names of an expanded list: its items that are no groups, and the members of those
that are. -/
theorem mem_scopeNames_iff {n : String} : n ∈ scopeNames cfg.group items ↔
    (n ∈ items ∧ cfg.group.lookup n = none) ∨ MemberOfNamed cfg items n := by
  rw [mem_scopeNames]
  constructor
  · rintro ⟨it, hit, hn⟩
    cases hg : cfg.group.lookup it with
    | none =>
        rw [hg, Option.getD_none, List.mem_singleton] at hn
        subst hn
        exact Or.inl ⟨hit, hg⟩
    | some members =>
        rw [hg, Option.getD_some] at hn
        exact Or.inr ⟨it, hit, members, hg, hn⟩
  · rintro (⟨hit, hg⟩ | ⟨g, hg, members, hl, hn⟩)
    · exact ⟨n, hit, by simp [hg]⟩
    · exact ⟨g, hg, by simpa [hl] using hn⟩

theorem mem_listRoot_expandScope {n : String} :
    n ∈ (expandScope cfg (.list items)).listRoot ↔ n ∈ scopeNames cfg.group items :=
  mem_keys_foldr_insert

/-- **Every name a viewer's scope expands to is a camera's.** -/
theorem isCamera_of_mem_listRoot (h : cfg.validate age = .ok ()) {v : ViewerCfg}
    (hv : v ∈ cfg.viewer) (hscope : v.scope = .list items) {n : String}
    (hn : n ∈ (expandScope cfg (.list items)).listRoot) : IsCamera cfg n := by
  obtain ⟨hmembers, hknown⟩ := cfg.known_of_validate h
  rcases mem_scopeNames_iff.mp (mem_listRoot_expandScope.mp hn) with
    ⟨hit, hg⟩ | ⟨g, -, members, hl, hm⟩
  · exact (hknown v hv items hscope n hit).resolve_right (by simp [hg])
  · exact hmembers g members hl n hm

/-- **Scope expansion is exact** if and only if every item that names a camera and a group
is a member of a group that the list names. -/
theorem scope_expansion_iff (h : cfg.validate age = .ok ()) {v : ViewerCfg}
    (hv : v ∈ cfg.viewer) (hscope : v.scope = .list items) :
    ∃ a scope, (build cfg).get v.name = some a ∧ a.role = .viewer scope ∧
      (ScopeExact cfg items scope ↔
        ∀ it ∈ items, IsCamera cfg it → (cfg.group.lookup it).isSome →
          MemberOfNamed cfg items it) := by
  refine ⟨_, expandScope cfg (.list items), build_get_viewer (cfg.distinct_of_validate h) hv,
    by rw [viewerAccount, hscope], ?_⟩
  -- the code adds the items that name no group, and the members of those that do
  have hexp : ∀ n, n ∈ (expandScope cfg (.list items)).listRoot ↔
      (n ∈ items ∧ cfg.group.lookup n = none) ∨ MemberOfNamed cfg items n := fun n =>
    mem_listRoot_expandScope.trans mem_scopeNames_iff
  constructor
  · intro hexact it hit hcam hgroup
    rcases (hexp it).mp ((hexact.names it).mpr (Or.inl ⟨hit, hcam⟩)) with ⟨-, hnone⟩ | hmember
    · rw [hnone] at hgroup
      cases hgroup
    · exact hmember
  · intro hcond
    refine ⟨AList.keys_nodup _, fun n => (hexp n).trans ⟨?_, ?_⟩, fun n hn => ?_⟩
    · rintro (hdirect | hmember)
      · refine Or.inl ⟨hdirect.1, ?_⟩
        exact isCamera_of_mem_listRoot h hv hscope ((hexp n).mpr (Or.inl hdirect))
      · exact Or.inr hmember
    · rintro (⟨hit, hcam⟩ | hmember)
      · cases hg : cfg.group.lookup n with
        | none => exact Or.inl ⟨hit, rfl⟩
        | some members => exact Or.inr (hcond n hit hcam (by simp [hg]))
      · exact Or.inr hmember
    · exact lookup_foldr_insert.mpr ⟨mem_listRoot_expandScope.mp hn, rfl⟩

end Valid

/-! ## A camera with the name of a group -/

/-- The scope of the guard is exact. -/
theorem guard_scope_exact : ∃ a scope, (build guardedYard).get "guard" = some a ∧
    a.role = .viewer scope ∧ (ScopeExact guardedYard ["site"] scope ↔
      ∀ it ∈ ["site"], IsCamera guardedYard it → (guardedYard.group.lookup it).isSome →
        MemberOfNamed guardedYard ["site"] it) := by
  have hvalid : guardedYard.validate shiftAge = .ok () := by decide
  have hguard : (⟨"guard", "h3", .list ["site"]⟩ : ViewerCfg) ∈ guardedYard.viewer :=
    List.mem_cons_self ..
  exact scope_expansion_iff hvalid hguard rfl

/-- A group named after a camera that is not in it. -/
def doubleNames : Config :=
  { guardedYard with
    camera := [⟨"site", none, "h1", none⟩, ⟨"gate", none, "h2", none⟩]
    group := AList.insert "site" ["gate"] ∅ }

/-- **A camera named directly is left out** when a group has its name. -/
theorem named_camera_left_out :
    doubleNames.validate shiftAge = .ok () ∧ NamedDirectly doubleNames ["site"] "site" ∧
      (expandScope doubleNames (.list ["site"])).listRoot = ["gate"] ∧
      ¬ ScopeExact doubleNames ["site"] (expandScope doubleNames (.list ["site"])) := by
  have hnamed : NamedDirectly doubleNames ["site"] "site" :=
    ⟨List.mem_cons_self .., _, List.mem_cons_self .., rfl⟩
  have hlist : (expandScope doubleNames (.list ["site"])).listRoot = ["gate"] := by
    decide +kernel
  refine ⟨by decide, hnamed, hlist, fun h => ?_⟩
  have hmem := (h.names "site").mpr (Or.inl hnamed)
  rw [hlist] at hmem
  exact absurd hmem (by decide)

end Reoftpd

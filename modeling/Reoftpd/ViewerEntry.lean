import Reoftpd.DirectoryViews
import Reoftpd.HomesKept
import Reoftpd.ScopeExpansion

/-!
# From the listing into a camera

A viewer whose scope is a list is shown the names of cameras at its root.  `cwd` and `list`
take `/` and such a name for a path and look up its first name.

**What is shown can be entered**, if the name is a file name.  A name with separators in
it says a way through another camera's directory, if that is in the scope at all; an
absolute name starts over at the root of the file system.  `listed_entered_iff` says
exactly when the way leads to the camera's directory.
-/
namespace Reoftpd
open UnixPath FileTree

/-- `cwd` and `list` succeed on the virtual path and act on the directory that `dir` leads
to. -/
structure Enters (t : FileTree) (user : ReoUser) (virt dir : OsStr) : Prop where
  cwd : ReoBackend.cwd t user virt = .ok ()
  list : ∃ entries, ReoBackend.list t user virt = .ok entries
  acts : ∃ L, t.locate true dir = .ok L ∧ LeadsToDir t user virt L

/-- **The name leads back to its camera**: its first name is in the scope, and if it is
absolute, it leads from there to where it leads from the root of the file system. -/
def LeadsBack (t : FileTree) (cfg : Config) (scope : ScopeMap) (n : String) : Prop :=
  ∃ c rest, normalize (sep :: ofString n) = .ok (c :: rest) ∧ c ∈ scope.listRoot ∧
    (isAbsolute (ofString n) = true →
      ∃ B, t.locate true (join cfg.archive.root (ofString c)) = .ok B ∧
        t.locate true (ofString n) = .ok (B ++ rest.map ofString))

section Entry
variable {t : FileTree} {cfg : Config} {user : ReoUser} {scope : ScopeMap} {virt : OsStr}
  {c n : String} {rest : List String} {B L : Loc}

/-- Entering takes no more than a path that leads to the directory. -/
theorem enters_iff {dir : OsStr} : Enters t user virt dir ↔
    ∃ L, t.locate true dir = .ok L ∧ LeadsToDir t user virt L := by
  constructor
  · exact Enters.acts
  · rintro ⟨L, hL, hdir⟩
    exact ⟨cwd_ok_iff.mpr (Or.inr ⟨L, hdir⟩), list_ok_iff.mpr (Or.inr ⟨L, hdir⟩), L, hL, hdir⟩

/-- **Where a virtual path leads** in the directory of a camera without links. -/
theorem leadsToDir_camera_iff {base : OsStr} (hview : userView user = scope)
    (hsingle : scope.single = none) (hnames : normalize virt = .ok (c :: rest))
    (hroot : scope.roots.lookup c = some base) (hfree : t.LinkFree base)
    (hB : t.locate true base = .ok B) (hbound : t.entry B ≠ none) :
    LeadsToDir t user virt L ↔ L = B ++ rest.map ofString ∧ t.entry L = some .dir := by
  have hisname : ∀ s ∈ rest.map ofString, IsName s := by
    intro s hs
    obtain ⟨m, hm, rfl⟩ := List.mem_map.mp hs
    exact isName_of_normalize hnames m (List.mem_cons_of_mem _ hm)
  have hres : (userView user).resolve t virt = .ok (locText (B ++ rest.map ofString)) := by
    rw [hview, ScopeMap.resolve, ScopeMap.target, hnames, hsingle]
    simp only [hroot, joinAll_eq]
    exact contained_eq hfree hB hbound hisname
  constructor
  · rintro ⟨real, hreal, hfind⟩
    obtain rfl := Except.ok.inj (hres.symm.trans hreal)
    obtain ⟨hL, hdir⟩ := find_ok.mp hfind
    have hall : ∀ s ∈ B ++ rest.map ofString, IsName s := fun s hs =>
      (List.mem_append.mp hs).elim (isName_of_entry hbound s) (hisname s)
    exact ⟨(hfree.straight hB hbound _).locate hall hL, hdir⟩
  · rintro ⟨rfl, hdir⟩
    exact ⟨_, hres, find_ok.mpr ⟨locate_locText (by simp [hdir]) (by simp [hdir]), hdir⟩⟩

/-- **A relative name** leads from the root to where its names lead from there. -/
theorem locate_names {root : OsStr} (hn : isAbsolute (ofString n) = false)
    (hnames : normalize (sep :: ofString n) = .ok (c :: rest))
    (h : t.locate true (join root (ofString n)) = .ok L) :
    t.locate true (((c :: rest).map ofString).foldl join root) = .ok L := by
  have hparts := normalize_string hnames
  have hisname : ∀ s ∈ (c :: rest).map ofString, IsName s := by
    intro s hs
    obtain ⟨m, hm, rfl⟩ := List.mem_map.mp hs
    exact isName_of_normalize hnames m hm
  obtain ⟨hseg, hend, hnul⟩ := foldl_join_text root hisname
  have habs : isAbsolute (((c :: rest).map ofString).foldl join root) = isAbsolute root :=
    (spells_foldl root hisname).absolute
  obtain ⟨-, hfree, -⟩ := locateSteps_ok h
  -- the name has no NUL byte, or the text it is joined to would not have led anywhere
  have hfree' : nul ∉ root ∧ nul ∉ ofString n := by
    unfold join at hfree
    rw [if_neg (by simp [hn])] at hfree
    split at hfree
    · simpa [not_or] using hfree
    · rw [List.mem_append, List.mem_cons, not_or, not_or] at hfree
      exact ⟨hfree.1, hfree.2.2⟩
  have hne : ((c :: rest).map ofString).foldl join root ≠ [] := by
    intro hnil
    rw [hnil, segments_nil] at hseg
    exact absurd (List.append_eq_nil_iff.mp hseg.symm).2 (by simp)
  refine locate_thin h (habs.trans (isAbsolute_join hn).symm) hne ?_ (hend (by simp)) ?_
  · refine hnul.mpr ⟨hfree'.1, fun s hs => nul_not_mem_segments ?_ hfree'.2⟩
    rw [hparts] at hs
    exact List.mem_of_mem_filter hs
  · rw [hseg, segments_join hn, hparts]
    exact (thin_filter _).append _

/-- **The way through a listed name** ends in the camera's directory exactly when the name
leads back to it. -/
theorem enters_camera_iff (hview : userView user = scope) (hsingle : scope.single = none)
    (hroots : ∀ c ∈ scope.listRoot,
      scope.roots.lookup c = some (join cfg.archive.root (ofString c)))
    (hfree : ∀ c ∈ scope.listRoot, t.LinkFree (join cfg.archive.root (ofString c)))
    (hdirs : ∀ c ∈ scope.listRoot, join cfg.archive.root (ofString c) ≠ [] →
      t.isDir (join cfg.archive.root (ofString c)) = true) (hn : n ∈ scope.listRoot) :
    Enters t user (sep :: ofString n) (join cfg.archive.root (ofString n)) ↔
      LeadsBack t cfg scope n := by
  rw [enters_iff]
  constructor
  · rintro ⟨L, hL, hdir⟩
    obtain ⟨real, hres, hfind⟩ := id hdir
    rw [hview, ScopeMap.resolve, ScopeMap.target] at hres
    cases hnames : normalize (sep :: ofString n) with
    | error e =>
        rw [hnames] at hres
        cases hres
    | ok parts =>
        rw [hnames, hsingle] at hres
        cases parts with
        | nil => cases hres
        | cons c rest =>
            cases hl : scope.roots.lookup c with
            | none =>
                simp only [hl] at hres
                cases hres
            | some base =>
                have hc : c ∈ scope.listRoot :=
                  AList.mem_keys.mp (AList.lookup_isSome.mp (by simp [hl]))
                obtain rfl := Option.some.inj (hl.symm.trans (hroots c hc))
                have hcne : join cfg.archive.root (ofString c) ≠ [] := join_ne_nil
                  (isName_of_normalize hnames c (List.mem_cons_self ..))
                obtain ⟨B, hB, hBdir⟩ := isDir_iff.mp (hdirs c hc hcne)
                obtain ⟨rfl, -⟩ := (leadsToDir_camera_iff hview hsingle hnames hl (hfree c hc) hB
                  (by simp [hBdir])).mp hdir
                refine ⟨c, rest, hnames, hc, fun habs => ⟨B, hB, ?_⟩⟩
                rw [join_absolute habs] at hL
                exact hL
  · rintro ⟨c, rest, hnames, hc, habsolute⟩
    have hisname : ∀ s ∈ rest.map ofString, IsName s := by
      intro s hs
      obtain ⟨m, hm, rfl⟩ := List.mem_map.mp hs
      exact isName_of_normalize hnames m (List.mem_cons_of_mem _ hm)
    have hcname : IsName (ofString c) := isName_of_normalize hnames c (List.mem_cons_self ..)
    obtain ⟨B, hB, hBdir⟩ := isDir_iff.mp (hdirs c hc (join_ne_nil hcname))
    have hne : join cfg.archive.root (ofString n) ≠ [] := by
      intro hnil
      have hempty : ofString n = [] := by
        unfold join at hnil
        split at hnil
        · exact hnil
        · split at hnil
          · exact (List.append_eq_nil_iff.mp hnil).2
          · simp at hnil
      have hparts := normalize_string hnames
      rw [hempty] at hparts
      cases hparts
    obtain ⟨L, hL, hLdir⟩ := isDir_iff.mp (hdirs n hn hne)
    have hat : L = B ++ rest.map ofString := by
      cases habs : isAbsolute (ofString n) with
      | true =>
          obtain ⟨B', hB', hLB⟩ := habsolute habs
          obtain rfl : B = B' := Except.ok.inj (hB.symm.trans hB')
          rw [join_absolute habs, hLB] at hL
          exact (Except.ok.inj hL).symm
      | false =>
          have hsame := locate_names habs hnames hL
          rw [List.map_cons, List.foldl_cons] at hsame
          exact locate_spelled (hfree c hc) hB hisname (spells_foldl _ hisname) hsame
    refine ⟨L, hL, ?_⟩
    exact (leadsToDir_camera_iff hview hsingle hnames (hroots c hc) (hfree c hc) hB
      (by simp [hBdir])).mpr ⟨hat, hLdir⟩

/-- A name that is a file name leads back. -/
theorem leadsBack_of_name (hname : IsName (ofString n)) (hn : n ∈ scope.listRoot) :
    LeadsBack t cfg scope n := by
  have habs : isAbsolute (sep :: ofString n) = true := rfl
  have hnormal : normalize (sep :: ofString n) = .ok [n] := by
    have hlossy : toStringLossy (ofString n) = n := by
      simp [toStringLossy, ofString, Function.comp_def, OsChar.lossy]
    rw [normalize, components, if_pos habs, segments_sep_cons, segments_name hname,
      List.filter_cons_of_pos (by simpa using hname.2.2.1), List.filter_nil, List.map_singleton,
      classify, if_neg hname.2.2.2]
    simp [normalizeComponents, hlossy]
  exact ⟨n, [], hnormal, hn, fun h => by
    rw [isAbsolute_name hname] at h
    cases h⟩

end Entry

/-- **What a viewer is shown at the root can be entered** exactly when its name leads back
to it: for every listed name of a camera, `cwd` and `list` on `/` and the name succeed and
act on the directory of that camera. -/
theorem listed_entered_iff {age : Age} {cfg : Config} {t t' : FileTree} {fault : MkdirFault}
    {v : ViewerCfg} {items : List String} {a : Account} {user : ReoUser}
    {entries : List (OsStr × Meta)} (hvalid : cfg.validate age = .ok ())
    (hfree : LinkFreeArchive cfg t) (hmade : ensureHomeDirs fault cfg t = (t', .ok ()))
    (hv : v ∈ cfg.viewer) (hscope : v.scope = .list items)
    (ha : (build cfg).get v.name = some a) (hrole : user.role = a.role)
    (hlist : ReoBackend.list t' user [sep] = .ok entries) :
    ∀ e ∈ entries, ∃ n, e.1 = ofString n ∧ IsCamera cfg n ∧
      (Enters t' user (sep :: e.1) (join cfg.archive.root e.1) ↔
        LeadsBack t' cfg (expandScope cfg (.list items)) n) := by
  have hd := cfg.distinct_of_validate hvalid
  obtain rfl := Option.some.inj ((build_get_viewer hd hv).symm.trans ha)
  have hviewer : user.role = .viewer (expandScope cfg (.list items)) := by
    rw [hrole, viewerAccount, hscope]
  have hview : userView user = expandScope cfg (.list items) := by
    rw [userView, hviewer]
  obtain ⟨hg, hdirs⟩ := makeHomes_dirs hmade
  have hfree' := hfree.of_sameLinks hg.toSameLinks
  have hcam : ∀ c ∈ (expandScope cfg (.list items)).listRoot, IsCamera cfg c := fun c hc =>
    isCamera_of_mem_listRoot hvalid hv hscope hc
  by_cases hmulti : isSingleScope (expandScope cfg (.list items)) = false
  · rw [Synthesized.list hviewer rfl hmulti] at hlist
    obtain rfl := Except.ok.inj hlist
    intro e he
    obtain ⟨n, hn, rfl⟩ := List.mem_map.mp he
    refine ⟨n, rfl, hcam n hn, enters_camera_iff hview rfl (fun c hc => ?_) (fun c hc => ?_)
      (fun c hc hne => ?_) hn⟩
    · exact lookup_foldr_insert.mpr ⟨mem_listRoot_expandScope.mp hc, rfl⟩
    · obtain ⟨cam, hmem, rfl⟩ := hcam c hc
      exact hfree'.homes cam hmem
    · obtain ⟨cam, hmem, rfl⟩ := hcam c hc
      exact hdirs cam hmem hne
  · -- without a name in the scope nothing is listed
    have hroot : (userView user).single = none := by
      rw [hview]
      rfl
    have hnot : ¬ Synthesized user [sep] := by
      rintro ⟨scope, hr, -, hm⟩
      obtain rfl := Role.viewer.inj (hviewer.symm.trans hr)
      exact hmulti hm
    rcases list_ok_iff.mp ⟨entries, hlist⟩ with hsyn | ⟨L, hL⟩
    · exact absurd hsyn hnot
    · exact absurd hL (not_leadsToDir_root hroot rfl)

/-! ## A camera behind another name -/

/-- Two cameras, one with a separator in its name, and a guard who sees both. -/
def slashedYard : Config :=
  { guardedYard with
    camera := [⟨"yard", none, "h1", none⟩, ⟨"gate/left", none, "h2", none⟩]
    group := AList.insert "site" ["yard", "gate/left"] ∅ }

/-- The tree with the homes of these cameras. -/
def slashedHomes : FileTree := (ensureHomeDirs (fun _ _ => none) slashedYard .bare).1

/-- The guard, logged in. -/
def siteGuard : ReoUser := ⟨"guard", .viewer (expandScope slashedYard (.list ["site"])), false⟩

theorem slashedYard_valid : slashedYard.validate shiftAge = .ok () := by
  decide

theorem linkFree_slashedYard : LinkFreeArchive slashedYard .bare :=
  ⟨linkFree_of_no_links no_links_bare _, fun _ _ => linkFree_of_no_links no_links_bare _⟩

theorem slashedYard_made :
    ensureHomeDirs (fun _ _ => none) slashedYard .bare = (slashedHomes, .ok ()) := by
  have hok : (ensureHomeDirs (fun _ _ => none) slashedYard .bare).2 = .ok () := by decide +kernel
  exact Prod.ext rfl hok

/-- The account of the guard has the rights that the guard is logged in with. -/
theorem siteGuard_account :
    ∃ a, (build slashedYard).get "guard" = some a ∧ siteGuard.role = a.role :=
  ⟨_, build_get_viewer (slashedYard.distinct_of_validate slashedYard_valid)
    (List.mem_cons_self ..), rfl⟩

theorem listed_slashedYard : ∃ n, ofString "gate/left" = ofString n ∧ IsCamera slashedYard n ∧
    (Enters slashedHomes siteGuard (sep :: ofString "gate/left")
        (join slashedYard.archive.root (ofString "gate/left")) ↔
      LeadsBack slashedHomes slashedYard (expandScope slashedYard (.list ["site"])) n) := by
  have hguard : (⟨"guard", "h3", .list ["site"]⟩ : ViewerCfg) ∈ slashedYard.viewer :=
    List.mem_cons_self ..
  obtain ⟨a, hget, hrole⟩ := siteGuard_account
  have hlist : ReoBackend.list slashedHomes siteGuard [sep] =
      .ok [(ofString "gate/left", Meta.synthDir), (ofString "yard", Meta.synthDir)] := by
    decide +kernel
  exact listed_entered_iff slashedYard_valid linkFree_slashedYard slashedYard_made hguard rfl hget
    hrole hlist _ (List.mem_cons_self ..)

/-- **A camera is listed that cannot be entered**: its name is taken for a way through a
camera `gate`, which the scope does not have. -/
theorem listed_but_denied :
    slashedYard.validate shiftAge = .ok () ∧ LinkFreeArchive slashedYard .bare ∧
      ensureHomeDirs (fun _ _ => none) slashedYard .bare = (slashedHomes, .ok ()) ∧
      (∃ a, (build slashedYard).get "guard" = some a ∧ siteGuard.role = a.role) ∧
      ReoBackend.list slashedHomes siteGuard [sep] =
        .ok [(ofString "gate/left", .synthDir), (ofString "yard", .synthDir)] ∧
      ReoBackend.cwd slashedHomes siteGuard (ofString "/gate/left") =
        .error (.kind .permissionDenied) ∧
      ¬ Enters slashedHomes siteGuard (ofString "/gate/left") (ofString "/srv/gate/left") := by
  have hdenied : ReoBackend.cwd slashedHomes siteGuard (ofString "/gate/left") =
      .error (.kind .permissionDenied) := by decide +kernel
  refine ⟨slashedYard_valid, linkFree_slashedYard, slashedYard_made, siteGuard_account,
    by decide +kernel, hdenied, fun h => ?_⟩
  have hok := h.cwd
  rw [hdenied] at hok
  cases hok

end Reoftpd

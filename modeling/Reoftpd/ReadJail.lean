import Reoftpd.Backend

/-!
# Reads in the jail

Which object a call that looks opens, in a tree with any links.  The path that
`contained` returns is opened by following its links once more.  Where the whole path was
there, its canonical text leads where it led.  Where it was not, the names put back on the
canonical text of its longest part are walked with the limit on links starting over, and
**that may lead out of the jail**: a path with more than 40 links in it is found not to be
there, and its last link is put back on as a plain name (`metadata_escapes`).

That is the only way out.  A user stays in its jail with every call that looks exactly when
no path of that kind is there (`reads_inside_iff`).
-/
namespace Reoftpd
open UnixPath FileTree

/-! ## What a call opens, and where it may -/

/-- The directory a virtual path is confined to, and the names that go on from it: the home
of an uploader or the single root of a viewer, or else the root of the camera that the first
name says. -/
inductive JailPath (user : ReoUser) (path : OsStr) : OsStr → List OsStr → Prop
  | root {base : OsStr} {parts : List String} (single : (userView user).single = some base)
      (names : normalize path = .ok parts) : JailPath user path base (parts.map ofString)
  | camera {cam : String} {rest : List String} {base : OsStr}
      (multi : (userView user).single = none) (names : normalize path = .ok (cam :: rest))
      (inScope : (userView user).roots.lookup cam = some base) :
      JailPath user path base (rest.map ofString)

/-- The object that a call on the resolved path opens, all links followed. -/
def opened (t : FileTree) (user : ReoUser) (path : OsStr) : Option Loc :=
  match (userView user).resolve t path with
  | .error _ => none
  | .ok real =>
      match t.find true real with
      | .ok (L, _) => some L
      | .error _ => none

/-- The object opened lies at or under the directory the path is confined to. -/
def OpensInside (t : FileTree) (user : ReoUser) (path : OsStr) : Prop :=
  ∃ base names B L, JailPath user path base names ∧ t.locate true base = .ok B ∧
    opened t user path = some L ∧ B <+: L

/-- The virtual root of a viewer with several roots, which is no directory. -/
def Synthesized (user : ReoUser) (path : OsStr) : Prop :=
  ∃ scope, user.role = .viewer scope ∧ isVirtualRoot path = true ∧ isSingleScope scope = false

/-- **The reads of a path stay in the jail**: whatever call returns `Ok` opened an object
inside, or listed or entered the virtual root. -/
structure ReadsInside (t : FileTree) (user : ReoUser) (path : OsStr) : Prop where
  metadata : ∀ m, ReoBackend.metadata t user path = .ok m → OpensInside t user path
  get : ∀ startPos r, ReoBackend.get t user path startPos = .ok r → OpensInside t user path
  list : ∀ entries, ReoBackend.list t user path = .ok entries →
    OpensInside t user path ∨ Synthesized user path
  cwd : ReoBackend.cwd t user path = .ok () → OpensInside t user path ∨ Synthesized user path

/-- **The way out**: `front` leads somewhere, one name more runs over the limit on links, and
the names that are left, put back on the canonical text of `front`, seem to lead inside but
lead outside. -/
structure WayOut (t : FileTree) (base : OsStr) (front : List OsStr) (s : OsStr)
    (rest : List OsStr) (B C L : Loc) (e c : Entry OsStr) : Prop where
  base_leads : t.locate true base = .ok B
  base_there : t.entry B ≠ none
  front_leads : t.find true (front.foldl join base) = .ok (C, c)
  over_limit : t.find true ((front ++ [s]).foldl join base) = .error .filesystemLoop
  seems_inside : B <+: C ++ s :: rest
  leads : t.find true (locText (C ++ s :: rest)) = .ok (L, e)
  outside : ¬ B <+: L

/-- The way out is open for a path. -/
def HasWayOut (t : FileTree) (user : ReoUser) (path : OsStr) : Prop :=
  ∃ base front s rest B C L e c, JailPath user path base (front ++ s :: rest) ∧
    WayOut t base front s rest B C L e c

section Jail
variable {t : FileTree} {user : ReoUser} {path base real : OsStr} {names front rest : List OsStr}
  {s : OsStr} {B C L : Loc} {e c : Entry OsStr}

/-! ## The jail of a path -/

theorem JailPath.isName (h : JailPath user path base names) : ∀ s ∈ names, IsName s := by
  cases h with
  | root hs hn => exact isName_map_ofString hn
  | camera hm hn hl =>
      intro s hs
      obtain ⟨n, hmem, rfl⟩ := List.mem_map.mp hs
      exact isName_of_normalize hn n (List.mem_cons_of_mem _ hmem)

/-- What resolving a path does: it goes on from the directory the path is confined to. -/
theorem JailPath.resolve_eq (h : JailPath user path base names) (t : FileTree) :
    (userView user).resolve t path = contained t base (names.foldl join base) := by
  cases h with
  | root hs hn =>
      rw [ScopeMap.resolve, ScopeMap.target, hn, hs]
      simp only [joinAll_eq]
  | camera hm hn hl =>
      rw [ScopeMap.resolve, ScopeMap.target, hn, hm]
      simp only [hl, joinAll_eq]

/-- A path is confined to one directory. -/
theorem JailPath.unique {base' : OsStr} {names' : List OsStr} (h : JailPath user path base names)
    (h' : JailPath user path base' names') : base = base' ∧ names = names' := by
  cases h with
  | root hs hn =>
      cases h' with
      | root hs' hn' =>
          obtain rfl := Option.some.inj (hs.symm.trans hs')
          obtain rfl := Except.ok.inj (hn.symm.trans hn')
          exact ⟨rfl, rfl⟩
      | camera hm' _ _ =>
          rw [hs] at hm'
          cases hm'
  | camera hm hn hl =>
      cases h' with
      | root hs' _ =>
          rw [hm] at hs'
          cases hs'
      | camera hm' hn' hl' =>
          obtain ⟨rfl, rfl⟩ := List.cons.inj (Except.ok.inj (hn.symm.trans hn'))
          obtain rfl := Option.some.inj (hl.symm.trans hl')
          exact ⟨rfl, rfl⟩

/-- A path that resolves is confined to a directory. -/
theorem jailPath_of_resolve (h : (userView user).resolve t path = .ok real) :
    ∃ base names, JailPath user path base names := by
  rw [ScopeMap.resolve, ScopeMap.target] at h
  cases hn : normalize path with
  | error err =>
      rw [hn] at h
      cases h
  | ok parts =>
      cases hs : (userView user).single with
      | some root => exact ⟨root, _, .root hs hn⟩
      | none =>
          cases parts with
          | nil =>
              rw [hn, hs] at h
              cases h
          | cons cam rest =>
              cases hl : (userView user).roots.lookup cam with
              | none =>
                  rw [hn, hs] at h
                  simp only [hl] at h
                  cases h
              | some base => exact ⟨base, _, .camera hs hn hl⟩

/-! ## Walking on with the limit starting over -/

/-- The names of a canonical text are walked from the root with the whole limit, and those
after a directory that is there from that directory. -/
theorem walk_of_leads (hC : t.locate true base = .ok C) (hbound : t.entry C ≠ none)
    (hl : ∀ x ∈ s :: rest, IsName x)
    (h : t.locate true (locText (C ++ s :: rest)) = .ok L) :
    t.entry C = some .dir ∧ nul ∉ s ∧
      ∃ m, m ≤ maxSymlinks ∧ walk t.entry true m C (s :: rest) = .ok L := by
  have hCnames : ∀ x ∈ C, IsName x := isName_of_entry hbound
  have hnames : ∀ x ∈ C ++ s :: rest, IsName x := List.forall_mem_append.mpr ⟨hCnames, hl⟩
  -- the text of `C` leads to `C`
  have htext : t.locate true (locText C) = .ok C := locate_locText hbound (not_link_of_locate hC)
  obtain ⟨here, hstart, -, hself⟩ := walk_solid htext
  rw [start, if_pos (isAbsolute_locText C)] at hstart
  obtain rfl := Except.ok.inj hstart
  rw [solidSegments_locText hCnames] at hself
  obtain ⟨-, hnul, -⟩ := locateSteps_ok h
  obtain ⟨here, hstart, -, hw⟩ := walk_solid h
  rw [start, if_pos (isAbsolute_locText _)] at hstart
  obtain rfl := Except.ok.inj hstart
  rw [solidSegments_locText hnames] at hw
  obtain ⟨D, -, hD, hdir, -⟩ := walk_append_ok t.rooted t.root_dir hw (List.cons_ne_nil s rest)
  obtain rfl : D = C := Except.ok.inj (hD.symm.trans hself)
  have happ : ∃ m, m ≤ maxSymlinks ∧ walk t.entry true maxSymlinks [] (D ++ s :: rest) =
      walk t.entry true m D (s :: rest) := walk_append_le hself hdir (List.cons_ne_nil s rest)
  obtain ⟨m, hm, hon⟩ := happ
  refine ⟨hdir, nul_not_mem_segments ?_ hnul, m, hm, hon ▸ hw⟩
  rw [segments_locText hnames]
  exact List.mem_append_right _ (List.mem_cons_self ..)

/-- If the names after a part of the path can be walked from where that leads, then the
limit on links is what stops the walk of one name more. -/
theorem over_limit_of_leads (hl : ∀ x ∈ front ++ s :: rest, IsName x)
    (hfront : t.find true (front.foldl join base) = .ok (C, c))
    (hs : ∀ r, t.find true ((front ++ [s]).foldl join base) ≠ .ok r)
    (hleads : t.find true (locText (C ++ s :: rest)) = .ok (L, e)) :
    t.find true ((front ++ [s]).foldl join base) = .error .filesystemLoop := by
  obtain ⟨hC, hc⟩ := find_ok.mp hfront
  obtain ⟨hL, he⟩ := find_ok.mp hleads
  have hname : IsName s := hl s (by simp)
  obtain ⟨hdir, hnul, m, hm, hw⟩ := walk_of_leads hC (by simp [hc])
    (fun x hx => hl x (List.mem_append_right front hx)) hL
  -- from `C`, one name more leads to something that is there
  obtain ⟨D, d, hD, hd⟩ : ∃ D d, walk t.entry true m C [s] = .ok D ∧ t.entry D = some d := by
    by_cases hrest : rest = []
    · exact ⟨L, e, hrest ▸ hw, he⟩
    · obtain ⟨D, -, hD, hDdir, -⟩ := walk_append_ok (l := [s]) t.rooted hdir hw hrest
      exact ⟨D, .dir, hD, hDdir⟩
  have hfull : walk t.entry true maxSymlinks C [s] = .ok D := by
    rcases walk_more hm C [s] with hloop | hsame
    · rw [hD] at hloop
      cases hloop
    · exact hsame.trans hD
  -- so with the links that the front leaves, only the limit can stop it
  obtain ⟨hne, hnulJ, here, hstart, -, hwJ⟩ := locateSteps_ok hC
  have happ : ∃ k, k ≤ maxSymlinks ∧
      walk t.entry true maxSymlinks here (segments (front.foldl join base) ++ [s]) =
        walk t.entry true k C [s] :=
    walk_append_le (walk_thin hwJ (thin_steps _)) hdir (List.cons_ne_nil s [])
  obtain ⟨k, hk, hon⟩ := happ
  have hlocate : t.locate true ((front ++ [s]).foldl join base) = walk t.entry true k C [s] := by
    rw [List.foldl_append, List.foldl_cons, List.foldl_nil]
    rw [locate, locateSteps_eq (join_ne_nil hname) ((nul_not_mem_join hname).mpr ⟨hnulJ, hnul⟩)
      ((start_congr (isAbsolute_join (isAbsolute_name hname))).trans hstart),
      steps, endsWithSep_join_name hname, if_neg (by simp), segments_join (isAbsolute_name hname),
      segments_name hname]
    exact hon
  rcases walk_more hk C [s] with hloop | hsame
  · rw [FileTree.find, hlocate, hloop]
  · refine absurd (find_ok.mpr ⟨hlocate.trans (hsame.symm.trans hfull), hd⟩) (hs _)

/-! ## In the jail or out -/

/-- **A resolved path that is there** leads into the directory it is confined to, unless the
way out is open. -/
theorem inside_of_contained (hl : ∀ x ∈ names, IsName x)
    (hres : contained t base (names.foldl join base) = .ok real)
    (hfind : t.find true real = .ok (L, e)) :
    ∃ B, t.locate true base = .ok B ∧
      (B <+: L ∨ ∃ front s rest C c, names = front ++ s :: rest ∧
        WayOut t base front s rest B C L e c) := by
  obtain ⟨hL, he⟩ := find_ok.mp hfind
  obtain ⟨B, b, front, rest, C, c, hbase, rfl, hfront, rfl, -, hin, hfail⟩ := contained_ok hl hres
  obtain ⟨hB, hb⟩ := find_ok.mp hbase
  obtain ⟨hC, hc⟩ := find_ok.mp hfront
  refine ⟨B, hB, ?_⟩
  cases rest with
  | nil =>
      -- the whole path is there, and its canonical text leads where it leads
      rw [List.append_nil] at hL hin
      have htext : t.locate true (locText C) = .ok C :=
        locate_locText (by simp [hc]) (not_link_of_locate hC)
      obtain rfl : C = L := Except.ok.inj (htext.symm.trans hL)
      exact Or.inl hin
  | cons s rest =>
      by_cases hBL : B <+: L
      · exact Or.inl hBL
      · exact Or.inr ⟨front, s, rest, C, c, rfl, hB, by simp [hb], hfront,
          over_limit_of_leads hl hfront (hfail s rest rfl) hfind, hin, hfind, hBL⟩

/-- Through the way out, the path resolves to one that leads outside. -/
theorem WayOut.resolves (hl : ∀ x ∈ front ++ s :: rest, IsName x)
    (h : WayOut t base front s rest B C L e c) :
    contained t base ((front ++ s :: rest).foldl join base) = .ok (locText (C ++ s :: rest)) := by
  obtain ⟨b, hb⟩ := Option.ne_none_iff_exists'.mp h.base_there
  have hfail : ∀ r, t.find true ((front ++ [s]).foldl join base) ≠ .ok r := by
    intro r hr
    rw [h.over_limit] at hr
    cases hr
  exact contained_eq_locText hl (find_ok.mpr ⟨h.base_leads, hb⟩) h.front_leads hfail h.seems_inside

/-! ## The calls that look -/

theorem opened_of_find (hres : (userView user).resolve t path = .ok real)
    (hfind : t.find true real = .ok (L, e)) : opened t user path = some L := by
  rw [opened, hres]
  simp only [hfind]

/-- What a call that returned `Ok` opened lies inside, unless the way out is open. -/
theorem opensInside_of_find
    (hsafe : ¬ HasWayOut t user path) (hres : (userView user).resolve t path = .ok real)
    (hfind : t.find true real = .ok (L, e)) : OpensInside t user path := by
  obtain ⟨base, names, hjail⟩ := jailPath_of_resolve hres
  have hopen : opened t user path = some L := opened_of_find hres hfind
  rw [hjail.resolve_eq] at hres
  obtain ⟨B, hB, hin | ⟨front, s, rest, C, c, rfl, hout⟩⟩ :=
    inside_of_contained hjail.isName hres hfind
  · exact ⟨base, names, B, L, hjail, hB, hopen, hin⟩
  · exact absurd ⟨base, front, s, rest, B, C, L, e, c, hjail, hout⟩ hsafe

theorem find_of_metadata {m : Meta} (h : ReoBackend.metadata t user path = .ok m) :
    ∃ real L e, (userView user).resolve t path = .ok real ∧ t.find true real = .ok (L, e) := by
  unfold ReoBackend.metadata at h
  split at h
  · cases h
  · split at h
    · cases h
    · rename_i real hres
      cases hf : t.find true real with
      | ok found => exact ⟨real, found.1, found.2, hres, hf⟩
      | error err =>
          simp only [FileTree.metadata, hf] at h
          cases h

theorem find_of_get {startPos : Nat} {r : Except Errno Bytes}
    (h : ReoBackend.get t user path startPos = .ok r) :
    ∃ real L e, (userView user).resolve t path = .ok real ∧ t.find true real = .ok (L, e) := by
  unfold ReoBackend.get at h
  split at h
  · cases h
  · split at h
    · cases h
    · rename_i real hres
      cases hf : t.find true real with
      | ok found => exact ⟨real, found.1, found.2, hres, hf⟩
      | error err =>
          simp only [hf] at h
          cases h

/-- A listing opened a directory, or is that of the virtual root. -/
theorem find_of_list {entries : List (OsStr × Meta)}
    (h : ReoBackend.list t user path = .ok entries) :
    (∃ real L e, (userView user).resolve t path = .ok real ∧ t.find true real = .ok (L, e)) ∨
      Synthesized user path := by
  by_cases hopen : ∃ real L e,
      (userView user).resolve t path = .ok real ∧ t.find true real = .ok (L, e)
  · exact Or.inl hopen
  -- nothing was opened, so the listing can only be the synthesized one
  have hshut : ∀ real, (userView user).resolve t path = .ok real →
      ∃ err, t.readDir real = .error err := by
    intro real hres
    cases hf : t.find true real with
    | ok found => exact absurd ⟨real, found.1, found.2, hres, hf⟩ hopen
    | error err => exact ⟨err, by rw [FileTree.readDir, hf]⟩
  refine Or.inr ?_
  cases hrole : user.role with
  | uploader home =>
      cases hres : (userView user).resolve t path with
      | error err => simp [ReoBackend.list, hrole, capabilityAllowed, hres] at h
      | ok real =>
          obtain ⟨err, herr⟩ := hshut real hres
          simp [ReoBackend.list, hrole, capabilityAllowed, hres, herr] at h
  | viewer scope =>
      by_cases hroot :
          (isVirtualRoot path && !scope.listRoot.isEmpty && !isSingleScope scope) = true
      · simp only [Bool.and_eq_true, Bool.not_eq_true'] at hroot
        exact ⟨scope, hrole, hroot.1.1, hroot.2⟩
      · cases hres : (userView user).resolve t path with
        | error err =>
            simp only [ReoBackend.list, hrole, capabilityAllowed, hres, if_neg hroot] at h
            simp at h
        | ok real =>
            obtain ⟨err, herr⟩ := hshut real hres
            simp only [ReoBackend.list, hrole, capabilityAllowed, hres, herr, if_neg hroot] at h
            simp at h

/-- A directory entered was opened, or is the virtual root. -/
theorem find_of_cwd (h : ReoBackend.cwd t user path = .ok ()) :
    (∃ real L e, (userView user).resolve t path = .ok real ∧ t.find true real = .ok (L, e)) ∨
      Synthesized user path := by
  by_cases hopen : ∃ real L e,
      (userView user).resolve t path = .ok real ∧ t.find true real = .ok (L, e)
  · exact Or.inl hopen
  -- nothing was opened, so the directory can only be the virtual root
  have hshut : ∀ real, (userView user).resolve t path = .ok real →
      ∃ err, t.metadata real = .error err := by
    intro real hres
    cases hf : t.find true real with
    | ok found => exact absurd ⟨real, found.1, found.2, hres, hf⟩ hopen
    | error err => exact ⟨err, by rw [FileTree.metadata, hf]⟩
  refine Or.inr ?_
  cases hrole : user.role with
  | uploader home =>
      cases hres : (userView user).resolve t path with
      | error err => simp [ReoBackend.cwd, hrole, capabilityAllowed, hres] at h
      | ok real =>
          obtain ⟨err, herr⟩ := hshut real hres
          simp [ReoBackend.cwd, hrole, capabilityAllowed, hres, herr] at h
  | viewer scope =>
      by_cases hroot : (isVirtualRoot path && !isSingleScope scope) = true
      · simp only [Bool.and_eq_true, Bool.not_eq_true'] at hroot
        exact ⟨scope, hrole, hroot.1, hroot.2⟩
      · cases hres : (userView user).resolve t path with
        | error err =>
            simp only [ReoBackend.cwd, hrole, capabilityAllowed, hres, if_neg hroot] at h
            simp at h
        | ok real =>
            obtain ⟨err, herr⟩ := hshut real hres
            simp only [ReoBackend.cwd, hrole, capabilityAllowed, hres, herr, if_neg hroot] at h
            simp at h

/-- **Reads stay in the jail exactly when the way out is closed.** -/
theorem reads_inside_iff (t : FileTree) (user : ReoUser) (path : OsStr) :
    ReadsInside t user path ↔ ¬ HasWayOut t user path := by
  constructor
  · rintro hreads ⟨base, front, s, rest, B, C, L, e, c, hjail, hout⟩
    have hres : (userView user).resolve t path = .ok (locText (C ++ s :: rest)) := by
      rw [hjail.resolve_eq]
      exact hout.resolves hjail.isName
    have hallowed : capabilityAllowed user.role .metadata = true := by
      cases user.role <;> rfl
    -- a way out is one that `metadata` already takes
    have hok : ReoBackend.metadata t user path = .ok (.real (t.statOf e)) := by
      rw [ReoBackend.metadata, hallowed, hres]
      simp only [FileTree.metadata, hout.leads]
      rfl
    obtain ⟨base', names', B', L', hjail', hB', hL', hin⟩ := hreads.metadata _ hok
    obtain ⟨rfl, -⟩ := hjail.unique hjail'
    obtain rfl : B = B' := Except.ok.inj (hout.base_leads.symm.trans hB')
    obtain rfl : L = L' := Option.some.inj ((opened_of_find hres hout.leads).symm.trans hL')
    exact hout.outside hin
  · intro hsafe
    constructor
    · intro m hm
      obtain ⟨real, L, e, hres, hf⟩ := find_of_metadata hm
      exact opensInside_of_find hsafe hres hf
    · intro startPos r hr
      obtain ⟨real, L, e, hres, hf⟩ := find_of_get hr
      exact opensInside_of_find hsafe hres hf
    · intro entries hentries
      rcases find_of_list hentries with ⟨real, L, e, hres, hf⟩ | hsynth
      · exact Or.inl (opensInside_of_find hsafe hres hf)
      · exact Or.inr hsynth
    · intro hcwd
      rcases find_of_cwd hcwd with ⟨real, L, e, hres, hf⟩ | hsynth
      · exact Or.inl (opensInside_of_find hsafe hres hf)
      · exact Or.inr hsynth

end Jail

/-! ## A home with a link to itself -/

/-- The home `/c` with a link `l` to itself and a link `e` to the directory `/out`. -/
def loopHome : FileTree :=
  (((FileTree.bare.mkdirAt [ofString "c"]).mkdirAt [ofString "out"]).symlinkAt
    [ofString "c", ofString "l"] dot).symlinkAt [ofString "c", ofString "e"] (ofString "/out")

/-- `l/l/…/l/e`, with as many links `l` as a walk follows. -/
def longWay : OsStr := intercalate (List.replicate maxSymlinks (ofString "l") ++ [ofString "e"])

/-- **A camera looks out of its home**: `e` alone is refused, but not behind 40 links. -/
theorem metadata_escapes :
    let camera : ReoUser := ⟨"c", .uploader (ofString "/c"), false⟩
    ReoBackend.metadata loopHome camera (ofString "e") = .error (.kind .permissionDenied) ∧
      (∃ m, ReoBackend.metadata loopHome camera longWay = .ok m) ∧
      loopHome.locate true (ofString "/c") = .ok [ofString "c"] ∧
      opened loopHome camera longWay = some [ofString "out"] ∧
      ¬ ReadsInside loopHome camera longWay := by
  intro camera
  have hopen : opened loopHome camera longWay = some [ofString "out"] := by decide +kernel
  have hhome : loopHome.locate true (ofString "/c") = .ok [ofString "c"] := by decide +kernel
  have hok : ReoBackend.metadata loopHome camera longWay =
      .ok (.real (loopHome.statOf .dir)) := by decide +kernel
  refine ⟨by decide +kernel, ⟨_, hok⟩, hhome, hopen, fun hreads => ?_⟩
  obtain ⟨base, names, B, L, hjail, hB, hL, hin⟩ := hreads.metadata _ hok
  obtain rfl := Option.some.inj (hopen.symm.trans hL)
  have hbase : base = ofString "/c" := by
    cases hjail with
    | root hs hn => exact (Option.some.inj hs).symm
    | camera hm _ _ => cases hm
  rw [hbase, hhome] at hB
  rw [← Except.ok.inj hB] at hin
  exact absurd hin (by decide)

end Reoftpd

import Reoftpd.RetentionExact
import Reoftpd.StoredClips

/-!
# Which stored files count as footage

`put`, `list` and the retention sweep each have a notion of an internal name: the probe
names, the names a listing hides, the names and the directory with a limit of their own.
**They do not agree.**  A file stored under a name that ends in the staging suffix, or
under the name of the quarantine directory, is hidden; the first, and every file stored
in a directory of that name, is deleted long before its time (`staging_name_hidden`).
Every other stored file is shown and kept as footage (`footage_iff`).
-/
namespace Reoftpd
open UnixPath FileTree

variable {age : Age}

/-- What the backend adds to the name of a file it stores. -/
def ReoBackend.suffix (backend : ReoBackend age) : OsStr :=
  match backend.recipients with
  | some _ => ofString ".age"
  | none => []

theorem sep_not_mem_suffix (backend : ReoBackend age) : sep ∉ backend.suffix := by
  unfold ReoBackend.suffix
  split <;> decide

/-- The names that lead from a home to what is stored under the names `parts`. -/
def storedAt (backend : ReoBackend age) (parts : List String) : Loc :=
  parts.dropLast.map ofString ++ [ofString (parts.getLastD "") ++ backend.suffix]

/-- **The name of a stored file is one of footage** to all three: it goes into no
directory called as the quarantine, and is not called so itself, or as a staging file. -/
def CalledFootage (backend : ReoBackend age) (root : OsStr) (h : Loc) (parts : List String) :
    Prop :=
  dirName root (h ++ parts.dropLast.map ofString) ≠ some quarantineDir ∧
    (backend.recipients = none →
      stagingSuffix.isSuffixOf (ofString (parts.getLastD "")) = false ∧
        ofString (parts.getLastD "") ≠ quarantineDir)

/-- The file at the names `m` below `root` is shown by a listing of `dir`, and whatever the
limits and the time, a sweep of `root` applies the limit for footage to it. -/
def KeptAsFootage (t : FileTree) (user : ReoUser) (dir root : OsStr) (m : Loc) : Prop :=
  (∃ entries, ReoBackend.list t user dir = .ok entries ∧ m.getLastD [] ∈ entries.map Prod.fst) ∧
    ∀ args : SweepArgs,
      fileTtl args (fileName (below root m.dropLast) = some quarantineDir) (below root m) =
        args.retention

section Names
variable {backend : ReoBackend age} {n : String}

theorem toStringLossy_ofString (n : String) : toStringLossy (ofString n) = n := by
  simp [toStringLossy, ofString, Function.comp_def, OsChar.lossy]

/-- A stored name is Unicode. -/
theorem chars_stored (backend : ReoBackend age) (n : String) :
    ∀ c ∈ ofString n ++ backend.suffix, c.char?.isSome := by
  have hof : ∀ a : String, ∀ c ∈ ofString a, c.char?.isSome := by
    intro a c hc
    obtain ⟨x, -, rfl⟩ := List.mem_map.mp hc
    rfl
  intro c hc
  rcases List.mem_append.mp hc with hc | hc
  · exact hof n c hc
  · unfold ReoBackend.suffix at hc
    split at hc
    · exact hof _ c hc
    · cases hc

theorem lossy_stored (backend : ReoBackend age) (n : String) :
    ofString (toStringLossy (ofString n ++ backend.suffix)) = ofString n ++ backend.suffix := by
  unfold ReoBackend.suffix
  split
  · have happ : ofString n ++ ofString ".age" = ofString (n ++ ".age") := by simp [ofString]
    rw [happ, toStringLossy_ofString]
  · rw [List.append_nil, toStringLossy_ofString]

/-- An encrypted file is called neither as a staging file nor as the quarantine. -/
theorem stored_internal_iff (backend : ReoBackend age) (n : String) :
    (stagingSuffix.isSuffixOf (ofString n ++ backend.suffix) = false ∧
        ofString n ++ backend.suffix ≠ quarantineDir) ↔
      (backend.recipients = none →
        stagingSuffix.isSuffixOf (ofString n) = false ∧ ofString n ≠ quarantineDir) := by
  unfold ReoBackend.suffix
  cases hr : backend.recipients with
  | none => simp
  | some rs =>
      have hage : ∀ s : OsStr, s ≠ [] → s.getLast? ≠ some (.chr 'e') →
          ¬ s <:+ ofString n ++ ofString ".age" := by
        rintro s hs hlast ⟨p, hp⟩
        apply hlast
        have hget := congrArg List.getLast? hp
        rw [List.getLast?_append_of_ne_nil p hs,
          List.getLast?_append_of_ne_nil _ (show ofString ".age" ≠ [] by decide)] at hget
        exact hget
      have hstaging : stagingSuffix.isSuffixOf (ofString n ++ ofString ".age") = false := by
        rw [Bool.eq_false_iff]
        intro hsuf
        apply hage stagingSuffix (by decide) (by decide)
        simpa using hsuf
      refine iff_of_true ⟨hstaging, fun hq => ?_⟩ (by simp)
      -- `.quarantine` ends in `e` as well, but not in `.age`
      have hdrop := congrArg (fun s : OsStr => s.reverse.take 4) hq
      simp [ofString, quarantineDir] at hdrop

end Names

section Stored
variable {backend : ReoBackend age} {t : FileTree} {user : ReoUser} {home path name dir : OsStr}
  {faults : PutFaults} {seed : age.Seed} {startPos n : Nat} {input : Input} {parts : List String}
  {B : Loc}

/-- A `put` that is no probe and returned `Ok` has bound the names of its virtual path, the
last one with the suffix of the backend, to a file in the home. -/
theorem put_binds (hfree : JailFree t user) (hrole : user.role = .uploader home)
    (hname : fileName path = some name) (hprobe : isReolinkTestFile (toStringLossy name) = false)
    (hparts : normalize path = .ok parts) (hhome : t.locate true home = .ok B)
    (hok : (backend.put faults seed user path startPos input t).2 = .ok n) :
    ∃ i, (backend.put faults seed user path startPos input t).1.entry
      (B ++ storedAt backend parts) = some (.file i) := by
  have hcase : PutCase backend faults seed user path startPos input t
    (backend.put faults seed user path startPos input t) := put_case
  generalize backend.put faults seed user path startPos input t = out at hcase hok ⊢
  cases hcase with
  | refused e => cases hok
  | probe home' name' _ hname' hprobe' =>
      obtain rfl := Option.some.inj (hname.symm.trans hname')
      rw [hprobe] at hprobe'
      cases hprobe'
  | store home' name' resolved hrole' hname' _ hres =>
      obtain rfl : home = home' := by
        rw [hrole] at hrole'
        exact Role.uploader.inj hrole'
      obtain ⟨B', parts', hB', hbound, hparts', rfl⟩ := resolve_ok (hfree home hrole) hres
      obtain rfl : B = B' := Except.ok.inj (hhome.symm.trans hB')
      obtain rfl : parts = parts' := Except.ok.inj (hparts.symm.trans hparts')
      obtain ⟨front, last, rfl⟩ : ∃ front last, parts = front ++ [last] :=
        ⟨_, _, (List.dropLast_append_getLast (normalize_ne_nil hparts hname)).symm⟩
      have hsuffix : sep ∉ backend.suffix := sep_not_mem_suffix backend
      obtain ⟨P, a, -, hp⟩ := storePlace_of_resolve (hfree home hrole) hres hname hsuffix
      have hnames : ∀ x ∈ (front ++ [last]).map ofString, IsName x := isName_map_ofString hparts
      have hstored : ∀ x ∈ B ++ (front.map ofString ++ [ofString last ++ backend.suffix]),
          IsName x := by
        intro x hx
        simp only [List.mem_append, List.mem_singleton] at hx
        rcases hx with hx | hx | rfl
        · exact isName_of_entry hbound x hx
        · exact hnames x (by rw [List.map_append]; exact List.mem_append_left _ hx)
        · exact isName_suffix (hnames _ (by simp)) hsuffix
      -- the path the store writes to is the text of the stored names
      have hfinal : P ++ [a ++ backend.suffix] =
          B ++ (front.map ofString ++ [ofString last ++ backend.suffix]) := by
        refine locText_injective hp.finalNames hstored (hp.final_eq.symm.trans ?_)
        rw [List.map_append, List.map_singleton, ← List.append_assoc, locText_suffix,
          List.append_assoc]
      rw [storedAt, List.dropLast_concat, List.getLastD_concat, ← hfinal]
      unfold ReoBackend.suffix putStore at *
      cases hr : backend.recipients with
      | none =>
          rw [hr] at hp hok
          simp only [List.append_nil] at hp
          obtain ⟨-, i, hi⟩ := (storeStream_frame hp faults.mkdir faults.store startPos input).2 n
            (storeReply_ok hok)
          exact ⟨i, by simpa using hi⟩
      | some recipients =>
          rw [hr] at hp hok
          simp only at hok ⊢
          split at hok
          · cases hok
          · rename_i hpos
            rw [if_neg hpos]
            obtain ⟨-, -, i, hi, -⟩ := (storeEncrypted_frame hp faults.mkdir faults.encrypt
              (encryptStream age recipients seed input)).2.2 n (storeReply_ok hok)
            exact ⟨i, hi⟩

/-- In a home without links, a listing shows what lies in the directory. -/
theorem list_in_home (hfree : t.LinkFree home) (hrole : user.role = .uploader home)
    (hhome : t.locate true home = .ok B) (hfront : normalize dir = .ok parts)
    (hdir : t.entry (B ++ parts.map ofString) = some .dir) :
    ReoBackend.list t user dir = .ok (listEntries t (locText (B ++ parts.map ofString))
      (t.children (B ++ parts.map ofString))) := by
  have hbound : t.entry B ≠ none := by
    intro hn
    by_cases hnil : parts.map ofString = []
    · rw [hnil, List.append_nil, hn] at hdir
      cases hdir
    · have hne : B ≠ B ++ parts.map ofString := by simpa using hnil
      have hB : t.entry B = some .dir :=
        dir_above (List.prefix_append B _) hne (by rw [hdir]; simp)
      rw [hn] at hB
      cases hB
  have hres : (ScopeMap.ofRoot home).resolve t dir =
      .ok (locText (B ++ parts.map ofString)) := by
    rw [ScopeMap.resolve, target_ofRoot hfront]
    exact contained_eq hfree hhome hbound (isName_map_ofString hfront)
  have hread : t.readDir (locText (B ++ parts.map ofString)) =
      .ok (t.children (B ++ parts.map ofString)) := by
    rw [FileTree.readDir, find_ok.mpr ⟨locate_locText (by rw [hdir]; simp) (by simp [hdir]), hdir⟩]
  unfold ReoBackend.list
  rw [userView_uploader hrole, hrole, hres]
  simp only [hread]
  rfl

/-- The limit for footage is applied to a file, whatever the limits are, exactly when
neither its directory nor its name has one of its own. -/
theorem limit_retention_iff {root : OsStr} {l : Loc} {a : OsStr}
    (ha : ∀ c ∈ a, c.char?.isSome) :
    (∀ args : SweepArgs, limit args root (l ++ [a]) = args.retention) ↔
      dirName root l ≠ some quarantineDir ∧ stagingSuffix.isSuffixOf a = false := by
  simp only [limit, List.dropLast_concat, List.getLastD_concat]
  constructor
  · intro h
    have hargs := h ⟨0, 1, 2, 0, false⟩
    split at hargs
    · cases hargs
    · rename_i hq
      split at hargs
      · cases hargs
      · rename_i hsuf
        exact ⟨hq, Bool.eq_false_iff.mpr fun h => hsuf ⟨h, ha⟩⟩
  · rintro ⟨hq, hsuf⟩ args
    rw [if_neg hq, if_neg fun h => absurd h.1 (by simp [hsuf])]

/-- A file in a directory is shown unless its name is an internal one. -/
theorem mem_listEntries {D : Loc} {a : OsStr} {i : Nat} (hi : t.entry (D ++ [a]) = some (.file i)) :
    a ∈ (listEntries t (locText D) (t.children D)).map Prod.fst ↔
      stagingSuffix.isSuffixOf (ofString (toStringLossy a)) = false ∧
        ofString (toStringLossy a) ≠ quarantineDir := by
  have hname : ∀ x ∈ D ++ [a], IsName x :=
    isName_of_entry (show t.entry (D ++ [a]) ≠ none by rw [hi]; simp)
  -- the entry is looked up under the text of the directory and its name
  have hjoin : join (locText D) a = locText (D ++ [a]) :=
    join_locText (fun x hx => hname x (by simp [hx])) (List.cons_ne_nil a [])
      fun x hx => (hname x (List.mem_append_right D hx)).isSegment
  have hstat : t.symlinkMetadata (join (locText D) a) = .ok (t.statOf (.file i)) := by
    rw [hjoin, FileTree.symlinkMetadata,
      find_ok.mpr ⟨locate_locText (by rw [hi]; simp) (by simp [hi]), hi⟩]
  have hchild : a ∈ t.children D := t.mem_children.mpr (by rw [hi]; simp)
  simp only [listEntries, List.mem_map, List.mem_filterMap]
  constructor
  · rintro ⟨⟨b, m⟩, ⟨b', -, h⟩, rfl⟩
    split at h
    · cases h
    · rename_i hsuf
      split at h
      · cases h
      · rename_i hq
        split at h
        · obtain ⟨rfl, -⟩ := Prod.mk.inj (Option.some.inj h)
          exact ⟨Bool.eq_false_iff.mpr hsuf, hq⟩
        · cases h
  · rintro ⟨hsuf, hq⟩
    refine ⟨(a, .real (t.statOf (.file i))), ⟨a, hchild, ?_⟩, rfl⟩
    rw [hsuf, if_neg (by simp), if_neg hq, hstat]

/-- **A stored file is kept as footage** exactly when it is called so.  The sweep is of any
directory above the home, and its path for the file leads to it. -/
theorem footage_iff {root : OsStr} {R h : Loc} (hfree : JailFree t user)
    (hrole : user.role = .uploader home) (hname : fileName path = some name)
    (hprobe : isReolinkTestFile (toStringLossy name) = false) (hdir : parent path = some dir)
    (hparts : normalize path = .ok parts) (hroot : t.locate true root = .ok R)
    (hhome : t.locate true home = .ok (R ++ h))
    (hok : (backend.put faults seed user path startPos input t).2 = .ok n) :
    let after := (backend.put faults seed user path startPos input t).1
    let m := h ++ storedAt backend parts
    (∃ i, after.entry (R ++ m) = some (.file i)) ∧
      after.locate true (below root m) = .ok (R ++ m) ∧
      (KeptAsFootage after user dir root m ↔ CalledFootage backend root h parts) := by
  intro after m
  have hgrows : Grows t after := grows_put hfree
  obtain ⟨front, hfront, rfl⟩ := normalize_parent hparts hname hdir
  have hbinds : ∃ i, after.entry (R ++ h ++ storedAt backend (front ++ [toStringLossy name])) =
      some (.file i) := put_binds hfree hrole hname hprobe hparts hhome hok
  obtain ⟨i, hi⟩ := hbinds
  have hm : m = h ++ front.map ofString ++ [ofString (toStringLossy name) ++ backend.suffix] := by
    simp [m, storedAt]
  have hi' : after.entry (R ++ m) = some (.file i) := by
    rw [← List.append_assoc]
    exact hi
  have hdirAt : after.entry (R ++ h ++ front.map ofString) = some .dir := by
    refine after.parent_dir _ (ofString (toStringLossy name) ++ backend.suffix) ?_
    rw [hm] at hi'
    rw [List.append_assoc R, List.append_assoc R, ← entry, hi']
    simp
  refine ⟨⟨i, hi'⟩, ?_, ?_⟩
  · rw [hm] at hi' ⊢
    exact locate_below (hgrows.locate hroot) hi' (by simp)
  · have hnames :
        ∀ x ∈ h ++ front.map ofString ++ [ofString (toStringLossy name) ++ backend.suffix],
        IsName x := fun x hx =>
      isName_of_entry (show after.entry (R ++ m) ≠ none by rw [hi']; simp) x
        (List.mem_append_right R (hm ▸ hx))
    -- the viewer goes by the staging suffix and by the quarantine name of the file itself
    have hlist : (∃ entries, ReoBackend.list after user dir = .ok entries ∧
        m.getLastD [] ∈ entries.map Prod.fst) ↔
        stagingSuffix.isSuffixOf (ofString (toStringLossy name) ++ backend.suffix) = false ∧
          ofString (toStringLossy name) ++ backend.suffix ≠ quarantineDir := by
      rw [list_in_home ((hfree home hrole).of_sameLinks hgrows.toSameLinks) hrole
        (hgrows.locate hhome) hfront hdirAt]
      have hlast : after.entry (R ++ h ++ front.map ofString ++
          [ofString (toStringLossy name) ++ backend.suffix]) = some (.file i) := by
        rw [hm] at hi'
        simpa using hi'
      have hshown := mem_listEntries hlast
      rw [lossy_stored] at hshown
      rw [hm, List.getLastD_concat, ← hshown]
      simp
    -- the sweep goes by the staging suffix and by the quarantine name of its directory
    have hsweep : (∀ args : SweepArgs,
        fileTtl args (fileName (below root m.dropLast) = some quarantineDir) (below root m) =
          args.retention) ↔
        dirName root (h ++ front.map ofString) ≠ some quarantineDir ∧
          stagingSuffix.isSuffixOf (ofString (toStringLossy name) ++ backend.suffix) = false := by
      rw [← limit_retention_iff (chars_stored backend (toStringLossy name)), hm,
        List.dropLast_concat, below_concat]
      exact forall_congr' fun args => by rw [fileTtl_below args root hnames]
    rw [KeptAsFootage, CalledFootage, hlist, hsweep, List.dropLast_concat, List.getLastD_concat,
      ← stored_internal_iff]
    constructor
    · rintro ⟨hshown, hq, -⟩
      exact ⟨hq, hshown⟩
    · rintro ⟨hq, hshown⟩
      exact ⟨hshown, hq, hshown.1⟩

end Stored

/-- The clip `/c/x` is kept as footage. -/
theorem clip_x_footage :
    KeptAsFootage
      ((ReoBackend.plain : ReoBackend shiftAge).put .never (7 : UInt8) cameraC (ofString "x") 0
      [.ok [1]] oneHome).1 cameraC [] [sep] [ofString "c", ofString "x"] := by
  have hname : fileName (ofString "x") = some (ofString "x") := by decide
  have hparts : normalize (ofString "x") = .ok ["x"] := by decide
  have hroot : oneHome.locate true [sep] = .ok [] := by decide +kernel
  have hhome : oneHome.locate true (ofString "/c") = .ok ([] ++ [ofString "c"]) := by
    decide +kernel
  have hok :
      ((ReoBackend.plain : ReoBackend shiftAge).put .never (7 : UInt8) cameraC (ofString "x") 0
      [.ok [1]] oneHome).2 = .ok 1 := by decide +kernel
  exact (footage_iff (jailFree_oneHome cameraC) rfl hname (by decide) (by decide) hparts hroot hhome
    hok).2.2.mpr ⟨by decide, fun _ => by decide⟩

/-- **A capture called as a staging file** is stored and acknowledged, but no listing shows
it and a sweep applies the limit for staging files to it. -/
theorem staging_name_hidden :
    let r := (ReoBackend.plain : ReoBackend shiftAge).put .never (7 : UInt8) cameraC
      (ofString "a.reoftpd-partial") 0 [.ok [1]] oneHome
    r.2 = .ok 1 ∧ isReolinkTestFile "a.reoftpd-partial" = false ∧
      ReoBackend.list r.1 cameraC [] = .ok [] ∧
      fileTtl ⟨30, 2, 1, 0, false⟩ (fileName (below [sep] [ofString "c"]) = some quarantineDir)
        (below [sep] [ofString "c", ofString "a.reoftpd-partial"]) = 1 ∧
      ¬ KeptAsFootage r.1 cameraC [] [sep] [ofString "c", ofString "a.reoftpd-partial"] := by
  intro r
  have hlist : ReoBackend.list r.1 cameraC [] = .ok [] := by decide +kernel
  refine ⟨by decide +kernel, by decide, hlist, by decide +kernel, ?_⟩
  rintro ⟨⟨entries, hentries, hmem⟩, -⟩
  rw [hlist] at hentries
  rw [← Except.ok.inj hentries] at hmem
  exact absurd hmem List.not_mem_nil

end Reoftpd

import Reoftpd.AlikeHomes
import Reoftpd.StoredClips

/-!
# What an uploader learns

Two archives with alike homes answer an uploader alike, call after call
(`answers_alike`): a camera that may not read its own clips back learns no byte of them by
what it is allowed to do, and nothing of the archive outside its home.

What tells two homes apart besides names, kinds, sizes and times is which names are links to
one file, and in which order a directory is read (`hard_links_and_order_tell`): a store
that goes on with a staging file grows every other name of it.
-/
namespace Reoftpd
open UnixPath FileTree

section Alike
variable {age : Age} {backend : ReoBackend age} {user : ReoUser} {home path : OsStr} {B : Loc}
  {t t' : FileTree}

/-! ## Stores -/

/-- A store on `final` goes the same way in trees with alike homes. -/
abbrev StoresAlike (mk : MkdirFault) (home : OsStr) (B : Loc) (final : OsStr) : Prop :=
  Simulates (treeTarget mk final) (treeTarget mk final) (AlikeHomes home B)
    fun i j t t' => AlikeHomes home B t t' ∧ Twins t t' B i j

/-- **Every store on a path of the home** does. -/
theorem storesAlike (mk : MkdirFault) {final : OsStr} {n : List OsStr} {s : OsStr}
    (hfinal : final = locText (B ++ (n ++ [s]))) (hn : ∀ x ∈ n ++ [s], IsName x) :
    StoresAlike mk home B final := by
  have hs : IsName (s ++ stagingSuffix) := isName_suffix (hn s (by simp)) (by decide)
  have hfront : ∀ x ∈ n, IsName x := fun x hx => hn x (List.mem_append_left [s] hx)
  have hnames : ∀ x ∈ n ++ [s ++ stagingSuffix], IsName x :=
    List.forall_mem_append.mpr ⟨hfront, by simpa using hs⟩
  have hstaging : stagingPath final = locText (B ++ (n ++ [s ++ stagingSuffix])) := by
    rw [hfinal, stagingPath, ← List.append_assoc, locText_suffix, List.append_assoc]
  have hpath : HomePath home B final (n ++ [s]) := by
    rw [hfinal]
    exact .text hn
  have hstagingPath : HomePath home B (stagingPath final) (n ++ [s ++ stagingSuffix]) := by
    rw [hstaging]
    exact .text hnames
  exact
    { tryExists := fun t t' h => h.tryExists hpath
      stagingLen := fun t t' h => congrArg (Except.map FileStat.len) (h.metadata hstagingPath)
      createParent := fun t t' h => by
        have hB : ∀ x ∈ B ++ n, IsName x :=
          List.forall_mem_append.mpr ⟨isName_of_entry h.there, hfront⟩
        have hparent : parent (stagingPath final) = some (locText (B ++ n)) := by
          rw [hstaging, ← List.append_assoc, parent_locText hB hs]
        simp only [treeTarget, hparent]
        exact h.createDirAll_text mk hfront
      openAppend := fun t t' h => h.openFile hstagingPath
      createFile := fun t t' h => h.openTruncate hstagingPath
      append := fun i j t t' b h => h.1.append h.2 b
      writeAt := fun i j t t' off b h => h.1.writeAt h.2 off b
      written := fun i j t t' h => h.1
      hardLink := fun t t' h => h.hardLink hstagingPath hpath (by simp)
      removeStaging := fun t t' h => h.discard hstagingPath (by simp) }

/-! ## Calls -/

/-- In a home without links, a virtual path resolves to its names below the home. -/
theorem resolve_alike (h : AlikeHomes home B t t') :
    (ScopeMap.ofRoot home).resolve t path =
      (normalize path).map fun parts => locText (B ++ parts.map ofString) := by
  have hfree : t.LinkFree home := by
    intro B' hB' L hL target
    obtain rfl : B' = B := Except.ok.inj (hB'.symm.trans (aim_of_locate h.leads))
    obtain ⟨m, rfl⟩ := hL
    exact h.no_links m target
  unfold ScopeMap.resolve
  cases hparts : normalize path with
  | error e =>
      rw [ScopeMap.target, hparts]
      rfl
  | ok parts =>
      rw [target_ofRoot hparts]
      exact contained_eq hfree h.leads h.there (isName_map_ofString hparts)

/-- Where the path of a call leads in both trees, if it is not refused in both. -/
theorem AlikeHomes.resolve (h : AlikeHomes home B t t') (hrole : user.role = .uploader home)
    (path : OsStr) :
    (∃ e, (userView user).resolve t path = .error e ∧ (userView user).resolve t' path = .error e) ∨
      ∃ parts, normalize path = .ok parts ∧
        (userView user).resolve t path = .ok (locText (B ++ parts.map ofString)) ∧
        (userView user).resolve t' path = .ok (locText (B ++ parts.map ofString)) ∧
        HomePath home B (locText (B ++ parts.map ofString)) (parts.map ofString) := by
  rw [userView_uploader hrole, resolve_alike h, resolve_alike h.symm]
  cases hparts : normalize path with
  | error e => exact Or.inl ⟨e, rfl, rfl⟩
  | ok parts => exact Or.inr ⟨parts, rfl, rfl, rfl, .text (isName_map_ofString hparts)⟩

theorem metadata_alike (h : AlikeHomes home B t t') (hrole : user.role = .uploader home) :
    ReoBackend.metadata t user path = ReoBackend.metadata t' user path := by
  unfold ReoBackend.metadata
  rcases h.resolve hrole path with ⟨e, hr, hr'⟩ | ⟨parts, -, hr, hr', hp⟩
  · rw [hr, hr']
  · rw [hr, hr']
    simp only
    rw [h.metadata hp]

theorem cwd_alike (h : AlikeHomes home B t t') (hrole : user.role = .uploader home) :
    ReoBackend.cwd t user path = ReoBackend.cwd t' user path := by
  unfold ReoBackend.cwd
  rw [hrole]
  rcases h.resolve hrole path with ⟨e, hr, hr'⟩ | ⟨parts, -, hr, hr', hp⟩
  · rw [hr, hr']
  · rw [hr, hr']
    simp only
    rw [h.metadata hp]

/-- The entries listed are the same, in the order in which the directory is read. -/
theorem listEntries_alike (h : AlikeHomes home B t t') {m : List OsStr} (hm : ∀ s ∈ m, IsName s)
    {names names' : List OsStr} (hperm : names.Perm names') (hnames : ∀ s ∈ names, IsName s) :
    (listEntries t (locText (B ++ m)) names).Perm (listEntries t' (locText (B ++ m)) names') := by
  have hB : ∀ s ∈ B ++ m, IsName s := List.forall_mem_append.mpr ⟨isName_of_entry h.there, hm⟩
  have hsame : listEntries t (locText (B ++ m)) names =
      listEntries t' (locText (B ++ m)) names := by
    refine List.filterMap_congr fun s hs => ?_
    have hname : IsName s := hnames s hs
    have hpath : HomePath home B (join (locText (B ++ m)) s) (m ++ [s]) := by
      have hjoin : join (locText (B ++ m)) s = locText (B ++ m ++ [s]) :=
        join_locText hB (List.cons_ne_nil s []) (by simpa using hname.isSegment)
      rw [hjoin, List.append_assoc]
      exact .text (List.forall_mem_append.mpr ⟨hm, by simpa using hname⟩)
    rw [h.symlinkMetadata hpath]
  rw [hsame]
  exact hperm.filterMap _

theorem list_alike (h : AlikeHomes home B t t') (hrole : user.role = .uploader home) :
    Agree List.Perm (ReoBackend.list t user path) (ReoBackend.list t' user path) := by
  unfold ReoBackend.list
  rw [hrole]
  rcases h.resolve hrole path with ⟨e, hr, hr'⟩ | ⟨parts, -, hr, hr', hp⟩
  · rw [hr, hr']
    rfl
  · rw [hr, hr']
    simp only
    rcases (h.readDir hp).cases with ⟨e, hd, hd'⟩ | ⟨names, names', hd, hd', hperm, hnames⟩
    · rw [hd, hd']
      rfl
    · rw [hd, hd']
      exact listEntries_alike h hp.names hperm hnames

theorem mkd_alike (mk : MkdirFault) (path : OsStr) (h : AlikeHomes home B t t')
    (hrole : user.role = .uploader home) :
    AlikeHomes home B (ReoBackend.mkd mk user path t).1 (ReoBackend.mkd mk user path t').1 ∧
      (ReoBackend.mkd mk user path t).2 = (ReoBackend.mkd mk user path t').2 := by
  unfold ReoBackend.mkd
  rw [hrole]
  rcases h.resolve hrole path with ⟨e, hr, hr'⟩ | ⟨parts, -, hr, hr', hp⟩
  · rw [hr, hr']
    exact ⟨h, rfl⟩
  · rw [hr, hr']
    obtain ⟨hs, he⟩ := h.createDirAll_text mk hp.names
    simp only
    rcases hc : t.createDirAll mk (locText (B ++ parts.map ofString)) with ⟨s, r⟩
    rcases hc' : t'.createDirAll mk (locText (B ++ parts.map ofString)) with ⟨s', r'⟩
    rw [hc, hc'] at hs he
    obtain rfl : r = r' := he
    cases r with
    | error e => exact ⟨hs, rfl⟩
    | ok _ => exact ⟨hs, rfl⟩

theorem copyProbe_alike {i j : Nat} (input : Input) (n : Nat) (h : AlikeHomes home B t t')
    (hij : Twins t t' B i j) :
    AlikeHomes home B (copyProbe i t input n).1 (copyProbe j t' input n).1 ∧
      (copyProbe i t input n).2 = (copyProbe j t' input n).2 := by
  induction input generalizing t t' n with
  | nil => exact ⟨h, rfl⟩
  | cons x rest ih =>
      cases x with
      | error e => exact ⟨h, rfl⟩
      | ok b =>
          obtain ⟨h, hij⟩ := h.writeAt hij n b
          exact ih (n + b.length) h hij

theorem putProbe_alike (faults : PutFaults) (filename : String) (hname : IsName (ofString filename))
    (input : Input) (h : AlikeHomes home B t t') :
    AlikeHomes home B (putProbe faults home filename input t).1
        (putProbe faults home filename input t').1 ∧
      (putProbe faults home filename input t).2 = (putProbe faults home filename input t').2 := by
  have hnames : ∀ s ∈ [quarantineDir, ofString filename], IsName s := by
    intro s hs
    rcases List.mem_cons.mp hs with rfl | hs
    · decide
    · exact List.mem_singleton.mp hs ▸ hname
  have hdest : HomePath home B ([quarantineDir, ofString filename].foldl join home)
      [quarantineDir, ofString filename] := .joined hnames (List.cons_ne_nil _ _)
  have hquarantine : IsName quarantineDir := by decide
  obtain ⟨hs, he⟩ := h.createDirAll_join faults.mkdir hquarantine
  unfold putProbe
  rcases hc : t.createDirAll faults.mkdir (join home quarantineDir) with ⟨s, r⟩
  rcases hc' : t'.createDirAll faults.mkdir (join home quarantineDir) with ⟨s', r'⟩
  rw [hc, hc'] at hs he
  obtain rfl : r = r' := he
  cases r with
  | error e => exact ⟨hs, rfl⟩
  | ok _ =>
      have hopen : Agree (fun a b => AlikeHomes home B a.1 b.1 ∧ Twins a.1 b.1 B a.2 b.2)
          (s.openTruncate (probeDest home filename)) (s'.openTruncate (probeDest home filename)) :=
        hs.openTruncate hdest
      simp only
      rcases (hopen.attempt faults.openProbe).cases with ⟨e, ho, ho'⟩ | ⟨a, b, ho, ho', ha, hij⟩
      · rw [ho, ho']
        exact ⟨hs, rfl⟩
      · obtain ⟨hcopy, hr⟩ := copyProbe_alike input 0 ha hij
        rw [ho, ho']
        exact ⟨hcopy, congrArg (Except.mapError StorageError.io) hr⟩

theorem putStore_alike {recipients : Option (List age.Recipient)} (faults : PutFaults)
    (seed : age.Seed) (startPos : Nat) (input : Input) {m : List OsStr} (hm : ∀ s ∈ m, IsName s)
    (hne : m ≠ []) (h : AlikeHomes home B t t') :
    AlikeHomes home B (putStore recipients faults seed (locText (B ++ m)) startPos input t).1
        (putStore recipients faults seed (locText (B ++ m)) startPos input t').1 ∧
      (putStore recipients faults seed (locText (B ++ m)) startPos input t).2 =
        (putStore recipients faults seed (locText (B ++ m)) startPos input t').2 := by
  obtain ⟨n, s, rfl⟩ : ∃ n s, m = n ++ [s] :=
    ⟨_, _, (List.dropLast_append_getLast hne).symm⟩
  unfold putStore
  cases recipients with
  | none =>
      have hsim : StoresAlike faults.mkdir home B (locText (B ++ (n ++ [s]))) :=
        storesAlike faults.mkdir rfl hm
      exact (hsim.storeStream h).imp_right (congrArg storeReply)
  | some recipients =>
      simp only
      split
      · exact ⟨h, rfl⟩
      · obtain ⟨hn, hs⟩ := List.forall_mem_append.mp hm
        have hs' : IsName (s ++ ofString ".age") := isName_suffix (hs s (by simp)) (by decide)
        have hage : ageSuffix (locText (B ++ (n ++ [s]))) =
            locText (B ++ (n ++ [s ++ ofString ".age"])) := by
          rw [ageSuffix, ← List.append_assoc, locText_suffix, List.append_assoc]
        have hsim : StoresAlike faults.mkdir home B (ageSuffix (locText (B ++ (n ++ [s])))) :=
          storesAlike faults.mkdir hage (List.forall_mem_append.mpr ⟨hn, by simpa using hs'⟩)
        exact (hsim.storeEncrypted h).imp_right (congrArg storeReply)

theorem put_alike (backend : ReoBackend age) (faults : PutFaults) (seed : age.Seed)
    (path : OsStr) (startPos : Nat) (input : Input) (h : AlikeHomes home B t t')
    (hrole : user.role = .uploader home) :
    AlikeHomes home B (backend.put faults seed user path startPos input t).1
        (backend.put faults seed user path startPos input t').1 ∧
      (backend.put faults seed user path startPos input t).2 =
        (backend.put faults seed user path startPos input t').2 := by
  unfold ReoBackend.put
  rw [hrole]
  cases hname : fileName path with
  | none => exact ⟨h, rfl⟩
  | some name =>
      simp only
      split
      · exact ⟨h, rfl⟩
      · split
        · exact putProbe_alike faults _ (isName_lossy (isName_fileName hname)) input h
        · rcases h.resolve hrole path with ⟨e, hr, hr'⟩ | ⟨parts, hparts, hr, hr', hp⟩
          · rw [hr, hr']
            exact ⟨h, rfl⟩
          · have hne : parts.map ofString ≠ [] := by simpa using normalize_ne_nil hparts hname
            rw [hr, hr']
            exact putStore_alike faults seed startPos input hp.names hne h

/-! ## Runs -/

/-- Two answers are the same, but for the order in which a directory is read. -/
inductive Reply.Same : Reply → Reply → Prop
  | same (r : Reply) : Same r r
  | listed (entries entries' : List (OsStr × Meta)) (perm : entries.Perm entries') :
      Same (.list (.ok entries)) (.list (.ok entries'))

/-- **One call** is answered the same, and leaves the homes alike. -/
theorem serve_alike (backend : ReoBackend age) (req : Request age) (h : AlikeHomes home B t t')
    (hrole : req.user.role = .uploader home) :
    AlikeHomes home B (serve backend t req).1 (serve backend t' req).1 ∧
      Reply.Same (serve backend t req).2 (serve backend t' req).2 := by
  have hsame : ∀ r r' : Reply, r = r' → Reply.Same r r' := fun r r' he => he ▸ .same r
  obtain ⟨user, call⟩ := req
  cases call with
  | metadata path => exact ⟨h, hsame _ _ (congrArg Reply.metadata (metadata_alike h hrole))⟩
  | list path =>
      refine ⟨h, ?_⟩
      show Reply.Same (.list (ReoBackend.list t user path)) (.list (ReoBackend.list t' user path))
      rcases (list_alike h hrole).cases with ⟨e, hl, hl'⟩ | ⟨entries, entries', hl, hl', hperm⟩
      · rw [hl, hl']
        exact .same _
      · rw [hl, hl']
        exact .listed entries entries' hperm
  | get path startPos =>
      -- no uploader is allowed to read
      have hdenied : ∀ s : FileTree, ReoBackend.get s user path startPos =
          .error (.kind .permissionDenied) := by
        intro s
        have hrole : user.role = .uploader home := hrole
        unfold ReoBackend.get
        rw [hrole]
        rfl
      exact ⟨h, hsame _ _ (congrArg Reply.get ((hdenied t).trans (hdenied t').symm))⟩
  | put path startPos input seed faults =>
      obtain ⟨hR, hr⟩ := put_alike backend faults seed path startPos input h hrole
      exact ⟨hR, hsame _ _ (congrArg Reply.put hr)⟩
  | mkd path mk =>
      obtain ⟨hR, hr⟩ := mkd_alike mk path h hrole
      exact ⟨hR, hsame _ _ (congrArg Reply.unit hr)⟩
  | cwd path => exact ⟨h, hsame _ _ (congrArg Reply.unit (cwd_alike h hrole))⟩
  | del path => exact ⟨h, .same _⟩
  | rename source target => exact ⟨h, .same _⟩
  | rmd path => exact ⟨h, .same _⟩

/-- The answers to the calls of one user, each made at a time of its own. -/
def answers (backend : ReoBackend age) (user : ReoUser) :
    FileTree → List (Nat × Call age) → List Reply
  | _, [] => []
  | t, (now, call) :: rest =>
      (serve backend (t.atTime now) ⟨user, call⟩).2 ::
        answers backend user (serve backend (t.atTime now) ⟨user, call⟩).1 rest

/-- **What an uploader is answered** depends on nothing but the names, kinds, sizes, times and
hard links of its home: not on the bytes stored there, and not on anything outside. -/
theorem answers_alike (hrole : user.role = .uploader home) (h : AlikeHomes home B t t')
    (calls : List (Nat × Call age)) :
    List.Forall₂ Reply.Same (answers backend user t calls) (answers backend user t' calls) := by
  induction calls generalizing t t' with
  | nil => exact .nil
  | cons c rest ih =>
      obtain ⟨hR, hr⟩ := serve_alike backend ⟨user, c.2⟩ (h.atTime c.1) hrole
      exact .cons hr (ih hR)

end Alike

/-! ## Two homes `/c` -/

/-- The home `/c` with a clip `x` in it. -/
def homeWith (bytes : Bytes) : FileTree :=
  (oneHome.createAt [ofString "c", ofString "x"]).setData 0 bytes

theorem alike_oneHome : Alike oneHome oneHome [ofString "c"] :=
  .refl (by decide +kernel) fun m => no_links_oneHome _

/-- A camera is answered the same whatever its clip shows, and whether or not there is
another directory. -/
theorem answers_alike_homeWith :
    List.Forall₂ Reply.Same
      (answers (.plain : ReoBackend shiftAge) cameraC (homeWith [1])
        [(5, .metadata (ofString "x")), (6, .put (ofString "y") 0 [.ok [3]] (7 : UInt8) .never),
          (7, .list [])])
      (answers (.plain : ReoBackend shiftAge) cameraC ((homeWith [2]).mkdirAt [ofString "d"])
        [(5, .metadata (ofString "x")), (6, .put (ofString "y") 0 [.ok [3]] (7 : UInt8) .never),
          (7, .list [])]) := by
  have hv : oneHome.Vacant ([ofString "c"] ++ [ofString "x"]) := by decide +kernel
  have hx : Twins (oneHome.createAt ([ofString "c"] ++ [ofString "x"]))
      (oneHome.createAt ([ofString "c"] ++ [ofString "x"])) [ofString "c"] 0 0 :=
    ⟨[ofString "x"], entry_createAt_self hv, entry_createAt_self hv⟩
  have hclip : Alike (homeWith [1]) (homeWith [2]) [ofString "c"] :=
    (alike_oneHome.createAt hv hv).setData hx rfl
  have halike : Alike (homeWith [1]) ((homeWith [2]).mkdirAt [ofString "d"]) [ofString "c"] :=
    hclip.outside sameContents_mkdirAt fun m => entry_mkdirAt_ne (by
      intro he
      exact absurd (List.cons.inj he).1 (by decide))
  have hhomes : AlikeHomes (ofString "/c") [ofString "c"] (homeWith [1])
      ((homeWith [2]).mkdirAt [ofString "d"]) := ⟨halike, by decide +kernel, by decide +kernel⟩
  exact answers_alike rfl hhomes _

/-! ## What tells two homes apart -/

section Copy
variable {t : FileTree} {B S L : Loc} {i : Nat}

/-- A second name for a file looks like a copy of it. -/
theorem looksAlike_copy (there : t.entry B ≠ none)
    (noLinks : ∀ m target, t.entry (B ++ m) ≠ some (.link target))
    (hS : t.entry S = some (.file i)) (hv : t.Vacant L)
    (htime : t.disk.modified i = t.disk.clock) :
    LooksAlike (t.linkAt S L) ((t.createAt L).setData t.disk.fresh (t.disk.data i)) B := by
  have hBL : B ≠ L := fun he => there (he ▸ hv.2.1)
  have hlink : ∀ M, M ≠ L → (t.linkAt S L).entry M = t.entry M := fun M => entry_linkAt_ne
  have hcopy : ∀ M, M ≠ L →
      ((t.createAt L).setData t.disk.fresh (t.disk.data i)).entry M = t.entry M :=
    fun M => entry_createAt_ne
  have hself : (t.linkAt S L).entry L = some (.file i) := entry_linkAt_self hv hS
  have hself' : ((t.createAt L).setData t.disk.fresh (t.disk.data i)).entry L =
      some (.file t.disk.fresh) := entry_createAt_self hv
  -- the link shows the old inode where the copy shows a new one with the same bytes
  have hcontents : ∀ m j j', (t.linkAt S L).entry (B ++ m) = some (.file j) →
      ((t.createAt L).setData t.disk.fresh (t.disk.data i)).entry (B ++ m) = some (.file j') →
      (t.linkAt S L).disk.data j =
          ((t.createAt L).setData t.disk.fresh (t.disk.data i)).disk.data j' ∧
        (t.linkAt S L).disk.modified j =
          ((t.createAt L).setData t.disk.fresh (t.disk.data i)).disk.modified j' := by
    intro m j j' hj hj'
    rw [data_linkAt, sameContents_linkAt.modified]
    by_cases hm : B ++ m = L
    · rw [hm, hself] at hj
      rw [hm, hself'] at hj'
      obtain rfl := Entry.file.inj (Option.some.inj hj)
      obtain rfl := Entry.file.inj (Option.some.inj hj')
      refine ⟨(data_setData_self _).symm, htime.trans ?_⟩
      exact clock_createAt.symm.trans (Disk.modified_setData_self _).symm
    · rw [hlink _ hm] at hj
      rw [hcopy _ hm] at hj'
      obtain rfl := Entry.file.inj (Option.some.inj (hj.symm.trans hj'))
      have hold : j ≠ t.disk.fresh := Nat.ne_of_lt (lt_fresh hj)
      refine ⟨((data_setData_ne _ hold).trans (data_createAt_ne hold)).symm, ?_⟩
      exact ((Disk.modified_setData_ne _ hold).trans (modified_createAt_ne hold)).symm
  exact
    { there := by rw [hlink B hBL]; exact there
      kind := fun m => by
        by_cases hm : B ++ m = L
        · rw [hm, hself, hself']
          exact .file _ _
        · rw [hlink _ hm, hcopy _ hm]
          exact sameKind_self (noLinks m)
      size := fun m j j' hj hj' => congrArg List.length (hcontents m j j' hj hj').1
      time := fun m j j' hj hj' => (hcontents m j j' hj hj').2
      clock := sameContents_linkAt.clock.trans clock_createAt.symm
      dirSize := sameContents_linkAt.dirSize.trans dirSize_createAt.symm }

end Copy

/-- The home `/c` with the staging file of `a`. -/
def stagedHome : FileTree :=
  (oneHome.createAt [ofString "c", ofString "a.reoftpd-partial"]).setData 0 [1]

/-- There `b` is a second name of the staging file. -/
def linkedStaging : FileTree :=
  stagedHome.linkAt [ofString "c", ofString "a.reoftpd-partial"] [ofString "c", ofString "b"]

/-- There `b` is a copy of it. -/
def copiedStaging : FileTree :=
  (stagedHome.createAt [ofString "c", ofString "b"]).setData 1 [1]

/-- The home `/c` with two directories, made one after the other. -/
def twoDirs (first second : String) : FileTree :=
  (oneHome.mkdirAt [ofString "c", ofString first]).mkdirAt [ofString "c", ofString second]

theorem looksAlike_staging : LooksAlike linkedStaging copiedStaging [ofString "c"] := by
  have hpart : oneHome.Vacant [ofString "c", ofString "a.reoftpd-partial"] := by decide +kernel
  have hlinks : ∀ M target, stagedHome.entry M ≠ some (.link target) := by
    refine no_links_of_entry no_links_oneHome (fun M => entry_createAt_ne) fun target => ?_
    have hself : stagedHome.entry [ofString "c", ofString "a.reoftpd-partial"] = some (.file 0) :=
      entry_createAt_self hpart
    rw [hself]
    simp
  have hthere : stagedHome.entry [ofString "c"] ≠ none := by decide +kernel
  have hstaging : stagedHome.entry [ofString "c", ofString "a.reoftpd-partial"] =
      some (.file 0) := by decide +kernel
  have hvacant : stagedHome.Vacant [ofString "c", ofString "b"] := by decide +kernel
  exact looksAlike_copy hthere (fun m => hlinks _) hstaging hvacant (by decide +kernel)

theorem alike_twoDirs : Alike (twoDirs "x" "y") (twoDirs "y" "x") [ofString "c"] := by
  have hcontents : ∀ first second, SameContents oneHome (twoDirs first second) :=
    fun first second => sameContents_mkdirAt.trans sameContents_mkdirAt
  have hentry : ∀ M, (twoDirs "y" "x").entry M = (twoDirs "x" "y").entry M := by
    intro M
    by_cases hx : M = [ofString "c", ofString "x"]
    · subst hx
      decide +kernel
    · by_cases hy : M = [ofString "c", ofString "y"]
      · subst hy
        decide +kernel
      · simp only [twoDirs, entry_mkdirAt_ne hx, entry_mkdirAt_ne hy]
  have hlinks : ∀ M target, (twoDirs "x" "y").entry M ≠ some (.link target) := by
    have hself : ∀ {t : FileTree} {L : Loc}, t.Vacant L → ∀ target,
        (t.mkdirAt L).entry L ≠ some (.link target) := by
      intro t L hv target
      rw [entry_mkdirAt_self hv]
      simp
    have hx : oneHome.Vacant [ofString "c", ofString "x"] := by decide +kernel
    have hy : (oneHome.mkdirAt [ofString "c", ofString "x"]).Vacant
        [ofString "c", ofString "y"] := by decide +kernel
    exact no_links_of_entry (no_links_of_entry no_links_oneHome (fun M => entry_mkdirAt_ne)
      (hself hx)) (fun M => entry_mkdirAt_ne) (hself hy)
  exact (Alike.refl (by decide +kernel) fun m => hlinks _).outside
    ((hcontents _ _).symm.trans (hcontents _ _)) fun m => hentry _

/-- **Hard links and the order of a directory are told apart.**  A store that goes on with
its staging file makes the other name of it longer, and a copy not; and two directories are
listed in the order in which they lie there. -/
theorem hard_links_and_order_tell :
    (LooksAlike linkedStaging copiedStaging [ofString "c"] ∧
      linkedStaging.locate true (ofString "/c") = .ok [ofString "c"] ∧
      copiedStaging.locate true (ofString "/c") = .ok [ofString "c"] ∧
      answers (.plain : ReoBackend shiftAge) cameraC linkedStaging
          [(0, .put (ofString "a") 1 [.ok [2]] (7 : UInt8) .never), (0, .metadata (ofString "b"))] ≠
        answers (.plain : ReoBackend shiftAge) cameraC copiedStaging
          [(0, .put (ofString "a") 1 [.ok [2]] (7 : UInt8) .never),
            (0, .metadata (ofString "b"))]) ∧
      AlikeHomes (ofString "/c") [ofString "c"] (twoDirs "x" "y") (twoDirs "y" "x") ∧
        answers (.plain : ReoBackend shiftAge) cameraC (twoDirs "x" "y") [(0, .list [])] ≠
          answers (.plain : ReoBackend shiftAge) cameraC (twoDirs "y" "x") [(0, .list [])] :=
  ⟨⟨looksAlike_staging, by decide +kernel, by decide +kernel, by decide +kernel⟩,
    ⟨alike_twoDirs, by decide +kernel, by decide +kernel⟩, by decide +kernel⟩

end Reoftpd

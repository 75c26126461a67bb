import Reoftpd.Effects
import Reoftpd.Noninterference

/-!
# Two homes with the same footage

Two trees have alike homes if they look the same to a camera, which sees no bytes.  To a
viewer they are the same if the bytes are the same too (`SameHomes`).  A camera that makes the
same request in both stores the same bytes, so its request leaves them the same
(`serve_sameHomes`): what a file holds is what it held and what was sent, whatever number the
file has in either tree.
-/
namespace Reoftpd
open UnixPath FileTree

/-- Files of one name in the two homes hold the same bytes. -/
def SameBytes (t t' : FileTree) (B : Loc) : Prop :=
  ∀ i j, Twins t t' B i j → t.disk.data i = t'.disk.data j

/-- **The homes are the same**, but for the numbers of their files and the order of their
directories. -/
structure SameHomes (home : OsStr) (B : Loc) (t t' : FileTree) : Prop
    extends AlikeHomes home B t t' where
  bytes : SameBytes t t' B

section Same
variable {home p q : OsStr} {B L : Loc} {m m₀ : List OsStr} {t t' s s' : FileTree} {i j : Nat}
  {mk : MkdirFault}

/-! ## One change in both -/

/-- No file is written, and no name gets a file that shares no name with its twin. -/
theorem SameBytes.of_twins (h : SameBytes t t' B) (hd : s.disk.data = t.disk.data)
    (hd' : s'.disk.data = t'.disk.data) (htw : ∀ i j, Twins s s' B i j → Twins t t' B i j) :
    SameBytes s s' B := by
  intro i j hij
  rw [hd, hd']
  exact h i j (htw i j hij)

/-- Directories are made. -/
theorem SameBytes.createDirAll (h : SameBytes t t' B) (p : OsStr) :
    SameBytes (t.createDirAll mk p).1 (t'.createDirAll mk p).1 B := by
  have ha := addsDirs_createDirAll mk t p
  have ha' := addsDirs_createDirAll mk t' p
  refine h.of_twins (sameContents_createDirAll mk t p).data
    (sameContents_createDirAll mk t' p).data ?_
  rintro i j ⟨m, hi, hj⟩
  exact ⟨m, ha.file_iff.mp hi, ha'.file_iff.mp hj⟩

/-- A file and its twin get the same bytes. -/
theorem SameHomes.setData (h : SameHomes home B t t') (hij : Twins t t' B i j) (b : Bytes) :
    SameHomes home B (t.setData i b) (t'.setData j b) ∧
      Twins (t.setData i b) (t'.setData j b) B i j := by
  obtain ⟨halike, htwins⟩ := h.toAlikeHomes.setData hij (Eq.refl b.length)
  refine ⟨⟨halike, fun i' j' hij' => ?_⟩, htwins⟩
  have hold : Twins t t' B i' j' := hij'
  by_cases hi : i' = i
  · obtain rfl : j' = j := (h.twins_iff hold hij).mp hi
    subst hi
    rw [data_setData_self, data_setData_self]
  · have hj : j' ≠ j := fun hj => hi ((h.twins_iff hold hij).mpr hj)
    rw [data_setData_ne b hi, data_setData_ne b hj]
    exact h.bytes i' j' hold

theorem SameHomes.append (h : SameHomes home B t t') (hij : Twins t t' B i j) (b : Bytes) :
    SameHomes home B (t.append i b) (t'.append j b) ∧
      Twins (t.append i b) (t'.append j b) B i j := by
  have hdata : t'.append j b = t'.setData j (t.disk.data i ++ b) := by
    rw [h.bytes i j hij]
    rfl
  rw [hdata]
  exact h.setData hij _

theorem SameHomes.writeAt (h : SameHomes home B t t') (hij : Twins t t' B i j) (off : Nat)
    (b : Bytes) : SameHomes home B (t.writeAt i off b) (t'.writeAt j off b) ∧
      Twins (t.writeAt i off b) (t'.writeAt j off b) B i j := by
  have hdata : t'.writeAt j off b = t'.setData j (Disk.overwrite (t.disk.data i) off b) := by
    rw [h.bytes i j hij]
    rfl
  rw [hdata]
  exact h.setData hij _

/-- Files at one path of the home are opened in both trees or in neither. -/
theorem SameHomes.openFile (h : SameHomes home B t t') (hp : HomePath home B p m) :
    Agree (fun a b => SameHomes home B a.1 b.1 ∧ Twins a.1 b.1 B a.2 b.2)
      (t.openFile p) (t'.openFile p) := by
  obtain ⟨hsame, hplace⟩ := h.toAlikeHomes.locate true hp
  rcases (h.toAlikeHomes.openFile hp).cases with ⟨e, ho, ho'⟩ | ⟨⟨s, i⟩, ⟨s', j⟩, ho, ho', hR, hij⟩
  · rw [ho, ho']
    rfl
  · rw [ho, ho']
    refine ⟨⟨hR, ?_⟩, hij⟩
    obtain ⟨L, hL, hcases⟩ := openFile_ok ho
    obtain ⟨L', hL', hcases'⟩ := openFile_ok ho'
    obtain rfl := hplace L hL
    obtain rfl := hplace L' (hsame.trans hL')
    have hkind := h.kind m
    -- the file is there in both trees, or made in both
    rcases hcases with ⟨hi, rfl⟩ | ⟨hv, rfl, rfl⟩ <;>
      rcases hcases' with ⟨hj, rfl⟩ | ⟨hv', rfl, rfl⟩
    · exact h.bytes
    · rw [hi, hv'.2.1] at hkind
      cases hkind
    · rw [hv.2.1, hj] at hkind
      cases hkind
    · rintro i j ⟨m', hi, hj⟩
      by_cases hm : B ++ m' = B ++ m
      · rw [hm, entry_createAt_self hv] at hi
        rw [hm, entry_createAt_self hv'] at hj
        cases hi
        cases hj
        rw [data_createAt_self hv, data_createAt_self hv']
      · rw [entry_createAt_ne hm] at hi hj
        rw [data_createAt_ne (Nat.ne_of_lt (lt_fresh hi)),
          data_createAt_ne (Nat.ne_of_lt (lt_fresh hj))]
        exact h.bytes i j ⟨m', hi, hj⟩

theorem SameHomes.openTruncate (h : SameHomes home B t t') (hp : HomePath home B p m) :
    Agree (fun a b => SameHomes home B a.1 b.1 ∧ Twins a.1 b.1 B a.2 b.2)
      (t.openTruncate p) (t'.openTruncate p) := by
  unfold FileTree.openTruncate
  rcases (h.openFile hp).cases with ⟨e, ho, ho'⟩ | ⟨a, b, ho, ho', hR, hij⟩
  · rw [ho, ho']
    rfl
  · rw [ho, ho']
    exact hR.setData hij []

/-- A second name is bound in both trees or in neither. -/
theorem SameHomes.hardLink (h : SameHomes home B t t') (hp : HomePath home B p m₀)
    (hq : HomePath home B q m) (hm : m ≠ []) :
    Agree (SameHomes home B) (t.hardLink p q) (t'.hardLink p q) := by
  obtain ⟨hsame, hplace⟩ := h.toAlikeHomes.locate false hq
  obtain ⟨hsame₀, hplace₀⟩ := h.toAlikeHomes.locate false hp
  rcases (h.toAlikeHomes.hardLink hp hq hm).cases with ⟨e, hl, hl'⟩ | ⟨s, s', hl, hl', hR⟩
  · rw [hl, hl']
    rfl
  · rw [hl, hl']
    refine ⟨hR, ?_⟩
    obtain ⟨A, D, e, hA, he, -, hD, hv, rfl⟩ := hardLink_ok hl
    obtain ⟨A', D', e', hA', he', -, hD', hv', rfl⟩ := hardLink_ok hl'
    obtain rfl := hplace D hD
    obtain rfl := hplace D' (hsame.trans hD')
    obtain rfl := hplace₀ A hA
    obtain rfl := hplace₀ A' (hsame₀.trans hA')
    refine h.bytes.of_twins sameContents_linkAt.data sameContents_linkAt.data ?_
    rintro i j ⟨m', hi, hj⟩
    by_cases hm' : B ++ m' = B ++ m
    · rw [hm', entry_linkAt_self hv he] at hi
      rw [hm', entry_linkAt_self hv' he'] at hj
      exact ⟨m₀, he.trans hi, he'.trans hj⟩
    · rw [entry_linkAt_ne hm'] at hi hj
      exact ⟨m', hi, hj⟩

/-- What is left of a tree that may have lost a name. -/
theorem file_of_discard (h : (t.discard p).entry L = some (.file i)) :
    t.entry L = some (.file i) := by
  unfold FileTree.discard at h
  split at h
  · rename_i s hr
    obtain ⟨M, e, -, he, hdir, rfl⟩ := removeFile_ok hr
    by_cases hL : L = M
    · subst hL
      have hgone : (t.eraseAt L).entry L = none := by
        refine entry_eraseAt_self (childless_of_entry he ?_)
        exact hdir
      rw [hgone] at h
      cases h
    · rwa [entry_eraseAt_ne hL] at h
  · exact h

theorem discard_data (t : FileTree) (p : OsStr) : (t.discard p).disk.data = t.disk.data := by
  unfold FileTree.discard
  split
  · rename_i s hr
    obtain ⟨L, e, -, -, -, rfl⟩ := removeFile_ok hr
    exact data_eraseAt
  · rfl

/-- A name goes in both trees or in neither. -/
theorem SameHomes.discard (h : SameHomes home B t t') (hp : HomePath home B p m) (hm : m ≠ []) :
    SameHomes home B (t.discard p) (t'.discard p) := by
  refine ⟨h.toAlikeHomes.discard hp hm, h.bytes.of_twins ?_ ?_ ?_⟩
  · exact discard_data t p
  · exact discard_data t' p
  · rintro i j ⟨m', hi, hj⟩
    exact ⟨m', file_of_discard hi, file_of_discard hj⟩

end Same

/-! ## A call of a camera -/

section Calls
variable {age : Age} {user : ReoUser} {home path : OsStr} {B : Loc} {t t' : FileTree}

/-- **A store on a path of the home** goes the same way, and stores the same bytes. -/
theorem storesSame (mk : MkdirFault) {final : OsStr} {n : List OsStr} {s : OsStr}
    (hfinal : final = locText (B ++ (n ++ [s]))) (hn : ∀ x ∈ n ++ [s], IsName x) :
    Simulates (treeTarget mk final) (treeTarget mk final) (SameHomes home B)
      fun i j t t' => SameHomes home B t t' ∧ Twins t t' B i j := by
  have halike : StoresAlike mk home B final := storesAlike mk hfinal hn
  have hs : IsName (s ++ stagingSuffix) := isName_suffix (hn s (by simp)) (by decide)
  have hfront : ∀ x ∈ n, IsName x := fun x hx => hn x (List.mem_append_left [s] hx)
  have hnames : ∀ x ∈ n ++ [s ++ stagingSuffix], IsName x :=
    List.forall_mem_append.mpr ⟨hfront, by simpa using hs⟩
  have hstaging : stagingPath final = locText (B ++ (n ++ [s ++ stagingSuffix])) := by
    rw [hfinal, stagingPath, ← List.append_assoc, locText_suffix, List.append_assoc]
  have hpath : HomePath home B final (n ++ [s]) := by
    rw [hfinal]
    exact .text hn
  have hstagingPath : HomePath home B (stagingPath final) (n ++ [s ++ stagingSuffix]) := by
    rw [hstaging]
    exact .text hnames
  exact
    { tryExists := fun t t' h => halike.tryExists t t' h.toAlikeHomes
      stagingLen := fun t t' h => halike.stagingLen t t' h.toAlikeHomes
      createParent := fun t t' h => by
        obtain ⟨hR, hr⟩ := halike.createParent t t' h.toAlikeHomes
        refine ⟨⟨hR, ?_⟩, hr⟩
        simp only [treeTarget]
        cases parent (stagingPath final) with
        | none => exact h.bytes
        | some d => exact h.bytes.createDirAll d
      openAppend := fun t t' h => h.openFile hstagingPath
      createFile := fun t t' h => h.openTruncate hstagingPath
      append := fun i j t t' b h => h.1.append h.2 b
      writeAt := fun i j t t' off b h => h.1.writeAt h.2 off b
      written := fun i j t t' h => h.1
      hardLink := fun t t' h => h.hardLink hstagingPath hpath (by simp)
      removeStaging := fun t t' h => h.discard hstagingPath (by simp) }

theorem mkd_same (mk : MkdirFault) (path : OsStr) (h : SameHomes home B t t')
    (hrole : user.role = .uploader home) :
    SameHomes home B (ReoBackend.mkd mk user path t).1 (ReoBackend.mkd mk user path t').1 := by
  refine ⟨(mkd_alike mk path h.toAlikeHomes hrole).1, ?_⟩
  unfold ReoBackend.mkd
  rw [hrole]
  rcases h.toAlikeHomes.resolve hrole path with ⟨e, hr, hr'⟩ | ⟨parts, -, hr, hr', hp⟩
  · rw [hr, hr']
    exact h.bytes
  · rw [hr, hr']
    have hmade : SameBytes (t.createDirAll mk (locText (B ++ parts.map ofString))).1
        (t'.createDirAll mk (locText (B ++ parts.map ofString))).1 B := h.bytes.createDirAll _
    simp only
    rcases hc : t.createDirAll mk (locText (B ++ parts.map ofString)) with ⟨s, r⟩
    rcases hc' : t'.createDirAll mk (locText (B ++ parts.map ofString)) with ⟨s', r'⟩
    rw [hc, hc'] at hmade
    cases r <;> cases r' <;> exact hmade

theorem copyProbe_same {i j : Nat} (input : Input) (n : Nat) (h : SameHomes home B t t')
    (hij : Twins t t' B i j) :
    SameHomes home B (copyProbe i t input n).1 (copyProbe j t' input n).1 := by
  induction input generalizing t t' n with
  | nil => exact h
  | cons x rest ih =>
      cases x with
      | error e => exact h
      | ok b =>
          obtain ⟨h, hij⟩ := h.writeAt hij n b
          exact ih (n + b.length) h hij

theorem putProbe_same (faults : PutFaults) (filename : String) (hname : IsName (ofString filename))
    (input : Input) (h : SameHomes home B t t') :
    SameHomes home B (putProbe faults home filename input t).1
      (putProbe faults home filename input t').1 := by
  have hnames : ∀ s ∈ [quarantineDir, ofString filename], IsName s := by
    intro s hs
    rcases List.mem_cons.mp hs with rfl | hs
    · decide
    · exact List.mem_singleton.mp hs ▸ hname
  have hdest : HomePath home B ([quarantineDir, ofString filename].foldl join home)
      [quarantineDir, ofString filename] := .joined hnames (List.cons_ne_nil _ _)
  have hquarantine : IsName quarantineDir := by decide
  obtain ⟨hs, he⟩ := h.toAlikeHomes.createDirAll_join faults.mkdir hquarantine
  have hbytes : SameBytes (t.createDirAll faults.mkdir (join home quarantineDir)).1
      (t'.createDirAll faults.mkdir (join home quarantineDir)).1 B := h.bytes.createDirAll _
  unfold putProbe
  rcases hc : t.createDirAll faults.mkdir (join home quarantineDir) with ⟨s, r⟩
  rcases hc' : t'.createDirAll faults.mkdir (join home quarantineDir) with ⟨s', r'⟩
  rw [hc, hc'] at hs he hbytes
  obtain rfl : r = r' := he
  have hmade : SameHomes home B s s' := ⟨hs, hbytes⟩
  cases r with
  | error e => exact hmade
  | ok _ =>
      have hopen : Agree (fun a b => SameHomes home B a.1 b.1 ∧ Twins a.1 b.1 B a.2 b.2)
          (s.openTruncate (probeDest home filename)) (s'.openTruncate (probeDest home filename)) :=
        hmade.openTruncate hdest
      simp only
      rcases (hopen.attempt faults.openProbe).cases with ⟨e, ho, ho'⟩ | ⟨a, b, ho, ho', ha, hij⟩
      · rw [ho, ho']
        exact hmade
      · rw [ho, ho']
        exact copyProbe_same input 0 ha hij

theorem putStore_same {recipients : Option (List age.Recipient)} (faults : PutFaults)
    (seed : age.Seed) (startPos : Nat) (input : Input) {m : List OsStr} (hm : ∀ s ∈ m, IsName s)
    (hne : m ≠ []) (h : SameHomes home B t t') :
    SameHomes home B (putStore recipients faults seed (locText (B ++ m)) startPos input t).1
      (putStore recipients faults seed (locText (B ++ m)) startPos input t').1 := by
  obtain ⟨n, s, rfl⟩ : ∃ n s, m = n ++ [s] :=
    ⟨_, _, (List.dropLast_append_getLast hne).symm⟩
  unfold putStore
  cases recipients with
  | none => exact ((storesSame faults.mkdir rfl hm).storeStream h).1
  | some recipients =>
      simp only
      split
      · exact h
      · obtain ⟨hn, hs⟩ := List.forall_mem_append.mp hm
        have hs' : IsName (s ++ ofString ".age") := isName_suffix (hs s (by simp)) (by decide)
        have hage : ageSuffix (locText (B ++ (n ++ [s]))) =
            locText (B ++ (n ++ [s ++ ofString ".age"])) := by
          rw [ageSuffix, ← List.append_assoc, locText_suffix, List.append_assoc]
        have hnames : ∀ x ∈ n ++ [s ++ ofString ".age"], IsName x :=
          List.forall_mem_append.mpr ⟨hn, by simpa using hs'⟩
        exact ((storesSame faults.mkdir hage hnames).storeEncrypted h).1

theorem put_same (backend : ReoBackend age) (faults : PutFaults) (seed : age.Seed)
    (path : OsStr) (startPos : Nat) (input : Input) (h : SameHomes home B t t')
    (hrole : user.role = .uploader home) :
    SameHomes home B (backend.put faults seed user path startPos input t).1
      (backend.put faults seed user path startPos input t').1 := by
  unfold ReoBackend.put
  rw [hrole]
  cases hname : fileName path with
  | none => exact h
  | some name =>
      simp only
      split
      · exact h
      · split
        · exact putProbe_same faults _ (isName_lossy (isName_fileName hname)) input h
        · rcases h.toAlikeHomes.resolve hrole path with ⟨e, hr, hr'⟩ | ⟨parts, hparts, hr, hr', hp⟩
          · rw [hr, hr']
            exact h
          · have hne : parts.map ofString ≠ [] := by simpa using normalize_ne_nil hparts hname
            rw [hr, hr']
            exact putStore_same faults seed startPos input hp.names hne h

/-- **A request of a camera** leaves its home the same in both trees. -/
theorem afterRequest_same (backend : ReoBackend age) (req : Request age)
    (h : SameHomes home B t t') (hrole : req.user.role = .uploader home) :
    SameHomes home B (afterRequest backend t req) (afterRequest backend t' req) := by
  obtain ⟨user, call⟩ := req
  cases call with
  | put path startPos input seed faults =>
      exact put_same backend faults seed path startPos input h hrole
  | mkd path mk => exact mkd_same mk path h hrole
  | metadata path | list path | get path startPos | cwd path | del path | rename source target
  | rmd path => exact h

end Calls

end Reoftpd

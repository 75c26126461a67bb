import Reoftpd.ReadJail
import Reoftpd.StoredClips

/-!
# Three views of a directory

`cwd`, `metadata` and `list` each say whether a virtual path is a directory.  All three
resolve the path and look at what it leads to; but the virtual root of a viewer with
several roots does not resolve, and only `cwd` and `list` look for it before they resolve.

**The views agree** on every path but that root (`views_agree_iff`).
-/
namespace Reoftpd
open UnixPath FileTree

/-- `is_dir` of `Meta`. -/
def Meta.isDir : Meta → Bool
  | .real m => m.isDir
  | .synthDir => true

/-- The path resolves, and leads to the directory `L`. -/
def LeadsToDir (t : FileTree) (user : ReoUser) (path : OsStr) (L : Loc) : Prop :=
  ∃ real, (userView user).resolve t path = .ok real ∧ t.find true real = .ok (L, .dir)

/-- **The three views of a path agree.** -/
structure ViewsAgree (t : FileTree) (user : ReoUser) (path : OsStr) : Prop where
  metadata : ReoBackend.cwd t user path = .ok () ↔
    ∃ m, ReoBackend.metadata t user path = .ok m ∧ m.isDir = true
  list : ReoBackend.cwd t user path = .ok () ↔
    ∃ entries, ReoBackend.list t user path = .ok entries

section Views
variable {t : FileTree} {user : ReoUser} {path real : OsStr} {L : Loc}

/-! ## When each of them succeeds -/

theorem statOf_isDir {e : Entry OsStr} : (t.statOf e).isDir = true ↔ e = .dir := by
  cases e with
  | dir => exact ⟨fun _ => rfl, fun _ => rfl⟩
  | file i => simp [FileTree.statOf]
  | link target => simp [FileTree.statOf]

theorem metadata_isDir_iff {p : OsStr} :
    (∃ m, t.metadata p = .ok m ∧ m.isDir = true) ↔ ∃ L, t.find true p = .ok (L, .dir) := by
  cases hf : t.find true p with
  | error e => simp [FileTree.metadata, hf]
  | ok found =>
      obtain ⟨L, e⟩ := found
      simp [FileTree.metadata, hf, statOf_isDir]

theorem readDir_ok_iff {p : OsStr} :
    (∃ names, t.readDir p = .ok names) ↔ ∃ L, t.find true p = .ok (L, .dir) := by
  constructor
  · rintro ⟨names, hread⟩
    obtain ⟨L, hL, hdir, -⟩ := readDir_ok hread
    exact ⟨L, find_ok.mpr ⟨hL, hdir⟩⟩
  · rintro ⟨L, hf⟩
    exact ⟨_, by rw [FileTree.readDir, hf]⟩

/-- **`metadata`** reports a directory when the path leads to one. -/
theorem metadata_dir_iff : (∃ m, ReoBackend.metadata t user path = .ok m ∧ m.isDir = true) ↔
    ∃ L, LeadsToDir t user path L := by
  have hallowed : capabilityAllowed user.role .metadata = true := by
    cases user.role <;> rfl
  cases hres : (userView user).resolve t path with
  | error e => simp [ReoBackend.metadata, LeadsToDir, hallowed, hres]
  | ok real =>
      have hdir := @metadata_isDir_iff t real
      cases hm : t.metadata real with
      | error e =>
          rw [hm] at hdir
          simpa [ReoBackend.metadata, LeadsToDir, hallowed, hres, hm] using hdir
      | ok m =>
          rw [hm] at hdir
          simpa [ReoBackend.metadata, LeadsToDir, hallowed, hres, hm, Meta.isDir] using hdir

/-- `cwd` past its look at the virtual root. -/
def enterReal (t : FileTree) (user : ReoUser) (path : OsStr) : Except StorageError Unit :=
  match (userView user).resolve t path with
  | .error e => .error (pathErrToStorage e)
  | .ok real =>
      match t.metadata real with
      | .ok m => if m.isDir then .ok () else .error (.kind .permanentDirectoryNotAvailable)
      | .error e => .error (absentAs .permanentDirectoryNotAvailable e)

/-- `list` past its look at the virtual root. -/
def listReal (t : FileTree) (user : ReoUser) (path : OsStr) :
    Except StorageError (List (OsStr × Meta)) :=
  match (userView user).resolve t path with
  | .error e => .error (pathErrToStorage e)
  | .ok real =>
      match t.readDir real with
      | .ok names => .ok (listEntries t real names)
      | .error e => .error (absentAs .permanentDirectoryNotAvailable e)

theorem enterReal_ok_iff : enterReal t user path = .ok () ↔ ∃ L, LeadsToDir t user path L := by
  cases hres : (userView user).resolve t path with
  | error e => simp [enterReal, LeadsToDir, hres]
  | ok real =>
      have hdir := @metadata_isDir_iff t real
      cases hm : t.metadata real with
      | error e =>
          rw [hm] at hdir
          simpa [enterReal, LeadsToDir, hres, hm] using hdir
      | ok m =>
          rw [hm] at hdir
          simpa [enterReal, LeadsToDir, hres, hm] using hdir

theorem listReal_ok_iff : (∃ entries, listReal t user path = .ok entries) ↔
    ∃ L, LeadsToDir t user path L := by
  cases hres : (userView user).resolve t path with
  | error e => simp [listReal, LeadsToDir, hres]
  | ok real =>
      have hdir := @readDir_ok_iff t real
      cases hread : t.readDir real with
      | error e =>
          rw [hread] at hdir
          simpa [listReal, LeadsToDir, hres, hread] using hdir
      | ok names =>
          rw [hread] at hdir
          simpa [listReal, LeadsToDir, hres, hread] using hdir

theorem cwd_eq (h : ¬ Synthesized user path) :
    ReoBackend.cwd t user path = enterReal t user path := by
  cases hrole : user.role with
  | uploader home =>
      rw [ReoBackend.cwd, hrole]
      rfl
  | viewer scope =>
      have hnot : ¬ (isVirtualRoot path && !isSingleScope scope) = true := by
        intro hroot
        simp only [Bool.and_eq_true, Bool.not_eq_true'] at hroot
        exact h ⟨scope, hrole, hroot⟩
      rw [ReoBackend.cwd, hrole]
      simp only [capabilityAllowed, hnot]
      rfl

theorem list_eq (h : ¬ Synthesized user path) :
    ReoBackend.list t user path = listReal t user path := by
  cases hrole : user.role with
  | uploader home =>
      rw [ReoBackend.list, hrole]
      rfl
  | viewer scope =>
      have hnot :
          ¬ (isVirtualRoot path && !scope.listRoot.isEmpty && !isSingleScope scope) = true := by
        intro hroot
        simp only [Bool.and_eq_true, Bool.not_eq_true'] at hroot
        exact h ⟨scope, hrole, hroot.1.1, hroot.2⟩
      rw [ReoBackend.list, hrole]
      simp only [capabilityAllowed, hnot]
      rfl

/-- The virtual root can be entered. -/
theorem Synthesized.cwd (h : Synthesized user path) : ReoBackend.cwd t user path = .ok () := by
  obtain ⟨scope, hrole, hroot, hmulti⟩ := h
  simp [ReoBackend.cwd, hrole, capabilityAllowed, hroot, hmulti]

/-- And what is listed there are the names of the scope. -/
theorem Synthesized.list {scope : ScopeMap} (hrole : user.role = .viewer scope)
    (hroot : isVirtualRoot path = true) (hmulti : isSingleScope scope = false) :
    ReoBackend.list t user path =
      .ok (scope.listRoot.map fun name => (ofString name, .synthDir)) := by
  have hempty : scope.listRoot.isEmpty = false := hmulti
  simp [ReoBackend.list, hrole, capabilityAllowed, hroot, hmulti, hempty]

/-- **`cwd`** succeeds at the virtual root, and where the path leads to a directory. -/
theorem cwd_ok_iff : ReoBackend.cwd t user path = .ok () ↔
    Synthesized user path ∨ ∃ L, LeadsToDir t user path L := by
  by_cases h : Synthesized user path
  · simp [h, h.cwd]
  · rw [cwd_eq h, enterReal_ok_iff, or_iff_right h]

/-- **`list`** succeeds there too. -/
theorem list_ok_iff : (∃ entries, ReoBackend.list t user path = .ok entries) ↔
    Synthesized user path ∨ ∃ L, LeadsToDir t user path L := by
  by_cases h : Synthesized user path
  · obtain ⟨scope, hrole, hroot, hmulti⟩ := id h
    rw [Synthesized.list hrole hroot hmulti]
    simp [h]
  · rw [list_eq h, listReal_ok_iff, or_iff_right h]

/-! ## Where they agree -/

/-- The views agree unless the path is the virtual root and does not resolve. -/
theorem viewsAgree_iff : ViewsAgree t user path ↔
    (Synthesized user path → ∃ L, LeadsToDir t user path L) := by
  constructor
  · intro h hsyn
    exact metadata_dir_iff.mp (h.metadata.mp (cwd_ok_iff.mpr (Or.inl hsyn)))
  · intro h
    refine ⟨?_, cwd_ok_iff.trans list_ok_iff.symm⟩
    rw [cwd_ok_iff, metadata_dir_iff]
    exact ⟨fun hdir => hdir.elim h id, Or.inr⟩

/-- A virtual root has no names. -/
theorem normalize_virtualRoot (h : isVirtualRoot path = true) : normalize path = .ok [] := by
  unfold isVirtualRoot at h
  rw [Bool.or_eq_true, decide_eq_true_eq, decide_eq_true_eq] at h
  rcases h with h | h
  · rw [normalize, h]
    rfl
  · rw [normalize, h]
    rfl

/-- Where no single root is, the virtual root does not resolve. -/
theorem not_leadsToDir_root (hsingle : (userView user).single = none)
    (hroot : isVirtualRoot path = true) : ¬ LeadsToDir t user path L := by
  rintro ⟨real, hres, -⟩
  rw [ScopeMap.resolve, ScopeMap.target, normalize_virtualRoot hroot, hsingle] at hres
  cases hres

end Views

/-- **The three views agree** for a viewer with a single root, and for one with several
on every path but the virtual root: there `metadata` alone fails. -/
theorem views_agree_iff (t : FileTree) (username : String) (secure : Bool) (path : OsStr) :
    (∀ root, ViewsAgree t ⟨username, .viewer (.ofRoot root), secure⟩ path) ∧
      ∀ roots, ViewsAgree t ⟨username, .viewer (.multi roots), secure⟩ path ↔
        roots.keys = [] ∨ isVirtualRoot path = false := by
  constructor
  · intro root
    refine viewsAgree_iff.mpr ?_
    rintro ⟨scope, hrole, -, hmulti⟩
    obtain rfl := Role.viewer.inj hrole
    cases hmulti
  · intro roots
    rw [viewsAgree_iff]
    constructor
    · intro h
      by_contra hcond
      rw [not_or, Bool.not_eq_false] at hcond
      obtain ⟨L, hL⟩ := h ⟨_, rfl, hcond.2, by
        simpa [isSingleScope, ScopeMap.listRoot, ScopeMap.multi] using hcond.1⟩
      exact not_leadsToDir_root rfl hcond.2 hL
    · rintro hcond ⟨scope, hrole, hroot, hmulti⟩
      obtain rfl := Role.viewer.inj hrole
      rcases hcond with hempty | hnot
      · rw [isSingleScope, ScopeMap.listRoot, ScopeMap.multi, hempty] at hmulti
        cases hmulti
      · rw [hnot] at hroot
        cases hroot

/-- A viewer of one camera, by its name. -/
def guard : ReoUser :=
  ⟨"guard", .viewer (.multi (AList.insert "c" (ofString "/c") ∅)), false⟩

/-- **The virtual root of a viewer** is entered and listed, but `metadata` denies it. -/
theorem virtual_root_denied :
    ReoBackend.cwd oneHome guard [sep] = .ok () ∧
      ReoBackend.list oneHome guard [sep] = .ok [(ofString "c", .synthDir)] ∧
      ReoBackend.metadata oneHome guard [sep] = .error (.kind .permissionDenied) ∧
      ¬ ViewsAgree oneHome guard [sep] := by
  have hcwd : ReoBackend.cwd oneHome guard [sep] = .ok () := by decide +kernel
  have hmeta : ReoBackend.metadata oneHome guard [sep] = .error (.kind .permissionDenied) := by
    decide +kernel
  refine ⟨hcwd, by decide +kernel, hmeta, fun h => ?_⟩
  obtain ⟨m, hm, -⟩ := h.metadata.mp hcwd
  rw [hmeta] at hm
  cases hm

end Reoftpd

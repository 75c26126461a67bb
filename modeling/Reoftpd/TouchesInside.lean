import Reoftpd.StoredClips
import Reoftpd.WritesJailed

/-!
# What stays in the jail

What one call of an uploader touches lies in its home exactly when the paths that the call
comes to lead there before it (`touches_inside_iff`): a probe its directory and the file it
opens (`probeTouches_iff`), a store what its course says (`storeTouches_iff`), a `mkd` the
directories that are missing (`mkdTouches_iff`).  The equivalence holds of a call on which
nothing fails, and of one on which any operation may.

Where the home is not there nothing lies in it, and a call stays inside if it touches nothing
at all.
-/
namespace Reoftpd
open UnixPath FileTree

/-! ## Inside the home -/

/-- At or below where the home leads. -/
def InHome (t : FileTree) (home : OsStr) (L : Loc) : Prop :=
  ∃ H e, t.find true home = .ok (H, e) ∧ H <+: L

theorem closedBelow_of (H : Loc) : ClosedBelow fun L => H <+: L :=
  fun _ _ hL hM => hL.trans hM

theorem closedBelow_inHome (t : FileTree) (home : OsStr) : ClosedBelow (InHome t home) := by
  rintro L M ⟨H, e, hfind, hL⟩ hM
  exact ⟨H, e, hfind, hL.trans hM⟩

/-- The directory of a probe, where it is missing, and the file it opens are inside.  A NUL in
the path of the directory ends the probe before, unless something fails. -/
structure ProbeInside (mayFail : Prop) (home : OsStr) (filename : String) (t : FileTree) : Prop
    where
  dirs : mayFail ∨ nul ∉ join home quarantineDir →
    DirsInside (InHome t home) t (join home quarantineDir)
  opened : ∀ L, OpensAt t (probeDest home filename) L → InHome t home L

/-- The paths that the store branch of a `put` comes to are inside.  With encryption only a
store from offset 0 comes to any. -/
def StoresInside {age : Age} (mayFail : Prop) (recipients : Option (List age.Recipient))
    (seed : age.Seed) (inside : Loc → Prop) (t : FileTree) (startPos : Nat) (input : Input)
    (resolved : OsStr) : Prop :=
  match recipients with
  | none =>
      StoreInside mayFail inside (streamCourse mayFail startPos input t resolved) t resolved
  | some recipients =>
      startPos = 0 →
        StoreInside mayFail inside
          (encryptCourse mayFail (encryptStream age recipients seed input) t (ageSuffix resolved))
          t (ageSuffix resolved)

/-- A call of an uploader that writes. -/
inductive WriteCall (age : Age) where
  | put (path : OsStr) (startPos : Nat) (input : Input) (seed : age.Seed)
  | mkd (path : OsStr)

/-- What a call touches. -/
def callTouches {age : Age} (backend : ReoBackend age) (faults : PutFaults) (user : ReoUser)
    (t : FileTree) : WriteCall age → List Loc
  | .put path startPos input seed => putTouches backend faults seed user path startPos input t
  | .mkd path => mkdTouches faults.mkdir user path t

/-- **The paths that one call comes to are inside the home**, before the call.  `mayFail` says
whether its operations may fail. -/
def CallInside {age : Age} (backend : ReoBackend age) (mayFail : Prop) (home : OsStr)
    (t : FileTree) : WriteCall age → Prop
  | .put path startPos input seed =>
      ∀ name, fileName path = some name →
        if isReolinkTestFile (toStringLossy name) then
          ProbeInside mayFail home (toStringLossy name) t
        else
          ∀ resolved, (ScopeMap.ofRoot home).resolve t path = .ok resolved →
            StoresInside mayFail backend.recipients seed (InHome t home) t startPos input resolved
  | .mkd path =>
      ∀ resolved, (ScopeMap.ofRoot home).resolve t path = .ok resolved →
        (mayFail ∨ nul ∉ resolved) → DirsInside (InHome t home) t resolved

section Probe
variable {mayFail : Prop} {t t₁ : FileTree} {home s : OsStr} {H L M : Loc} {e : Entry OsStr}
  {mk : MkdirFault} {filename : String}

/-! ## Probes -/

/-- One directory may be new: the one a name joined to a path is at. -/
structure MadeAt (N : Loc) (t t₁ : FileTree) : Prop extends AddsDirs t t₁ where
  made : t₁.entry = t.entry ∨
    t.entry N = none ∧ t₁.entry N = some .dir ∧ ∀ M, M ≠ N → t₁.entry M = t.entry M

/-- **All that a directory in one that is there needs** is itself. -/
theorem madeAt_createDirAll (hs : IsName s) (hhome : t.find true home = .ok (H, e))
    (mk : MkdirFault) : MadeAt (H ++ [s]) t (t.createDirAll mk (join home s)).1 := by
  obtain ⟨hH, he⟩ := find_ok.mp hhome
  refine createDirs_ind (J := MadeAt (H ++ [s]) t) mk (fun p hp s₁ s₂ hJ hm => ?_)
    ⟨.refl t, Or.inl rfl⟩
  have hHs : s₁.locate true home = .ok H := hJ.grows.locate hH
  have hbound : s₁.entry H ≠ none := by
    rcases hJ.toAddsDirs.entry H with h | ⟨h, h'⟩
    · rw [h, he]
      simp
    · rw [h']
      simp
  rw [ancestors_join hs] at hp
  rcases List.mem_cons.mp hp with rfl | hp
  · obtain ⟨L, hL, hv, rfl⟩ := mkdir_ok hm
    have hlocate : s₁.locate false (join home s) = .ok L := by
      rw [locate, steps, endsWithSep_join_name hs, if_neg (by simp), hL]
    obtain ⟨A, m, hA, -, hlast⟩ := locate_join_ok (locateSteps_ok hH).1 hs hlocate
    obtain rfl : H = A := Except.ok.inj (hHs.symm.trans hA)
    rw [walk_last hs.2.2.1 hs.2.2.2 (Or.inl rfl)] at hlast
    obtain rfl := Except.ok.inj hlast
    refine ⟨hJ.toAddsDirs.trans (addsDirs_mkdirAt hv), Or.inr ?_⟩
    rcases hJ.made with heq | ⟨-, hdir, -⟩
    · refine ⟨heq ▸ hv.2.1, entry_mkdirAt_self hv, fun M hM => ?_⟩
      rw [entry_mkdirAt_ne hM, heq]
    · rw [hv.2.1] at hdir
      cases hdir
  · -- its ancestors are there
    have hthere : ∃ D, s₁.locate true p = .ok D ∧ s₁.entry D ≠ none := by
      rcases List.mem_cons.mp hp with rfl | hp
      · exact ⟨H, locate_render hHs, hbound⟩
      · have hne : p ≠ [] := by
          rintro rfl
          obtain ⟨L, hL, -⟩ := mkdir_ok hm
          exact (locateSteps_ok hL).1 rfl
        obtain ⟨D, hD, hdir⟩ := dir_of_properAncestor hHs hp hne
        exact ⟨D, hD, by simp [hdir]⟩
    obtain ⟨D, hD, hDbound⟩ := hthere
    rw [mkdir_there hD hDbound] at hm
    cases hm

/-- Where a name in that directory leads. -/
theorem MadeAt.locate {a : OsStr} (h : MadeAt (H ++ [s]) t t₁) (hs : IsName s) (ha : IsName a)
    (hhome : t.locate true home = .ok H)
    (hL : t₁.locate true (join (join home s) a) = .ok L) :
    t₁.entry = t.entry ∧ t.locate true (join (join home s) a) = .ok L ∨ H <+: L := by
  rcases h.made with he | ⟨hfree, hdir, hother⟩
  · exact Or.inl ⟨he, (locate_congr h.cwd he).symm.trans hL⟩
  · right
    have hHdir : t₁.entry H = some .dir := t₁.parent_dir H s (show t₁.entry (H ++ [s]) ≠ none by
      simp [hdir])
    have hdirs : t₁.locate true (join home s) = .ok (H ++ [s]) :=
      locate_join (h.grows.locate hhome) hHdir hdir (Or.inr fun target => by simp)
    obtain ⟨A, m, hA, -, hlast⟩ := locate_join_ok (join_ne_nil hs) ha hL
    obtain rfl : H ++ [s] = A := Except.ok.inj (hdirs.symm.trans hA)
    -- nothing lies in a directory that is new
    have hnone : t₁.entry (H ++ [s] ++ [a]) = none := by
      rw [hother _ (by simp)]
      by_contra hbound
      have hthere : t.entry (H ++ [s]) = some .dir := t.parent_dir (H ++ [s]) a hbound
      rw [hfree] at hthere
      cases hthere
    rw [walk_last ha.2.2.1 ha.2.2.2 (Or.inr fun target => by rw [hnone]; simp)] at hlast
    rw [← Except.ok.inj hlast, List.append_assoc]
    exact List.prefix_append H _

/-- On the way of a name in the home only that name may be missing. -/
theorem missing_below_home {q : OsStr} (hhome : t.find true home = .ok (H, e)) (hs : IsName s)
    (hq : q ∈ ancestors (join home s)) (hL : t.FreeAt q L) : H <+: L := by
  have hmade := madeAt_createDirAll hs hhome fun _ r => if nul ∈ r then some .notFound else none
  have hdir : (t.createDirAll (fun _ r => if nul ∈ r then some .notFound else none)
      (join home s)).1.entry L = some .dir := createDirAll_makes hq hL fun _ _ => rfl
  rcases hmade.made with he | ⟨-, -, hother⟩
  · rw [he, hL.2] at hdir
    cases hdir
  · have hLN : L = H ++ [s] := by
      by_contra hLN
      rw [hother L hLN, hL.2] at hdir
      cases hdir
    exact hLN ▸ List.prefix_append H _

/-- What a probe makes lies inside, and what it then opens. -/
theorem ProbeInside.made (h : ProbeInside mayFail home filename t)
    (hname : IsName (ofString filename)) (hmk : mayFail ∨ mk = fun _ _ => none) :
    (∀ M, (t.createDirAll mk (join home quarantineDir)).1.entry M ≠ t.entry M →
        InHome t home M) ∧
      ∀ L, OpensAt (t.createDirAll mk (join home quarantineDir)).1 (probeDest home filename) L →
        InHome t home L := by
  have hq : IsName quarantineDir := by decide
  by_cases hhome : ∃ H e, t.find true home = .ok (H, e)
  · obtain ⟨H, e, hhome⟩ := hhome
    have hmade := madeAt_createDirAll hq hhome mk
    constructor
    · intro M hM
      rcases hmade.made with he | ⟨-, -, hother⟩
      · exact absurd (congrFun he M) hM
      · have hMN : M = H ++ [quarantineDir] := by
          by_contra hMN
          exact hM (hother M hMN)
        exact ⟨H, e, hhome, hMN ▸ List.prefix_append H _⟩
    · intro L hL
      rcases hmade.locate hq hname (find_ok.mp hhome).1 hL.1 with ⟨he, hloc⟩ | hpre
      · exact h.opened L ⟨hloc, he ▸ hL.2⟩
      · exact ⟨H, e, hhome, hpre⟩
  · -- nothing is inside, so nothing is made
    have hnone : ∀ L, ¬ InHome t home L := fun L ⟨H, e, hfind, _⟩ => hhome ⟨H, e, hfind⟩
    have hsame : (t.createDirAll mk (join home quarantineDir)).1 = t := by
      by_cases hcan : mayFail ∨ nul ∉ join home quarantineDir
      · refine createDirs_ind (J := fun s => s = t) mk (fun p hp s s' hs hm => ?_) rfl
        subst hs
        obtain ⟨L, hL⟩ := freeAt_of_mkdir (endsWithSep_join_name hq) hp hm
        exact absurd (h.dirs hcan p hp L hL) (hnone L)
      · obtain ⟨hmay, hnul⟩ := not_or.mp hcan
        rw [hmk.resolve_left hmay, createDirAll_nul (not_not.mp hnul)]
    rw [hsame]
    exact ⟨fun M hM => absurd rfl hM, h.opened⟩

/-- A probe touches the directories it makes. -/
theorem mem_probeTouches {faults : PutFaults}
    (hM : (t.createDirAll faults.mkdir (join home quarantineDir)).1.entry M ≠ t.entry M) :
    M ∈ probeTouches faults home filename t := by
  unfold probeTouches
  rcases hc : t.createDirAll faults.mkdir (join home quarantineDir) with ⟨t₁, r⟩
  rw [hc] at hM
  have hlog : M ∈ (Logged.bind ⟨t, []⟩ t₁).log :=
    List.mem_append_left _ (mem_changedNames.mpr (Ne.symm hM))
  cases r with
  | error err => exact hlog
  | ok _ =>
      simp only
      split
      · exact hlog
      · exact List.mem_cons_of_mem _ (List.mem_append_right _ hlog)

/-- **A probe stays inside** exactly when the directory it makes and the file it opens do. -/
theorem probeTouches_iff (hname : IsName (ofString filename)) :
    (∀ faults, (mayFail ∨ faults = .never) →
        ∀ L ∈ probeTouches faults home filename t, InHome t home L) ↔
      ProbeInside mayFail home filename t := by
  have hq : IsName quarantineDir := by decide
  constructor
  · refine fun hin => ⟨fun hcan => dirsInside_of_made (fun mk hmk M hM => ?_) hcan,
      fun L hL => ?_⟩
    · refine hin ⟨mk, fun _ => none, fun _ => none, none⟩ ?_ M (mem_probeTouches hM)
      exact hmk.imp_right fun hmk => by rw [hmk, PutFaults.never]
    · -- a probe that meets no failure opens the file
      obtain ⟨A, m, hA, hdir, -⟩ := locate_join_ok (join_ne_nil hq) hname hL.1
      obtain ⟨t', i, ho⟩ := openFile_of_opensAt
        (show endsWithSep (probeDest home filename) = false from endsWithSep_join_name hname) hL
      have hdirs : t.createDirAll PutFaults.never.mkdir (join home quarantineDir) = (t, .ok ()) :=
        createDirAll_there (join_ne_nil hq) (isDir_iff.mpr ⟨A, hA, hdir⟩)
      have hopen : attempt PutFaults.never.openProbe (t.openTruncate (probeDest home filename)) =
          .ok (t'.setData i [], i) := by
        show t.openTruncate (probeDest home filename) = _
        rw [openTruncate, ho]
      have hin' := hin .never (Or.inr rfl) L
      unfold probeTouches at hin'
      rw [hdirs] at hin'
      simp only at hin'
      rw [hopen] at hin'
      exact hin' (place_eq hL.1 ▸ List.mem_cons_self ..)
  · intro h faults hfail
    have hmk : mayFail ∨ faults.mkdir = fun _ _ => none :=
      hfail.imp_right fun h => by rw [h, PutFaults.never]
    obtain ⟨hmade, hopened⟩ := h.made hname hmk
    unfold probeTouches
    rcases hc : t.createDirAll faults.mkdir (join home quarantineDir) with ⟨t₁, r⟩
    rw [hc] at hmade hopened
    have hdirs : (Logged.bind ⟨t, []⟩ t₁).Within (InHome t home) :=
      within_nil.bind fun M hM => hmade M (Ne.symm hM)
    cases r with
    | error err => exact hdirs
    | ok _ =>
        simp only
        cases ho : attempt faults.openProbe (t₁.openTruncate (probeDest home filename)) with
        | error err => exact hdirs
        | ok r =>
            obtain ⟨t₂, i⟩ := r
            obtain ⟨t₃, hfile, rfl⟩ := openTruncate_ok (attempt_ok ho).2
            obtain ⟨hat, hnew⟩ := opensAt_of_openFile hfile
            have hplace : InHome t home (place t₁ (probeDest home filename)) := hopened _ hat
            refine hdirs.write (fun M hM => ?_) hplace
            rw [(hnew M (Ne.symm hM)).1]
            exact hplace

end Probe

section Call
variable {age : Age} {mayFail : Prop} {inside : Loc → Prop} {t : FileTree} {home path : OsStr}
  {H R : Loc} {e : Entry OsStr} {user : ReoUser}

/-! ## Stores and new directories -/

/-- The canonical text with `.age` is that of a name in a directory. -/
theorem ageSuffix_locText (hR : ∀ a ∈ R, IsName a) :
    ∃ P f, ageSuffix (locText R) = locText (P ++ [f]) ∧ ∀ a ∈ P ++ [f], IsName a := by
  cases R using List.reverseRecOn with
  | nil => exact ⟨[], ofString ".age", rfl, by decide⟩
  | append_singleton P s =>
      refine ⟨P, s ++ ofString ".age", locText_suffix P s _, fun a ha => ?_⟩
      rcases List.mem_append.mp ha with ha | ha
      · exact hR a (List.mem_append_left [s] ha)
      · rw [List.mem_singleton.mp ha]
        exact isName_suffix (hR s (by simp)) (by decide)

/-- A plain store whose final path is there, or cannot be looked at, comes to no path. -/
theorem storeInside_of_refused {startPos : Nat} {input : Input} {final : OsStr}
    (hexists : t.tryExists final ≠ .ok false) :
    StoreInside mayFail inside (streamCourse mayFail startPos input t final) t final := by
  refine ⟨⟨fun ho => absurd ho.1 hexists, fun hd => ?_, fun hb => absurd hb.1.1 hexists⟩,
    fun ho => absurd ho.1 hexists⟩
  rcases hd with hd | hd
  · exact absurd hd.1 hexists
  · exact absurd hd.1.1 hexists

/-- **The store branch of a `put` stays inside** exactly when the paths it comes to do. -/
theorem storeTouches_iff (recipients : Option (List age.Recipient)) (seed : age.Seed)
    (startPos : Nat) (input : Input) (hbelow : ClosedBelow inside) (hR : ∀ a ∈ R, IsName a) :
    (∀ faults, (mayFail ∨ faults = .never) →
        ∀ L ∈ storeTouches recipients faults seed (locText R) startPos input t, inside L) ↔
      StoresInside mayFail recipients seed inside t startPos input (locText R) := by
  unfold storeTouches StoresInside
  cases recipients with
  | none =>
      simp only
      by_cases hexists : t.tryExists (locText R) = .ok false
      · -- the root is there, so the path of a store is not it
        obtain ⟨P, f, rfl⟩ : ∃ P f, R = P ++ [f] := by
          cases R using List.reverseRecOn with
          | nil =>
              have hroot : t.find true (locText []) = .ok ([], .dir) := by
                have hdir : t.entry [] = some .dir := t.root_dir
                exact find_ok.mpr ⟨locate_locText (by simp [hdir]) (by simp [hdir]), hdir⟩
              rw [tryExists, hroot] at hexists
              cases hexists
          | append_singleton P f => exact ⟨P, f, rfl⟩
        constructor
        · refine fun hin => storeInside_of_stream hR fun mk fault hfail => ?_
          refine hin ⟨mk, fault, fun _ => none, none⟩ (hfail.imp_right ?_)
          rintro ⟨rfl, rfl⟩
          rfl
        · refine fun hl faults hfail => storeStream_within hl hbelow hR (hfail.imp_right ?_)
          rintro rfl
          exact ⟨rfl, rfl⟩
      · refine iff_of_true (fun faults _ L hL => ?_) (storeInside_of_refused hexists)
        rw [storeStream_refused hexists] at hL
        cases hL
  | some recipients =>
      obtain ⟨P, f, hfinal, hnames⟩ := ageSuffix_locText hR
      simp only
      rw [hfinal]
      by_cases hpos : startPos = 0
      · simp only [hpos, ne_eq, not_true_eq_false, if_false, forall_true_left]
        constructor
        · refine fun hin => storeInside_of_encrypt hnames fun mk fault hfail => ?_
          refine hin ⟨mk, fun _ => none, fault, none⟩ (hfail.imp_right ?_)
          rintro ⟨rfl, rfl⟩
          rfl
        · refine fun hl faults hfail =>
            storeEncrypted_within hl hbelow hnames (hfail.imp_right ?_)
          rintro rfl
          exact ⟨rfl, rfl⟩
      · -- a resumed upload is refused
        refine iff_of_true (fun faults _ L hL => ?_) fun h => absurd h hpos
        rw [if_pos hpos] at hL
        cases hL

/-- **A `create_dir_all` stays inside** exactly when what is missing on its way is. -/
theorem createDirAll_iff (hbelow : ClosedBelow inside) (hR : ∀ a ∈ R, IsName a) :
    (∀ mk, (mayFail ∨ mk = fun _ _ => none) →
        ∀ L ∈ changedNames t (t.createDirAll mk (locText R)).1, inside L) ↔
      (mayFail ∨ nul ∉ locText R → DirsInside inside t (locText R)) := by
  constructor
  · exact fun hin => dirsInside_of_made fun mk hmk M hM =>
      hin mk hmk M (mem_changedNames.mpr (Ne.symm hM))
  · intro hdirs mk hmk L hL
    by_cases hcan : mayFail ∨ nul ∉ locText R
    · exact (hdirs hcan).made hbelow hR (madeOn_createDirAll mk t hR)
        (Ne.symm (mem_changedNames.mp hL))
    · obtain ⟨hmay, hnul⟩ := not_or.mp hcan
      rw [hmk.resolve_left hmay, createDirAll_nul (not_not.mp hnul)] at hL
      exact absurd rfl (mem_changedNames.mp hL)

/-! ## Calls -/

/-- A path that resolves in a home resolves to the text of a location. -/
theorem exists_locText_of_resolve {resolved : OsStr}
    (h : (ScopeMap.ofRoot home).resolve t path = .ok resolved) :
    ∃ R, resolved = locText R ∧ ∀ a ∈ R, IsName a := by
  unfold ScopeMap.resolve at h
  cases hparts : normalize path with
  | error err =>
      rw [ScopeMap.target, hparts] at h
      cases h
  | ok parts =>
      rw [target_ofRoot hparts] at h
      obtain ⟨-, -, -, rest, C, -, -, -, -, rfl, hnames, -⟩ :=
        contained_ok (isName_map_ofString hparts) h
      exact ⟨C ++ rest, rfl, hnames⟩

/-- What a `mkd` of an uploader leaves, by what its path resolves to. -/
theorem mkd_tree (hrole : user.role = .uploader home) (mk : MkdirFault) :
    (∀ err, (ScopeMap.ofRoot home).resolve t path = .error err →
      (ReoBackend.mkd mk user path t).1 = t) ∧
    ∀ resolved, (ScopeMap.ofRoot home).resolve t path = .ok resolved →
      (ReoBackend.mkd mk user path t).1 = (t.createDirAll mk resolved).1 := by
  have hmkd : ¬ (!capabilityAllowed user.role .mkd) = true := by
    rw [hrole]
    simp [capabilityAllowed]
  unfold ReoBackend.mkd
  rw [if_neg hmkd, userView_uploader hrole]
  constructor
  · intro err hres
    rw [hres]
  · intro resolved hres
    rw [hres]
    simp only
    rcases t.createDirAll mk resolved with ⟨t', err | _⟩ <;> rfl

/-- **A `mkd` stays inside** exactly when the directories that it is missing do. -/
theorem mkdTouches_iff (hrole : user.role = .uploader home) (hbelow : ClosedBelow inside) :
    (∀ mk, (mayFail ∨ mk = fun _ _ => none) → ∀ L ∈ mkdTouches mk user path t, inside L) ↔
      ∀ resolved, (ScopeMap.ofRoot home).resolve t path = .ok resolved →
        (mayFail ∨ nul ∉ resolved) → DirsInside inside t resolved := by
  unfold mkdTouches
  cases hres : (ScopeMap.ofRoot home).resolve t path with
  | error err =>
      refine iff_of_true (fun mk _ L hL => ?_) fun resolved h => by cases h
      rw [(mkd_tree hrole mk).1 err hres] at hL
      exact absurd rfl (mem_changedNames.mp hL)
  | ok resolved =>
      obtain ⟨R, rfl, hR⟩ := exists_locText_of_resolve hres
      have htree : ∀ mk, (ReoBackend.mkd mk user path t).1 =
          (t.createDirAll mk (locText R)).1 := fun mk => (mkd_tree hrole mk).2 _ hres
      simp only [htree, Except.ok.injEq, forall_eq']
      exact createDirAll_iff hbelow hR

/-- **A `put` stays inside** exactly when the paths of its branch do. -/
theorem putTouches_iff (backend : ReoBackend age) (hrole : user.role = .uploader home)
    (startPos : Nat) (input : Input) (seed : age.Seed) :
    (∀ faults, (mayFail ∨ faults = .never) →
        ∀ L ∈ putTouches backend faults seed user path startPos input t, InHome t home L) ↔
      CallInside backend mayFail home t (.put path startPos input seed) := by
  unfold putTouches CallInside
  rw [hrole, userView_uploader hrole]
  simp only
  cases hname : fileName path with
  | none =>
      -- without a file name the call is refused before it touches anything
      exact iff_of_true (fun _ _ L hL => absurd hL List.not_mem_nil) fun name hn => by cases hn
  | some name =>
      simp only [Option.some.injEq, forall_eq']
      by_cases hprobe : isReolinkTestFile (toStringLossy name) = true
      · simp only [hprobe, if_true]
        exact probeTouches_iff (isName_lossy (isName_fileName hname))
      · simp only [hprobe]
        cases hres : (ScopeMap.ofRoot home).resolve t path with
        | error err =>
            exact iff_of_true (fun _ _ L hL => absurd hL List.not_mem_nil)
              fun resolved h => by cases h
        | ok resolved =>
            obtain ⟨R, rfl, hR⟩ := exists_locText_of_resolve hres
            simp only [Except.ok.injEq, forall_eq']
            exact storeTouches_iff backend.recipients seed startPos input
              (closedBelow_inHome t home) hR

/-- **What a call of an uploader touches** lies at or below the canonical home if and only if
the paths that the call comes to lead there: for a call on which no operation fails by itself
(`mayFail` false), and for all that a call does when any of them may (`mayFail` true). -/
theorem touches_inside_iff (backend : ReoBackend age) (mayFail : Prop)
    (hrole : user.role = .uploader home) (t : FileTree) (call : WriteCall age) :
    (∀ faults, (mayFail ∨ faults = .never) →
        ∀ L ∈ callTouches backend faults user t call, InHome t home L) ↔
      CallInside backend mayFail home t call := by
  cases call with
  | put path startPos input seed => exact putTouches_iff backend hrole startPos input seed
  | mkd path =>
      rw [CallInside, ← mkdTouches_iff hrole (closedBelow_inHome t home)]
      constructor
      · refine fun hin mk hmk => hin ⟨mk, fun _ => none, fun _ => none, none⟩ (hmk.imp_right ?_)
        rintro rfl
        rfl
      · refine fun hin faults hfail => hin faults.mkdir (hfail.imp_right ?_)
        rintro rfl
        rfl

/-! ## Homes without links -/

/-- A path that goes through the home has nothing missing before it. -/
theorem dirsInside_of_straight {l : List OsStr} (hin : ∀ L, H <+: L → inside L)
    (hH : t.entry H ≠ none) (hnames : ∀ a ∈ H ++ l, IsName a) (hstraight : t.Straight (H ++ l)) :
    DirsInside inside t (locText (H ++ l)) := by
  intro q hq L hL
  refine hin L ?_
  obtain ⟨Q, hQ, rfl⟩ := of_mem_ancestors_locText hnames hq
  obtain rfl : L = Q :=
    Straight.locate (fun x hx => hstraight x (hx.trans hQ)) (fun a ha => hnames a (hQ.subset ha))
      hL.1
  rcases List.prefix_or_prefix_of_prefix hQ (List.prefix_append H l) with hpre | hpre
  · by_cases hne : L = H
    · rw [hne]
    · have hthere := dir_above hpre hne hH
      rw [hL.2] at hthere
      cases hthere
  · exact hpre

/-- A store straight below the home has its paths inside. -/
theorem storeInside_of_straight {l : List OsStr} {f : OsStr} {c : Course}
    (hin : ∀ L, H <+: L → inside L) (hH : t.entry H ≠ none)
    (hnames : ∀ a ∈ H ++ l ++ [f], IsName a) (hstraight : ∀ r, t.Straight (H ++ r)) :
    StoreInside mayFail inside c t (locText (H ++ l ++ [f])) := by
  have hfront : ∀ a ∈ H ++ l, IsName a := fun a ha => hnames a (List.mem_append_left [f] ha)
  have hf : IsName f := hnames f (by simp)
  have hlead : ∀ x, IsName x → ∀ b L,
      t.locate b (locText (H ++ l ++ [x])) = .ok L → inside L := by
    intro x hx b L hL
    have hxs : ∀ a ∈ H ++ l ++ [x], IsName a :=
      List.forall_mem_append.mpr ⟨hfront, by simpa using hx⟩
    have hstr : t.Straight (H ++ l ++ [x]) := by
      rw [List.append_assoc]
      exact hstraight _
    refine hin L ?_
    rw [hstr.locate hxs hL, List.append_assoc]
    exact List.prefix_append H _
  refine ⟨⟨fun _ L hL _ => ?_, fun _ L e hL _ => ?_, fun _ L hL => hlead f hf _ _ hL.1⟩,
    fun _ p hp _ => ?_⟩
  · rw [stagingPath_locText] at hL
    exact hlead _ (isName_staging hf) _ _ hL.1
  · rw [stagingPath_locText] at hL
    exact hlead _ (isName_staging hf) _ _ (find_ok.mp hL).1
  · rw [stagingPath_locText, parent_locText hfront (isName_staging hf)] at hp
    obtain rfl := Option.some.inj hp
    exact dirsInside_of_straight hin hH hfront (hstraight l)

/-- So does either branch of a `put`, with `.age` added to the name or not. -/
theorem storesInside_of_straight {recipients : Option (List age.Recipient)} {seed : age.Seed}
    {l : List OsStr} (hin : ∀ L, H <+: L → inside L) (hH : t.entry H ≠ none) (hne : l ≠ [])
    (hnames : ∀ a ∈ H ++ l, IsName a) (hstraight : ∀ r, t.Straight (H ++ r)) :
    StoresInside mayFail recipients seed inside t startPos input (locText (H ++ l)) := by
  obtain ⟨l, s, rfl⟩ := (List.eq_nil_or_concat' l).resolve_left hne
  rw [← List.append_assoc] at hnames ⊢
  have hfront : ∀ a ∈ H ++ l, IsName a := fun a ha => hnames a (List.mem_append_left [s] ha)
  have hs : IsName s := hnames s (by simp)
  unfold StoresInside
  split
  · exact storeInside_of_straight hin hH hnames hstraight
  · intro _
    have hage : ∀ a ∈ H ++ l ++ [s ++ ofString ".age"], IsName a :=
      List.forall_mem_append.mpr ⟨hfront, by simpa using isName_suffix hs (by decide)⟩
    rw [ageSuffix, locText_suffix]
    exact storeInside_of_straight hin hH hage hstraight

/-- **A home without links** has all the paths of its uploader's calls inside. -/
theorem callInside_of_linkFree (backend : ReoBackend age) (mayFail : Prop)
    (hfree : t.LinkFree home) (hhome : t.find true home = .ok (H, e)) (call : WriteCall age) :
    CallInside backend mayFail home t call := by
  have hin : ∀ L, H <+: L → InHome t home L := fun L hL => ⟨H, e, hhome, hL⟩
  obtain ⟨hH, he⟩ := find_ok.mp hhome
  have hbound : t.entry H ≠ none := by simp [he]
  have hHnames : ∀ a ∈ H, IsName a := isName_of_entry hbound
  have hstraight : ∀ r, t.Straight (H ++ r) := hfree.straight hH hbound
  -- without links what resolves is the home and the names, spelled out
  have hres : ∀ path resolved, (ScopeMap.ofRoot home).resolve t path = .ok resolved →
      ∃ parts, normalize path = .ok parts ∧ resolved = locText (H ++ parts.map ofString) := by
    intro path resolved h
    obtain ⟨B, parts, hB, -, hparts, rfl⟩ := resolve_ok hfree h
    obtain rfl : H = B := Except.ok.inj (hH.symm.trans hB)
    exact ⟨parts, hparts, rfl⟩
  cases call with
  | put path startPos input seed =>
      intro name hname
      split
      · have hnames : ∀ a ∈ [quarantineDir, ofString (toStringLossy name)], IsName a := by
          simpa using ⟨(by decide : IsName quarantineDir), isName_lossy (isName_fileName hname)⟩
        refine ⟨fun _ q hq L hL => hin L ?_, fun L hL => hin L ?_⟩
        · exact missing_below_home hhome (by decide) hq hL
        · have hspelled : Spells home (probeDest home (toStringLossy name)) _ :=
            spells_foldl home hnames
          rw [locate_spelled hfree hH hnames hspelled hL.1]
          exact List.prefix_append H _
      · intro resolved h
        obtain ⟨parts, hparts, rfl⟩ := hres path resolved h
        have hl : ∀ s ∈ parts.map ofString, IsName s := isName_map_ofString hparts
        have hne : parts.map ofString ≠ [] := by simpa using normalize_ne_nil hparts hname
        exact storesInside_of_straight hin hbound hne (List.forall_mem_append.mpr ⟨hHnames, hl⟩)
          hstraight
  | mkd path =>
      intro resolved h _
      obtain ⟨parts, hparts, rfl⟩ := hres path resolved h
      exact dirsInside_of_straight hin hbound
        (List.forall_mem_append.mpr ⟨hHnames, isName_map_ofString hparts⟩) (hstraight _)

end Call

/-- A camera that stores a clip in a home without links. -/
theorem touches_inside_oneHome :
    (∀ faults, (True ∨ faults = .never) →
        ∀ L ∈ callTouches (.plain : ReoBackend shiftAge) faults cameraC oneHome
          (.put (ofString "x") 0 [.ok [1]] (7 : UInt8)), InHome oneHome (ofString "/c") L) ↔
      CallInside (.plain : ReoBackend shiftAge) True (ofString "/c") oneHome
        (.put (ofString "x") 0 [.ok [1]] (7 : UInt8)) :=
  touches_inside_iff (.plain : ReoBackend shiftAge) True rfl _ _

/-- The home `/c` with a quarantine directory that is a link out of it. -/
def linkedQuarantine : FileTree :=
  (oneHome.mkdirAt [ofString "out"]).symlinkAt [ofString "c", quarantineDir] (ofString "/out")

/-- **A probe leaves the home**: it makes and fills a file where the link leads. -/
theorem probe_escapes :
    (¬ ∀ L ∈ callTouches (.plain : ReoBackend shiftAge) .never cameraC linkedQuarantine
        (.put (ofString "test.txt") 0 [.ok [1]] (7 : UInt8)),
        InHome linkedQuarantine (ofString "/c") L) ∧
      (ReoBackend.put (.plain : ReoBackend shiftAge) .never (7 : UInt8) cameraC
        (ofString "test.txt") 0 [.ok [1]] linkedQuarantine).1.readFile
          (ofString "/out/test.txt") = .ok [1] := by
  have htouched : [ofString "out", ofString "test.txt"] ∈
      callTouches (.plain : ReoBackend shiftAge) .never cameraC linkedQuarantine
        (.put (ofString "test.txt") 0 [.ok [1]] (7 : UInt8)) := by decide +kernel
  have hhome : linkedQuarantine.find true (ofString "/c") = .ok ([ofString "c"], .dir) := by
    decide +kernel
  refine ⟨fun hin => ?_, by decide +kernel⟩
  obtain ⟨H, e, hfind, hpre⟩ := hin _ htouched
  obtain ⟨rfl, -⟩ := Prod.mk.inj (Except.ok.inj (hhome.symm.trans hfind))
  exact absurd hpre (by decide +kernel)

end Reoftpd

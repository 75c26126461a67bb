import Reoftpd.TouchesInside

/-!
# What one request leaves

The whole effect of a request of an uploader on a tree whose home holds no link
(`afterRequest_effect`): it opens a file by one name, writes to it and may bind a second
name to it, and makes directories; all of that lies in the home.  For a store the names are
those of its staging file and its clip, for a probe both are the name in the quarantine
directory.  Every other name is bound as it was, and every other file has the bytes and the
time it had.

What a store that succeeds has left in its clip is told in `Acknowledged`.
-/
namespace Reoftpd
open UnixPath FileTree

/-- **What a call leaves** that opened a file at `O`, may have bound `F` to it, and made
directories below `H`. -/
structure Effect (H O F : Loc) (t s : FileTree) : Prop extends Grows t s where
  clock : s.disk.clock = t.disk.clock
  dirSize : s.disk.dirSize = t.disk.dirSize
  fresh : t.disk.fresh ≤ s.disk.fresh
  entry : ∀ M, M ≠ O → M ≠ F →
    s.entry M = t.entry M ∨ t.entry M = none ∧ s.entry M = some .dir ∧ H <+: M
  final : F ≠ O → t.entry F ≠ none → s.entry F = t.entry F
  opened : ∀ i, s.entry O = some (.file i) → t.entry O = some (.file i) ∨ t.disk.fresh ≤ i
  bound : ∀ i, s.entry F = some (.file i) →
    t.entry F = some (.file i) ∨ t.entry O = some (.file i) ∨ t.disk.fresh ≤ i
  contents : ∀ i, i < t.disk.fresh → t.entry O ≠ some (.file i) →
    s.disk.data i = t.disk.data i ∧ s.disk.modified i = t.disk.modified i

section Effect
variable {H O F L M : Loc} {t s s' : FileTree} {p q : OsStr} {i : Nat} {mk : MkdirFault}

namespace Effect

theorem refl (H O F : Loc) (t : FileTree) : Effect H O F t t where
  toGrows := .refl t
  clock := rfl
  dirSize := rfl
  fresh := Nat.le_refl _
  entry _ _ _ := Or.inl rfl
  final _ _ := rfl
  opened _ h := Or.inl h
  bound _ h := Or.inl h
  contents _ _ _ := ⟨rfl, rfl⟩

/-- Directories were made, below `H`. -/
theorem of_addsDirs (ha : AddsDirs t s) (hc : SameContents t s)
    (hin : ∀ M, s.entry M ≠ t.entry M → H <+: M) : Effect H O F t s where
  toGrows := ha.grows
  clock := hc.clock
  dirSize := hc.dirSize
  fresh := ha.fresh.ge
  entry M _ _ := by
    rcases ha.entry M with h | ⟨hnone, hdir⟩
    · exact Or.inl h
    · exact Or.inr ⟨hnone, hdir, hin M (by rw [hnone, hdir]; simp)⟩
  final _ hF := by
    rcases ha.entry F with h | ⟨hnone, -⟩
    · exact h
    · exact absurd hnone hF
  opened _ h := Or.inl (ha.file_iff.mp h)
  bound _ h := Or.inl (ha.file_iff.mp h)
  contents i _ _ := ⟨congrFun hc.data i, congrFun hc.modified i⟩

/-- A file was opened at `O`, if it was there or not. -/
theorem openFile (h : Effect H O F t s) (ho : s.openFile p = .ok (s', i))
    (hp : ∀ L, s.locate true p = .ok L → L = O) :
    Effect H O F t s' ∧ s'.entry O = some (.file i) := by
  obtain ⟨L, hl, hcases⟩ := openFile_ok ho
  obtain rfl := hp L hl
  rcases hcases with ⟨hi, rfl⟩ | ⟨hv, rfl, rfl⟩
  · exact ⟨h, hi⟩
  · have hself := entry_createAt_self hv
    refine ⟨⟨h.toGrows.trans (grows_createAt hv), clock_createAt.trans h.clock,
      dirSize_createAt.trans h.dirSize, h.fresh.trans fresh_createAt_le, fun M hMO hMF => ?_,
      fun hFO hF => ?_, fun i hi => ?_, fun i hi => ?_, fun i hi hO => ?_⟩, hself⟩
    · rw [entry_createAt_ne hMO]
      exact h.entry M hMO hMF
    · rw [entry_createAt_ne hFO]
      exact h.final hFO hF
    · rw [hself] at hi
      cases hi
      exact Or.inr h.fresh
    · by_cases hFO : F = L
      · subst hFO
        rw [hself] at hi
        cases hi
        exact Or.inr (Or.inr h.fresh)
      · rw [entry_createAt_ne hFO] at hi
        exact h.bound i hi
    · have hne : i ≠ s.disk.fresh := Nat.ne_of_lt (hi.trans_le h.fresh)
      rw [data_createAt_ne hne, modified_createAt_ne hne]
      exact h.contents i hi hO

/-- The file at `O` was written to. -/
theorem setData (h : Effect H O F t s) (hi : s.entry O = some (.file i)) (b : Bytes) :
    Effect H O F t (s.setData i b) where
  toGrows := h.toGrows.trans (grows_setData i b)
  clock := h.clock
  dirSize := h.dirSize
  fresh := h.fresh
  entry := h.entry
  final := h.final
  opened := h.opened
  bound := h.bound
  contents j hj hO := by
    have hji : j ≠ i := by
      rintro rfl
      rcases h.opened j hi with hin | hin
      · exact hO hin
      · exact absurd hin (Nat.not_le.mpr hj)
    rw [data_setData_ne b hji]
    refine ⟨(h.contents j hj hO).1, ?_⟩
    show Function.update s.disk.modified i s.disk.clock j = _
    rw [Function.update_of_ne hji]
    exact (h.contents j hj hO).2

/-- `F` was bound to the file at `O`. -/
theorem hardLink (h : Effect H O F t s) (hi : s.entry O = some (.file i))
    (hp : ∀ L, s.locate false p = .ok L → L = O) (hq : ∀ L, s.locate false q = .ok L → L = F)
    (hl : s.hardLink p q = .ok s') :
    Effect H O F t s' ∧ O ≠ F ∧ s.entry F = none ∧ s'.entry F = some (.file i) ∧
      s'.entry O = some (.file i) ∧ SameContents s s' := by
  obtain ⟨A, D, e, hsrc, he, -, hdst, hv, rfl⟩ := hardLink_ok hl
  obtain rfl := hp A hsrc
  obtain rfl := hq D hdst
  obtain rfl : e = .file i := Option.some.inj (he.symm.trans hi)
  have hne : A ≠ D := by
    rintro rfl
    rw [hv.2.1] at hi
    cases hi
  have hself := entry_linkAt_self hv he
  have hsame : SameContents s (s.linkAt A D) := sameContents_linkAt
  refine ⟨⟨h.toGrows.trans (grows_linkAt hv he), hsame.clock.trans h.clock,
    hsame.dirSize.trans h.dirSize, h.fresh.trans fresh_linkAt.ge, fun M hMO hMF => ?_,
    fun hFO hF => ?_, fun j hj => ?_, fun j hj => ?_, fun j hj hO => ?_⟩, hne, hv.2.1, hself, ?_,
    hsame⟩
  · rw [entry_linkAt_ne hMF]
    exact h.entry M hMO hMF
  · exact absurd ((h.final hFO hF).symm.trans hv.2.1) hF
  · rw [entry_linkAt_ne hne] at hj
    exact h.opened j hj
  · rw [hself] at hj
    cases hj
    exact Or.inr (h.opened i hi)
  · rw [hsame.data, hsame.modified]
    exact h.contents j hj hO
  · rw [entry_linkAt_ne hne]
    exact hi

/-- The name `O` of a file was taken away. -/
theorem eraseAt (h : Effect H O F t s) (hi : s.entry O = some (.file i)) (hne : O ≠ F) :
    Effect H O F t (s.eraseAt O) where
  toGrows := h.toGrows.trans (grows_eraseAt hi)
  clock := sameContents_eraseAt.clock.trans h.clock
  dirSize := sameContents_eraseAt.dirSize.trans h.dirSize
  fresh := h.fresh.trans fresh_eraseAt.ge
  entry M hMO hMF := by
    rw [entry_eraseAt_ne hMO]
    exact h.entry M hMO hMF
  final hFO hF := by
    rw [entry_eraseAt_ne hFO]
    exact h.final hFO hF
  opened j hj := by
    rw [entry_eraseAt_self (childless_of_entry hi rfl)] at hj
    cases hj
  bound j hj := by
    rw [entry_eraseAt_ne hne.symm] at hj
    exact h.bound j hj
  contents j hj hO := by
    rw [sameContents_eraseAt.data, sameContents_eraseAt.modified]
    exact h.contents j hj hO

end Effect

/-! ## Directories -/

/-- `create_dir_all` changes no file. -/
theorem sameContents_createDirAll (mk : MkdirFault) (t : FileTree) (p : OsStr) :
    SameContents t (t.createDirAll mk p).1 := by
  refine createDirs_ind (J := SameContents t) mk (fun p _ s s' hJ hm => ?_) ⟨rfl, rfl, rfl, rfl⟩
  obtain ⟨L, -, -, rfl⟩ := mkdir_ok hm
  exact hJ.trans sameContents_mkdirAt

/-- What `create_dir_all` makes of the text of a location below `H`. -/
theorem effect_createDirAll {l : List OsStr} (mk : MkdirFault) (hH : t.entry H ≠ none)
    (hnames : ∀ a ∈ H ++ l, IsName a) (hstraight : t.Straight (H ++ l)) :
    Effect H O F t (t.createDirAll mk (locText (H ++ l))).1 := by
  refine .of_addsDirs (addsDirs_createDirAll mk t _) (sameContents_createDirAll mk t _) ?_
  intro M hM
  have hdirs : DirsInside (fun L => H <+: L) t (locText (H ++ l)) :=
    dirsInside_of_straight (fun _ => id) hH hnames hstraight
  have hall : True ∨ nul ∉ locText (H ++ l) →
      DirsInside (fun L => H <+: L) t (locText (H ++ l)) := fun _ => hdirs
  exact (createDirAll_iff (closedBelow_of H) hnames).mpr hall mk (Or.inl trivial) M
    (mem_changedNames.mpr hM.symm)

end Effect

/-! ## Stores -/

section Store
variable {H S F : Loc} {t s s' : FileTree} {final : OsStr} {mk : MkdirFault} {h n : Nat}
  {startPos : Nat} {input : Input}

/-- A store has its staging file open on `h`. -/
structure EffectOpen (H S F : Loc) (t : FileTree) (h : Nat) (s : FileTree) : Prop
    extends Effect H S F t s where
  handle : s.entry S = some (.file h)

theorem EffectOpen.setData (hJ : EffectOpen H S F t h s) (b : Bytes) :
    EffectOpen H S F t h (s.setData h b) := ⟨hJ.toEffect.setData hJ.handle b, hJ.handle⟩

/-- The open of the staging name. -/
theorem effectOpen_of_openFile (hp : StorePlace t final S F) (he : Effect H S F t s)
    (ho : s.openFile (stagingPath final) = .ok (s', h)) : EffectOpen H S F t h s' := by
  have hps : StorePlace s final S F := hp.of_sameLinks he.toSameLinks
  obtain ⟨he', hh⟩ := he.openFile ho fun L hL => hps.locate_staging hL
  exact ⟨he', hh⟩

/-- The removal of the staging name. -/
theorem effect_discard (hp : StorePlace t final S F) (he : Effect H S F t s) :
    Effect H S F t (s.discard (stagingPath final)) := by
  have hps : StorePlace s final S F := hp.of_sameLinks he.toSameLinks
  unfold FileTree.discard
  split
  · rename_i s' hr
    obtain ⟨L, e, hl, hL, hdir, rfl⟩ := removeFile_ok hr
    obtain rfl := hps.locate_staging hl
    obtain ⟨i, rfl⟩ := file_of_straight hps.stagingStraight hL hdir
    exact he.eraseAt hL hp.ne
  · exact he

/-- A staging name that can be found is gone once it is removed. -/
theorem entry_discard_staging (hp : StorePlace s final S F) (hS : s.entry S = some (.file h)) :
    (s.discard (stagingPath final)).entry S = none := by
  have hstraight := hp.stagingStraight
  have hfound : s.locate false (stagingPath final) = .ok S := by
    rw [hp.staging_eq]
    exact locate_locText (by simp [hS]) fun target hlink => by
      rw [hS] at hlink
      cases hlink
  have hremove : s.removeFile (stagingPath final) = .ok (s.eraseAt S) := by
    simp [removeFile, FileTree.find, hfound, hS]
  rw [FileTree.discard, hremove]
  exact entry_eraseAt_self (childless_of_entry hS rfl)

/-- Where a store leaves every name and file, and that a store that fails has bound no clip. -/
def StoreLeaves (H S F : Loc) (t s : FileTree) (r : StoreResult) : Prop :=
  Effect H S F t s ∧
    ∀ e, r = .error e → ∀ i, s.entry F = some (.file i) → t.entry F = some (.file i)

/-- Only directories were made. -/
theorem storeLeaves_dirs (ha : AddsDirs t s) (he : Effect H S F t s) (r : StoreResult) :
    StoreLeaves H S F t s r := ⟨he, fun _ _ _ hi => ha.file_iff.mp hi⟩

theorem storeLeaves_open (he : EffectOpen H S F t h s) (ho : StoreOpen t s S F h) (e : StoreError) :
    StoreLeaves H S F t s (.error e) := ⟨he.toEffect, fun _ _ => ho.notFinal⟩

/-- The staging name was removed. -/
theorem StoreLeaves.discard (hp : StorePlace t final S F) {r : StoreResult}
    (hl : StoreLeaves H S F t s r) : StoreLeaves H S F t (s.discard (stagingPath final)) r := by
  have hps : StorePlace s final S F := hp.of_sameLinks hl.1.toSameLinks
  refine ⟨effect_discard hp hl.1, fun e he i hi => ?_⟩
  rw [(entry_discard_ne hps hp.ne.symm).1] at hi
  exact hl.2 e he i hi

/-- The final name was bound. -/
theorem effect_link (hp : StorePlace t final S F) (he : EffectOpen H S F t h s)
    (hl : s.hardLink (stagingPath final) final = .ok s') :
    Effect H S F t s' ∧ s.entry F = none ∧ s'.entry F = some (.file h) ∧
      s'.entry S = some (.file h) ∧ SameContents s s' := by
  have hps : StorePlace s final S F := hp.of_sameLinks he.toSameLinks
  obtain ⟨he', -, hF, hF', hS', hsame⟩ :=
    he.toEffect.hardLink he.handle (fun L hL => hps.locate_staging hL)
      (fun L hL => hps.locate_final hL) hl
  exact ⟨he', hF, hF', hS', hsame⟩

/-- **What `store_stream` leaves**, if its directories are made below `H`. -/
theorem storeStream_leaves (hp : StorePlace t final S F)
    (hdirs : Effect H S F t ((treeTarget mk final).createParent t).1)
    (fault : StoreSite → Option Errno) (startPos : Nat) (input : Input) :
    StoreLeaves H S F t (storeStream (treeTarget mk final) fault startPos input t).1
      (storeStream (treeTarget mk final) fault startPos input t).2 := by
  have ha := addsDirs_createParent mk final t
  refine storeStream_rule (J := fun h s => EffectOpen H S F t h s ∧ StoreOpen t s S F h)
    (Q := StoreLeaves H S F t) ?_ ?_ ?_ ?_ ?_ ?_ ?_
  · exact fun e => storeLeaves_dirs (.refl t) (.refl H S F t) _
  · exact fun e => (storeLeaves_dirs (.refl t) (.refl H S F t) _).discard hp
  · exact fun e => storeLeaves_dirs ha hdirs _
  · exact fun s' h ho => ⟨effectOpen_of_openFile hp hdirs ho, storeOpen_of_openFile hp ha ho⟩
  · exact fun s h b hJ => ⟨hJ.1.setData _, hJ.2.setData _⟩
  · exact fun s h e hJ => ⟨storeLeaves_open hJ.1 hJ.2 e, (storeLeaves_open hJ.1 hJ.2 e).discard hp⟩
  · intro s h s' n hJ hl
    have hleaves : StoreLeaves H S F t s' (.ok n) :=
      ⟨(effect_link hp hJ.1 hl).1, fun e he => by cases he⟩
    exact ⟨hleaves, hleaves.discard hp⟩

/-- **What `store_encrypted` leaves**, if its directories are made below `H`. -/
theorem storeEncrypted_leaves (hp : StorePlace t final S F)
    (hdirs : Effect H S F t ((treeTarget mk final).createParent t).1)
    (fault : EncryptSite → Option Errno) (out : Encrypted) :
    StoreLeaves H S F t (storeEncrypted (treeTarget mk final) fault out t).1
      (storeEncrypted (treeTarget mk final) fault out t).2 := by
  have ha := addsDirs_createParent mk final t
  refine storeEncrypted_rule (J := fun h _ s => EffectOpen H S F t h s ∧ StoreOpen t s S F h)
    (Q := StoreLeaves H S F t) ?_ ?_ ?_ ?_ ?_ ?_ ?_
  · exact fun e => storeLeaves_dirs (.refl t) (.refl H S F t) _
  · exact fun e => storeLeaves_dirs ha hdirs _
  · intro s' h ho
    obtain ⟨s₁, hfile, rfl⟩ := openTruncate_ok ho
    exact ⟨(effectOpen_of_openFile hp hdirs hfile).setData [],
      (storeOpen_of_openFile hp ha hfile).setData []⟩
  · exact fun s h ws b hJ => ⟨hJ.1.setData _, hJ.2.setData _⟩
  · exact fun s h ws e _ hJ => storeLeaves_open hJ.1 hJ.2 e
  · exact fun s h n e _ hJ => (storeLeaves_open hJ.1 hJ.2 e).discard hp
  · intro s h s' n _ hJ hl
    have hleaves : StoreLeaves H S F t s' (.ok n) :=
      ⟨(effect_link hp hJ.1 hl).1, fun e he => by cases he⟩
    exact ⟨hleaves, hleaves.discard hp⟩

end Store

/-! ## Requests -/

/-- The home of an uploader is at `H`, with no link at or below it. -/
structure HomeAt (t : FileTree) (home : OsStr) (H : Loc) : Prop where
  leads : t.locate true home = .ok H
  bound : t.entry H ≠ none
  free : t.LinkFree home

section Home
variable {age : Age} {t s : FileTree} {home path : OsStr} {H l : Loc} {f x : OsStr}
  {user : ReoUser}

theorem HomeAt.names (hh : HomeAt t home H) : ∀ a ∈ H, IsName a := isName_of_entry hh.bound

/-- What lies in the home stays where it is, and the home too. -/
theorem HomeAt.grows (hh : HomeAt t home H) (hdir : t.entry H = some .dir) (hg : Grows t s) :
    HomeAt s home H :=
  ⟨hg.locate hh.leads, by rw [hg.dir H hdir]; simp, hh.free.of_sameLinks hg.toSameLinks⟩

/-- Where a virtual path of the uploader leads. -/
theorem HomeAt.resolve (hh : HomeAt t home H) {r : OsStr}
    (h : (ScopeMap.ofRoot home).resolve t path = .ok r) :
    ∃ parts, normalize path = .ok parts ∧ r = locText (H ++ parts.map ofString) := by
  obtain ⟨B, parts, hB, -, hparts, rfl⟩ := resolve_ok hh.free h
  obtain rfl : H = B := Except.ok.inj (hh.leads.symm.trans hB)
  exact ⟨parts, hparts, rfl⟩

/-- The place of a store in the home, whose suffix is `x`. -/
theorem HomeAt.storePlace (hh : HomeAt t home H) (hl : ∀ a ∈ l ++ [f], IsName a) (hx : sep ∉ x) :
    StorePlace t (locText (H ++ l ++ [f ++ x])) (H ++ l ++ [f ++ x ++ stagingSuffix])
      (H ++ l ++ [f ++ x]) := by
  have hf : IsName f := hl f (by simp)
  have hnames : ∀ a, IsName a → ∀ b ∈ H ++ l ++ [a], IsName b := fun a ha =>
    List.forall_mem_append.mpr ⟨List.forall_mem_append.mpr
      ⟨hh.names, fun b hb => hl b (List.mem_append_left [f] hb)⟩, by simpa using ha⟩
  have hstraight : ∀ a, t.Straight (H ++ l ++ [a]) := fun a => by
    rw [List.append_assoc]
    exact hh.free.straight hh.leads hh.bound _
  have hfx : IsName (f ++ x) := isName_suffix hf hx
  refine ⟨rfl, ?_, hnames _ hfx, hnames _ (isName_suffix hfx (by decide)), hstraight _, hstraight _⟩
  rw [stagingPath, locText_suffix]

/-- The directories a store in the home makes. -/
theorem HomeAt.parents (hh : HomeAt t home H) (hl : ∀ a ∈ l ++ [f], IsName a) (hx : sep ∉ x)
    (mk : MkdirFault) (S F : Loc) :
    Effect H S F t ((treeTarget mk (locText (H ++ l ++ [f ++ x]))).createParent t).1 := by
  have hl' : ∀ a ∈ H ++ l, IsName a :=
    List.forall_mem_append.mpr ⟨hh.names, fun a ha => hl a (List.mem_append_left [f] ha)⟩
  have hf : IsName (f ++ x) := isName_suffix (hl f (by simp)) hx
  rw [createParent_locText (List.forall_mem_append.mpr ⟨hl', by simpa using hf⟩)]
  exact effect_createDirAll mk hh.bound hl' (hh.free.straight hh.leads hh.bound l)

/-! ### Probes -/

/-- The copy of a probe writes to the file that was opened. -/
theorem effect_copyProbe {O F : Loc} {s : FileTree} {i : Nat} (input : Input) (n : Nat)
    (h : Effect H O F t s) (hi : s.entry O = some (.file i)) :
    Effect H O F t (copyProbe i s input n).1 := by
  induction input generalizing s n with
  | nil => exact h
  | cons b rest ih =>
      cases b with
      | error e => exact h
      | ok b => exact ih (n + b.length) (h.setData hi _) hi

/-- **What a probe leaves**: all of it is at its name in the quarantine directory. -/
theorem putProbe_effect (hh : HomeAt t home H) (faults : PutFaults) {filename : String}
    (hname : IsName (ofString filename)) (input : Input) :
    Effect H (H ++ [quarantineDir, ofString filename]) (H ++ [quarantineDir, ofString filename]) t
      (putProbe faults home filename input t).1 := by
  have hq : IsName quarantineDir := by decide
  obtain ⟨e, he⟩ := Option.ne_none_iff_exists'.mp hh.bound
  have hmade := madeAt_createDirAll hq (find_ok.mpr ⟨hh.leads, he⟩) faults.mkdir
  have hdirs : Effect H (H ++ [quarantineDir, ofString filename])
      (H ++ [quarantineDir, ofString filename]) t
      (t.createDirAll faults.mkdir (join home quarantineDir)).1 := by
    refine .of_addsDirs hmade.toAddsDirs (sameContents_createDirAll _ _ _) fun M hM => ?_
    rcases hmade.made with heq | ⟨-, -, hother⟩
    · exact absurd (congrFun heq M) hM
    · by_cases hMN : M = H ++ [quarantineDir]
      · exact hMN ▸ List.prefix_append H _
      · exact absurd (hother M hMN) hM
  unfold putProbe
  rcases hc : t.createDirAll faults.mkdir (join home quarantineDir) with ⟨t₁, e | ⟨⟩⟩
  all_goals rw [hc] at hdirs
  · exact hdirs
  · simp only
    cases ho : attempt faults.openProbe (t₁.openTruncate (probeDest home filename)) with
    | error e => exact hdirs
    | ok r =>
        obtain ⟨t₂, i⟩ := r
        obtain ⟨t₃, hfile, rfl⟩ := openTruncate_ok (attempt_ok ho).2
        have hnames : ∀ a ∈ [quarantineDir, ofString filename], IsName a := by
          simpa using ⟨hq, hname⟩
        obtain ⟨he', hi⟩ := hdirs.openFile hfile fun L hL =>
          locate_spelled (hh.free.of_sameLinks hdirs.toSameLinks) (hdirs.locate hh.leads) hnames
            (spells_foldl home hnames) hL
        exact effect_copyProbe input 0 (he'.setData hi []) hi

/-! ### Any request -/

/-- The name a request in the home at `H` opens a file by, and the one it may bind to it. -/
inductive Opens (H : Loc) : Loc → Loc → Prop
  | store (l : Loc) (f : OsStr) :
      Opens H (H ++ l ++ [f ++ stagingSuffix]) (H ++ l ++ [f])
  | probe (name : String) (isProbe : isReolinkTestFile name = true) :
      Opens H (H ++ [quarantineDir, ofString name]) (H ++ [quarantineDir, ofString name])

theorem Opens.inside {O F : Loc} (h : Opens H O F) : H <+: O ∧ H <+: F := by
  cases h with
  | store l f =>
      rw [List.append_assoc, List.append_assoc]
      exact ⟨List.prefix_append H _, List.prefix_append H _⟩
  | probe name _ => exact ⟨List.prefix_append H _, List.prefix_append H _⟩

/-- A request that opens nothing. -/
theorem exists_opens_dirs (ha : ∀ O F, Effect H O F t s) : ∃ O F, Opens H O F ∧ Effect H O F t s :=
  ⟨_, _, .probe "test" (by decide), ha _ _⟩

/-- A name below a home that is not the home itself. -/
theorem exists_concat_of_normalize {parts : List String} {name : OsStr}
    (hparts : normalize path = .ok parts) (hname : fileName path = some name) :
    ∃ l f, parts.map ofString = l ++ [f] ∧ ∀ a ∈ l ++ [f], IsName a := by
  have hne : parts.map ofString ≠ [] := by simpa using normalize_ne_nil hparts hname
  refine ⟨_, _, (List.dropLast_append_getLast hne).symm, ?_⟩
  rw [List.dropLast_append_getLast hne]
  exact isName_map_ofString hparts

/-- **What the store branch of a `put` leaves**, by the last name of its virtual path. -/
theorem putStore_leaves (hh : HomeAt t home H) (hl : ∀ a ∈ l ++ [f], IsName a)
    (recipients : Option (List age.Recipient)) (faults : PutFaults) (seed : age.Seed)
    (startPos : Nat) (input : Input) :
    ∃ S F, Opens H S F ∧
      Effect H S F t
        (putStore recipients faults seed (locText (H ++ (l ++ [f]))) startPos input t).1 := by
  rw [← List.append_assoc]
  unfold putStore
  split
  · split
    · exact exists_opens_dirs fun O F => .refl H O F t
    · have hage : sep ∉ ofString ".age" := by decide
      have hfinal : ageSuffix (locText (H ++ l ++ [f])) =
          locText (H ++ l ++ [f ++ ofString ".age"]) := by
        rw [ageSuffix, locText_suffix]
      rw [hfinal]
      exact ⟨_, _, .store l (f ++ ofString ".age"),
        (storeEncrypted_leaves (hh.storePlace hl hage) (hh.parents hl hage _ _ _) _ _).1⟩
  · have hnil : sep ∉ ([] : OsStr) := List.not_mem_nil
    have hplace := hh.storePlace hl hnil
    have hparents :=
      hh.parents hl hnil faults.mkdir (H ++ l ++ [f ++ stagingSuffix]) (H ++ l ++ [f])
    rw [List.append_nil] at hplace hparents
    exact ⟨_, _, .store l f, (storeStream_leaves hplace hparents _ _ _).1⟩

theorem put_effect (hh : HomeAt t home H) (hrole : user.role = .uploader home)
    (backend : ReoBackend age) (faults : PutFaults) (seed : age.Seed) (path : OsStr)
    (startPos : Nat) (input : Input) :
    ∃ O F, Opens H O F ∧ Effect H O F t (backend.put faults seed user path startPos input t).1 := by
  have hcase : PutCase backend faults seed user path startPos input t
      (backend.put faults seed user path startPos input t) := put_case
  generalize backend.put faults seed user path startPos input t = r at hcase ⊢
  cases hcase with
  | refused e => exact exists_opens_dirs fun O F => .refl H O F t
  | probe home' name hrole' hname hprobe =>
      obtain rfl : home = home' := Role.uploader.inj (hrole.symm.trans hrole')
      exact ⟨_, _, .probe _ hprobe,
        putProbe_effect hh faults (isName_lossy (isName_fileName hname)) input⟩
  | store home' name resolved hrole' hname _ hres =>
      obtain rfl : home = home' := Role.uploader.inj (hrole.symm.trans hrole')
      obtain ⟨parts, hparts, rfl⟩ := hh.resolve hres
      obtain ⟨l, f, hlf, hl⟩ := exists_concat_of_normalize hparts hname
      rw [hlf]
      exact putStore_leaves hh hl backend.recipients faults seed startPos input

theorem mkd_effect (hh : HomeAt t home H) (hrole : user.role = .uploader home)
    (mk : MkdirFault) (path : OsStr) (O F : Loc) :
    Effect H O F t (ReoBackend.mkd mk user path t).1 := by
  have htree : (∀ e, (ScopeMap.ofRoot home).resolve t path = .error e →
        (ReoBackend.mkd mk user path t).1 = t) ∧
      ∀ r, (ScopeMap.ofRoot home).resolve t path = .ok r →
        (ReoBackend.mkd mk user path t).1 = (t.createDirAll mk r).1 := mkd_tree hrole mk
  obtain ⟨hnone, hsome⟩ := htree
  cases hres : (ScopeMap.ofRoot home).resolve t path with
  | error e =>
      rw [hnone e hres]
      exact .refl H O F t
  | ok r =>
      rw [hsome r hres]
      obtain ⟨parts, hparts, rfl⟩ := hh.resolve hres
      exact effect_createDirAll mk hh.bound
        (List.forall_mem_append.mpr ⟨hh.names, isName_map_ofString hparts⟩)
        (hh.free.straight hh.leads hh.bound _)

/-- **What a request of an uploader leaves.** -/
theorem afterRequest_effect (backend : ReoBackend age) {req : Request age} (hh : HomeAt t home H)
    (hrole : req.user.role = .uploader home) :
    ∃ O F, Opens H O F ∧ Effect H O F t (afterRequest backend t req) := by
  unfold afterRequest serve
  split
  case h_4 => exact put_effect hh hrole backend _ _ _ _ _
  case h_5 => exact exists_opens_dirs fun O F => mkd_effect hh hrole _ _ O F
  all_goals exact exists_opens_dirs fun O F => .refl H O F t

/-- **A request of a viewer leaves everything as it is.** -/
theorem afterRequest_viewer (backend : ReoBackend age) {req : Request age} {scope : ScopeMap}
    (hrole : req.user.role = .viewer scope) : afterRequest backend t req = t := by
  unfold afterRequest serve
  split
  case h_4 => simp [ReoBackend.put, hrole, capabilityAllowed]
  case h_5 => simp [ReoBackend.mkd, hrole, capabilityAllowed]
  all_goals rfl

end Home

end Reoftpd

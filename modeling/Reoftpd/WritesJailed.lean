import Reoftpd.MakeDirs
import Reoftpd.Touches

/-!
# Writes in the jail

`contained` checks the resolved path of a `put` or `mkd`.  What the call then opens, links,
removes and makes is at paths put together from it (its missing parents, the name with
`.age`, the staging name) or at a name in `.quarantine`, and the links on those are followed
without another look.

A store need not come to all of its paths: `Course` says which it comes to, and `StoreInside`
that those lead inside.  The directories it makes first do not change that
(`LeadsInside.of_made`), and from the open on it is an invariant that all that was touched
lies inside (`OpenInside`).  The other way, a store on which nothing fails but the look that
its course depends on comes to each of those paths (`storeInside_of_stream`,
`storeInside_of_encrypt`).
-/
namespace Reoftpd
open UnixPath FileTree

/-! ## Where the paths of a call lead -/

/-- An open of the path finds a file, or makes one. -/
def OpensAt (t : FileTree) (p : OsStr) (L : Loc) : Prop :=
  t.locate true p = .ok L ∧ (t.entry L = none ∨ ∃ i, t.entry L = some (.file i))

/-- What is missing on the way of a path is missing inside. -/
def DirsInside (inside : Loc → Prop) (t : FileTree) (p : OsStr) : Prop :=
  ∀ q ∈ ancestors p, ∀ L, t.FreeAt q L → inside L

/-- What lies below something inside is inside too. -/
def ClosedBelow (inside : Loc → Prop) : Prop := ∀ L M, inside L → L <+: M → inside M

/-- What an operation returns that would return `r`, and that may fail if `mayFail` says so. -/
def Returns {α : Type} (mayFail : Prop) (r r' : Except Errno α) : Prop :=
  r' = r ∨ mayFail ∧ ∃ e, r' = .error e

/-- How far a store comes: whether it drops its staging name unopened, opens it, writes to
what it opened, drops the name after that, and links the final name. -/
structure Course where
  refuses : Prop
  opens : Prop
  writes : Prop
  drops : Prop
  links : Prop

/-- The course of a `store_stream`. -/
def streamCourse (mayFail : Prop) (startPos : Nat) (input : Input) (t : FileTree)
    (final : OsStr) : Course where
  refuses := t.tryExists final = .ok false ∧
    ∃ r, Returns mayFail ((t.metadata (stagingPath final)).map FileStat.len) r ∧
      (judge startPos r = .ok .overlap ∨ judge startPos r = .ok .gap)
  opens := t.tryExists final = .ok false ∧
    ∃ r, Returns mayFail ((t.metadata (stagingPath final)).map FileStat.len) r ∧
      judge startPos r = .ok .ok
  writes := Delivers input
  drops := True
  links := Whole input

/-- The course of a `store_encrypted`. -/
def encryptCourse (mayFail : Prop) (out : Encrypted) (t : FileTree) (final : OsStr) : Course where
  refuses := False
  opens := ∃ r, Returns mayFail (t.tryExists final) r ∧ r ≠ .ok true
  writes := True
  drops := ∃ n, out.outcome = .ok n
  links := ∃ n, out.outcome = .ok n

/-- The paths that a store on `final` comes to lead inside: its staging path, if it opens
(what is there may be a file that the store does not write to), its staging name, and its
final path, if that is free. -/
structure LeadsInside (inside : Loc → Prop) (c : Course) (t : FileTree) (final : OsStr) :
    Prop where
  opened : c.opens → ∀ L, OpensAt t (stagingPath final) L → (t.entry L = none ∨ c.writes) →
    inside L
  dropped : (c.refuses ∨ c.opens ∧ c.drops ∧ ∃ L, OpensAt t (stagingPath final) L) →
    ∀ L e, t.find false (stagingPath final) = .ok (L, e) → e.isDir = false → inside L
  bound : (c.opens ∧ c.links ∧ ∃ L, OpensAt t (stagingPath final) L) →
    ∀ L, t.FreeAt final L → inside L

/-- So do the parents the store makes.  A NUL in their path stops it before, unless something
fails. -/
structure StoreInside (mayFail : Prop) (inside : Loc → Prop) (c : Course) (t : FileTree)
    (final : OsStr) : Prop extends LeadsInside inside c t final where
  dirs : c.opens → ∀ p, parent (stagingPath final) = some p → (mayFail ∨ nul ∉ p) →
    DirsInside inside t p

/-- The operations of one store on `final`, with a log. -/
abbrev loggedTarget (mk : MkdirFault) (final : OsStr) : TargetOps Logged (Nat × Loc) :=
  logged (treeTarget mk final) (stagingPath final)

/-- All that a state has logged lies inside. -/
def Logged.Within (inside : Loc → Prop) (s : Logged) : Prop := ∀ L ∈ s.log, inside L

section Store
variable {inside : Loc → Prop} {mayFail : Prop} {c : Course} {L M P : Loc} {f : OsStr}
  {t t₁ t' : FileTree} {s : Logged} {h : Nat × Loc} {i startPos : Nat} {final p : OsStr}
  {mk : MkdirFault} {input : Input} {out : Encrypted}

/-! ## Before the open -/

theorem isName_staging (hf : IsName f) : IsName (f ++ stagingSuffix) :=
  isName_suffix hf (by decide)

/-- **The parents that are made** lead the paths of a store nowhere else, or below them. -/
theorem LeadsInside.of_made (hl : LeadsInside inside c t (locText (P ++ [f])))
    (hbelow : ClosedBelow inside) (hdirs : DirsInside inside t (locText P))
    (hnames : ∀ a ∈ P ++ [f], IsName a) (hm : MadeOn P t t₁) :
    LeadsInside inside c t₁ (locText (P ++ [f])) := by
  have hP : ∀ a ∈ P, IsName a := fun a ha => hnames a (List.mem_append_left [f] ha)
  have hf : IsName f := hnames f (by simp)
  rcases hm.made with he | ⟨Q, N, hQ, hfree, hdir, -⟩
  · have hloc : ∀ b q, t₁.locate b q = t.locate b q := fun b q => locate_congr hm.cwd he
    have hopens : ∀ q L, OpensAt t₁ q L ↔ OpensAt t q L := by
      intro q L
      rw [OpensAt, OpensAt, hloc, he]
    obtain ⟨hopened, hdropped, hbound⟩ := hl
    refine ⟨fun ho L hL hw => ?_, fun hd L e hL => ?_, fun hb L hL => ?_⟩
    · exact hopened ho L ((hopens _ L).mp hL) (by rwa [he] at hw)
    · have hL' := find_ok.mp hL
      rw [hloc, he] at hL'
      exact hdropped (by simpa [hopens] using hd) L e (find_ok.mpr hL')
    · have hL' : t.FreeAt (locText (P ++ [f])) L := by
        rw [FreeAt, ← hloc, ← he]
        exact hL
      exact hbound (by simpa [hopens] using hb) L hL'
  · -- all of them go through the directory made first
    have hN : inside N := hdirs (locText Q) (mem_ancestors_locText hP hQ) N hfree
    obtain ⟨r, rfl⟩ := hQ
    have hthrough : ∀ x, IsName x → ∀ b L,
        t₁.locate b (locText (Q ++ r ++ [x])) = .ok L → inside L := by
      intro x hx b L hL
      rw [List.append_assoc] at hL
      have hxs : ∀ a ∈ Q ++ (r ++ [x]), IsName a := by
        rw [← List.append_assoc]
        exact List.forall_mem_append.mpr ⟨hP, by simpa using hx⟩
      rw [locate_below_made hm.toAddsDirs hfree hdir hxs hL]
      exact hbelow N _ hN (List.prefix_append N _)
    refine ⟨fun _ L hL _ => ?_, fun _ L e hL _ => ?_, fun _ L hL => hthrough f hf _ _ hL.1⟩
    · rw [stagingPath_locText] at hL
      exact hthrough _ (isName_staging hf) _ _ hL.1
    · rw [stagingPath_locText] at hL
      exact hthrough _ (isName_staging hf) _ _ (find_ok.mp hL).1

/-- What directories are made lies inside. -/
theorem DirsInside.made (hdirs : DirsInside inside t (locText P)) (hbelow : ClosedBelow inside)
    (hP : ∀ a ∈ P, IsName a) (hm : MadeOn P t t₁) (hM : t₁.entry M ≠ t.entry M) : inside M := by
  rcases hm.made with he | ⟨Q, N, hQ, hfree, -, hmade⟩
  · rw [he] at hM
    exact absurd rfl hM
  · exact hbelow N M (hdirs (locText Q) (mem_ancestors_locText hP hQ) N hfree) (hmade M hM)

/-- Directories that are made inside are missing inside. -/
theorem dirsInside_of_made
    (hin : ∀ mk, (mayFail ∨ mk = fun _ _ => none) →
      ∀ M, (t.createDirAll mk p).1.entry M ≠ t.entry M → inside M)
    (hcan : mayFail ∨ nul ∉ p) : DirsInside inside t p := by
  intro q hq L hL
  have hmade : ∀ mk : MkdirFault, (∀ r ∈ ancestors p, mk false r =
      if nul ∈ r then some .notFound else none) →
      (t.createDirAll mk p).1.entry L ≠ t.entry L := by
    intro mk hmk
    rw [createDirAll_makes hq hL hmk, hL.2]
    simp
  by_cases hnul : nul ∈ p
  · have hmay : mayFail := hcan.resolve_right (not_not.mpr hnul)
    exact hin (fun _ r => if nul ∈ r then some .notFound else none) (Or.inl hmay) L
      (hmade _ fun _ _ => rfl)
  · exact hin _ (Or.inr rfl) L
      (hmade _ fun r hr => (if_neg (nul_not_mem_ancestors hnul hr)).symm)

/-! ## What is logged -/

theorem within_nil : Logged.Within inside ⟨t, []⟩ := fun _ hL => absurd hL List.not_mem_nil

theorem Logged.Within.bind (hs : s.Within inside)
    (ht : ∀ M, s.tree.entry M ≠ t'.entry M → inside M) : (s.bind t').Within inside := by
  intro L hL
  rcases List.mem_append.mp hL with hL | hL
  · exact ht L (mem_changedNames.mp hL)
  · exact hs L hL

theorem Logged.Within.write (hs : s.Within inside)
    (ht : ∀ M, s.tree.entry M ≠ t'.entry M → inside M) (hL : inside L) :
    (s.write t' L).Within inside := by
  intro K hK
  rcases List.mem_cons.mp hK with rfl | hK
  · exact hL
  · exact hs.bind ht K hK

/-- A removal takes the name away that its path leads to. -/
theorem entry_discard (hM : t.entry M ≠ (t.discard p).entry M) :
    ∃ e, t.find false p = .ok (M, e) ∧ e.isDir = false := by
  unfold FileTree.discard at hM
  split at hM
  · rename_i t' hr
    obtain ⟨L, e, hl, he, hdir, rfl⟩ := removeFile_ok hr
    by_cases hML : M = L
    · exact ⟨e, hML ▸ find_ok.mpr ⟨hl, he⟩, hdir⟩
    · rw [entry_eraseAt_ne hML] at hM
      exact absurd rfl hM
  · exact absurd rfl hM

/-! ## While the staging file is open -/

/-- A store that has its staging file open, after its parents were made in `t₁`. -/
structure OpenInside (inside : Loc → Prop) (t₁ : FileTree) (final : OsStr) (h : Nat × Loc)
    (s : Logged) : Prop where
  log : s.Within inside
  wrote : Wrote t₁ s.tree
  changed : ∀ M, s.tree.entry M ≠ t₁.entry M → inside M
  handle : OpensAt t₁ (stagingPath final) h.2

/-- What an open finds or makes is where its path leads. -/
theorem opensAt_of_openFile (ho : t.openFile p = .ok (t', i)) :
    OpensAt t p (place t p) ∧
      ∀ M, t'.entry M ≠ t.entry M → M = place t p ∧ t.entry M = none := by
  obtain ⟨L, hL, hcases⟩ := openFile_ok ho
  rw [place_eq hL]
  rcases hcases with ⟨hi, rfl⟩ | ⟨hv, rfl, -⟩
  · exact ⟨⟨hL, Or.inr ⟨i, hi⟩⟩, fun M hM => absurd rfl hM⟩
  · refine ⟨⟨hL, Or.inl hv.2.1⟩, fun M hM => ?_⟩
    have hML : M = L := by
      by_contra hML
      exact hM (entry_createAt_ne hML)
    exact ⟨hML, hML ▸ hv.2.1⟩

theorem openInside_of_openFile (hl : LeadsInside inside c s.tree final) (hopens : c.opens)
    (hs : s.Within inside) (ho : s.tree.openFile (stagingPath final) = .ok (t', i)) :
    OpenInside inside s.tree final (i, place s.tree (stagingPath final)) (s.bind t') := by
  obtain ⟨hat, hnew⟩ := opensAt_of_openFile ho
  have hinside : ∀ M, t'.entry M ≠ s.tree.entry M → inside M := by
    intro M hM
    obtain ⟨rfl, hnone⟩ := hnew M hM
    exact hl.opened hopens _ hat (Or.inl hnone)
  exact ⟨hs.bind fun M hM => hinside M (Ne.symm hM), (Wrote.refl s.tree).openFile ho, hinside,
    hat⟩

theorem openInside_of_openTruncate (hl : LeadsInside inside c s.tree final) (hopens : c.opens)
    (hwrites : c.writes) (hs : s.Within inside)
    (ho : s.tree.openTruncate (stagingPath final) = .ok (t', i)) :
    OpenInside inside s.tree final (i, place s.tree (stagingPath final))
      (s.write t' (place s.tree (stagingPath final))) := by
  obtain ⟨t₂, hfile, rfl⟩ := openTruncate_ok ho
  have hJ := openInside_of_openFile hl hopens hs hfile
  have hplace : inside (place s.tree (stagingPath final)) :=
    hl.opened hopens _ hJ.handle (Or.inr hwrites)
  exact ⟨hs.write (fun M hM => hJ.changed M (Ne.symm hM)) hplace,
    hJ.wrote.setData i [], hJ.changed, hJ.handle⟩

theorem OpenInside.setData (hJ : OpenInside inside t₁ final h s)
    (hl : LeadsInside inside c t₁ final) (hopens : c.opens) (hwrites : c.writes) (b : Bytes) :
    OpenInside inside t₁ final h (s.write (s.tree.setData h.1 b) h.2) :=
  ⟨hJ.log.write (fun _ hM => absurd rfl hM) (hl.opened hopens _ hJ.handle (Or.inr hwrites)),
    hJ.wrote.setData h.1 b, hJ.changed, hJ.handle⟩

/-- The staging name of an open staging file, if the store comes to drop it. -/
theorem OpenInside.staging {e : Entry OsStr} (hJ : OpenInside inside t₁ final h s)
    (hl : LeadsInside inside c t₁ final) (hopens : c.opens) (hdrops : c.drops)
    (hM : s.tree.find false (stagingPath final) = .ok (M, e)) (he : e.isDir = false) :
    inside M := by
  obtain ⟨hloc, hentry⟩ := find_ok.mp hM
  by_cases hsame : s.tree.entry M = t₁.entry M
  · refine hl.dropped (Or.inr ⟨hopens, hdrops, h.2, hJ.handle⟩) M e ?_ he
    exact find_ok.mpr ⟨hJ.wrote.locate_iff.mp hloc, hsame ▸ hentry⟩
  · exact hJ.changed M hsame

theorem OpenInside.discard (hJ : OpenInside inside t₁ final h s)
    (hl : LeadsInside inside c t₁ final) (hopens : c.opens) (hdrops : c.drops) :
    (s.bind (s.tree.discard (stagingPath final))).Within inside := by
  refine hJ.log.bind fun M hM => ?_
  obtain ⟨e, hfind, he⟩ := entry_discard hM
  exact hJ.staging hl hopens hdrops hfind he

/-- A link at another name does not lead a path elsewhere. -/
theorem find_linkAt {S M D : Loc} {e : Entry OsStr} (hfind : t.find false p = .ok (S, e))
    (hv : t.Vacant D) : (t.linkAt M D).find false p = .ok (S, e) := by
  obtain ⟨hS, he⟩ := find_ok.mp hfind
  have hkeep : ∀ K e, t.entry K = some e → (t.linkAt M D).entry K = some e := by
    intro K e hK
    have hKD : K ≠ D := by
      rintro rfl
      rw [hv.2.1] at hK
      cases hK
    rw [entry_linkAt_ne hKD, hK]
  exact find_ok.mpr ⟨locate_bound cwd_linkAt hkeep hS (by simp [he]), hkeep S e he⟩

/-- The link of a store, and the removal after it. -/
theorem OpenInside.link (hJ : OpenInside inside t₁ final h s)
    (hl : LeadsInside inside c t₁ final) (hopens : c.opens) (hdrops : c.drops) (hlinks : c.links)
    (hlink : s.tree.hardLink (stagingPath final) final = .ok t') :
    (s.bind t').Within inside ∧
      ((s.bind t').bind (t'.discard (stagingPath final))).Within inside := by
  obtain ⟨S, D, e, hS, he, hdir, hD, hv, rfl⟩ := hardLink_ok hlink
  have hfree : t₁.entry D = none := by
    by_contra hbound
    obtain ⟨e', he'⟩ := Option.ne_none_iff_exists'.mp hbound
    have hkept := hJ.wrote.kept he'
    rw [hv.2.1] at hkept
    cases hkept
  have hDin : inside D :=
    hl.bound ⟨hopens, hlinks, h.2, hJ.handle⟩ D ⟨hJ.wrote.locate_iff.mp hD, hfree⟩
  have hSin : inside S := hJ.staging hl hopens hdrops (find_ok.mpr ⟨hS, he⟩) hdir
  have hbind : (s.bind (s.tree.linkAt S D)).Within inside := by
    refine hJ.log.bind fun M hM => ?_
    by_cases hMD : M = D
    · exact hMD ▸ hDin
    · rw [entry_linkAt_ne hMD] at hM
      exact absurd rfl hM
  refine ⟨hbind, hbind.bind fun M hM => ?_⟩
  obtain ⟨e', hfind, -⟩ := entry_discard hM
  have hstays := find_linkAt (M := S) (find_ok.mpr ⟨hS, he⟩) hv
  obtain ⟨rfl, -⟩ := Prod.mk.inj (Except.ok.inj (hstays.symm.trans hfind))
  exact hSin

/-! ## A store whose paths lead inside -/

theorem createParent_locText (hnames : ∀ a ∈ P ++ [f], IsName a) (mk : MkdirFault)
    (t : FileTree) :
    (treeTarget mk (locText (P ++ [f]))).createParent t = t.createDirAll mk (locText P) := by
  have hparent : parent (stagingPath (locText (P ++ [f]))) = some (locText P) := by
    rw [stagingPath_locText]
    exact parent_locText (fun a ha => hnames a (List.mem_append_left [f] ha))
      (isName_staging (hnames f (by simp)))
  unfold treeTarget
  simp only
  rw [hparent]

/-- After its parents are made, a store still has its paths inside. -/
theorem StoreInside.parents (hl : StoreInside mayFail inside c t (locText (P ++ [f])))
    (hbelow : ClosedBelow inside) (hopens : c.opens) (hnames : ∀ a ∈ P ++ [f], IsName a)
    (hmk : mayFail ∨ mk = fun _ _ => none) :
    let ops := loggedTarget mk (locText (P ++ [f]))
    (ops.createParent ⟨t, []⟩).1.Within inside ∧
      LeadsInside inside c (ops.createParent ⟨t, []⟩).1.tree (locText (P ++ [f])) := by
  intro ops
  have hP : ∀ a ∈ P, IsName a := fun a ha => hnames a (List.mem_append_left [f] ha)
  have htree : (ops.createParent ⟨t, []⟩).1 =
      Logged.bind ⟨t, []⟩ (t.createDirAll mk (locText P)).1 := by
    show Logged.bind ⟨t, []⟩ ((treeTarget mk (locText (P ++ [f]))).createParent t).1 = _
    rw [createParent_locText hnames]
  rw [htree]
  by_cases hcan : mayFail ∨ nul ∉ locText P
  · have hdirs : DirsInside inside t (locText P) := by
      refine hl.dirs hopens (locText P) ?_ hcan
      rw [stagingPath_locText]
      exact parent_locText hP (isName_staging (hnames f (by simp)))
    have hmade : MadeOn P t (t.createDirAll mk (locText P)).1 := madeOn_createDirAll mk t hP
    exact ⟨within_nil.bind fun M hM => hdirs.made hbelow hP hmade (Ne.symm hM),
      hl.toLeadsInside.of_made hbelow hdirs hnames hmade⟩
  · -- a NUL ends it before anything is made
    obtain ⟨hmay, hnul⟩ := not_or.mp hcan
    obtain rfl := hmk.resolve_left hmay
    rw [createDirAll_nul (not_not.mp hnul)]
    exact ⟨within_nil.bind fun M hM => absurd rfl hM, hl.toLeadsInside⟩

/-- **A `store_stream` stays inside** if the paths that it comes to lead inside. -/
theorem storeStream_within {fault : StoreSite → Option Errno}
    (hl : StoreInside mayFail inside (streamCourse mayFail startPos input t (locText (P ++ [f]))) t
      (locText (P ++ [f])))
    (hbelow : ClosedBelow inside) (hnames : ∀ a ∈ P ++ [f], IsName a)
    (hfail : mayFail ∨ (mk = fun _ _ => none) ∧ fault = fun _ => none) :
    (storeStream (loggedTarget mk (locText (P ++ [f])))
      fault startPos input ⟨t, []⟩).1.Within inside := by
  unfold storeStream
  split
  · exact within_nil
  · exact within_nil
  · rename_i hc
    have hexists : t.tryExists (locText (P ++ [f])) = .ok false := (attempt_ok hc).2
    have hreturns : Returns mayFail
        ((t.metadata (stagingPath (locText (P ++ [f])))).map FileStat.len)
        (attempt (fault .stat) ((t.metadata (stagingPath (locText (P ++ [f])))).map
          FileStat.len)) := by
      rcases hfail with hmay | ⟨-, rfl⟩
      · cases fault .stat with
        | none => exact Or.inl rfl
        | some e => exact Or.inr ⟨hmay, e, rfl⟩
      · exact Or.inl rfl
    have hrefused : ∀ f', (streamCourse mayFail startPos input t (locText (P ++ [f]))).refuses →
        (dropStaging (loggedTarget mk (locText (P ++ [f]))) f' ⟨t, []⟩).Within inside := by
      intro f' hrefuses
      refine dropStaging_ind within_nil (within_nil.bind fun M hM => ?_)
      obtain ⟨e, hfind, he⟩ := entry_discard hM
      exact hl.dropped (Or.inl hrefuses) M e hfind he
    split
    · exact within_nil
    · rename_i hj
      exact hrefused _ ⟨hexists, _, hreturns, Or.inl hj⟩
    · rename_i hj
      exact hrefused _ ⟨hexists, _, hreturns, Or.inr hj⟩
    · rename_i hj
      have hopens : (streamCourse mayFail startPos input t (locText (P ++ [f]))).opens :=
        ⟨hexists, _, hreturns, hj⟩
      obtain ⟨hparents, hlead⟩ := hl.parents hbelow hopens hnames (hfail.imp_right And.left)
      refine openAndStream_rule (Q := fun s _ => s.Within inside)
        (J := OpenInside inside
          ((loggedTarget mk (locText (P ++ [f]))).createParent ⟨t, []⟩).1.tree
          (locText (P ++ [f])))
        ?_ ?_ ?_ ?_ ?_ ?_
      · exact fun _ => within_nil
      · exact fun _ => hparents
      · intro s h ho
        obtain ⟨⟨t', i⟩, hopen, he⟩ := map_eq_ok ho
        obtain ⟨rfl, rfl⟩ := Prod.mk.inj he
        exact openInside_of_openFile hlead hopens hparents hopen
      · exact fun hwrites s h b hJ => hJ.setData hlead hopens hwrites _
      · exact fun s h _ hJ => ⟨hJ.log, hJ.discard hlead hopens trivial⟩
      · intro hlinks s h s' _ hJ ho
        obtain ⟨t', hlink, rfl⟩ := map_eq_ok ho
        exact hJ.link hlead hopens trivial hlinks hlink

/-- **A `store_encrypted` stays inside** if the paths that it comes to lead inside. -/
theorem storeEncrypted_within {fault : EncryptSite → Option Errno}
    (hl : StoreInside mayFail inside (encryptCourse mayFail out t (locText (P ++ [f]))) t
      (locText (P ++ [f])))
    (hbelow : ClosedBelow inside) (hnames : ∀ a ∈ P ++ [f], IsName a)
    (hfail : mayFail ∨ (mk = fun _ _ => none) ∧ fault = fun _ => none) :
    (storeEncrypted (loggedTarget mk (locText (P ++ [f]))) fault out ⟨t, []⟩).1.Within inside := by
  by_cases hopens : (encryptCourse mayFail out t (locText (P ++ [f]))).opens
  · obtain ⟨hparents, hlead⟩ := hl.parents hbelow hopens hnames (hfail.imp_right And.left)
    refine storeEncrypted_rule (Q := fun s _ => s.Within inside)
      (J := fun h _ s => OpenInside inside
        ((loggedTarget mk (locText (P ++ [f]))).createParent ⟨t, []⟩).1.tree
        (locText (P ++ [f])) h s)
      ?_ ?_ ?_ ?_ ?_ ?_ ?_
    · exact fun _ => within_nil
    · exact fun _ => hparents
    · intro s h ho
      obtain ⟨⟨t', i⟩, hopen, he⟩ := map_eq_ok ho
      obtain ⟨rfl, rfl⟩ := Prod.mk.inj he
      exact openInside_of_openTruncate hlead hopens trivial hparents hopen
    · exact fun s h _ b hJ => hJ.setData hlead hopens trivial _
    · exact fun s h _ _ _ hJ => hJ.log
    · exact fun s h n _ hn hJ => hJ.discard hlead hopens ⟨n, hn⟩
    · intro s h s' n hn hJ ho
      obtain ⟨t', hlink, rfl⟩ := map_eq_ok ho
      exact hJ.link hlead hopens ⟨n, hn⟩ ⟨n, hn⟩ hlink
  · -- the final path is there
    have hthere : attempt (fault .exists) (t.tryExists (locText (P ++ [f]))) = .ok true := by
      by_contra hne
      refine hopens ⟨_, ?_, hne⟩
      rcases hfail with hmay | ⟨-, rfl⟩
      · cases fault .exists with
        | none => exact Or.inl rfl
        | some e => exact Or.inr ⟨hmay, e, rfl⟩
      · exact Or.inl rfl
    have hcheck : attempt (fault .exists)
        ((loggedTarget mk (locText (P ++ [f]))).tryExists ⟨t, []⟩) = .ok true := hthere
    unfold storeEncrypted
    rw [hcheck]
    exact within_nil

/-! ## A store that stays inside -/

/-- A failure of the look at the staging file only. -/
def statFault (f : Option Errno) : StoreSite → Option Errno
  | .stat => f
  | _ => none

theorem statFault_none : statFault none = fun _ => none := by
  funext site
  cases site <;> rfl

/-- A failure of the look at the final path only. -/
def existsFault (f : Option Errno) : EncryptSite → Option Errno
  | .exists => f
  | _ => none

theorem existsFault_none : existsFault none = fun _ => none := by
  funext site
  cases site <;> rfl

/-- What an operation may return, it returns with some failure of its own. -/
theorem Returns.attempt {α : Type} {r r' : Except Errno α} (h : Returns mayFail r r') :
    ∃ f, Reoftpd.attempt f r = r' ∧ (mayFail ∨ f = none) := by
  rcases h with rfl | ⟨hmay, e, rfl⟩
  · exact ⟨none, rfl, Or.inr rfl⟩
  · exact ⟨some e, rfl, Or.inl hmay⟩

/-- A store has its staging file open at `K`, and nothing else has changed. -/
structure Opened (t : FileTree) (final : OsStr) (K : Loc) (s : Logged) : Prop where
  wrote : Wrote t s.tree
  opens : OpensAt t (stagingPath final) K
  file : ∃ i, s.tree.entry K = some (.file i)
  entry : ∀ M, M ≠ K → s.tree.entry M = t.entry M
  log : t.entry K = none → K ∈ s.log

variable {K F : Loc} {e : Entry OsStr} {f' : Option Errno}

/-- What the open leaves. -/
theorem opened_of_openFile (htree : s.tree = t)
    (ho : t.openFile (stagingPath final) = .ok (t', i)) :
    Opened t final (place t (stagingPath final)) (s.bind t') := by
  obtain ⟨hat, hnew⟩ := opensAt_of_openFile ho
  have hfile : ∃ i, t'.entry (place t (stagingPath final)) = some (.file i) := by
    obtain ⟨L, hL, hcases⟩ := openFile_ok ho
    rw [place_eq hL]
    rcases hcases with ⟨hi, rfl⟩ | ⟨hv, rfl, rfl⟩
    · exact ⟨i, hi⟩
    · exact ⟨_, entry_createAt_self hv⟩
  refine ⟨(Wrote.refl t).openFile ho, hat, hfile, fun M hM => ?_, fun hnone => ?_⟩
  · by_contra hne
    exact hM (hnew M hne).1
  · obtain ⟨j, hj⟩ := hfile
    refine List.mem_append_left _ (mem_changedNames.mpr ?_)
    rw [htree, hnone, hj]
    simp

theorem Opened.setData (hO : Opened t final K s) (h : Nat × Loc) (b : Bytes) :
    Opened t final K (s.write (s.tree.setData h.1 b) h.2) :=
  ⟨hO.wrote.setData h.1 b, hO.opens, hO.file, hO.entry,
    fun hnone => List.mem_cons_of_mem _ (List.mem_append_right _ (hO.log hnone))⟩

/-- A file that an open of the path would find or make, it does. -/
theorem openFile_of_opensAt (hp : endsWithSep p = false) (h : OpensAt t p K) :
    ∃ t' i, t.openFile p = .ok (t', i) := by
  obtain ⟨hK, hnone | ⟨i, hi⟩⟩ := h
  · refine ⟨t.createAt K, t.disk.fresh, ?_⟩
    rw [openFile, hp, if_neg (by simp), hK]
    simp only
    rw [hnone]
  · refine ⟨t, i, ?_⟩
    rw [openFile, hp, if_neg (by simp), hK]
    simp only
    rw [hi]

/-- The staging name is there while the staging file is open. -/
theorem Opened.staging (hO : Opened t final K s) :
    ∃ S e, s.tree.find false (stagingPath final) = .ok (S, e) ∧ e.isDir = false := by
  obtain ⟨M, hM, rfl | ⟨target, hlink⟩⟩ := locate_unfollowed hO.opens.1
  · obtain ⟨i, hi⟩ := hO.file
    exact ⟨M, .file i, find_ok.mpr ⟨hO.wrote.locate_iff.mpr hM, hi⟩, rfl⟩
  · exact ⟨M, .link target,
      find_ok.mpr ⟨hO.wrote.locate_iff.mpr hM, hO.wrote.kept hlink⟩, rfl⟩

/-- A staging name that was there stays. -/
theorem Opened.found (hO : Opened t final K s) {q : OsStr} (hfind : t.find false q = .ok (L, e)) :
    s.tree.find false q = .ok (L, e) := by
  obtain ⟨hL, hentry⟩ := find_ok.mp hfind
  exact find_ok.mpr ⟨hO.wrote.locate_iff.mpr hL, hO.wrote.kept hentry⟩

/-- A removal of what is there is logged. -/
theorem mem_log_discard (hfind : s.tree.find false p = .ok (L, e)) (he : e.isDir = false) :
    L ∈ (s.bind (s.tree.discard p)).log := by
  obtain ⟨-, hentry⟩ := find_ok.mp hfind
  have hremove : s.tree.removeFile p = .ok (s.tree.eraseAt L) := by
    rw [removeFile, hfind]
    cases e with
    | dir => cases he
    | file i => rfl
    | link target => rfl
  refine List.mem_append_left _ (mem_changedNames.mpr ?_)
  rw [FileTree.discard, hremove, hentry]
  simp only
  rw [entry_eraseAt_self (childless_of_entry hentry he)]
  simp

section Finalize
variable {fault : StoreSite → Option Errno} {n : Nat}

/-- The end of a store keeps what is in the log. -/
theorem mem_log_finalize {ops : TargetOps FileTree Nat} {staging : OsStr} (hL : L ∈ s.log) :
    L ∈ (finalize (logged ops staging) fault s n).1.log := by
  refine finalize_rule (Q := fun (s : Logged) _ => L ∈ s.log)
    (fun e => ⟨hL, List.mem_append_right _ hL⟩) ?_
  intro s' hs'
  obtain ⟨t', -, rfl⟩ := map_eq_ok hs'
  have hbind : L ∈ (s.bind t').log := List.mem_append_right _ hL
  exact ⟨hbind, List.mem_append_right _ hbind⟩

/-- The end of a store that drops its staging name, -/
theorem Opened.drops (hO : Opened t final K s) (hremove : fault .remove = none)
    (hfind : t.find false (stagingPath final) = .ok (L, e)) (he : e.isDir = false) :
    L ∈ (finalize (loggedTarget mk final) fault s n).1.log := by
  rw [finalize, hremove]
  show L ∈ ((linkStaging _ (fault .link) s n).1.bind _).log
  refine mem_log_discard ?_ he
  unfold linkStaging
  split
  · -- the link is at another name
    rename_i s' hs'
    obtain ⟨t', hlink, rfl⟩ := map_eq_ok (attempt_ok hs').2
    obtain ⟨S, D, e', -, -, -, -, hv, rfl⟩ := hardLink_ok hlink
    exact find_linkAt (hO.found hfind) hv
  · exact hO.found hfind
  · exact hO.found hfind

/-- and of one that links the final name. -/
theorem Opened.links (hO : Opened t final K s) (hlink : fault .link = none)
    (hremove : fault .remove = none) (hfinal : endsWithSep final = false)
    (hF : t.FreeAt final F) :
    F ∈ (finalize (loggedTarget mk final) fault s n).1.log := by
  by_cases hFK : F = K
  · -- a staging link may lead to the final name itself
    subst hFK
    exact mem_log_finalize (hO.log hF.2)
  · obtain ⟨S, e, hfind, hdir⟩ := hO.staging
    have hFs : s.tree.locate false final = .ok F := hO.wrote.locate_iff.mpr hF.1
    have hnone : s.tree.entry F = none := (hO.entry F hFK).trans hF.2
    have hdo : s.tree.hardLink (stagingPath final) final = .ok (s.tree.linkAt S F) := by
      rw [hardLink, hfind]
      simp only
      rw [hFs]
      simp only
      rw [hnone, hfinal, hdir]
      rfl
    have hmap : (loggedTarget mk final).hardLink s =
        .ok (s.bind (s.tree.linkAt S F)) := by
      show (s.tree.hardLink (stagingPath final) final).map s.bind = _
      rw [hdo]
      rfl
    have hbound : F ∈ (s.bind (s.tree.linkAt S F)).log := by
      refine List.mem_append_left _ (mem_changedNames.mpr ?_)
      rw [hnone, entry_linkAt_self (vacant_of_locate hFs hnone) (find_ok.mp hfind).2]
      simp
    rw [finalize, hlink, hremove, linkStaging, attempt_none, hmap]
    exact List.mem_append_right _ hbound

end Finalize

/-! ## A run that comes to each operation -/

/-- A path that an open leads through has its parents. -/
theorem createParent_there (hnames : ∀ a ∈ P ++ [f], IsName a)
    (hK : OpensAt t (stagingPath (locText (P ++ [f]))) K) :
    (treeTarget (fun _ _ => none) (locText (P ++ [f]))).createParent t = (t, .ok ()) := by
  have hdir : t.isDir (locText P) = true := by
    have hstaging : ∀ a ∈ P ++ [f ++ stagingSuffix], IsName a :=
      List.forall_mem_append.mpr ⟨fun a ha => hnames a (List.mem_append_left [f] ha),
        by simpa using isName_staging (hnames f (by simp))⟩
    rw [stagingPath_locText] at hK
    exact isDir_iff.mpr (dir_on_way hstaging (List.cons_ne_nil _ _) hK.1)
  rw [createParent_locText hnames]
  exact createDirAll_there (locText_ne_nil P) hdir

theorem parents_there (hnames : ∀ a ∈ P ++ [f], IsName a)
    (hK : OpensAt t (stagingPath (locText (P ++ [f]))) K) :
    (loggedTarget (fun _ _ => none) (locText (P ++ [f]))).createParent ⟨t, []⟩ =
        (Logged.bind ⟨t, []⟩ t, .ok ()) := by
  show (Logged.bind ⟨t, []⟩ ((treeTarget (fun _ _ => none) (locText (P ++ [f]))).createParent t).1,
    ((treeTarget (fun _ _ => none) (locText (P ++ [f]))).createParent t).2) = _
  rw [createParent_there hnames hK]

theorem endsWithSep_staging (hnames : ∀ a ∈ P ++ [f], IsName a) :
    endsWithSep (stagingPath (locText (P ++ [f]))) = false := by
  rw [stagingPath_locText]
  refine endsWithSep_locText (by simp) fun a ha => ?_
  rcases List.mem_append.mp ha with ha | ha
  · exact (hnames a (List.mem_append_left [f] ha)).isSegment
  · rw [List.mem_singleton.mp ha]
    exact (isName_staging (hnames f (by simp))).isSegment

/-- What is missing on the way of the parents of a store is logged as made. -/
theorem dirsInside_of_parents (hnames : ∀ a ∈ P ++ [f], IsName a)
    (hin : ∀ mk, (mayFail ∨ mk = fun _ _ => none) →
      ∀ L ∈ ((loggedTarget mk (locText (P ++ [f]))).createParent ⟨t, []⟩).1.log,
      inside L)
    (hp : parent (stagingPath (locText (P ++ [f]))) = some p) (hcan : mayFail ∨ nul ∉ p) :
    DirsInside inside t p := by
  have hP : ∀ a ∈ P, IsName a := fun a ha => hnames a (List.mem_append_left [f] ha)
  rw [stagingPath_locText, parent_locText hP (isName_staging (hnames f (by simp)))] at hp
  obtain rfl := Option.some.inj hp
  refine dirsInside_of_made (fun mk hmk M hM => ?_) hcan
  rw [← createParent_locText hnames] at hM
  exact hin mk hmk M (List.mem_append_left _ (mem_changedNames.mpr (Ne.symm hM)))

/-! ### `store_stream` -/

section Stream
variable {ops : TargetOps FileTree Nat} {staging : OsStr} {fault : StoreSite → Option Errno}

/-- What the copy has logged stays in the log. -/
theorem mem_log_streamInput
    (hL : L ∈ (copyInput (logged ops staging) h s input 0).1.log) :
    L ∈ (streamInput (logged ops staging) fault input s h).1.log := by
  unfold streamInput
  split
  · rename_i s' e hc
    rw [hc] at hL
    exact dropStaging_ind (Q := fun (s : Logged) => L ∈ s.log) hL (List.mem_append_right _ hL)
  · rename_i s' n hc
    rw [hc] at hL
    split
    · exact hL
    · exact mem_log_finalize hL

theorem mem_log_copyInput {n : Nat} (hL : L ∈ s.log) :
    L ∈ (copyInput (logged ops staging) h s input n).1.log :=
  copyInput_ind (J := fun s => L ∈ s.log)
    (fun _ _ hL => List.mem_cons_of_mem _ (List.mem_append_right _ hL)) s input n hL

/-- So does what the parents have logged. -/
theorem mem_log_openAndStream (hcreate : fault .createParent = none)
    (hL : L ∈ ((logged ops staging).createParent s).1.log) :
    L ∈ (openAndStream (logged ops staging) fault input s).1.log := by
  unfold openAndStream makeParent
  rw [hcreate]
  simp only
  split
  · rename_i hp
    rw [hp] at hL
    exact hL
  · rename_i hp
    rw [hp] at hL
    split
    · exact hL
    · rename_i s'' h' ho
      obtain ⟨⟨t', i⟩, -, he⟩ := map_eq_ok (attempt_ok ho).2
      obtain ⟨rfl, rfl⟩ := Prod.mk.inj he
      exact mem_log_streamInput (mem_log_copyInput (List.mem_append_right _ hL))

/-- An input without a failed read is copied to its end. -/
theorem copyInput_whole {S H : Type} {ops : TargetOps S H} {s : S} {h : H} (hwhole : Whole input)
    (n : Nat) : ∃ s' m, copyInput ops h s input n = (s', .ok m) := by
  induction input generalizing s n with
  | nil => exact ⟨s, n, rfl⟩
  | cons x rest ih =>
      cases x with
      | error e => exact absurd (List.mem_cons_self ..) (hwhole e)
      | ok b => exact ih (fun e he => hwhole e (List.mem_cons_of_mem _ he)) (n + b.length)

end Stream

/-- A store that comes to its open, whatever else it is. -/
theorem storeStream_opens {ops : TargetOps Logged (Nat × Loc)}
    (hexists : ops.tryExists s = .ok false)
    (hjudge : judge startPos (attempt f' (ops.stagingLen s)) = .ok .ok) :
    storeStream ops (statFault f') startPos input s =
      openAndStream ops (statFault f') input s := by
  have hcheck : attempt (statFault f' .exists) (ops.tryExists s) = .ok false := hexists
  have hverdict : judge startPos (attempt (statFault f' .stat) (ops.stagingLen s)) = .ok .ok :=
    hjudge
  unfold storeStream
  rw [hcheck]
  simp only
  rw [hverdict]

/-- One that is refused for its offset drops the staging name. -/
theorem storeStream_drops {ops : TargetOps Logged (Nat × Loc)}
    (hexists : ops.tryExists s = .ok false)
    (hjudge : judge startPos (attempt f' (ops.stagingLen s)) = .ok .overlap ∨
      judge startPos (attempt f' (ops.stagingLen s)) = .ok .gap) :
    (storeStream ops (statFault f') startPos input s).1 = ops.removeStaging s := by
  have hcheck : attempt (statFault f' .exists) (ops.tryExists s) = .ok false := hexists
  have hstat : statFault f' .stat = f' := rfl
  unfold storeStream
  rw [hcheck, hstat]
  simp only
  rcases hjudge with hj | hj <;>
  · rw [hj]
    rfl

/-- A staging path that opens is opened. -/
theorem exists_opened_stream (hnames : ∀ a ∈ P ++ [f], IsName a)
    (hK : OpensAt t (stagingPath (locText (P ++ [f]))) K) (f' : Option Errno) (input : Input) :
    let ops := loggedTarget (fun _ _ => none) (locText (P ++ [f]))
    ∃ s i, Opened t (locText (P ++ [f])) K s ∧
      openAndStream ops (statFault f') input ⟨t, []⟩ =
        streamInput ops (statFault f') input s (i, K) := by
  intro ops
  obtain ⟨t', i, ho⟩ := openFile_of_opensAt (endsWithSep_staging hnames) hK
  obtain rfl : place t (stagingPath (locText (P ++ [f]))) = K := place_eq hK.1
  refine ⟨_, i, opened_of_openFile (s := Logged.bind ⟨t, []⟩ t) rfl ho, ?_⟩
  have hparents : makeParent ops (statFault f' .createParent) ⟨t, []⟩ =
      (Logged.bind ⟨t, []⟩ t, .ok ()) := parents_there hnames hK
  have hopen : attempt (statFault f' .openStaging) (ops.openAppend (Logged.bind ⟨t, []⟩ t)) =
      .ok ((Logged.bind ⟨t, []⟩ t).bind t', i, place t (stagingPath (locText (P ++ [f])))) := by
    show (t.openFile (stagingPath (locText (P ++ [f])))).map _ = _
    rw [ho]
    rfl
  unfold openAndStream
  rw [hparents]
  simp only
  rw [hopen]

/-- The copy leaves the staging file open. -/
theorem Opened.copy (hO : Opened t final K s) (n : Nat) :
    Opened t final K (copyInput (loggedTarget mk final) (i, K) s input n).1 :=
  copyInput_ind (J := Opened t final K) (fun _ _ hs => hs.setData (i, K) _) s input n hO

/-- From the open on, the staging name is dropped, -/
theorem Opened.mem_log_dropped (hO : Opened t final K s)
    (hfind : t.find false (stagingPath final) = .ok (L, e)) (he : e.isDir = false) :
    L ∈ (streamInput (loggedTarget mk final) (statFault f') input s (i, K)).1.log := by
  have hcopied : Opened t final K (copyInput (loggedTarget mk final) (i, K) s input 0).1 :=
    hO.copy 0
  unfold streamInput
  split
  · rename_i hc
    rw [hc] at hcopied
    exact mem_log_discard (hcopied.found hfind) he
  · rename_i hc
    rw [hc] at hcopied
    exact hcopied.drops rfl hfind he

/-- and the final name linked if no read fails. -/
theorem Opened.mem_log_linked (hO : Opened t final K s) (hwhole : Whole input)
    (hfinal : endsWithSep final = false) (hF : t.FreeAt final F) :
    F ∈ (streamInput (loggedTarget mk final) (statFault f') input s (i, K)).1.log := by
  have hcopied : Opened t final K (copyInput (loggedTarget mk final) (i, K) s input 0).1 :=
    hO.copy 0
  obtain ⟨s', m, hc⟩ : ∃ s' m, copyInput (loggedTarget mk final) (i, K) s input 0 = (s', .ok m) :=
    copyInput_whole hwhole 0
  rw [hc] at hcopied
  rw [streamInput, hc]
  exact hcopied.links rfl rfl hfinal hF

/-- **A `store_stream` that stays inside** has the paths inside that it comes to. -/
theorem storeInside_of_stream (hnames : ∀ a ∈ P ++ [f], IsName a)
    (hin : ∀ mk fault, (mayFail ∨ (mk = fun _ _ => none) ∧ fault = fun _ => none) →
      (storeStream (loggedTarget mk (locText (P ++ [f]))) fault startPos input
        ⟨t, []⟩).1.Within inside) :
    StoreInside mayFail inside (streamCourse mayFail startPos input t (locText (P ++ [f]))) t
      (locText (P ++ [f])) := by
  -- nothing fails but the look at the staging file, and what makes its directories
  have hrun : ∀ mk f', (mayFail ∨ mk = fun _ _ => none) → (mayFail ∨ f' = none) →
      (storeStream (loggedTarget mk (locText (P ++ [f]))) (statFault f') startPos input
        ⟨t, []⟩).1.Within inside := by
    intro mk f' hmk hf'
    refine hin mk (statFault f') ((or_and_left.mpr ⟨hmk, hf'⟩).imp_right ?_)
    rintro ⟨rfl, rfl⟩
    exact ⟨rfl, statFault_none⟩
  -- once the staging file is open
  have hopened : (streamCourse mayFail startPos input t (locText (P ++ [f]))).opens →
      ∀ K, OpensAt t (stagingPath (locText (P ++ [f]))) K →
      ∃ s i f', Opened t (locText (P ++ [f])) K s ∧
        (streamInput (loggedTarget (fun _ _ => none) (locText (P ++ [f]))) (statFault f') input s
          (i, K)).1.Within inside := by
    rintro ⟨hexists, r, hr, hj⟩ K hK
    obtain ⟨f', rfl, hf'⟩ := hr.attempt
    obtain ⟨s, i, hO, hs⟩ := exists_opened_stream hnames hK f' input
    refine ⟨s, i, f', hO, ?_⟩
    have hlog := hrun _ f' (Or.inr rfl) hf'
    rw [storeStream_opens hexists hj, hs] at hlog
    exact hlog
  refine ⟨⟨fun hopens K hK hor => ?_, fun hd L e hfind he => ?_, fun hb F hF => ?_⟩, ?_⟩
  · obtain ⟨s, i, f', hO, hlog⟩ := hopened hopens K hK
    refine hlog K (mem_log_streamInput ?_)
    rcases hor with hnone | ⟨b, rest, hinput⟩
    · exact mem_log_copyInput (hO.log hnone)
    · rw [hinput, copyInput]
      exact mem_log_copyInput (List.mem_cons_self ..)
  · rcases hd with ⟨hexists, r, hr, hj⟩ | ⟨hopens, -, K, hK⟩
    · obtain ⟨f', rfl, hf'⟩ := hr.attempt
      have hlog := hrun (fun _ _ => none) f' (Or.inr rfl) hf'
      rw [storeStream_drops hexists hj] at hlog
      exact hlog L (mem_log_discard hfind he)
    · obtain ⟨s, i, f', hO, hlog⟩ := hopened hopens K hK
      exact hlog L (hO.mem_log_dropped hfind he)
  · obtain ⟨hopens, hwhole, K, hK⟩ := hb
    obtain ⟨s, i, f', hO, hlog⟩ := hopened hopens K hK
    exact hlog F (hO.mem_log_linked hwhole
      (endsWithSep_locText (by simp) fun a ha => (hnames a ha).isSegment) hF)
  · rintro ⟨hexists, r, hr, hj⟩ p hp hcan
    obtain ⟨f', rfl, hf'⟩ := hr.attempt
    refine dirsInside_of_parents hnames (fun mk hmk L hL => ?_) hp hcan
    have hlog := hrun mk f' hmk hf'
    rw [storeStream_opens hexists hj] at hlog
    exact hlog L (mem_log_openAndStream rfl hL)

/-! ### `store_encrypted` -/

/-- Writes that do not fail are all made. -/
theorem writeChunks_all {ops : TargetOps Logged (Nat × Loc)} (k off : Nat) (chunks : List Bytes) :
    (writeChunks ops (existsFault f') h s k off chunks).2 = true := by
  induction chunks generalizing s k off with
  | nil => rfl
  | cons b rest ih => exact ih (k + 1) (off + b.length)

/-- The writes keep what is in the log, and the staging file open. -/
theorem mem_log_writeChunks {ops : TargetOps FileTree Nat} {staging : OsStr} (hL : L ∈ s.log)
    (chunks : List Bytes) :
    L ∈ (writeChunks (logged ops staging) (existsFault f') h s 0 0 chunks).1.log := by
  have hchunks : ∃ ws rest, [] ++ chunks = ws ++ rest ∧
      L ∈ (writeChunks (logged ops staging) (existsFault f') h s 0 0 chunks).1.log ∧ _ :=
    writeChunks_ind (J := fun _ s => L ∈ s.log)
      (fun _ _ _ hL => List.mem_cons_of_mem _ (List.mem_append_right _ hL)) chunks [] s 0 hL
  obtain ⟨-, -, -, hlog, -⟩ := hchunks
  exact hlog

theorem Opened.chunks (hO : Opened t final K s) (chunks : List Bytes) :
    Opened t final K
      (writeChunks (loggedTarget mk final) (existsFault f') (i, K) s 0 0 chunks).1 := by
  have hchunks : ∃ ws rest, [] ++ chunks = ws ++ rest ∧ Opened t final K
      (writeChunks (loggedTarget mk final) (existsFault f') (i, K) s 0 0 chunks).1 ∧ _ :=
    writeChunks_ind (J := fun _ s => Opened t final K s)
      (fun _ _ _ hs => hs.setData (i, K) _) chunks [] s 0 hO
  obtain ⟨-, -, -, hJ, -⟩ := hchunks
  exact hJ

/-- From the open on: the end of the store, if the encryption comes to its end. -/
theorem createAndEncrypt_opens {ops : TargetOps Logged (Nat × Loc)} {s₁ s₂ : Logged}
    (f' : Option Errno) (out : Encrypted) (hcreate : ops.createFile s₁ = .ok (s₂, h)) :
    let s₃ := (writeChunks ops (existsFault f') h s₂ 0 0 out.chunks).1
    (∀ n, out.outcome = .ok n → createAndEncrypt ops (existsFault f') out s₁ =
        finalize ops (EncryptSite.ofStore (existsFault f')) s₃ n) ∧
      ((∀ n, out.outcome ≠ .ok n) → (createAndEncrypt ops (existsFault f') out s₁).1 = s₃) := by
  intro s₃
  have hopen : attempt (existsFault f' .create) (ops.createFile s₁) = .ok (s₂, h) := hcreate
  have hall : (writeChunks ops (existsFault f') h s₂ 0 0 out.chunks).2 = true :=
    writeChunks_all 0 0 out.chunks
  have hwrite : writeChunks ops (existsFault f') h s₂ 0 0 out.chunks = (s₃, true) :=
    Prod.ext rfl hall
  unfold createAndEncrypt
  rw [hopen]
  simp only
  rw [hwrite]
  constructor
  · intro n hn
    rw [hn]
  · intro hn
    cases ho : out.outcome with
    | ok n => exact absurd ho (hn n)
    | error e => rfl

/-- What is in the log after the writes stays. -/
theorem mem_log_createAndEncrypt {ops : TargetOps FileTree Nat} {staging : OsStr} {s₁ s₂ : Logged}
    (hcreate : (logged ops staging).createFile s₁ = .ok (s₂, h)) (hL : L ∈ s₂.log) :
    L ∈ (createAndEncrypt (logged ops staging) (existsFault f') out s₁).1.log := by
  obtain ⟨hok, herr⟩ := createAndEncrypt_opens f' out hcreate
  by_cases hn : ∃ n, out.outcome = .ok n
  · obtain ⟨n, hn⟩ := hn
    rw [hok n hn]
    exact mem_log_finalize (mem_log_writeChunks hL _)
  · rw [herr (not_exists.mp hn)]
    exact mem_log_writeChunks hL _

/-- A store that does not see its final path there, and has its parents. -/
theorem storeEncrypted_opens {ops : TargetOps Logged (Nat × Loc)} {s₁ : Logged}
    (hexists : attempt f' (ops.tryExists s) ≠ .ok true)
    (hparents : ops.createParent s = (s₁, .ok ())) :
    storeEncrypted ops (existsFault f') out s = createAndEncrypt ops (existsFault f') out s₁ := by
  have hcheck : existsFault f' .exists = f' := rfl
  have hmake : makeParent ops (existsFault f' .createParent) s = (s₁, .ok ()) := hparents
  unfold storeEncrypted
  rw [hcheck, hmake]
  split
  · rename_i hthere
    exact absurd hthere hexists
  · rfl

/-- What the parents have logged stays. -/
theorem mem_log_storeEncrypted {ops : TargetOps FileTree Nat} {staging : OsStr}
    (hexists : attempt f' (ops.tryExists s.tree) ≠ .ok true)
    (hL : L ∈ ((logged ops staging).createParent s).1.log) :
    L ∈ (storeEncrypted (logged ops staging) (existsFault f') out s).1.log := by
  rcases hp : (logged ops staging).createParent s with ⟨s₁, r⟩
  rw [hp] at hL
  cases r with
  | error err =>
      have hcheck : existsFault f' .exists = f' := rfl
      have hmake : makeParent (logged ops staging) (existsFault f' .createParent) s =
          (s₁, .error err) := hp
      unfold storeEncrypted
      rw [hcheck, hmake]
      split
      · rename_i hthere
        exact absurd hthere hexists
      · exact hL
  | ok _ =>
      rw [storeEncrypted_opens hexists hp]
      cases hc : (logged ops staging).createFile s₁ with
      | error err =>
          have hopen : attempt (existsFault f' .create) ((logged ops staging).createFile s₁) =
              .error err := hc
          unfold createAndEncrypt
          rw [hopen]
          exact hL
      | ok r =>
          obtain ⟨s₂, h⟩ := r
          obtain ⟨⟨t', i⟩, -, he⟩ := map_eq_ok hc
          obtain ⟨rfl, -⟩ := Prod.mk.inj he
          exact mem_log_createAndEncrypt hc (List.mem_cons_of_mem _ (List.mem_append_right _ hL))

/-- A staging path that opens is emptied. -/
theorem exists_opened_encrypt (hnames : ∀ a ∈ P ++ [f], IsName a)
    (hK : OpensAt t (stagingPath (locText (P ++ [f]))) K) :
    ∃ s i, Opened t (locText (P ++ [f])) K s ∧ K ∈ s.log ∧
      (loggedTarget (fun _ _ => none) (locText (P ++ [f]))).createFile (Logged.bind ⟨t, []⟩ t) =
        .ok (s, i, K) := by
  obtain ⟨t', i, ho⟩ := openFile_of_opensAt (endsWithSep_staging hnames) hK
  obtain rfl : place t (stagingPath (locText (P ++ [f]))) = K := place_eq hK.1
  have hO := opened_of_openFile (s := Logged.bind ⟨t, []⟩ t) rfl ho
  refine ⟨(Logged.bind ⟨t, []⟩ t).write (t'.setData i [])
    (place t (stagingPath (locText (P ++ [f])))), i, ?_, List.mem_cons_self .., ?_⟩
  · exact ⟨hO.wrote.setData i [], hO.opens, hO.file, hO.entry, fun _ => List.mem_cons_self ..⟩
  · show (t.openTruncate (stagingPath (locText (P ++ [f])))).map _ = _
    rw [openTruncate, ho]
    rfl

/-- **A `store_encrypted` that stays inside** has the paths inside that it comes to. -/
theorem storeInside_of_encrypt (hnames : ∀ a ∈ P ++ [f], IsName a)
    (hin : ∀ mk fault, (mayFail ∨ (mk = fun _ _ => none) ∧ fault = fun _ => none) →
      (storeEncrypted (loggedTarget mk (locText (P ++ [f]))) fault out ⟨t, []⟩).1.Within inside) :
    StoreInside mayFail inside (encryptCourse mayFail out t (locText (P ++ [f]))) t
      (locText (P ++ [f])) := by
  -- nothing fails but the look at the final path, and what makes its directories
  have hrun : ∀ mk f', (mayFail ∨ mk = fun _ _ => none) → (mayFail ∨ f' = none) →
      (storeEncrypted (loggedTarget mk (locText (P ++ [f]))) (existsFault f') out
        ⟨t, []⟩).1.Within inside := by
    intro mk f' hmk hf'
    refine hin mk (existsFault f') ((or_and_left.mpr ⟨hmk, hf'⟩).imp_right ?_)
    rintro ⟨rfl, rfl⟩
    exact ⟨rfl, existsFault_none⟩
  -- once the staging file is open
  have hopened : (encryptCourse mayFail out t (locText (P ++ [f]))).opens →
      ∀ K, OpensAt t (stagingPath (locText (P ++ [f]))) K →
      ∃ s i f', Opened t (locText (P ++ [f])) K s ∧ K ∈ s.log ∧
        (loggedTarget (fun _ _ => none) (locText (P ++ [f]))).createFile (Logged.bind ⟨t, []⟩ t) =
          .ok (s, i, K) ∧
        (createAndEncrypt (loggedTarget (fun _ _ => none) (locText (P ++ [f]))) (existsFault f')
          out (Logged.bind ⟨t, []⟩ t)).1.Within inside := by
    rintro ⟨r, hr, hne⟩ K hK
    obtain ⟨f', rfl, hf'⟩ := hr.attempt
    obtain ⟨s, i, hO, hlogged, hs⟩ := exists_opened_encrypt hnames hK
    refine ⟨s, i, f', hO, hlogged, hs, ?_⟩
    have hlog := hrun _ f' (Or.inr rfl) hf'
    rw [storeEncrypted_opens hne (parents_there hnames hK)] at hlog
    exact hlog
  -- and at its end
  have hended : (encryptCourse mayFail out t (locText (P ++ [f]))).opens →
      (∃ n, out.outcome = .ok n) → (∃ K, OpensAt t (stagingPath (locText (P ++ [f]))) K) →
      ∃ s K f' n, Opened t (locText (P ++ [f])) K s ∧
        (finalize (loggedTarget (fun _ _ => none) (locText (P ++ [f])))
          (EncryptSite.ofStore (existsFault f')) s n).1.Within inside := by
    rintro hopens ⟨n, hn⟩ ⟨K, hK⟩
    obtain ⟨s, i, f', hO, -, hs, hlog⟩ := hopened hopens K hK
    rw [(createAndEncrypt_opens f' _ hs).1 n hn] at hlog
    exact ⟨_, K, f', n, hO.chunks _, hlog⟩
  refine ⟨⟨fun hopens K hK _ => ?_, fun hd L e hfind he => ?_, fun hb F hF => ?_⟩, ?_⟩
  · obtain ⟨s, i, f', -, hlogged, hs, hlog⟩ := hopened hopens K hK
    exact hlog K (mem_log_createAndEncrypt hs hlogged)
  · obtain ⟨hopens, hdrops, hK⟩ := hd.resolve_left id
    obtain ⟨s, K, f', n, hO, hlog⟩ := hended hopens hdrops hK
    exact hlog L (hO.drops rfl hfind he)
  · obtain ⟨hopens, hlinks, hK⟩ := hb
    obtain ⟨s, K, f', n, hO, hlog⟩ := hended hopens hlinks hK
    exact hlog F (hO.links rfl rfl
      (endsWithSep_locText (by simp) fun a ha => (hnames a ha).isSegment) hF)
  · rintro ⟨r, hr, hne⟩ p hp hcan
    obtain ⟨f', rfl, hf'⟩ := hr.attempt
    refine dirsInside_of_parents hnames (fun mk hmk L hL => ?_) hp hcan
    exact hrun mk f' hmk hf' L (mem_log_storeEncrypted hne hL)

end Store

end Reoftpd

import Reoftpd.RetentionExact

/-!
# The dry run

A sweep that only reports.  It looks at a tree that stays as it is, so it finds the files
that a real sweep of that tree would delete, but of the directories only those that are
empty already: a real sweep also prunes the ones it has emptied itself.

**A dry run predicts the real sweep** exactly when no directory below the root is emptied
by it: every directory that something lies in has a file at or below it that the sweep
keeps (`dry_run_predicts_iff`).
-/
namespace Reoftpd
open UnixPath FileTree

/-- A directory that nothing lies in, by the names `m` that lead to it. -/
def EmptyDir (t : FileTree) (R m : Loc) : Prop :=
  t.entry (R ++ m) = some .dir ∧ ∀ a, t.entry (R ++ (m ++ [a])) = none

/-- The report `r'` is `r` and what a dry run finds at the locations `A`. -/
def Finds (args : SweepArgs) (t : FileTree) (root : OsStr) (R : Loc) (A : Set Loc)
    (r r' : SweepReport) : Prop :=
  ∃ dl pl : List Loc,
    r' = ⟨r.deleted ++ dl.map (below root), r.prunedDirs ++ pl.map (below root)⟩ ∧
    (∀ m, m ∈ dl ↔ m ∈ A ∧ OldFile args t root R m) ∧ ∀ m, m ∈ pl ↔ m ∈ A ∧ EmptyDir t R m

/-- A step of a dry run from the report `r`: the tree stays, and the report gets what is
found at the locations `A`. -/
structure Previews (args : SweepArgs) (t : FileTree) (root : OsStr) (R : Loc) (A : Set Loc)
    (r : SweepReport) (out : Swept × Except Errno Unit) : Prop where
  tree : out.1.tree = t
  ok : out.2 = .ok ()
  found : Finds args t root R A r out.1.report

section Steps
variable {args : SweepArgs} {t : FileTree} {root : OsStr} {R l m : Loc} {a : OsStr}
  {A B : Set Loc} {r r' r'' : SweepReport} {out : Swept × Except Errno Unit} {s : Swept}

/-! ## What is found -/

theorem finds_nothing (hold : ∀ m ∈ A, ¬ OldFile args t root R m)
    (hempty : ∀ m ∈ A, ¬ EmptyDir t R m) : Finds args t root R A r r :=
  ⟨[], [], by simp, fun m => by simpa using hold m, fun m => by simpa using hempty m⟩

theorem Finds.trans (h : Finds args t root R A r r') (h' : Finds args t root R B r' r'') :
    Finds args t root R (A ∪ B) r r'' := by
  obtain ⟨dl, pl, rfl, hdl, hpl⟩ := h
  obtain ⟨dl', pl', rfl, hdl', hpl'⟩ := h'
  refine ⟨dl ++ dl', pl ++ pl', by simp, fun m => ?_, fun m => ?_⟩
  · rw [List.mem_append, hdl, hdl', Set.mem_union, or_and_right]
  · rw [List.mem_append, hpl, hpl', Set.mem_union, or_and_right]

/-- It makes no difference whether locations are looked at where nothing is. -/
theorem Finds.congr (h : Finds args t root R A r r')
    (hAB : ∀ m, t.entry (R ++ m) ≠ none → (m ∈ A ↔ m ∈ B)) : Finds args t root R B r r' := by
  obtain ⟨dl, pl, hr, hdl, hpl⟩ := h
  refine ⟨dl, pl, hr, fun m => (hdl m).trans ?_, fun m => (hpl m).trans ?_⟩
  · exact and_congr_left fun ⟨i, hi, _⟩ => hAB m (by simp [hi])
  · exact and_congr_left fun ⟨hdir, _⟩ => hAB m (by simp [hdir])

/-! ## The steps of a dry run -/

/-- **A file** is found if it is older than its limit. -/
theorem sweepFile_previews (hp : SweepPlace t root R) (hdry : args.dryRun = true) {i : Nat}
    (hf : t.entry (R ++ (l ++ [a])) = some (.file i)) :
    Previews args t root R {x | l ++ [a] <+: x} r
      (sweepFile args noSweepFault (fileName (below root l) = some quarantineDir)
        (below root (l ++ [a])) ⟨t, r⟩) := by
  have hnames : ∀ x ∈ l ++ [a], IsName x := fun x hx =>
    isName_of_entry (show t.entry (R ++ (l ++ [a])) ≠ none by rw [hf]; simp) x
      (List.mem_append_right R hx)
  have hfind : t.find true (below root (l ++ [a])) = .ok (R ++ (l ++ [a]), .file i) :=
    find_ok.mpr ⟨locate_below hp.leads hf (by simp), hf⟩
  have hold : olderThan noSweepFault t (below root (l ++ [a]))
      (fileTtl args (fileName (below root l) = some quarantineDir) (below root (l ++ [a])))
      args.now = true ↔ limit args root (l ++ [a]) < args.now - t.disk.modified i :=
    olderThan_below hnames rfl hfind
  -- at or below a file there is nothing but the file
  have honly : ∀ x, l ++ [a] <+: x → t.entry (R ++ x) ≠ none → x = l ++ [a] := by
    intro x hx hb
    by_contra hne
    exact hb (entry_below_file hf hx hne)
  have hempty : ∀ x ∈ {x | l ++ [a] <+: x}, ¬ EmptyDir t R x := by
    rintro x hx ⟨hdir, -⟩
    rw [honly x hx (by simp [hdir]), hf] at hdir
    cases hdir
  unfold sweepFile
  by_cases hlim : limit args root (l ++ [a]) < args.now - t.disk.modified i
  · rw [if_pos (hold.mpr hlim), hdry, if_pos rfl]
    refine ⟨rfl, rfl, [l ++ [a]], [], by simp, fun x => ?_, fun x => ?_⟩
    · rw [List.mem_singleton]
      constructor
      · rintro rfl
        exact ⟨List.prefix_rfl, (oldFile_file hf).mpr hlim⟩
      · rintro ⟨hx, j, hj, -⟩
        exact honly x hx (by simp [hj])
    · simpa using hempty x
  · rw [if_neg fun ho => hlim (hold.mp ho)]
    refine ⟨rfl, rfl, finds_nothing ?_ hempty⟩
    rintro x hx ⟨j, hj, hyoung⟩
    obtain rfl := honly x hx (by simp [hj])
    exact hlim ((oldFile_file hf).mp ⟨j, hj, hyoung⟩)

/-- **A directory the dry run comes back from** is found if nothing lies in it. -/
theorem pruneDir_previews (hp : SweepPlace t root R) (hdry : args.dryRun = true)
    (hdir : t.entry (R ++ (l ++ [a])) = some .dir) :
    Previews args t root R {l ++ [a]} r
      (pruneDir args noSweepFault (below root (l ++ [a])) ⟨t, r⟩) := by
  have hread : t.readDir (below root (l ++ [a])) = .ok (t.children (R ++ (l ++ [a]))) := by
    rw [FileTree.readDir, find_ok.mpr ⟨locate_below_dir hp.leads hdir, hdir⟩]
  have hnotold : ∀ x ∈ ({l ++ [a]} : Set Loc), ¬ OldFile args t root R x := by
    rintro _ rfl ⟨i, hi, -⟩
    rw [hdir] at hi
    cases hi
  have hchild : ∀ b, b ∈ t.children (R ++ (l ++ [a])) ↔
      t.entry (R ++ (l ++ [a] ++ [b])) ≠ none := fun b => by
    rw [mem_children, List.append_assoc]
  unfold pruneDir
  rw [noSweepFault, attempt_none, hread]
  -- what lies in the directory stays there in a dry run
  cases hc : t.children (R ++ (l ++ [a])) with
  | cons b rest =>
      refine ⟨rfl, rfl, finds_nothing hnotold ?_⟩
      rintro _ rfl ⟨-, hempty⟩
      exact (hchild b).mp (hc ▸ List.mem_cons_self ..) (hempty b)
  | nil =>
      have hempty : EmptyDir t R (l ++ [a]) := by
        refine ⟨hdir, fun b => ?_⟩
        by_contra hb
        have hmem := (hchild b).mpr hb
        rw [hc] at hmem
        cases hmem
      have hnext : nextIsNone (noSweepFault .firstEntry (below root (l ++ [a]))) [] = true := rfl
      simp only [hnext, if_true]
      refine ⟨?_, rfl, [], [l ++ [a]], by simp, fun x => ?_, fun x => ?_⟩
      · show (if args.dryRun then t else _) = t
        rw [hdry, if_pos rfl]
      · simpa using hnotold x
      · rw [List.mem_singleton]
        constructor
        · rintro rfl
          exact ⟨rfl, hempty⟩
        · exact And.left

/-- **An entry**, if `visitDir` previews what is in a directory. -/
theorem visitEntry_previews (hp : SweepPlace t root R) (hdry : args.dryRun = true)
    (hbound : t.entry (R ++ (l ++ [a])) ≠ none)
    {visitDir : OsStr → Swept → Swept × Except Errno Unit}
    (hvisit : t.entry (R ++ (l ++ [a])) = some .dir → ∀ r,
      Previews args t root R {x | l ++ [a] <+: x ∧ x ≠ l ++ [a]} r
        (visitDir (below root (l ++ [a])) ⟨t, r⟩)) :
    Previews args t root R {x | l ++ [a] <+: x} r
      (visitEntry args noSweepFault visitDir (fileName (below root l) = some quarantineDir)
        (below root (l ++ [a])) ⟨t, r⟩) := by
  obtain ⟨e, he⟩ := Option.ne_none_iff_exists'.mp hbound
  have hlink : ∀ target, e ≠ .link target := fun target hl => hp.noLinks _ target (hl ▸ he)
  have hfind : t.find false (below root (l ++ [a])) = .ok (R ++ (l ++ [a]), e) :=
    find_ok.mpr ⟨locate_below hp.leads he hlink, he⟩
  unfold visitEntry
  rw [noSweepFault, attempt_none, FileTree.symlinkMetadata, hfind]
  cases e with
  | link target => exact absurd rfl (hlink target)
  | file i => exact sweepFile_previews hp hdry he
  | dir =>
      have hin := hvisit he r
      rcases hv : visitDir (below root (l ++ [a])) ⟨t, r⟩ with ⟨⟨v, r'⟩, out⟩
      rw [hv] at hin
      obtain ⟨htree, hok, hfound⟩ := hin
      obtain rfl : v = t := htree
      obtain rfl : out = .ok () := hok
      -- the directory comes after what lies in it
      have hprune := pruneDir_previews (r := r') hp hdry he
      refine ⟨hprune.tree, hprune.ok, (hfound.trans hprune.found).congr fun x _ => ?_⟩
      constructor
      · rintro (⟨hx, -⟩ | rfl)
        · exact hx
        · exact List.prefix_rfl
      · intro hx
        by_cases hne : x = l ++ [a]
        · exact Or.inr hne
        · exact Or.inl ⟨hx, hne⟩

/-- **The entries of a directory**, one after the other. -/
theorem visitEntries_previews (hp : SweepPlace t root R) (hdry : args.dryRun = true)
    {names : List OsStr} (hbound : ∀ a ∈ names, t.entry (R ++ (l ++ [a])) ≠ none)
    {visitDir : OsStr → Swept → Swept × Except Errno Unit}
    (hvisit : ∀ a, t.entry (R ++ (l ++ [a])) = some .dir → ∀ r,
      Previews args t root R {x | l ++ [a] <+: x ∧ x ≠ l ++ [a]} r
        (visitDir (below root (l ++ [a])) ⟨t, r⟩)) :
    Previews args t root R {x | ∃ a ∈ names, l ++ [a] <+: x} r
      (visitEntries args noSweepFault visitDir (below root l) names ⟨t, r⟩) := by
  induction names generalizing r with
  | nil => exact ⟨rfl, rfl, finds_nothing (by simp) (by simp)⟩
  | cons a names ih =>
      have hentry := visitEntry_previews (r := r) hp hdry (hbound a (List.mem_cons_self ..))
        (hvisit a)
      have hnext : noSweepFault .nextEntry (below root (l ++ [a])) = none := rfl
      unfold visitEntries
      rw [← below_concat, hnext]
      simp only
      split
      · rename_i e hv
        rw [hv] at hentry
        cases hentry.ok
      · rename_i s hv
        obtain ⟨v, r'⟩ := s
        rw [hv] at hentry
        obtain rfl : v = t := hentry.tree
        have hrest := ih (r := r') fun b hb => hbound b (List.mem_cons_of_mem _ hb)
        refine ⟨hrest.tree, hrest.ok, (hentry.found.trans hrest.found).congr fun x _ => ?_⟩
        simp

/-- **A directory**: everything below it. -/
theorem visit_previews (hp : SweepPlace t root R) (hdry : args.dryRun = true) (fuel : Nat)
    (hfuel : nameCount t < fuel + l.length) (hdir : t.entry (R ++ l) = some .dir) :
    Previews args t root R {x | l <+: x ∧ x ≠ l} r
      (visit args noSweepFault fuel (below root l) ⟨t, r⟩) := by
  induction fuel generalizing l r with
  | zero =>
      have hlen : l.length < nameCount t :=
        length_lt_nameCount (show t.entry (R ++ l) ≠ none by simp [hdir])
      omega
  | succ fuel ih =>
      have hchild : ∀ a, a ∈ t.children (R ++ l) ↔ t.entry (R ++ (l ++ [a])) ≠ none := fun a => by
        rw [mem_children, List.append_assoc]
      unfold visit
      rw [noSweepFault, attempt_none, FileTree.readDir,
        find_ok.mpr ⟨locate_below_dir hp.leads hdir, hdir⟩]
      have hall : Previews args t root R {x | ∃ a ∈ t.children (R ++ l), l ++ [a] <+: x} r
          (visitEntries args noSweepFault (visit args noSweepFault fuel) (below root l)
            (t.children (R ++ l)) ⟨t, r⟩) :=
        visitEntries_previews hp hdry (fun a ha => (hchild a).mp ha)
          fun a hd r => ih (by rw [List.length_append]; simp; omega) hd
      exact ⟨hall.tree, hall.ok, hall.found.congr fun x hx => child_above hchild hx⟩

/-! ## A dry run changes nothing -/

section Frame
variable {fault : SweepFault} {path dir : OsStr}

theorem tree_sweepFile (hdry : args.dryRun = true) (inQuarantine : Bool) :
    (sweepFile args fault inQuarantine path s).1.tree = s.tree := by
  unfold sweepFile
  split
  · rfl
  · rfl

theorem tree_pruneDir (hdry : args.dryRun = true) :
    (pruneDir args fault path s).1.tree = s.tree := by
  unfold pruneDir
  split
  · rfl
  · simp only [hdry, if_true]
    split
    · rfl
    · rfl

theorem tree_visitEntry (hdry : args.dryRun = true)
    {visitDir : OsStr → Swept → Swept × Except Errno Unit}
    (hvisit : ∀ p s, (visitDir p s).1.tree = s.tree) (inQuarantine : Bool) :
    (visitEntry args fault visitDir inQuarantine path s).1.tree = s.tree := by
  unfold visitEntry
  split
  · rfl
  · split
    · have hin := hvisit path s
      split
      · rename_i hv
        rw [hv] at hin
        exact hin
      · rename_i hv
        rw [hv] at hin
        exact (tree_pruneDir hdry).trans hin
    · exact tree_sweepFile hdry inQuarantine

theorem tree_visitEntries (hdry : args.dryRun = true)
    {visitDir : OsStr → Swept → Swept × Except Errno Unit}
    (hvisit : ∀ p s, (visitDir p s).1.tree = s.tree) (names : List OsStr) :
    (visitEntries args fault visitDir dir names s).1.tree = s.tree := by
  induction names generalizing s with
  | nil => rfl
  | cons a names ih =>
      have hentry : (visitEntry args fault visitDir (fileName dir = some quarantineDir)
          (join dir a) s).1.tree = s.tree := tree_visitEntry hdry hvisit _
      unfold visitEntries
      split
      · rfl
      · split
        · rename_i hv
          rw [hv] at hentry
          exact hentry
        · rename_i hv
          rw [hv] at hentry
          exact ih.trans hentry

theorem tree_visit (hdry : args.dryRun = true) (fuel : Nat) (dir : OsStr) (s : Swept) :
    (visit args fault fuel dir s).1.tree = s.tree := by
  induction fuel generalizing dir s with
  | zero => rfl
  | succ fuel ih =>
      unfold visit
      split
      · rfl
      · exact tree_visitEntries hdry ih _

/-- **A dry run changes nothing**, whatever the tree and whatever fails. -/
theorem tree_sweep_dry (hdry : args.dryRun = true) (root : OsStr) (t : FileTree) :
    (sweep args fault root t).1 = t := by
  have hvisit : (visit args fault (nameCount t + 1) root ⟨t, ⟨[], []⟩⟩).1.tree = t :=
    tree_visit hdry _ root _
  unfold sweep
  split
  · rename_i hv
    rw [hv] at hvisit
    exact hvisit
  · rename_i hv
    rw [hv] at hvisit
    exact hvisit

end Frame

/-! ## What a dry run predicts -/

/-- **What a dry run reports**: the old files, and the directories that are empty. -/
theorem sweep_previews (hp : SweepPlace t root R) (hdry : args.dryRun = true) :
    ∃ dry, (sweep args noSweepFault root t).2 = .ok dry ∧
      Finds args t root R {x | x ≠ []} ⟨[], []⟩ dry := by
  have hdir : t.entry (R ++ []) = some .dir := by
    rw [List.append_nil]
    exact hp.dir
  have hvisit := visit_previews (r := ⟨[], []⟩) hp hdry (nameCount t + 1) (l := []) (by simp) hdir
  rw [below_nil] at hvisit
  unfold sweep
  split
  · rename_i s hv
    rw [hv] at hvisit
    exact ⟨_, rfl, hvisit.found.congr fun x _ => by simp⟩
  · rename_i s e hv
    rw [hv] at hvisit
    cases hvisit.ok

/-- The paths of two lists of bound locations are the same exactly when the locations are. -/
theorem same_paths_iff {l l' : List Loc} (hl : ∀ m ∈ l, t.entry (R ++ m) ≠ none)
    (hl' : ∀ m ∈ l', t.entry (R ++ m) ≠ none) :
    (∀ p, p ∈ l.map (below root) ↔ p ∈ l'.map (below root)) ↔ ∀ m, m ∈ l ↔ m ∈ l' := by
  have hname : ∀ m, t.entry (R ++ m) ≠ none → ∀ x ∈ m, IsName x := fun m hm x hx =>
    isName_of_entry hm x (List.mem_append_right R hx)
  constructor
  · intro h m
    constructor
    · intro hm
      obtain ⟨m', hm', he⟩ := List.mem_map.mp ((h _).mp (List.mem_map_of_mem hm))
      exact below_injective (hname m' (hl' m' hm')) (hname m (hl m hm)) he ▸ hm'
    · intro hm
      obtain ⟨m', hm', he⟩ := List.mem_map.mp ((h _).mpr (List.mem_map_of_mem hm))
      exact below_injective (hname m' (hl m' hm')) (hname m (hl' m hm)) he ▸ hm'
  · intro h p
    simp only [List.mem_map, h]

end Steps

/-- **A dry run predicts the real sweep exactly when that empties no directory.**  It
changes nothing and reports the files that the real sweep of the same tree deletes; and it
reports the directories that the real sweep prunes if and only if every directory below
the root that something lies in has a file at or below it that the sweep keeps. -/
theorem dry_run_predicts_iff (args : SweepArgs) (t : FileTree) (root : OsStr) (R : Loc)
    (real : SweepReport) (hp : SweepPlace t root R)
    (hreal : (sweep { args with dryRun := false } noSweepFault root t).2 = .ok real) :
    (∀ fault, (sweep { args with dryRun := true } fault root t).1 = t) ∧
    ∃ dry, (sweep { args with dryRun := true } noSweepFault root t).2 = .ok dry ∧
      (∀ p, p ∈ dry.deleted ↔ p ∈ real.deleted) ∧
      ((∀ p, p ∈ dry.prunedDirs ↔ p ∈ real.prunedDirs) ↔
        ∀ m, m ≠ [] → t.entry (R ++ m) = some .dir → t.children (R ++ m) ≠ [] →
          Kept args t root R m) := by
  refine ⟨fun fault => tree_sweep_dry rfl root t, ?_⟩
  -- both runs, by the locations they report
  have hdone := done_of_sweep hp rfl hreal
  obtain ⟨dl, pl, hrep, -, -, hdl, hpl⟩ := hdone.report
  obtain rfl : real = ⟨dl.map (below root), pl.map (below root)⟩ := hrep
  have hdry : ({ args with dryRun := true } : SweepArgs).dryRun = true := rfl
  obtain ⟨dry, hok, dl', pl', rfl, hdl', hpl'⟩ := sweep_previews hp hdry
  refine ⟨_, hok, ?_, ?_⟩
  · have hboundFile : ∀ m, OldFile args t root R m → t.entry (R ++ m) ≠ none := by
      rintro m ⟨i, hi, -⟩
      simp [hi]
    refine (same_paths_iff (fun m hm => hboundFile m ((hdl' m).mp hm).2)
      fun m hm => hboundFile m ((hdl m).mp hm).2).mpr fun m => ?_
    exact (hdl' m).trans (hdl m).symm
  · have hkept : ∀ m, t.entry (R ++ m) = some .dir →
        (EmptyDir t R m ↔ t.children (R ++ m) = []) := by
      intro m hdir
      rw [List.eq_nil_iff_forall_not_mem]
      simp only [mem_children, not_not, List.append_assoc]
      exact ⟨And.right, fun h => ⟨hdir, h⟩⟩
    -- a directory with nothing in it is pruned by both
    have hspares : ∀ m, t.entry (R ++ m) = some .dir → t.children (R ++ m) = [] →
        ¬ Kept args t root R m := by
      intro m hdir hnil hk
      obtain ⟨a, ha, -⟩ := (kept_dir hdir).mp hk
      have hmem : a ∈ t.children (R ++ m) := by
        rw [mem_children, List.append_assoc]
        exact ha
      rw [hnil] at hmem
      cases hmem
    refine (same_paths_iff (t := t) (R := R) (fun m hm => ?_) (fun m hm => ?_)).trans ?_
    · simp [((hpl' m).mp hm).2.1]
    · simp [((hpl m).mp hm).2.1]
    · constructor
      · intro h m hm hdir hchild
        by_contra hk
        have hmem : m ∈ pl' := (h m).mpr ((hpl m).mpr ⟨hm, hdir, hk⟩)
        exact hchild ((hkept m hdir).mp ((hpl' m).mp hmem).2)
      · intro h m
        rw [hpl', hpl]
        constructor
        · rintro ⟨hm, hempty⟩
          exact ⟨hm, hempty.1, hspares m hempty.1 ((hkept m hempty.1).mp hempty)⟩
        · rintro ⟨hm, hdir, hk⟩
          refine ⟨hm, (hkept m hdir).mpr ?_⟩
          by_contra hchild
          exact hk (h m hm hdir hchild)

/-! ## A directory with an old clip -/

/-- What a dry run of an archive with one old clip says of the real sweep. -/
theorem dry_run_clipYard :
    (∀ fault, (sweep { sweepAt50 with dryRun := true } fault [sep] clipYard).1 = clipYard) ∧
    ∃ dry, (sweep { sweepAt50 with dryRun := true } noSweepFault [sep] clipYard).2 = .ok dry ∧
      (∀ p, p ∈ dry.deleted ↔ p ∈ [ofString "/c/d/x"]) ∧
      ((∀ p, p ∈ dry.prunedDirs ↔ p ∈ [ofString "/c/d", ofString "/c"]) ↔
        ∀ m, m ≠ [] → clipYard.entry ([] ++ m) = some .dir → clipYard.children ([] ++ m) ≠ [] →
          Kept sweepAt50 clipYard [sep] [] m) :=
  dry_run_predicts_iff sweepAt50 clipYard [sep] []
    ⟨[ofString "/c/d/x"], [ofString "/c/d", ofString "/c"]⟩ clipYard_place (by decide +kernel)

/-- **The dry run misses the directories** that a real sweep empties and prunes. -/
theorem dry_run_misses_prunes :
    (sweep { sweepAt50 with dryRun := false } noSweepFault [sep] clipYard).2 =
        .ok ⟨[ofString "/c/d/x"], [ofString "/c/d", ofString "/c"]⟩ ∧
      (sweep { sweepAt50 with dryRun := true } noSweepFault [sep] clipYard).2 =
        .ok ⟨[ofString "/c/d/x"], []⟩ := by
  decide +kernel

end Reoftpd

import Reoftpd.RetentionExact

/-!
# What any sweep leaves

A sweep whose calls may fail, of a directory that links may lie in.  It goes into the
directories that lie below its root, not into those that a link leads to, so what it
removes lies below its root, and a regular file it removes is older than its limit.  What
carries this is that the sweep only takes names away: what a path leads to on the way, it
led to in the tree the sweep began with (`Shrunk.find`).

**A sweep keeps what it is to keep** (`sweep_spared`): every file that is not too old, and
with it the directories above.
-/
namespace Reoftpd
open UnixPath FileTree

/-- The tree `v` is `t` without some of the names strictly below `R`, but with every name
that a file lies at or below that the sweep keeps. -/
structure Spared (args : SweepArgs) (t : FileTree) (root : OsStr) (R : Loc) (v : FileTree) : Prop
    extends Shrunk t R v where
  keeps : ∀ m, Kept args t root R m → v.entry (R ++ m) = t.entry (R ++ m)

section Sweep
variable {args : SweepArgs} {t v : FileTree} {root dir : OsStr} {R L A : Loc} {l m : Loc}
  {a : OsStr} {e : Entry OsStr} {fault : SweepFault} {followLast : Bool} {s : Swept}

/-- What a path leads to in what is left, it led to before. -/
theorem Shrunk.find (h : Shrunk t R v) {path : OsStr}
    (hf : v.find followLast path = .ok (L, e)) : t.find followLast path = .ok (L, e) := by
  obtain ⟨hL, he⟩ := find_ok.mp hf
  have hmore : ∀ M x, v.entry M = some x → t.entry M = some x := fun M x hx => by
    rw [← h.entry_eq (by simp [hx]), hx]
  exact find_ok.mpr ⟨locate_bound h.cwd.symm hmore hL (by simp [he]), hmore L e he⟩

/-- A name in a directory leads into it, unless it is a link's that is followed. -/
theorem locate_child (hne : dir ≠ []) (hA : t.locate true dir = .ok A) (ha : IsName a)
    (hlink : followLast = false ∨ ∀ target, t.entry (A ++ [a]) ≠ some (.link target))
    (h : t.locate followLast (join dir a) = .ok L) : L = A ++ [a] := by
  obtain ⟨A', n, hA', -, hw⟩ := locate_join_ok hne ha h
  obtain rfl : A = A' := Except.ok.inj (hA.symm.trans hA')
  rcases walk_cons_ok hw with ⟨hdot, -⟩ | ⟨hdotdot, -⟩ | ⟨-, hstep⟩
  · exact absurd hdot ha.2.2.1
  · exact absurd hdotdot ha.2.2.2
  · rcases hstep with ⟨-, hnil⟩ | ⟨target, -, hl, -, hlast, -⟩ | ⟨-, hL, -⟩
    · exact (Except.ok.inj (walk_nil.symm.trans hnil)).symm
    · rcases hlink with hf | hno
      · exact absurd ⟨rfl, hf⟩ hlast
      · exact absurd hl (hno target)
    · exact hL

/-- What counts as old was found, and was last written too long ago. -/
theorem olderThan_ok {path : OsStr} {ttl now : Nat} (h : olderThan fault v path ttl now = true) :
    ∃ L e, v.find true path = .ok (L, e) ∧ ttl < now - (v.statOf e).modified := by
  unfold olderThan at h
  split at h
  · rename_i stat hstat
    have hmeta : v.metadata path = .ok stat := (attempt_ok hstat).2
    unfold FileTree.metadata at hmeta
    split at hmeta
    · rename_i L e hf
      obtain rfl := Except.ok.inj hmeta
      split at h
      · exact ⟨L, e, hf, of_decide_eq_true h⟩
      · cases h
    · cases hmeta
  · cases h

/-- The sweep's path for the directory that the names `l` lead to from the root leads
there. -/
def At (t : FileTree) (root : OsStr) (R l : Loc) : Prop :=
  t.find true (below root l) = .ok (R ++ l, .dir)

namespace Spared

theorem refl (args : SweepArgs) (t : FileTree) (root : OsStr) (R : Loc) : Spared args t root R t :=
  ⟨.refl t R, fun _ _ => rfl⟩

/-- What the sweep finds by its path for a name in a directory is what lies there. -/
theorem find_eq (h : Spared args t root R v) (hat : At t root R l) (ha : IsName a)
    (hlink : followLast = false ∨ ∀ target, t.entry (R ++ (l ++ [a])) ≠ some (.link target))
    (hf : v.find followLast (below root (l ++ [a])) = .ok (L, e)) :
    L = R ++ (l ++ [a]) ∧ t.entry (R ++ (l ++ [a])) = some e := by
  obtain ⟨hL, he⟩ := find_ok.mp (h.toShrunk.find hf)
  obtain ⟨hA, -⟩ := find_ok.mp hat
  rw [below_concat] at hL
  rw [← List.append_assoc] at hlink ⊢
  obtain rfl := locate_child (locateSteps_ok hA).1 hA ha hlink hL
  exact ⟨rfl, he⟩

/-- A name goes that no file to keep lies at or below. -/
theorem erase (h : Spared args t root R v) (hm : m ≠ []) (hk : ¬ Kept args t root R m) :
    Spared args t root R (v.eraseAt (R ++ m)) := by
  have hself : (v.eraseAt (R ++ m)).entry (R ++ m) = none ∨
      (v.eraseAt (R ++ m)).entry (R ++ m) = v.entry (R ++ m) := by
    by_cases hc : v.Childless (R ++ m)
    · exact Or.inl (entry_eraseAt_self hc)
    · right
      rw [eraseAt, dif_neg hc]
  refine ⟨h.toShrunk.of_entry hm hself (fun _ => entry_eraseAt_ne) cwd_eraseAt data_eraseAt
    sameContents_eraseAt.modified, fun m' hk' => ?_⟩
  have hne : R ++ m' ≠ R ++ m := fun he => hk (List.append_cancel_left he ▸ hk')
  rw [entry_eraseAt_ne hne, h.keeps m' hk']

/-- Nothing that the sweep keeps lies at or below a link. -/
theorem not_kept_link {target : OsStr} (hl : t.entry (R ++ m) = some (.link target)) :
    ¬ Kept args t root R m := by
  rintro ⟨m', i, hi, -⟩
  by_cases hm' : m' = []
  · subst hm'
    rw [List.append_nil, hl] at hi
    cases hi
  · have hpre : R ++ m <+: R ++ (m ++ m') := by
      rw [← List.append_assoc]
      exact List.prefix_append ..
    have hdir : t.entry (R ++ m) = some .dir := dir_above hpre (by simpa using hm') (by simp [hi])
    rw [hl] at hdir
    cases hdir

/-- **A file** that goes is older than its limit. -/
theorem sweepFile (hat : At t root R l) (h : Spared args t root R s.tree) (ha : IsName a) :
    Spared args t root R
      (Reoftpd.sweepFile args fault (fileName (below root l) = some quarantineDir)
      (below root (l ++ [a])) s).1.tree := by
  unfold Reoftpd.sweepFile
  split
  · rename_i hold
    split
    · exact h
    · split
      · rename_i t' hrm
        obtain ⟨L, e, hL, he, hdir, rfl⟩ := removeFile_ok (attempt_ok hrm).2
        obtain ⟨rfl, hte⟩ := h.find_eq hat ha (Or.inl rfl) (find_ok.mpr ⟨hL, he⟩)
        refine h.erase (by simp) ?_
        cases e with
        | dir => cases hdir
        | link target => exact not_kept_link hte
        | file i =>
            -- the file removed is the one whose age was read
            obtain ⟨L, e, hf, hage⟩ := olderThan_ok hold
            obtain ⟨-, hte'⟩ := h.find_eq hat ha (Or.inr (by simp [hte])) hf
            obtain rfl : e = .file i := Option.some.inj (hte'.symm.trans hte)
            have hmod : (s.tree.statOf (.file i)).modified = t.disk.modified i := by
              rw [← h.modified]
              rfl
            have hnames : ∀ x ∈ l ++ [a], IsName x := fun x hx =>
              isName_of_entry (show t.entry (R ++ (l ++ [a])) ≠ none by rw [hte]; simp) x
                (List.mem_append_right R hx)
            rw [hmod, below_concat, fileTtl_below args root hnames] at hage
            exact fun hk => (kept_file hte).mp hk hage
      · exact h
  · exact h

/-- **A directory** that goes has nothing in it, so nothing to keep. -/
theorem pruneDir (hat : At t root R l) (h : Spared args t root R s.tree) (ha : IsName a) :
    Spared args t root R (Reoftpd.pruneDir args fault (below root (l ++ [a])) s).1.tree := by
  -- a directory is only removed if nothing lies in it
  have hdiscard : Spared args t root R
      (discardDir fault (below root (l ++ [a])) s.tree) := by
    unfold discardDir
    split
    · rename_i t' hrm
      obtain ⟨L, hL, hdir, hc, rfl⟩ := removeDir_ok (attempt_ok hrm).2
      obtain ⟨rfl, htdir⟩ := h.find_eq hat ha (Or.inl rfl) (find_ok.mpr ⟨hL, hdir⟩)
      refine h.erase (by simp) fun hk => ?_
      obtain ⟨b, hb, hkb⟩ := (kept_dir htdir).mp hk
      have hchild : b ∈ s.tree.children (R ++ (l ++ [a])) := by
        rw [mem_children, List.append_assoc, h.keeps _ hkb]
        exact hb
      rw [hc.2] at hchild
      cases hchild
    · exact h
  unfold Reoftpd.pruneDir
  split
  · exact h
  · split
    · show Spared args t root R
        (if args.dryRun then s.tree else discardDir fault (below root (l ++ [a])) s.tree)
      split
      · exact h
      · exact hdiscard
    · exact h

/-- **An entry**, if `visitDir` spares what is to be kept. -/
theorem visitEntry (hat : At t root R l) (h : Spared args t root R s.tree) (ha : IsName a)
    {visitDir : OsStr → Swept → Swept × Except Errno Unit}
    (hvisit : At t root R (l ++ [a]) → ∀ s, Spared args t root R s.tree →
      Spared args t root R (visitDir (below root (l ++ [a])) s).1.tree) :
    Spared args t root R (Reoftpd.visitEntry args fault visitDir
      (fileName (below root l) = some quarantineDir) (below root (l ++ [a])) s).1.tree := by
  unfold Reoftpd.visitEntry
  split
  · exact h
  · rename_i ft hft
    split
    · rename_i hdir
      -- a directory by its own type is no link, so the path for it leads there
      have hbelow : At t root R (l ++ [a]) := by
        have hmeta := (attempt_ok hft).2
        unfold FileTree.symlinkMetadata at hmeta
        split at hmeta
        · rename_i L e hf
          obtain rfl := Except.ok.inj hmeta
          obtain rfl : e = .dir := by
            cases e with
            | dir => rfl
            | file i => cases hdir
            | link target => cases hdir
          obtain ⟨rfl, hte⟩ := h.find_eq hat ha (Or.inl rfl) hf
          obtain ⟨hL, -⟩ := find_ok.mp (h.toShrunk.find hf)
          exact find_ok.mpr ⟨locate_follow hL (by simp [hte]), hte⟩
        · cases hmeta
      have hin := hvisit hbelow s h
      split
      · rename_i hv
        rw [hv] at hin
        exact hin
      · rename_i hv
        rw [hv] at hin
        exact hin.pruneDir hat ha
    · exact h.sweepFile hat ha

/-- **The entries of a directory**, one after the other. -/
theorem visitEntries (hat : At t root R l) {names : List OsStr} (hnames : ∀ a ∈ names, IsName a)
    {visitDir : OsStr → Swept → Swept × Except Errno Unit}
    (hvisit : ∀ a, At t root R (l ++ [a]) → ∀ s, Spared args t root R s.tree →
      Spared args t root R (visitDir (below root (l ++ [a])) s).1.tree)
    (h : Spared args t root R s.tree) :
    Spared args t root R
      (Reoftpd.visitEntries args fault visitDir (below root l) names s).1.tree := by
  induction names generalizing s with
  | nil => exact h
  | cons a names ih =>
      have hentry : Spared args t root R (Reoftpd.visitEntry args fault visitDir
          (fileName (below root l) = some quarantineDir) (below root (l ++ [a])) s).1.tree :=
        h.visitEntry hat (hnames a (List.mem_cons_self ..)) (hvisit a)
      unfold Reoftpd.visitEntries
      rw [← below_concat]
      split
      · exact h
      · split
        · rename_i hv
          rw [hv] at hentry
          exact hentry
        · rename_i hv
          rw [hv] at hentry
          exact ih (fun b hb => hnames b (List.mem_cons_of_mem _ hb)) hentry

end Spared

/-- **A directory**, and everything below it. -/
theorem visit_spared (hat : At t root R l) (fuel : Nat) (h : Spared args t root R s.tree) :
    Spared args t root R (visit args fault fuel (below root l) s).1.tree := by
  induction fuel generalizing l s with
  | zero => exact h
  | succ fuel ih =>
      unfold visit
      split
      · exact h
      · rename_i names hread
        obtain ⟨A, -, -, rfl⟩ := readDir_ok (attempt_ok hread).2
        have hnames : ∀ a ∈ s.tree.children A, IsName a := fun a ha =>
          isName_of_entry (s.tree.mem_children.mp ha) a (by simp)
        exact Spared.visitEntries hat hnames (fun a hbelow s hs => ih hbelow hs) h

/-- **A sweep keeps what it is to keep**, whatever fails on its way. -/
theorem sweep_spared (hroot : t.locate true root = .ok R) (hdir : t.entry R = some .dir) :
    Spared args t root R (sweep args fault root t).1 := by
  have hat : At t root R [] := by
    refine find_ok.mpr ⟨?_, ?_⟩
    · rw [below_nil, List.append_nil]
      exact hroot
    · rw [List.append_nil]
      exact hdir
  have hvisit : Spared args t root R
      (visit args fault (nameCount t + 1) (below root []) ⟨t, ⟨[], []⟩⟩).1.tree :=
    visit_spared hat _ (.refl args t root R)
  rw [below_nil] at hvisit
  unfold sweep
  split
  · rename_i hv
    rw [hv] at hvisit
    exact hvisit
  · rename_i hv
    rw [hv] at hvisit
    exact hvisit

/-- A sweep that does not find its root does nothing. -/
theorem sweep_lost (h : ∀ R, t.locate true root = .ok R → t.entry R ≠ some .dir) :
    (sweep args fault root t).1 = t := by
  unfold sweep visit
  cases hread : attempt (fault .readDir root) (t.readDir root) with
  | error e => simp
  | ok names =>
      obtain ⟨R, hR, hdir, -⟩ := readDir_ok (attempt_ok hread).2
      exact absurd hdir (h R hR)

end Sweep

end Reoftpd

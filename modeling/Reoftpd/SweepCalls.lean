import Reoftpd.Runs
import Reoftpd.SweepSpares

/-!
# The sweep, one call at a time

`reoftpd cleanup` runs beside the server, so between two calls of its sweep the tree may have
become another one.  Here every call that looks at the tree or changes it is a step of its
own (`sweepStep`): what the sweep remembers in between is the directories it is in, the
names it still has to look at there, and what it has reported.

Left alone, it does what `sweep` does, whatever fails on its way (`sweep_alone`).
-/
namespace Reoftpd
open UnixPath FileTree Runs

/-- A directory a sweep is in, and the names it has not come to. -/
structure SweepFrame where
  dir : OsStr
  names : List OsStr

/-- How far a sweep has come: the call it makes next, at a path, and the directories it is
in, innermost first; or what it returned. -/
inductive SweepPc where
  | call (site : SweepSite) (path : OsStr) (above : List SweepFrame)
  | done (r : Except Errno Unit)

/-- Where a sweep goes on: it asks the innermost directory for its next name. -/
def SweepPc.next : List SweepFrame → SweepPc
  | [] => .done (.ok ())
  | ⟨dir, name :: rest⟩ :: above => .call .nextEntry (join dir name) (⟨dir, name :: rest⟩ :: above)
  | ⟨dir, []⟩ :: above => .call .noEntry dir (⟨dir, []⟩ :: above)

/-- Where it goes on with the answer: at that name or, when there is none left, at the check
whether the directory is empty now.  The root is not checked. -/
def SweepPc.entry : List SweepFrame → SweepPc
  | [] => .done (.ok ())
  | ⟨dir, name :: rest⟩ :: above => .call .fileType (join dir name) (⟨dir, rest⟩ :: above)
  | [⟨_, []⟩] => .done (.ok ())
  | ⟨dir, []⟩ :: above => .call .reread dir above

/-- A sweep on its way, apart from the tree. -/
structure Sweeping where
  pc : SweepPc
  report : SweepReport

/-- The sweep goes on, with the report it has. -/
def Sweeping.go (p : Sweeping) (pc : SweepPc) : Sweeping := { p with pc }

/-- The sweep returns an error. -/
def Sweeping.stop (p : Sweeping) (e : Errno) : Sweeping := { p with pc := .done (.error e) }

/-- A sweep about to begin. -/
def Sweeping.start (root : OsStr) : Sweeping := ⟨.call .readDir root [], ⟨[], []⟩⟩

/-- Whether the innermost directory is named as the quarantine. -/
def inQuarantine : List SweepFrame → Bool
  | [] => false
  | frame :: _ => fileName frame.dir = some quarantineDir

/-- **One call of a sweep**, which fails with `f` if there is one.  A call of `next` delivers what
the innermost directory has then. -/
def sweepStep (args : SweepArgs) (t : FileTree) (p : Sweeping) (f : Option Errno) :
    FileTree × Sweeping :=
  match p.pc with
  | .done _ => (t, p)
  | .call .readDir path above =>
      match attempt f (t.readDir path) with
      | .error e => (t, p.stop e)
      | .ok names => (t, p.go (.next (⟨path, names⟩ :: above)))
  | .call .nextEntry _ dirs | .call .noEntry _ dirs =>
      match f with
      | some e => (t, p.stop e)
      | none => (t, p.go (.entry dirs))
  | .call .fileType path above =>
      match attempt f (t.symlinkMetadata path) with
      | .error e => (t, p.stop e)
      | .ok ft => (t, p.go (.call (if ft.isDir then .readDir else .stat) path above))
  | .call .stat path above =>
      if olderThan (fun _ _ => f) t path (fileTtl args (inQuarantine above) path) args.now then
        (t, { pc := if args.dryRun then .next above else .call .removeFile path above
              report := { p.report with deleted := p.report.deleted ++ [path] } })
      else (t, p.go (.next above))
  | .call .removeFile path above =>
      match attempt f (t.removeFile path) with
      | .ok t' => (t', p.go (.next above))
      | .error e => (t, p.stop e)
  | .call .reread path above =>
      match attempt f (t.readDir path) with
      | .error e => (t, p.stop e)
      | .ok names => (t, p.go (.call .firstEntry path (⟨path, names⟩ :: above)))
  | .call .firstEntry path (frame :: above) =>
      if nextIsNone f frame.names then
        (t, { pc := if args.dryRun then .next above else .call .removeDir path above
              report := { p.report with prunedDirs := p.report.prunedDirs ++ [path] } })
      else (t, p.go (.next above))
  | .call .firstEntry _ [] => (t, p)  -- the directory asked is always there
  | .call .removeDir path above => (discardDir (fun _ _ => f) path t, p.go (.next above))

/-- The error the next call fails with by itself, if there is one. -/
def SweepPc.fault (fault : SweepFault) : SweepPc → Option Errno
  | .call site path _ => fault site path
  | .done _ => none

/-- A sweep left alone. -/
def aloneStep (args : SweepArgs) (fault : SweepFault) (x : FileTree × Sweeping) :
    FileTree × Sweeping :=
  sweepStep args x.1 x.2 (x.2.pc.fault fault)

/-- What a part of a sweep leads to that goes on at `pc`, unless it fails. -/
def Swept.resumed (pc : SweepPc) : Swept × Except Errno Unit → FileTree × Sweeping
  | (s, .ok ()) => (s.tree, ⟨pc, s.report⟩)
  | (s, .error e) => (s.tree, ⟨.done (.error e), s.report⟩)

section Alone
variable {args : SweepArgs} {fault : SweepFault} {t : FileTree} {root path dir : OsStr} {R l : Loc}
  {a : OsStr} {s : Swept} {above : List SweepFrame}

/-- **A file**, from its `older_than` on. -/
theorem leads_sweepFile : Leads (aloneStep args fault) (s.tree, ⟨.call .stat path above, s.report⟩)
    (Swept.resumed (.next above) (sweepFile args fault (inQuarantine above) path s)) := by
  have hstat : aloneStep args fault (s.tree, ⟨.call .stat path above, s.report⟩) =
      if olderThan fault s.tree path (fileTtl args (inQuarantine above) path) args.now then
        (s.tree, ⟨if args.dryRun then .next above else .call .removeFile path above,
          { s.report with deleted := s.report.deleted ++ [path] }⟩)
      else (s.tree, ⟨.next above, s.report⟩) := rfl
  unfold sweepFile
  split
  · rename_i hold
    rw [if_pos hold] at hstat
    split
    · rename_i hdry
      rw [if_pos hdry] at hstat
      exact .succ hstat (.refl _ _)
    · rename_i hwet
      rw [if_neg hwet] at hstat
      refine .succ hstat (.succ ?_ (.refl _ _))
      simp only [aloneStep, SweepPc.fault, sweepStep]
      cases attempt (fault .removeFile path) (s.tree.removeFile path) <;> rfl
  · rename_i hold
    rw [if_neg hold] at hstat
    exact .succ hstat (.refl _ _)

/-- **A directory it comes back from.** -/
theorem leads_pruneDir : Leads (aloneStep args fault)
    (s.tree, ⟨.call .reread path above, s.report⟩)
    (Swept.resumed (.next above) (pruneDir args fault path s)) := by
  have hreread : aloneStep args fault (s.tree, ⟨.call .reread path above, s.report⟩) =
      match attempt (fault .reread path) (s.tree.readDir path) with
      | .error e => (s.tree, ⟨.done (.error e), s.report⟩)
      | .ok names =>
          (s.tree, ⟨.call .firstEntry path (⟨path, names⟩ :: above), s.report⟩) := rfl
  unfold pruneDir
  split
  · rename_i e h
    rw [h] at hreread
    exact .succ hreread (.refl _ _)
  · rename_i names h
    rw [h] at hreread
    have hfirst : aloneStep args fault
          (s.tree, ⟨.call .firstEntry path (⟨path, names⟩ :: above), s.report⟩) =
        if nextIsNone (fault .firstEntry path) names then
          (s.tree, ⟨if args.dryRun then .next above else .call .removeDir path above,
            { s.report with prunedDirs := s.report.prunedDirs ++ [path] }⟩)
        else (s.tree, ⟨.next above, s.report⟩) := rfl
    refine .succ hreread (.succ hfirst ?_)
    split
    · by_cases hdry : args.dryRun
      · simp only [hdry, if_true]
        exact .refl _ _
      · simp only [hdry, Bool.false_eq_true, if_false]
        exact .succ rfl (.refl _ _)
    · exact .refl _ _

/-- What is a directory by its own type, the path for it leads to. -/
theorem at_of_isDir (hat : At t root R l) (h : Spared args t root R s.tree) (ha : IsName a)
    {ft : FileStat} (hft : s.tree.symlinkMetadata (below root (l ++ [a])) = .ok ft)
    (hdir : ft.isDir = true) : At t root R (l ++ [a]) := by
  unfold FileTree.symlinkMetadata at hft
  split at hft
  · rename_i L e hf
    obtain rfl := Except.ok.inj hft
    obtain rfl : e = .dir := by
      cases e with
      | dir => rfl
      | file i => cases hdir
      | link target => cases hdir
    obtain ⟨rfl, hte⟩ := h.find_eq hat ha (Or.inl rfl) hf
    obtain ⟨hL, -⟩ := find_ok.mp (h.toShrunk.find hf)
    exact find_ok.mpr ⟨locate_follow hL (by simp [hte]), hte⟩
  · cases hft

/-- **An entry**, if `visitDir` goes through a directory. -/
theorem leads_visitEntry (hat : At t root R l) (h : Spared args t root R s.tree) (ha : IsName a)
    {visitDir : OsStr → Swept → Swept × Except Errno Unit} {rest : List OsStr}
    (hvisit : At t root R (l ++ [a]) → ∀ above, Leads (aloneStep args fault)
      (s.tree, ⟨.call .readDir (below root (l ++ [a])) above, s.report⟩)
      (Swept.resumed (.entry (⟨below root (l ++ [a]), []⟩ :: above))
        (visitDir (below root (l ++ [a])) s))) :
    Leads (aloneStep args fault)
      (s.tree, ⟨.call .fileType (below root (l ++ [a])) (⟨below root l, rest⟩ :: above), s.report⟩)
      (Swept.resumed (.next (⟨below root l, rest⟩ :: above)) (visitEntry args fault visitDir
        (fileName (below root l) = some quarantineDir) (below root (l ++ [a])) s)) := by
  have htype : aloneStep args fault (s.tree, ⟨.call .fileType (below root (l ++ [a]))
        (⟨below root l, rest⟩ :: above), s.report⟩) =
      match attempt (fault .fileType (below root (l ++ [a])))
          (s.tree.symlinkMetadata (below root (l ++ [a]))) with
      | .error e => (s.tree, ⟨.done (.error e), s.report⟩)
      | .ok ft => (s.tree, ⟨.call (if ft.isDir then .readDir else .stat) (below root (l ++ [a]))
          (⟨below root l, rest⟩ :: above), s.report⟩) := rfl
  unfold visitEntry
  split
  · rename_i e hft
    rw [hft] at htype
    exact .succ htype (.refl _ _)
  · rename_i ft hft
    rw [hft] at htype
    refine .succ htype ?_
    by_cases hdir : ft.isDir = true
    · simp only [if_pos hdir]
      refine .trans (hvisit (at_of_isDir hat h ha (attempt_ok hft).2 hdir) _) ?_
      split
      · rename_i s' e hv
        rw [hv]
        exact .refl _ _
      · rename_i s' hv
        rw [hv]
        exact leads_pruneDir
    · simp only [if_neg hdir]
      exact leads_sweepFile

/-- **The entries of a directory**, one after the other. -/
theorem leads_visitEntries (hat : At t root R l) {names : List OsStr}
    (hnames : ∀ a ∈ names, IsName a) {visitDir : OsStr → Swept → Swept × Except Errno Unit}
    (hspares : ∀ a, At t root R (l ++ [a]) → ∀ s, Spared args t root R s.tree →
      Spared args t root R (visitDir (below root (l ++ [a])) s).1.tree)
    (hvisit : ∀ a, At t root R (l ++ [a]) → ∀ s, Spared args t root R s.tree → ∀ above,
      Leads (aloneStep args fault)
        (s.tree, ⟨.call .readDir (below root (l ++ [a])) above, s.report⟩)
        (Swept.resumed (.entry (⟨below root (l ++ [a]), []⟩ :: above))
          (visitDir (below root (l ++ [a])) s)))
    (h : Spared args t root R s.tree) :
    Leads (aloneStep args fault)
      (s.tree, ⟨.next (⟨below root l, names⟩ :: above), s.report⟩)
      (Swept.resumed (.entry (⟨below root l, []⟩ :: above))
        (visitEntries args fault visitDir (below root l) names s)) := by
  induction names generalizing s with
  | nil =>
      refine .succ ?_ (.refl _ _)
      simp only [aloneStep, SweepPc.next, SweepPc.fault, sweepStep, visitEntries]
      cases fault .noEntry (below root l) <;> rfl
  | cons a names ih =>
      have ha := hnames a (List.mem_cons_self ..)
      have hentry : Spared args t root R (visitEntry args fault visitDir
          (fileName (below root l) = some quarantineDir) (below root (l ++ [a])) s).1.tree :=
        h.visitEntry hat ha (hspares a)
      have hnext : aloneStep args fault
            (s.tree, ⟨.next (⟨below root l, a :: names⟩ :: above), s.report⟩) =
          match fault .nextEntry (join (below root l) a) with
          | some e => (s.tree, ⟨.done (.error e), s.report⟩)
          | none => (s.tree, ⟨.call .fileType (join (below root l) a)
              (⟨below root l, names⟩ :: above), s.report⟩) := rfl
      unfold visitEntries
      split
      · rename_i e hf
        rw [hf] at hnext
        exact .succ hnext (.refl _ _)
      · rename_i hf
        rw [hf] at hnext
        refine .succ hnext ?_
        rw [← below_concat]
        refine .trans (leads_visitEntry hat h ha fun hbelow => hvisit a hbelow s h) ?_
        split
        · rename_i s' e hv
          rw [hv]
          exact .refl _ _
        · rename_i s' hv
          rw [hv] at hentry ⊢
          exact ih (fun b hb => hnames b (List.mem_cons_of_mem _ hb)) hentry

/-- **A directory**, and everything below it. -/
theorem leads_visit (hat : At t root R l) (fuel : Nat) (hfuel : nameCount t ≤ fuel + l.length)
    (h : Spared args t root R s.tree) :
    Leads (aloneStep args fault) (s.tree, ⟨.call .readDir (below root l) above, s.report⟩)
      (Swept.resumed (.entry (⟨below root l, []⟩ :: above))
        (visit args fault fuel (below root l) s)) := by
  induction fuel generalizing l s above with
  | zero =>
      -- there are not that many directories one in another
      have hbound : t.entry (R ++ l) ≠ none := by
        rw [(find_ok.mp hat).2]
        simp
      have hlt := length_lt_nameCount hbound
      omega
  | succ fuel ih =>
      have hread : aloneStep args fault
            (s.tree, ⟨.call .readDir (below root l) above, s.report⟩) =
          match attempt (fault .readDir (below root l)) (s.tree.readDir (below root l)) with
          | .error e => (s.tree, ⟨.done (.error e), s.report⟩)
          | .ok names =>
              (s.tree, ⟨.next (⟨below root l, names⟩ :: above), s.report⟩) := rfl
      unfold visit
      split
      · rename_i e herr
        rw [herr] at hread
        exact .succ hread (.refl _ _)
      · rename_i names hnames
        rw [hnames] at hread
        refine .succ hread ?_
        obtain ⟨A, -, -, rfl⟩ := readDir_ok (attempt_ok hnames).2
        have hchildren : ∀ a ∈ s.tree.children A, IsName a := fun a ha =>
          isName_of_entry (s.tree.mem_children.mp ha) a (by simp)
        refine leads_visitEntries hat hchildren (fun a hbelow s hs => visit_spared hbelow fuel hs)
          (fun a hbelow s hs above => ih hbelow ?_ hs) h
        rw [List.length_append, List.length_singleton]
        omega

end Alone

/-- What a sweep returned. -/
def Sweeping.result (p : Sweeping) : Option (Except Errno SweepReport) :=
  match p.pc with
  | .done (.ok ()) => some (.ok p.report)
  | .done (.error e) => some (.error e)
  | .call .. => none

/-- **Left alone, a sweep does what `sweep` does**: one call after the other, on any tree and
whatever fails, it comes to the tree that `sweep` leaves and returns what `sweep` returns. -/
theorem sweep_alone (args : SweepArgs) (fault : SweepFault) (root : OsStr) (t : FileTree) :
    ∃ p, Leads (aloneStep args fault) (t, .start root) ((sweep args fault root t).1, p) ∧
      p.result = some (sweep args fault root t).2 := by
  have hresult : ∀ (r : Swept × Except Errno Unit) (pc : SweepPc), pc = .done (.ok ()) →
      ∃ p, (Swept.resumed pc r) = (r.1.tree, p) ∧
        p.result = some (match r with
          | (s, .ok ()) => .ok s.report
          | (_, .error e) => .error e) := by
    rintro ⟨s, _ | _⟩ pc rfl <;> exact ⟨_, rfl, rfl⟩
  have hsweep : sweep args fault root t =
      ((visit args fault (nameCount t + 1) root ⟨t, ⟨[], []⟩⟩).1.tree,
        match visit args fault (nameCount t + 1) root ⟨t, ⟨[], []⟩⟩ with
        | (s, .ok ()) => .ok s.report
        | (_, .error e) => .error e) := by
    unfold sweep
    split <;> rename_i h <;> rw [h]
  rw [hsweep]
  obtain ⟨p, hp, hresult⟩ := hresult (visit args fault (nameCount t + 1) root ⟨t, ⟨[], []⟩⟩)
    (.entry [⟨root, []⟩]) rfl
  refine ⟨p, ?_, hresult⟩
  rw [← hp]
  by_cases hplace : ∃ R, t.locate true root = .ok R ∧ t.entry R = some .dir
  · obtain ⟨R, hroot, hdir⟩ := hplace
    have hat : At t root R [] := by
      rw [At, below_nil, List.append_nil]
      exact find_ok.mpr ⟨hroot, hdir⟩
    exact leads_visit (s := ⟨t, ⟨[], []⟩⟩) hat (nameCount t + 1) (by simp) (.refl args t root R)
  · -- the root is no directory, and the first call fails
    have hread : ∃ e, attempt (fault .readDir root) (t.readDir root) = .error e := by
      cases hread : attempt (fault .readDir root) (t.readDir root) with
      | error e => exact ⟨e, rfl⟩
      | ok names =>
          obtain ⟨R, hR, hdir, -⟩ := readDir_ok (attempt_ok hread).2
          exact absurd ⟨R, hR, hdir⟩ hplace
    obtain ⟨e, he⟩ := hread
    refine .succ ?_ (.refl _ _)
    simp only [aloneStep, SweepPc.fault, sweepStep, Sweeping.start, visit, he, Swept.resumed,
      Sweeping.stop]

end Reoftpd

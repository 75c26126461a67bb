import Reoftpd.RetentionExact

/-!
# How often to clean up

`reoftpd cleanup` is run by a timer, every hour or once a week.  **It makes no difference to
what is left** (`cleanups_absorbed`): sweeps at growing times leave what the last of them
alone would have left, and together they report what it would have reported, every file and
every directory once.

A file that is too young to be removed at one time was too young at every time before
(`YoungFile.earlier`), so an earlier sweep spares all that a later one keeps.
-/
namespace Reoftpd
open UnixPath FileTree

/-- The same sweep at another time. -/
def SweepArgs.at (args : SweepArgs) (now : Nat) : SweepArgs := { args with now }

/-- Sweeps without failures at the times `nows`, and all that they report. -/
def sweepsAt (args : SweepArgs) (root : OsStr) :
    List Nat → FileTree → FileTree × Except Errno SweepReport
  | [], t => (t, .ok ⟨[], []⟩)
  | now :: rest, t =>
      match sweep (args.at now) noSweepFault root t with
      | (t', .error e) => (t', .error e)
      | (t', .ok report) =>
          ((sweepsAt args root rest t').1, (sweepsAt args root rest t').2.map fun more =>
            ⟨report.deleted ++ more.deleted, report.prunedDirs ++ more.prunedDirs⟩)

section Times
variable {args : SweepArgs} {t u : FileTree} {root : OsStr} {R : Loc} {now now' : Nat} {m : Loc}
  {s s' : Swept}

/-! ## What a sweep leaves of a location -/

/-- Who is young later was young before. -/
theorem YoungFile.earlier (h : YoungFile (args.at now') t root R m) (hle : now ≤ now') :
    YoungFile (args.at now) t root R m := by
  obtain ⟨i, hi, hyoung⟩ := h
  have hlimit : limit (args.at now) root m = limit (args.at now') root m := rfl
  refine ⟨i, hi, ?_⟩
  show ¬ limit (args.at now) root m < now - t.disk.modified i
  rw [hlimit]
  have hage : now - t.disk.modified i ≤ now' - t.disk.modified i := Nat.sub_le_sub_right hle _
  exact fun hold => hyoung (hold.trans_le hage)

theorem Kept.earlier (h : Kept (args.at now') t root R m) (hle : now ≤ now') :
    Kept (args.at now) t root R m := by
  obtain ⟨m', hyoung⟩ := h
  exact ⟨m', hyoung.earlier hle⟩

/-- What is kept is still there. -/
theorem Done.entry_kept (h : Done args t root R {x | x ≠ []} s) (hk : Kept args t root R m) :
    s.tree.entry (R ++ m) = t.entry (R ++ m) := h.stays m fun _ => hk

/-- Nothing but names strictly below the root goes. -/
theorem Shrunk.entry_outside {L : Loc} (h : Shrunk t R u) (hL : R <+: L → L = R) :
    u.entry L = t.entry L := by
  rcases h.entry_or L with heq | ⟨-, hin, hne⟩
  · exact heq
  · exact absurd (hL hin) hne

/-! ## Two sweeps -/

/-- A file the first sweep leaves is as old for the second as it was. -/
theorem Done.youngFile_iff (hp : SweepPlace t root R)
    (h : Done (args.at now) t root R {x | x ≠ []} s) (hle : now ≤ now') :
    YoungFile (args.at now') s.tree root R m ↔ YoungFile (args.at now') t root R m := by
  constructor
  · rintro ⟨i, hi, hyoung⟩
    rw [h.modified] at hyoung
    exact ⟨i, ((h.file_iff hp m i).mp hi).1, hyoung⟩
  · intro hyoung
    obtain ⟨i, hi, hbefore⟩ := hyoung.earlier hle
    obtain ⟨j, hj, hlater⟩ := hyoung
    obtain rfl : i = j := by
      rw [hi] at hj
      cases hj
      rfl
    refine ⟨i, (h.file_iff hp m i).mpr ⟨hi, hbefore⟩, ?_⟩
    rw [h.modified]
    exact hlater

theorem Done.kept_later_iff (hp : SweepPlace t root R)
    (h : Done (args.at now) t root R {x | x ≠ []} s) (hle : now ≤ now') :
    Kept (args.at now') s.tree root R m ↔ Kept (args.at now') t root R m :=
  exists_congr fun _ => h.youngFile_iff hp hle

/-- A file is old later if it is old already, or is left and old then. -/
theorem Done.oldFile_iff (hp : SweepPlace t root R)
    (h : Done (args.at now) t root R {x | x ≠ []} s) (hle : now ≤ now') :
    OldFile (args.at now') t root R m ↔
      OldFile (args.at now) t root R m ∨ OldFile (args.at now') s.tree root R m := by
  have hlimit : limit (args.at now) root m = limit (args.at now') root m := rfl
  constructor
  · rintro ⟨i, hi, hold⟩
    by_cases hbefore : limit (args.at now) root m < (args.at now).now - t.disk.modified i
    · exact Or.inl ⟨i, hi, hbefore⟩
    · refine Or.inr ⟨i, (h.file_iff hp m i).mpr ⟨hi, hbefore⟩, ?_⟩
      rw [h.modified]
      exact hold
  · rintro (⟨i, hi, hold⟩ | ⟨i, hi, hold⟩)
    · have hage : now - t.disk.modified i ≤ now' - t.disk.modified i :=
        Nat.sub_le_sub_right hle _
      exact ⟨i, hi, hold.trans_le hage⟩
    · rw [h.modified] at hold
      exact ⟨i, ((h.file_iff hp m i).mp hi).1, hold⟩

/-- A file that was old is not left. -/
theorem Done.not_oldFile (hp : SweepPlace t root R)
    (h : Done (args.at now) t root R {x | x ≠ []} s) (hold : OldFile (args.at now) t root R m) :
    ¬ OldFile (args.at now') s.tree root R m := by
  rintro ⟨i, hi, -⟩
  obtain ⟨j, hj, hbefore⟩ := hold
  obtain ⟨hi, hyoung⟩ := (h.file_iff hp m i).mp hi
  rw [hj] at hi
  cases hi
  exact hyoung hbefore

/-- Nothing that is listed before what lies in it is listed twice. -/
theorem nodup_of_incomparable {l : List Loc} (h : l.Pairwise fun a b => ¬ a <+: b) : l.Nodup := by
  refine h.imp ?_
  rintro a b hab rfl
  exact hab List.prefix_rfl

/-- A directory goes later if it goes already, or is left and goes then. -/
theorem Done.goes_iff (hp : SweepPlace t root R)
    (h : Done (args.at now) t root R {x | x ≠ []} s) (hle : now ≤ now') :
    t.entry (R ++ m) = some .dir ∧ ¬ Kept (args.at now') t root R m ↔
      (t.entry (R ++ m) = some .dir ∧ ¬ Kept (args.at now) t root R m) ∨
        s.tree.entry (R ++ m) = some .dir ∧ ¬ Kept (args.at now') s.tree root R m := by
  rw [h.kept_later_iff hp hle]
  constructor
  · rintro ⟨hdir, hgoes⟩
    by_cases hk : Kept (args.at now) t root R m
    · exact Or.inr ⟨(h.entry_kept hk).trans hdir, hgoes⟩
    · exact Or.inl ⟨hdir, hk⟩
  · rintro (⟨hdir, hk⟩ | ⟨hdir, hgoes⟩)
    · exact ⟨hdir, fun hlater => hk (hlater.earlier hle)⟩
    · exact ⟨(h.entry_eq (by simp [hdir])).symm.trans hdir, hgoes⟩

/-- **A later sweep absorbs an earlier one**: what it leaves. -/
theorem Done.absorbed {s'' : Swept} (hp : SweepPlace t root R) (hle : now ≤ now')
    (h : Done (args.at now) t root R {x | x ≠ []} s)
    (h' : Done (args.at now') s.tree root R {x | x ≠ []} s')
    (h'' : Done (args.at now') t root R {x | x ≠ []} s'') (L : Loc) :
    s'.tree.entry L = s''.tree.entry L := by
  by_cases hL : R <+: L → L = R
  · rw [h'.entry_outside hL, h.entry_outside hL, h''.entry_outside hL]
  · obtain ⟨⟨m, rfl⟩, hne⟩ := Classical.not_imp.mp hL
    have hm : m ≠ [] := by
      rintro rfl
      exact hne (List.append_nil R)
    by_cases hk : Kept (args.at now') t root R m
    · rw [h'.entry_kept ((h.kept_later_iff hp hle).mpr hk), h.entry_kept (hk.earlier hle),
        h''.entry_kept hk]
    · rw [h'.gone m hm fun hk' => hk ((h.kept_later_iff hp hle).mp hk'), h''.gone m hm hk]

/-- **And what it reports**: the two reports together are its own. -/
theorem Done.reports_perm {s'' : Swept} (hp : SweepPlace t root R) (hle : now ≤ now')
    (h : Done (args.at now) t root R {x | x ≠ []} s)
    (h' : Done (args.at now') s.tree root R {x | x ≠ []} s')
    (h'' : Done (args.at now') t root R {x | x ≠ []} s'') :
    (s.report.deleted ++ s'.report.deleted).Perm s''.report.deleted ∧
      (s.report.prunedDirs ++ s'.report.prunedDirs).Perm s''.report.prunedDirs := by
  obtain ⟨dl, pl, hrep, hdl, hpl, hmdl, hmpl⟩ := h.report
  obtain ⟨dl', pl', hrep', hdl', hpl', hmdl', hmpl'⟩ := h'.report
  obtain ⟨dl'', pl'', hrep'', hdl'', hpl'', hmdl'', hmpl''⟩ := h''.report
  have hdeleted : (dl ++ dl').Perm dl'' := by
    refine (List.perm_ext_iff_of_nodup (hdl.append hdl' fun m hm hm' => ?_) hdl'').mpr fun m => ?_
    · exact h.not_oldFile hp ((hmdl m).mp hm).2 ((hmdl' m).mp hm').2
    · rw [List.mem_append, hmdl, hmdl', hmdl'', h.oldFile_iff hp hle, and_or_left]
  have hpruned : (pl ++ pl').Perm pl'' := by
    refine (List.perm_ext_iff_of_nodup ((nodup_of_incomparable hpl).append
      (nodup_of_incomparable hpl') fun m hm hm' => ?_)
      (nodup_of_incomparable hpl'')).mpr fun m => ?_
    · obtain ⟨hne, -, hk⟩ := (hmpl m).mp hm
      have hgone := h.gone m hne hk
      rw [((hmpl' m).mp hm').2.1] at hgone
      cases hgone
    · rw [List.mem_append, hmpl, hmpl', hmpl'', h.goes_iff hp hle, and_or_left]
  rw [hrep, hrep', hrep'', ← List.map_append, ← List.map_append]
  exact ⟨hdeleted.map _, hpruned.map _⟩

end Times

/-! ## Many sweeps -/

/-- **The two leave the same and report the same**, in some order. -/
structure SameSweep (r r' : FileTree × Except Errno SweepReport) : Prop where
  entry : ∀ L, r.1.entry L = r'.1.entry L
  data : r.1.disk.data = r'.1.disk.data
  modified : r.1.disk.modified = r'.1.disk.modified
  reports : ∃ report report', r.2 = .ok report ∧ r'.2 = .ok report' ∧
    report.deleted.Perm report'.deleted ∧ report.prunedDirs.Perm report'.prunedDirs

section Many
variable {args : SweepArgs} {t : FileTree} {root : OsStr} {R : Loc} {now last : Nat}

/-- The last of a row of sweeps absorbs the others, as long as the root is found. -/
theorem sweepsAt_absorbed (hp : SweepPlace t root R) (hsteady : Steady t root R)
    (hwet : args.dryRun = false) {nows : List Nat} (hsorted : (nows ++ [last]).Pairwise (· ≤ ·)) :
    SameSweep (sweepsAt args root (nows ++ [last]) t)
      (sweep (args.at last) noSweepFault root t) := by
  have hwetAt : ∀ now, (args.at now).dryRun = false := fun _ => hwet
  induction nows generalizing t with
  | nil =>
      obtain ⟨report, hok⟩ := sweep_ok hp (hwetAt last) hsteady
      have hone : sweepsAt args root [last] t =
          ((sweep (args.at last) noSweepFault root t).1,
            .ok ⟨report.deleted ++ [], report.prunedDirs ++ []⟩) := by
        rw [sweepsAt]
        generalize sweep (args.at last) noSweepFault root t = r at hok
        obtain ⟨t', r⟩ := r
        cases hok
        rfl
      rw [List.nil_append, hone]
      exact ⟨fun _ => rfl, rfl, rfl, _, report, rfl, hok, by simp, by simp⟩
  | cons now rest ih =>
      obtain ⟨hnow, hrest⟩ := List.pairwise_cons.mp hsorted
      have hle : now ≤ last := hnow last (by simp)
      obtain ⟨report, hok⟩ := sweep_ok hp (hwetAt now) hsteady
      have h := done_of_sweep hp (hwetAt now) hok
      have hp' := h.place hp (hsteady _ h.toShrunk)
      have hsteady' := hsteady.shrunk h.toShrunk
      have hsame := ih hp' hsteady' hrest
      obtain ⟨more, alone, hmore, halone, hdeleted, hpruned⟩ := hsame.reports
      obtain ⟨once, honce⟩ := sweep_ok hp (hwetAt last) hsteady
      have h' := done_of_sweep hp' (hwetAt last) halone
      have h'' := done_of_sweep hp (hwetAt last) honce
      obtain ⟨hdl, hpl⟩ := h.reports_perm hp hle h' h''
      have hrow : sweepsAt args root (now :: rest ++ [last]) t =
          ((sweepsAt args root (rest ++ [last])
              (sweep (args.at now) noSweepFault root t).1).1,
            .ok ⟨report.deleted ++ more.deleted, report.prunedDirs ++ more.prunedDirs⟩) := by
        rw [List.cons_append, sweepsAt]
        generalize sweep (args.at now) noSweepFault root t = r at hok hmore
        obtain ⟨t', r⟩ := r
        cases hok
        simp only [hmore]
        rfl
      rw [hrow]
      refine ⟨fun L => ?_, ?_, ?_, _, once, rfl, honce, ?_, ?_⟩
      · rw [hsame.entry L]
        exact h.absorbed hp hle h' h'' L
      · rw [hsame.data, h'.data, h.data, h''.data]
      · rw [hsame.modified, h'.modified, h.modified, h''.modified]
      · exact (hdeleted.append_left _).trans hdl
      · exact (hpruned.append_left _).trans hpl

/-- **How often to clean up makes no difference.**  Sweeps at growing times, of an archive that
nobody else changes, all succeed when the way to the root does not lead through directories
below it; they leave what a single one at the last of the times leaves, and together report
every file and directory it reports, each once. -/
theorem cleanups_absorbed (hp : SweepPlace t root R) (hwet : args.dryRun = false)
    (htrail : ∀ D ∈ trail t.entry maxSymlinks (if isAbsolute root then [] else t.cwd) (steps root),
      R <+: D → D = R)
    {nows : List Nat} (hsorted : (nows ++ [last]).Pairwise (· ≤ ·)) :
    SameSweep (sweepsAt args root (nows ++ [last]) t)
      (sweep (args.at last) noSweepFault root t) :=
  sweepsAt_absorbed hp (steady_of_trail hp htrail) hwet hsorted

/-- A cleanup at 30 finds the clip too young, and one at 50 takes it. -/
theorem clipYard_absorbed :
    SameSweep (sweepsAt sweepAt50 [sep] ([30, 40] ++ [50]) clipYard)
      (sweep (sweepAt50.at 50) noSweepFault [sep] clipYard) :=
  cleanups_absorbed clipYard_place rfl (by decide +kernel) (by decide)

end Many

end Reoftpd

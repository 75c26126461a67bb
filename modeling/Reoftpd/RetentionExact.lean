import Mathlib.Data.Set.Basic
import Reoftpd.Retention

/-!
# What a sweep leaves

A sweep without failures of its own, of a directory that no link lies in.  **It is
exact** (`sweep_exact`): a file goes exactly when it is older than its limit, a directory
exactly when no file below it stays, everything else is as it was, and the report lists
what went, every directory after those in it.  A second sweep finds nothing to do.

Everything is said of locations below the root, by the names that lead to them from there
(`below`).  A sweep on its way is done with a set of such locations (`Done`), and every
step adds what it sweeps to that set (`Done.add`).
-/
namespace Reoftpd
open UnixPath FileTree

/-- No call of the sweep fails by itself. -/
def noSweepFault : SweepFault := fun _ _ => none

/-- The path of what the names `l` lead to from `root`, as a sweep spells it. -/
def below (root : OsStr) (l : Loc) : OsStr := l.foldl join root

/-- The root of a sweep leads to a directory with no link in it. -/
structure SweepPlace (t : FileTree) (root : OsStr) (R : Loc) : Prop where
  leads : t.locate true root = .ok R
  dir : t.entry R = some .dir
  noLinks : ∀ m target, t.entry (R ++ m) ≠ some (.link target)

/-- The name of the directory that the names `l` lead to. -/
def dirName (root : OsStr) (l : Loc) : Option OsStr :=
  match l.getLast? with
  | some s => some s
  | none => fileName root

/-- **The limit of the file** that the names `m` lead to: what the sweep is meant to
apply. -/
def limit (args : SweepArgs) (root : OsStr) (m : Loc) : Nat :=
  if dirName root m.dropLast = some quarantineDir then args.quarantineTtl
  else if stagingSuffix.isSuffixOf (m.getLastD []) ∧ ∀ c ∈ m.getLastD [], c.char?.isSome then
    args.stagingTtl
  else args.retention

section Paths
variable {root s : OsStr} {l m : Loc}

@[simp] theorem below_nil (root : OsStr) : below root [] = root := rfl

@[simp] theorem below_concat (root : OsStr) (l : Loc) (s : OsStr) :
    below root (l ++ [s]) = join (below root l) s := by
  simp [below]

theorem solidSegments_below (root : OsStr) (hl : ∀ s ∈ l, IsName s) :
    solidSegments (below root l) = solidSegments root ++ l := by
  induction l using List.reverseRecOn with
  | nil => exact (List.append_nil _).symm
  | append_singleton l s ih =>
      rw [below_concat, solidSegments_join (hl s (by simp)), ih fun x hx => hl x (by simp [hx]),
        List.append_assoc]

/-- Different names lead to different paths. -/
theorem below_injective (hl : ∀ s ∈ l, IsName s) (hm : ∀ s ∈ m, IsName s)
    (h : below root l = below root m) : l = m := by
  have hsolid := congrArg solidSegments h
  rw [solidSegments_below root hl, solidSegments_below root hm] at hsolid
  exact List.append_cancel_left hsolid

theorem fileName_below (hl : ∀ s ∈ l, IsName s) : fileName (below root l) = dirName root l := by
  cases l using List.reverseRecOn with
  | nil => rfl
  | append_singleton l s =>
      rw [below_concat, fileName_join (hl s (by simp)), dirName, List.getLast?_concat]

/-- A text of characters is a string. -/
theorem toStr_of_chars {s : OsStr} (h : ∀ c ∈ s, c.char?.isSome) :
    ∃ a, toStr s = some a ∧ ofString a = s := by
  have hchars : ∃ l : List Char, s.mapM OsChar.char? = some l ∧ l.map OsChar.chr = s := by
    induction s with
    | nil => exact ⟨[], rfl, rfl⟩
    | cons c s ih =>
        obtain ⟨hc, hs⟩ := List.forall_mem_cons.mp h
        obtain ⟨l, hl, hmap⟩ := ih hs
        cases c with
        | chr a => exact ⟨a :: l, by rw [List.mapM_cons, hl]; rfl, by rw [List.map_cons, hmap]⟩
        | ill bytes => cases hc
  obtain ⟨l, hl, hmap⟩ := hchars
  exact ⟨String.ofList l, by rw [toStr, hl]; rfl, by rw [ofString, String.toList_ofList, hmap]⟩

/-- A text that is a string has nothing but characters. -/
theorem chars_of_toStr {s : OsStr} {a : String} (h : toStr s = some a) :
    ∀ c ∈ s, c.char?.isSome := by
  obtain ⟨l, hl, -⟩ := Option.map_eq_some_iff.mp h
  clear h
  induction s generalizing l with
  | nil => exact fun c hc => absurd hc List.not_mem_nil
  | cons c s ih =>
      rw [List.mapM_cons] at hl
      obtain ⟨b, hb, hrest⟩ := Option.bind_eq_some_iff.mp hl
      obtain ⟨l', hl', -⟩ := Option.bind_eq_some_iff.mp hrest
      exact List.forall_mem_cons.mpr ⟨Option.isSome_iff_exists.mpr ⟨b, hb⟩, ih l' hl'⟩

/-- What the sweep tests of a name is what it is meant to. -/
theorem isSuffixOf_toStr (s : OsStr) :
    stagingSuffix.isSuffixOf (ofString ((toStr s).getD "")) = true ↔
      stagingSuffix.isSuffixOf s = true ∧ ∀ c ∈ s, c.char?.isSome := by
  by_cases hall : ∀ c ∈ s, c.char?.isSome
  · obtain ⟨a, ha, hchr⟩ := toStr_of_chars hall
    rw [ha, Option.getD_some, hchr]
    exact ⟨fun h => ⟨h, hall⟩, And.left⟩
  · have hnone : toStr s = none := by
      cases hs : toStr s with
      | none => rfl
      | some a => exact absurd (chars_of_toStr hs) hall
    have hempty : stagingSuffix.isSuffixOf (ofString "") = false := by decide
    rw [hnone, Option.getD_none, hempty]
    exact ⟨fun h => absurd h (by decide), fun h => absurd h.2 hall⟩

/-- The limit the sweep applies to a file is the one it is meant to. -/
theorem fileTtl_below (args : SweepArgs) (root : OsStr) (hl : ∀ x ∈ l ++ [s], IsName x) :
    fileTtl args (fileName (below root l) = some quarantineDir) (join (below root l) s) =
      limit args root (l ++ [s]) := by
  rw [fileTtl, fileName_join (hl s (by simp)), fileName_below fun x hx => hl x (by simp [hx]),
    limit, List.dropLast_concat, List.getLastD_concat, Option.bind_some]
  simp only [decide_eq_true_eq, isSuffixOf_toStr]

end Paths

section Kinds
variable (args : SweepArgs) (t : FileTree) (root : OsStr) (R : Loc)

/-- The names `m` lead to a file that is older than its limit. -/
def OldFile (m : Loc) : Prop :=
  ∃ i, t.entry (R ++ m) = some (.file i) ∧ limit args root m < args.now - t.disk.modified i

/-- The names `m` lead to a file that is not. -/
def YoungFile (m : Loc) : Prop :=
  ∃ i, t.entry (R ++ m) = some (.file i) ∧ ¬ limit args root m < args.now - t.disk.modified i

/-- A file that is not too old lies at or below `m`. -/
def Kept (m : Loc) : Prop := ∃ m', YoungFile args t root R (m ++ m')

end Kinds

/-! ## A sweep on its way -/

section Sweep
variable (args : SweepArgs) (t : FileTree) (root : OsStr) (R : Loc)

/-- The tree `v` is `t` without some of the names strictly below `R`. -/
structure Shrunk (v : FileTree) : Prop where
  entry_or : ∀ L, v.entry L = t.entry L ∨ v.entry L = none ∧ R <+: L ∧ L ≠ R
  cwd : v.cwd = t.cwd
  data : v.disk.data = t.disk.data
  modified : v.disk.modified = t.disk.modified

/-- What a sweep has left of the tree `t` when it is done with the locations `D` below
its root, and what it has reported. -/
structure Done (D : Set Loc) (s : Swept) : Prop extends Shrunk t R s.tree where
  top : [] ∉ D
  down : ∀ m m', m ∈ D → m <+: m' → m' ∈ D
  gone : ∀ m ∈ D, ¬ Kept args t root R m → s.tree.entry (R ++ m) = none
  stays : ∀ m, (m ∈ D → Kept args t root R m) → s.tree.entry (R ++ m) = t.entry (R ++ m)
  report : ∃ dl pl : List Loc, s.report = ⟨dl.map (below root), pl.map (below root)⟩ ∧
    dl.Nodup ∧ pl.Pairwise (fun a b => ¬ a <+: b) ∧
    (∀ m, m ∈ dl ↔ m ∈ D ∧ OldFile args t root R m) ∧
    ∀ m, m ∈ pl ↔ m ∈ D ∧ t.entry (R ++ m) = some .dir ∧ ¬ Kept args t root R m

/-- The root of the sweep is found, whatever has gone below it. -/
def Steady : Prop := ∀ v, Shrunk t R v → v.locate true root = .ok R

/-- What a step of the sweep that is to do `D` comes to: it does, unless the root is not
found any more. -/
def Outcome (D : Set Loc) (r : Swept × Except Errno Unit) : Prop :=
  match r.2 with
  | .ok () => Done args t root R D r.1
  | .error _ => ¬ Steady t root R

end Sweep

section Sweep
variable {args : SweepArgs} {t v : FileTree} {root : OsStr} {R : Loc} {D : Set Loc} {s : Swept}
  {l m : Loc} {a : OsStr} {e : Entry OsStr} {followLast : Bool}

/-! ### Paths below the root -/

theorem below_ne_nil (hp : SweepPlace t root R) (hl : ∀ x ∈ l, IsName x) : below root l ≠ [] := by
  cases l using List.reverseRecOn with
  | nil => exact (locateSteps_ok hp.leads).1
  | append_singleton l a =>
      intro hnil
      have hname : fileName (below root (l ++ [a])) = some a := by
        rw [below_concat]
        exact fileName_join (hl a (by simp))
      rw [hnil] at hname
      cases hname

/-- A directory below the root is where the sweep's path for it leads. -/
theorem locate_below_dir (hroot : v.locate true root = .ok R)
    (h : v.entry (R ++ l) = some .dir) : v.locate true (below root l) = .ok (R ++ l) := by
  induction l using List.reverseRecOn with
  | nil =>
      rw [below_nil, List.append_nil]
      exact hroot
  | append_singleton l a ih =>
      rw [← List.append_assoc] at h ⊢
      have hdir : v.entry (R ++ l) = some .dir := v.parent_dir (R ++ l) a (by rw [← entry, h]; simp)
      rw [below_concat]
      exact locate_join (ih hdir) hdir h (Or.inr (by simp))

theorem locate_below (hroot : v.locate true root = .ok R)
    (h : v.entry (R ++ (l ++ [a])) = some e) (he : ∀ target, e ≠ .link target) :
    v.locate followLast (below root (l ++ [a])) = .ok (R ++ (l ++ [a])) := by
  rw [← List.append_assoc] at h ⊢
  have hdir : v.entry (R ++ l) = some .dir := v.parent_dir (R ++ l) a (by rw [← entry, h]; simp)
  rw [below_concat]
  exact locate_join (locate_below_dir hroot hdir) hdir h (Or.inr he)

namespace Shrunk

theorem refl (t : FileTree) (R : Loc) : Shrunk t R t := ⟨fun _ => Or.inl rfl, rfl, rfl, rfl⟩

theorem trans {v' : FileTree} (h : Shrunk t R v) (h' : Shrunk v R v') : Shrunk t R v' := by
  refine ⟨fun L => ?_, h'.cwd.trans h.cwd, h'.data.trans h.data, h'.modified.trans h.modified⟩
  rcases h'.entry_or L with he | he
  · rw [he]
    exact h.entry_or L
  · exact Or.inr he

/-- One name strictly below the root has gone. -/
theorem of_entry {v' : FileTree} (h : Shrunk t R v) (hm : m ≠ [])
    (hself : v'.entry (R ++ m) = none ∨ v'.entry (R ++ m) = v.entry (R ++ m))
    (hother : ∀ L, L ≠ R ++ m → v'.entry L = v.entry L) (hcwd : v'.cwd = v.cwd)
    (hdata : v'.disk.data = v.disk.data) (hmodified : v'.disk.modified = v.disk.modified) :
    Shrunk t R v' := by
  refine ⟨fun L => ?_, hcwd.trans h.cwd, hdata.trans h.data, hmodified.trans h.modified⟩
  by_cases hL : L = R ++ m
  · subst hL
    rcases hself with hn | he
    · exact Or.inr ⟨hn, List.prefix_append R m, by simpa using hm⟩
    · rw [he]
      exact h.entry_or _
  · rw [hother L hL]
    exact h.entry_or L

theorem link_iff (hp : SweepPlace t root R) (h : Shrunk t R v) (M : Loc)
    (target : OsStr) : v.entry M = some (.link target) ↔ t.entry M = some (.link target) := by
  rcases h.entry_or M with he | ⟨he, ⟨m, rfl⟩, -⟩
  · rw [he]
  · rw [he]
    constructor
    · intro hl
      cases hl
    · exact fun hl => absurd hl (hp.noLinks m target)

theorem grows (hp : SweepPlace t root R) (h : Shrunk t R v) : Grows v t := by
  refine ⟨⟨h.cwd.symm, fun M target => (h.link_iff hp M target).symm⟩, fun M hM => ?_⟩
  rcases h.entry_or M with he | ⟨he, -⟩
  · rw [← he, hM]
  · rw [hM] at he
    cases he

theorem entry_eq (h : Shrunk t R v) {L : Loc} (hb : v.entry L ≠ none) : v.entry L = t.entry L :=
  (h.entry_or L).resolve_right fun hn => hb hn.1

theorem entry_root (h : Shrunk t R v) : v.entry R = t.entry R :=
  (h.entry_or R).resolve_right fun hn => hn.2.2 rfl

/-- Where a path of the sweep leads in what it has left, it leads in the tree it began
with. -/
theorem locate_dir (hp : SweepPlace t root R) (h : Shrunk t R v)
    (hdir : t.entry (R ++ l) = some .dir) {A : Loc}
    (hA : v.locate true (below root l) = .ok A) : A = R ++ l :=
  Except.ok.inj (((h.grows hp).locate hA).symm.trans (locate_below_dir hp.leads hdir))

/-- A directory is found by the sweep's path for it, unless the root is not found. -/
theorem found_dir (hp : SweepPlace t root R) (h : Shrunk t R v)
    (hdir : v.entry (R ++ l) = some .dir) :
    v.find true (below root l) = .ok (R ++ l, .dir) ∨
      (∃ err, v.find true (below root l) = .error err) ∧ ¬ Steady t root R := by
  cases hA : v.locate true (below root l) with
  | ok A =>
      obtain rfl : A = R ++ l := h.locate_dir hp ((h.grows hp).dir _ hdir) hA
      exact Or.inl (find_ok.mpr ⟨hA, hdir⟩)
  | error err =>
      refine Or.inr ⟨⟨err, by rw [FileTree.find, hA]⟩, fun hs => ?_⟩
      rw [locate_below_dir (hs v h) hdir] at hA
      cases hA

/-- **What lies in a directory** is found by the sweep's path for it, whether links are
followed or not, unless the root is not found. -/
theorem found (hp : SweepPlace t root R) (h : Shrunk t R v)
    (he : v.entry (R ++ (l ++ [a])) = some e) :
    (∀ b, v.find b (below root (l ++ [a])) = .ok (R ++ (l ++ [a]), e)) ∨
      (∀ b, ∃ err, v.find b (below root (l ++ [a])) = .error err) ∧ ¬ Steady t root R := by
  have hlink : ∀ target, e ≠ .link target := fun target hl =>
    hp.noLinks _ target ((h.link_iff hp _ target).mp (hl ▸ he))
  have hassoc : R ++ (l ++ [a]) = R ++ l ++ [a] := (List.append_assoc ..).symm
  have hdir : v.entry (R ++ l) = some .dir :=
    v.parent_dir (R ++ l) a (by rw [← entry, ← hassoc, he]; simp)
  rw [hassoc] at he ⊢
  rw [below_concat]
  rcases h.found_dir hp hdir with hf | ⟨⟨err, hf⟩, hs⟩
  · exact Or.inl fun b =>
      find_ok.mpr ⟨locate_join (find_ok.mp hf).1 hdir he (Or.inr hlink), he⟩
  · refine Or.inr ⟨fun b => ?_, hs⟩
    have hnames : ∀ x ∈ R ++ l ++ [a], IsName x :=
      isName_of_entry (show v.entry (R ++ l ++ [a]) ≠ none by rw [he]; simp)
    cases hL : v.locate b (join (below root l) a) with
    | error err' => exact ⟨err', by rw [FileTree.find, hL]⟩
    | ok L =>
        obtain ⟨A, -, hA, hAdir, -⟩ := locate_join_ok
          (below_ne_nil hp fun x hx => hnames x (by simp [hx])) (hnames a (by simp)) hL
        rw [find_ok.mpr ⟨hA, hAdir⟩] at hf
        cases hf

end Shrunk

/-! ### Being done with one more location -/

/-- A sweep need not care about locations where nothing is. -/
theorem Done.congr {D' : Set Loc} (h : Done args t root R D s) (htop : [] ∉ D')
    (hdown : ∀ m m', m ∈ D' → m <+: m' → m' ∈ D')
    (hD : ∀ m, t.entry (R ++ m) ≠ none → (m ∈ D ↔ m ∈ D')) : Done args t root R D' s := by
  have hbound : ∀ m, t.entry (R ++ m) = none → s.tree.entry (R ++ m) = none := fun m hm => by
    rcases h.entry_or (R ++ m) with he | ⟨he, -⟩
    · rw [he, hm]
    · exact he
  refine { h with
    top := htop
    down := hdown
    gone := fun m hm hk => ?_
    stays := fun m hm => ?_
    report := ?_ }
  · by_cases hn : t.entry (R ++ m) = none
    · exact hbound m hn
    · exact h.gone m ((hD m hn).mpr hm) hk
  · by_cases hn : t.entry (R ++ m) = none
    · rw [hn, hbound m hn]
    · exact h.stays m fun hmD => hm ((hD m hn).mp hmD)
  · obtain ⟨dl, pl, hrep, hdl, hpl, hmdl, hmpl⟩ := h.report
    refine ⟨dl, pl, hrep, hdl, hpl, fun m => (hmdl m).trans ?_, fun m => (hmpl m).trans ?_⟩
    · refine and_congr_left fun ⟨i, hi, _⟩ => hD m (by simp [hi])
    · exact and_congr_left fun ⟨hdir, _⟩ => hD m (by simp [hdir])

theorem Outcome.congr {D' : Set Loc} {r : Swept × Except Errno Unit}
    (h : Outcome args t root R D r) (htop : [] ∉ D')
    (hdown : ∀ m m', m ∈ D' → m <+: m' → m' ∈ D')
    (hD : ∀ m, t.entry (R ++ m) ≠ none → (m ∈ D ↔ m ∈ D')) : Outcome args t root R D' r := by
  obtain ⟨s, _ | ⟨⟩⟩ := r
  · exact h
  · exact Done.congr h htop hdown hD

/-- **Being done with `m` as well**, once everything below `m` is done with. -/
theorem Done.add (h : Done args t root R D s) {s' : Swept} (hne : m ≠ []) (hm : m ∉ D)
    (hrest : ∀ x, m <+: x → x ≠ m → x ∈ D ∨ t.entry (R ++ x) = none)
    (hgone : ¬ Kept args t root R m → s'.tree.entry (R ++ m) = none)
    (hstays : Kept args t root R m → s'.tree.entry (R ++ m) = s.tree.entry (R ++ m))
    (hother : ∀ L, L ≠ R ++ m → s'.tree.entry L = s.tree.entry L)
    (hcwd : s'.tree.cwd = s.tree.cwd) (hdata : s'.tree.disk.data = s.tree.disk.data)
    (hmodified : s'.tree.disk.modified = s.tree.disk.modified) {d p : List Loc}
    (hreport : s'.report =
      ⟨s.report.deleted ++ d.map (below root), s.report.prunedDirs ++ p.map (below root)⟩)
    (hd : d.Nodup ∧ ∀ x, x ∈ d ↔ x = m ∧ OldFile args t root R m)
    (hp : p.Pairwise (fun a b => ¬ a <+: b) ∧
      ∀ x, x ∈ p ↔ x = m ∧ t.entry (R ++ m) = some .dir ∧ ¬ Kept args t root R m) :
    Done args t root R (D ∪ {x | m <+: x}) s' := by
  -- what is new is `m`, and what is below it is swept already or not there
  have hcase : ∀ x, x ∈ D ∪ {x | m <+: x} → x = m ∨ x ∈ D ∨ t.entry (R ++ x) = none := by
    rintro x (hx | hx)
    · exact Or.inr (Or.inl hx)
    · by_cases hxm : x = m
      · exact Or.inl hxm
      · exact Or.inr (hrest x hx hxm)
  have hself : m ∈ D ∪ {x | m <+: x} := Or.inr List.prefix_rfl
  have hne' : ∀ x, x ≠ m → R ++ x ≠ R ++ m := fun x hx he => hx (List.append_cancel_left he)
  have hself' : s'.tree.entry (R ++ m) = none ∨ s'.tree.entry (R ++ m) = s.tree.entry (R ++ m) := by
    by_cases hk : Kept args t root R m
    · exact Or.inr (hstays hk)
    · exact Or.inl (hgone hk)
  refine
    { h.toShrunk.of_entry hne hself' hother hcwd hdata hmodified with
      top := ?_, down := ?_, gone := fun x hx hk => ?_, stays := fun x hx => ?_, report := ?_ }
  · rintro (hD | hD)
    · exact h.top hD
    · exact hne (List.prefix_nil.mp hD)
  · rintro x x' (hx | hx) hxx
    · exact Or.inl (h.down x x' hx hxx)
    · exact Or.inr (List.IsPrefix.trans hx hxx)
  · by_cases hxm : x = m
    · rw [hxm] at hk ⊢
      exact hgone hk
    · rw [hother _ (hne' x hxm)]
      rcases hcase x hx with hx | hx | hx
      · exact absurd hx hxm
      · exact h.gone x hx hk
      · rcases h.entry_or (R ++ x) with he | ⟨he, -⟩
        · rw [he, hx]
        · exact he
  · by_cases hxm : x = m
    · subst hxm
      rw [hstays (hx hself), h.stays x fun hD => absurd hD hm]
    · rw [hother _ (hne' x hxm), h.stays x fun hD => hx (Or.inl hD)]
  · obtain ⟨dl, pl, hrep, hdl, hpl, hmdl, hmpl⟩ := h.report
    refine ⟨dl ++ d, pl ++ p, by rw [hreport, hrep, List.map_append, List.map_append], ?_, ?_,
      fun x => ?_, fun x => ?_⟩
    · refine List.nodup_append.mpr ⟨hdl, hd.1, fun x hx y hy hxy => ?_⟩
      rw [((hd.2 y).mp hy).1] at hxy
      exact hm (hxy ▸ ((hmdl x).mp hx).1)
    · refine List.pairwise_append.mpr ⟨hpl, hp.1, fun x hx y hy hxy => ?_⟩
      rw [((hp.2 y).mp hy).1] at hxy
      exact hm (h.down x m ((hmpl x).mp hx).1 hxy)
    · rw [List.mem_append, hmdl, hd.2]
      constructor
      · rintro (⟨hx, hold⟩ | ⟨rfl, hold⟩)
        · exact ⟨Or.inl hx, hold⟩
        · exact ⟨hself, hold⟩
      · rintro ⟨hx, hold⟩
        rcases hcase x hx with rfl | hx | hx
        · exact Or.inr ⟨rfl, hold⟩
        · exact Or.inl ⟨hx, hold⟩
        · obtain ⟨i, hi, -⟩ := hold
          rw [hx] at hi
          cases hi
    · rw [List.mem_append, hmpl, hp.2]
      constructor
      · rintro (⟨hx, hdir⟩ | ⟨rfl, hdir⟩)
        · exact ⟨Or.inl hx, hdir⟩
        · exact ⟨hself, hdir⟩
      · rintro ⟨hx, hdir⟩
        rcases hcase x hx with rfl | hx | hx
        · exact Or.inr ⟨rfl, hdir⟩
        · exact Or.inl ⟨hx, hdir⟩
        · rw [hx] at hdir
          cases hdir.1

/-! ### The steps of a sweep -/

/-- Nothing lies below a file. -/
theorem entry_below_file {i : Nat} {x : Loc} (hf : t.entry (R ++ m) = some (.file i)) (hx : m <+: x)
    (hne : x ≠ m) : t.entry (R ++ x) = none := by
  by_contra hb
  have hpre : R ++ m <+: R ++ x := (List.prefix_append_right_inj R).mpr hx
  have hdir : t.entry (R ++ m) = some .dir :=
    dir_above hpre (fun he => hne (List.append_cancel_left he).symm) hb
  rw [hf] at hdir
  cases hdir

theorem kept_file {i : Nat} (hf : t.entry (R ++ m) = some (.file i)) :
    Kept args t root R m ↔ ¬ limit args root m < args.now - t.disk.modified i := by
  constructor
  · rintro ⟨m', j, hj, hyoung⟩
    by_cases hm' : m' = []
    · subst hm'
      rw [List.append_nil] at hj hyoung
      obtain rfl : i = j := Entry.file.inj (Option.some.inj (hf.symm.trans hj))
      exact hyoung
    · have hnone : t.entry (R ++ (m ++ m')) = none :=
        entry_below_file hf (List.prefix_append m m') (by simpa using hm')
      rw [hnone] at hj
      cases hj
  · intro hyoung
    refine ⟨[], i, ?_, ?_⟩
    · rw [List.append_nil]
      exact hf
    · rw [List.append_nil]
      exact hyoung

theorem oldFile_file {i : Nat} (hf : t.entry (R ++ m) = some (.file i)) :
    OldFile args t root R m ↔ limit args root m < args.now - t.disk.modified i := by
  constructor
  · rintro ⟨j, hj, hold⟩
    obtain rfl : i = j := Entry.file.inj (Option.some.inj (hf.symm.trans hj))
    exact hold
  · exact fun hold => ⟨i, hf, hold⟩

/-- What lies at a location the sweep is not done with is what lay there. -/
theorem Done.entry_of_notMem (h : Done args t root R D s) (hm : m ∉ D) :
    s.tree.entry (R ++ m) = t.entry (R ++ m) :=
  h.stays m fun hD => absurd hD hm

/-- The sweep's test of a file it finds is the one it is meant to make. -/
theorem olderThan_below {i : Nat} (hl : ∀ x ∈ l ++ [a], IsName x)
    (hmodified : v.disk.modified = t.disk.modified)
    (hfind : v.find true (below root (l ++ [a])) = .ok (R ++ (l ++ [a]), .file i)) :
    olderThan noSweepFault v (below root (l ++ [a]))
        (fileTtl args (fileName (below root l) = some quarantineDir) (below root (l ++ [a])))
        args.now = true ↔
      limit args root (l ++ [a]) < args.now - t.disk.modified i := by
  rw [below_concat, fileTtl_below args root hl, ← below_concat, olderThan, noSweepFault,
    attempt_none, FileTree.metadata, hfind]
  show (if v.disk.modified i ≤ args.now then
    decide (limit args root (l ++ [a]) < args.now - v.disk.modified i) else false) = true ↔ _
  rw [hmodified]
  split
  · exact decide_eq_true_iff
  · constructor
    · intro hfalse
      cases hfalse
    · omega

/-- **A file** goes if it is older than its limit. -/
theorem sweepFile_spec (hwet : args.dryRun = false)
    (h : Done args t root R D s) {i : Nat} (hm : l ++ [a] ∉ D)
    (hf : t.entry (R ++ (l ++ [a])) = some (.file i))
    (hfind : ∀ b, s.tree.find b (below root (l ++ [a])) = .ok (R ++ (l ++ [a]), .file i)) :
    Outcome args t root R (D ∪ {x | l ++ [a] <+: x})
      (sweepFile args noSweepFault (fileName (below root l) = some quarantineDir)
        (below root (l ++ [a])) s) := by
  have hnames : ∀ x ∈ l ++ [a], IsName x := fun x hx =>
    isName_of_entry (show t.entry (R ++ (l ++ [a])) ≠ none by rw [hf]; simp) x
      (List.mem_append_right R hx)
  -- the age is that of the first tree: nothing swept so far has touched the file
  have hold : olderThan noSweepFault s.tree (below root (l ++ [a]))
      (fileTtl args (fileName (below root l) = some quarantineDir) (below root (l ++ [a])))
      args.now = true ↔ limit args root (l ++ [a]) < args.now - t.disk.modified i :=
    olderThan_below hnames h.modified (hfind true)
  have hne : l ++ [a] ≠ [] := by simp
  have hrest : ∀ x, l ++ [a] <+: x → x ≠ l ++ [a] → x ∈ D ∨ t.entry (R ++ x) = none :=
    fun x hx hxm => Or.inr (entry_below_file hf hx hxm)
  have hnotdir : ¬ t.entry (R ++ (l ++ [a])) = some .dir := by simp [hf]
  unfold sweepFile
  by_cases hlim : limit args root (l ++ [a]) < args.now - t.disk.modified i
  · rw [if_pos (hold.mpr hlim), hwet, if_neg (by simp), noSweepFault, attempt_none,
      FileTree.removeFile, hfind false]
    have herase : s.tree.Childless (R ++ (l ++ [a])) :=
      childless_of_entry (h.entry_of_notMem hm ▸ hf) rfl
    refine h.add (d := [l ++ [a]]) (p := []) hne hm hrest
      (fun _ => entry_eraseAt_self herase)
      (fun hk => absurd hlim ((kept_file hf).mp hk)) (fun L hL => entry_eraseAt_ne hL) cwd_eraseAt
      data_eraseAt sameContents_eraseAt.modified (by simp) ?_ ?_
    · simpa using (oldFile_file hf).mpr hlim
    · simp [hnotdir]
  · rw [if_neg fun ho => hlim (hold.mp ho)]
    refine h.add (d := []) (p := []) hne hm hrest
      (fun hk => absurd ((kept_file hf).mpr hlim) hk) (fun _ => rfl) (fun _ _ => rfl) rfl rfl rfl
      (by simp) ?_ ?_
    · simpa using fun ho => hlim ((oldFile_file hf).mp ho)
    · simp [hnotdir]

/-- A directory holds a file that stays exactly when something in it does. -/
theorem kept_dir (hdir : t.entry (R ++ l) = some .dir) :
    Kept args t root R l ↔
      ∃ a, t.entry (R ++ (l ++ [a])) ≠ none ∧ Kept args t root R (l ++ [a]) := by
  constructor
  · rintro ⟨m', i, hi, hyoung⟩
    cases m' with
    | nil =>
        rw [List.append_nil, hdir] at hi
        cases hi
    | cons a m' =>
        have hsplit : l ++ a :: m' = l ++ [a] ++ m' := List.append_cons l a m'
        refine ⟨a, ?_, m', i, hsplit ▸ hi, hsplit ▸ hyoung⟩
        intro hnone
        have hpre : R ++ (l ++ [a]) <+: R ++ (l ++ a :: m') := ⟨m', by simp⟩
        by_cases hm' : m' = []
        · subst hm'
          rw [hi] at hnone
          cases hnone
        · have hd : t.entry (R ++ (l ++ [a])) = some .dir :=
            dir_above hpre (by simpa using Ne.symm hm') (by rw [hi]; simp)
          rw [hnone] at hd
          cases hd
  · rintro ⟨a, -, m', hy⟩
    exact ⟨a :: m', by rwa [List.append_cons]⟩

/-- **A directory the sweep comes back from** goes if nothing in it stays. -/
theorem pruneDir_spec (hp : SweepPlace t root R) (hwet : args.dryRun = false)
    (h : Done args t root R D s) (hm : l ++ [a] ∉ D)
    (hin : ∀ x, l ++ [a] <+: x → x ≠ l ++ [a] → x ∈ D)
    (hdir : t.entry (R ++ (l ++ [a])) = some .dir) :
    Outcome args t root R (D ∪ {x | l ++ [a] <+: x})
      (pruneDir args noSweepFault (below root (l ++ [a])) s) := by
  have hne : l ++ [a] ≠ [] := by simp
  have hnotold : ¬ OldFile args t root R (l ++ [a]) := by
    rintro ⟨i, hi, -⟩
    rw [hdir] at hi
    cases hi
  have hself : s.tree.entry (R ++ (l ++ [a])) = some .dir := (h.entry_of_notMem hm).trans hdir
  have hchild : ∀ b, b ∈ s.tree.children (R ++ (l ++ [a])) ↔
      t.entry (R ++ (l ++ [a] ++ [b])) ≠ none ∧ Kept args t root R (l ++ [a] ++ [b]) := by
    intro b
    rw [mem_children, List.append_assoc R]
    have hb : l ++ [a] ++ [b] ∈ D := hin _ (List.prefix_append ..) (by simp)
    by_cases hk : Kept args t root R (l ++ [a] ++ [b])
    · rw [h.stays _ fun _ => hk]
      exact ⟨fun hb => ⟨hb, hk⟩, And.left⟩
    · rw [h.gone _ hb hk]
      exact ⟨fun hb => absurd rfl hb, fun hb => absurd hb.2 hk⟩
  unfold pruneDir
  rw [noSweepFault, attempt_none]
  rcases h.toShrunk.found hp hself with hf | ⟨hf, hs⟩
  · have hread : s.tree.readDir (below root (l ++ [a])) =
        .ok (s.tree.children (R ++ (l ++ [a]))) := by
      rw [FileTree.readDir, hf true]
    rw [hread]
    cases hc : s.tree.children (R ++ (l ++ [a])) with
    | cons b rest =>
        -- something stays in it, and so does the directory
        have hk : Kept args t root R (l ++ [a]) :=
          (kept_dir hdir).mpr ⟨b, (hchild b).mp (hc ▸ List.mem_cons_self ..)⟩
        simp only [nextIsNone_cons, Bool.false_eq_true, if_false]
        refine h.add (d := []) (p := []) hne hm (fun x hx hxm => Or.inl (hin x hx hxm))
          (fun hgone => absurd hk hgone) (fun _ => rfl) (fun _ _ => rfl) rfl rfl rfl (by simp) ?_ ?_
        · simpa using hnotold
        · simpa [hdir] using hk
    | nil =>
        have hk : ¬ Kept args t root R (l ++ [a]) := by
          rw [kept_dir hdir]
          rintro ⟨b, hb⟩
          have hmem : b ∈ s.tree.children (R ++ (l ++ [a])) := (hchild b).mpr hb
          rw [hc] at hmem
          cases hmem
        have hroot : R ++ (l ++ [a]) ≠ [] := by simp
        have hgo : discardDir noSweepFault (below root (l ++ [a])) s.tree =
            s.tree.eraseAt (R ++ (l ++ [a])) := by
          rw [discardDir, noSweepFault, attempt_none, removeDir, hf false]
          simp only [if_neg hroot, if_pos hc]
        have hnext : nextIsNone (noSweepFault .firstEntry (below root (l ++ [a]))) [] = true := rfl
        simp only [hnext, if_true, hwet, Bool.false_eq_true, if_false, hgo]
        refine h.add (d := []) (p := [l ++ [a]]) hne hm (fun x hx hxm => Or.inl (hin x hx hxm))
          (fun _ => entry_eraseAt_self ⟨hroot, hc⟩) (fun hkept => absurd hkept hk)
          (fun L hL => entry_eraseAt_ne hL) cwd_eraseAt data_eraseAt
          sameContents_eraseAt.modified ?_ ?_ ?_
        · rw [List.map_nil, List.append_nil, List.map_singleton]
        · simpa using hnotold
        · simpa [hdir] using hk
  · obtain ⟨err, hf⟩ := hf true
    rw [FileTree.readDir, hf]
    exact hs

/-- **An entry** is swept: `visitDir` sweeps what is in a directory. -/
theorem visitEntry_spec (hp : SweepPlace t root R) (hwet : args.dryRun = false)
    (h : Done args t root R D s) (hm : ∀ x ∈ D, ¬ l ++ [a] <+: x)
    (hbound : t.entry (R ++ (l ++ [a])) ≠ none)
    {visitDir : OsStr → Swept → Swept × Except Errno Unit}
    (hvisit : t.entry (R ++ (l ++ [a])) = some .dir →
      Outcome args t root R (D ∪ {x | l ++ [a] <+: x ∧ x ≠ l ++ [a]})
        (visitDir (below root (l ++ [a])) s)) :
    Outcome args t root R (D ∪ {x | l ++ [a] <+: x})
      (visitEntry args noSweepFault visitDir (fileName (below root l) = some quarantineDir)
        (below root (l ++ [a])) s) := by
  have hmem : l ++ [a] ∉ D := fun hD => hm _ hD List.prefix_rfl
  obtain ⟨e, he⟩ := Option.ne_none_iff_exists'.mp hbound
  have hse : s.tree.entry (R ++ (l ++ [a])) = some e := (h.entry_of_notMem hmem).trans he
  unfold visitEntry
  rw [noSweepFault, attempt_none, FileTree.symlinkMetadata]
  rcases h.toShrunk.found hp hse with hf | ⟨hf, hs⟩
  · rw [hf false]
    cases e with
    | link target => exact absurd he (hp.noLinks _ target)
    | file i => exact sweepFile_spec hwet h hmem he hf
    | dir =>
        have hin := hvisit he
        rcases hv : visitDir (below root (l ++ [a])) s with ⟨s', err | ⟨⟩⟩
        · rw [hv] at hin
          exact hin
        · rw [hv] at hin
          have hnot : l ++ [a] ∉ D ∪ {x | l ++ [a] <+: x ∧ x ≠ l ++ [a]} :=
            fun hD => hD.elim hmem fun hx => hx.2 rfl
          have hprune := pruneDir_spec hp hwet hin hnot (fun x hx hxm => Or.inr ⟨hx, hxm⟩) he
          -- the directory itself comes after everything in it
          have hunion : D ∪ {x | l ++ [a] <+: x ∧ x ≠ l ++ [a]} ∪ {x | l ++ [a] <+: x} =
              D ∪ {x | l ++ [a] <+: x} := by
            have hsub : {x | l ++ [a] <+: x ∧ x ≠ l ++ [a]} ∪ {x | l ++ [a] <+: x} =
                {x | l ++ [a] <+: x} := Set.union_eq_self_of_subset_left fun x hx => hx.1
            rw [Set.union_assoc, hsub]
          rw [hunion] at hprune
          exact hprune
  · obtain ⟨err, hf⟩ := hf false
    rw [hf]
    exact hs

/-- **The entries of a directory** are swept, one after the other. -/
theorem visitEntries_spec (hp : SweepPlace t root R) (hwet : args.dryRun = false)
    {visitDir : OsStr → Swept → Swept × Except Errno Unit}
    (hvisit : ∀ a D s, Done args t root R D s → (∀ x ∈ D, ¬ l ++ [a] <+: x) →
      t.entry (R ++ (l ++ [a])) = some .dir →
      Outcome args t root R (D ∪ {x | l ++ [a] <+: x ∧ x ≠ l ++ [a]})
        (visitDir (below root (l ++ [a])) s))
    {names : List OsStr} (hnodup : names.Nodup)
    (hbound : ∀ a ∈ names, t.entry (R ++ (l ++ [a])) ≠ none)
    (h : Done args t root R D s) (hm : ∀ a ∈ names, ∀ x ∈ D, ¬ l ++ [a] <+: x) :
    Outcome args t root R (D ∪ {x | ∃ a ∈ names, l ++ [a] <+: x})
      (visitEntries args noSweepFault visitDir (below root l) names s) := by
  induction names generalizing D s with
  | nil =>
      have hunion : D ∪ {x | ∃ a ∈ ([] : List OsStr), l ++ [a] <+: x} = D := by simp
      rw [hunion]
      exact h
  | cons a names ih =>
      have hentry := visitEntry_spec hp hwet h (hm a (List.mem_cons_self ..))
        (hbound a (List.mem_cons_self ..)) (hvisit a D s h (hm a (List.mem_cons_self ..)))
      have hnext : noSweepFault .nextEntry (below root (l ++ [a])) = none := rfl
      unfold visitEntries
      rw [← below_concat, hnext]
      simp only
      split
      · rename_i s' e hv
        rw [hv] at hentry
        exact hentry
      · rename_i s' hv
        rw [hv] at hentry
        have hrest := ih (List.nodup_cons.mp hnodup).2
          (fun b hb => hbound b (List.mem_cons_of_mem _ hb)) hentry ?_
        · have hunion : D ∪ {x | l ++ [a] <+: x} ∪ {x | ∃ b ∈ names, l ++ [b] <+: x} =
              D ∪ {x | ∃ b ∈ a :: names, l ++ [b] <+: x} := by
            ext x
            simp [or_assoc]
          rwa [hunion] at hrest
        · rintro b hb x (hx | hx) hbx
          · exact hm b (List.mem_cons_of_mem _ hb) x hx hbx
          · -- two entries of one directory have nothing below them in common
            have hab : l ++ [a] = l ++ [b] :=
              (List.prefix_of_prefix_length_le hx hbx (by simp)).eq_of_length (by simp)
            obtain rfl : a = b := by simpa using hab
            exact (List.nodup_cons.mp hnodup).1 hb

/-- A path of directories is no longer than the number of names. -/
theorem length_lt_nameCount (h : t.entry (R ++ l) ≠ none) : l.length < nameCount t := by
  have hnodup : ((List.range (l.length + 1)).map fun k => R ++ l.take k).Nodup := by
    refine List.Nodup.map_on (fun j hj k hk hjk => ?_) List.nodup_range
    have hlen := congrArg List.length (List.append_cancel_left hjk)
    rw [List.length_take, List.length_take] at hlen
    rw [List.mem_range] at hj hk
    omega
  have hsub : ((List.range (l.length + 1)).map fun k => R ++ l.take k) ⊆ t.disk.entries.keys := by
    intro M hM
    obtain ⟨k, -, rfl⟩ := List.mem_map.mp hM
    have hbound : t.entry (R ++ l.take k) ≠ none := by
      by_cases hk : l.take k = l
      · rw [hk]
        exact h
      · have hdir : t.entry (R ++ l.take k) = some .dir :=
          dir_above ((List.prefix_append_right_inj R).mpr (List.take_prefix k l))
            (fun he => hk (List.append_cancel_left he)) h
        rw [hdir]
        simp
    rw [← AList.mem_keys, ← AList.lookup_isSome, Option.isSome_iff_ne_none]
    exact hbound
  have hle := (List.subperm_of_subset hnodup hsub).length_le
  rw [List.length_map, List.length_range] at hle
  exact hle

/-- What lies below a directory lies at or below something in it. -/
theorem child_above {names : List OsStr}
    (hnames : ∀ a, a ∈ names ↔ t.entry (R ++ (l ++ [a])) ≠ none) {x : Loc}
    (hx : t.entry (R ++ x) ≠ none) : (∃ a ∈ names, l ++ [a] <+: x) ↔ l <+: x ∧ x ≠ l := by
  constructor
  · rintro ⟨a, -, hax⟩
    refine ⟨(List.prefix_append l [a]).trans hax, ?_⟩
    rintro rfl
    have hlen := hax.length_le
    rw [List.length_append, List.length_singleton] at hlen
    omega
  · rintro ⟨⟨r, rfl⟩, hne⟩
    cases r with
    | nil => exact absurd (List.append_nil l) hne
    | cons a r =>
        have hax : l ++ [a] <+: l ++ a :: r := ⟨r, by simp⟩
        refine ⟨a, (hnames a).mpr ?_, hax⟩
        by_cases hr : l ++ [a] = l ++ a :: r
        · rw [hr]
          exact hx
        · have hpre : R ++ (l ++ [a]) <+: R ++ (l ++ a :: r) :=
            (List.prefix_append_right_inj R).mpr hax
          rw [dir_above hpre (fun he => hr (List.append_cancel_left he)) hx]
          simp

/-- **A directory** is swept: everything below it. -/
theorem visit_spec (hp : SweepPlace t root R) (hwet : args.dryRun = false) (fuel : Nat)
    (hfuel : nameCount t < fuel + l.length) (h : Done args t root R D s)
    (hm : ∀ x ∈ D, ¬ l <+: x) (hdir : t.entry (R ++ l) = some .dir) :
    Outcome args t root R (D ∪ {x | l <+: x ∧ x ≠ l})
      (visit args noSweepFault fuel (below root l) s) := by
  induction fuel generalizing l D s with
  | zero =>
      have hlen : l.length < nameCount t :=
        length_lt_nameCount (show t.entry (R ++ l) ≠ none by simp [hdir])
      omega
  | succ fuel ih =>
      have hl : l ∉ D := fun hD => hm l hD List.prefix_rfl
      have hsdir : s.tree.entry (R ++ l) = some .dir := (h.entry_of_notMem hl).trans hdir
      -- nothing below the directory is swept yet, so its children are those of the first tree
      have hsame : ∀ a, s.tree.entry (R ++ (l ++ [a])) = t.entry (R ++ (l ++ [a])) := fun a =>
        h.entry_of_notMem fun hD => hm _ hD (List.prefix_append l [a])
      unfold visit
      rw [noSweepFault, attempt_none, FileTree.readDir]
      rcases h.toShrunk.found_dir hp hsdir with hf | ⟨⟨err, hf⟩, hs⟩
      · rw [hf]
        have hall : Outcome args t root R
            (D ∪ {x | ∃ a ∈ s.tree.children (R ++ l), l ++ [a] <+: x})
            (visitEntries args noSweepFault (visit args noSweepFault fuel) (below root l)
              (s.tree.children (R ++ l)) s) := visitEntries_spec hp hwet
          (fun a D s hD hm hd => ih (by rw [List.length_append]; simp; omega) hD hm hd)
          (s.tree.children_nodup (R ++ l))
          (fun a ha => by
            rw [← hsame, ← List.append_assoc]
            exact s.tree.mem_children.mp ha)
          h (fun a _ x hx hax => hm x hx ((List.prefix_append l [a]).trans hax))
        refine hall.congr ?_ ?_ ?_
        · rintro (hD | ⟨hnil, hne⟩)
          · exact h.top hD
          · exact hne (List.prefix_nil.mp hnil).symm
        · rintro x x' (hx | ⟨hx, hne⟩) hxx
          · exact Or.inl (h.down x x' hx hxx)
          · refine Or.inr ⟨hx.trans hxx, fun he => hne ?_⟩
            exact (hxx.trans (he ▸ List.prefix_rfl)).eq_of_length_le hx.length_le
        · refine fun x hbound => or_congr_right (child_above (fun a => ?_) hbound)
          rw [mem_children, List.append_assoc, hsame]
      · rw [hf]
        exact hs

/-! ## The whole sweep -/

theorem done_start (args : SweepArgs) (t : FileTree) (root : OsStr) (R : Loc) :
    Done args t root R ∅ ⟨t, ⟨[], []⟩⟩ where
  toShrunk := .refl t R
  top := Set.notMem_empty _
  down _ _ hm _ := absurd hm (Set.notMem_empty _)
  gone _ hm _ := absurd hm (Set.notMem_empty _)
  stays _ _ := rfl
  report := ⟨[], [], rfl, List.nodup_nil, List.Pairwise.nil, by simp, by simp⟩

/-- A sweep is done with everything below its root, unless the root is not found any
more. -/
theorem sweep_spec (hp : SweepPlace t root R) (hwet : args.dryRun = false) :
    Outcome args t root R {x | x ≠ []}
      (visit args noSweepFault (nameCount t + 1) root ⟨t, ⟨[], []⟩⟩) := by
  have hdir : t.entry (R ++ []) = some .dir := by
    rw [List.append_nil]
    exact hp.dir
  have hvisit := visit_spec hp hwet (nameCount t + 1) (l := []) (by simp) (done_start args t root R)
    (fun x hx => absurd hx (Set.notMem_empty x)) hdir
  have hall : ∅ ∪ {x : Loc | [] <+: x ∧ x ≠ []} = {x | x ≠ []} := by
    ext x
    simp
  rwa [hall, below_nil] at hvisit

/-- A root that is not reached through directories below it is found as long as they are
there. -/
theorem steady_of_trail (hp : SweepPlace t root R)
    (htrail : ∀ D ∈ trail t.entry maxSymlinks (if isAbsolute root then [] else t.cwd) (steps root),
      R <+: D → D = R) : Steady t root R := by
  intro v hv
  refine locate_stable hv.cwd (hv.link_iff hp) (fun D hD hdir => ?_) hp.leads
  rcases hv.entry_or D with he | ⟨-, hRD, hne⟩
  · rw [he, hdir]
  · exact absurd (htrail D hD hRD) hne

/-- A file the sweep is done with is there exactly when it was there and is not old. -/
theorem Done.file_iff (hp : SweepPlace t root R) (h : Done args t root R {x | x ≠ []} s) (m : Loc)
    (i : Nat) : s.tree.entry (R ++ m) = some (.file i) ↔
      t.entry (R ++ m) = some (.file i) ∧ ¬ limit args root m < args.now - t.disk.modified i := by
  constructor
  · intro hi
    have hm : m ≠ [] := by
      rintro rfl
      rw [h.entry_of_notMem (by simp), List.append_nil, hp.dir] at hi
      cases hi
    have hk : Kept args t root R m := by
      by_contra hk
      rw [h.gone m hm hk] at hi
      cases hi
    rw [h.stays m fun _ => hk] at hi
    exact ⟨hi, (kept_file hi).mp hk⟩
  · rintro ⟨hi, hyoung⟩
    rw [h.stays m fun _ => (kept_file hi).mpr hyoung, hi]

theorem Done.kept_iff (hp : SweepPlace t root R) (h : Done args t root R {x | x ≠ []} s) (m : Loc) :
    Kept args t root R m ↔ ∃ m' i, s.tree.entry (R ++ (m ++ m')) = some (.file i) := by
  constructor
  · rintro ⟨m', i, hi, hyoung⟩
    exact ⟨m', i, (h.file_iff hp _ i).mpr ⟨hi, hyoung⟩⟩
  · rintro ⟨m', i, hi⟩
    exact ⟨m', i, (h.file_iff hp _ i).mp hi⟩

/-- A directory below the root that the sweep is done with is there exactly when it was
and a file below it is. -/
theorem Done.dir_iff (hp : SweepPlace t root R) (h : Done args t root R {x | x ≠ []} s)
    (hm : m ≠ []) : s.tree.entry (R ++ m) = some .dir ↔
      t.entry (R ++ m) = some .dir ∧ ∃ m' i, s.tree.entry (R ++ (m ++ m')) = some (.file i) := by
  rw [← h.kept_iff hp]
  constructor
  · intro hd
    have hk : Kept args t root R m := by
      by_contra hk
      rw [h.gone m hm hk] at hd
      cases hd
    exact ⟨h.stays m (fun _ => hk) ▸ hd, hk⟩
  · rintro ⟨hd, hk⟩
    rw [h.stays m fun _ => hk, hd]

end Sweep

/-- **What a sweep is meant to leave** of the tree `t`, and to report. -/
structure SweptExactly (args : SweepArgs) (root : OsStr) (R : Loc) (t t' : FileTree)
    (report : SweepReport) : Prop where
  /-- A file is there exactly when it was and is not older than its limit. -/
  file : ∀ m i, t'.entry (R ++ m) = some (.file i) ↔
    t.entry (R ++ m) = some (.file i) ∧ ¬ limit args root m < args.now - t.disk.modified i
  /-- A directory is there exactly when it was and a file below it is. -/
  dir : ∀ m, m ≠ [] → (t'.entry (R ++ m) = some .dir ↔
    t.entry (R ++ m) = some .dir ∧ ∃ m' i, t'.entry (R ++ (m ++ m')) = some (.file i))
  /-- Nothing else goes, and nothing changes. -/
  rest : ∀ L, t'.entry L = t.entry L ∨ t'.entry L = none ∧ R <+: L ∧ L ≠ R
  data : t'.disk.data = t.disk.data
  modified : t'.disk.modified = t.disk.modified
  /-- The report lists what went once, and a directory after those in it. -/
  deleted_nodup : report.deleted.Nodup
  pruned_nodup : report.prunedDirs.Nodup
  listed : ∃ dl pl : List Loc, report = ⟨dl.map (below root), pl.map (below root)⟩ ∧
    (∀ m, m ∈ dl ↔ (∃ i, t.entry (R ++ m) = some (.file i)) ∧ t'.entry (R ++ m) = none) ∧
    (∀ m, m ∈ pl ↔ t.entry (R ++ m) = some .dir ∧ t'.entry (R ++ m) = none) ∧
    pl.Pairwise fun a b => ¬ a <+: b

section Sweep
variable {args : SweepArgs} {t : FileTree} {root : OsStr} {R : Loc} {s : Swept}

/-- Different bound locations are reported under different paths. -/
theorem nodup_below {l : List Loc} (hl : l.Nodup) (hb : ∀ m ∈ l, t.entry (R ++ m) ≠ none) :
    (l.map (below root)).Nodup := by
  refine hl.map_on fun m hm m' hm' he => below_injective ?_ ?_ he
  · exact fun x hx => isName_of_entry (hb m hm) x (List.mem_append_right R hx)
  · exact fun x hx => isName_of_entry (hb m' hm') x (List.mem_append_right R hx)

theorem Done.sweptExactly (hp : SweepPlace t root R) (h : Done args t root R {x | x ≠ []} s) :
    SweptExactly args root R t s.tree s.report := by
  have htop : ∀ m, s.tree.entry (R ++ m) = none → m ≠ [] := by
    rintro m hn rfl
    rw [h.entry_of_notMem (by simp), List.append_nil, hp.dir] at hn
    cases hn
  -- what is there at first is gone at the end exactly when it is not kept
  have hgone : ∀ m, t.entry (R ++ m) ≠ none →
      (m ≠ [] ∧ ¬ Kept args t root R m ↔ s.tree.entry (R ++ m) = none) := by
    intro m hb
    constructor
    · exact fun hm => h.gone m hm.1 hm.2
    · refine fun hn => ⟨htop m hn, fun hk => hb ?_⟩
      rw [← h.stays m fun _ => hk, hn]
  obtain ⟨dl, pl, hrep, hdl, hpl, hmdl, hmpl⟩ := h.report
  have hpn : pl.Nodup := by
    refine hpl.imp ?_
    rintro a b hab rfl
    exact hab List.prefix_rfl
  refine
    { file := h.file_iff hp, dir := fun m hm => h.dir_iff hp hm, rest := h.entry_or,
      data := h.data, modified := h.modified, deleted_nodup := ?_, pruned_nodup := ?_,
      listed := ⟨dl, pl, hrep, fun m => ?_, fun m => ?_, hpl⟩ }
  · rw [hrep]
    refine nodup_below (t := t) (R := R) hdl fun m hm => ?_
    obtain ⟨i, hi, -⟩ := ((hmdl m).mp hm).2
    rw [hi]
    simp
  · rw [hrep]
    refine nodup_below (t := t) (R := R) hpn fun m hm => ?_
    rw [((hmpl m).mp hm).2.1]
    simp
  · rw [hmdl]
    constructor
    · rintro ⟨hm, i, hi, hold⟩
      refine ⟨⟨i, hi⟩, (hgone m (by simp [hi])).mp ⟨hm, fun hk => (kept_file hi).mp hk hold⟩⟩
    · rintro ⟨⟨i, hi⟩, hn⟩
      obtain ⟨hm, hk⟩ := (hgone m (by simp [hi])).mpr hn
      refine ⟨hm, i, hi, ?_⟩
      by_contra hyoung
      exact hk ((kept_file hi).mpr hyoung)
  · rw [hmpl]
    constructor
    · rintro ⟨hm, hd, hk⟩
      exact ⟨hd, (hgone m (by simp [hd])).mp ⟨hm, hk⟩⟩
    · rintro ⟨hd, hn⟩
      obtain ⟨hm, hk⟩ := (hgone m (by simp [hd])).mpr hn
      exact ⟨hm, hd, hk⟩

/-- What a sweep leaves has nothing more for it to do. -/
theorem SweptExactly.settled {t' : FileTree} {report : SweepReport}
    (h : SweptExactly args root R t t' report) (hp : SweepPlace t' root R)
    (hdone : Done args t' root R {x | x ≠ []} s) :
    s.report = ⟨[], []⟩ ∧ ∀ L, s.tree.entry L = t'.entry L := by
  have hyoung : ∀ m i, t'.entry (R ++ m) = some (.file i) →
      ¬ limit args root m < args.now - t'.disk.modified i := fun m i hi => by
    rw [h.modified]
    exact ((h.file m i).mp hi).2
  -- what is left was kept, and is kept again
  have hkept : ∀ m, m ≠ [] → t'.entry (R ++ m) ≠ none → Kept args t' root R m := by
    intro m hm hb
    obtain ⟨e, he⟩ := Option.ne_none_iff_exists'.mp hb
    cases e with
    | file i => exact (kept_file he).mpr (hyoung m i he)
    | dir =>
        obtain ⟨-, m', i, hi⟩ := (h.dir m hm).mp he
        exact ⟨m', i, hi, hyoung _ i hi⟩
    | link target => exact absurd he (hp.noLinks m target)
  obtain ⟨dl, pl, hrep, -, -, hmdl, hmpl⟩ := hdone.report
  have hdl : dl = [] := by
    refine List.eq_nil_iff_forall_not_mem.mpr fun m hm => ?_
    obtain ⟨-, i, hi, hold⟩ := (hmdl m).mp hm
    exact hyoung m i hi hold
  have hpl : pl = [] := by
    refine List.eq_nil_iff_forall_not_mem.mpr fun m hm => ?_
    obtain ⟨hne, hd, hk⟩ := (hmpl m).mp hm
    exact hk (hkept m hne (by simp [hd]))
  refine ⟨by rw [hrep, hdl, hpl]; rfl, fun L => ?_⟩
  rcases hdone.entry_or L with he | ⟨he, ⟨m, rfl⟩, hm⟩
  · exact he
  · by_cases hn : t'.entry (R ++ m) = none
    · rw [he, hn]
    · exact hdone.stays m fun _ => hkept m (by simpa using hm) hn

/-- The place of a sweep that is done is a place for another one, as long as it is
found. -/
theorem Done.place (hp : SweepPlace t root R) (h : Done args t root R {x | x ≠ []} s)
    (hroot : s.tree.locate true root = .ok R) : SweepPlace s.tree root R where
  leads := hroot
  dir := by rw [h.entry_root, hp.dir]
  noLinks m target hl := hp.noLinks m target ((h.link_iff hp _ target).mp hl)

/-- A steady place stays one. -/
theorem Steady.shrunk (hs : Steady t root R) (h : Shrunk t R s.tree) : Steady s.tree root R :=
  fun v hv => hs v (h.trans hv)

/-- A sweep that succeeds is done with everything below its root. -/
theorem done_of_sweep {report : SweepReport} (hp : SweepPlace t root R) (hwet : args.dryRun = false)
    (h : (sweep args noSweepFault root t).2 = .ok report) :
    Done args t root R {x | x ≠ []} ⟨(sweep args noSweepFault root t).1, report⟩ := by
  have hspec := sweep_spec hp hwet
  unfold sweep at h ⊢
  split at h
  · rename_i s hv
    rw [hv] at hspec
    obtain rfl := Except.ok.inj h
    exact hspec
  · cases h

/-- A sweep from a place that stays found succeeds. -/
theorem sweep_ok (hp : SweepPlace t root R) (hwet : args.dryRun = false) (hs : Steady t root R) :
    ∃ report, (sweep args noSweepFault root t).2 = .ok report := by
  have hspec := sweep_spec hp hwet
  unfold sweep
  split
  · exact ⟨_, rfl⟩
  · rename_i s e hv
    rw [hv] at hspec
    exact absurd hs hspec

/-- A sweep that succeeds found its root. -/
theorem find_of_sweep {report : SweepReport} (h : (sweep args noSweepFault root t).2 = .ok report) :
    ∃ A, t.find true root = .ok (A, .dir) := by
  cases hf : t.find true root with
  | ok found =>
      obtain ⟨A, e⟩ := found
      cases e with
      | dir => exact ⟨A, rfl⟩
      | file i => simp [sweep, visit, noSweepFault, FileTree.readDir, hf] at h
      | link target => simp [sweep, visit, noSweepFault, FileTree.readDir, hf] at h
  | error e => simp [sweep, visit, noSweepFault, FileTree.readDir, hf] at h

/-- **Exactness of the retention sweep.**  It succeeds, when the way to its root does not
lead through directories below it.  Where it succeeds it leaves and reports exactly what
it is meant to, and a second sweep removes nothing. -/
theorem sweep_exact (hp : SweepPlace t root R) (hwet : args.dryRun = false) :
    let after := (sweep args noSweepFault root t).1
    ((∀ D ∈ trail t.entry maxSymlinks (if isAbsolute root then [] else t.cwd) (steps root),
        R <+: D → D = R) →
      ∃ report, (sweep args noSweepFault root t).2 = .ok report ∧
        (sweep args noSweepFault root after).2 = .ok ⟨[], []⟩) ∧
    ∀ report, (sweep args noSweepFault root t).2 = .ok report →
      SweptExactly args root R t after report ∧
      ∀ report', (sweep args noSweepFault root after).2 = .ok report' →
        report' = ⟨[], []⟩ ∧
        ∀ L, (sweep args noSweepFault root after).1.entry L = after.entry L := by
  intro after
  have hagain : ∀ report, (sweep args noSweepFault root t).2 = .ok report →
      ∀ report', (sweep args noSweepFault root after).2 = .ok report' → report' = ⟨[], []⟩ ∧
        ∀ L, (sweep args noSweepFault root after).1.entry L = after.entry L := by
    intro report hok report' hok'
    have hdone := done_of_sweep hp hwet hok
    obtain ⟨A, hA⟩ := find_of_sweep hok'
    have hAR : A = R :=
      Except.ok.inj (((hdone.grows hp).locate (find_ok.mp hA).1).symm.trans hp.leads)
    have hp' : SweepPlace after root R := hdone.place hp (hAR ▸ (find_ok.mp hA).1)
    exact (hdone.sweptExactly hp).settled hp' (done_of_sweep hp' hwet hok')
  constructor
  · intro htrail
    -- no pruned directory is on the way to the root, so both sweeps find it
    have hs : Steady t root R := steady_of_trail hp htrail
    obtain ⟨report, hok⟩ := sweep_ok hp hwet hs
    have hdone := done_of_sweep hp hwet hok
    have hp' : SweepPlace after root R := hdone.place hp (hs _ hdone.toShrunk)
    obtain ⟨report', hok'⟩ := sweep_ok hp' hwet (hs.shrunk hdone.toShrunk)
    refine ⟨report, hok, ?_⟩
    rw [hok', (hagain report hok report' hok').1]
  · exact fun report hok => ⟨(done_of_sweep hp hwet hok).sweptExactly hp, hagain report hok⟩

end Sweep

/-! ## Two archives -/

/-- Sweep at 50 with the limits 40, 2 and 1. -/
def sweepAt50 : SweepArgs := ⟨40, 2, 1, 50, false⟩

/-- An archive with an old clip, two directories deep. -/
def clipYard : FileTree :=
  ((FileTree.bare.mkdirAt [ofString "c"]).mkdirAt [ofString "c", ofString "d"]).createAt
    [ofString "c", ofString "d", ofString "x"]

theorem clipYard_place : SweepPlace clipYard [sep] [] where
  leads := by decide +kernel
  dir := by decide +kernel
  noLinks m target := by
    have hc : FileTree.bare.Vacant [ofString "c"] := by decide
    have hd : (FileTree.bare.mkdirAt [ofString "c"]).Vacant [ofString "c", ofString "d"] := by
      decide
    have hx : ((FileTree.bare.mkdirAt [ofString "c"]).mkdirAt [ofString "c", ofString "d"]).Vacant
        [ofString "c", ofString "d", ofString "x"] := by decide +kernel
    refine no_links_of_entry (no_links_of_entry (no_links_of_entry no_links_bare
      (fun M => entry_mkdirAt_ne) fun target => ?_) (fun M => entry_mkdirAt_ne) fun target => ?_)
      (fun M => entry_createAt_ne) (fun target => ?_) m target
    · rw [entry_mkdirAt_self hc]
      simp
    · rw [entry_mkdirAt_self hd]
      simp
    · rw [entry_createAt_self hx]
      simp

theorem clipYard_swept : ∃ report, (sweep sweepAt50 noSweepFault [sep] clipYard).2 = .ok report ∧
    SweptExactly sweepAt50 [sep] [] clipYard (sweep sweepAt50 noSweepFault [sep] clipYard).1
      report := by
  have hwet : sweepAt50.dryRun = false := rfl
  obtain ⟨hok, hexact⟩ := sweep_exact clipYard_place hwet
  obtain ⟨report, hreport, -⟩ := hok (by decide +kernel)
  exact ⟨report, hreport, (hexact report hreport).1⟩

/-- A name that ends in the staging suffix and is no Unicode. -/
def illName : OsStr := .ill [0xff] :: stagingSuffix

/-- An archive with a file of that name. -/
def illYard : FileTree := FileTree.bare.createAt [illName]

/-- **A staging file whose name is no Unicode** is kept as long as a clip. -/
theorem ill_staging_kept :
    stagingSuffix.isSuffixOf illName = true ∧ fileName [sep] ≠ some quarantineDir ∧
      illYard.entry [illName] = some (.file 0) ∧
      sweepAt50.stagingTtl < sweepAt50.now - illYard.disk.modified 0 ∧
      (sweep { sweepAt50 with retention := 60 } noSweepFault [sep] illYard).2 = .ok ⟨[], []⟩ ∧
      (sweep { sweepAt50 with retention := 60 } noSweepFault [sep] illYard).1.entry [illName] =
        some (.file 0) := by
  decide +kernel

end Reoftpd

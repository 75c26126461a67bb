import Reoftpd.Backend

/-!
# Two trees with alike homes

What the calls on a directory tree say of a home does not depend on the bytes of the files
in it, nor on anything outside.  Two trees have alike homes if the home leads to the same
location and the same names are bound there to the same kinds of things, of the same
sizes and times, and two names to one file in one tree exactly when they are in the other
(`AlikeHomes`).  Every call on a path of the home then has the same result in both trees
and leaves their homes alike.

Bytes do not matter since nothing but their number is looked at.  What is outside does not
since a path of the home leads through the directories above it, or through the home's own
path, and both lead to the same place.
-/
namespace Reoftpd
open UnixPath FileTree

/-- Two names are bound alike: to nothing, to directories, or to files. -/
inductive SameKind : Option (Entry OsStr) → Option (Entry OsStr) → Prop
  | absent : SameKind none none
  | dir : SameKind (some .dir) (some .dir)
  | file (i j : Nat) : SameKind (some (.file i)) (some (.file j))

/-- The names at and below `B` are the same in both trees, without a link among them, and
the kinds, sizes and times of what they are bound to. -/
structure LooksAlike (t t' : FileTree) (B : Loc) : Prop where
  there : t.entry B ≠ none
  kind : ∀ m, SameKind (t.entry (B ++ m)) (t'.entry (B ++ m))
  size : ∀ m i j, t.entry (B ++ m) = some (.file i) → t'.entry (B ++ m) = some (.file j) →
    (t.disk.data i).length = (t'.disk.data j).length
  time : ∀ m i j, t.entry (B ++ m) = some (.file i) → t'.entry (B ++ m) = some (.file j) →
    t.disk.modified i = t'.disk.modified j
  clock : t.disk.clock = t'.disk.clock
  dirSize : t.disk.dirSize = t'.disk.dirSize

/-- And two names there are bound to one file in one tree exactly when they are in the
other. -/
structure Alike (t t' : FileTree) (B : Loc) : Prop extends LooksAlike t t' B where
  hardLinks : ∀ m m' i j, t.entry (B ++ m) = some (.file i) → t'.entry (B ++ m) = some (.file j) →
    (t.entry (B ++ m') = some (.file i) ↔ t'.entry (B ++ m') = some (.file j))

/-- **The home leads to the same place in both trees**, and what is there is alike. -/
structure AlikeHomes (home : OsStr) (B : Loc) (t t' : FileTree) : Prop extends Alike t t' B where
  leads : t.locate true home = .ok B
  leads' : t'.locate true home = .ok B

/-- A path of the home: the text of a location, or names joined to the home's own path. -/
inductive HomePath (home : OsStr) (B : Loc) : OsStr → List OsStr → Prop
  | text {m : List OsStr} (names : ∀ s ∈ m, IsName s) : HomePath home B (locText (B ++ m)) m
  | joined {m : List OsStr} (names : ∀ s ∈ m, IsName s) (ne : m ≠ []) :
      HomePath home B (m.foldl join home) m

section Alike
variable {home p : OsStr} {B L : Loc} {m : List OsStr} {t t' : FileTree} {followLast : Bool}

/-! ## Where the paths of a home lead -/

theorem SameKind.symm {a b : Option (Entry OsStr)} (h : SameKind a b) : SameKind b a := by
  cases h with
  | absent => exact .absent
  | dir => exact .dir
  | file i j => exact .file j i

theorem SameKind.none_iff {a b : Option (Entry OsStr)} (h : SameKind a b) :
    a = none ↔ b = none := by
  cases h <;> simp

theorem SameKind.ne_link {a b : Option (Entry OsStr)} (h : SameKind a b) (target : OsStr) :
    a ≠ some (.link target) := by
  cases h <;> simp

/-- Names lead to the same place from a directory that looks the same. -/
theorem walk_alike {look look' : Look} {here : Loc} {n n' : Nat}
    (h : ∀ m, SameKind (look (here ++ m)) (look' (here ++ m))) (hm : ∀ s ∈ m, IsName s) :
    walk look followLast n here m = walk look' followLast n' here m := by
  induction m generalizing here with
  | nil => rw [walk_nil, walk_nil]
  | cons s m ih =>
      obtain ⟨hs, hm⟩ := List.forall_mem_cons.mp hm
      have hbelow : ∀ m, SameKind (look (here ++ [s] ++ m)) (look' (here ++ [s] ++ m)) := by
        intro m
        rw [List.append_assoc]
        exact h ([s] ++ m)
      rw [walk_cons hs.2.2.1 hs.2.2.2, walk_cons hs.2.2.1 hs.2.2.2]
      have hself := h [s]
      generalize look (here ++ [s]) = a at hself
      generalize look' (here ++ [s]) = b at hself
      cases hself with
      | absent => rfl
      | dir => exact ih hbelow hm
      | file i j => rfl

/-- Nothing at or below the place is a link. -/
theorem LooksAlike.no_links (h : LooksAlike t t' B) (m : List OsStr) (target : OsStr) :
    t.entry (B ++ m) ≠ some (.link target) :=
  (h.kind m).ne_link target

theorem LooksAlike.symm (h : LooksAlike t t' B) : LooksAlike t' t B where
  there := by
    have hkind := h.kind []
    rw [List.append_nil] at hkind
    exact fun hn => h.there (hkind.none_iff.mpr hn)
  kind m := (h.kind m).symm
  size m i j hi hj := (h.size m j i hj hi).symm
  time m i j hi hj := (h.time m j i hj hi).symm
  clock := h.clock.symm
  dirSize := h.dirSize.symm

theorem AlikeHomes.symm (h : AlikeHomes home B t t') : AlikeHomes home B t' t where
  toLooksAlike := h.toLooksAlike.symm
  hardLinks m m' i j hi hj := (h.hardLinks m m' j i hj hi).symm
  leads := h.leads'
  leads' := h.leads

/-- Where two walks come to the place, names lead on to the same end. -/
theorem LooksAlike.walk_on (h : LooksAlike t t' B) {n n' : Nat} {here here' : Loc}
    {l l' : List OsStr} (hm : ∀ s ∈ m, IsName s) (hne : m ≠ [])
    (hhere : t.entry here = some .dir) (hhere' : t'.entry here' = some .dir)
    (hl : walk t.entry true n here l = .ok B) (hl' : walk t'.entry true n' here' l' = .ok B) :
    walk t.entry followLast n here (l ++ m) = walk t'.entry followLast n' here' (l' ++ m) ∧
      ∀ L, walk t.entry followLast n here (l ++ m) = .ok L → L = B ++ m := by
  have hkind := h.kind []
  rw [List.append_nil] at hkind
  cases hB : t.entry B with
  | none => exact absurd hB h.there
  | some e =>
      cases hB' : t'.entry B with
      | none =>
          rw [hB, hB'] at hkind
          cases hkind
      | some e' =>
          rw [hB, hB'] at hkind
          -- a walk goes on from a directory and stops at a file, in both trees
          cases hkind with
          | dir =>
              have hon : ∃ k, walk t.entry followLast n here (l ++ m) =
                  walk t.entry followLast k B m := walk_append hl hB hne
              have hon' : ∃ k, walk t'.entry followLast n' here' (l' ++ m) =
                  walk t'.entry followLast k B m := walk_append hl' hB' hne
              obtain ⟨k, hk⟩ := hon
              obtain ⟨k', hk'⟩ := hon'
              rw [hk, hk']
              exact ⟨walk_alike h.kind hm,
                fun L hL => walk_names hm (fun q _ _ => h.no_links q) hL⟩
          | file i j =>
              have hstop : walk t.entry followLast n here (l ++ m) = .error .notADirectory :=
                walk_into_file t.rooted hhere hl hB hne
              have hstop' : walk t'.entry followLast n' here' (l' ++ m) = .error .notADirectory :=
                walk_into_file t'.rooted hhere' hl' hB' hne
              rw [hstop, hstop']
              exact ⟨rfl, fun L hL => by cases hL⟩

theorem HomePath.names (hp : HomePath home B p m) : ∀ s ∈ m, IsName s := by
  cases hp with
  | text hm => exact hm
  | joined hm _ => exact hm

/-- A path of the home that goes on from it is walked by its segments. -/
theorem HomePath.steps_eq (hB : ∀ s ∈ B, IsName s) (hp : HomePath home B p m) (hne : m ≠ []) :
    steps p = segments p := by
  cases hp with
  | text hm =>
      rw [steps, endsWithSep_locText (by simp [hne]) fun s hs => ?_, if_neg (by simp)]
      rcases List.mem_append.mp hs with hs | hs
      · exact (hB s hs).isSegment
      · exact (hm s hs).isSegment
  | joined hm _ => rw [steps, (foldl_join_text home hm).2.1 hne, if_neg (by simp)]

/-- The text of the place leads to it, in both trees. -/
theorem LooksAlike.locate_place (h : LooksAlike t t' B) (followLast : Bool) :
    t.locate followLast (locText B) = .ok B ∧ t'.locate followLast (locText B) = .ok B := by
  have hself := h.no_links []
  have hself' := h.symm.no_links []
  rw [List.append_nil] at hself hself'
  exact ⟨locate_locText h.there hself, locate_locText h.symm.there hself'⟩

/-- **A path of the home leads to the same place in both trees**, the one its names say. -/
theorem AlikeHomes.locate (h : AlikeHomes home B t t') (followLast : Bool)
    (hp : HomePath home B p m) :
    t.locate followLast p = t'.locate followLast p ∧
      ∀ L, t.locate followLast p = .ok L → L = B ++ m := by
  have hB : ∀ s ∈ B, IsName s := isName_of_entry h.there
  -- the home itself, by its canonical text only
  by_cases hne : m = []
  · subst hne
    cases hp with
    | text _ =>
        rw [List.append_nil]
        obtain ⟨hl, hl'⟩ := h.locate_place followLast
        rw [hl, hl']
        exact ⟨rfl, fun L hL => (Except.ok.inj hL).symm⟩
    | joined _ hne => exact absurd rfl hne
  have hsteps := hp.steps_eq hB hne
  cases hp with
  | text hm =>
      have hall : ∀ s ∈ B ++ m, IsName s := List.forall_mem_append.mpr ⟨hB, hm⟩
      have hroot : ∀ t : FileTree, t.start (locText (B ++ m)) = .ok [] := fun t => by
        rw [start, if_pos (isAbsolute_locText _)]
      -- from the root, down the names of the place
      have hdown : ∀ t : FileTree, t.entry B ≠ none → (∀ target, t.entry B ≠ some (.link target)) →
          walk t.entry true maxSymlinks [] B = .ok ([] ++ B) := fun t hb hl =>
        walk_down hB (fun q hq _ hqB => dir_above hq hqB hb) (Or.inr hl)
      by_cases hnul : nul ∈ locText (B ++ m)
      · simp [FileTree.locate, locateSteps, locText_ne_nil, hnul]
      · rw [FileTree.locate, FileTree.locate, locateSteps_eq (locText_ne_nil _) hnul (hroot t),
          locateSteps_eq (locText_ne_nil _) hnul (hroot t'), hsteps, segments_locText hall]
        have hself := h.no_links []
        have hself' := h.toLooksAlike.symm.no_links []
        rw [List.append_nil] at hself hself'
        exact h.walk_on hm hne t.root_dir t'.root_dir (hdown t h.there hself)
          (hdown t' h.toLooksAlike.symm.there hself')
  | joined hm _ =>
      -- from wherever the text of the home starts
      obtain ⟨hseg, -, hnul⟩ := foldl_join_text home hm
      obtain ⟨habs, hsolid⟩ := spells_foldl home hm
      obtain ⟨-, -, here, hstart, hhere, hw⟩ := locateSteps_ok h.leads
      obtain ⟨-, -, here', hstart', hhere', hw'⟩ := locateSteps_ok h.leads'
      have hpne : m.foldl join home ≠ [] := by
        intro hnil
        rw [hnil] at hsolid
        exact hne (List.append_eq_nil_iff.mp hsolid.symm).2
      by_cases hn : nul ∈ m.foldl join home
      · simp [FileTree.locate, locateSteps, hpne, hn]
      · rw [FileTree.locate, FileTree.locate,
          locateSteps_eq hpne hn ((start_congr habs).trans hstart),
          locateSteps_eq hpne hn ((start_congr habs).trans hstart'), hsteps, hseg]
        exact h.walk_on hm hne hhere hhere' (walk_thin hw (thin_steps home))
          (walk_thin hw' (thin_steps home))

/-! ## Looking -/

/-- What a path of the home names, in both trees. -/
theorem AlikeHomes.find (h : AlikeHomes home B t t') (followLast : Bool)
    (hp : HomePath home B p m) :
    Agree (fun a b => (a.1 = B ++ m ∧ b.1 = B ++ m) ∧ t.entry (B ++ m) = some a.2 ∧
      t'.entry (B ++ m) = some b.2) (t.find followLast p) (t'.find followLast p) := by
  obtain ⟨hsame, hplace⟩ := h.locate followLast hp
  unfold FileTree.find
  rw [← hsame]
  cases hL : t.locate followLast p with
  | error e => rfl
  | ok L =>
      obtain rfl := hplace L hL
      simp only
      cases hx : t.entry (B ++ m) with
      | none =>
          rw [(h.kind m).none_iff.mp hx]
          rfl
      | some x =>
          obtain ⟨y, hy⟩ := Option.ne_none_iff_exists'.mp
            fun hn => Option.some_ne_none x (hx.symm.trans ((h.kind m).none_iff.mpr hn))
          rw [hy]
          exact ⟨⟨rfl, rfl⟩, rfl, rfl⟩

/-- Entries at one name have the same stat. -/
theorem LooksAlike.statOf (h : LooksAlike t t' B) {x y : Entry OsStr}
    (hx : t.entry (B ++ m) = some x) (hy : t'.entry (B ++ m) = some y) :
    t.statOf x = t'.statOf y := by
  have hkind := h.kind m
  rw [hx, hy] at hkind
  cases hkind with
  | dir => rw [FileTree.statOf, FileTree.statOf, h.dirSize]
  | file i j => rw [FileTree.statOf, FileTree.statOf, h.size m i j hx hy, h.time m i j hx hy]

theorem AlikeHomes.metadata (h : AlikeHomes home B t t') (hp : HomePath home B p m) :
    t.metadata p = t'.metadata p := by
  unfold FileTree.metadata
  rcases (h.find _ hp).cases with ⟨e, ha, hb⟩ | ⟨a, b, ha, hb, -, hx, hy⟩
  · rw [ha, hb]
  · rw [ha, hb]
    exact congrArg Except.ok (h.statOf hx hy)

theorem AlikeHomes.symlinkMetadata (h : AlikeHomes home B t t') (hp : HomePath home B p m) :
    t.symlinkMetadata p = t'.symlinkMetadata p := by
  unfold FileTree.symlinkMetadata
  rcases (h.find _ hp).cases with ⟨e, ha, hb⟩ | ⟨a, b, ha, hb, -, hx, hy⟩
  · rw [ha, hb]
  · rw [ha, hb]
    exact congrArg Except.ok (h.statOf hx hy)

theorem AlikeHomes.tryExists (h : AlikeHomes home B t t') (hp : HomePath home B p m) :
    t.tryExists p = t'.tryExists p := by
  unfold FileTree.tryExists
  rcases (h.find _ hp).cases with ⟨e, ha, hb⟩ | ⟨a, b, ha, hb, -⟩
  · rw [ha, hb]
  · rw [ha, hb]

theorem AlikeHomes.isDir (h : AlikeHomes home B t t') (hp : HomePath home B p m) :
    t.isDir p = t'.isDir p := by
  unfold FileTree.isDir
  rcases (h.find _ hp).cases with ⟨e, ha, hb⟩ | ⟨⟨L, x⟩, ⟨L', y⟩, ha, hb, -, hx, hy⟩
  · rw [ha, hb]
  · have hkind := h.kind m
    rw [hx, hy] at hkind
    rw [ha, hb]
    cases hkind <;> rfl

/-- A directory of the home has the same names in it, in some order. -/
theorem AlikeHomes.readDir (h : AlikeHomes home B t t') (hp : HomePath home B p m) :
    Agree (fun names names' => names.Perm names' ∧ ∀ s ∈ names, IsName s)
      (t.readDir p) (t'.readDir p) := by
  unfold FileTree.readDir
  rcases (h.find _ hp).cases with ⟨e, ha, hb⟩ | ⟨⟨L, x⟩, ⟨L', y⟩, ha, hb, ⟨rfl, rfl⟩, hx, hy⟩
  · rw [ha, hb]
    rfl
  · have hkind := h.kind m
    rw [hx, hy] at hkind
    rw [ha, hb]
    cases hkind with
    | file i j => rfl
    | dir =>
        refine ⟨(List.perm_ext_iff_of_nodup (t.children_nodup _) (t'.children_nodup _)).mpr
          fun s => ?_, fun s hs => ?_⟩
        · have hsame := h.kind (m ++ [s])
          rw [← List.append_assoc] at hsame
          rw [mem_children, mem_children]
          exact not_congr hsame.none_iff
        · exact isName_of_entry (t.mem_children.mp hs) s
            (List.mem_append_right _ (List.mem_cons_self ..))

end Alike

/-! ## One change in both -/

/-- The files `i` and `j` have a name of the homes in common. -/
def Twins (t t' : FileTree) (B : Loc) (i j : Nat) : Prop :=
  ∃ m, t.entry (B ++ m) = some (.file i) ∧ t'.entry (B ++ m) = some (.file j)

section Change
variable {home p : OsStr} {B L : Loc} {m m₀ : List OsStr} {t t' s s' : FileTree} {i j : Nat}

/-- A file has one twin at most. -/
theorem Alike.twins_iff (h : Alike t t' B) {i' j' : Nat} (hij : Twins t t' B i j)
    (hij' : Twins t t' B i' j') : i = i' ↔ j = j' := by
  obtain ⟨m, hi, hj⟩ := hij
  obtain ⟨m', hi', hj'⟩ := hij'
  have hlink := h.hardLinks m m' i j hi hj
  rw [hi', hj'] at hlink
  constructor
  · rintro rfl
    exact (Entry.file.inj (Option.some.inj (hlink.mp rfl))).symm
  · rintro rfl
    exact (Entry.file.inj (Option.some.inj (hlink.mpr rfl))).symm

theorem Alike.twins_size (h : Alike t t' B) (hij : Twins t t' B i j) :
    (t.disk.data i).length = (t'.disk.data j).length ∧ t.disk.modified i = t'.disk.modified j := by
  obtain ⟨m, hi, hj⟩ := hij
  exact ⟨h.size m i j hi hj, h.time m i j hi hj⟩

/-- Homes are alike whose files are paired off, each with the size and time of its partner. -/
theorem alike_of_pairs (Pair : Nat → Nat → Prop) (there : s.entry B ≠ none)
    (kind : ∀ m, SameKind (s.entry (B ++ m)) (s'.entry (B ++ m)))
    (paired : ∀ m i j, s.entry (B ++ m) = some (.file i) → s'.entry (B ++ m) = some (.file j) →
      Pair i j)
    (unique : ∀ i j i' j', Pair i j → Pair i' j' → (i = i' ↔ j = j'))
    (contents : ∀ i j, Pair i j → (s.disk.data i).length = (s'.disk.data j).length ∧
      s.disk.modified i = s'.disk.modified j)
    (clock : s.disk.clock = s'.disk.clock) (dirSize : s.disk.dirSize = s'.disk.dirSize) :
    Alike s s' B where
  there := there
  kind := kind
  size m i j hi hj := (contents i j (paired m i j hi hj)).1
  time m i j hi hj := (contents i j (paired m i j hi hj)).2
  clock := clock
  dirSize := dirSize
  hardLinks m m' i j hi hj := by
    have hpair := paired m i j hi hj
    have hkind := kind m'
    generalize ha : s.entry (B ++ m') = a at hkind
    generalize hb : s'.entry (B ++ m') = b at hkind
    cases hkind with
    | absent => simp
    | dir => simp
    | file i' j' =>
        have hsame := unique i' j' i j (paired m' i' j' ha hb) hpair
        simpa using hsame

theorem sameKind_self {a : Option (Entry OsStr)} (h : ∀ target, a ≠ some (.link target)) :
    SameKind a a := by
  cases a with
  | none => exact .absent
  | some e =>
      cases e with
      | dir => exact .dir
      | file i => exact .file i i
      | link target => exact absurd rfl (h target)

/-- A home without links is like itself. -/
theorem Alike.refl (there : t.entry B ≠ none)
    (noLinks : ∀ m target, t.entry (B ++ m) ≠ some (.link target)) : Alike t t B := by
  refine alike_of_pairs Eq there (fun m => sameKind_self (noLinks m))
    (fun m i j hi hj => ?_) ?_ ?_ rfl rfl
  · exact Entry.file.inj (Option.some.inj (hi.symm.trans hj))
  · rintro i _ j _ rfl rfl
    rfl
  · rintro i _ rfl
    exact ⟨rfl, rfl⟩

/-- **What changes outside the home** makes no difference. -/
theorem Alike.outside (h : Alike t t' B) (hs : SameContents t' s')
    (he : ∀ m, s'.entry (B ++ m) = t'.entry (B ++ m)) : Alike t s' B := by
  refine alike_of_pairs (Twins t t' B) h.there (fun m => ?_) (fun m i j hi hj => ?_)
    (fun i j i' j' => h.twins_iff) (fun i j hij => ?_) (by rw [hs.clock, h.clock])
    (by rw [hs.dirSize, h.dirSize])
  · rw [he]
    exact h.kind m
  · exact ⟨m, hi, he m ▸ hj⟩
  · rw [hs.data, hs.modified]
    exact h.twins_size hij

/-- **One name changes**, to nothing, to a directory or to what another name is bound to. -/
theorem Alike.of_name (h : Alike t t' B) (hs : SameContents t s) (hs' : SameContents t' s')
    (hm : m ≠ []) (hne : ∀ M, M ≠ B ++ m → s.entry M = t.entry M)
    (hne' : ∀ M, M ≠ B ++ m → s'.entry M = t'.entry M)
    (hkind : SameKind (s.entry (B ++ m)) (s'.entry (B ++ m)))
    (htwins : ∀ i j, s.entry (B ++ m) = some (.file i) → s'.entry (B ++ m) = some (.file j) →
      Twins t t' B i j) : Alike s s' B := by
  have hBm : B ≠ B ++ m := fun he => hm (List.self_eq_append_right.mp he)
  have hother : ∀ m', m' ≠ m → B ++ m' ≠ B ++ m := fun m' hm' he => hm' (List.append_cancel_left he)
  refine alike_of_pairs (Twins t t' B) (by rw [hne B hBm]; exact h.there) (fun m' => ?_)
    (fun m' i j hi hj => ?_) (fun i j i' j' => h.twins_iff) (fun i j hij => ?_)
    (by rw [hs.clock, hs'.clock, h.clock]) (by rw [hs.dirSize, hs'.dirSize, h.dirSize])
  · by_cases hm' : m' = m
    · exact hm' ▸ hkind
    · rw [hne _ (hother m' hm'), hne' _ (hother m' hm')]
      exact h.kind m'
  · by_cases hm' : m' = m
    · subst hm'
      exact htwins i j hi hj
    · rw [hne _ (hother m' hm')] at hi
      rw [hne' _ (hother m' hm')] at hj
      exact ⟨m', hi, hj⟩
  · rw [hs.data, hs'.data, hs.modified, hs'.modified]
    exact h.twins_size hij

/-- **A new file** in both. -/
theorem Alike.createAt (h : Alike t t' B) (hv : t.Vacant (B ++ m)) (hv' : t'.Vacant (B ++ m)) :
    Alike (t.createAt (B ++ m)) (t'.createAt (B ++ m)) B := by
  have hBm : B ≠ B ++ m := fun he => h.there (he ▸ hv.2.1)
  have hother : ∀ m', m' ≠ m → B ++ m' ≠ B ++ m := fun m' hm' he => hm' (List.append_cancel_left he)
  -- the new files are a pair of their own
  refine alike_of_pairs
    (fun i j => Twins t t' B i j ∨ i = t.disk.fresh ∧ j = t'.disk.fresh)
    (by rw [entry_createAt_ne hBm]; exact h.there) (fun m' => ?_) (fun m' i j hi hj => ?_)
    ?_ ?_ ?_ ?_
  · by_cases hm' : m' = m
    · subst hm'
      rw [entry_createAt_self hv, entry_createAt_self hv']
      exact .file _ _
    · rw [entry_createAt_ne (hother m' hm'), entry_createAt_ne (hother m' hm')]
      exact h.kind m'
  · by_cases hm' : m' = m
    · subst hm'
      rw [entry_createAt_self hv] at hi
      rw [entry_createAt_self hv'] at hj
      exact Or.inr ⟨(Entry.file.inj (Option.some.inj hi)).symm,
        (Entry.file.inj (Option.some.inj hj)).symm⟩
    · rw [entry_createAt_ne (hother m' hm')] at hi
      rw [entry_createAt_ne (hother m' hm')] at hj
      exact Or.inl ⟨m', hi, hj⟩
  · have hold : ∀ i j, Twins t t' B i j → i < t.disk.fresh ∧ j < t'.disk.fresh := by
      rintro i j ⟨m, hi, hj⟩
      exact ⟨lt_fresh hi, lt_fresh hj⟩
    rintro i j i' j' (hij | ⟨rfl, rfl⟩) (hij' | ⟨rfl, rfl⟩)
    · exact h.twins_iff hij hij'
    · have hlt := hold i j hij
      omega
    · have hlt := hold i' j' hij'
      omega
    · exact iff_of_true rfl rfl
  · rintro i j (hij | ⟨rfl, rfl⟩)
    · obtain ⟨m', hi, hj⟩ := hij
      have hi' : i ≠ t.disk.fresh := Nat.ne_of_lt (lt_fresh hi)
      have hj' : j ≠ t'.disk.fresh := Nat.ne_of_lt (lt_fresh hj)
      rw [data_createAt_ne hi', data_createAt_ne hj', modified_createAt_ne hi',
        modified_createAt_ne hj']
      exact h.twins_size ⟨m', hi, hj⟩
    · rw [data_createAt_self hv, data_createAt_self hv', modified_createAt_self hv,
        modified_createAt_self hv']
      exact ⟨rfl, h.clock⟩
  · rw [clock_createAt, clock_createAt, h.clock]
  · rw [dirSize_createAt, dirSize_createAt, h.dirSize]

/-- **New bytes for a file** and its twin, as many in both. -/
theorem Alike.setData (h : Alike t t' B) (hij : Twins t t' B i j) {b b' : Bytes}
    (hlen : b.length = b'.length) : Alike (t.setData i b) (t'.setData j b') B := by
  refine alike_of_pairs (Twins t t' B) h.there h.kind (fun m i j hi hj => ⟨m, hi, hj⟩)
    (fun i j i' j' => h.twins_iff) (fun i' j' hij' => ?_) h.clock h.dirSize
  by_cases hi : i' = i
  · obtain rfl : j' = j := (h.twins_iff hij' hij).mp hi
    subst hi
    rw [data_setData_self, data_setData_self]
    refine ⟨hlen, ?_⟩
    show (t.disk.setData _ _).modified _ = (t'.disk.setData _ _).modified _
    rw [Disk.modified_setData_self, Disk.modified_setData_self, h.clock]
  · have hj : j' ≠ j := fun hj => hi ((h.twins_iff hij' hij).mpr hj)
    rw [data_setData_ne b hi, data_setData_ne b' hj]
    show _ ∧ (t.disk.setData _ _).modified _ = (t'.disk.setData _ _).modified _
    rw [Disk.modified_setData_ne b hi, Disk.modified_setData_ne b' hj]
    exact h.twins_size hij'

/-- The home leads where it led. -/
theorem AlikeHomes.of_alike (h : AlikeHomes home B t t') (ha : Alike s s' B) (hg : Grows t s)
    (hg' : Grows t' s') : AlikeHomes home B s s' :=
  ⟨ha, hg.locate h.leads, hg'.locate h.leads'⟩

theorem AlikeHomes.atTime (h : AlikeHomes home B t t') (now : Nat) :
    AlikeHomes home B (t.atTime now) (t'.atTime now) where
  there := h.there
  kind := h.kind
  size := h.size
  time := h.time
  clock := rfl
  dirSize := h.dirSize
  hardLinks := h.hardLinks
  leads := h.leads
  leads' := h.leads'

/-! ## The calls that change a tree -/

/-- A new directory is made in both trees or in neither. -/
theorem AlikeHomes.mkdir (h : AlikeHomes home B t t') (hp : HomePath home B p m) (hm : m ≠ []) :
    Agree (AlikeHomes home B) (t.mkdir p) (t'.mkdir p) := by
  have hsteps : steps p = segments p := hp.steps_eq (isName_of_entry h.there) hm
  obtain ⟨hsame, hplace⟩ := h.locate false hp
  unfold FileTree.mkdir
  rw [← hsteps]
  unfold FileTree.locate at hsame hplace
  rw [← hsame]
  cases hL : t.locateSteps false p (steps p) with
  | error e => rfl
  | ok L =>
      obtain rfl := hplace L hL
      have hkind := h.kind m
      simp only
      -- the name is free in both trees or in neither
      cases hn : t.entry (B ++ m) with
      | some e =>
          obtain ⟨e', he'⟩ := Option.ne_none_iff_exists'.mp
            fun hn' => Option.some_ne_none e (hn.symm.trans (hkind.none_iff.mpr hn'))
          rw [he']
          rfl
      | none =>
          have hn' : t'.entry (B ++ m) = none := hkind.none_iff.mp hn
          have hv : t.Vacant (B ++ m) := vacant_of_locate hL hn
          have hv' : t'.Vacant (B ++ m) := vacant_of_locate (hsame ▸ hL) hn'
          rw [hn']
          refine h.of_alike (h.of_name sameContents_mkdirAt sameContents_mkdirAt hm
            (fun M => entry_mkdirAt_ne) (fun M => entry_mkdirAt_ne) ?_ fun i j hi => ?_)
            (grows_mkdirAt hv) (grows_mkdirAt hv')
          · rw [entry_mkdirAt_self hv, entry_mkdirAt_self hv']
            exact .dir
          · rw [entry_mkdirAt_self hv] at hi
            cases hi

/-- Files at one path of the home are opened in both trees or in neither. -/
theorem AlikeHomes.openFile (h : AlikeHomes home B t t') (hp : HomePath home B p m) :
    Agree (fun a b => AlikeHomes home B a.1 b.1 ∧ Twins a.1 b.1 B a.2 b.2)
      (t.openFile p) (t'.openFile p) := by
  obtain ⟨hsame, hplace⟩ := h.locate true hp
  unfold FileTree.openFile
  rw [← hsame]
  split
  · rfl
  · cases hL : t.locate true p with
    | error e => rfl
    | ok L =>
        obtain rfl := hplace L hL
        have hkind := h.kind m
        generalize ha : t.entry (B ++ m) = a at hkind
        generalize hb : t'.entry (B ++ m) = b at hkind
        simp only [ha, hb]
        cases hkind with
        | dir => rfl
        | file i j => exact ⟨h, m, ha, hb⟩
        | absent =>
            have hv : t.Vacant (B ++ m) := vacant_of_locate hL ha
            have hv' : t'.Vacant (B ++ m) := vacant_of_locate (hsame ▸ hL) hb
            exact ⟨h.of_alike (h.createAt hv hv') (grows_createAt hv) (grows_createAt hv'),
              m, entry_createAt_self hv, entry_createAt_self hv'⟩

/-- What is written to an open file and to its twin, as much in both. -/
theorem AlikeHomes.setData (h : AlikeHomes home B t t') (hij : Twins t t' B i j) {b b' : Bytes}
    (hlen : b.length = b'.length) :
    AlikeHomes home B (t.setData i b) (t'.setData j b') ∧
      Twins (t.setData i b) (t'.setData j b') B i j :=
  ⟨h.of_alike (h.toAlike.setData hij hlen) (grows_setData i b) (grows_setData j b'), hij⟩

theorem AlikeHomes.append (h : AlikeHomes home B t t') (hij : Twins t t' B i j) (b : Bytes) :
    AlikeHomes home B (t.append i b) (t'.append j b) ∧
      Twins (t.append i b) (t'.append j b) B i j := by
  refine h.setData hij ?_
  rw [List.length_append, List.length_append, (h.twins_size hij).1]

theorem AlikeHomes.writeAt (h : AlikeHomes home B t t') (hij : Twins t t' B i j) (off : Nat)
    (b : Bytes) : AlikeHomes home B (t.writeAt i off b) (t'.writeAt j off b) ∧
      Twins (t.writeAt i off b) (t'.writeAt j off b) B i j := by
  refine h.setData hij ?_
  have hsize := (h.twins_size hij).1
  unfold Disk.overwrite
  split
  · exact hsize
  · simp only [List.length_append, List.length_take, List.length_replicate, List.length_drop, hsize]

theorem AlikeHomes.openTruncate (h : AlikeHomes home B t t') (hp : HomePath home B p m) :
    Agree (fun a b => AlikeHomes home B a.1 b.1 ∧ Twins a.1 b.1 B a.2 b.2)
      (t.openTruncate p) (t'.openTruncate p) := by
  unfold FileTree.openTruncate
  rcases (h.openFile hp).cases with ⟨e, ho, ho'⟩ | ⟨a, b, ho, ho', hR, hij⟩
  · rw [ho, ho']
    rfl
  · rw [ho, ho']
    exact hR.setData hij rfl

/-- A second name is bound in both trees or in neither. -/
theorem AlikeHomes.hardLink {q : OsStr} (h : AlikeHomes home B t t') (hp : HomePath home B p m₀)
    (hq : HomePath home B q m) (hm : m ≠ []) :
    Agree (AlikeHomes home B) (t.hardLink p q) (t'.hardLink p q) := by
  obtain ⟨hsame, hplace⟩ := h.locate false hq
  unfold FileTree.hardLink
  rw [← hsame]
  rcases (h.find false hp).cases with ⟨e, hf, hf'⟩ |
    ⟨⟨S, x⟩, ⟨S', y⟩, hf, hf', ⟨hS, hS'⟩, hx, hy⟩
  · rw [hf, hf']
    rfl
  · obtain rfl : S = B ++ m₀ := hS
    obtain rfl : S' = B ++ m₀ := hS'
    rw [hf, hf']
    simp only
    cases hD : t.locate false q with
    | error e => rfl
    | ok D =>
        obtain rfl := hplace D hD
        have hkind := h.kind m
        simp only
        -- the name is free in both trees or in neither
        cases hn : t.entry (B ++ m) with
        | some e =>
            obtain ⟨e', he'⟩ := Option.ne_none_iff_exists'.mp
              fun hn' => Option.some_ne_none e (hn.symm.trans (hkind.none_iff.mpr hn'))
            rw [he']
            rfl
        | none =>
            have hn' : t'.entry (B ++ m) = none := hkind.none_iff.mp hn
            have hv : t.Vacant (B ++ m) := vacant_of_locate hD hn
            have hv' : t'.Vacant (B ++ m) := vacant_of_locate (hsame ▸ hD) hn'
            rw [hn']
            simp only
            split
            · rfl
            · have hkind₀ := h.kind m₀
              rw [hx, hy] at hkind₀
              -- a directory cannot be linked, and no link lies in the home
              cases hkind₀ with
              | dir => rfl
              | file i j =>
                  refine h.of_alike (h.of_name sameContents_linkAt sameContents_linkAt hm
                    (fun M => entry_linkAt_ne) (fun M => entry_linkAt_ne) ?_ fun i' j' hi hj => ?_)
                    (grows_linkAt hv hx) (grows_linkAt hv' hy)
                  · rw [entry_linkAt_self hv hx, entry_linkAt_self hv' hy]
                    exact .file i j
                  · rw [entry_linkAt_self hv hx] at hi
                    rw [entry_linkAt_self hv' hy] at hj
                    exact ⟨m₀, hx.trans hi, hy.trans hj⟩

/-- A name goes in both trees or in neither. -/
theorem AlikeHomes.discard (h : AlikeHomes home B t t') (hp : HomePath home B p m) (hm : m ≠ []) :
    AlikeHomes home B (t.discard p) (t'.discard p) := by
  unfold FileTree.discard FileTree.removeFile
  rcases (h.find false hp).cases with ⟨e, hf, hf'⟩ |
    ⟨⟨L, x⟩, ⟨L', y⟩, hf, hf', ⟨hL, hL'⟩, hx, hy⟩
  · rw [hf, hf']
    exact h
  · obtain rfl : L = B ++ m := hL
    obtain rfl : L' = B ++ m := hL'
    have hkind := h.kind m
    rw [hx, hy] at hkind
    rw [hf, hf']
    cases hkind with
    | dir => exact h
    | file i j =>
        have hself : (t.eraseAt (B ++ m)).entry (B ++ m) = none :=
          entry_eraseAt_self (childless_of_entry hx rfl)
        have hself' : (t'.eraseAt (B ++ m)).entry (B ++ m) = none :=
          entry_eraseAt_self (childless_of_entry hy rfl)
        refine h.of_alike (h.of_name sameContents_eraseAt sameContents_eraseAt hm
          (fun M => entry_eraseAt_ne) (fun M => entry_eraseAt_ne) ?_ fun i j hi => ?_)
          (grows_eraseAt hx) (grows_eraseAt hy)
        · rw [hself, hself']
          exact .absent
        · rw [hself] at hi
          cases hi

/-! ## `create_dir_all` -/

/-- One `mkdir` of the path goes alike. -/
def MadeAlike (home : OsStr) (B : Loc) (p : OsStr) : Prop :=
  ∀ t t', AlikeHomes home B t t' →
    Agree (AlikeHomes home B) (t.mkdir p) (t'.mkdir p) ∧ t.isDir p = t'.isDir p

theorem madeAlike_homePath (hp : HomePath home B p m) (hm : m ≠ []) : MadeAlike home B p :=
  fun _ _ h => ⟨h.mkdir hp hm, h.isDir hp⟩

/-- A path to the home itself. -/
theorem madeAlike_of_leads (hp : ∀ t : FileTree, t.locate true home = .ok B → t.entry B ≠ none →
    (∀ target, t.entry B ≠ some (.link target)) → t.locate true p = .ok B) :
    MadeAlike home B p := by
  intro t t' h
  have hself := h.no_links []
  have hself' := h.toLooksAlike.symm.no_links []
  rw [List.append_nil] at hself hself'
  have hL : t.locate true p = .ok B := hp t h.leads h.there hself
  have hL' : t'.locate true p = .ok B := hp t' h.leads' h.toLooksAlike.symm.there hself'
  refine ⟨?_, ?_⟩
  · rw [mkdir_there hL h.there, mkdir_there hL' h.toLooksAlike.symm.there]
    rfl
  · have hkind := h.kind []
    rw [List.append_nil] at hkind
    generalize ha : t.entry B = a at hkind
    generalize hb : t'.entry B = b at hkind
    unfold FileTree.isDir
    cases hkind with
    | absent => exact absurd ha h.there
    | dir => rw [find_ok.mpr ⟨hL, ha⟩, find_ok.mpr ⟨hL', hb⟩]
    | file i j => rw [find_ok.mpr ⟨hL, ha⟩, find_ok.mpr ⟨hL', hb⟩]

/-- A path to a directory above it. -/
theorem madeAlike_of_dir (hp : ∀ t : FileTree, t.locate true home = .ok B → t.entry B ≠ none →
    ∃ D, t.locate true p = .ok D ∧ t.entry D = some .dir) : MadeAlike home B p := by
  intro t t' h
  obtain ⟨D, hD, hdir⟩ := hp t h.leads h.there
  obtain ⟨D', hD', hdir'⟩ := hp t' h.leads' h.toLooksAlike.symm.there
  refine ⟨?_, ?_⟩
  · rw [mkdir_there hD (by simp [hdir]), mkdir_there hD' (by simp [hdir'])]
    rfl
  · rw [isDir_iff.mpr ⟨D, hD, hdir⟩, isDir_iff.mpr ⟨D', hD', hdir'⟩]

theorem AlikeHomes.tryMkdir (h : AlikeHomes home B t t') (hp : MadeAlike home B p)
    (fault : MkdirFault) (again : Bool) :
    Agree (AlikeHomes home B) (t.tryMkdir fault again p) (t'.tryMkdir fault again p) := by
  unfold FileTree.tryMkdir
  split
  · rfl
  · exact (hp t t' h).1

/-- The directories of a path are made alike, one after the other. -/
theorem AlikeHomes.createDirs (fault : MkdirFault) (h : AlikeHomes home B t t') {ps : List OsStr}
    (hps : ∀ p ∈ ps, p = [] ∨ MadeAlike home B p) :
    AlikeHomes home B (createDirs fault t ps).1 (createDirs fault t' ps).1 ∧
      (createDirs fault t ps).2 = (createDirs fault t' ps).2 := by
  induction ps generalizing t t' with
  | nil => exact ⟨h, rfl⟩
  | cons p above ih =>
      obtain ⟨hp, habove⟩ := List.forall_mem_cons.mp hps
      unfold FileTree.createDirs
      split
      · exact ⟨h, rfl⟩
      · rename_i hne
        have hmade : MadeAlike home B p := hp.resolve_left hne
        rcases (h.tryMkdir hmade fault false).cases with ⟨e, hm, hm'⟩ | ⟨s, s', hm, hm', hs⟩
        · rw [hm, hm', (hmade t t' h).2]
          by_cases hnot : e = .notFound
          · subst hnot
            -- the parents are made, and then the directory is tried again
            obtain ⟨hs, hr⟩ := ih h habove
            rcases hc : FileTree.createDirs fault t above with ⟨s, r⟩
            rcases hc' : FileTree.createDirs fault t' above with ⟨s', r'⟩
            rw [hc, hc'] at hs hr
            obtain rfl : r = r' := hr
            cases r with
            | error e => exact ⟨hs, rfl⟩
            | ok _ =>
                simp only
                rcases (hs.tryMkdir hmade fault true).cases with ⟨e, hm, hm'⟩ |
                  ⟨s₂, s₂', hm, hm', hs₂⟩
                · rw [hm, hm', (hmade s s' hs).2]
                  simp only
                  split <;> exact ⟨hs, rfl⟩
                · rw [hm, hm']
                  exact ⟨hs₂, rfl⟩
          · cases e with
            | notFound => exact absurd rfl hnot
            | _ => simp only; split <;> exact ⟨h, rfl⟩
        · rw [hm, hm']
          exact ⟨hs, rfl⟩

/-- The directories on the way to a location of the home. -/
theorem AlikeHomes.createDirAll_text (fault : MkdirFault) (h : AlikeHomes home B t t')
    (hm : ∀ s ∈ m, IsName s) :
    AlikeHomes home B (t.createDirAll fault (locText (B ++ m))).1
        (t'.createDirAll fault (locText (B ++ m))).1 ∧
      (t.createDirAll fault (locText (B ++ m))).2 =
        (t'.createDirAll fault (locText (B ++ m))).2 := by
  have hB : ∀ s ∈ B, IsName s := isName_of_entry h.there
  have hleads : MadeAlike home B (locText B) :=
    madeAlike_of_leads fun t _ hthere hself => locate_locText hthere hself
  have hbelow : ∀ m', m' <+: m → MadeAlike home B (locText (B ++ m')) := by
    intro m' hm'
    by_cases hne : m' = []
    · rw [hne, List.append_nil]
      exact hleads
    · exact madeAlike_homePath (.text fun s hs => hm s (hm'.subset hs)) hne
  have hnames : ∀ s ∈ B ++ m, IsName s := List.forall_mem_append.mpr ⟨hB, hm⟩
  refine h.createDirs fault fun p hp => Or.inr ?_
  obtain ⟨front, hfront, rfl⟩ := of_mem_ancestors_locText hnames hp
  rcases List.prefix_or_prefix_of_prefix hfront (List.prefix_append B m) with hin | ⟨m', rfl⟩
  · by_cases hne : front = B
    · exact hne ▸ hleads
    · refine madeAlike_of_dir fun t _ hthere => ⟨front, ?_, dir_above hin hne hthere⟩
      have hdir : t.entry front = some .dir := dir_above hin hne hthere
      exact locate_locText (by simp [hdir]) (by simp [hdir])
  · exact hbelow m' ((List.prefix_append_right_inj B).mp hfront)

/-- The directory of the given name in the home, whatever the home's own path. -/
theorem AlikeHomes.createDirAll_join (fault : MkdirFault) (h : AlikeHomes home B t t') {s : OsStr}
    (hs : IsName s) :
    AlikeHomes home B (t.createDirAll fault (join home s)).1
        (t'.createDirAll fault (join home s)).1 ∧
      (t.createDirAll fault (join home s)).2 = (t'.createDirAll fault (join home s)).2 := by
  refine h.createDirs fault fun p hp => ?_
  rw [ancestors_join hs] at hp
  rcases List.mem_cons.mp hp with rfl | hp
  · have hpath : HomePath home B ([s].foldl join home) [s] :=
      .joined (by simpa using hs) (List.cons_ne_nil s [])
    exact Or.inr (madeAlike_homePath hpath (List.cons_ne_nil s []))
  rcases List.mem_cons.mp hp with rfl | hp
  · exact Or.inr (madeAlike_of_leads fun t hleads _ _ => locate_render hleads)
  · by_cases hne : p = []
    · exact Or.inl hne
    · exact Or.inr (madeAlike_of_dir fun t hleads _ => dir_of_properAncestor hleads hp hne)

end Change

end Reoftpd

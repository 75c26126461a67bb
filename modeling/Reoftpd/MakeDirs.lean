import Reoftpd.FileTreeFacts

/-!
# Where `create_dir_all` makes directories

On the text of a location, `create_dir_all` makes directories along one line: the first at
the name that is missing, wherever links before it lead, and the rest below that one
(`madeOn_createDirAll`).  Nothing but names lies below a directory that is new, so a path
that goes through it ends below it (`MadeOn.locate`).
-/
namespace FileTree
open UnixPath

variable {t s s' : FileTree} {L M N P Q : Loc} {p q : OsStr} {r : List OsStr}
  {followLast : Bool} {fault : MkdirFault}

/-- A path leads to a free name, a link at its end not followed. -/
def FreeAt (t : FileTree) (p : OsStr) (L : Loc) : Prop :=
  t.locate false p = .ok L ∧ t.entry L = none

/-- `s` is `t` with directories more: none, or one where a part of the way to `P` leads, and
what lies below it. -/
structure MadeOn (P : Loc) (t s : FileTree) : Prop extends AddsDirs t s where
  made : s.entry = t.entry ∨ ∃ Q N, Q <+: P ∧ t.FreeAt (locText Q) N ∧
    s.entry N = some .dir ∧ ∀ M, s.entry M ≠ t.entry M → N <+: M

theorem MadeOn.refl (P : Loc) (t : FileTree) : MadeOn P t t := ⟨.refl t, Or.inl rfl⟩

/-- Where a path leads is a matter of what is bound where. -/
theorem locate_congr (hcwd : s.cwd = t.cwd) (he : s.entry = t.entry) :
    s.locate followLast p = t.locate followLast p := by
  unfold locate locateSteps start
  rw [he, hcwd]

/-- A path through a new directory ends below it. -/
theorem locate_below_made (ha : AddsDirs t s) (hfree : t.FreeAt (locText Q) N)
    (hdir : s.entry N = some .dir) (hnames : ∀ a ∈ Q ++ r, IsName a)
    (h : s.locate followLast (locText (Q ++ r)) = .ok L) : L = N ++ r := by
  have hN : s.locate true (locText Q) = .ok N :=
    locate_follow (ha.grows.locate hfree.1) (by simp [hdir])
  have hfirst := walk_of_locate (fun a ha => hnames a (List.mem_append_left r ha)) hN
  have hall := walk_of_locate hnames h
  by_cases hr : r = []
  · subst hr
    rw [List.append_nil] at h ⊢
    cases followLast with
    | true => exact Except.ok.inj (h.symm.trans hN)
    | false => exact Except.ok.inj (h.symm.trans (ha.grows.locate hfree.1))
  · have hon : ∃ m, walk s.entry followLast maxSymlinks [] (Q ++ r) =
        walk s.entry followLast m N r := walk_append hfirst hdir hr
    obtain ⟨m, hm⟩ := hon
    rw [hm] at hall
    refine walk_names (fun a ha => hnames a (List.mem_append_right Q ha)) ?_ hall
    intro x _ hx target hlink
    -- below a name that was free, nothing was bound
    have hnone : t.entry (N ++ x) = none := by
      by_contra hbound
      have hthere := dir_above (List.prefix_append N x) (by simpa using hx) hbound
      rw [hfree.2] at hthere
      cases hthere
    rcases ha.entry (N ++ x) with he | ⟨-, he⟩
    · rw [he, hnone] at hlink
      cases hlink
    · rw [he] at hlink
      cases hlink

/-- **Where a path leads** after directories were made on its way: where it led, or to
something below the first of them. -/
theorem MadeOn.locate (h : MadeOn P t s) (hnames : ∀ a ∈ P ++ r, IsName a)
    (hL : s.locate followLast (locText (P ++ r)) = .ok L) :
    s.entry = t.entry ∧ t.locate followLast (locText (P ++ r)) = .ok L ∨
      ∃ Q N, Q <+: P ∧ t.FreeAt (locText Q) N ∧ N <+: L := by
  rcases h.made with he | ⟨Q, N, ⟨r', rfl⟩, hfree, hdir, -⟩
  · exact Or.inl ⟨he, (locate_congr h.cwd he).symm.trans hL⟩
  · rw [List.append_assoc] at hnames hL
    obtain rfl := locate_below_made h.toAddsDirs hfree hdir hnames hL
    exact Or.inr ⟨Q, N, List.prefix_append Q r', hfree, List.prefix_append N _⟩

/-- What a path is, and what it goes on from, are directories. -/
theorem dir_on_way (hnames : ∀ a ∈ Q ++ r, IsName a) (hr : r ≠ [])
    (h : t.locate followLast (locText (Q ++ r)) = .ok L) :
    ∃ D, t.locate true (locText Q) = .ok D ∧ t.entry D = some .dir := by
  have hnul : nul ∉ locText Q := by
    intro hc
    have hQ : ∀ a ∈ Q, nul ∉ a := fun a ha hc =>
      (locateSteps_ok h).2.1 (mem_of_mem_segments
        (by rw [segments_locText hnames]; exact List.mem_append_left r ha) hc)
    exact nul_not_mem_locText hQ hc
  obtain ⟨D, m, hD, hdir, -⟩ :=
    walk_append_ok t.rooted t.root_dir (walk_of_locate hnames h) hr
  refine ⟨D, ?_, hdir⟩
  rw [locate_locText_walk (fun a ha => hnames a (List.mem_append_left r ha)) hnul, hD]

/-- The text of a location ends with no separator that would ask for more. -/
theorem locateSteps_locText (hQ : ∀ a ∈ Q, IsName a) :
    t.locateSteps followLast (locText Q) (segments (locText Q)) =
      t.locate followLast (locText Q) := by
  by_cases hnul : nul ∈ locText Q
  · rw [locate, locateSteps, locateSteps, if_neg (locText_ne_nil Q), if_pos hnul,
      if_neg (locText_ne_nil Q), if_pos hnul]
  · rw [locate_locText_walk hQ hnul, locateSteps_eq (locText_ne_nil Q) hnul
      (show t.start (locText Q) = .ok [] by rw [start, if_pos (isAbsolute_locText Q)]),
      segments_locText hQ]

theorem mkdir_locText (hQ : ∀ a ∈ Q, IsName a) (h : s.mkdir (locText Q) = .ok s') :
    ∃ L, s.locate false (locText Q) = .ok L ∧ s.Vacant L ∧ s' = s.mkdirAt L := by
  obtain ⟨L, hL, hv, rfl⟩ := mkdir_ok h
  exact ⟨L, locateSteps_locText hQ ▸ hL, hv, rfl⟩

/-- One directory more on the way. -/
theorem MadeOn.mkdir (h : MadeOn P t s) (hP : ∀ a ∈ P, IsName a) (hQ : Q <+: P)
    (hm : s.mkdir (locText Q) = .ok s') : MadeOn P t s' := by
  have hQnames : ∀ a ∈ Q, IsName a := fun a ha => hP a (hQ.subset ha)
  obtain ⟨L, hL, hv, rfl⟩ := mkdir_locText hQnames hm
  refine ⟨h.toAddsDirs.trans (addsDirs_mkdirAt hv), Or.inr ?_⟩
  rcases h.made with he | ⟨Q₀, N, hQ₀, hfree, hdir, hbelow⟩
  · refine ⟨Q, L, hQ, ⟨(locate_congr h.cwd he).symm.trans hL, he ▸ hv.2.1⟩,
      entry_mkdirAt_self hv, fun M hM => ?_⟩
    by_cases hML : M = L
    · rw [hML]
    · rw [entry_mkdirAt_ne hML, he] at hM
      exact absurd rfl hM
  · -- what lies before the first new directory is there already
    obtain ⟨r, rfl⟩ : Q₀ <+: Q := by
      rcases List.prefix_or_prefix_of_prefix hQ₀ hQ with hpre | ⟨r, rfl⟩
      · exact hpre
      · by_cases hr : r = []
        · simp [hr]
        · obtain ⟨D, hD, hdirD⟩ :=
            dir_on_way (fun a ha => hP a (hQ₀.subset ha)) hr hfree.1
          have hthere := mkdir_there (h.grows.locate hD) (by simp [h.grows.dir D hdirD])
          rw [hthere] at hm
          cases hm
    obtain rfl := locate_below_made h.toAddsDirs hfree hdir hQnames hL
    refine ⟨Q₀, N, hQ₀, hfree, (grows_mkdirAt hv).dir N hdir, fun M hM => ?_⟩
    by_cases hML : M = N ++ r
    · rw [hML]
      exact List.prefix_append N r
    · rw [entry_mkdirAt_ne hML] at hM
      exact hbelow M hM

/-- **`create_dir_all` makes directories along one line**, whether it succeeds or not. -/
theorem madeOn_createDirAll (fault : MkdirFault) (t : FileTree) (hP : ∀ a ∈ P, IsName a) :
    MadeOn P t (t.createDirAll fault (locText P)).1 := by
  refine createDirs_ind (J := MadeOn P t) fault (fun p hp s s' hs hm => ?_) (.refl P t)
  obtain ⟨Q, hQ, rfl⟩ := of_mem_ancestors_locText hP hp
  exact hs.mkdir hP hQ hm

/-! ## What it makes, and what it finds -/

/-- The locations above one are the ancestors of its text. -/
theorem mem_ancestors_locText (hP : ∀ a ∈ P, IsName a) (hQ : Q <+: P) :
    locText Q ∈ ancestors (locText P) := by
  induction P using List.reverseRecOn with
  | nil =>
      rw [List.prefix_nil.mp hQ]
      exact List.mem_cons_self ..
  | append_singleton P a ih =>
      have hfront : ∀ b ∈ P, IsName b := fun b hb => hP b (List.mem_append_left [a] hb)
      have ha : IsName a := hP a (by simp)
      have habove : ancestors (locText (P ++ [a])) =
          locText (P ++ [a]) :: ancestors (locText P) := by
        have hjoin : join (locText P) a = locText (P ++ [a]) :=
          join_locText hfront (List.cons_ne_nil a []) (by simpa using ha.isSegment)
        rw [← hjoin, ancestors_join ha, render_components, isAbsolute_locText,
          solidSegments_locText hfront]
        rfl
      rw [habove]
      rcases List.prefix_concat_iff.mp hQ with rfl | hQ
      · exact List.mem_cons_self ..
      · exact List.mem_cons_of_mem _ (ih hfront hQ)

/-- A path to a free name ends with no separator. -/
theorem FreeAt.endsWithSep (h : t.FreeAt p L) : endsWithSep p = false := by
  by_contra hend
  obtain ⟨-, -, here, -, hhere, hw⟩ := locateSteps_ok h.1
  rw [steps, if_pos (by simpa using hend)] at hw
  -- what ends with a separator leads to a directory
  obtain ⟨D, m, -, hdir, hlast⟩ := walk_append_ok t.rooted hhere hw (List.cons_ne_nil dot [])
  rw [walk_dot, walk_nil] at hlast
  obtain rfl := Except.ok.inj hlast
  rw [h.2] at hdir
  cases hdir

/-- A `mkdir` makes what is free. -/
theorem FreeAt.mkdir (h : t.FreeAt p L) :
    t.mkdir p = .ok (t.mkdirAt L) ∧ (t.mkdirAt L).entry L = some .dir := by
  refine ⟨?_, entry_mkdirAt_self (vacant_of_locate h.1 h.2)⟩
  have hL : t.locateSteps false p (segments p) = .ok L := by
    have hloc := h.1
    rw [locate, steps, h.endsWithSep, if_neg (by simp)] at hloc
    exact hloc
  rw [FileTree.mkdir, hL]
  simp only
  rw [h.2]

/-- What a `mkdir` on the way of a path makes was free. -/
theorem freeAt_of_mkdir (hend : endsWithSep p = false) (hq : q ∈ ancestors p)
    (h : t.mkdir q = .ok s) : ∃ L, t.FreeAt q L := by
  obtain ⟨L, hL, hv, -⟩ := mkdir_ok h
  refine ⟨L, ?_, hv.2.1⟩
  have hqend : endsWithSep q = false := by
    rcases List.mem_cons.mp hq with rfl | hq
    · exact hend
    · rw [components_eq_solid] at hq
      obtain ⟨front, a, rest, hsolid, rfl⟩ := mem_properAncestors hq
      by_contra hsep
      -- the root is there
      obtain ⟨-, -, here, -, hhere, hw⟩ := locateSteps_ok hL
      rw [segments_solidText hsolid, endsWithSep_solidText hsolid (by simpa using hsep),
        walk_nil] at hw
      rw [Except.ok.inj hw, hv.2.1] at hhere
      cases hhere
  rw [locate, steps, hqend, if_neg (by simp)]
  exact hL

/-- **A `mkdir` makes nothing** where one of the directories before it is missing. -/
theorem mkdir_missing (hnul : nul ∉ p) (hq : q ∈ properAncestors (components p).reverse)
    (h : t.FreeAt q L) : t.mkdir p = .error .notFound := by
  have hend : UnixPath.endsWithSep q = false := h.endsWithSep
  rw [components_eq_solid] at hq
  obtain ⟨front, a, rest, hsolid, rfl⟩ := mem_properAncestors hq
  obtain ⟨-, -, here, hstart, hhere, hw⟩ := locateSteps_ok h.1
  rw [steps, hend, if_neg (by simp), segments_solidText hsolid] at hw
  have hp : p ≠ [] := by
    rintro rfl
    rw [show solidSegments [] = [] from rfl] at hsolid
    cases front <;> cases hsolid
  have hstart' : t.start p = .ok here := by
    rw [start, isAbsolute_solidText hsolid] at hstart
    exact hstart
  have hthin : Thin (front ++ a :: rest) (segments p) := hsolid ▸ thin_solid p
  rw [FileTree.mkdir, locateSteps_eq hp hnul hstart',
    walk_missing t.rooted hhere hw h.2 (List.cons_ne_nil a rest) hthin]

/-- A NUL in an ancestor is one in the path. -/
theorem nul_not_mem_ancestors (hnul : nul ∉ p) (hq : q ∈ ancestors p) : nul ∉ q := by
  rcases List.mem_cons.mp hq with rfl | hq
  · exact hnul
  · rw [components_eq_solid] at hq
    obtain ⟨front, a, rest, hsolid, rfl⟩ := mem_properAncestors hq
    have hnuls : ∀ x ∈ front, nul ∉ x := fun x hx =>
      nul_not_mem_segments ((thin_solid p).mem (hsolid ▸ List.mem_append_left _ hx)) hnul
    unfold solidText
    split
    · exact nul_not_mem_locText hnuls
    · exact nul_not_mem_intercalate hnuls

/-- A `create_dir_all` comes to a path that all before it depend on. -/
theorem createDirs_makes {ps : List OsStr} (hq : q ∈ ps)
    (hbefore : ps.Pairwise fun p r => r = q →
      p ≠ [] ∧ t.tryMkdir fault false p = .error .notFound)
    (hself : q ≠ [] ∧ ∃ s, t.tryMkdir fault false q = .ok s ∧ s.entry L = some .dir) :
    (createDirs fault t ps).1.entry L = some .dir := by
  induction ps with
  | nil => cases hq
  | cons p above ih =>
      obtain ⟨hp, hbefore⟩ := List.pairwise_cons.mp hbefore
      unfold createDirs
      rcases List.mem_cons.mp hq with rfl | hq
      · obtain ⟨hne, s, hs, hdir⟩ := hself
        rw [if_neg hne, hs]
        exact hdir
      · obtain ⟨hne, hm⟩ := hp q hq rfl
        have hmade := ih hq hbefore
        rw [if_neg hne, hm]
        simp only
        split
        · rename_i hc
          rw [hc] at hmade
          exact hmade
        · rename_i s hc
          rw [hc] at hmade
          split
          · rename_i s' hs'
            -- the directory stays when those below it are made
            obtain ⟨N, -, hv, rfl⟩ := mkdir_ok (tryMkdir_ok hs')
            exact (grows_mkdirAt hv).dir L hmade
          · split <;> exact hmade

/-- **A `create_dir_all` makes what is missing on the way**, unless a path that holds a NUL
stops it. -/
theorem createDirAll_makes (hq : q ∈ ancestors p) (hL : t.FreeAt q L)
    (hfault : ∀ r ∈ ancestors p, fault false r = if nul ∈ r then some .notFound else none) :
    (t.createDirAll fault p).1.entry L = some .dir := by
  obtain ⟨hmkdir, hdir⟩ := hL.mkdir
  obtain ⟨hne, hnul, -⟩ := locateSteps_ok hL.1
  refine createDirs_makes hq ?_ ⟨hne, _, ?_, hdir⟩
  · refine (pairwise_ancestors p).imp_of_mem fun {r} _ hr _ habove he => ?_
    subst he
    refine ⟨?_, ?_⟩
    · rintro rfl
      cases habove
    · unfold tryMkdir
      rw [hfault r hr]
      by_cases hrnul : nul ∈ r
      · rw [if_pos hrnul]
      · rw [if_neg hrnul]
        exact mkdir_missing hrnul habove hL
  · unfold tryMkdir
    rw [hfault q hq, if_neg hnul]
    exact hmkdir

/-- A path that holds a NUL stops it, if nothing else fails. -/
theorem createDirAll_nul (hnul : nul ∈ p) :
    t.createDirAll (fun _ _ => none) p = (t, .error .nulByte) := by
  have hp : p ≠ [] := by
    rintro rfl
    cases hnul
  have hsteps : ∀ b l, t.locateSteps b p l = .error .nulByte := fun b l => by
    rw [locateSteps, if_neg hp, if_pos hnul]
  have hm : t.tryMkdir (fun _ _ => none) false p = .error .nulByte := by
    show t.mkdir p = _
    rw [FileTree.mkdir, hsteps]
  have hdir : t.isDir p = false := by
    rw [isDir, find, locate, hsteps]
  unfold createDirAll ancestors createDirs
  rw [if_neg hp, hm]
  simp only
  rw [if_neg (by simp [hdir])]

/-- What is there is left as it is. -/
theorem createDirAll_there (hp : p ≠ []) (h : t.isDir p = true) :
    t.createDirAll (fun _ _ => none) p = (t, .ok ()) := by
  obtain ⟨L, hL, hdir⟩ := isDir_iff.mp h
  have hm : t.tryMkdir (fun _ _ => none) false p = .error .alreadyExists :=
    mkdir_there hL (by simp [hdir])
  unfold createDirAll ancestors createDirs
  rw [if_neg hp, hm]
  simp only
  rw [if_pos h]

end FileTree

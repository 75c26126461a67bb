import Reoftpd.PathText

/-!
# Locations and their texts

A location names a place in a directory tree by the names on the way down from the
root.  Its text is what `canonicalize` returns for it, and the path functions of
`PathText` act on such a text as the list functions act on the location: the last
component is the last name, the parent is the location without it, joining a name adds
it.  `ancestors` is what `Path::ancestors` runs through.
-/

/-- A location in a directory tree: the names on the way down from the root. -/
abbrev Loc := List OsStr

namespace UnixPath

/-- The canonical text of a location. -/
def locText (L : Loc) : OsStr := sep :: intercalate L

/-- The proper ancestors of a path whose components, the last one first, are given. -/
def properAncestors : List Component → List OsStr
  | [] => []
  | .rootDir :: _ => []
  | _ :: cs => render cs.reverse :: properAncestors cs

/-- `Path::ancestors`: the path, its parent, the parent of that, and so on. -/
def ancestors (t : OsStr) : List OsStr := t :: properAncestors (components t).reverse

/-! ## Segments of what is put together -/

/-- A segment of some text: nonempty, and without a separator. -/
def IsSegment (s : OsStr) : Prop := s ≠ [] ∧ sep ∉ s

theorem IsName.isSegment {s : OsStr} (h : IsName s) : IsSegment s := ⟨h.1, h.2.1⟩

theorem segments_intercalate {l : List OsStr} (h : ∀ s ∈ l, IsSegment s) :
    segments (intercalate l) = l := by
  induction l with
  | nil => rfl
  | cons s l ih =>
      obtain ⟨hs, hl⟩ := List.forall_mem_cons.mp h
      cases l with
      | nil => exact segments_eq_singleton hs.1 hs.2
      | cons s' l =>
          rw [intercalate, segments_append_sep, ih hl, segments_eq_singleton hs.1 hs.2]
          · rfl
          · simp

theorem intercalate_append {l r : List OsStr} (hl : l ≠ []) (hr : r ≠ []) :
    intercalate (l ++ r) = intercalate l ++ sep :: intercalate r := by
  induction l with
  | nil => exact absurd rfl hl
  | cons a l ih =>
      cases l with
      | nil =>
          obtain ⟨b, r, rfl⟩ := List.exists_cons_of_ne_nil hr
          rfl
      | cons b l =>
          show a ++ sep :: intercalate (b :: l ++ r) = a ++ sep :: intercalate (b :: l) ++ sep :: _
          rw [ih (List.cons_ne_nil b l), List.append_assoc, List.cons_append]

/-- A text put together from segments ends in a segment. -/
theorem endsWithSep_intercalate {l : List OsStr} (h : ∀ s ∈ l, IsSegment s) :
    endsWithSep (intercalate l) = false := by
  cases l using List.reverseRecOn with
  | nil => rfl
  | append_singleton l s _ =>
      obtain ⟨hne, hsep⟩ := h s (by simp)
      have hlast : (intercalate (l ++ [s])).getLast? = s.getLast? := by
        by_cases hl : l = []
        · rw [hl]
          rfl
        · rw [intercalate_append hl (List.cons_ne_nil _ _), List.append_cons,
            List.getLast?_append_of_ne_nil _ (by exact hne)]
          rfl
      rw [endsWithSep, hlast, decide_eq_false_iff_not]
      exact fun he => hsep (List.mem_of_getLast? he)

theorem intercalate_ne_nil {l : List OsStr} (hl : l ≠ []) (h : ∀ s ∈ l, IsSegment s) :
    intercalate l ≠ [] := by
  intro he
  have hseg := segments_intercalate h
  rw [he] at hseg
  exact hl hseg.symm

/-- A text put together from segments starts as the first one does. -/
theorem isAbsolute_intercalate {l : List OsStr} (h : ∀ s ∈ l, IsSegment s) :
    isAbsolute (intercalate l) = false := by
  cases l with
  | nil => rfl
  | cons s l =>
      obtain ⟨⟨hne, hsep⟩, -⟩ := List.forall_mem_cons.mp h
      obtain ⟨c, s, rfl⟩ := List.exists_cons_of_ne_nil hne
      have hc : c ≠ sep := fun he => hsep (he ▸ List.mem_cons_self ..)
      cases l <;> simpa [intercalate, isAbsolute] using hc

/-! ## The text of a location -/

section LocText
variable {L : Loc} {s : OsStr}

@[simp] theorem locText_ne_nil (L : Loc) : locText L ≠ [] := by simp [locText]

@[simp] theorem isAbsolute_locText (L : Loc) : isAbsolute (locText L) = true := by
  simp [isAbsolute, locText]

theorem segments_locText (h : ∀ s ∈ L, IsName s) : segments (locText L) = L := by
  rw [locText, segments_sep_cons]
  exact segments_intercalate fun s hs => (h s hs).isSegment

/-- Different locations have different texts. -/
theorem locText_injective {M : Loc} (hL : ∀ s ∈ L, IsName s) (hM : ∀ s ∈ M, IsName s)
    (h : locText L = locText M) : L = M := by
  rw [← segments_locText hL, h, segments_locText hM]

theorem filter_ne_dot (h : ∀ s ∈ L, IsName s) : L.filter (· ≠ dot) = L :=
  List.filter_eq_self.mpr fun s hs => decide_eq_true (h s hs).2.2.1

theorem map_classify (h : ∀ s ∈ L, IsName s) : L.map classify = L.map .normal :=
  List.map_congr_left fun s hs => if_neg (h s hs).2.2.2

theorem components_locText (h : ∀ s ∈ L, IsName s) :
    components (locText L) = .rootDir :: L.map .normal := by
  rw [components, if_pos (isAbsolute_locText L), segments_locText h, filter_ne_dot h,
    map_classify h]

theorem locText_append_of_ne_nil {r : List OsStr} (hL : L ≠ []) (hr : r ≠ []) :
    locText (L ++ r) = locText L ++ sep :: intercalate r := by
  rw [locText, intercalate_append hL hr, locText, List.cons_append]

/-- A name with a suffix is a name. -/
theorem isName_suffix {s x : OsStr} (hs : IsName s) (hx : sep ∉ x) : IsName (s ++ x) := by
  obtain ⟨hne, hsep, hdot, hdotdot⟩ := hs
  obtain ⟨c, s, rfl⟩ := List.exists_cons_of_ne_nil hne
  refine ⟨by simp, fun hm => (List.mem_append.mp hm).elim hsep hx, ?_, ?_⟩
  · intro he
    obtain ⟨rfl, hnil⟩ := List.cons.inj he
    rw [(List.append_eq_nil_iff.mp hnil).1] at hdot
    exact hdot rfl
  · intro he
    obtain ⟨rfl, htail⟩ := List.cons.inj he
    rcases List.append_eq_singleton_iff.mp htail with ⟨rfl, -⟩ | ⟨rfl, -⟩
    · exact hdot rfl
    · exact hdotdot rfl

/-- A suffix pushed onto the text lengthens the last name. -/
theorem locText_suffix (L : Loc) (s x : OsStr) :
    locText (L ++ [s]) ++ x = locText (L ++ [s ++ x]) := by
  by_cases hL : L = []
  · subst hL
    rfl
  · rw [locText_append_of_ne_nil hL (List.cons_ne_nil _ _),
      locText_append_of_ne_nil hL (List.cons_ne_nil _ _), List.append_assoc, List.cons_append]
    rfl

/-- The text of a location other than the root ends in a name, not in a separator. -/
theorem endsWithSep_locText (hne : L ≠ []) (hL : ∀ s ∈ L, IsSegment s) :
    endsWithSep (locText L) = false := by
  have hint : intercalate L ≠ [] := intercalate_ne_nil hne hL
  rw [locText, ← List.singleton_append, endsWithSep, List.getLast?_append_of_ne_nil _ hint]
  exact endsWithSep_intercalate hL

/-- **Joining names to a location's text** adds them to the location. -/
theorem join_locText {r : List OsStr} (hL : ∀ s ∈ L, IsName s) (hr : r ≠ [])
    (hseg : ∀ s ∈ r, IsSegment s) : join (locText L) (intercalate r) = locText (L ++ r) := by
  rw [join, if_neg (by simp [isAbsolute_intercalate hseg])]
  by_cases hnil : L = []
  · subst hnil
    rfl
  · have hend : endsWithSep (locText L) = false :=
      endsWithSep_locText hnil fun s hs => (hL s hs).isSegment
    rw [if_neg (by simp [hend]), locText_append_of_ne_nil hnil hr]

theorem parent_locText (hL : ∀ s ∈ L, IsName s) (hs : IsName s) :
    parent (locText (L ++ [s])) = some (locText L) := by
  have hall : ∀ a ∈ L ++ [s], IsName a := by
    simpa [or_imp, forall_and] using ⟨hL, hs⟩
  have hlast : (components (locText (L ++ [s]))).getLast? = some (.normal s) := by
    rw [components_locText hall, List.map_append, List.map_singleton, ← List.cons_append,
      List.getLast?_concat]
  rw [parent, hlast, components_locText hall, List.map_append, ← List.cons_append,
    List.map_singleton, List.dropLast_concat, render, locText]
  have htext : componentText ∘ Component.normal = id := rfl
  rw [List.map_map, htext, List.map_id]

/-- A text starts with a location's exactly when its components do. -/
theorem startsWith_locText {M : Loc} (hL : ∀ s ∈ L, IsName s) (hM : ∀ s ∈ M, IsName s) :
    startsWith (locText M) (locText L) = true ↔ L <+: M := by
  rw [startsWith, components_locText hL, components_locText hM, List.isPrefixOf_iff_prefix,
    List.cons_prefix_cons]
  simp only [true_and]
  constructor
  · rintro ⟨r, hr⟩
    have hlen : (M.map Component.normal).take L.length = L.map .normal := by
      rw [← hr, List.take_left' (List.length_map _)]
    rw [← List.map_take] at hlen
    have hinj : Function.Injective Component.normal := fun a b hab => Component.normal.inj hab
    exact List.prefix_iff_eq_take.mpr (List.map_injective_iff.mpr hinj hlen).symm
  · exact fun h => h.map _

end LocText

/-! ## Putting components together again -/

/-- The segments of a path that are components of it: all but the `.`s, of which a
relative path keeps one in front. -/
def solidSegments (t : OsStr) : List OsStr :=
  if isAbsolute t then (segments t).filter (· ≠ dot)
  else
    match segments t with
    | [] => []
    | s :: rest => s :: rest.filter (· ≠ dot)

theorem solidSegments_locText {L : Loc} (h : ∀ s ∈ L, IsName s) :
    solidSegments (locText L) = L := by
  rw [solidSegments, if_pos (isAbsolute_locText L), segments_locText h, filter_ne_dot h]

theorem isSegment_of_mem_solidSegments {s t : OsStr} (h : s ∈ solidSegments t) : IsSegment s := by
  apply mem_segments
  unfold solidSegments at h
  split at h
  · exact List.mem_of_mem_filter h
  · split at h
    · cases h
    · rename_i a rest ha
      rw [ha]
      rcases List.mem_cons.mp h with rfl | h
      · exact List.mem_cons_self ..
      · exact List.mem_cons_of_mem _ (List.mem_of_mem_filter h)

theorem componentText_classify (s : OsStr) : componentText (classify s) = s := by
  unfold classify
  split
  · rename_i h
    exact h.symm
  · rfl

/-- The first segment of a relative path is not the root, and its component has its text. -/
theorem head_ne_rootDir (s : OsStr) :
    (if s = dot then Component.curDir else classify s) ≠ .rootDir := by
  unfold classify
  split
  · simp
  · split <;> simp

theorem componentText_head (s : OsStr) :
    componentText (if s = dot then Component.curDir else classify s) = s := by
  split
  · rename_i h
    exact h.symm
  · exact componentText_classify s

/-- The text of some solid segments, from the root or from the working directory. -/
def solidText (absolute : Bool) (l : List OsStr) : OsStr :=
  if absolute then locText l else intercalate l

/-- The components that solid segments stand for. -/
def solidComponents (absolute : Bool) (l : List OsStr) : List Component :=
  if absolute then .rootDir :: l.map classify
  else
    match l with
    | [] => []
    | s :: rest => (if s = dot then .curDir else classify s) :: rest.map classify

theorem components_eq_solid (t : OsStr) :
    components t = solidComponents (isAbsolute t) (solidSegments t) := by
  unfold components solidComponents solidSegments
  split
  · rfl
  · cases segments t <;> rfl

theorem map_componentText_classify (l : List OsStr) : (l.map classify).map componentText = l := by
  rw [List.map_map]
  exact (List.map_congr_left fun s _ => componentText_classify s).trans (List.map_id l)

theorem render_solidComponents (absolute : Bool) (l : List OsStr) :
    render (solidComponents absolute l) = solidText absolute l := by
  unfold solidComponents solidText
  split
  · rw [render, map_componentText_classify, locText]
  · cases l with
    | nil => rfl
    | cons s rest =>
        simp only
        rw [render.eq_2 _ fun cs h => head_ne_rootDir s (List.cons.inj h).1, List.map_cons,
          componentText_head, map_componentText_classify]

/-- One segment more is one component more, and not the root. -/
theorem solidComponents_concat (absolute : Bool) (l : List OsStr) (s : OsStr) :
    ∃ c, c ≠ .rootDir ∧
      solidComponents absolute (l ++ [s]) = solidComponents absolute l ++ [c] := by
  have hclass : ∀ s, classify s ≠ .rootDir := by
    intro s
    unfold classify
    split <;> simp
  cases absolute with
  | true =>
      refine ⟨classify s, hclass s, ?_⟩
      simp [solidComponents]
  | false =>
      cases l with
      | nil => exact ⟨_, head_ne_rootDir s, rfl⟩
      | cons a l =>
          refine ⟨classify s, hclass s, ?_⟩
          simp [solidComponents]

/-- **The proper ancestors** of a path are the texts of the segments in front. -/
theorem mem_properAncestors {absolute : Bool} {l : List OsStr} {q : OsStr}
    (h : q ∈ properAncestors (solidComponents absolute l).reverse) :
    ∃ front s rest, l = front ++ s :: rest ∧ q = solidText absolute front := by
  induction l using List.reverseRecOn with
  | nil =>
      cases absolute <;> cases h
  | append_singleton l s ih =>
      obtain ⟨c, hc, hconcat⟩ := solidComponents_concat absolute l s
      rw [hconcat, List.reverse_append, List.reverse_singleton, List.singleton_append,
        properAncestors.eq_3 _ _ hc, List.reverse_reverse] at h
      rcases List.mem_cons.mp h with rfl | h
      · exact ⟨l, s, [], rfl, render_solidComponents absolute l⟩
      · obtain ⟨front, a, rest, rfl, rfl⟩ := ih h
        exact ⟨front, a, rest ++ [s], by simp, rfl⟩

/-- **The ancestors** of a location's text are the texts of the locations above it. -/
theorem of_mem_ancestors_locText {L : Loc} (h : ∀ s ∈ L, IsName s) {q : OsStr}
    (hq : q ∈ ancestors (locText L)) : ∃ M, M <+: L ∧ q = locText M := by
  rcases List.mem_cons.mp hq with rfl | hq
  · exact ⟨L, List.prefix_rfl, rfl⟩
  · rw [components_eq_solid, isAbsolute_locText, solidSegments_locText h] at hq
    obtain ⟨front, s, rest, hsplit, rfl⟩ := mem_properAncestors hq
    exact ⟨front, ⟨s :: rest, hsplit.symm⟩, rfl⟩

/-- The text put together from the components of a path has the solid segments of the
path, and starts from the root when the path does. -/
theorem render_components (t : OsStr) :
    render (components t) = solidText (isAbsolute t) (solidSegments t) := by
  rw [components_eq_solid, render_solidComponents]

theorem ne_dot_of_mem_solid {t s : OsStr} (h : isAbsolute t = true) (hs : s ∈ solidSegments t) :
    s ≠ dot := by
  rw [solidSegments, if_pos h] at hs
  simpa using (List.mem_filter.mp hs).2

section Front
variable {t q : OsStr} {front rest : List OsStr}

/-- Some solid segments of a path, from its first on, are the solid segments of their text. -/
theorem segments_solidText (h : solidSegments t = front ++ rest) (absolute : Bool) :
    segments (solidText absolute front) = front := by
  have hseg : segments (intercalate front) = front :=
    segments_intercalate fun s hs => isSegment_of_mem_solidSegments
      (h ▸ List.mem_append_left rest hs)
  unfold solidText
  split
  · rw [locText, segments_sep_cons, hseg]
  · exact hseg

theorem isAbsolute_solidText (h : solidSegments t = front ++ rest) (absolute : Bool) :
    isAbsolute (solidText absolute front) = absolute := by
  unfold solidText
  split
  · rename_i habs
    rw [isAbsolute_locText, habs]
  · rename_i habs
    rw [isAbsolute_intercalate fun s hs => isSegment_of_mem_solidSegments
      (h ▸ List.mem_append_left rest hs)]
    exact (Bool.eq_false_iff.mpr habs).symm

theorem solidSegments_solidText (h : solidSegments t = front ++ rest) :
    solidSegments (solidText (isAbsolute t) front) = front := by
  rw [solidSegments, isAbsolute_solidText h, segments_solidText h]
  split
  · rename_i habs
    exact List.filter_eq_self.mpr fun s hs =>
      decide_eq_true (ne_dot_of_mem_solid habs (h ▸ List.mem_append_left rest hs))
  · rename_i habs
    -- a relative path keeps its first segment, and behind it no `.`
    rw [solidSegments, if_neg habs] at h
    cases front with
    | nil => rfl
    | cons s front =>
        simp only [List.cons.injEq, true_and]
        refine List.filter_eq_self.mpr fun a ha => ?_
        split at h
        · cases h
        · rename_i b l _
          obtain ⟨-, htail⟩ : b = s ∧ l.filter (· ≠ dot) = front ++ rest := List.cons.inj h
          have hmem : a ∈ l.filter (· ≠ dot) := htail ▸ List.mem_append_left rest ha
          exact (List.mem_filter.mp hmem).2

theorem components_solidText (h : solidSegments t = front ++ rest) :
    components (solidText (isAbsolute t) front) = solidComponents (isAbsolute t) front := by
  rw [components_eq_solid, isAbsolute_solidText h, solidSegments_solidText h]

/-- Of such texts only the root's ends with a separator. -/
theorem endsWithSep_solidText (h : solidSegments t = front ++ rest) {absolute : Bool}
    (hend : endsWithSep (solidText absolute front) = true) : front = [] := by
  have hseg : ∀ s ∈ front, IsSegment s := fun s hs =>
    isSegment_of_mem_solidSegments (h ▸ List.mem_append_left rest hs)
  by_contra hfront
  unfold solidText at hend
  split at hend
  · rw [endsWithSep_locText hfront hseg] at hend
    cases hend
  · rw [endsWithSep_intercalate hseg] at hend
    cases hend

/-- Of the proper ancestors of a path, each one is an ancestor of those before it. -/
theorem pairwise_properAncestors (h : solidSegments t = front ++ rest) :
    (properAncestors (solidComponents (isAbsolute t) front).reverse).Pairwise
      fun p q => q ∈ properAncestors (components p).reverse := by
  induction front using List.reverseRecOn generalizing rest with
  | nil =>
      cases isAbsolute t <;> exact List.Pairwise.nil
  | append_singleton front s ih =>
      rw [List.append_assoc] at h
      obtain ⟨c, hc, hconcat⟩ := solidComponents_concat (isAbsolute t) front s
      rw [hconcat, List.reverse_append, List.reverse_singleton, List.singleton_append,
        properAncestors.eq_3 _ _ hc, List.reverse_reverse, render_solidComponents]
      refine List.Pairwise.cons (fun q hq => ?_) (ih h)
      rw [components_solidText h]
      exact hq

/-- **Each ancestor of a path is a proper ancestor of the ones before it.** -/
theorem pairwise_ancestors (t : OsStr) :
    (ancestors t).Pairwise fun p q => q ∈ properAncestors (components p).reverse := by
  refine List.Pairwise.cons (fun q hq => hq) ?_
  rw [components_eq_solid]
  exact pairwise_properAncestors (List.append_nil _).symm

theorem isAbsolute_render (t : OsStr) : isAbsolute (render (components t)) = isAbsolute t := by
  rw [render_components]
  exact isAbsolute_solidText (List.append_nil _).symm _

theorem segments_render (t : OsStr) : segments (render (components t)) = solidSegments t := by
  rw [render_components]
  exact segments_solidText (List.append_nil _).symm _

theorem solidSegments_render (t : OsStr) :
    solidSegments (render (components t)) = solidSegments t := by
  rw [render_components]
  exact solidSegments_solidText (List.append_nil _).symm

/-- **Components put together have the components they had.** -/
theorem components_render (t : OsStr) : components (render (components t)) = components t := by
  rw [render_components, components_solidText (List.append_nil _).symm, ← components_eq_solid]

/-- **The parent of a path** has the components of the path but the last. -/
theorem components_parent (h : parent t = some q) : components q = (components t).dropLast := by
  have hq : q = render (components t).dropLast := by
    unfold parent at h
    split at h
    · cases h
    · cases h
    · exact (Option.some.inj h).symm
  rw [hq]
  cases hl : solidSegments t using List.reverseRecOn with
  | nil =>
      rw [components_eq_solid t, hl]
      cases isAbsolute t <;> rfl
  | append_singleton front s =>
      obtain ⟨c, -, hconcat⟩ := solidComponents_concat (isAbsolute t) front s
      rw [components_eq_solid t, hl, hconcat, List.dropLast_concat, render_solidComponents,
        components_solidText hl]

end Front

/-! ## Joining names -/

section JoinNames
variable {base s : OsStr}

/-- **Joining a name adds a component.** -/
theorem components_join (h : IsName s) :
    components (join base s) = components base ++ [.normal s] := by
  have hrel : isAbsolute s = false := isAbsolute_name h
  have hclass : classify s = .normal s := if_neg h.2.2.2
  unfold components
  rw [isAbsolute_join hrel, segments_join hrel, segments_name h]
  split
  · simp [h.2.2.1, hclass]
  · cases hb : segments base with
    | nil => simp [h.2.2.1, hclass]
    | cons a l => simp [h.2.2.1, hclass]

/-- A relative path that is not empty has a segment. -/
theorem solidSegments_ne_nil {t : OsStr} (ht : t ≠ []) (habs : isAbsolute t = false) :
    solidSegments t ≠ [] := by
  obtain ⟨c, t, rfl⟩ := List.exists_cons_of_ne_nil ht
  have hc : c ≠ sep := by simpa [isAbsolute] using habs
  have hseg : segments (c :: t) ≠ [] := by
    unfold segments pieces
    rw [if_neg hc]
    split <;> simp
  obtain ⟨s, rest, hs⟩ := List.exists_cons_of_ne_nil hseg
  rw [solidSegments, habs, if_neg (by simp), hs]
  exact List.cons_ne_nil _ _

theorem solidSegments_join (h : IsName s) :
    solidSegments (join base s) = solidSegments base ++ [s] := by
  have hrel : isAbsolute s = false := isAbsolute_name h
  unfold solidSegments
  rw [isAbsolute_join hrel, segments_join hrel, segments_name h]
  split
  · simp [h.2.2.1]
  · cases segments base with
    | nil => rfl
    | cons a l => simp [h.2.2.1]

theorem fileName_join (h : IsName s) : fileName (join base s) = some s := by
  rw [fileName, components_join h]
  simp

/-- The ancestors of a joined path are the joined path, and those of its base's
components put together. -/
theorem ancestors_join (h : IsName s) :
    ancestors (join base s) =
      join base s :: render (components base) :: properAncestors (components base).reverse := by
  rw [ancestors, components_join h, List.reverse_append, List.reverse_singleton,
    List.singleton_append, properAncestors, List.reverse_reverse]
  simp

end JoinNames

end UnixPath

import Reoftpd.FileTreeFacts
import Reoftpd.Scope

/-!
# Scoping and containment

The part of `paths.rs` that looks at the file system: `contained` canonicalizes the
longest ancestor that is there and puts the rest of the path back on, and
`ScopeMap::resolve` applies it to a virtual path.

Two facts carry everything said about resolved paths.  A base that is there is never
reported missing (`contained_ne_notFound`).  And below a base without links the path
that comes out is the text of the base's location and the names of the virtual path,
whether they are there yet or not (`contained_eq`).
-/
namespace Reoftpd
open UnixPath FileTree

/-- The test both ways through `contained` end with. -/
def withinBase (baseC resolved : OsStr) : Except PathError OsStr :=
  if startsWith resolved baseC then .ok resolved else .error .traversal

/-- The slow path of `contained`: canonicalize the first ancestor that is there and join
the tail that is not. -/
def climb (t : FileTree) (baseC : OsStr) : List OsStr → OsStr → Except PathError OsStr
  | [], _ => .error .notFound
  | ancestor :: above, tail =>
      match t.canonicalize ancestor with
      | .ok canon => withinBase baseC (join canon tail)
      | .error _ =>
          match fileName ancestor with
          | some name => climb t baseC above (if components tail = [] then name else join name tail)
          | none => .error .notFound

/-- `contained`. -/
def contained (t : FileTree) (base candidate : OsStr) : Except PathError OsStr :=
  match t.canonicalize base with
  | .error _ => .error .notFound
  | .ok baseC =>
      match t.canonicalize candidate with
      | .ok resolved => withinBase baseC resolved
      | .error _ => climb t baseC (ancestors candidate) []

/-- `ScopeMap::resolve`. -/
def ScopeMap.resolve (m : ScopeMap) (t : FileTree) (virtualPath : OsStr) :
    Except PathError OsStr :=
  match m.target virtualPath with
  | .error e => .error e
  | .ok (base, joined) => contained t base joined

theorem withinBase_ok {baseC r real : OsStr} (h : withinBase baseC r = .ok real) :
    real = r ∧ startsWith r baseC = true := by
  unfold withinBase at h
  split at h
  · rename_i hs
    exact ⟨(Except.ok.inj h).symm, hs⟩
  · cases h

/-! ## The names of a virtual path -/

/-- The lossy conversion of a name is a name. -/
theorem isName_lossy {s : OsStr} (h : IsName s) : IsName (ofString (toStringLossy s)) := by
  have hmap : ofString (toStringLossy s) = s.map fun c => OsChar.chr c.lossy := by
    simp [ofString, toStringLossy, Function.comp_def]
  have hkeep : ∀ (c : OsChar) (a : Char), a ≠ '\uFFFD' → c.lossy = a → c = .chr a := by
    intro c a ha hc
    cases c with
    | chr b => exact congrArg _ hc
    | ill b => exact absurd hc.symm ha
  obtain ⟨hne, hsep, hdot, hdotdot⟩ := h
  rw [hmap]
  refine ⟨by simpa using hne, ?_, ?_, ?_⟩
  · intro hm
    obtain ⟨c, hc, hcs⟩ := List.mem_map.mp hm
    obtain rfl : c = .chr '/' := hkeep c '/' (by decide) (OsChar.chr.inj hcs)
    exact hsep hc
  · intro he
    obtain ⟨c, rfl, hc⟩ := List.map_eq_singleton_iff.mp he
    exact hdot (congrArg (fun x => [x]) (hkeep c '.' (by decide) (OsChar.chr.inj hc)))
  · intro he
    obtain ⟨c, r, rfl, hc, hr⟩ := List.map_eq_cons_iff.mp he
    obtain ⟨c', rfl, hc'⟩ := List.map_eq_singleton_iff.mp hr
    refine hdotdot ?_
    rw [hkeep c '.' (by decide) (OsChar.chr.inj hc), hkeep c' '.' (by decide) (OsChar.chr.inj hc')]
    rfl

/-- A component of a path that is a normal one is a name. -/
theorem isName_of_mem_components {t s : OsStr} (h : Component.normal s ∈ components t) :
    IsName s := by
  -- a `.` is dropped and a `..` is no normal component, so what is left is a name
  have hclass : ∀ a ∈ segments t, a ≠ dot → classify a = .normal s → IsName s := by
    intro a ha hdot hc
    unfold classify at hc
    split at hc
    · cases hc
    · rename_i hdd
      obtain rfl := Component.normal.inj hc
      exact isName_of_mem_segments ha hdot hdd
  unfold components at h
  split at h
  · rcases List.mem_cons.mp h with h | h
    · cases h
    · obtain ⟨a, ha, hc⟩ := List.mem_map.mp h
      obtain ⟨hmem, hdot⟩ := List.mem_filter.mp ha
      exact hclass a hmem (by simpa using hdot) hc
  · split at h
    · cases h
    · rename_i a rest hseg
      rw [hseg] at hclass
      rcases List.mem_cons.mp h with h | h
      · split at h
        · cases h
        · rename_i hdot
          exact hclass a (List.mem_cons_self ..) hdot h.symm
      · obtain ⟨b, hb, hc⟩ := List.mem_map.mp h
        obtain ⟨hmem, hdot⟩ := List.mem_filter.mp hb
        exact hclass b (List.mem_cons_of_mem _ hmem) (by simpa using hdot) hc

/-- The file name of a path is a name. -/
theorem isName_fileName {t s : OsStr} (h : fileName t = some s) : IsName s := by
  unfold fileName at h
  split at h
  · rename_i a ha
    obtain rfl := Option.some.inj h
    exact isName_of_mem_components (List.mem_of_getLast? ha)
  · cases h

/-- The names a list of components normalizes to. -/
theorem normalizeComponents_ok {cs : List Component} {parts : List String}
    (h : normalizeComponents cs = .ok parts) :
    (∀ n ∈ parts, ∃ s, Component.normal s ∈ cs ∧ n = toStringLossy s) ∧
      ∀ s, Component.normal s ∈ cs → toStringLossy s ∈ parts := by
  induction cs generalizing parts with
  | nil =>
      obtain rfl := Except.ok.inj h
      simp
  | cons c cs ih =>
      cases c with
      | rootDir | curDir =>
          obtain ⟨h1, h2⟩ := ih h
          exact ⟨fun n hn => (h1 n hn).imp fun s hs => ⟨List.mem_cons_of_mem _ hs.1, hs.2⟩,
            fun s hs => h2 s (by simpa using hs)⟩
      | parentDir => cases h
      | normal s =>
          unfold normalizeComponents at h
          split at h
          · rename_i names hn
            obtain rfl := Except.ok.inj h
            obtain ⟨h1, h2⟩ := ih hn
            constructor
            · intro n hn
              rcases List.mem_cons.mp hn with rfl | hn
              · exact ⟨s, List.mem_cons_self .., rfl⟩
              · exact (h1 n hn).imp fun s hs => ⟨List.mem_cons_of_mem _ hs.1, hs.2⟩
            · intro a ha
              rcases List.mem_cons.mp ha with ha | ha
              · obtain rfl := Component.normal.inj ha
                exact List.mem_cons_self ..
              · exact List.mem_cons_of_mem _ (h2 a ha)
          · cases h

/-- The names of a virtual path are ordinary file names. -/
theorem isName_of_normalize {virt : OsStr} {parts : List String} (h : normalize virt = .ok parts) :
    ∀ n ∈ parts, IsName (ofString n) := by
  intro n hn
  obtain ⟨s, hs, rfl⟩ := (normalizeComponents_ok h).1 n hn
  exact isName_lossy (isName_of_mem_components hs)

/-- A virtual path with a file name has a name. -/
theorem normalize_ne_nil {virt s : OsStr} {parts : List String} (h : normalize virt = .ok parts)
    (hname : fileName virt = some s) : parts ≠ [] := by
  unfold fileName at hname
  split at hname
  · rename_i a ha
    have hmem := (normalizeComponents_ok h).2 a (List.mem_of_getLast? ha)
    exact List.ne_nil_of_mem hmem
  · cases hname

theorem normalizeComponents_concat {cs : List Component} {s : OsStr} {parts : List String}
    (h : normalizeComponents (cs ++ [.normal s]) = .ok parts) :
    ∃ front, normalizeComponents cs = .ok front ∧ parts = front ++ [toStringLossy s] := by
  induction cs generalizing parts with
  | nil => exact ⟨[], rfl, (Except.ok.inj h).symm⟩
  | cons c cs ih =>
      cases c with
      | rootDir | curDir => exact ih h
      | parentDir => cases h
      | normal a =>
          rw [List.cons_append, normalizeComponents] at h
          split at h
          · rename_i names hn
            obtain ⟨front, hfront, rfl⟩ := ih hn
            refine ⟨toStringLossy a :: front, by rw [normalizeComponents, hfront], ?_⟩
            exact (Except.ok.inj h).symm
          · cases h

/-- **The parent of a virtual path** has the names of the path but the last. -/
theorem normalize_parent {virt name dir : OsStr} {parts : List String}
    (h : normalize virt = .ok parts) (hname : fileName virt = some name)
    (hdir : parent virt = some dir) :
    ∃ front, normalize dir = .ok front ∧ parts = front ++ [toStringLossy name] := by
  have hlast : (components virt).getLast? = some (.normal name) := by
    unfold fileName at hname
    split at hname
    · rename_i s hs
      rw [hs, Option.some.inj hname]
    · cases hname
  rw [normalize, components_parent hdir]
  apply normalizeComponents_concat
  rw [List.dropLast_append_getLast? _ hlast]
  exact h

/-- A path without `..` normalizes. -/
theorem normalize_ok_of_no_dotdot {virt : OsStr} (h : Component.parentDir ∉ components virt) :
    ∃ parts, normalize virt = .ok parts := by
  unfold normalize
  generalize components virt = cs at h
  induction cs with
  | nil => exact ⟨[], rfl⟩
  | cons c cs ih =>
      rw [List.mem_cons, not_or] at h
      obtain ⟨parts, hp⟩ := ih h.2
      cases c with
      | rootDir | curDir => exact ⟨parts, hp⟩
      | parentDir => exact absurd rfl h.1
      | normal s => exact ⟨toStringLossy s :: parts, by rw [normalizeComponents, hp]⟩

/-- A text of characters is its own lossy conversion. -/
theorem ofString_lossy {s : OsStr} (h : ∀ c ∈ s, c.char?.isSome) :
    ofString (toStringLossy s) = s := by
  have hchr : ∀ c ∈ s, OsChar.chr c.lossy = c := by
    intro c hc
    cases c with
    | chr a => rfl
    | ill bytes => cases h _ hc
  rw [ofString, toStringLossy, String.toList_ofList, List.map_map]
  exact (List.map_congr_left hchr).trans (List.map_id _)

/-- The names of a string below the root are its segments without the `.`s. -/
theorem normalize_string {n : String} {parts : List String}
    (h : normalize (sep :: ofString n) = .ok parts) :
    parts.map ofString = (segments (ofString n)).filter (· ≠ dot) := by
  have hchars : ∀ s ∈ (segments (ofString n)).filter (· ≠ dot), ∀ c ∈ s, c.char?.isSome := by
    intro s hs c hc
    obtain ⟨a, -, rfl⟩ := List.mem_map.mp (mem_of_mem_segments (List.mem_of_mem_filter hs) hc)
    rfl
  have habs : isAbsolute (sep :: ofString n) = true := rfl
  rw [normalize, components, if_pos habs, segments_sep_cons, normalizeComponents] at h
  generalize (segments (ofString n)).filter (· ≠ dot) = l at h hchars
  induction l generalizing parts with
  | nil =>
      obtain rfl := Except.ok.inj h
      rfl
  | cons s l ih =>
      obtain ⟨hs, hl⟩ := List.forall_mem_cons.mp hchars
      rw [List.map_cons, classify] at h
      split at h
      · cases h
      · rw [normalizeComponents] at h
        split at h
        · rename_i names hnames
          obtain rfl := Except.ok.inj h
          rw [List.map_cons, ofString_lossy hs, ih hnames hl]
        · cases h

/-! ## Paths that go on from a base -/

/-- `a` spells the path `base` and the names `l` after it. -/
structure Spells (base a : OsStr) (l : List OsStr) : Prop where
  absolute : isAbsolute a = isAbsolute base
  solid : solidSegments a = solidSegments base ++ l

theorem spells_foldl (base : OsStr) {l : List OsStr} (h : ∀ s ∈ l, IsName s) :
    Spells base (l.foldl join base) l := by
  induction l using List.reverseRecOn with
  | nil => exact ⟨rfl, (List.append_nil _).symm⟩
  | append_singleton l s ih =>
      obtain ⟨habs, hsolid⟩ := ih fun x hx => h x (by simp [hx])
      have hs : IsName s := h s (by simp)
      rw [List.foldl_append, List.foldl_cons, List.foldl_nil]
      exact ⟨by rw [isAbsolute_join (isAbsolute_name hs), habs],
        by rw [solidSegments_join hs, hsolid, List.append_assoc]⟩

theorem spells_join (base : OsStr) {s : OsStr} (hs : IsName s) : Spells base (join base s) [s] :=
  ⟨isAbsolute_join (isAbsolute_name hs), solidSegments_join hs⟩

/-- The text of a path that goes on with names. -/
theorem foldl_join_text (base : OsStr) {l : List OsStr} (h : ∀ s ∈ l, IsName s) :
    segments (l.foldl join base) = segments base ++ l ∧
      (l ≠ [] → endsWithSep (l.foldl join base) = false) ∧
      (nul ∉ l.foldl join base ↔ nul ∉ base ∧ ∀ s ∈ l, nul ∉ s) := by
  induction l using List.reverseRecOn with
  | nil => simp
  | append_singleton l s ih =>
      obtain ⟨hseg, -, hnul⟩ := ih fun x hx => h x (by simp [hx])
      have hs : IsName s := h s (by simp)
      rw [List.foldl_append, List.foldl_cons, List.foldl_nil]
      refine ⟨?_, fun _ => endsWithSep_join_name hs, ?_⟩
      · rw [segments_join (isAbsolute_name hs), hseg, segments_name hs, List.append_assoc]
      · rw [nul_not_mem_join hs, hnul, and_assoc]
        simp [or_imp, forall_and]

theorem joinAll_eq (base : OsStr) (parts : List String) :
    joinAll base parts = (parts.map ofString).foldl join base := by
  rw [joinAll, List.foldl_map]

section Leads
variable {t : FileTree} {base a : OsStr} {B L : Loc} {e : Entry OsStr}

theorem start_congr {b : OsStr} (h : isAbsolute a = isAbsolute b) : t.start a = t.start b := by
  rw [start, h, start]

/-- **A path leads where it would lead** with a few `.`s more. -/
theorem locate_thin {b : OsStr} (h : t.locate true a = .ok L) (habs : isAbsolute b = isAbsolute a)
    (hne : b ≠ []) (hnul : nul ∉ b) (hend : endsWithSep b = false)
    (hthin : Thin (segments b) (segments a)) : t.locate true b = .ok L := by
  obtain ⟨-, -, here, hstart, -, hw⟩ := locateSteps_ok h
  rw [locate, locateSteps_eq hne hnul ((start_congr habs).trans hstart), steps, hend,
    if_neg (by simp)]
  exact walk_thin (walk_thin hw (thin_steps a)) hthin

/-- **Where the first solid segments of a path lead**, their text leads. -/
theorem locate_solidText (h : t.locate true a = .ok L) {front rest : List OsStr} {here : Loc}
    (hsolid : solidSegments a = front ++ rest) (hne : front ≠ [] ∨ isAbsolute a = true)
    (hstart : t.start a = .ok here) (hw : walk t.entry true maxSymlinks here front = .ok B) :
    t.locate true (solidText (isAbsolute a) front) = .ok B := by
  obtain ⟨-, hnul, -⟩ := locateSteps_ok h
  have hmem : ∀ s ∈ front, s ∈ solidSegments a := fun s hs =>
    hsolid ▸ List.mem_append_left rest hs
  have hseg : ∀ s ∈ front, IsSegment s := fun s hs => isSegment_of_mem_solidSegments (hmem s hs)
  have hnuls : ∀ s ∈ front, nul ∉ s := fun s hs =>
    nul_not_mem_segments ((thin_solid a).mem (hmem s hs)) hnul
  have htext : solidText (isAbsolute a) front ≠ [] ∧ nul ∉ solidText (isAbsolute a) front := by
    unfold solidText
    split
    · exact ⟨locText_ne_nil _, nul_not_mem_locText hnuls⟩
    · rename_i habs
      exact ⟨intercalate_ne_nil (hne.resolve_right habs) hseg, nul_not_mem_intercalate hnuls⟩
  rw [locate, locateSteps_eq htext.1 htext.2
    ((start_congr (isAbsolute_solidText hsolid _)).trans hstart), steps, segments_solidText hsolid]
  split
  · -- only the root ends with a separator
    rename_i hend
    rw [endsWithSep_solidText hsolid hend] at hw ⊢
    rw [List.nil_append, walk_dot]
    exact hw
  · exact hw

/-- **A path leads where its components lead.** -/
theorem locate_render (h : t.locate true a = .ok L) :
    t.locate true (render (components a)) = .ok L := by
  obtain ⟨ha, -⟩ := locateSteps_ok h
  obtain ⟨here, hstart, -, hw⟩ := walk_solid h
  rw [render_components]
  refine locate_solidText h (List.append_nil _).symm ?_ hstart hw
  cases habs : isAbsolute a with
  | true => exact Or.inr rfl
  | false => exact Or.inl (solidSegments_ne_nil ha habs)

/-- **Above where a path leads** there are directories, one for each of its ancestors but the
empty text. -/
theorem dir_of_properAncestor (h : t.locate true a = .ok L) {q : OsStr}
    (hq : q ∈ properAncestors (components a).reverse) (hne : q ≠ []) :
    ∃ D, t.locate true q = .ok D ∧ t.entry D = some .dir := by
  rw [components_eq_solid] at hq
  obtain ⟨front, s, rest, hsolid, rfl⟩ := mem_properAncestors hq
  obtain ⟨here, hstart, hhere, hw⟩ := walk_solid h
  rw [hsolid] at hw
  obtain ⟨D, -, hD, hdir, -⟩ := walk_append_ok t.rooted hhere hw (List.cons_ne_nil s rest)
  refine ⟨D, locate_solidText h hsolid ?_ hstart hD, hdir⟩
  cases habs : isAbsolute a with
  | true => exact Or.inr rfl
  | false =>
      left
      rintro rfl
      rw [habs] at hne
      exact hne rfl

theorem canonicalize_render {c : OsStr} (h : t.canonicalize a = .ok c) :
    t.canonicalize (render (components a)) = .ok c := by
  obtain ⟨L, e, hl, he, rfl⟩ := canonicalize_ok h
  exact canonicalize_eq (locate_render hl) he

/-- A path that goes on from a base leads where the text of its components leads. -/
theorem locate_of_render (hB : t.locate true base = .ok B) {l : List OsStr}
    (hl : ∀ s ∈ l, IsName s) (hne : l ≠ [])
    (h : t.locate true (render (components (l.foldl join base))) = .ok L) :
    t.locate true (l.foldl join base) = .ok L := by
  obtain ⟨habs, hsolid⟩ := spells_foldl base hl
  obtain ⟨hseg, hend, hnul⟩ := foldl_join_text base hl
  obtain ⟨hbase, hbasenul, here, hstart, hhere, hwB⟩ := locateSteps_ok hB
  obtain ⟨-, hrnul, -⟩ := locateSteps_ok h
  obtain ⟨here', hstart', -, hw⟩ := walk_solid h
  obtain rfl : here = here' := by
    rw [start_congr ((isAbsolute_render _).trans habs), hstart] at hstart'
    exact Except.ok.inj hstart'
  have hsegB : walk t.entry true maxSymlinks here (segments base) = .ok B :=
    walk_thin hwB (thin_steps base)
  rw [solidSegments_render, hsolid] at hw
  obtain ⟨D, m, hD, hdir, -⟩ := walk_append_ok t.rooted hhere hw hne
  obtain rfl : D = B := Except.ok.inj (hD.symm.trans (walk_thin hsegB (thin_solid base)))
  -- the `.`s of the base make no difference to the walk on from it
  rw [← walk_thin_append hsegB hdir (thin_solid base) hne] at hw
  have hnul' : nul ∉ l.foldl join base := by
    refine hnul.mpr ⟨hbasenul, fun s hs => nul_not_mem_segments ?_ hrnul⟩
    rw [segments_render, hsolid]
    exact List.mem_append_right _ hs
  have hne' : l.foldl join base ≠ [] := by
    intro hnil
    rw [hnil] at hsolid
    exact hne (List.append_eq_nil_iff.mp hsolid.symm).2
  rw [locate, locateSteps_eq hne' hnul' ((start_congr habs).trans hstart), steps, hend hne,
    if_neg (by simp), hseg]
  exact hw

/-- Below a base without links, a path that goes on from the base leads to the names it
goes on with. -/
theorem locate_spelled (hfree : t.LinkFree base) (hB : t.locate true base = .ok B)
    {l : List OsStr} (hl : ∀ s ∈ l, IsName s) (ha : Spells base a l)
    (h : t.locate true a = .ok L) : L = B ++ l := by
  obtain ⟨here, hstart, hhere, hw⟩ := walk_solid h
  obtain ⟨here', hstart', -, hw'⟩ := walk_solid hB
  obtain rfl : here = here' :=
    Except.ok.inj ((hstart.symm.trans (start_congr ha.absolute)).trans hstart')
  rw [ha.solid] at hw
  by_cases hnil : l = []
  · rw [hnil, List.append_nil] at hw ⊢
    exact Except.ok.inj (hw.symm.trans hw')
  · obtain ⟨D, m, hD, -, hon⟩ := walk_append_ok t.rooted hhere hw hnil
    obtain rfl : D = B := Except.ok.inj (hD.symm.trans hw')
    exact walk_names hl (fun q hq _ => hfree.entry_ne hB (List.prefix_append D q)) hon

/-- Below a path without links, a path that goes on with names aims at what they spell. -/
theorem aim_spelled (hfree : t.LinkFree base) {l : List OsStr} (hl : ∀ s ∈ l, IsName s)
    (ha : Spells base a l) (h : t.aim a = .ok L) : ∃ B, t.aim base = .ok B ∧ L = B ++ l := by
  rw [aim, ha.absolute, ha.solid] at h
  by_cases hnil : l = []
  · rw [hnil, List.append_nil] at h
    exact ⟨L, h, by rw [hnil, List.append_nil]⟩
  · obtain ⟨D, m, hD, -, hon⟩ := walk_append_of (P := fun _ => True) (fun _ _ => trivial)
      (fun _ _ _ => trivial) (fun _ _ => trivial) trivial h hnil
    have hnl : ∀ q, D <+: q → ∀ target, t.asDirs q ≠ some (.link target) :=
      fun q hq target hlink => hfree D hD q hq target (asDirs_link.mp hlink)
    exact ⟨D, hD, walk_names hl (fun q _ _ => hnl _ (List.prefix_append D q)) hon⟩

/-- **Below a path without links** no path that goes on with names has any. -/
theorem linkFree_spelled (hfree : t.LinkFree base) {l : List OsStr} (hl : ∀ s ∈ l, IsName s)
    (ha : Spells base a l) : t.LinkFree a := by
  intro B' hB' L hL
  obtain ⟨B, hB, rfl⟩ := aim_spelled hfree hl ha hB'
  exact hfree B hB L ((List.prefix_append B l).trans hL)

end Leads

/-! ## What `contained` returns -/

section Contained
variable {t : FileTree} {base baseC : OsStr}

/-- The names put back on after a failure at `s` are `s` and those before. -/
theorem tail_cons {s : OsStr} {tail : List OsStr} (hl : ∀ x ∈ s :: tail, IsName x) :
    (if components (intercalate tail) = [] then s else join s (intercalate tail)) =
      intercalate (s :: tail) := by
  obtain ⟨hs, htail⟩ := List.forall_mem_cons.mp hl
  have hsegs : ∀ x ∈ tail, IsSegment x := fun x hx => (htail x hx).isSegment
  cases tail with
  | nil => rfl
  | cons b tail =>
      have hb : IsName b := htail b (List.mem_cons_self ..)
      have hne : components (intercalate (b :: tail)) ≠ [] := by
        rw [components, isAbsolute_intercalate hsegs, if_neg (by simp), segments_intercalate hsegs]
        simp
      have hend : endsWithSep s = false := by
        have hone : endsWithSep (intercalate [s]) = false :=
          endsWithSep_intercalate (by simpa using hs.isSegment)
        exact hone
      rw [if_neg hne, join, isAbsolute_intercalate hsegs, if_neg (by simp),
        if_neg (by simp [hs.1, hend])]
      rfl

/-- One step up from a path that goes on with `l ++ [s]`, spelled either way: its last name
is `s`, and what is above it is a path that goes on with `l`. -/
theorem ancestor_concat {l : List OsStr} {s a : OsStr} (hs : IsName s)
    (ha : a = (l ++ [s]).foldl join base ∨ a = render (components ((l ++ [s]).foldl join base))) :
    fileName a = some s ∧
      properAncestors (components a).reverse = render (components (l.foldl join base)) ::
        properAncestors (components (render (components (l.foldl join base)))).reverse := by
  have hcomp : components a = components (l.foldl join base) ++ [.normal s] := by
    have hsame : components a = components ((l ++ [s]).foldl join base) := by
      rcases ha with rfl | rfl
      · rfl
      · exact components_render _
    rw [hsame, List.foldl_append, List.foldl_cons, List.foldl_nil, components_join hs]
  refine ⟨by rw [fileName, hcomp, List.getLast?_concat], ?_⟩
  rw [hcomp, List.reverse_append, List.reverse_singleton, List.singleton_append,
    properAncestors.eq_3 _ _ (by simp), List.reverse_reverse, components_render]

/-- A path that is not there is not there under the other spelling. -/
theorem not_canonical {l : List OsStr} {a : OsStr} (hB : ∃ B, t.locate true base = .ok B)
    (hl : ∀ x ∈ l, IsName x) (hne : l ≠ []) (h : ∀ c, t.canonicalize (l.foldl join base) ≠ .ok c)
    (ha : a = l.foldl join base ∨ a = render (components (l.foldl join base))) (c : OsStr) :
    t.canonicalize a ≠ .ok c := by
  obtain ⟨B, hB⟩ := hB
  rcases ha with rfl | rfl
  · exact h c
  · intro hc
    obtain ⟨L, e, hL, he, -⟩ := canonicalize_ok hc
    exact h _ (canonicalize_eq (locate_of_render hB hl hne hL) he)

/-- **The slow path** climbs from a path that goes on with `front ++ mid` to the one that
goes on with `front`, when that is the first that is there, and puts the names back on. -/
theorem climb_joined (hbase : t.canonicalize base = .ok baseC) {front mid tail : List OsStr}
    {canon a : OsStr} (hl : ∀ s ∈ front ++ mid ++ tail, IsName s)
    (hfront : t.canonicalize (front.foldl join base) = .ok canon)
    (hmid : ∀ q x, q ++ [x] <+: mid → ∀ c,
      t.canonicalize ((front ++ (q ++ [x])).foldl join base) ≠ .ok c)
    (ha : a = (front ++ mid).foldl join base ∨
      a = render (components ((front ++ mid).foldl join base))) :
    climb t baseC (a :: properAncestors (components a).reverse) (intercalate tail) =
      withinBase baseC (join canon (intercalate (mid ++ tail))) := by
  induction mid using List.reverseRecOn generalizing tail a with
  | nil =>
      rw [List.append_nil] at ha
      have hcanon : t.canonicalize a = .ok canon := by
        rcases ha with rfl | rfl
        · exact hfront
        · exact canonicalize_render hfront
      rw [climb, hcanon, List.nil_append]
  | append_singleton mid s ih =>
      obtain ⟨B, -, hB, -⟩ := canonicalize_ok hbase
      have hlong := hmid mid s List.prefix_rfl
      rw [← List.append_assoc] at ha hl hlong
      have hnames : ∀ x ∈ front ++ mid ++ [s], IsName x := fun x hx =>
        hl x (List.mem_append_left tail hx)
      have htail : ∀ x ∈ s :: tail, IsName x := fun x hx => hl x (by
        rw [List.append_assoc _ [s]]
        exact List.mem_append_right (front ++ mid) hx)
      obtain ⟨hname, habove⟩ := ancestor_concat (hnames s (by simp)) ha
      have hih := @ih (s :: tail) (render (components ((front ++ mid).foldl join base)))
        (by simpa using hl)
        (fun q x hqx => hmid q x (hqx.trans (List.prefix_append mid [s]))) (Or.inr rfl)
      -- the longer path is not there, so its last name joins the tail and the climb goes on
      cases hc : t.canonicalize a with
      | ok c => exact absurd hc (not_canonical ⟨B, hB⟩ hnames (by simp) hlong ha c)
      | error err =>
          rw [climb, hc, hname]
          simp only
          rw [tail_cons htail, habove, hih, List.append_assoc]
          rfl

/-- A path that is there as far as `front ++ [s]` is there as far as `front`. -/
theorem canonicalize_front (hbase : t.canonicalize base = .ok baseC) {front : List OsStr}
    {s c : OsStr} (hl : ∀ x ∈ front ++ [s], IsName x)
    (h : t.canonicalize ((front ++ [s]).foldl join base) = .ok c) :
    ∃ c', t.canonicalize (front.foldl join base) = .ok c' := by
  obtain ⟨B, -, hB, -⟩ := canonicalize_ok hbase
  obtain ⟨L, e, hL, -, -⟩ := canonicalize_ok h
  rw [List.foldl_append, List.foldl_cons, List.foldl_nil] at hL
  have hne : front.foldl join base ≠ [] := by
    intro hnil
    obtain ⟨-, hsolid⟩ := spells_foldl base fun x hx => hl x (List.mem_append_left [s] hx)
    rw [hnil] at hsolid
    have hfront : front = [] := (List.append_eq_nil_iff.mp hsolid.symm).2
    rw [hfront] at hnil
    exact (locateSteps_ok hB).1 hnil
  obtain ⟨A, -, hA, hdir, -⟩ := locate_join_ok hne (hl s (by simp)) hL
  exact ⟨_, canonicalize_eq hA hdir⟩

/-- A path is there, or there is a longest part of it that is. -/
theorem exists_longest (hbase : t.canonicalize base = .ok baseC) {l : List OsStr}
    (hl : ∀ s ∈ l, IsName s) :
    (∃ c, t.canonicalize (l.foldl join base) = .ok c) ∨
      ∃ front s rest c, l = front ++ s :: rest ∧ t.canonicalize (front.foldl join base) = .ok c ∧
        ∀ c', t.canonicalize ((front ++ [s]).foldl join base) ≠ .ok c' := by
  induction l using List.reverseRecOn with
  | nil => exact Or.inl ⟨baseC, hbase⟩
  | append_singleton l a ih =>
      rcases ih fun x hx => hl x (by simp [hx]) with ⟨c, hc⟩ | ⟨front, s, rest, c, rfl, hc, hs⟩
      · by_cases hlong : ∃ c, t.canonicalize ((l ++ [a]).foldl join base) = .ok c
        · exact Or.inl hlong
        · exact Or.inr ⟨l, a, [], c, rfl, hc, fun c' hc' => hlong ⟨c', hc'⟩⟩
      · exact Or.inr ⟨front, s, rest ++ [a], c, by simp, hc, hs⟩

/-- What is not there at `s` is not there further on. -/
theorem not_there_after (hbase : t.canonicalize base = .ok baseC) {front rest : List OsStr}
    {s : OsStr} (hl : ∀ x ∈ front ++ s :: rest, IsName x)
    (hs : ∀ c, t.canonicalize ((front ++ [s]).foldl join base) ≠ .ok c) (q : List OsStr)
    (x : OsStr) (hqx : q ++ [x] <+: s :: rest) (c : OsStr) :
    t.canonicalize ((front ++ (q ++ [x])).foldl join base) ≠ .ok c := by
  induction q using List.reverseRecOn generalizing x c with
  | nil =>
      obtain ⟨rfl, -⟩ := List.cons_prefix_cons.mp hqx
      exact hs c
  | append_singleton q y ih =>
      intro hc
      have hpre : front ++ (q ++ [y]) ++ [x] <+: front ++ s :: rest := by
        rw [List.append_assoc]
        exact (List.prefix_append_right_inj front).mpr hqx
      rw [← List.append_assoc] at hc
      obtain ⟨c', hc'⟩ := canonicalize_front hbase (fun z hz => hl z (hpre.subset hz)) hc
      exact ih y ((List.prefix_append _ [x]).trans hqx) c' hc'

/-- **What `contained` does** with names that go on from the base, if they are not all
there: `front` is the longest part that is. -/
theorem contained_slow (hbase : t.canonicalize base = .ok baseC) {front rest : List OsStr}
    {s canon : OsStr} (hl : ∀ x ∈ front ++ s :: rest, IsName x)
    (hfront : t.canonicalize (front.foldl join base) = .ok canon)
    (hs : ∀ c, t.canonicalize ((front ++ [s]).foldl join base) ≠ .ok c) :
    contained t base ((front ++ s :: rest).foldl join base) =
      withinBase baseC (join canon (intercalate (s :: rest))) := by
  have hmid := not_there_after hbase hl hs
  have hclimb := @climb_joined t base baseC hbase front (s :: rest) [] canon _ (by simpa using hl)
    hfront hmid (Or.inl rfl)
  have hfail : ∀ c, t.canonicalize ((front ++ s :: rest).foldl join base) ≠ .ok c := by
    have hlast := hmid (s :: rest).dropLast ((s :: rest).getLast (List.cons_ne_nil s rest))
    rw [List.dropLast_concat_getLast] at hlast
    exact hlast List.prefix_rfl
  rw [contained, hbase]
  simp only
  split
  · rename_i c hc
    exact absurd hc (hfail c)
  · rw [List.append_nil] at hclimb
    exact hclimb

/-- **What `contained` returns** is the canonical text of the longest part of the path that is
there, and the names after it. -/
theorem contained_ok {names : List OsStr} {real : OsStr} (hl : ∀ x ∈ names, IsName x)
    (h : contained t base (names.foldl join base) = .ok real) :
    ∃ B b front rest C c, t.find true base = .ok (B, b) ∧ names = front ++ rest ∧
      t.find true (front.foldl join base) = .ok (C, c) ∧ real = locText (C ++ rest) ∧
      (∀ x ∈ C ++ rest, IsName x) ∧ B <+: C ++ rest ∧
      ∀ s rest', rest = s :: rest' → ∀ r, t.find true ((front ++ [s]).foldl join base) ≠ .ok r := by
  cases hbase : t.canonicalize base with
  | error err =>
      rw [contained, hbase] at h
      cases h
  | ok baseC =>
      obtain ⟨B, b, hB, hb, rfl⟩ := canonicalize_ok hbase
      have hBnames : ∀ x ∈ B, IsName x := isName_of_entry (show t.entry B ≠ none by simp [hb])
      -- the fast path takes the whole path, the slow one the longest part that is there
      rcases exists_longest hbase hl with ⟨r, hr⟩ | ⟨front, s, rest, r, rfl, hr, hs⟩
      · obtain ⟨C, c, hC, hc, rfl⟩ := canonicalize_ok hr
        have hCnames : ∀ x ∈ C, IsName x := isName_of_entry (show t.entry C ≠ none by simp [hc])
        rw [contained, hbase, hr] at h
        obtain ⟨rfl, hin⟩ := withinBase_ok h
        refine ⟨B, b, names, [], C, c, find_ok.mpr ⟨hB, hb⟩, (List.append_nil _).symm,
          find_ok.mpr ⟨hC, hc⟩, by rw [List.append_nil], by rwa [List.append_nil], ?_,
          fun _ _ he => by cases he⟩
        rw [List.append_nil]
        exact (startsWith_locText hBnames hCnames).mp hin
      · obtain ⟨C, c, hC, hc, rfl⟩ := canonicalize_ok hr
        have hback : ∀ x ∈ s :: rest, IsName x := fun x hx => hl x (List.mem_append_right front hx)
        have hCnames : ∀ x ∈ C, IsName x := isName_of_entry (show t.entry C ≠ none by simp [hc])
        have hall : ∀ x ∈ C ++ s :: rest, IsName x := List.forall_mem_append.mpr ⟨hCnames, hback⟩
        rw [contained_slow hbase hl hr hs] at h
        obtain ⟨rfl, hin⟩ := withinBase_ok h
        rw [join_locText hCnames (List.cons_ne_nil s rest) fun x hx => (hback x hx).isSegment]
          at hin ⊢
        refine ⟨B, b, front, s :: rest, C, c, find_ok.mpr ⟨hB, hb⟩, rfl, find_ok.mpr ⟨hC, hc⟩, rfl,
          hall, (startsWith_locText hBnames hall).mp hin, ?_⟩
        rintro s' rest' he ⟨D, d⟩ hD
        obtain ⟨rfl, -⟩ := List.cons.inj he
        obtain ⟨hD, hd⟩ := find_ok.mp hD
        exact hs _ (canonicalize_eq hD hd)

/-- A path that is there as far as `front` resolves, unless that lies outside. -/
theorem contained_eq_locText {front rest : List OsStr} {s : OsStr} {B C : Loc}
    {b c : Entry OsStr} (hl : ∀ x ∈ front ++ s :: rest, IsName x)
    (hbase : t.find true base = .ok (B, b))
    (hfront : t.find true (front.foldl join base) = .ok (C, c))
    (hfail : ∀ r, t.find true ((front ++ [s]).foldl join base) ≠ .ok r)
    (hin : B <+: C ++ s :: rest) :
    contained t base ((front ++ s :: rest).foldl join base) = .ok (locText (C ++ s :: rest)) := by
  obtain ⟨hB, hb⟩ := find_ok.mp hbase
  obtain ⟨hC, hc⟩ := find_ok.mp hfront
  have hBnames : ∀ x ∈ B, IsName x := isName_of_entry (show t.entry B ≠ none by simp [hb])
  have hCnames : ∀ x ∈ C, IsName x := isName_of_entry (show t.entry C ≠ none by simp [hc])
  have hback : ∀ x ∈ s :: rest, IsName x := fun x hx => hl x (List.mem_append_right front hx)
  have hall : ∀ x ∈ C ++ s :: rest, IsName x := List.forall_mem_append.mpr ⟨hCnames, hback⟩
  have hmissing : ∀ r, t.canonicalize ((front ++ [s]).foldl join base) ≠ .ok r := by
    intro r hr
    obtain ⟨D, d, hD, hd, -⟩ := canonicalize_ok hr
    exact hfail (D, d) (find_ok.mpr ⟨hD, hd⟩)
  rw [contained_slow (canonicalize_eq hB hb) hl (canonicalize_eq hC hc) hmissing,
    join_locText hCnames (List.cons_ne_nil s rest) fun x hx => (hback x hx).isSegment, withinBase,
    if_pos ((startsWith_locText hBnames hall).mpr hin)]

/-- **A base that is there is never reported missing.** -/
theorem contained_ne_notFound (hbase : t.canonicalize base = .ok baseC) {l : List OsStr}
    (hl : ∀ s ∈ l, IsName s) : contained t base (l.foldl join base) ≠ .error .notFound := by
  have hwithin : ∀ r, withinBase baseC r ≠ .error .notFound := by
    intro r
    unfold withinBase
    split <;> simp
  rcases exists_longest hbase hl with ⟨c, hc⟩ | ⟨front, s, rest, c, rfl, hc, hs⟩
  · rw [contained, hbase, hc]
    exact hwithin c
  · rw [contained_slow hbase hl hc hs]
    exact hwithin _

/-- **Below a base without links**, the path that comes out is the text of the base's
location and the names that follow. -/
theorem contained_eq {B : Loc} (hfree : t.LinkFree base) (hB : t.locate true base = .ok B)
    (hbound : t.entry B ≠ none) {l : List OsStr} (hl : ∀ s ∈ l, IsName s) :
    contained t base (l.foldl join base) = .ok (locText (B ++ l)) := by
  obtain ⟨e, he⟩ := Option.ne_none_iff_exists'.mp hbound
  have hbase : t.canonicalize base = .ok (locText B) := canonicalize_eq hB he
  have hbne : base ≠ [] := (locateSteps_ok hB).1
  have hBnames : ∀ s ∈ B, IsName s := isName_of_entry hbound
  have hall : ∀ s ∈ B ++ l, IsName s := by
    intro s hs
    rcases List.mem_append.mp hs with hs | hs
    · exact hBnames s hs
    · exact hl s hs
  have hwithin : withinBase (locText B) (locText (B ++ l)) = .ok (locText (B ++ l)) := by
    rw [withinBase, if_pos ((startsWith_locText hBnames hall).mpr (List.prefix_append B l))]
  -- without links the canonical text is the spelled one
  have hcanon : ∀ front canon, (∀ s ∈ front, IsName s) →
      t.canonicalize (front.foldl join base) = .ok canon → canon = locText (B ++ front) := by
    intro front canon hfront hc
    obtain ⟨L, -, hloc, -, rfl⟩ := canonicalize_ok hc
    rw [locate_spelled hfree hB hfront (spells_foldl base hfront) hloc]
  rcases exists_longest hbase hl with ⟨c, hc⟩ | ⟨front, s, rest, c, rfl, hc, hs⟩
  · rw [contained, hbase, hc, hcanon l c hl hc]
    exact hwithin
  · have hfront : ∀ x ∈ front, IsName x := fun x hx => hl x (List.mem_append_left _ hx)
    have hback : ∀ x ∈ s :: rest, IsName x := fun x hx => hl x (List.mem_append_right _ hx)
    have hleft : ∀ x ∈ B ++ front, IsName x := fun x hx => hall x (by
      rw [← List.append_assoc]
      exact List.mem_append_left _ hx)
    rw [contained_slow hbase hl hc hs, hcanon front c hfront hc,
      join_locText hleft (List.cons_ne_nil _ _) fun x hx => (hback x hx).isSegment,
      List.append_assoc, hwithin]

end Contained

/-! ## Virtual paths in one root -/

section OneRoot
variable {t : FileTree} {home virt : OsStr}

theorem target_ofRoot {parts : List String} (h : normalize virt = .ok parts) :
    (ScopeMap.ofRoot home).target virt = .ok (home, (parts.map ofString).foldl join home) := by
  rw [ScopeMap.target, h]
  simp [ScopeMap.ofRoot, joinAll_eq]

theorem isName_map_ofString {parts : List String} (h : normalize virt = .ok parts) :
    ∀ s ∈ parts.map ofString, IsName s := by
  intro s hs
  obtain ⟨n, hn, rfl⟩ := List.mem_map.mp hs
  exact isName_of_normalize h n hn

/-- **A home that is there is never reported missing.** -/
theorem resolve_ne_notFound {c : OsStr} (hhome : t.canonicalize home = .ok c) :
    (ScopeMap.ofRoot home).resolve t virt ≠ .error .notFound := by
  unfold ScopeMap.resolve
  cases hparts : normalize virt with
  | ok parts =>
      rw [target_ofRoot hparts]
      exact contained_ne_notFound hhome (isName_map_ofString hparts)
  | error e =>
      -- normalizing refuses for a `..` only
      have htraversal : ∀ cs, normalizeComponents cs ≠ .error .notFound ∧
          normalizeComponents cs ≠ .error .outsideScope := by
        intro cs
        induction cs with
        | nil => simp [normalizeComponents]
        | cons c cs ih =>
            cases c with
            | rootDir | curDir => exact ih
            | parentDir => simp [normalizeComponents]
            | normal s =>
                unfold normalizeComponents
                split
                · simp
                · rename_i e' he'
                  rw [he'] at ih
                  exact ih
      have htarget : (ScopeMap.ofRoot home).target virt = .error e := by
        rw [ScopeMap.target, hparts]
      rw [htarget]
      intro he
      rw [Except.error.inj he] at hparts
      exact (htraversal _).1 hparts

/-- **In a home without links** a virtual path resolves to the text of the home's
location and its names. -/
theorem resolve_ok (hfree : t.LinkFree home) {r : OsStr}
    (h : (ScopeMap.ofRoot home).resolve t virt = .ok r) :
    ∃ B parts, t.locate true home = .ok B ∧ t.entry B ≠ none ∧ normalize virt = .ok parts ∧
      r = locText (B ++ parts.map ofString) := by
  unfold ScopeMap.resolve at h
  cases hparts : normalize virt with
  | error e =>
      rw [ScopeMap.target, hparts] at h
      cases h
  | ok parts =>
      rw [target_ofRoot hparts] at h
      simp only at h
      cases hbase : t.canonicalize home with
      | error e =>
          rw [contained, hbase] at h
          cases h
      | ok c =>
          obtain ⟨B, e, hB, he, -⟩ := canonicalize_ok hbase
          have hbound : t.entry B ≠ none := by simp [he]
          rw [contained_eq hfree hB hbound (isName_map_ofString hparts)] at h
          exact ⟨B, parts, hB, hbound, rfl, (Except.ok.inj h).symm⟩

end OneRoot

end Reoftpd

import Reoftpd.JailWrites
import Reoftpd.ReadJail
import Reoftpd.StoredClips

/-!
# What a virtual path resolves to

Below a base directory without links, `resolve` has one answer whether it canonicalizes the
whole path or climbs to the longest part of it that is there: the canonical base and the
names that follow.  So the answer stays when a `put` or `mkd` makes what the path names, two
lists of names have two answers, and the climb comes to an end in the base
(`resolve_exact`).
-/
namespace Reoftpd
open UnixPath FileTree

/-- The climb from a candidate: the ancestors that are not there, each with a file name,
and the first that is, which starts with the base. -/
structure ClimbStops (t : FileTree) (base candidate : OsStr) (skipped above : List OsStr)
    (stop : OsStr) : Prop where
  split : ancestors candidate = skipped ++ stop :: above
  missing : ∀ a ∈ skipped, (∀ c, t.canonicalize a ≠ .ok c) ∧ fileName a ≠ none
  there : ∃ c, t.canonicalize stop = .ok c
  inBase : startsWith stop base = true

/-- **The answer** for a virtual path that names `names` in the base at `B`. -/
structure ResolvedIn (t : FileTree) (user : ReoUser) (virt base : OsStr) (B : Loc)
    (names : List OsStr) : Prop where
  /-- The path resolves to the canonical base and the names, -/
  resolves : (userView user).resolve t virt = .ok (locText (B ++ names))
  canonical : t.canonicalize base = .ok (locText B)
  /-- before and after any request of a camera at home in the base or of a viewer, -/
  stable : ∀ (age : Age) (backend : ReoBackend age) (req : Request age),
    (∀ home, req.user.role = .uploader home → ∃ H, t.aim home = .ok H ∧ B <+: H) →
      (userView user).resolve (afterRequest backend t req) virt = .ok (locText (B ++ names))
  /-- no other names in the base resolve to the same path, -/
  distinct : ∀ virt' names', JailPath user virt' base names' →
    (userView user).resolve t virt' = .ok (locText (B ++ names)) → names' = names
  /-- and the climb, if it is made, ends in the base and not in the `NotFound` arms. -/
  stops : ∃ skipped above stop, ClimbStops t base (names.foldl join base) skipped above stop
  found : climb t (locText B) (ancestors (names.foldl join base)) [] ≠ .error .notFound

section Resolve
variable {t t' : FileTree} {user : ReoUser} {virt base baseC a : OsStr} {B : Loc}
  {names front mid : List OsStr}

/-- A `..` anywhere in a virtual path is refused. -/
theorem normalize_dotdot (h : Component.parentDir ∈ components virt) :
    normalize virt = .error .traversal := by
  unfold normalize
  generalize components virt = cs at h
  induction cs with
  | nil => cases h
  | cons c cs ih =>
      cases c with
      | parentDir => rfl
      | rootDir | curDir => exact ih (by simpa using h)
      | normal s => rw [normalizeComponents, ih (by simpa using h)]

/-! ## The climb -/

/-- The climb from a path that goes on with `front ++ mid` stops at the one that goes on with
`front`, if nothing after it is there. -/
theorem climb_stops (hB : ∃ B, t.locate true base = .ok B) (hl : ∀ s ∈ front ++ mid, IsName s)
    (hfront : ∃ c, t.canonicalize (front.foldl join base) = .ok c)
    (hmid : ∀ q x, q ++ [x] <+: mid → ∀ c,
      t.canonicalize ((front ++ (q ++ [x])).foldl join base) ≠ .ok c)
    (ha : a = (front ++ mid).foldl join base ∨
      a = render (components ((front ++ mid).foldl join base))) :
    ∃ skipped above stop, a :: properAncestors (components a).reverse = skipped ++ stop :: above ∧
      (∀ q ∈ skipped, (∀ c, t.canonicalize q ≠ .ok c) ∧ fileName q ≠ none) ∧
      (∃ c, t.canonicalize stop = .ok c) ∧
      components stop = components (front.foldl join base) := by
  induction mid using List.reverseRecOn generalizing a with
  | nil =>
      rw [List.append_nil] at ha
      obtain ⟨c, hc⟩ := hfront
      rcases ha with rfl | rfl
      · exact ⟨[], _, _, rfl, by simp, ⟨c, hc⟩, rfl⟩
      · exact ⟨[], _, _, rfl, by simp, ⟨c, canonicalize_render hc⟩, components_render _⟩
  | append_singleton mid s ih =>
      -- the longest path is not there: it is skipped, and the climb goes on above it
      have hlong := hmid mid s List.prefix_rfl
      rw [← List.append_assoc] at ha hl hlong
      obtain ⟨hname, habove⟩ := ancestor_concat (hl s (by simp)) ha
      obtain ⟨skipped, above, stop, hsplit, hmissing, hthere, hstop⟩ :=
        ih (fun x hx => hl x (List.mem_append_left [s] hx))
          (fun q x hqx => hmid q x (hqx.trans (List.prefix_append mid [s]))) (Or.inr rfl)
      refine ⟨a :: skipped, above, stop, ?_, List.forall_mem_cons.mpr ⟨⟨?_, ?_⟩, hmissing⟩, hthere,
        hstop⟩
      · rw [habove, hsplit]
        rfl
      · exact not_canonical hB hl (by simp) hlong ha
      · rw [hname]
        simp

/-- The components of a path that goes on with names start with those of its base. -/
theorem startsWith_foldl (base : OsStr) {l : List OsStr} (h : ∀ s ∈ l, IsName s) :
    startsWith (l.foldl join base) base = true := by
  rw [startsWith, List.isPrefixOf_iff_prefix]
  induction l using List.reverseRecOn with
  | nil => exact List.prefix_rfl
  | append_singleton l s ih =>
      rw [List.foldl_append, List.foldl_cons, List.foldl_nil, components_join (h s (by simp))]
      exact (ih fun x hx => h x (List.mem_append_left [s] hx)).trans (List.prefix_append _ _)

/-- **The climb ends in the base**, whatever lies below it. -/
theorem exists_climbStops (hbase : t.canonicalize base = .ok baseC)
    (hl : ∀ s ∈ names, IsName s) :
    ∃ skipped above stop, ClimbStops t base (names.foldl join base) skipped above stop := by
  obtain ⟨B, -, hB, -⟩ := canonicalize_ok hbase
  have hstops : ∀ front mid, names = front ++ mid →
      (∃ c, t.canonicalize (front.foldl join base) = .ok c) →
      (∀ q x, q ++ [x] <+: mid → ∀ c,
        t.canonicalize ((front ++ (q ++ [x])).foldl join base) ≠ .ok c) →
      ∃ skipped above stop, ClimbStops t base (names.foldl join base) skipped above stop := by
    rintro front mid rfl hfront hmid
    obtain ⟨skipped, above, stop, hsplit, hmissing, hthere, hstop⟩ :=
      climb_stops ⟨B, hB⟩ hl hfront hmid (Or.inl rfl)
    refine ⟨skipped, above, stop, hsplit, hmissing, hthere, ?_⟩
    rw [startsWith, hstop]
    exact startsWith_foldl base fun x hx => hl x (List.mem_append_left mid hx)
  rcases exists_longest hbase hl with hc | ⟨front, s, rest, c, rfl, hc, hs⟩
  · refine hstops names [] (List.append_nil _).symm hc fun q x hqx => ?_
    exact absurd (List.prefix_nil.mp hqx) (by simp)
  · exact hstops front (s :: rest) rfl ⟨c, hc⟩ (not_there_after hbase hl hs)

/-- A climb that stops does not come to the end of the loop. -/
theorem climb_found {candidate stop tail : OsStr} {skipped above : List OsStr}
    (h : ClimbStops t base candidate skipped above stop) :
    climb t baseC (ancestors candidate) tail ≠ .error .notFound := by
  obtain ⟨hsplit, hmissing, ⟨c, hc⟩, -⟩ := h
  rw [hsplit]
  clear hsplit
  induction skipped generalizing tail with
  | nil =>
      rw [List.nil_append, climb, hc]
      simp only
      unfold withinBase
      split <;> simp
  | cons q skipped ih =>
      obtain ⟨⟨hq, hname⟩, hrest⟩ := List.forall_mem_cons.mp hmissing
      obtain ⟨s, hs⟩ := Option.ne_none_iff_exists'.mp hname
      cases hcq : t.canonicalize q with
      | ok c' => exact absurd hcq (hq c')
      | error e =>
          rw [List.cons_append, climb, hcq, hs]
          exact ih hrest

/-! ## The answer -/

theorem resolve_eq_locText (hjail : JailPath user virt base names) (hfree : t.LinkFree base)
    (hB : t.locate true base = .ok B) (hdir : t.entry B = some .dir) :
    (userView user).resolve t virt = .ok (locText (B ++ names)) := by
  rw [hjail.resolve_eq]
  exact contained_eq hfree hB (by simp [hdir]) hjail.isName

/-- **Fast and slow resolution agree.**  In a base directory with no link at or below it, a
virtual path with a `..` is refused, and any other resolves to the canonical base and its
names. -/
theorem resolve_exact (hfree : t.LinkFree base) (hB : t.locate true base = .ok B)
    (hdir : t.entry B = some .dir) (user : ReoUser) (virt : OsStr) :
    (Component.parentDir ∈ components virt →
      (userView user).resolve t virt = .error .traversal) ∧
    (Component.parentDir ∉ components virt → ∃ parts, normalize virt = .ok parts) ∧
    ∀ names, JailPath user virt base names → ResolvedIn t user virt base B names := by
  refine ⟨fun hdotdot => ?_, normalize_ok_of_no_dotdot, fun names hjail => ?_⟩
  · rw [ScopeMap.resolve, ScopeMap.target, normalize_dotdot hdotdot]
  · have hbase : t.canonicalize base = .ok (locText B) := canonicalize_eq hB hdir
    have hstops := exists_climbStops hbase hjail.isName
    refine ⟨resolve_eq_locText hjail hfree hB hdir, hbase, ?_, ?_, hstops, ?_⟩
    · intro age backend req hhome
      have hg : Grows t (afterRequest backend t req) := by
        refine grows_afterRequest fun home hrole => ?_
        obtain ⟨H, hH, hBH⟩ := hhome home hrole
        intro H' hH' L hL
        obtain rfl : H = H' := Except.ok.inj (hH.symm.trans hH')
        exact hfree B (aim_of_locate hB) L (hBH.trans hL)
      exact resolve_eq_locText hjail (hfree.of_sameLinks hg.toSameLinks) (hg.locate hB)
        (hg.dir B hdir)
    · intro virt' names' hjail' hres
      have hBnames : ∀ s ∈ B, IsName s := isName_of_entry (show t.entry B ≠ none by simp [hdir])
      rw [resolve_eq_locText hjail' hfree hB hdir] at hres
      have hsame := locText_injective (List.forall_mem_append.mpr ⟨hBnames, hjail'.isName⟩)
        (List.forall_mem_append.mpr ⟨hBnames, hjail.isName⟩) (Except.ok.inj hres)
      exact List.append_cancel_left hsame
    · obtain ⟨skipped, above, stop, hstop⟩ := hstops
      exact climb_found hstop

end Resolve

/-- A path in a home that is there, of a file that is not. -/
theorem resolve_oneHome :
    let camera : ReoUser := ⟨"c", .uploader (ofString "/c"), false⟩
    (Component.parentDir ∈ components (ofString "d/x") →
      (userView camera).resolve oneHome (ofString "d/x") = .error .traversal) ∧
    (Component.parentDir ∉ components (ofString "d/x") →
      ∃ parts, normalize (ofString "d/x") = .ok parts) ∧
    ∀ names, JailPath camera (ofString "d/x") (ofString "/c") names →
      ResolvedIn oneHome camera (ofString "d/x") (ofString "/c") [ofString "c"] names :=
  resolve_exact (linkFree_of_no_links no_links_oneHome _) (by decide +kernel)
    (by decide +kernel) _ _

end Reoftpd

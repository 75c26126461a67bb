import Reoftpd.ReadJail

/-!
# Links that lead nowhere yet

`contained` puts the names that do not canonicalize back on as if nothing were there.  A
symbolic link does not canonicalize either while its target is missing, and once somebody
makes the target, the path that came out leads through the link.

**A resolved path leads into its base**, every link on it followed whether its target is
there or not, exactly when the first name that does not canonicalize is no link that leads
elsewhere (`contained_followed_iff`).
-/
namespace Reoftpd
open UnixPath FileTree

/-- Where the segments lead from `here`, every link followed and every other name taken for
a directory that is there. -/
def FollowedFrom (t : FileTree) (here : Loc) (l : List OsStr) (L : Loc) : Prop :=
  ∃ n, walk t.asDirs true n here l = .ok L

/-- Where a path leads, every link followed whether or not its target is there. -/
def Followed (t : FileTree) (p : OsStr) (L : Loc) : Prop :=
  FollowedFrom t (if isAbsolute p then [] else t.cwd) (steps p) L

/-- Following them comes to an end, at or under `B`. -/
def EndsInside (B : Loc) (follows : Loc → Prop) : Prop := ∃ L, follows L ∧ B <+: L

/-- After `front`, which leads to `C`, the name `s` is a link that does not canonicalize, and
what is left seems to lie inside. -/
structure BrokenAt (t : FileTree) (base : OsStr) (front : List OsStr) (s : OsStr)
    (rest : List OsStr) (B C : Loc) (target : OsStr) (b c : Entry OsStr) : Prop where
  base_leads : t.find true base = .ok (B, b)
  front_leads : t.find true (front.foldl join base) = .ok (C, c)
  broken : ∀ r, t.find true ((front ++ [s]).foldl join base) ≠ .ok r
  link : t.entry (C ++ [s]) = some (.link target)
  seems_inside : B <+: C ++ s :: rest

section Followed
variable {t : FileTree} {base p s target : OsStr} {here B C L L' : Loc}
  {l r names front rest : List OsStr} {b c : Entry OsStr}

/-! ## Following -/

/-- Following comes to one end. -/
theorem FollowedFrom.unique (h : FollowedFrom t here l L) (h' : FollowedFrom t here l L') :
    L = L' := by
  have hmore : ∀ {n m L}, n ≤ m → walk t.asDirs true n here l = .ok L →
      walk t.asDirs true m here l = .ok L := by
    intro n m L hnm hL
    rcases walk_more hnm here l with hloop | hsame
    · rw [hL] at hloop
      cases hloop
    · exact hsame.trans hL
  obtain ⟨n, hn⟩ := h
  obtain ⟨m, hm⟩ := h'
  rcases Nat.le_total n m with hnm | hmn
  · exact Except.ok.inj ((hmore hnm hn).symm.trans hm)
  · exact Except.ok.inj (hn.symm.trans (hmore hmn hm))

/-- Names that are no links are gone down. -/
theorem walk_asDirs {n : Nat} (hl : ∀ x ∈ l, IsName x)
    (hlinks : ∀ q, q <+: l → q ≠ [] → ∀ target, t.entry (here ++ q) ≠ some (.link target)) :
    walk t.asDirs true n here (l ++ r) = walk t.asDirs true n (here ++ l) r := by
  induction l generalizing here with
  | nil => rw [List.nil_append, List.append_nil]
  | cons a l ih =>
      obtain ⟨ha, hl⟩ := List.forall_mem_cons.mp hl
      have hdir : t.asDirs (here ++ [a]) = some .dir := by
        unfold asDirs
        split
        · rename_i target hlink
          exact absurd hlink (hlinks [a] ⟨l, rfl⟩ (by simp) target)
        · rfl
      have hrest : ∀ q, q <+: l → q ≠ [] → ∀ target,
          t.entry (here ++ [a] ++ q) ≠ some (.link target) := by
        intro q hq _ target
        rw [List.append_assoc]
        exact hlinks (a :: q) (List.cons_prefix_cons.mpr ⟨rfl, hq⟩) (List.cons_ne_nil a q) target
      rw [List.cons_append, walk_dir ha.2.2.1 ha.2.2.2 hdir, ih hl hrest, List.append_assoc]
      rfl

/-- A link is followed. -/
theorem followedFrom_link (hs : IsName s) (hlink : t.entry (C ++ [s]) = some (.link target)) :
    FollowedFrom t C (s :: rest) L ↔
      FollowedFrom t (linkStart target C) (steps target ++ rest) L := by
  have hlook : t.asDirs (C ++ [s]) = some (.link target) := asDirs_link.mpr hlink
  constructor
  · rintro ⟨n, hn⟩
    cases n with
    | zero =>
        rw [walk_cons hs.2.2.1 hs.2.2.2, hlook] at hn
        simp [followLink] at hn
    | succ n =>
        rw [walk_link hs.2.2.1 hs.2.2.2 hlook (by simp)] at hn
        exact ⟨n, hn⟩
  · rintro ⟨n, hn⟩
    exact ⟨n + 1, by rw [walk_link hs.2.2.1 hs.2.2.2 hlook (by simp), hn]⟩

/-- The text of a location is followed from the root. -/
theorem followed_locText (hL : ∀ x ∈ C, IsName x) :
    Followed t (locText C) L ↔ FollowedFrom t [] C L := by
  rw [Followed, if_pos (isAbsolute_locText C)]
  cases C using List.reverseRecOn with
  | nil =>
      have hsteps : steps (locText []) = [dot] := rfl
      simp only [FollowedFrom, hsteps, walk_dot]
  | append_singleton C a =>
      have hend : endsWithSep (locText (C ++ [a])) = false :=
        endsWithSep_locText (by simp) fun x hx => (hL x hx).isSegment
      rw [steps, hend, if_neg (by simp), segments_locText hL]

/-- A bound location that is no link is gone down to. -/
theorem followedFrom_bound (hbound : t.entry C ≠ none)
    (hlink : ∀ target, t.entry C ≠ some (.link target)) :
    FollowedFrom t [] (C ++ r) L ↔ FollowedFrom t C r L := by
  have hdown : ∀ n, walk t.asDirs true n [] (C ++ r) = walk t.asDirs true n C r := by
    intro n
    have hgo : walk t.asDirs true n [] (C ++ r) = walk t.asDirs true n ([] ++ C) r := by
      refine walk_asDirs (isName_of_entry hbound) fun q hq _ target hl => ?_
      by_cases hqC : q = C
      · exact hlink target (hqC ▸ hl)
      · rw [List.nil_append, dir_above hq hqC hbound] at hl
        cases hl
    exact hgo
  simp only [FollowedFrom, hdown]

/-- Names that nothing is bound to are gone down. -/
theorem followedFrom_missing (hl : ∀ x ∈ s :: rest, IsName x) (hnone : t.entry (C ++ [s]) = none) :
    FollowedFrom t C (s :: rest) L ↔ L = C ++ s :: rest := by
  have hlinks : ∀ q, q <+: s :: rest → q ≠ [] → ∀ target,
      t.entry (C ++ q) ≠ some (.link target) := by
    intro q hq hne target hlink
    cases q with
    | nil => exact hne rfl
    | cons x q =>
        obtain ⟨rfl, -⟩ := List.cons_prefix_cons.mp hq
        by_cases hnil : q = []
        · rw [hnil, hnone] at hlink
          cases hlink
        · have habove : t.entry (C ++ [x]) = some .dir :=
            dir_above (show C ++ [x] <+: C ++ x :: q from ⟨q, by simp⟩)
              (fun he => hnil (by simpa using he)) (by simp [hlink])
          rw [hnone] at habove
          cases habove
  have hdown : ∀ n, walk t.asDirs true n C (s :: rest) = .ok (C ++ s :: rest) := by
    intro n
    have hall := walk_asDirs (n := n) (r := []) hl hlinks
    rw [List.append_nil, walk_nil] at hall
    exact hall
  simp only [FollowedFrom, hdown, Except.ok.injEq, exists_const]
  exact eq_comm

/-! ## What `contained` returns, followed -/

/-- **A resolved path**, followed: it ends inside, or it goes on through a link that does not
canonicalize. -/
theorem contained_followed (hl : ∀ x ∈ names, IsName x)
    (hres : contained t base (names.foldl join base) = .ok p) :
    ∃ B b, t.find true base = .ok (B, b) ∧
      (EndsInside B (Followed t p) ∨ ∃ front s rest C target c, names = front ++ s :: rest ∧
        BrokenAt t base front s rest B C target b c ∧
        ∀ L, Followed t p L ↔ FollowedFrom t (linkStart target C) (steps target ++ rest) L) := by
  obtain ⟨B, b, front, rest, C, c, hbase, rfl, hfront, rfl, hall, hin, hfail⟩ :=
    contained_ok hl hres
  obtain ⟨hC, hc⟩ := find_ok.mp hfront
  have hbound : t.entry C ≠ none := by simp [hc]
  refine ⟨B, b, hbase, ?_⟩
  have hfollow : ∀ L, Followed t (locText (C ++ rest)) L ↔ FollowedFrom t C rest L := fun L =>
    (followed_locText hall).trans (followedFrom_bound hbound (not_link_of_locate hC))
  cases rest with
  | nil =>
      -- the whole path is there
      rw [List.append_nil] at hin
      exact Or.inl ⟨C, (hfollow C).mpr ⟨0, walk_nil⟩, hin⟩
  | cons s rest =>
      have hback : ∀ x ∈ s :: rest, IsName x := fun x hx => hl x (List.mem_append_right front hx)
      have hname : IsName s := hback s (List.mem_cons_self ..)
      cases he : t.entry (C ++ [s]) with
      | none =>
          -- nothing is there, so nothing is below
          exact Or.inl ⟨_, (hfollow _).mpr ((followedFrom_missing hback he).mpr rfl), hin⟩
      | some e =>
          obtain ⟨target, rfl⟩ : ∃ target, e = .link target := by
            by_contra hno
            have hdir : t.entry C = some .dir := t.rooted.parent C s (by simp [he])
            refine hfail s rest rfl (C ++ [s], e) (find_ok.mpr ⟨?_, he⟩)
            rw [List.foldl_append, List.foldl_cons, List.foldl_nil]
            exact locate_join hC hdir he (Or.inr fun target hl => hno ⟨target, hl⟩)
          refine Or.inr ⟨front, s, rest, C, target, c, rfl,
            ⟨hbase, hfront, hfail s rest rfl, he, hin⟩, fun L => ?_⟩
          exact (hfollow L).trans (followedFrom_link hname he)

/-- A link that does not canonicalize resolves, and is then followed. -/
theorem BrokenAt.resolves (hl : ∀ x ∈ front ++ s :: rest, IsName x)
    (h : BrokenAt t base front s rest B C target b c) :
    ∃ p, contained t base ((front ++ s :: rest).foldl join base) = .ok p ∧
      ∀ L, Followed t p L ↔ FollowedFrom t (linkStart target C) (steps target ++ rest) L := by
  obtain ⟨hC, hc⟩ := find_ok.mp h.front_leads
  have hbound : t.entry C ≠ none := by simp [hc]
  have hback : ∀ x ∈ s :: rest, IsName x := fun x hx => hl x (List.mem_append_right front hx)
  have hall : ∀ x ∈ C ++ s :: rest, IsName x :=
    List.forall_mem_append.mpr ⟨isName_of_entry hbound, hback⟩
  refine ⟨locText (C ++ s :: rest),
    contained_eq_locText hl h.base_leads h.front_leads h.broken h.seems_inside, fun L => ?_⟩
  exact ((followed_locText hall).trans (followedFrom_bound hbound (not_link_of_locate hC))).trans
    (followedFrom_link (hback s (List.mem_cons_self ..)) h.link)

/-- **What `contained` returns leads into the base**, every link on it followed whether or
not its target is there, if and only if the link at the first name that does not
canonicalize, if there is one, leads into it with the names that are left. -/
theorem contained_followed_iff (hl : ∀ x ∈ names, IsName x) :
    (∀ p, contained t base (names.foldl join base) = .ok p →
      ∃ B b, t.find true base = .ok (B, b) ∧ EndsInside B (Followed t p)) ↔
    ∀ front s rest B C target b c, names = front ++ s :: rest →
      BrokenAt t base front s rest B C target b c →
      EndsInside B (FollowedFrom t (linkStart target C) (steps target ++ rest)) := by
  constructor
  · rintro hinside front s rest B C target b c rfl hbroken
    obtain ⟨p, hres, hfollow⟩ := hbroken.resolves hl
    obtain ⟨B', b', hB, L, hL, hBL⟩ := hinside p hres
    obtain ⟨rfl, -⟩ := Prod.mk.inj (Except.ok.inj (hbroken.base_leads.symm.trans hB))
    exact ⟨L, (hfollow L).mp hL, hBL⟩
  · intro hlinks p hres
    obtain ⟨B, b, hB, hin | ⟨front, s, rest, C, target, c, hnames, hbroken, hfollow⟩⟩ :=
      contained_followed hl hres
    · exact ⟨B, b, hB, hin⟩
    · obtain ⟨L, hL, hBL⟩ := hlinks front s rest B C target b c hnames hbroken
      exact ⟨B, b, hB, L, (hfollow L).mpr hL, hBL⟩

end Followed

/-! ## A home with a link to nowhere -/

/-- The home `/c` with a link `e` to `/out/f`, which is not there. -/
def brokenHome : FileTree :=
  (FileTree.bare.mkdirAt [ofString "c"]).symlinkAt [ofString "c", ofString "e"] (ofString "/out/f")

/-- The name of the link. -/
theorem brokenHome_contained : (∀ p, contained brokenHome (ofString "/c")
      ([ofString "e"].foldl join (ofString "/c")) = .ok p →
      ∃ B b, brokenHome.find true (ofString "/c") = .ok (B, b) ∧
        EndsInside B (Followed brokenHome p)) ↔
    ∀ front s rest B C target b c, [ofString "e"] = front ++ s :: rest →
      BrokenAt brokenHome (ofString "/c") front s rest B C target b c →
      EndsInside B (FollowedFrom brokenHome (linkStart target C) (steps target ++ rest)) :=
  contained_followed_iff (by decide)

/-- **A resolved path leads out of the base** through a link whose target is missing. -/
theorem contained_leads_out :
    contained brokenHome (ofString "/c") (ofString "/c/e") = .ok (ofString "/c/e") ∧
      brokenHome.find true (ofString "/c") = .ok ([ofString "c"], .dir) ∧
      Followed brokenHome (ofString "/c/e") [ofString "out", ofString "f"] ∧
      ¬ EndsInside [ofString "c"] (Followed brokenHome (ofString "/c/e")) := by
  have hends : Followed brokenHome (ofString "/c/e") [ofString "out", ofString "f"] :=
    ⟨1, by decide +kernel⟩
  refine ⟨by decide +kernel, by decide +kernel, hends, ?_⟩
  rintro ⟨L, hL, hin⟩
  obtain rfl := hL.unique hends
  exact absurd hin (by decide)

end Reoftpd

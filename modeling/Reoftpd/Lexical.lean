import Reoftpd.PathText

/-!
# Lexical normalization

The normal form of a path text: how it starts, how many `..` are left at its front, and
the names after them.  A `.` goes away, a `..` takes the name before it away, and an
absolute component starts over.  Nothing is looked up, so a symbolic link is a name
like any other.

`lex_join` says what joining a relative path does to the normal form of the base: the
`..` left at its front take away that many of the base's last names, and its names
follow (`LexPath.descend`).
-/
namespace UnixPath

/-- A lexical normal form.  An absolute path has nothing above its root, so `ups` is
only ever counted for relative ones. -/
structure LexPath where
  absolute : Bool
  ups : Nat
  names : List OsStr
  deriving DecidableEq

namespace LexPath

/-- The root. -/
def root : LexPath := ⟨true, 0, []⟩

/-- The working directory. -/
def here : LexPath := ⟨false, 0, []⟩

/-- One name further down. -/
def push (p : LexPath) (s : OsStr) : LexPath := { p with names := p.names ++ [s] }

/-- One level up; the root is its own parent. -/
def up (p : LexPath) : LexPath :=
  if p.names = [] then (if p.absolute then p else { p with ups := p.ups + 1 })
  else { p with names := p.names.dropLast }

/-- One segment further. -/
def follow (p : LexPath) (s : OsStr) : LexPath :=
  if s = dot then p else if s = dotdot then p.up else p.push s

/-- One component further. -/
def step (p : LexPath) : Component → LexPath
  | .rootDir => root
  | .curDir => p
  | .parentDir => p.up
  | .normal s => p.push s

/-- `u` levels up, then down the names `d`. -/
def descend (p : LexPath) (u : Nat) (d : List OsStr) : LexPath :=
  if u ≤ p.names.length then { p with names := p.names.take (p.names.length - u) ++ d }
  else if p.absolute then { p with names := d }
  else { p with ups := p.ups + (u - p.names.length), names := d }

/-- `p` is `q` or lies inside it. -/
def Inside (p q : LexPath) : Prop :=
  p.absolute = q.absolute ∧ p.ups = q.ups ∧ q.names <+: p.names

/-- `p` is a strict descendant of `q`. -/
def StrictlyInside (p q : LexPath) : Prop := p.Inside q ∧ p.names ≠ q.names

instance (p q : LexPath) : Decidable (p.Inside q) := inferInstanceAs (Decidable (_ ∧ _ ∧ _))

instance (p q : LexPath) : Decidable (p.StrictlyInside q) := inferInstanceAs (Decidable (_ ∧ _))

end LexPath

/-- The normal form of a text that starts at `p`. -/
def lexFrom (p : LexPath) (t : OsStr) : LexPath := (components t).foldl LexPath.step p

/-- The normal form of a path text. -/
def lex (t : OsStr) : LexPath := lexFrom .here t

/-! ## Segments -/

theorem step_classify (p : LexPath) {s : OsStr} (h : s ≠ dot) :
    p.step (classify s) = p.follow s := by
  unfold classify LexPath.follow
  rw [if_neg h]
  split <;> rfl

/-- Segments that are `.` can be left out. -/
theorem foldl_follow_filter (l : List OsStr) (p : LexPath) :
    ((l.filter (· ≠ dot)).map classify).foldl LexPath.step p = l.foldl LexPath.follow p := by
  induction l generalizing p with
  | nil => rfl
  | cons s l ih =>
      by_cases h : s = dot
      · rw [List.filter_cons_of_neg (by simp [h]), List.foldl_cons, ih]
        simp [LexPath.follow, h]
      · rw [List.filter_cons_of_pos (by simp [h]), List.map_cons, List.foldl_cons, ih,
          step_classify p h, List.foldl_cons]

/-- The normal form by segments. -/
theorem lexFrom_eq (p : LexPath) (t : OsStr) :
    lexFrom p t = (segments t).foldl LexPath.follow (if isAbsolute t then .root else p) := by
  unfold lexFrom components
  split
  · rw [List.foldl_cons]
    exact foldl_follow_filter ..
  · cases hs : segments t with
    | nil => rfl
    | cons s rest =>
        simp only [List.foldl_cons]
        rw [foldl_follow_filter]
        refine congrArg (fun q => rest.foldl LexPath.follow q) ?_
        split
        · rename_i h
          simp [LexPath.follow, LexPath.step, h]
        · rename_i h
          exact step_classify p h

/-- A relative path continues from the normal form of its base. -/
theorem lex_join_relative {base p : OsStr} (hp : isAbsolute p = false) :
    lex (join base p) = lexFrom (lex base) p := by
  simp only [lex, lexFrom_eq, segments_join hp, isAbsolute_join hp, List.foldl_append, hp,
    Bool.false_eq_true, if_false]

/-! ## Going up and down -/

namespace LexPath
variable {p : LexPath} {u : Nat} {d : List OsStr}

theorem descend_zero_nil (p : LexPath) : p.descend 0 [] = p := by
  simp [descend]

theorem push_descend (p : LexPath) (u : Nat) (d : List OsStr) (s : OsStr) :
    (p.descend u d).push s = p.descend u (d ++ [s]) := by
  unfold descend push
  split
  · simp
  · split <;> rfl

theorem up_descend_nil (p : LexPath) (u : Nat) : (p.descend u []).up = p.descend (u + 1) [] := by
  unfold descend up
  -- one more step up leaves a name, the anchor itself, or another `..`
  rcases lt_trichotomy u p.names.length with h | h | h
  · have hne : p.names.take (p.names.length - u) ≠ [] := by
      rw [ne_eq, List.take_eq_nil_iff]
      rintro (h0 | h0)
      · omega
      · rw [h0] at h
        simp at h
    simp only [h.le, Nat.succ_le_of_lt h, if_true, List.append_nil, hne, if_false]
    rw [List.dropLast_eq_take, List.length_take, List.take_take]
    congr 2
    omega
  · subst h
    simp only [le_refl, if_true, Nat.sub_self, List.take_zero, List.append_nil,
      Nat.not_succ_le_self, if_false]
    split
    · rfl
    · simp
  · have h1 : ¬ u ≤ p.names.length := by omega
    have h2 : ¬ u + 1 ≤ p.names.length := by omega
    simp only [h1, h2, if_false]
    cases p.absolute with
    | true => simp
    | false =>
        simp only [Bool.false_eq_true, if_false, if_true]
        congr 1
        omega

theorem up_descend_ne_nil (p : LexPath) (u : Nat) (hd : d ≠ []) :
    (p.descend u d).up = p.descend u d.dropLast := by
  unfold descend up
  split
  · rw [if_neg (by simp [hd])]
    simp [List.dropLast_append_of_ne_nil hd]
  · split <;> rfl

theorem absolute_follow (p : LexPath) (s : OsStr) : (p.follow s).absolute = p.absolute := by
  unfold follow up push
  split
  · rfl
  · split
    · split
      · split <;> rfl
      · rfl
    · rfl

theorem ups_follow {p : LexPath} (h : p.absolute = true) (s : OsStr) :
    (p.follow s).ups = p.ups := by
  unfold follow up push
  split
  · rfl
  · split
    · split <;> rfl
    · rfl

/-- One segment more. -/
theorem follow_descend (p : LexPath) {q : LexPath} (hq : q.absolute = false) (s : OsStr) :
    (p.descend q.ups q.names).follow s = p.descend (q.follow s).ups (q.follow s).names := by
  unfold follow
  split
  · rfl
  · split
    · by_cases hd : q.names = []
      · rw [hd, up_descend_nil]
        simp [up, hd, hq]
      · rw [up_descend_ne_nil p _ hd]
        simp [up, hd]
    · exact push_descend ..

/-- The normal form of a relative path moves its base up and down. -/
theorem foldl_follow_here (l : List OsStr) :
    (l.foldl follow here).absolute = false ∧
      ∀ p : LexPath, l.foldl follow p =
        p.descend (l.foldl follow here).ups (l.foldl follow here).names := by
  induction l using List.reverseRecOn with
  | nil => exact ⟨rfl, fun p => (descend_zero_nil p).symm⟩
  | append_singleton l s ih =>
      obtain ⟨habs, hmove⟩ := ih
      rw [List.foldl_append, List.foldl_cons, List.foldl_nil]
      refine ⟨(absolute_follow _ s).trans habs, fun p => ?_⟩
      rw [List.foldl_append, List.foldl_cons, List.foldl_nil, hmove p]
      exact follow_descend p habs s

end LexPath

theorem lex_relative {t : OsStr} (h : isAbsolute t = false) : (lex t).absolute = false := by
  simp only [lex, lexFrom_eq, h, Bool.false_eq_true, if_false]
  exact (LexPath.foldl_follow_here _).1

/-- **Joining a relative path** takes away as many of the base's last names as it has
`..` left at its front, and adds its names. -/
theorem lex_join {base p : OsStr} (hp : isAbsolute p = false) :
    lex (join base p) = (lex base).descend (lex p).ups (lex p).names := by
  have hlex : lex p = (segments p).foldl LexPath.follow .here := by
    simp only [lex, lexFrom_eq, hp, Bool.false_eq_true, if_false]
  rw [lex_join_relative hp, lexFrom_eq, hlex, if_neg (by simp [hp])]
  exact (LexPath.foldl_follow_here _).2 _

/-- An absolute path has nothing above it. -/
theorem lex_absolute {t : OsStr} (h : isAbsolute t = true) :
    (lex t).absolute = true ∧ (lex t).ups = 0 := by
  simp only [lex, lexFrom_eq, h, if_true]
  have hroot : LexPath.root.absolute = true ∧ LexPath.root.ups = 0 := ⟨rfl, rfl⟩
  generalize LexPath.root = p at hroot
  induction segments t generalizing p with
  | nil => exact hroot
  | cons s l ih =>
      exact ih _ ⟨(LexPath.absolute_follow p s).trans hroot.1,
        (LexPath.ups_follow hroot.1 s).trans hroot.2⟩

end UnixPath

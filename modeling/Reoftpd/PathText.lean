import Mathlib.Data.List.Basic
import Mathlib.Data.List.Infix

/-!
# Unix path texts

A path is a text of OS characters, and everything the standard library does with
paths is a function of that text: `components` splits it, `join` extends it,
`fileName` and `parent` look at its last component, `startsWith` compares
component-wise.  Nothing here looks at a file system.

An OS string is bytes that need not be well-formed UTF-8.  `OsStr` keeps it as the
characters it decodes to, each maximal ill-formed stretch of bytes being one
`OsChar.ill`; the lossy conversion replaces those and nothing else.
-/

/-- A character of an OS string, or one maximal ill-formed sequence of bytes. -/
inductive OsChar where
  | chr (c : Char)
  | ill (bytes : List UInt8)
  deriving DecidableEq

/-- The character, if it is one. -/
def OsChar.char? : OsChar → Option Char
  | chr c => some c
  | ill _ => none

/-- The character that stands for it in a lossy conversion. -/
def OsChar.lossy : OsChar → Char
  | chr c => c
  | ill _ => '\uFFFD'

/-- An OS string; also the text of a path. -/
abbrev OsStr := List OsChar

/-- A component of a path. -/
inductive Component where
  | rootDir
  | curDir
  | parentDir
  | normal (s : OsStr)
  deriving DecidableEq

namespace UnixPath

/-- A Unicode string as an OS string. -/
def ofString (s : String) : OsStr := s.toList.map OsChar.chr

/-- `to_string_lossy`: each ill-formed sequence becomes U+FFFD. -/
def toStringLossy (s : OsStr) : String := String.ofList (s.map OsChar.lossy)

/-- `to_str`: the string, if the bytes are well-formed UTF-8. -/
def toStr (s : OsStr) : Option String := (s.mapM OsChar.char?).map String.ofList

/-- The separator `/`. -/
def sep : OsChar := .chr '/'

/-- The name `.`. -/
def dot : OsStr := [.chr '.']

/-- The name `..`. -/
def dotdot : OsStr := [.chr '.', .chr '.']

/-- The pieces of a text between separators; there is always at least one. -/
def pieces : OsStr → List OsStr
  | [] => [[]]
  | c :: cs =>
      if c = sep then [] :: pieces cs
      else
        match pieces cs with
        | [] => [[c]]
        | p :: ps => (c :: p) :: ps

/-- The nonempty pieces of a text: repeated separators count once. -/
def segments (t : OsStr) : List OsStr := (pieces t).filter (· ≠ [])

/-- `Path::is_absolute`. -/
def isAbsolute (t : OsStr) : Bool := t.head? = some sep

/-- Whether the text ends with a separator. -/
def endsWithSep (t : OsStr) : Bool := t.getLast? = some sep

/-- The component a segment other than `.` stands for. -/
def classify (s : OsStr) : Component := if s = dotdot then .parentDir else .normal s

/-- `Path::components`: a `.` is a component only at the start of a relative path. -/
def components (t : OsStr) : List Component :=
  if isAbsolute t then .rootDir :: ((segments t).filter (· ≠ dot)).map classify
  else
    match segments t with
    | [] => []
    | s :: rest =>
        (if s = dot then .curDir else classify s) :: (rest.filter (· ≠ dot)).map classify

/-- `Path::join`: an absolute second path replaces the first, and an empty one only
adds a separator. -/
def join (base p : OsStr) : OsStr :=
  if isAbsolute p then p
  else if base = [] ∨ endsWithSep base then base ++ p
  else base ++ sep :: p

/-- `Path::file_name`. -/
def fileName (t : OsStr) : Option OsStr :=
  match (components t).getLast? with
  | some (.normal s) => some s
  | _ => none

/-- The text of a component. -/
def componentText : Component → OsStr
  | .rootDir => []
  | .curDir => dot
  | .parentDir => dotdot
  | .normal s => s

/-- Names with a separator between each two. -/
def intercalate : List OsStr → OsStr
  | [] => []
  | [s] => s
  | s :: rest => s ++ sep :: intercalate rest

/-- The text of a list of components. -/
def render : List Component → OsStr
  | .rootDir :: cs => sep :: intercalate (cs.map componentText)
  | cs => intercalate (cs.map componentText)

/-- `Path::parent`, as a text with the same components as the source's slice. -/
def parent (t : OsStr) : Option OsStr :=
  match (components t).getLast? with
  | none => none
  | some .rootDir => none
  | some _ => some (render (components t).dropLast)

/-- `Path::starts_with`: component-wise. -/
def startsWith (t base : OsStr) : Bool := (components base).isPrefixOf (components t)

/-- An ordinary file name: one nonempty segment that is neither `.` nor `..`. -/
def IsName (s : OsStr) : Prop := s ≠ [] ∧ sep ∉ s ∧ s ≠ dot ∧ s ≠ dotdot

instance (s : OsStr) : Decidable (IsName s) := inferInstanceAs (Decidable (_ ∧ _ ∧ _ ∧ _))

/-! ## Splitting -/

theorem pieces_ne_nil (t : OsStr) : pieces t ≠ [] := by
  induction t with
  | nil => simp [pieces]
  | cons c cs ih =>
      unfold pieces
      split
      · simp
      · split <;> simp

theorem pieces_append_sep (a b : OsStr) : pieces (a ++ sep :: b) = pieces a ++ pieces b := by
  induction a with
  | nil => simp [pieces]
  | cons c a ih =>
      by_cases hc : c = sep
      · simp only [List.cons_append, pieces, if_pos hc, ih]
      · simp only [List.cons_append, pieces, if_neg hc, ih]
        cases hp : pieces a with
        | nil => exact absurd hp (pieces_ne_nil a)
        | cons p ps => rfl

theorem pieces_eq_singleton {s : OsStr} (h : sep ∉ s) : pieces s = [s] := by
  induction s with
  | nil => rfl
  | cons c s ih =>
      have hc : c ≠ sep := fun he => h (he ▸ List.mem_cons_self ..)
      have hs : sep ∉ s := fun hm => h (List.mem_cons_of_mem _ hm)
      simp only [pieces, if_neg hc, ih hs]

theorem sep_not_mem_of_mem_pieces {s t : OsStr} (h : s ∈ pieces t) : sep ∉ s := by
  induction t generalizing s with
  | nil =>
      obtain rfl := List.mem_singleton.mp h
      exact List.not_mem_nil
  | cons c t ih =>
      unfold pieces at h
      split at h
      · rcases List.mem_cons.mp h with rfl | h
        · exact List.not_mem_nil
        · exact ih h
      · rename_i hc
        split at h
        · rename_i hp
          exact absurd hp (pieces_ne_nil t)
        · rename_i p ps hp
          rcases List.mem_cons.mp h with rfl | h
          · intro hm
            rcases List.mem_cons.mp hm with he | hm
            · exact hc he.symm
            · exact ih (hp ▸ List.mem_cons_self ..) hm
          · exact ih (hp ▸ List.mem_cons_of_mem _ h)

theorem segments_append_sep (a b : OsStr) :
    segments (a ++ sep :: b) = segments a ++ segments b := by
  simp only [segments, pieces_append_sep, List.filter_append]

@[simp] theorem segments_nil : segments [] = [] := rfl

theorem mem_segments {s t : OsStr} (h : s ∈ segments t) : s ≠ [] ∧ sep ∉ s := by
  obtain ⟨hp, hne⟩ := List.mem_filter.mp h
  exact ⟨of_decide_eq_true hne, sep_not_mem_of_mem_pieces hp⟩

theorem segments_eq_singleton {s : OsStr} (hne : s ≠ []) (h : sep ∉ s) : segments s = [s] := by
  simp [segments, pieces_eq_singleton h, hne]

theorem segments_sep_cons (t : OsStr) : segments (sep :: t) = segments t :=
  segments_append_sep [] t

/-- A segment that is neither `.` nor `..` is an ordinary name. -/
theorem isName_of_mem_segments {s t : OsStr} (h : s ∈ segments t) (h1 : s ≠ dot)
    (h2 : s ≠ dotdot) : IsName s :=
  ⟨(mem_segments h).1, (mem_segments h).2, h1, h2⟩

theorem segments_name {s : OsStr} (h : IsName s) : segments s = [s] :=
  segments_eq_singleton h.1 h.2.1

theorem isAbsolute_name {s : OsStr} (h : IsName s) : isAbsolute s = false := by
  obtain ⟨hne, hsep, -⟩ := h
  cases s with
  | nil => exact absurd rfl hne
  | cons c s =>
      have hc : c ≠ sep := fun he => hsep (he ▸ List.mem_cons_self ..)
      simpa [isAbsolute] using hc

/-! ## Joining -/

theorem endsWithSep_iff {t : OsStr} : endsWithSep t = true ↔ ∃ u, t = u ++ [sep] := by
  rw [endsWithSep, decide_eq_true_eq, List.getLast?_eq_some_iff]

/-- **Joining a relative path appends its segments.** -/
theorem segments_join {base p : OsStr} (hp : isAbsolute p = false) :
    segments (join base p) = segments base ++ segments p := by
  unfold join
  rw [if_neg (by simp [hp])]
  split
  · rename_i h
    rcases h with rfl | h
    · rfl
    · obtain ⟨u, rfl⟩ := endsWithSep_iff.mp h
      rw [List.append_assoc, List.singleton_append, segments_append_sep, segments_append_sep]
      simp
  · exact segments_append_sep base p

theorem isAbsolute_join {base p : OsStr} (hp : isAbsolute p = false) :
    isAbsolute (join base p) = isAbsolute base := by
  unfold join
  rw [if_neg (by simp [hp])]
  cases base with
  | nil => exact hp
  | cons c base => split <;> rfl

theorem join_absolute {base p : OsStr} (hp : isAbsolute p = true) : join base p = p := by
  unfold join
  rw [if_pos hp]

theorem join_ne_nil {base s : OsStr} (h : IsName s) : join base s ≠ [] := by
  intro hnil
  have hseg : segments (join base s) = segments base ++ segments s :=
    segments_join (isAbsolute_name h)
  rw [hnil, segments_name h] at hseg
  simp [segments, pieces] at hseg

/-- A text that ends in an ordinary name does not end in a separator. -/
theorem endsWithSep_join_name {base s : OsStr} (h : IsName s) :
    endsWithSep (join base s) = false := by
  have hlast : ∀ u : OsStr, endsWithSep (u ++ s) = endsWithSep s := by
    intro u
    simp only [endsWithSep, List.getLast?_append_of_ne_nil _ h.1]
  have hs : endsWithSep s = false := by
    apply Bool.eq_false_iff.mpr
    intro he
    obtain ⟨u, rfl⟩ := endsWithSep_iff.mp he
    exact h.2.1 (List.mem_append_right _ (List.mem_singleton_self _))
  unfold join
  rw [if_neg (by simp [isAbsolute_name h])]
  split
  · rw [hlast, hs]
  · rw [List.append_cons, hlast, hs]

end UnixPath

import Reoftpd.Account
import Reoftpd.Lexical

/-!
# Camera jails

Where the homes of cameras lie, lexically.  A home is the archive root joined with the
camera's name, and the name is any string that `validate` has not seen twice.

**Jails are not always contained.**  A camera named `..` has the parent of the archive
root as its home (`camera_home_escapes`).  The homes are strict descendants of the root
and apart from each other exactly when every camera name comes back below the root with
what it goes up or starts over, and the rests of two names below the root are never one
inside the other (`homes_contained_disjoint_iff`).  Ordinary file names do
(`staysBelow_of_isName`).
-/
namespace Reoftpd
open UnixPath

/-- How many names of the root a camera name leaves in place. -/
def keptNames (root name : LexPath) : Nat :=
  if name.absolute then 0 else root.names.length - name.ups

/-- The names a camera name has to go down to come back to the root. -/
def wayBack (root name : LexPath) : List OsStr := root.names.drop (keptNames root name)

/-- What a camera name says below the root. -/
def belowRoot (root name : LexPath) : List OsStr := name.names.drop (wayBack root name).length

/-- A camera name stays below the root: it goes up no further than a relative root
allows and starts over only where the root does, and then its names lead back to the
root and on. -/
def StaysBelow (root name : LexPath) : Prop :=
  (if name.absolute then root.absolute = true
    else root.absolute = true ∨ name.ups ≤ root.names.length) ∧
  wayBack root name <+: name.names ∧ name.names ≠ wayBack root name

instance (root name : LexPath) : Decidable (StaysBelow root name) :=
  inferInstanceAs (Decidable (_ ∧ _ ∧ _))

/-- The camera names of a config stay below its root, and apart from each other. -/
def JailNames (cfg : Config) : Prop :=
  (∀ cam ∈ cfg.camera, StaysBelow (lex cfg.archive.root) (lex (ofString cam.name))) ∧
  ∀ cam ∈ cfg.camera, ∀ cam' ∈ cfg.camera, cam.name ≠ cam'.name →
    ¬ belowRoot (lex cfg.archive.root) (lex (ofString cam'.name)) <+:
      belowRoot (lex cfg.archive.root) (lex (ofString cam.name))

instance (cfg : Config) : Decidable (JailNames cfg) := inferInstanceAs (Decidable (_ ∧ _))

section Home
variable {root name : OsStr}

/-- The names of a home: what is left of the root's, then the camera name's. -/
theorem names_home : (lex (join root name)).names =
    (lex root).names.take (keptNames (lex root) (lex name)) ++ (lex name).names := by
  unfold keptNames
  by_cases hn : isAbsolute name = true
  · rw [join_absolute hn, if_pos (lex_absolute hn).1, List.take_zero, List.nil_append]
  · have hrel : isAbsolute name = false := by simpa using hn
    rw [lex_join hrel, if_neg (by simp [lex_relative hrel])]
    unfold LexPath.descend
    split
    · rfl
    · rename_i h
      have h0 : (lex root).names.length - (lex name).ups = 0 := by omega
      rw [h0, List.take_zero, List.nil_append]
      split <;> rfl

/-- When a home starts where the root does. -/
theorem start_home_iff :
    ((lex (join root name)).absolute = (lex root).absolute ∧
        (lex (join root name)).ups = (lex root).ups) ↔
      if (lex name).absolute then (lex root).absolute = true
      else (lex root).absolute = true ∨ (lex name).ups ≤ (lex root).names.length := by
  -- an absolute name replaces the root, any other goes on from it
  by_cases hn : isAbsolute name = true
  · obtain ⟨habs, hups⟩ := lex_absolute hn
    rw [join_absolute hn, if_pos habs, habs, hups]
    constructor
    · exact fun h => h.1.symm
    · intro h
      refine ⟨h.symm, ?_⟩
      by_cases hr : isAbsolute root = true
      · exact (lex_absolute hr).2.symm
      · rw [lex_relative (by simpa using hr)] at h
        cases h
  · have hrel : isAbsolute name = false := by simpa using hn
    rw [lex_join hrel, if_neg (by simp [lex_relative hrel])]
    unfold LexPath.descend
    split
    · rename_i h
      exact ⟨fun _ => Or.inr h, fun _ => ⟨rfl, rfl⟩⟩
    · rename_i h
      split
      · rename_i habs
        exact ⟨fun _ => Or.inl habs, fun _ => ⟨rfl, rfl⟩⟩
      · rename_i habs
        constructor
        · intro h'
          have := h'.2
          simp only at this
          omega
        · rintro (h' | h')
          · exact absurd h' habs
          · exact absurd h' h

/-- **A home is strictly inside the root** exactly when the camera name stays below. -/
theorem home_strictlyInside_iff :
    (lex (join root name)).StrictlyInside (lex root) ↔ StaysBelow (lex root) (lex name) := by
  have hroot : (lex root).names.take (keptNames (lex root) (lex name)) ++
      wayBack (lex root) (lex name) = (lex root).names := List.take_append_drop ..
  have hprefix : (lex root).names <+: (lex (join root name)).names ↔
      wayBack (lex root) (lex name) <+: (lex name).names := by
    rw [names_home]
    conv_lhs => lhs; rw [← hroot]
    exact List.prefix_append_right_inj _
  have hne : (lex (join root name)).names ≠ (lex root).names ↔
      (lex name).names ≠ wayBack (lex root) (lex name) := by
    rw [names_home]
    conv_lhs => rhs; rw [← hroot]
    exact (List.append_right_inj _).not
  unfold LexPath.StrictlyInside LexPath.Inside StaysBelow
  rw [← start_home_iff, ← hprefix, ← hne]
  tauto

/-- The names of a home below the root. -/
theorem names_home_of_staysBelow (h : StaysBelow (lex root) (lex name)) :
    (lex (join root name)).names = (lex root).names ++ belowRoot (lex root) (lex name) := by
  obtain ⟨rest, hrest⟩ := h.2.1
  have hbelow : belowRoot (lex root) (lex name) = rest := by
    rw [belowRoot, ← hrest, List.drop_left]
  rw [names_home, hbelow, ← hrest, ← List.append_assoc]
  exact congrArg (· ++ rest) (List.take_append_drop ..)

/-- Of two names that stay below the root, one home is inside the other exactly when
what the names say below the root is. -/
theorem home_inside_iff {name' : OsStr} (h : StaysBelow (lex root) (lex name))
    (h' : StaysBelow (lex root) (lex name')) :
    (lex (join root name)).Inside (lex (join root name')) ↔
      belowRoot (lex root) (lex name') <+: belowRoot (lex root) (lex name) := by
  obtain ⟨⟨habs, hups, -⟩, -⟩ := home_strictlyInside_iff.mpr h
  obtain ⟨⟨habs', hups', -⟩, -⟩ := home_strictlyInside_iff.mpr h'
  unfold LexPath.Inside
  rw [names_home_of_staysBelow h, names_home_of_staysBelow h', List.prefix_append_right_inj]
  exact ⟨fun h => h.2.2, fun h => ⟨habs.trans habs'.symm, hups.trans hups'.symm, h⟩⟩

/-- An ordinary file name stays below the root, and says itself. -/
theorem staysBelow_of_isName (h : IsName name) :
    StaysBelow (lex root) (lex name) ∧ belowRoot (lex root) (lex name) = [name] := by
  have hlex : lex name = ⟨false, 0, [name]⟩ := by
    rw [lex, lexFrom_eq, isAbsolute_name h, segments_name h]
    simp [LexPath.follow, LexPath.push, LexPath.here, h.2.2.1, h.2.2.2]
  simp [StaysBelow, belowRoot, wayBack, keptNames, hlex]

end Home

/-- **Camera jails are contained and disjoint** exactly when the camera names stay below
the root and apart: for every valid config, the home of every uploader account is a
strict descendant of the archive root and no camera's home is or lies inside another's,
if and only if `JailNames` holds. -/
theorem homes_contained_disjoint_iff (age : Age) (cfg : Config)
    (hvalid : cfg.validate age = .ok ()) :
    ((∀ login acct home, (build cfg).get login = some acct → acct.role = .uploader home →
        (lex home).StrictlyInside (lex cfg.archive.root)) ∧
      ∀ cam ∈ cfg.camera, ∀ cam' ∈ cfg.camera, cam.name ≠ cam'.name →
        ¬ (lex (cameraHome cfg cam)).Inside (lex (cameraHome cfg cam'))) ↔
      JailNames cfg := by
  have haccounts : (∀ login acct home, (build cfg).get login = some acct →
      acct.role = .uploader home → (lex home).StrictlyInside (lex cfg.archive.root)) ↔
      ∀ cam ∈ cfg.camera, StaysBelow (lex cfg.archive.root) (lex (ofString cam.name)) := by
    constructor
    · intro h cam hcam
      exact home_strictlyInside_iff.mp
        (h _ _ _ (build_get_camera (Config.distinct_of_validate hvalid) hcam) rfl)
    · intro h login acct home hget hrole
      obtain ⟨cam, hcam, -, rfl⟩ := build_uploader hget hrole
      exact home_strictlyInside_iff.mpr (h cam hcam)
  unfold JailNames
  rw [haccounts]
  refine and_congr_right fun h => ?_
  refine forall₂_congr fun cam hcam => forall₂_congr fun cam' hcam' => ?_
  exact imp_congr_right fun _ => (home_inside_iff (h cam hcam) (h cam' hcam')).not

/-- A config of cameras with the given names, on `/srv/reolink`. -/
def camerasNamed (names : List String) : Config :=
  { server := ⟨50000, 50100⟩
    archive := ⟨ofString "/srv/reolink", 30⟩
    limits := ⟨256, none⟩
    camera := names.map fun n => ⟨n, none, "hash", none⟩
    group := ∅, viewer := [], encryption := none }

/-- Two cameras with ordinary names. -/
theorem homes_front_door_driveway :
    (∀ login acct home, (build (camerasNamed ["front-door", "driveway"])).get login = some acct →
        acct.role = .uploader home →
        (lex home).StrictlyInside (lex (ofString "/srv/reolink"))) ∧
      ∀ cam ∈ (camerasNamed ["front-door", "driveway"]).camera,
        ∀ cam' ∈ (camerasNamed ["front-door", "driveway"]).camera, cam.name ≠ cam'.name →
          ¬ (lex (cameraHome (camerasNamed ["front-door", "driveway"]) cam)).Inside
            (lex (cameraHome (camerasNamed ["front-door", "driveway"]) cam')) :=
  (homes_contained_disjoint_iff shiftAge (camerasNamed ["front-door", "driveway"]) (by rfl)).mpr
    (by decide)

/-- **A camera home escapes the root**: the camera is named `..`, and its home is the
parent of the archive root. -/
theorem camera_home_escapes :
    ¬ ∀ cfg : Config, cfg.validate shiftAge = .ok () →
        (∀ login acct home, (build cfg).get login = some acct → acct.role = .uploader home →
          (lex home).StrictlyInside (lex cfg.archive.root)) ∧
        ∀ cam ∈ cfg.camera, ∀ cam' ∈ cfg.camera, cam.name ≠ cam'.name →
          ¬ (lex (cameraHome cfg cam)).Inside (lex (cameraHome cfg cam')) := by
  intro h
  have hinside := (h (camerasNamed [".."]) (by rfl)).1 ".." _ _ (by rfl) (by rfl)
  revert hinside
  decide

end Reoftpd

import Reoftpd.Disk
import Reoftpd.Locations

/-!
# Walking a path

How a kernel resolves a path: one segment after the other, through directories and
symbolic links, up to a limit on the links followed.  What the segments are looked up in
is any function `look`; a walk ends at a location, which may be bound to nothing, since
the last segment of a path may name something that is still to be made.

A walk depends on little of what it is looked up in.  It comes to the same end as long
as the directories it goes through (its `trail`) stay directories and the links stay the
links they are (`walk_stable`), and so it does without the `.`s it was written with
(`walk_thin`).  A walk through `l ++ r` is a walk through `l` and one through `r` from
where that ends (`walk_append`), and where no link is met, names lead to the location
they spell (`walk_names`).
-/

namespace UnixPath

/-- What the names of a path are looked up in. -/
abbrev Look := Loc → Option (Entry OsStr)

/-- The segments a path is walked by.  A separator at its end asks for a directory, as a
`.` there would. -/
def steps (p : OsStr) : List OsStr := if endsWithSep p then segments p ++ [dot] else segments p

/-- Where the walk of a link's target begins. -/
def linkStart (target : OsStr) (here : Loc) : Loc := if isAbsolute target then [] else here

/-- A walk from the directory `here`, with `follow` for the links it meets.  A link that
is the last segment is followed only if `followLast`. -/
def walkFrom (look : Look) (followLast : Bool) (follow : Loc → List OsStr → Except Errno Loc) :
    Loc → List OsStr → Except Errno Loc
  | here, [] => .ok here
  | here, s :: rest =>
      if s = dot then walkFrom look followLast follow here rest
      else if s = dotdot then walkFrom look followLast follow here.dropLast rest
      else
        match look (here ++ [s]) with
        | some .dir => walkFrom look followLast follow (here ++ [s]) rest
        | some (.link target) =>
            if rest = [] ∧ followLast = false then .ok (here ++ [s])
            else follow (linkStart target here) (steps target ++ rest)
        | some (.file _) => if rest = [] then .ok (here ++ [s]) else .error .notADirectory
        | none => if rest = [] then .ok (here ++ [s]) else .error .notFound

/-- A walk that follows at most `n` links. -/
def walk (look : Look) (followLast : Bool) : Nat → Loc → List OsStr → Except Errno Loc
  | 0 => walkFrom look followLast fun _ _ => .error .filesystemLoop
  | n + 1 => walkFrom look followLast (walk look followLast n)

/-- The directories a walk that follows every link goes through, the first one included. -/
def trailFrom (look : Look) (follow : Loc → List OsStr → List Loc) : Loc → List OsStr → List Loc
  | here, [] => [here]
  | here, s :: rest =>
      here ::
        if s = dot then trailFrom look follow here rest
        else if s = dotdot then trailFrom look follow here.dropLast rest
        else
          match look (here ++ [s]) with
          | some .dir => trailFrom look follow (here ++ [s]) rest
          | some (.link target) => follow (linkStart target here) (steps target ++ rest)
          | _ => []

/-- The trail of a walk that follows at most `n` links. -/
def trail (look : Look) : Nat → Loc → List OsStr → List Loc
  | 0 => trailFrom look fun _ _ => []
  | n + 1 => trailFrom look (trail look n)

section Walk
variable {look look' : Look} {followLast : Bool} {n : Nat} {here L D : Loc} {s : OsStr}
  {l l' r rest : List OsStr}

/-! ## One segment at a time -/

/-- What follows a link: nothing once the limit is reached. -/
def followLink (look : Look) (followLast : Bool) : Nat → Loc → List OsStr → Except Errno Loc
  | 0, _, _ => .error .filesystemLoop
  | n + 1, here, l => walk look followLast n here l

theorem walk_eq (look : Look) (followLast : Bool) (n : Nat) :
    walk look followLast n = walkFrom look followLast (followLink look followLast n) := by
  cases n <;> rfl

@[simp] theorem walk_nil : walk look followLast n here [] = .ok here := by
  rw [walk_eq, walkFrom]

theorem walk_dot :
    walk look followLast n here (dot :: rest) = walk look followLast n here rest := by
  rw [walk_eq, walkFrom, if_pos rfl]

theorem walk_dotdot :
    walk look followLast n here (dotdot :: rest) = walk look followLast n here.dropLast rest := by
  rw [walk_eq, walkFrom, if_neg (by decide), if_pos rfl]

theorem walk_cons (h1 : s ≠ dot) (h2 : s ≠ dotdot) :
    walk look followLast n here (s :: rest) =
      match look (here ++ [s]) with
      | some .dir => walk look followLast n (here ++ [s]) rest
      | some (.link target) =>
          if rest = [] ∧ followLast = false then .ok (here ++ [s])
          else followLink look followLast n (linkStart target here) (steps target ++ rest)
      | some (.file _) => if rest = [] then .ok (here ++ [s]) else .error .notADirectory
      | none => if rest = [] then .ok (here ++ [s]) else .error .notFound := by
  rw [walk_eq, walkFrom, if_neg h1, if_neg h2]

theorem walk_dir (h1 : s ≠ dot) (h2 : s ≠ dotdot) (h : look (here ++ [s]) = some .dir) :
    walk look followLast n here (s :: rest) = walk look followLast n (here ++ [s]) rest := by
  rw [walk_cons h1 h2, h]

/-- The ways a walk past a segment can succeed. -/
theorem walk_cons_ok (h : walk look followLast n here (s :: rest) = .ok L) :
    s = dot ∧ walk look followLast n here rest = .ok L ∨
      s = dotdot ∧ walk look followLast n here.dropLast rest = .ok L ∨
      (s ≠ dot ∧ s ≠ dotdot) ∧
        (look (here ++ [s]) = some .dir ∧ walk look followLast n (here ++ [s]) rest = .ok L ∨
          (∃ target m, look (here ++ [s]) = some (.link target) ∧ n = m + 1 ∧
            ¬ (rest = [] ∧ followLast = false) ∧
            walk look followLast m (linkStart target here) (steps target ++ rest) = .ok L) ∨
          rest = [] ∧ L = here ++ [s] ∧ look (here ++ [s]) ≠ some .dir ∧
            (followLast = false ∨ ∀ target, look (here ++ [s]) ≠ some (.link target))) := by
  by_cases h1 : s = dot
  · subst h1
    exact Or.inl ⟨rfl, walk_dot ▸ h⟩
  by_cases h2 : s = dotdot
  · subst h2
    exact Or.inr (Or.inl ⟨rfl, walk_dotdot ▸ h⟩)
  refine Or.inr (Or.inr ⟨⟨h1, h2⟩, ?_⟩)
  rw [walk_cons h1 h2] at h
  split at h
  · rename_i hd
    exact Or.inl ⟨hd, h⟩
  · rename_i target hl
    split at h
    · rename_i hlast
      obtain rfl := Except.ok.inj h
      exact Or.inr (Or.inr ⟨hlast.1, rfl, by simp [hl], Or.inl hlast.2⟩)
    · rename_i hlast
      cases n with
      | zero => cases h
      | succ m => exact Or.inr (Or.inl ⟨target, m, hl, rfl, hlast, h⟩)
  · rename_i i hf
    split at h
    · rename_i hr
      obtain rfl := Except.ok.inj h
      exact Or.inr (Or.inr ⟨hr, rfl, by simp [hf], Or.inr (by simp [hf])⟩)
    · cases h
  · rename_i hn
    split at h
    · rename_i hr
      obtain rfl := Except.ok.inj h
      exact Or.inr (Or.inr ⟨hr, rfl, by simp [hn], Or.inr (by simp [hn])⟩)
    · cases h

/-- **Induction over a walk that succeeds**, by the ways past a segment.  `Q n here l L`
is about the walk that comes to `L`. -/
theorem walk_induction {Q : Nat → Loc → List OsStr → Loc → Prop}
    (nil : ∀ n here, Q n here [] here)
    (here_dot : ∀ n here rest L, walk look followLast n here rest = .ok L → Q n here rest L →
      Q n here (dot :: rest) L)
    (up : ∀ n here rest L, walk look followLast n here.dropLast rest = .ok L →
      Q n here.dropLast rest L → Q n here (dotdot :: rest) L)
    (down : ∀ n here s rest L, s ≠ dot → s ≠ dotdot → look (here ++ [s]) = some .dir →
      walk look followLast n (here ++ [s]) rest = .ok L → Q n (here ++ [s]) rest L →
      Q n here (s :: rest) L)
    (through : ∀ n here s target rest L, s ≠ dot → s ≠ dotdot →
      look (here ++ [s]) = some (.link target) → ¬ (rest = [] ∧ followLast = false) →
      walk look followLast n (linkStart target here) (steps target ++ rest) = .ok L →
      Q n (linkStart target here) (steps target ++ rest) L → Q (n + 1) here (s :: rest) L)
    (last : ∀ n here s, s ≠ dot → s ≠ dotdot → look (here ++ [s]) ≠ some .dir →
      (followLast = false ∨ ∀ target, look (here ++ [s]) ≠ some (.link target)) →
      Q n here [s] (here ++ [s]))
    (h : walk look followLast n here l = .ok L) : Q n here l L := by
  induction n generalizing here l L with
  | zero =>
      induction l generalizing here with
      | nil =>
          obtain rfl := Except.ok.inj (walk_nil.symm.trans h)
          exact nil 0 here
      | cons s rest ih =>
          rcases walk_cons_ok h with ⟨rfl, h⟩ | ⟨rfl, h⟩ | ⟨⟨h1, h2⟩, ⟨hd, h⟩ | hl | hlast⟩
          · exact here_dot 0 here rest L h (ih h)
          · exact up 0 here rest L h (ih h)
          · exact down 0 here s rest L h1 h2 hd h (ih h)
          · obtain ⟨target, m, -, hm, -⟩ := hl
            cases hm
          · obtain ⟨rfl, rfl, hnd, hnl⟩ := hlast
            exact last 0 here s h1 h2 hnd hnl
  | succ n ihn =>
      induction l generalizing here with
      | nil =>
          obtain rfl := Except.ok.inj (walk_nil.symm.trans h)
          exact nil (n + 1) here
      | cons s rest ih =>
          rcases walk_cons_ok h with ⟨rfl, h⟩ | ⟨rfl, h⟩ | ⟨⟨h1, h2⟩, ⟨hd, h⟩ | hl | hlast⟩
          · exact here_dot (n + 1) here rest L h (ih h)
          · exact up (n + 1) here rest L h (ih h)
          · exact down (n + 1) here s rest L h1 h2 hd h (ih h)
          · obtain ⟨target, m, hlink, hm, hlast, h⟩ := hl
            obtain rfl : n = m := by omega
            exact through n here s target rest L h1 h2 hlink hlast h (ihn h)
          · obtain ⟨rfl, rfl, hnd, hnl⟩ := hlast
            exact last (n + 1) here s h1 h2 hnd hnl

/-- A last segment that is no link to follow is where the walk ends. -/
theorem walk_last (h1 : s ≠ dot) (h2 : s ≠ dotdot)
    (h : followLast = false ∨ ∀ target, look (here ++ [s]) ≠ some (.link target)) :
    walk look followLast n here [s] = .ok (here ++ [s]) := by
  rw [walk_cons h1 h2]
  split
  · exact walk_nil
  · rename_i target hl
    rcases h with h | h
    · rw [if_pos ⟨rfl, h⟩]
    · exact absurd hl (h target)
  · rw [if_pos rfl]
  · rw [if_pos rfl]

theorem walk_link {target : OsStr} (h1 : s ≠ dot) (h2 : s ≠ dotdot)
    (hl : look (here ++ [s]) = some (.link target)) (h : ¬ (rest = [] ∧ followLast = false)) :
    walk look followLast (n + 1) here (s :: rest) =
      walk look followLast n (linkStart target here) (steps target ++ rest) := by
  rw [walk_cons h1 h2, hl]
  exact if_neg h

/-! ## What a walk depends on -/

theorem mem_trail_self : here ∈ trail look n here l := by
  cases n <;> cases l <;> exact List.mem_cons_self ..

theorem mem_trail_dot (h : D ∈ trail look n here rest) : D ∈ trail look n here (dot :: rest) := by
  cases n <;>
  · rw [trail, trailFrom, if_pos rfl]
    exact List.mem_cons_of_mem _ h

theorem mem_trail_dotdot (h : D ∈ trail look n here.dropLast rest) :
    D ∈ trail look n here (dotdot :: rest) := by
  cases n <;>
  · rw [trail, trailFrom, if_neg (by decide), if_pos rfl]
    exact List.mem_cons_of_mem _ h

theorem mem_trail_dir (h1 : s ≠ dot) (h2 : s ≠ dotdot) (hd : look (here ++ [s]) = some .dir)
    (h : D ∈ trail look n (here ++ [s]) rest) : D ∈ trail look n here (s :: rest) := by
  cases n <;>
  · rw [trail, trailFrom, if_neg h1, if_neg h2, hd]
    exact List.mem_cons_of_mem _ h

theorem mem_trail_link {target : OsStr} (h1 : s ≠ dot) (h2 : s ≠ dotdot)
    (hl : look (here ++ [s]) = some (.link target))
    (h : D ∈ trail look n (linkStart target here) (steps target ++ rest)) :
    D ∈ trail look (n + 1) here (s :: rest) := by
  rw [trail, trailFrom, if_neg h1, if_neg h2, hl]
  exact List.mem_cons_of_mem _ h

/-- **A walk comes to the same end** as long as the directories on its trail stay
directories and the links stay the links they are. -/
theorem walk_stable
    (hlink : ∀ M target, look' M = some (.link target) ↔ look M = some (.link target))
    (h : walk look followLast n here l = .ok L)
    (hdir : ∀ D ∈ trail look n here l, look D = some .dir → look' D = some .dir) :
    walk look' followLast n here l = .ok L := by
  refine walk_induction (Q := fun n here l L =>
      (∀ D ∈ trail look n here l, look D = some .dir → look' D = some .dir) →
        walk look' followLast n here l = .ok L) ?_ ?_ ?_ ?_ ?_ ?_ h hdir
  · exact fun n here _ => walk_nil
  · intro n here rest L _ ih hdir
    rw [walk_dot]
    exact ih fun D hD => hdir D (mem_trail_dot hD)
  · intro n here rest L _ ih hdir
    rw [walk_dotdot]
    exact ih fun D hD => hdir D (mem_trail_dotdot hD)
  · intro n here s rest L h1 h2 hd _ ih hdir
    rw [walk_dir h1 h2 (hdir _ (mem_trail_dir h1 h2 hd mem_trail_self) hd)]
    exact ih fun D hD => hdir D (mem_trail_dir h1 h2 hd hD)
  · intro n here s target rest L h1 h2 hl hlast _ ih hdir
    rw [walk_link h1 h2 ((hlink _ _).mpr hl) hlast]
    exact ih fun D hD => hdir D (mem_trail_link h1 h2 hl hD)
  · intro n here s h1 h2 _ hnl _
    refine walk_last h1 h2 (hnl.imp id fun hnl target h => hnl target ((hlink _ _).mp h))

/-- The directory a walk ends at is the last one on its trail. -/
theorem mem_trail_end (h : walk look followLast n here l = .ok L) (hL : look L = some .dir) :
    L ∈ trail look n here l := by
  refine walk_induction (Q := fun n here l L => look L = some .dir → L ∈ trail look n here l)
    ?_ ?_ ?_ ?_ ?_ ?_ h hL
  · exact fun n here _ => mem_trail_self
  · exact fun n here rest L _ ih hL => mem_trail_dot (ih hL)
  · exact fun n here rest L _ ih hL => mem_trail_dotdot (ih hL)
  · exact fun n here s rest L h1 h2 hd _ ih hL => mem_trail_dir h1 h2 hd (ih hL)
  · exact fun n here s target rest L h1 h2 hl _ _ ih hL => mem_trail_link h1 h2 hl (ih hL)
  · exact fun n here s _ _ hnd _ hL => absurd hL hnd

/-- A walk comes to the same end where there are more directories and the same links. -/
theorem walk_mono
    (hlink : ∀ M target, look' M = some (.link target) ↔ look M = some (.link target))
    (hdir : ∀ D, look D = some .dir → look' D = some .dir)
    (h : walk look followLast n here l = .ok L) : walk look' followLast n here l = .ok L :=
  walk_stable hlink h fun D _ => hdir D

/-- `Thin l' l`: `l'` is `l` without some of its `.`s. -/
inductive Thin : List OsStr → List OsStr → Prop
  | nil : Thin [] []
  | keep (s : OsStr) {l' l : List OsStr} : Thin l' l → Thin (s :: l') (s :: l)
  | drop {l' l : List OsStr} : Thin l' l → Thin l' (dot :: l)

theorem Thin.refl (l : List OsStr) : Thin l l := by
  induction l with
  | nil => exact .nil
  | cons s l ih => exact .keep s ih

theorem Thin.append (r : List OsStr) (h : Thin l' l) : Thin (r ++ l') (r ++ l) := by
  induction r with
  | nil => exact h
  | cons s r ih => exact .keep s ih

theorem thin_filter (l : List OsStr) : Thin (l.filter (· ≠ dot)) l := by
  induction l with
  | nil => exact .nil
  | cons s l ih =>
      by_cases h : s = dot
      · subst h
        rw [List.filter_cons_of_neg (by simp)]
        exact .drop ih
      · rw [List.filter_cons_of_pos (by simpa using h)]
        exact .keep s ih

theorem thin_concat_dot (l : List OsStr) : Thin l (l ++ [dot]) := by
  induction l with
  | nil => exact .drop .nil
  | cons s l ih => exact .keep s ih

theorem Thin.mem (h : Thin l' l) (hs : s ∈ l') : s ∈ l := by
  induction h with
  | nil => exact hs
  | keep a _ ih =>
      rcases List.mem_cons.mp hs with rfl | hs
      · exact List.mem_cons_self ..
      · exact List.mem_cons_of_mem a (ih hs)
  | drop _ ih => exact List.mem_cons_of_mem _ (ih hs)

theorem Thin.eq_nil (h : Thin l' []) : l' = [] := by
  cases h
  rfl

/-- **A walk does without its `.`s.** -/
theorem walk_thin (h : walk look true n here l = .ok L) (ht : Thin l' l) :
    walk look true n here l' = .ok L := by
  refine walk_induction (Q := fun n here l L => ∀ l', Thin l' l → walk look true n here l' = .ok L)
    ?_ ?_ ?_ ?_ ?_ ?_ h l' ht
  · intro n here l' ht
    rw [ht.eq_nil]
    exact walk_nil
  · intro n here rest L _ ih l' ht
    cases ht with
    | keep _ ht =>
        rw [walk_dot]
        exact ih _ ht
    | drop ht => exact ih _ ht
  · intro n here rest L _ ih l' ht
    cases ht with
    | keep _ ht =>
        rw [walk_dotdot]
        exact ih _ ht
  · intro n here s rest L h1 h2 hd _ ih l' ht
    cases ht with
    | keep _ ht =>
        rw [walk_dir h1 h2 hd]
        exact ih _ ht
    | drop => exact absurd rfl h1
  · intro n here s target rest L h1 h2 hl _ _ ih l' ht
    cases ht with
    | keep _ ht =>
        rw [walk_link h1 h2 hl (by simp)]
        exact ih _ (ht.append _)
    | drop => exact absurd rfl h1
  · intro n here s h1 h2 _ hnl l' ht
    cases ht with
    | keep _ ht =>
        rw [ht.eq_nil]
        exact walk_last h1 h2 hnl
    | drop => exact absurd rfl h1

/-- A walk comes past the `.`s in front of a segment. -/
theorem Thin.walk_cons {m : List OsStr} (h : Thin (s :: l) m) (look : Look) (followLast : Bool) :
    ∃ m', Thin l m' ∧
      ∀ n here, walk look followLast n here m = walk look followLast n here (s :: m') := by
  induction m with
  | nil => cases h
  | cons a m ih =>
      cases h with
      | keep _ h => exact ⟨m, h, fun _ _ => rfl⟩
      | drop h =>
          obtain ⟨m', hthin, hwalk⟩ := ih h
          exact ⟨m', hthin, fun n here => walk_dot.trans (hwalk n here)⟩

/-- A walk that does not end at a link need not be told whether to follow it. -/
theorem walk_follow (h : walk look false n here l = .ok L)
    (hL : ∀ target, look L ≠ some (.link target)) : walk look true n here l = .ok L := by
  refine walk_induction (Q := fun n here l L => (∀ target, look L ≠ some (.link target)) →
      walk look true n here l = .ok L) ?_ ?_ ?_ ?_ ?_ ?_ h hL
  · exact fun n here _ => walk_nil
  · intro n here rest L _ ih hL
    rw [walk_dot]
    exact ih hL
  · intro n here rest L _ ih hL
    rw [walk_dotdot]
    exact ih hL
  · intro n here s rest L h1 h2 hd _ ih hL
    rw [walk_dir h1 h2 hd]
    exact ih hL
  · intro n here s target rest L h1 h2 hl _ _ ih hL
    rw [walk_link h1 h2 hl (by simp)]
    exact ih hL
  · intro n here s h1 h2 _ _ hL
    exact walk_last h1 h2 (Or.inr hL)

/-! ## Walking on -/

/-- A walk through `l` to a directory, and on through `r` with the links that are left. -/
theorem walk_append_le (h : walk look true n here l = .ok D) (hD : look D = some .dir)
    (hr : r ≠ []) :
    ∃ m, m ≤ n ∧ walk look followLast n here (l ++ r) = walk look followLast m D r := by
  refine walk_induction (Q := fun n here l D => look D = some .dir →
      ∃ m, m ≤ n ∧ walk look followLast n here (l ++ r) = walk look followLast m D r)
    ?_ ?_ ?_ ?_ ?_ ?_ h hD
  · exact fun n here _ => ⟨n, Nat.le_refl n, rfl⟩
  · exact fun n here rest D _ ih hD => by rw [List.cons_append, walk_dot]; exact ih hD
  · exact fun n here rest D _ ih hD => by rw [List.cons_append, walk_dotdot]; exact ih hD
  · intro n here s rest D h1 h2 hd _ ih hD
    rw [List.cons_append, walk_dir h1 h2 hd]
    exact ih hD
  · intro n here s target rest D h1 h2 hl _ _ ih hD
    rw [List.cons_append, walk_link h1 h2 hl (by simp [hr]), ← List.append_assoc]
    obtain ⟨m, hm, he⟩ := ih hD
    exact ⟨m, Nat.le_succ_of_le hm, he⟩
  · exact fun n here s _ _ hnd _ hD => absurd hD hnd

theorem walk_append (h : walk look true n here l = .ok D) (hD : look D = some .dir) (hr : r ≠ []) :
    ∃ m, walk look followLast n here (l ++ r) = walk look followLast m D r := by
  obtain ⟨m, -, he⟩ := walk_append_le h hD hr
  exact ⟨m, he⟩

/-- Where a walk comes to a directory, it does without the `.`s before going on. -/
theorem walk_thin_append (h : walk look true n here l = .ok D) (hD : look D = some .dir)
    (ht : Thin l' l) (hr : r ≠ []) :
    walk look followLast n here (l ++ r) = walk look followLast n here (l' ++ r) := by
  refine walk_induction (Q := fun n here l D => look D = some .dir → ∀ l', Thin l' l →
      walk look followLast n here (l ++ r) = walk look followLast n here (l' ++ r))
    ?_ ?_ ?_ ?_ ?_ ?_ h hD l' ht
  · intro n here _ l' ht
    rw [ht.eq_nil]
  · intro n here rest D _ ih hD l' ht
    rw [List.cons_append, walk_dot]
    cases ht with
    | keep _ ht =>
        rw [List.cons_append, walk_dot]
        exact ih hD _ ht
    | drop ht => exact ih hD _ ht
  · intro n here rest D _ ih hD l' ht
    cases ht with
    | keep _ ht =>
        rw [List.cons_append, List.cons_append, walk_dotdot, walk_dotdot]
        exact ih hD _ ht
  · intro n here s rest D h1 h2 hd _ ih hD l' ht
    cases ht with
    | keep _ ht =>
        rw [List.cons_append, List.cons_append, walk_dir h1 h2 hd, walk_dir h1 h2 hd]
        exact ih hD _ ht
    | drop => exact absurd rfl h1
  · intro n here s target rest D h1 h2 hl _ _ ih hD l' ht
    cases ht with
    | keep _ ht =>
        rw [List.cons_append, List.cons_append, walk_link h1 h2 hl (by simp [hr]),
          walk_link h1 h2 hl (by simp [hr]), ← List.append_assoc, ← List.append_assoc]
        exact ih hD _ (ht.append _)
    | drop => exact absurd rfl h1
  · exact fun n here s _ _ hnd _ hD => absurd hD hnd

/-- A link that is followed with a higher limit leads on as with the lower one, unless that
stops it. -/
theorem walk_more_of {m : Nat}
    (hlink : ∀ here l, followLink look followLast n here l = .error .filesystemLoop ∨
      followLink look followLast m here l = followLink look followLast n here l)
    (here : Loc) (l : List OsStr) :
    walk look followLast n here l = .error .filesystemLoop ∨
      walk look followLast m here l = walk look followLast n here l := by
  induction l generalizing here with
  | nil => exact Or.inr (walk_nil.trans walk_nil.symm)
  | cons s rest ih =>
      by_cases h1 : s = dot
      · subst h1
        rw [walk_dot, walk_dot]
        exact ih here
      by_cases h2 : s = dotdot
      · subst h2
        rw [walk_dotdot, walk_dotdot]
        exact ih here.dropLast
      rw [walk_cons h1 h2, walk_cons h1 h2]
      split
      · exact ih _
      · split
        · exact Or.inr rfl
        · exact hlink _ _
      · exact Or.inr rfl
      · exact Or.inr rfl

/-- **A higher limit on the links** changes a walk only if the lower one stopped it. -/
theorem walk_more {m : Nat} (h : n ≤ m) (here : Loc) (l : List OsStr) :
    walk look followLast n here l = .error .filesystemLoop ∨
      walk look followLast m here l = walk look followLast n here l := by
  induction n generalizing m here l with
  | zero => exact walk_more_of (fun _ _ => Or.inl rfl) here l
  | succ n ih =>
      obtain ⟨k, rfl⟩ : ∃ k, m = k + 1 := ⟨m - 1, by omega⟩
      have hlink : ∀ here l, followLink look followLast (n + 1) here l = .error .filesystemLoop ∨
          followLink look followLast (k + 1) here l = followLink look followLast (n + 1) here l :=
        fun here l => ih (Nat.le_of_succ_le_succ h) here l
      exact walk_more_of hlink here l

/-- What is looked up in is a tree: the root is a directory, and so is whatever
something lies in. -/
structure Rooted (look : Look) : Prop where
  root : look [] = some .dir
  parent : ∀ M a, look (M ++ [a]) ≠ none → look M = some .dir

theorem Rooted.dropLast (hR : Rooted look) (h : look L = some .dir) :
    look L.dropLast = some .dir := by
  cases L using List.reverseRecOn with
  | nil => exact h
  | append_singleton L a =>
      rw [List.dropLast_concat]
      exact hR.parent L a (by simp [h])

theorem Rooted.linkStart (hR : Rooted look) (target : OsStr) (h : look here = some .dir) :
    look (linkStart target here) = some .dir := by
  unfold UnixPath.linkStart
  split
  · exact hR.root
  · exact h

/-- A walk through `l ++ r` is a walk through `l`, and on.  `P` is anything that holds
wherever the walk is between two segments. -/
theorem walk_append_of {P : Loc → Prop} (up : ∀ M, P M → P M.dropLast)
    (back : ∀ target M, P M → P (linkStart target M)) (down : ∀ M, look M = some .dir → P M)
    (hhere : P here) (h : walk look followLast n here (l ++ r) = .ok L) (hr : r ≠ []) :
    ∃ D m, walk look true n here l = .ok D ∧ P D ∧ walk look followLast m D r = .ok L := by
  generalize hlr : l ++ r = lr at h
  refine walk_induction
    (Q := fun n here lr L => ∀ l, l ++ r = lr → P here →
      ∃ D m, walk look true n here l = .ok D ∧ P D ∧
        walk look followLast m D r = .ok L) ?_ ?_ ?_ ?_ ?_ ?_ h l hlr hhere
  · intro n here l hl _
    exact absurd (List.append_eq_nil_iff.mp hl).2 hr
  all_goals
    intro n here
  · intro rest L hok ih l hl hhere
    cases l with
    | nil => exact ⟨here, n, walk_nil, hhere, by rw [List.nil_append] at hl; rw [hl, walk_dot, hok]⟩
    | cons a l =>
        obtain ⟨rfl, rfl⟩ := List.cons.inj hl
        obtain ⟨D, m, h1, h2, h3⟩ := ih l rfl hhere
        exact ⟨D, m, by rw [walk_dot, h1], h2, h3⟩
  · intro rest L hok ih l hl hhere
    cases l with
    | nil =>
        exact ⟨here, n, walk_nil, hhere, by rw [List.nil_append] at hl; rw [hl, walk_dotdot, hok]⟩
    | cons a l =>
        obtain ⟨rfl, rfl⟩ := List.cons.inj hl
        obtain ⟨D, m, h1, h2, h3⟩ := ih l rfl (up here hhere)
        exact ⟨D, m, by rw [walk_dotdot, h1], h2, h3⟩
  · intro s rest L hs1 hs2 hd hok ih l hl hhere
    cases l with
    | nil =>
        exact ⟨here, n, walk_nil, hhere, by
          rw [List.nil_append] at hl; rw [hl, walk_dir hs1 hs2 hd, hok]⟩
    | cons a l =>
        obtain ⟨rfl, rfl⟩ := List.cons.inj hl
        obtain ⟨D, m, h1, h2, h3⟩ := ih l rfl (down _ hd)
        exact ⟨D, m, by rw [walk_dir hs1 hs2 hd, h1], h2, h3⟩
  · intro s target rest L hs1 hs2 hlk hlast hok ih l hl hhere
    cases l with
    | nil =>
        exact ⟨here, n + 1, walk_nil, hhere, by
          rw [List.nil_append] at hl; rw [hl, walk_link hs1 hs2 hlk hlast, hok]⟩
    | cons a l =>
        obtain ⟨rfl, rfl⟩ := List.cons.inj hl
        obtain ⟨D, m, h1, h2, h3⟩ :=
          ih (steps target ++ l) (List.append_assoc ..) (back target here hhere)
        exact ⟨D, m, by rw [walk_link hs1 hs2 hlk (by simp), h1], h2, h3⟩
  · intro s hs1 hs2 _ hnl l hl hhere
    cases l with
    | nil =>
        exact ⟨here, n, walk_nil, hhere, by
          rw [List.nil_append] at hl; rw [hl, walk_last hs1 hs2 hnl]⟩
    | cons a l =>
        obtain ⟨-, hnil⟩ := List.cons.inj hl
        exact absurd (List.append_eq_nil_iff.mp hnil).2 hr

/-- **In a tree, a walk through `l ++ r` is a walk through `l` to a directory, and on.** -/
theorem walk_append_ok (hR : Rooted look) (hhere : look here = some .dir)
    (h : walk look followLast n here (l ++ r) = .ok L) (hr : r ≠ []) :
    ∃ D m, walk look true n here l = .ok D ∧ look D = some .dir ∧
      walk look followLast m D r = .ok L :=
  walk_append_of (P := fun M => look M = some .dir) (fun _ => hR.dropLast)
    (fun target _ => hR.linkStart target) (fun _ => id) hhere h hr

/-- A walk goes nowhere from a name that is missing, with or without `.`s on the way. -/
theorem walk_missing {r m : List OsStr} (hR : Rooted look) (hhere : look here = some .dir)
    (h : walk look false n here l = .ok L) (hL : look L = none) (hr : r ≠ [])
    (hm : Thin (l ++ r) m) : walk look followLast n here m = .error .notFound := by
  refine walk_induction (Q := fun n here l L => look here = some .dir → look L = none →
      ∀ m, Thin (l ++ r) m → walk look followLast n here m = .error .notFound)
    ?_ ?_ ?_ ?_ ?_ ?_ h hhere hL m hm
  · intro n here hhere hL
    rw [hhere] at hL
    cases hL
  · intro n here rest L _ ih hhere hL m hm
    obtain ⟨m, hthin, hwalk⟩ := hm.walk_cons look followLast
    rw [hwalk, walk_dot]
    exact ih hhere hL m hthin
  · intro n here rest L _ ih hhere hL m hm
    obtain ⟨m, hthin, hwalk⟩ := hm.walk_cons look followLast
    rw [hwalk, walk_dotdot]
    exact ih (hR.dropLast hhere) hL m hthin
  · intro n here s rest L h1 h2 hd _ ih _ hL m hm
    obtain ⟨m, hthin, hwalk⟩ := hm.walk_cons look followLast
    rw [hwalk, walk_dir h1 h2 hd]
    exact ih hd hL m hthin
  · intro n here s target rest L h1 h2 hl _ _ ih hhere hL m hm
    obtain ⟨m, hthin, hwalk⟩ := hm.walk_cons look followLast
    have hne : m ≠ [] := by
      rintro rfl
      exact hr (List.append_eq_nil_iff.mp hthin.eq_nil).2
    rw [hwalk, walk_link h1 h2 hl (by simp [hne])]
    refine ih (hR.linkStart target hhere) hL _ ?_
    rw [List.append_assoc]
    exact hthin.append _
  · intro n here s h1 h2 _ _ _ hL m hm
    obtain ⟨m, hthin, hwalk⟩ := hm.walk_cons look followLast
    have hne : m ≠ [] := by
      rintro rfl
      exact hr hthin.eq_nil
    rw [hwalk, walk_cons h1 h2, hL]
    simp only
    rw [if_neg hne]

/-- A walk goes nowhere from a file. -/
theorem walk_into_file {i : Nat} (hR : Rooted look) (hhere : look here = some .dir)
    (h : walk look true n here l = .ok L) (hL : look L = some (.file i)) (hr : r ≠ []) :
    walk look followLast n here (l ++ r) = .error .notADirectory := by
  refine walk_induction (Q := fun n here l L => look here = some .dir → look L = some (.file i) →
      walk look followLast n here (l ++ r) = .error .notADirectory) ?_ ?_ ?_ ?_ ?_ ?_ h hhere hL
  · intro n here hhere hL
    rw [hhere] at hL
    cases hL
  · intro n here rest L _ ih hhere hL
    rw [List.cons_append, walk_dot]
    exact ih hhere hL
  · intro n here rest L _ ih hhere hL
    rw [List.cons_append, walk_dotdot]
    exact ih (hR.dropLast hhere) hL
  · intro n here s rest L h1 h2 hd _ ih _ hL
    rw [List.cons_append, walk_dir h1 h2 hd]
    exact ih hd hL
  · intro n here s target rest L h1 h2 hl _ _ ih hhere hL
    rw [List.cons_append, walk_link h1 h2 hl (by simp [hr]), ← List.append_assoc]
    exact ih (hR.linkStart target hhere) hL
  · intro n here s h1 h2 _ _ _ hL
    rw [List.cons_append, List.nil_append, walk_cons h1 h2, hL]
    exact if_neg hr

/-- Without following a link at the end, a walk ends where it would with, or at that link. -/
theorem walk_unfollowed (h : walk look true n here l = .ok L) :
    ∃ M, walk look false n here l = .ok M ∧ (M = L ∨ ∃ target, look M = some (.link target)) := by
  refine walk_induction (Q := fun n here l L => ∃ M, walk look false n here l = .ok M ∧
      (M = L ∨ ∃ target, look M = some (.link target))) ?_ ?_ ?_ ?_ ?_ ?_ h
  · exact fun n here => ⟨here, walk_nil, Or.inl rfl⟩
  · intro n here rest L _ ih
    rw [walk_dot]
    exact ih
  · intro n here rest L _ ih
    rw [walk_dotdot]
    exact ih
  · intro n here s rest L h1 h2 hd _ ih
    rw [walk_dir h1 h2 hd]
    exact ih
  · intro n here s target rest L h1 h2 hl _ _ ih
    by_cases hrest : rest = []
    · refine ⟨here ++ [s], ?_, Or.inr ⟨target, hl⟩⟩
      rw [hrest]
      exact walk_last h1 h2 (Or.inl rfl)
    · rw [walk_link h1 h2 hl (by simp [hrest])]
      exact ih
  · intro n here s h1 h2 _ _
    exact ⟨here ++ [s], walk_last h1 h2 (Or.inl rfl), Or.inl rfl⟩

/-- Where a walk comes to something that is there, it does so without following a link at
the end. -/
theorem walk_there (h : walk look true n here l = .ok L) (hL : look L ≠ none) :
    ∃ M, walk look false n here l = .ok M ∧ look M ≠ none := by
  obtain ⟨M, hM, rfl | ⟨target, hlink⟩⟩ := walk_unfollowed h
  · exact ⟨M, hM, hL⟩
  · exact ⟨M, hM, by simp [hlink]⟩

/-- A walk to something that is there comes to the same end where there is more. -/
theorem walk_bound (hmore : ∀ M e, look M = some e → look' M = some e)
    (h : walk look followLast n here l = .ok L) (hL : look L ≠ none) :
    walk look' followLast n here l = .ok L := by
  refine walk_induction (Q := fun n here l L => look L ≠ none →
      walk look' followLast n here l = .ok L) ?_ ?_ ?_ ?_ ?_ ?_ h hL
  · exact fun n here _ => walk_nil
  · intro n here rest L _ ih hL
    rw [walk_dot]
    exact ih hL
  · intro n here rest L _ ih hL
    rw [walk_dotdot]
    exact ih hL
  · intro n here s rest L h1 h2 hd _ ih hL
    rw [walk_dir h1 h2 (hmore _ _ hd)]
    exact ih hL
  · intro n here s target rest L h1 h2 hl hlast _ ih hL
    rw [walk_link h1 h2 (hmore _ _ hl) hlast]
    exact ih hL
  · intro n here s h1 h2 _ hnl hL
    obtain ⟨e, he⟩ := Option.ne_none_iff_exists'.mp hL
    refine walk_last h1 h2 (hnl.imp_right fun hnl target hlink => hnl target ?_)
    rw [he, Option.some.inj ((hmore _ _ he).symm.trans hlink)]

/-! ## Names where no link is met -/

/-- Names spell out where they lead, unless a link is met on the way; one at the end that
is not followed is not met. -/
theorem walk_names_of (hl : ∀ s ∈ l, IsName s)
    (hnl : ∀ p, p <+: l → p ≠ [] → (p = l → followLast = true) →
      ∀ target, look (here ++ p) ≠ some (.link target))
    (h : walk look followLast n here l = .ok L) : L = here ++ l := by
  induction l generalizing here with
  | nil => rw [List.append_nil, Except.ok.inj (walk_nil.symm.trans h)]
  | cons s l ih =>
      obtain ⟨hs, hl⟩ := List.forall_mem_cons.mp hl
      rcases walk_cons_ok h with ⟨rfl, -⟩ | ⟨rfl, -⟩ |
        ⟨-, ⟨-, h⟩ | ⟨target, -, hlink, -, hlast, -⟩ | hlast⟩
      · exact absurd rfl hs.2.2.1
      · exact absurd rfl hs.2.2.2
      · rw [List.append_cons]
        refine ih hl (fun p hp hne hlast target => ?_) h
        rw [← List.append_cons]
        exact hnl (s :: p) ((List.cons_prefix_cons).mpr ⟨rfl, hp⟩) (List.cons_ne_nil _ _)
          (fun he => hlast (List.cons.inj he).2) target
      · refine absurd hlink (hnl [s] (List.prefix_append [s] l) (List.cons_ne_nil _ _) ?_ target)
        intro he
        by_contra hfollow
        exact hlast ⟨(List.cons.inj he).2.symm, Bool.eq_false_iff.mpr hfollow⟩
      · obtain ⟨rfl, rfl, -⟩ := hlast
        rfl

theorem walk_names (hl : ∀ s ∈ l, IsName s)
    (hnl : ∀ p, p <+: l → p ≠ [] → ∀ target, look (here ++ p) ≠ some (.link target))
    (h : walk look followLast n here l = .ok L) : L = here ++ l :=
  walk_names_of hl (fun p hp hne _ => hnl p hp hne) h

/-- Names lead down through directories, to a last one that is no link to follow. -/
theorem walk_down (hl : ∀ s ∈ l, IsName s)
    (hdir : ∀ p, p <+: l → p ≠ [] → p ≠ l → look (here ++ p) = some .dir)
    (hlast : followLast = false ∨ ∀ target, look (here ++ l) ≠ some (.link target)) :
    walk look followLast n here l = .ok (here ++ l) := by
  induction l generalizing here with
  | nil => rw [walk_nil, List.append_nil]
  | cons s l ih =>
      obtain ⟨hs, hl⟩ := List.forall_mem_cons.mp hl
      by_cases hnil : l = []
      · subst hnil
        exact walk_last hs.2.2.1 hs.2.2.2 hlast
      · have hd : look (here ++ [s]) = some .dir :=
          hdir [s] (List.prefix_append [s] l) (List.cons_ne_nil _ _) (by simpa using Ne.symm hnil)
        rw [walk_dir hs.2.2.1 hs.2.2.2 hd, List.append_cons here s l]
        rw [List.append_cons here s l] at hlast
        refine ih hl (fun p hp hne hpl => ?_) hlast
        rw [← List.append_cons]
        exact hdir (s :: p) ((List.cons_prefix_cons).mpr ⟨rfl, hp⟩) (List.cons_ne_nil _ _)
          (by simpa using hpl)

/-! ## Where a walk ends -/

/-- A walk ends at something that is there, or at a new name in a directory.  The names
it can end with are the names `V` of the path and of the links. -/
theorem walk_place {V : OsStr → Prop} (hR : Rooted look) (hhere : look here = some .dir)
    (hV : ∀ s ∈ l, IsName s → V s)
    (hlinks : ∀ M target, look M = some (.link target) → ∀ s ∈ steps target, IsName s → V s)
    (hl : ∀ s ∈ l, IsSegment s) (h : walk look followLast n here l = .ok L) :
    look L ≠ none ∨ ∃ P s, L = P ++ [s] ∧ look P = some .dir ∧ IsName s ∧ V s := by
  have hsteps : ∀ target : OsStr, ∀ s ∈ steps target, IsSegment s := by
    intro target s hs
    unfold steps at hs
    split at hs
    · rcases List.mem_append.mp hs with hs | hs
      · exact mem_segments hs
      · rw [List.mem_singleton.mp hs]
        exact ⟨by decide, by decide⟩
    · exact mem_segments hs
  refine walk_induction (Q := fun n here l L => look here = some .dir → (∀ s ∈ l, IsName s → V s) →
      (∀ s ∈ l, IsSegment s) →
      look L ≠ none ∨ ∃ P s, L = P ++ [s] ∧ look P = some .dir ∧ IsName s ∧ V s)
    ?_ ?_ ?_ ?_ ?_ ?_ h hhere hV hl
  · exact fun n here hhere _ _ => Or.inl (by simp [hhere])
  · exact fun n here rest L _ ih hhere hV hl => ih hhere
      (fun s hs => hV s (List.mem_cons_of_mem _ hs)) (fun s hs => hl s (List.mem_cons_of_mem _ hs))
  · exact fun n here rest L _ ih hhere hV hl => ih (hR.dropLast hhere)
      (fun s hs => hV s (List.mem_cons_of_mem _ hs)) (fun s hs => hl s (List.mem_cons_of_mem _ hs))
  · exact fun n here s rest L _ _ hd _ ih _ hV hl => ih hd
      (fun s hs => hV s (List.mem_cons_of_mem _ hs)) (fun s hs => hl s (List.mem_cons_of_mem _ hs))
  · intro n here s target rest L _ _ hlink _ _ ih hhere hV hl
    refine ih (hR.linkStart target hhere) (fun a ha => ?_) (fun a ha => ?_)
    · rcases List.mem_append.mp ha with ha | ha
      · exact hlinks _ _ hlink a ha
      · exact hV a (List.mem_cons_of_mem _ ha)
    · rcases List.mem_append.mp ha with ha | ha
      · exact hsteps target a ha
      · exact hl a (List.mem_cons_of_mem _ ha)
  · intro n here s h1 h2 _ _ hhere hV hl
    have hs : IsName s := ⟨(hl s (by simp)).1, (hl s (by simp)).2, h1, h2⟩
    exact Or.inr ⟨here, s, rfl, hhere, hs, hV s (by simp) hs⟩

end Walk

end UnixPath

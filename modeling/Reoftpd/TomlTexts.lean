import Reoftpd.TomlReader

/-!
# TOML texts in parts

What the machine that reads TOML makes of a text that is continued, of a string that is
complete, and of an array that is not.
-/
namespace Reoftpd.Toml
open Place

variable {p p' : Place} {path : List String} {frames : List Frame} {x y cs : List Char}
  {ss : List Statement}

/-! ## Texts in parts -/

theorem statements_append : statements p (x ++ y) = (statements p x).bind fun r =>
    (statements r.1 y).map fun r' => (r'.1, r.2 ++ r'.2) := by
  induction x generalizing p with
  | nil => simp [statements, move]
  | cons c x ih =>
      rw [List.cons_append, statements, statements]
      cases h : p.step c with
      | none => rfl
      | some r =>
          simp only [ih]
          cases statements r.1 x with
          | none => rfl
          | some r' => cases h' : statements r'.1 y <;> simp [h']

/-- A text that a constant part leads on from leads where the constant part does. -/
theorem statements_behind (h : statements p x = some (p', ss)) :
    statements p (x ++ y) = (statements p' y).map fun r => (r.1, ss ++ r.2) := by
  simp [statements_append, h]

/-- What a text leads to begins where any of its parts ends. -/
theorem statements_split {r : Place × List Statement} (h : statements p x = some (p', ss))
    (hr : statements p (x ++ y) = some r) :
    ∃ ss', statements p' y = some (r.1, ss') ∧ r.2 = ss ++ ss' := by
  rw [statements_behind h] at hr
  obtain ⟨r', hr', rfl⟩ := Option.map_eq_some_iff.mp hr
  exact ⟨r'.2, hr', rfl⟩

theorem parse_eq_some : parse x = some ss ↔
    x.getLast? ≠ some '\r' ∧ statements .line (x ++ ['\n']) = some (.line, ss) := by
  unfold parse
  split
  · simp [*]
  · split
    · simp [*]
    · rename_i hn
      simp only [reduceCtorEq, false_iff, not_and]
      intro _ h
      exact hn ss h

/-- **What follows a line is read as if it came first.** -/
theorem parse_append (h : parse x = some ss) :
    parse (x ++ '\n' :: y) = (parse y).map fun ss' => ss ++ ss' := by
  obtain ⟨-, hx⟩ := parse_eq_some.mp h
  have hlast : (x ++ '\n' :: y).getLast? = some '\r' ↔ y.getLast? = some '\r' := by
    cases y using List.reverseRecOn with
    | nil => simp
    | append_singleton y c =>
        rw [show x ++ '\n' :: (y ++ [c]) = (x ++ '\n' :: y) ++ [c] by simp, List.getLast?_concat,
          List.getLast?_concat]
  have hread : statements .line (x ++ '\n' :: y ++ ['\n']) =
      (statements .line (y ++ ['\n'])).map fun r => (r.1, ss ++ r.2) := by
    rw [← statements_behind hx]
    simp
  unfold parse
  rw [hread]
  by_cases hy : y.getLast? = some '\r'
  · simp [hlast.mpr hy, hy]
  · rw [if_neg (hlast.not.mpr hy), if_neg hy]
    rcases hs : statements .line (y ++ ['\n']) with _ | ⟨p, ss'⟩
    · rfl
    · cases p <;> rfl

/-- The document of a text that is continued. -/
theorem read_append {d : Doc} (h : read x = some d) :
    read (x ++ '\n' :: y) = (parse y).bind fun ss => Doc.execAll ss d := by
  obtain ⟨ss, hx, hd⟩ := Option.bind_eq_some_iff.mp h
  unfold read
  rw [parse_append hx]
  cases parse y with
  | none => rfl
  | some ss' => simp [Doc.execAll_append, hd]

/-! ## Strings -/

theorem step_of_finish {n : Node} {r : Place × List Statement}
    (h : finish path frames n = some r) (c : Char) : r.1.step c = r.1.after c := by
  rcases frames with _ | ⟨f, frames⟩
  · cases h
    rfl
  · cases f with
    | array items =>
        cases h
        rfl
    | inline entries name =>
        simp only [finish] at h
        split at h
        · cases h
        · cases h
          rfl

/-- A string that is complete is a value, and what is behind it is behind the value. -/
theorem statements_basic {m : BasicMode} {v rest : List Char}
    (h : scan BasicMode.step m cs = some (v, rest)) :
    statements (.value path frames (.basic m)) cs =
      (finish path frames (.string (String.ofList v))).bind fun r =>
        (statements r.1 rest).map fun r' => (r'.1, r.2 ++ r'.2) := by
  induction cs generalizing m with
  | nil => cases h
  | cons c cs ih =>
      rw [statements, step, inValue]
      unfold scan at h
      split at h
      · cases h
      · rename_i m' hs
        rw [hs]
        simp only [scanned, move, ih h]
        cases finish path frames (.string (String.ofList v)) with
        | none => rfl
        | some r => simp [Option.map_map, Function.comp_def]
      · rename_i hs
        cases h
        rw [hs]
        simp only [scanned]
        cases finish path frames (.string (String.ofList v)) with
        | none => rfl
        | some r => rfl
      · rename_i hs
        cases h
        rw [hs]
        simp only [scanned, finishBefore]
        cases hf : finish path frames (.string (String.ofList v)) with
        | none => rfl
        | some r =>
            simp only [Option.bind_some, statements, step_of_finish hf]
            cases r.1.after c with
            | none => rfl
            | some r' => simp [Option.map_map, Function.comp_def]

/-- A string that is not complete is still being read where the text ends. -/
theorem statements_basic_none {m : BasicMode} (h : scan BasicMode.step m cs = none)
    {r : Place × List Statement} (hr : statements (.value path frames (.basic m)) cs = some r) :
    ∃ m', r.1 = .value path frames (.basic m') := by
  induction cs generalizing m r with
  | nil => exact ⟨m, congrArg Prod.fst (Option.some.inj hr).symm⟩
  | cons c cs ih =>
      rw [statements, step, inValue] at hr
      unfold scan at h
      split at h
      · rename_i hs
        simp [hs, scanned] at hr
      · rename_i m' hs
        rw [hs] at hr
        simp only [scanned, move] at hr
        obtain ⟨r', hr', rfl⟩ := Option.map_eq_some_iff.mp hr
        exact ih h hr'
      · cases h
      · cases h

/-- Where a text leads out of a string, the string is complete, and a value. -/
theorem scan_of_statements {m : BasicMode} {r : Place × List Statement}
    (h : statements (.value path frames (.basic m)) cs = some r)
    (hr : ∀ m', r.1 ≠ .value path frames (.basic m')) :
    ∃ v rest q ss', scan BasicMode.step m cs = some (v, rest) ∧
      finish path frames (.string (String.ofList v)) = some q ∧
      statements q.1 rest = some (r.1, ss') ∧ r.2 = q.2 ++ ss' := by
  cases hs : scan BasicMode.step m cs with
  | none =>
      obtain ⟨m', hm'⟩ := statements_basic_none hs h
      exact absurd hm' (hr m')
  | some e =>
      rw [statements_basic hs] at h
      obtain ⟨q, hq, h⟩ := Option.bind_eq_some_iff.mp h
      obtain ⟨r', hr', rfl⟩ := Option.map_eq_some_iff.mp h
      exact ⟨e.1, e.2, q, r'.2, rfl, hq, hr', rfl⟩

/-! ## Arrays in reading -/

/-- What a character makes of an outermost array with some items: the array goes on, or it
is the value of its pair, with those items and perhaps others behind them. -/
inductive Grows (path : List String) (items : List Node) : Place × List Statement → Prop where
  | more {frames items'} (m : ValueMode) (h : items <+: items') :
      Grows path items (.value path (frames ++ [.array items']) m, [])
  | done {items'} (p : Place) (h : items <+: items') :
      Grows path items (p, [.pair path (.array items')])

variable {items items' : List Node} {r : Place × List Statement} {c : Char}

theorem Grows.mono (h : Grows path items' r) (hi : items <+: items') : Grows path items r := by
  cases h with
  | more m h => exact .more m (hi.trans h)
  | done p h => exact .done p (hi.trans h)

theorem finish_grows {n : Node} (h : finish path (frames ++ [.array items]) n = some r) :
    ∃ frames' items' m,
      r = (.value path (frames' ++ [.array items']) m, []) ∧ items <+: items' := by
  cases frames with
  | nil =>
      cases h
      exact ⟨[], _, _, rfl, List.prefix_append ..⟩
  | cons f frames =>
      cases f with
      | array items₀ =>
          cases h
          exact ⟨.array (items₀ ++ [n]) :: frames, _, _, rfl, List.prefix_refl _⟩
      | inline entries name =>
          simp only [List.cons_append, finish] at h
          split at h
          · cases h
          · rename_i entries' _
            cases h
            exact ⟨.inline entries' [] :: frames, _, _, rfl, List.prefix_refl _⟩

theorem grows_of_finish {n : Node} (h : finish path (frames ++ [.array items]) n = some r) :
    Grows path items r := by
  obtain ⟨frames', items', m, rfl, hi⟩ := finish_grows h
  exact .more m hi

theorem grows_of_close (h : close path (frames ++ [.array items]) = some r) :
    Grows path items r := by
  cases frames with
  | nil =>
      cases h
      exact .done _ (List.prefix_refl _)
  | cons f frames =>
      cases f with
      | array items₀ => exact grows_of_finish h
      | inline entries name => exact grows_of_finish h

/-- A character that the place takes. -/
theorem grows_of_move (frames : List Frame) {m : ValueMode}
    (h : move (.value path (frames ++ [.array items]) m) = some r) : Grows path items r := by
  cases h
  exact .more m (List.prefix_refl _)

theorem grows_of_after {m : ValueMode}
    (h : after (.value path (frames ++ [.array items]) m) c = some r) : Grows path items r := by
  have hclose := @grows_of_close path frames items r
  rcases frames with _ | ⟨_ | _, frames⟩ <;> cases m <;>
    simp only [List.nil_append, List.cons_append, after] at h <;> try cases h
  · split_ifs at h <;> first | exact grows_of_move [] h | exact hclose h
  · split_ifs at h <;> first | exact grows_of_move (.array _ :: frames) h | exact hclose h
  · split_ifs at h <;> first | exact grows_of_move (.inline _ _ :: frames) h | exact hclose h

theorem grows_of_startValue (h : startValue path (frames ++ [.array items]) c = some r) :
    Grows path items r := by
  unfold startValue at h
  split_ifs at h
  · exact grows_of_move _ h
  · exact grows_of_move _ h
  · exact grows_of_move (.array [] :: frames) h
  · exact grows_of_move (.inline [] [] :: frames) h
  · exact grows_of_move _ h

theorem grows_of_finishBefore {n : Node}
    (h : finishBefore path (frames ++ [.array items]) n c = some r) : Grows path items r := by
  unfold finishBefore at h
  split at h
  · cases h
  · rename_i p ss hf
    obtain ⟨⟨p', ss'⟩, ha, rfl⟩ := Option.map_eq_some_iff.mp h
    obtain ⟨frames', items', m, he, hi⟩ := finish_grows hf
    cases he
    exact (grows_of_after ha).mono hi

theorem grows_of_scanned {M : Type} {mode : M → ValueMode} {o : Option (Scanned M (List Char))}
    (h : scanned path (frames ++ [.array items]) mode c o = some r) : Grows path items r := by
  rcases o with _ | _ | _ | _
  · cases h
  · exact grows_of_move _ h
  · exact grows_of_finish h
  · exact grows_of_finishBefore h

theorem grows_of_inValue {m : ValueMode}
    (h : inValue path (frames ++ [.array items]) m c = some r) : Grows path items r := by
  cases m with
  | before =>
      simp only [inValue] at h
      split at h
      · exact grows_of_move _ h
      · exact grows_of_startValue h
  | basic m => exact grows_of_scanned h
  | literal m => exact grows_of_scanned h
  | scalar acc =>
      simp only [inValue] at h
      split_ifs at h
      · exact grows_of_move _ h
      · exact grows_of_move _ h
      · split at h
        · cases h
        · exact grows_of_finishBefore h
  | dateSpace acc =>
      simp only [inValue] at h
      split at h
      · exact grows_of_move _ h
      · split at h
        · cases h
        · exact grows_of_finishBefore h
  | items =>
      simp only [inValue] at h
      split_ifs at h
      · exact grows_of_move _ h
      · exact grows_of_move _ h
      · exact grows_of_move _ h
      · exact grows_of_close h
      · exact grows_of_startValue h
  | comment behind | cr behind =>
      simp only [inValue] at h
      split_ifs at h <;> exact grows_of_move _ h
  | firstKey =>
      simp only [inValue] at h
      split_ifs at h
      · exact grows_of_move _ h
      · exact grows_of_close h
      · obtain ⟨k, -, rfl⟩ := Option.map_eq_some_iff.mp h
        exact .more _ (List.prefix_refl _)
  | key k =>
      have hkey : ∀ {o : Option KeyRead}, (o.map fun k =>
          (Place.value path (frames ++ [.array items]) (.key k), [])) = some r →
          Grows path items r := by
        intro o ho
        obtain ⟨k, -, rfl⟩ := Option.map_eq_some_iff.mp ho
        exact .more _ (List.prefix_refl _)
      rcases frames with _ | ⟨_ | _, frames⟩
      · exact hkey h
      · exact hkey h
      · rename_i entries name
        simp only [List.cons_append, inValue] at h
        split at h
        · rename_i he _
          cases he
          exact grows_of_move (.inline entries _ :: frames) h
        · exact hkey h
  | afterItem | afterPair => exact grows_of_after h

/-- **An array that is being read keeps its items**: where a text ends behind the pair, the
value of the pair is an array that begins with them. -/
theorem array_of_statements (frames : List Frame) {m : ValueMode}
    (h : statements (.value path (frames ++ [.array items]) m) cs = some (p, ss))
    (hp : ∀ frames m, p ≠ .value path frames m) :
    ∃ items' ss', ss = .pair path (.array items') :: ss' ∧ items <+: items' := by
  induction cs generalizing frames items m ss with
  | nil =>
      cases h
      exact absurd rfl (hp _ _)
  | cons c cs ih =>
      rw [statements, step] at h
      split at h
      · cases h
      · rename_i p' ss' hs
        obtain ⟨⟨p'', ss''⟩, hr, he⟩ := Option.map_eq_some_iff.mp h
        cases he
        cases grows_of_inValue hs with
        | more m' hi =>
            obtain ⟨items'', ss₁, rfl, hi'⟩ := ih _ hr
            exact ⟨items'', ss₁, rfl, hi.trans hi'⟩
        | done p' hi => exact ⟨_, ss'', rfl, hi⟩

end Reoftpd.Toml

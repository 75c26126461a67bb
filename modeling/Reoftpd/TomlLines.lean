import Reoftpd.TomlTexts

/-!
# Tables of strings in TOML

A table whose values are strings and arrays of strings, spliced between quotes as they are,
at the end of a text.  It says what the strings are exactly if they are plain
(`plain_of_stringLines`, `plain_of_array`).
-/
namespace Reoftpd.Toml
open Place

variable {p : Place} {path : List String} {x : List Char} {ss : List Statement} {items : List Node}

/-! ## Lines of a table -/

/-- A text that is its own value between quotes. -/
def Plain (s : String) : Prop := ∀ c ∈ s.toList, isBasicChar c = true

instance (s : String) : Decidable (Plain s) :=
  decidable_of_iff (s.toList.all isBasicChar = true) List.all_eq_true

/-- A line may begin so: with a character of a basic string, or empty. -/
def Begins (y : List Char) : Prop := ∃ d z, y = d :: z ∧ (isBasicChar d = true ∨ d = '\n')

/-- The opening of a line whose value is a string. -/
def stringOpening (k : String) : List Char := k.toList ++ [' ', '=', ' ', '\x22']

/-- A bare key. -/
structure OpensLine (k : String) : Prop where
  opens : statements .line (stringOpening k) = some (.value [k] [] (.basic .one), [])
  begins : ∀ y, Begins (stringOpening k ++ y)

/-- The text of pairs whose values are strings, a line for each, before another text. -/
def stringLines : List (String × String) → List Char → List Char
  | [], y => y
  | f :: fs, y => stringOpening f.1 ++ (f.2.toList ++ '\x22' :: '\n' :: stringLines fs y)

/-- The pair that such a line is. -/
def stringPair (f : String × String) : Statement := .pair [f.1] (.string f.2)

variable {k v : String} {y : List Char} {fs : List (String × String)}

theorem statements_stringLine (hk : OpensLine k) (hv : Plain v) :
    statements .line (stringOpening k ++ (v.toList ++ '\x22' :: '\n' :: y)) =
      (statements .line y).map fun r => (r.1, stringPair (k, v) :: r.2) := by
  rw [statements_behind hk.opens, statements_basic (BasicMode.scan_plain hv (by simp) (by simp))]
  simp [finish, statements, step, after, isWs, move, stringPair, Option.map_map, Function.comp_def]

/-- The value of a line is the text between its quotes only if that is plain. -/
theorem plain_of_stringLine (hk : OpensLine k) (hy : Begins y)
    (h : statements .line (stringOpening k ++ (v.toList ++ '\x22' :: '\n' :: y)) =
      some (.line, ss)) :
    ∃ v' ss', ss = stringPair (k, v') :: ss' ∧ (v' = v → Plain v) := by
  obtain ⟨ss₁, h, rfl⟩ := statements_split hk.opens h
  obtain ⟨v', rest, q, ss₂, hs, hq, -, rfl⟩ := scan_of_statements h (by simp)
  cases hq
  refine ⟨String.ofList v', ss₂, rfl, ?_⟩
  rintro rfl
  obtain ⟨d, z, rfl, hd⟩ := hy
  rw [String.toList_ofList] at hs
  unfold Plain
  rw [String.toList_ofList]
  exact BasicMode.plain_of_scan (.newline hd) (y := z) hs

theorem statements_stringLines (h : ∀ f ∈ fs, OpensLine f.1 ∧ Plain f.2) :
    statements .line (stringLines fs y) =
      (statements .line y).map fun r => (r.1, fs.map stringPair ++ r.2) := by
  induction fs with
  | nil => simp [stringLines]
  | cons f fs ih =>
      obtain ⟨hk, hv⟩ := h f (by simp)
      rw [stringLines, statements_stringLine hk hv, ih fun f hf => h f (by simp [hf])]
      simp [Option.map_map, Function.comp_def]

theorem begins_stringLines (hk : ∀ f ∈ fs, OpensLine f.1) (hy : Begins y) :
    Begins (stringLines fs y) := by
  cases fs with
  | nil => exact hy
  | cons f fs => exact (hk f (by simp)).begins _

/-- **Strings between quotes are the values of their lines only if they are plain.** -/
theorem plain_of_stringLines {d d' : Doc} {k : String} {ts : List Node} {t : Table}
    (hk : ∀ f ∈ fs, OpensLine f.1) (hy : Begins y) (hd : d.AtLast k ts t)
    (h : statements .line (stringLines fs y) = some (.line, ss))
    (he : Doc.execAll ss d = some d')
    (hv : ∀ f ∈ fs, d'.node.find [.key k, .item ts.length, .key f.1] = some (.string f.2)) :
    ∀ f ∈ fs, Plain f.2 := by
  induction fs generalizing d t ss with
  | nil => simp
  | cons f fs ih =>
      have hk' : ∀ f ∈ fs, OpensLine f.1 := fun f hf => hk f (by simp [hf])
      obtain ⟨v', ss', rfl, hplain⟩ :=
        plain_of_stringLine (hk f (by simp)) (begins_stringLines hk' hy) h
      obtain ⟨d₁, hd₁, he₁⟩ := Option.bind_eq_some_iff.mp he
      have hlast := hd.pair hd₁
      have hfound := (Doc.execAll_keeps he₁).string (hlast.find.trans Table.get_set)
      rw [hv f (by simp)] at hfound
      cases hfound
      have hf : Plain f.2 := hplain rfl
      rw [stringLines, statements_stringLine (hk f (by simp)) hf] at h
      obtain ⟨⟨p, ss₁⟩, hr, he'⟩ := Option.map_eq_some_iff.mp h
      cases he'
      exact List.forall_mem_cons.mpr
        ⟨hf, ih hk' hlast hr he₁ fun f hf => hv f (by simp [hf])⟩

/-! ## Arrays of strings -/

/-- The text of the items of an array behind its first, and what is behind the array. -/
def itemsText : List String → List Char → List Char
  | [], y => ']' :: y
  | it :: its, y => ',' :: ' ' :: '\x22' :: (it.toList ++ '\x22' :: itemsText its y)

/-- The text of an array that is not empty, behind its opening and its first quote. -/
def arrayText (it : String) (its : List String) (y : List Char) : List Char :=
  it.toList ++ '\x22' :: itemsText its y

variable {it : String} {its : List String}

theorem itemsText_follows : ∃ p z, BasicMode.Follows p ∧ itemsText its y = p ++ z := by
  cases its with
  | nil => exact ⟨[']'], y, .char rfl, rfl⟩
  | cons it its => exact ⟨[','], _, .char rfl, rfl⟩

theorem statements_item (h : Plain it) :
    statements (.value path [.array items] (.basic .one)) (arrayText it its y) =
      statements (.value path [.array (items ++ [.string it])] .afterItem) (itemsText its y) := by
  obtain ⟨p, z, hp, he⟩ := @itemsText_follows y its
  rw [arrayText, he, statements_basic (BasicMode.scan_plain h hp.not_quote (by simp [hp.ne_nil]))]
  simp [finish, move]

/-- Behind an item that is not the last. -/
theorem statements_nextItem :
    statements (.value path [.array items] .afterItem) (itemsText (it :: its) y) =
      statements (.value path [.array items] (.basic .one)) (arrayText it its y) := by
  simp [itemsText, arrayText, statements, step, inValue, after, startValue, move, isWs]

/-- Plain strings between quotes are the items of their array. -/
theorem statements_array (h : ∀ i ∈ it :: its, Plain i) :
    statements (.value path [.array items] (.basic .one)) (arrayText it its y) =
      (statements .ended y).map fun r =>
        (r.1, .pair path (.array (items ++ (it :: its).map .string)) :: r.2) := by
  induction its generalizing it items with
  | nil =>
      rw [statements_item (h it (by simp))]
      simp [itemsText, statements, step, inValue, after, finish, isWs]
  | cons it' its ih =>
      rw [statements_item (h it (by simp)), statements_nextItem,
        ih fun i hi => h i (List.mem_cons_of_mem _ hi)]
      simp

theorem plain_of_item (h : statements (.value path [.array items] (.basic .one))
    (arrayText it its y) = some (p, ss)) (hp : ∀ frames m, p ≠ .value path frames m) :
    ∃ items' ss', ss = .pair path (.array items') :: ss' ∧
      ∀ l, items' = items ++ .string it :: l → Plain it := by
  obtain ⟨v, rest, q, ss₁, hs, hq, hr, rfl⟩ := scan_of_statements h fun m => hp _ _
  cases hq
  obtain ⟨items', ss', rfl, hi⟩ := array_of_statements [] hr hp
  refine ⟨items', ss', rfl, ?_⟩
  rintro l rfl
  have hv : String.ofList v = it := by simpa using hi
  obtain ⟨p', z, hp', he⟩ := @itemsText_follows y its
  rw [← hv, arrayText, String.toList_ofList, he] at hs
  rw [← hv, Plain, String.toList_ofList]
  exact BasicMode.plain_of_scan hp' hs

/-- **Strings between quotes are the items of their array only if they are plain.** -/
theorem plain_of_array (h : statements (.value path [.array items] (.basic .one))
    (arrayText it its y) = some (p, ss)) (hp : ∀ frames m, p ≠ .value path frames m) :
    ∃ items' ss', ss = .pair path (.array items') :: ss' ∧
      (items' = items ++ (it :: its).map .string → ∀ i ∈ it :: its, Plain i) := by
  obtain ⟨items', ss', he, hit⟩ := plain_of_item h hp
  refine ⟨items', ss', he, fun hitems => ?_⟩
  have hplain := hit _ hitems
  induction its generalizing it items with
  | nil => simpa using hplain
  | cons it' its ih =>
      rw [statements_item hplain, statements_nextItem] at h
      obtain ⟨items'', ss'', he', hit'⟩ := plain_of_item h hp
      obtain ⟨hsame, -⟩ := List.cons.inj (he.symm.trans he')
      cases hsame
      have hitems' : items' = items ++ [.string it] ++ .string it' :: its.map .string := by
        simp [hitems]
      exact List.forall_mem_cons.mpr ⟨hplain, ih h hit' hitems' (hit' _ hitems')⟩

/-! ## A table at the end of a text -/

theorem arrayText_append {z : List Char} : arrayText it its y ++ z = arrayText it its (y ++ z) := by
  induction its generalizing it with
  | nil => simp [arrayText, itemsText]
  | cons it' its ih => simpa [arrayText, itemsText] using @ih it'

theorem stringLines_append {z : List Char} : stringLines fs y ++ z = stringLines fs (y ++ z) := by
  induction fs with
  | nil => rfl
  | cons f fs ih => simp [stringLines, ih]

theorem getLast?_stringLines (hy : y.getLast? ≠ some '\r') :
    (stringLines fs y).getLast? ≠ some '\r' := by
  induction fs with
  | nil => exact hy
  | cons f fs ih =>
      rw [stringLines, List.getLast?_append, List.getLast?_append, List.getLast?_cons,
        List.getLast?_cons]
      cases hl : (stringLines fs y).getLast? with
      | none => simp
      | some c => simpa [hl] using ih

/-- The header of a table in the array `k`. -/
def tableOpening (k : String) : List Char := ['[', '['] ++ k.toList ++ [']', ']', '\n']

/-- The entries that lines of strings are. -/
def stringEntries (fs : List (String × String)) : Table := fs.map fun f => (f.1, .string f.2)

/-- A bare key of an array of tables. -/
def OpensTable (k : String) : Prop :=
  statements .line (tableOpening k) = some (.line, [.arrayTable [k]])

theorem read_table {d d' : Doc} (hk : OpensTable k) (h : read x = some d)
    (hy : y.getLast? ≠ some '\r') :
    read (x ++ '\n' :: (tableOpening k ++ y)) = some d' ↔
      ∃ d₁ ss, d.arrayTable [k] = some d₁ ∧ statements .line (y ++ ['\n']) = some (.line, ss) ∧
        Doc.execAll ss d₁ = some d' := by
  have hlast : (tableOpening k ++ y).getLast? ≠ some '\r' := by
    rw [List.getLast?_append]
    cases hl : y.getLast? with
    | none =>
        rw [show tableOpening k = ['[', '['] ++ k.toList ++ [']', ']'] ++ ['\n'] by
          simp [tableOpening], List.getLast?_concat]
        simp
    | some c => simpa [hl] using hy
  have hs : statements .line (tableOpening k ++ y ++ ['\n']) =
      (statements .line (y ++ ['\n'])).map fun r => (r.1, .arrayTable [k] :: r.2) := by
    rw [List.append_assoc, statements_behind hk]
    rfl
  rw [read_append h, Option.bind_eq_some_iff]
  constructor
  · rintro ⟨ss, hp, he⟩
    obtain ⟨-, hp⟩ := parse_eq_some.mp hp
    rw [hs] at hp
    obtain ⟨⟨p, ss₁⟩, hp₁, he'⟩ := Option.map_eq_some_iff.mp hp
    cases he'
    obtain ⟨d₁, hd₁, he₁⟩ := Option.bind_eq_some_iff.mp he
    exact ⟨d₁, ss₁, hd₁, hp₁, he₁⟩
  · rintro ⟨d₁, ss, hd₁, hp, he⟩
    refine ⟨.arrayTable [k] :: ss, parse_eq_some.mpr ⟨hlast, by rw [hs, hp]; rfl⟩, ?_⟩
    simp [Doc.execAll, Doc.exec, hd₁, he]

theorem atLast_of_pairs {d d' : Doc} {ts : List Node} {t : Table} (hd : d.AtLast k ts t)
    (h : Doc.execAll (fs.map stringPair) d = some d') : ∃ t', d'.AtLast k ts t' := by
  induction fs generalizing d t with
  | nil =>
      cases h
      exact ⟨t, hd⟩
  | cons f fs ih =>
      obtain ⟨d₁, hd₁, h⟩ := Option.bind_eq_some_iff.mp h
      exact ih (hd.pair hd₁) h

/-- **What is read of a table at the end of a text.**  It is behind the tables that the
array has; if its strings are what they should be, they are plain, and what is left is the
rest of its lines. -/
theorem plain_of_table {d d' : Doc} (hk : OpensTable k) (hfs : ∀ f ∈ fs, OpensLine f.1)
    (hy : Begins (y ++ ['\n'])) (h : read x = some d)
    (hlast : (stringLines fs y).getLast? ≠ some '\r')
    (hr : read (x ++ '\n' :: (tableOpening k ++ stringLines fs y)) = some d') :
    ∃ ts ts' kind' t',
      (Table.get k d.root = none ∧ ts = [] ∨ Table.get k d.root = some (.tables ts)) ∧
      Table.get k d'.root = some (.tables ts') ∧ ts'[ts.length]? = some (.table kind' t') ∧
      ((∀ f ∈ fs, Table.get f.1 t' = some (.string f.2)) →
        (∀ f ∈ fs, Plain f.2) ∧ ∃ ss d₂ t, statements .line (y ++ ['\n']) = some (.line, ss) ∧
          d₂.AtLast k ts t ∧ Doc.execAll ss d₂ = some d') := by
  obtain ⟨d₁, ss, hd₁, hs, he⟩ := (read_table hk h hlast).mp hr
  obtain ⟨ts, hat, hts, -⟩ := Doc.atLast_of_arrayTable hd₁
  obtain ⟨ts', kind', t', hget, hlen⟩ := hat.stays (Doc.execAll_keeps he)
  refine ⟨ts, ts', kind', t', hts, hget, hlen, fun hv => ?_⟩
  rw [stringLines_append] at hs
  have hplain : ∀ f ∈ fs, Plain f.2 := plain_of_stringLines hfs hy hat hs he fun f hf => by
    simp [Doc.node, Node.find, Node.child, hget, hlen, hv f hf]
  refine ⟨hplain, ?_⟩
  rw [statements_stringLines fun f hf => ⟨hfs f hf, hplain f hf⟩] at hs
  obtain ⟨⟨p, ss₂⟩, hs₂, he'⟩ := Option.map_eq_some_iff.mp hs
  cases he'
  rw [Doc.execAll_append] at he
  obtain ⟨d₂, hd₂, he₂⟩ := Option.bind_eq_some_iff.mp he
  obtain ⟨t, hat₂⟩ := atLast_of_pairs hat hd₂
  exact ⟨ss₂, d₂, t, hs₂, hat₂, he₂⟩

/-- **Plain strings are read as what they are**, behind the tables that the array has. -/
theorem read_plainTable {d : Doc} {l : Table} {ts : List Node} (hk : OpensTable k)
    (hfs : ∀ f ∈ fs, OpensLine f.1 ∧ Plain f.2) (h : read x = some d)
    (hlast : (stringLines fs y).getLast? ≠ some '\r')
    (hy : statements .line (y ++ ['\n']) = some (.line, l.map fun e => .pair [e.1] e.2))
    (hl : ((stringEntries fs ++ l).map Prod.fst).Nodup)
    (hts : Table.get k d.root = none ∧ ts = [] ∨ Table.get k d.root = some (.tables ts)) :
    read (x ++ '\n' :: (tableOpening k ++ stringLines fs y)) =
      some
        ⟨Table.set k (.tables (ts ++ [.table .header (stringEntries fs ++ l)])) d.root, [k]⟩ := by
  refine (read_table hk h hlast).mpr
    ⟨⟨Table.set k (.tables (ts ++ [.table .header []])) d.root, [k]⟩, _, ?_, ?_,
      Doc.execAll_pairs (t := []) (l := stringEntries fs ++ l) hl⟩
  · rcases hts with ⟨hn, rfl⟩ | hs
    · simp [Doc.arrayTable, Table.under, Table.extend, hn]
    · simp [Doc.arrayTable, Table.under, Table.extend, hs]
  · rw [stringLines_append, statements_stringLines hfs, hy]
    simp [stringEntries, stringPair, Function.comp_def]

end Reoftpd.Toml

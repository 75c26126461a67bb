import Mathlib.Data.List.Basic

/-!
# TOML documents

What a TOML 1.0 text denotes: tables by the way they came to be, since that decides what may
still be added to them.  A table that a header only passed through may be defined by a
header of its own later; one that dotted keys made may get more dotted keys, one that a
header defined neither, and an inline table nothing at all.  An array of tables grows by
headers, an array that is written as a value does not.

Nothing that is there is ever changed: a statement adds to a document, or is refused
(`Doc.exec_keeps`).
-/
namespace Reoftpd.Toml

/-- How a table came to be. -/
inductive TableKind where
  | inline
  | implicit
  | dotted
  | header
  deriving DecidableEq

/-- A value.  Floating point numbers and times are kept as they are written; `array` is an
array value, `tables` an array of tables. -/
inductive Node where
  | string (s : String)
  | integer (i : Int)
  | float (text : String)
  | boolean (b : Bool)
  | dateTime (text : String)
  | array (items : List Node)
  | table (kind : TableKind) (entries : List (String × Node))
  | tables (items : List Node)

/-- The entries of a table, in the order in which they were added. -/
abbrev Table := List (String × Node)

namespace Table

/-- The value of a key. -/
def get (k : String) : Table → Option Node
  | [] => none
  | (k', n) :: t => if k' = k then some n else get k t

/-- A new value for a key, where it is, or else at the end. -/
def set (k : String) (n : Node) : Table → Table
  | [] => [(k, n)]
  | (k', n') :: t => if k' = k then (k, n) :: t else (k', n') :: set k n t

/-- The table at a key and what it is part of, if a path may lead through it; `dotted` if
the path is that of a dotted key.  A header leads to the last table of an array. -/
def enter (dotted : Bool) : Option Node → Option (Table × (Table → Node))
  | none => some ([], .table (if dotted then .dotted else .implicit))
  | some (.table .dotted t) => some (t, .table .dotted)
  | some (.table .implicit t) => some (t, .table (if dotted then .dotted else .implicit))
  | some (.table .header t) => if dotted then none else some (t, .table .header)
  | some (.tables ts) =>
      if dotted then none
      else
        match ts.getLast? with
        | some (.table kind t) => some (t, fun t' => .tables (ts.dropLast ++ [.table kind t']))
        | _ => none
  | some _ => none

/-- What `f` makes of the table that a path leads to. -/
def under (dotted : Bool) (f : Table → Option Table) : List String → Table → Option Table
  | [], t => f t
  | k :: path, t =>
      match enter dotted (get k t) with
      | none => none
      | some (inner, part) => (under dotted f path inner).map fun inner' => set k (part inner') t

/-- A value for a key that has none. -/
def put (k : String) (n : Node) (t : Table) : Option Table :=
  match get k t with
  | none => some (set k n t)
  | some _ => none

/-- A value for a dotted key. -/
def putDotted (path : List String) (n : Node) : Table → Option Table :=
  match path.getLast? with
  | none => fun _ => none
  | some k => under true (put k n) path.dropLast

/-- A header defines the table of a key. -/
def define (k : String) (t : Table) : Option Table :=
  match get k t with
  | none => some (set k (.table .header []) t)
  | some (.table .implicit inner) => some (set k (.table .header inner) t)
  | some _ => none

/-- A header adds a table to the array of a key. -/
def extend (k : String) (t : Table) : Option Table :=
  match get k t with
  | none => some (set k (.tables [.table .header []]) t)
  | some (.tables ts) => some (set k (.tables (ts ++ [.table .header []])) t)
  | some _ => none

end Table

/-- What a line of a text says. -/
inductive Statement where
  | pair (path : List String) (n : Node)
  | table (path : List String)
  | arrayTable (path : List String)

/-- A document, and the path of the header that the keys now read belong to. -/
structure Doc where
  root : Table
  current : List String

/-- The empty document. -/
def Doc.empty : Doc := ⟨[], []⟩

/-- A pair of a key and its value. -/
def Doc.pair (d : Doc) (path : List String) (n : Node) : Option Doc :=
  (Table.under false (Table.putDotted path n) d.current d.root).map fun root => ⟨root, d.current⟩

/-- The header of a table. -/
def Doc.table (d : Doc) (path : List String) : Option Doc :=
  match path.getLast? with
  | none => none
  | some k => (Table.under false (Table.define k) path.dropLast d.root).map fun root => ⟨root, path⟩

/-- The header of a table in an array. -/
def Doc.arrayTable (d : Doc) (path : List String) : Option Doc :=
  match path.getLast? with
  | none => none
  | some k => (Table.under false (Table.extend k) path.dropLast d.root).map fun root => ⟨root, path⟩

/-- What a statement makes of a document. -/
def Doc.exec (d : Doc) : Statement → Option Doc
  | .pair path n => d.pair path n
  | .table path => d.table path
  | .arrayTable path => d.arrayTable path

/-- What statements make of a document, one after the other. -/
def Doc.execAll : List Statement → Doc → Option Doc
  | [], d => some d
  | s :: ss, d => (d.exec s).bind (execAll ss)

/-! ## Tables -/

namespace Table

variable {k k' : String} {n : Node} {t : Table}

@[simp]
theorem get_set : get k (set k n t) = some n := by
  induction t with
  | nil => simp [set, get]
  | cons e t ih =>
      unfold set
      split
      · simp [get]
      · simp [get, *]

theorem get_set_of_ne (h : k' ≠ k) : get k' (set k n t) = get k' t := by
  induction t with
  | nil => simp [set, get, h.symm]
  | cons e t ih =>
      obtain ⟨k₀, n₀⟩ := e
      by_cases he : k₀ = k
      · subst he
        simp [set, get, h.symm]
      · simp [set, get, he, ih]

@[simp]
theorem set_set {n' : Node} : set k n' (set k n t) = set k n' t := by
  induction t with
  | nil => simp [set]
  | cons e t ih =>
      obtain ⟨k₀, n₀⟩ := e
      by_cases he : k₀ = k
      · simp [set, he]
      · simp [set, he, ih]

end Table

/-! ## Values are kept -/

/-- A step into a document: a key of a table, or a table of an array of tables. -/
inductive Step where
  | key (k : String)
  | item (i : Nat)

/-- What a step leads to. -/
def Node.child : Step → Node → Option Node
  | .key k, .table _ t => Table.get k t
  | .item i, .tables ts => ts[i]?
  | _, _ => none

/-- What a path leads to. -/
def Node.find : List Step → Node → Option Node
  | [], n => some n
  | s :: path, n => (n.child s).bind (Node.find path)

/-- A table stays a table and an array of tables one, while they grow; another value stays
what it is. -/
inductive Node.Stays : Node → Node → Prop where
  | refl (n : Node) : Stays n n
  | table {kind kind' : TableKind} {t t' : Table} : Stays (.table kind t) (.table kind' t')
  | tables {ts ts' : List Node} : Stays (.tables ts) (.tables ts')

/-- What is found in `n` stays in `n'`, at the same path. -/
def Node.Keeps (n n' : Node) : Prop :=
  ∀ path v, n.find path = some v → ∃ v', n'.find path = some v' ∧ v.Stays v'

namespace Node

variable {n n' n'' : Node} {kind kind' : TableKind} {t t' : Table} {ts ts' : List Node}

theorem Stays.trans (h : n.Stays n') (h' : n'.Stays n'') : n.Stays n'' := by
  cases h with
  | refl => exact h'
  | table =>
      cases h' <;> exact .table
  | tables =>
      cases h' <;> exact .tables

theorem Keeps.refl (n : Node) : n.Keeps n := fun _ v h => ⟨v, h, .refl v⟩

theorem Keeps.trans (h : n.Keeps n') (h' : n'.Keeps n'') : n.Keeps n'' := by
  intro path v hp
  obtain ⟨v', hp', hs⟩ := h path v hp
  obtain ⟨v'', hp'', hs'⟩ := h' path v' hp'
  exact ⟨v'', hp'', hs.trans hs'⟩

/-- A string stays where it is. -/
theorem Keeps.string {path : List Step} {s : String} (h : n.Keeps n')
    (hp : n.find path = some (.string s)) : n'.find path = some (.string s) := by
  obtain ⟨v, hp', hs⟩ := h path _ hp
  cases hs
  exact hp'

/-- An array that is a value stays where it is. -/
theorem Keeps.array {path : List Step} {items : List Node} (h : n.Keeps n')
    (hp : n.find path = some (.array items)) : n'.find path = some (.array items) := by
  obtain ⟨v, hp', hs⟩ := h path _ hp
  cases hs
  exact hp'

/-- What stays keeps what its children keep. -/
theorem keeps_of_child (hn : n.Stays n')
    (h : ∀ s c, n.child s = some c → ∃ c', n'.child s = some c' ∧ c.Keeps c') :
    n.Keeps n' := by
  intro path v hp
  cases path with
  | nil => exact ⟨n', rfl, Option.some.inj hp ▸ hn⟩
  | cons s path =>
      obtain ⟨c, hc, hp⟩ := Option.bind_eq_some_iff.mp hp
      obtain ⟨c', hc', hk⟩ := h s c hc
      obtain ⟨v', hv', hs⟩ := hk path v hp
      exact ⟨v', by simp [find, hc', hv'], hs⟩

theorem keeps_table
    (h : ∀ k c, Table.get k t = some c → ∃ c', Table.get k t' = some c' ∧ c.Keeps c') :
    (Node.table kind t).Keeps (.table kind' t') := by
  refine keeps_of_child .table fun s c hc => ?_
  cases s with
  | key k => exact h k c hc
  | item i => cases hc

theorem keeps_tables (h : ∀ (i : Nat) c, ts[i]? = some c → ∃ c', ts'[i]? = some c' ∧ c.Keeps c') :
    (Node.tables ts).Keeps (.tables ts') := by
  refine keeps_of_child .tables fun s c hc => ?_
  cases s with
  | key k => cases hc
  | item i => exact h i c hc

/-- A new value for a key has to keep the old one only. -/
theorem keeps_set {k : String} (h : ∀ c, Table.get k t = some c → c.Keeps n) :
    (Node.table kind t).Keeps (.table kind' (Table.set k n t)) := by
  refine keeps_table fun k' c hc => ?_
  by_cases hk : k' = k
  · subst hk
    exact ⟨n, Table.get_set, h c hc⟩
  · exact ⟨c, by rwa [Table.get_set_of_ne hk], .refl c⟩

theorem keeps_append (ts new : List Node) : (Node.tables ts).Keeps (.tables (ts ++ new)) := by
  refine keeps_tables fun i c hc => ⟨c, ?_, .refl c⟩
  obtain ⟨hi, -⟩ := List.getElem?_eq_some_iff.mp hc
  rwa [List.getElem?_append_left hi]

/-- The last table of an array may grow. -/
theorem keeps_last (h : n.Keeps n') (hl : ts.getLast? = some n) :
    (Node.tables ts).Keeps (.tables (ts.dropLast ++ [n'])) := by
  obtain ⟨ys, rfl⟩ := List.getLast?_eq_some_iff.mp hl
  rw [List.dropLast_concat]
  refine keeps_tables fun i c hc => ?_
  rcases Nat.lt_or_ge i ys.length with hi | hi
  · rw [List.getElem?_append_left hi] at hc ⊢
    exact ⟨c, hc, .refl c⟩
  · rw [List.getElem?_append_right hi] at hc
    rw [List.getElem?_append_right hi]
    obtain ⟨hi', rfl⟩ := List.getElem?_eq_some_iff.mp hc
    have h0 : i - ys.length = 0 := by simpa using hi'
    simp only [h0, List.getElem_cons_zero, List.getElem?_cons_zero]
    exact ⟨n', rfl, h⟩

end Node

namespace Table

variable {f : Table → Option Table} {k : String} {n : Node} {path : List String} {t t' : Table}

/-- The table that a step of a path leads to is part of what was there. -/
theorem keeps_of_enter {dotted : Bool} {o : Option Node} {part : Table → Node}
    (he : enter dotted o = some (t, part))
    (h : ∀ kind kind', (Node.table kind t).Keeps (.table kind' t')) :
    ∀ c ∈ o, c.Keeps (part t') := by
  intro c hc
  subst hc
  cases c with
  | table kind inner =>
      cases kind with
      | inline => cases he
      | implicit =>
          obtain ⟨rfl, rfl⟩ := Prod.mk.inj (Option.some.inj he)
          exact h _ _
      | dotted =>
          obtain ⟨rfl, rfl⟩ := Prod.mk.inj (Option.some.inj he)
          exact h _ _
      | header =>
          cases dotted
          · obtain ⟨rfl, rfl⟩ := Prod.mk.inj (Option.some.inj he)
            exact h _ _
          · cases he
  | tables ts =>
      cases dotted
      · simp only [enter, Bool.false_eq_true, if_false] at he
        split at he
        · rename_i kind inner hl
          obtain ⟨rfl, rfl⟩ := Prod.mk.inj (Option.some.inj he)
          exact Node.keeps_last (h kind kind) hl
        · cases he
      · cases he
  | _ => cases he

theorem keeps_of_under {dotted : Bool}
    (hf : ∀ t t', f t = some t' → ∀ kind kind', (Node.table kind t).Keeps (.table kind' t'))
    (h : under dotted f path t = some t') :
    ∀ kind kind', (Node.table kind t).Keeps (.table kind' t') := by
  induction path generalizing t t' with
  | nil => exact hf t t' h
  | cons k path ih =>
      unfold under at h
      split at h
      · cases h
      · rename_i inner part he
        obtain ⟨inner', hu, rfl⟩ := Option.map_eq_some_iff.mp h
        exact fun kind kind' => Node.keeps_set (keeps_of_enter he (ih hu))

theorem keeps_of_put (h : put k n t = some t') (kind kind' : TableKind) :
    (Node.table kind t).Keeps (.table kind' t') := by
  unfold put at h
  split at h
  · rename_i hk
    obtain rfl := Option.some.inj h
    exact Node.keeps_set (by simp [hk])
  · cases h

theorem keeps_of_putDotted (h : putDotted path n t = some t') (kind kind' : TableKind) :
    (Node.table kind t).Keeps (.table kind' t') := by
  cases hl : path.getLast? with
  | none => simp [putDotted, hl] at h
  | some k =>
      simp only [putDotted, hl] at h
      exact keeps_of_under (fun _ _ => keeps_of_put) h kind kind'

theorem keeps_of_define (h : define k t = some t') (kind kind' : TableKind) :
    (Node.table kind t).Keeps (.table kind' t') := by
  unfold define at h
  split at h
  · rename_i hk
    obtain rfl := Option.some.inj h
    exact Node.keeps_set (by simp [hk])
  · rename_i inner hk
    obtain rfl := Option.some.inj h
    refine Node.keeps_set fun c hc => ?_
    obtain rfl := Option.some.inj (hk.symm.trans hc)
    exact Node.keeps_table fun k c hc => ⟨c, hc, .refl c⟩
  · cases h

theorem keeps_of_extend (h : extend k t = some t') (kind kind' : TableKind) :
    (Node.table kind t).Keeps (.table kind' t') := by
  unfold extend at h
  split at h
  · rename_i hk
    obtain rfl := Option.some.inj h
    exact Node.keeps_set (by simp [hk])
  · rename_i ts hk
    obtain rfl := Option.some.inj h
    refine Node.keeps_set fun c hc => ?_
    obtain rfl := Option.some.inj (hk.symm.trans hc)
    exact Node.keeps_append _ _
  · cases h

end Table

/-- A document as a value. -/
def Doc.node (d : Doc) : Node := .table .header d.root

theorem Doc.exec_keeps {d d' : Doc} {s : Statement} (h : d.exec s = some d') :
    d.node.Keeps d'.node := by
  cases s with
  | pair path n =>
      obtain ⟨root, hu, rfl⟩ := Option.map_eq_some_iff.mp h
      exact Table.keeps_of_under (fun _ _ => Table.keeps_of_putDotted) hu _ _
  | table path =>
      simp only [exec, Doc.table] at h
      split at h
      · cases h
      · obtain ⟨root, hu, rfl⟩ := Option.map_eq_some_iff.mp h
        exact Table.keeps_of_under (fun _ _ => Table.keeps_of_define) hu _ _
  | arrayTable path =>
      simp only [exec, Doc.arrayTable] at h
      split at h
      · cases h
      · obtain ⟨root, hu, rfl⟩ := Option.map_eq_some_iff.mp h
        exact Table.keeps_of_under (fun _ _ => Table.keeps_of_extend) hu _ _

/-- **No statement takes away or changes a value.** -/
theorem Doc.execAll_keeps {ss : List Statement} {d d' : Doc} (h : Doc.execAll ss d = some d') :
    d.node.Keeps d'.node := by
  induction ss generalizing d with
  | nil => exact Option.some.inj h ▸ .refl _
  | cons s ss ih =>
      obtain ⟨d₁, hs, hss⟩ := Option.bind_eq_some_iff.mp h
      exact (exec_keeps hs).trans (ih hss)

theorem Doc.execAll_append {ss ss' : List Statement} {d : Doc} :
    Doc.execAll (ss ++ ss') d = (Doc.execAll ss d).bind (Doc.execAll ss') := by
  induction ss generalizing d with
  | nil => rfl
  | cons s ss ih => cases h : d.exec s <;> simp [execAll, h, ih]

/-! ## The last table of an array -/

/-- The keys that are read belong to the last table of the array `k`. -/
structure Doc.AtLast (d : Doc) (k : String) (ts : List Node) (t : Table) : Prop where
  current : d.current = [k]
  last : ∃ kind, Table.get k d.root = some (.tables (ts ++ [.table kind t]))

variable {d d' : Doc} {k k' : String} {ts : List Node} {t root : Table} {n : Node}
  {kind : TableKind}

/-- A header begins a table at the end of its array. -/
theorem Doc.atLast_of_arrayTable (h : d.arrayTable [k] = some d') :
    ∃ ts, d'.AtLast k ts [] ∧
      (Table.get k d.root = none ∧ ts = [] ∨ Table.get k d.root = some (.tables ts)) ∧
      d' = ⟨Table.set k (.tables (ts ++ [.table .header []])) d.root, [k]⟩ := by
  simp only [arrayTable, List.getLast?_singleton, List.dropLast_singleton, Table.under,
    Table.extend] at h
  split at h
  · cases h
    exact ⟨[], ⟨rfl, .header, Table.get_set⟩, .inl ⟨by assumption, rfl⟩, rfl⟩
  · rename_i ts hk
    cases h
    exact ⟨ts, ⟨rfl, .header, Table.get_set⟩, .inr hk, rfl⟩
  · cases h

theorem Doc.pair_lastTable (hc : d.current = [k])
    (hk : Table.get k d.root = some (.tables (ts ++ [.table kind t])))
    (hn : Table.get k' t = none) (n : Node) :
    d.pair [k'] n =
      some ⟨Table.set k (.tables (ts ++ [.table kind (Table.set k' n t)])) d.root, [k]⟩ := by
  simp [Doc.pair, hc, hk, hn, Table.under, Table.enter, Table.putDotted, Table.put]

theorem Doc.AtLast.pair (h : d.AtLast k ts t) (hp : d.pair [k'] n = some d') :
    d'.AtLast k ts (Table.set k' n t) := by
  obtain ⟨hc, kind, hk⟩ := h
  cases hn : Table.get k' t with
  | none =>
      rw [Doc.pair_lastTable hc hk hn] at hp
      cases hp
      exact ⟨rfl, kind, Table.get_set⟩
  | some n' =>
      simp [Doc.pair, hc, hk, hn, Table.under, Table.enter, Table.putDotted, Table.put] at hp

/-- The place of a value in the last table of an array. -/
theorem Doc.AtLast.find (h : d.AtLast k ts t) :
    d.node.find [.key k, .item ts.length, .key k'] = Table.get k' t := by
  obtain ⟨-, kind, hk⟩ := h
  simp [Doc.node, Node.find, Node.child, hk]

/-- The last table stays a table of the array. -/
theorem Doc.AtLast.stays (h : d.AtLast k ts t) (hk : d.node.Keeps d'.node) :
    ∃ ts' kind' t', Table.get k d'.root = some (.tables ts') ∧
      ts'[ts.length]? = some (.table kind' t') := by
  obtain ⟨-, kind, hl⟩ := h
  obtain ⟨v, hv, hs⟩ := hk [.key k, .item ts.length] (.table kind t)
    (by simp [Doc.node, Node.find, Node.child, hl])
  obtain ⟨a, ha, hv⟩ := Option.bind_eq_some_iff.mp hv
  obtain ⟨b, hb, hv⟩ := Option.bind_eq_some_iff.mp hv
  cases hv
  cases a with
  | tables ts' =>
      cases hs with
      | refl => exact ⟨ts', _, _, ha, hb⟩
      | table => exact ⟨ts', _, _, ha, hb⟩
  | _ => cases hb

theorem Table.get_eq_none : Table.get k t = none ↔ k ∉ t.map Prod.fst := by
  induction t with
  | nil => simp [Table.get]
  | cons e t ih =>
      obtain ⟨k₀, n₀⟩ := e
      by_cases he : k₀ = k
      · simp [Table.get, he]
      · simp [Table.get, he, ih, Ne.symm he]

theorem Table.set_of_get_none (h : Table.get k t = none) : Table.set k n t = t ++ [(k, n)] := by
  induction t with
  | nil => rfl
  | cons e t ih =>
      obtain ⟨k₀, n₀⟩ := e
      by_cases he : k₀ = k
      · simp [Table.get, he] at h
      · simp only [Table.get, he, if_false] at h
        simp [Table.set, he, ih h]

/-- Pairs fill the last table of an array in their order. -/
theorem Doc.execAll_pairs {l : Table} (h : ((t ++ l).map Prod.fst).Nodup) :
    Doc.execAll (l.map fun e => .pair [e.1] e.2)
        ⟨Table.set k (.tables (ts ++ [.table kind t])) root, [k]⟩ =
      some ⟨Table.set k (.tables (ts ++ [.table kind (t ++ l)])) root, [k]⟩ := by
  induction l generalizing t with
  | nil => simp [Doc.execAll]
  | cons e l ih =>
      have hn : Table.get e.1 t = none := by
        rw [Table.get_eq_none]
        intro hmem
        rw [List.map_append] at h
        exact (List.nodup_append.mp h).2.2 e.1 hmem e.1 (by simp) rfl
      simp only [List.map_cons, Doc.execAll, Doc.exec]
      rw [Doc.pair_lastTable rfl Table.get_set hn, Table.set_of_get_none hn]
      simpa using ih (t := t ++ [e]) (by simpa using h)

end Reoftpd.Toml

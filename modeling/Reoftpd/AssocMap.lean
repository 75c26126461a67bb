import Mathlib.Algebra.BigOperators.Group.List.Basic
import Mathlib.Algebra.GroupWithZero.Nat
import Mathlib.Data.List.AList

/-!
# Retaining and adding up the entries of a finite map

`HashMap::retain` visits every entry, may change its value and says whether it stays.
On association lists that is `AList.retain`: `lookup_retain` gives its one rule.

`AList.total` adds up a measure of the values.  `total_insert` and `total_eq` split off
what one key contributes, so an update of one key changes the total by the difference.
-/
namespace AList

variable {K V : Type*} [DecidableEq K]

/-- What is left of one entry. -/
def retainEntry (f : V → Option V) (e : Sigma fun _ : K => V) : Option (Sigma fun _ : K => V) :=
  (f e.2).map fun v => ⟨e.1, v⟩

omit [DecidableEq K] in
theorem keys_retainEntry_sublist (f : V → Option V) (l : List (Sigma fun _ : K => V)) :
    ((l.filterMap (retainEntry f)).keys).Sublist l.keys := by
  induction l with
  | nil => exact List.Sublist.refl _
  | cons e l ih =>
      cases h : f e.2 with
      | none =>
          rw [List.filterMap_cons_none (by simp [retainEntry, h])]
          exact ih.cons _
      | some v =>
          rw [List.filterMap_cons_some (b := ⟨e.1, v⟩) (by simp [retainEntry, h])]
          exact ih.cons_cons _

/-- Apply `f` to every value; an entry that gets `none` is dropped. -/
def retain (f : V → Option V) (m : AList fun _ : K => V) : AList fun _ : K => V :=
  ⟨m.entries.filterMap (retainEntry f),
    List.Nodup.sublist (keys_retainEntry_sublist f _) m.keys_nodup⟩

@[simp] theorem lookup_retain (f : V → Option V) (m : AList fun _ : K => V) (k : K) :
    (m.retain f).lookup k = (m.lookup k).bind f := by
  refine Option.ext fun v => ?_
  rw [← Option.mem_def, mem_lookup_iff, Option.bind_eq_some_iff]
  simp only [retain, List.mem_filterMap, retainEntry, Option.map_eq_some_iff]
  constructor
  · rintro ⟨⟨k', w⟩, hmem, v', hf, he⟩
    cases he
    exact ⟨w, mem_lookup_iff.mpr hmem, hf⟩
  · rintro ⟨w, hw, hf⟩
    exact ⟨⟨k, w⟩, mem_lookup_iff.mp hw, v, hf, rfl⟩

/-! ## The total of a measure of the values -/

/-- The sum of `f` over the values. -/
def total (f : V → Nat) (m : AList fun _ : K => V) : Nat := (m.entries.map fun e => f e.2).sum

omit [DecidableEq K] in
@[simp] theorem total_empty (f : V → Nat) : (∅ : AList fun _ : K => V).total f = 0 := rfl

theorem total_insert (f : V → Nat) (m : AList fun _ : K => V) (k : K) (v : V) :
    (m.insert k v).total f = f v + (m.erase k).total f := rfl

/-- A bound key comes first, but for the order. -/
theorem entries_perm_insert {m : AList fun _ : K => V} {k : K} {v : V} (h : m.lookup k = some v) :
    m.entries.Perm (m.insert k v).entries := by
  refine List.lookup_ext m.nodupKeys (m.insert k v).nodupKeys fun x y => ?_
  show y ∈ m.lookup x ↔ y ∈ (m.insert k v).lookup x
  by_cases hx : x = k
  · subst hx
    rw [h, lookup_insert]
  · rw [lookup_insert_ne hx]

/-- A bound key contributes its value. -/
theorem total_of_lookup (f : V → Nat) {m : AList fun _ : K => V} {k : K} {v : V}
    (h : m.lookup k = some v) : m.total f = f v + (m.erase k).total f :=
  ((entries_perm_insert h).map _).sum_eq

/-- A key that is not bound contributes nothing. -/
theorem total_of_lookup_none (f : V → Nat) {m : AList fun _ : K => V} {k : K}
    (h : m.lookup k = none) : m.total f = (m.erase k).total f := by
  have hk : k ∉ m.entries.keys := lookup_eq_none.mp h
  show _ = ((m.entries.kerase k).map fun e => f e.2).sum
  rw [List.kerase_of_notMem_keys hk]
  rfl

omit [DecidableEq K] in
/-- After `retain`, every entry that was there counts as what is left of it. -/
theorem total_retain (f : V → Nat) (g : V → Option V) (m : AList fun _ : K => V) :
    (m.retain g).total f = m.total fun v => ((g v).map f).getD 0 := by
  show ((m.entries.filterMap (retainEntry g)).map fun e => f e.2).sum = _
  unfold total
  induction m.entries with
  | nil => rfl
  | cons e l ih =>
      cases hg : g e.2 with
      | none =>
          rw [List.filterMap_cons_none (by simp [retainEntry, hg])]
          simpa [hg] using ih
      | some v =>
          rw [List.filterMap_cons_some (b := ⟨e.1, v⟩) (by simp [retainEntry, hg])]
          simpa [hg] using ih

omit [DecidableEq K] in
theorem total_add (f g : V → Nat) (m : AList fun _ : K => V) :
    (m.total fun v => f v + g v) = m.total f + m.total g :=
  List.sum_map_add

/-- One value is part of the total. -/
theorem le_total (f : V → Nat) {m : AList fun _ : K => V} {k : K} {v : V}
    (h : m.lookup k = some v) : f v ≤ m.total f := by
  rw [total_of_lookup f h]
  exact Nat.le_add_right ..

end AList

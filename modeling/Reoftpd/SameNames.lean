import Mathlib.Data.Set.Insert
import Reoftpd.Disk

/-!
# Some names of a disk

What a program that works on some names of a disk can tell of it (`SameNames`): what each
of them is bound to, the bytes of the files, and which of them are names of one file.  The
numbers of the inodes are not among it, nor is anything that other names are bound to.

`OnlyAt W` is what a program that works on the names of `W` leaves alone: all other names,
and the bytes of every file that has none of its names in `W`.  It leaves what a program on
other names can tell as it is if no file has names of both (`SameNames.other`).
-/
namespace Disk
variable {N T : Type} [DecidableEq N]

/-- Two names are bound alike, each on its disk: files hold the same bytes. -/
inductive SameEntry (d d' : Disk N T) : Option (Entry T) → Option (Entry T) → Prop
  | absent : SameEntry d d' none none
  | dir : SameEntry d d' (some .dir) (some .dir)
  | link (target : T) : SameEntry d d' (some (.link target)) (some (.link target))
  | file (i j : Nat) (bytes : d.data i = d'.data j) :
      SameEntry d d' (some (.file i)) (some (.file j))

/-- **The names of `W` look the same** on two disks. -/
structure SameNames (W : Set N) (d d' : Disk N T) : Prop where
  entry : ∀ n ∈ W, SameEntry d d' (d.lookup n) (d'.lookup n)
  twins : ∀ n ∈ W, ∀ m ∈ W, ∀ i j, d.lookup n = some (.file i) → d'.lookup n = some (.file j) →
    (d.lookup m = some (.file i) ↔ d'.lookup m = some (.file j))
  dirSize : d.dirSize = d'.dirSize

/-- **Only the names of `W` were worked on.** -/
structure OnlyAt (W : Set N) (d d' : Disk N T) : Prop where
  entry : ∀ n, n ∉ W → d'.lookup n = d.lookup n
  data : ∀ i, i < d.fresh → (∀ n ∈ W, d.lookup n ≠ some (.file i)) → d'.data i = d.data i
  bound : ∀ n ∈ W, ∀ i, d'.lookup n = some (.file i) →
    (∃ m ∈ W, d.lookup m = some (.file i)) ∨ d.fresh ≤ i
  dirSize : d'.dirSize = d.dirSize

section Facts
variable {W W' : Set N} {d d' e : Disk N T} {n m : N} {i j : Nat} {b : Bytes}

theorem SameEntry.symm {x y : Option (Entry T)} (h : SameEntry d d' x y) : SameEntry d' d y x := by
  cases h with
  | absent => exact .absent
  | dir => exact .dir
  | link target => exact .link target
  | file i j hbytes => exact .file j i hbytes.symm

theorem SameNames.refl (W : Set N) (d : Disk N T) : SameNames W d d where
  entry n _ := by
    cases d.lookup n with
    | none => exact .absent
    | some x =>
        cases x with
        | dir => exact .dir
        | link target => exact .link target
        | file i => exact .file i i rfl
  twins n _ m _ i j hi hj := by
    rw [hi] at hj
    cases hj
    exact Iff.rfl
  dirSize := rfl

theorem SameNames.symm (h : SameNames W d d') : SameNames W d' d where
  entry n hn := (h.entry n hn).symm
  twins n hn m hm i j hi hj := (h.twins n hn m hm j i hj hi).symm
  dirSize := h.dirSize.symm

/-- A name of the one disk is absent where it is absent on the other. -/
theorem SameNames.absent (h : SameNames W d d') (hn : n ∈ W) (hd : d.lookup n = none) :
    d'.lookup n = none := by
  have hentry := h.entry n hn
  rw [hd] at hentry
  generalize d'.lookup n = y at hentry ⊢
  cases hentry
  rfl

theorem SameNames.file (h : SameNames W d d') (hn : n ∈ W) (hi : d.lookup n = some (.file i)) :
    ∃ j, d'.lookup n = some (.file j) ∧ d.data i = d'.data j := by
  have hentry := h.entry n hn
  rw [hi] at hentry
  generalize d'.lookup n = y at hentry ⊢
  cases hentry with
  | file _ j hbytes => exact ⟨j, rfl, hbytes⟩

/-- The same bytes are read by the name. -/
theorem SameNames.read (h : SameNames W d d') (hn : n ∈ W) : d.read n = d'.read n := by
  have hentry := h.entry n hn
  unfold Disk.read Disk.ino
  generalize d.lookup n = x at hentry ⊢
  generalize d'.lookup n = y at hentry ⊢
  cases hentry with
  | absent => rfl
  | dir => rfl
  | link target => rfl
  | file i j hbytes => exact congrArg some hbytes

/-! ## The same operation on both -/

/-- Two names are bound alike after operations that leave the bytes there as they are. -/
theorem SameEntry.of_data {e e' : Disk N T} {x y : Option (Entry T)} (h : SameEntry d d' x y)
    (hx : ∀ i, x = some (.file i) → e.data i = d.data i)
    (hy : ∀ j, y = some (.file j) → e'.data j = d'.data j) : SameEntry e e' x y := by
  cases h with
  | absent => exact .absent
  | dir => exact .dir
  | link target => exact .link target
  | file i j hbytes => exact .file i j (by rw [hx i rfl, hy j rfl, hbytes])

/-- A name goes. -/
theorem SameNames.erase (h : SameNames W d d') (n : N) :
    SameNames W (d.erase n) (d'.erase n) where
  entry m hm := by
    by_cases hmn : m = n
    · subst hmn
      rw [lookup_erase_self, lookup_erase_self]
      exact .absent
    · rw [lookup_erase_ne hmn, lookup_erase_ne hmn]
      exact (h.entry m hm).of_data (fun _ _ => rfl) fun _ _ => rfl
  twins m hm k hk i j hi hj := by
    have hmn : m ≠ n := by
      rintro rfl
      rw [lookup_erase_self] at hi
      cases hi
    rw [lookup_erase_ne hmn] at hi hj
    by_cases hkn : k = n
    · subst hkn
      simp
    · rw [lookup_erase_ne hkn, lookup_erase_ne hkn]
      exact h.twins m hm k hk i j hi hj
  dirSize := h.dirSize

/-- A new name of what another name is bound to. -/
theorem SameNames.bind {x y : Entry T} (h : SameNames W d d') (hm : m ∈ W)
    (hx : d.lookup m = some x) (hy : d'.lookup m = some y) (n : N) (hlt) (hlt') :
    SameNames W (d.bind n x hlt) (d'.bind n y hlt') where
  entry k hk := by
    by_cases hkn : k = n
    · subst hkn
      rw [lookup_bind_self, lookup_bind_self, ← hx, ← hy]
      exact (h.entry m hm).of_data (fun _ _ => rfl) fun _ _ => rfl
    · rw [lookup_bind_ne _ hkn, lookup_bind_ne _ hkn]
      exact (h.entry k hk).of_data (fun _ _ => rfl) fun _ _ => rfl
  twins k hk l hl i j hi hj := by
    -- the new name has the twins of the old one
    by_cases hkn : k = n
    · subst hkn
      rw [lookup_bind_self, ← hx] at hi
      rw [lookup_bind_self, ← hy] at hj
      by_cases hlk : l = k
      · subst hlk
        rw [lookup_bind_self, lookup_bind_self, ← hx, ← hy]
        simp [hi, hj]
      · rw [lookup_bind_ne _ hlk, lookup_bind_ne _ hlk]
        exact h.twins m hm l hl i j hi hj
    · rw [lookup_bind_ne _ hkn] at hi hj
      by_cases hln : l = n
      · subst hln
        rw [lookup_bind_self, lookup_bind_self, ← hx, ← hy]
        exact h.twins k hk m hm i j hi hj
      · rw [lookup_bind_ne _ hln, lookup_bind_ne _ hln]
        exact h.twins k hk l hl i j hi hj
  dirSize := h.dirSize

/-- The outcomes of a hard link. -/
theorem hardLink_cases (d : Disk N T) (src dst : N) :
    (d.lookup src = none ∧ d.hardLink src dst = .error .notFound) ∨
      ∃ x, d.lookup src = some x ∧
        ((d.lookup dst ≠ none ∧ d.hardLink src dst = .error .alreadyExists) ∨
          (d.lookup dst = none ∧ x.isDir = true ∧ d.hardLink src dst = .error (.other 1)) ∨
          (d.lookup dst = none ∧ x.isDir = false ∧
            ∃ hlt, d.hardLink src dst = .ok (d.bind dst x hlt))) := by
  unfold hardLink
  split
  · rename_i hs
    exact Or.inl ⟨hs, rfl⟩
  · rename_i x hs
    refine Or.inr ⟨x, hs, ?_⟩
    cases hd : d.lookup dst with
    | some y => exact Or.inl ⟨by simp, rfl⟩
    | none =>
        cases hdir : x.isDir with
        | true => exact Or.inr (Or.inl ⟨rfl, rfl, by simp⟩)
        | false =>
            exact Or.inr (Or.inr ⟨rfl, rfl, fun i hi => d.file_lt_fresh src i (hi ▸ hs), by simp⟩)

/-- A new, empty file. -/
theorem SameNames.create (h : SameNames W d d') (n : N) :
    SameNames W (d.create n) (d'.create n) where
  entry m hm := by
    by_cases hmn : m = n
    · subst hmn
      rw [lookup_create_self, lookup_create_self]
      exact .file _ _ (by simp)
    · rw [lookup_create_ne hmn, lookup_create_ne hmn]
      refine (h.entry m hm).of_data (fun i hi => ?_) fun j hj => ?_
      · exact data_create_ne (Nat.ne_of_lt (d.file_lt_fresh m i hi))
      · exact data_create_ne (Nat.ne_of_lt (d'.file_lt_fresh m j hj))
  twins m hm k hk i j hi hj := by
    by_cases hmn : m = n
    · subst hmn
      rw [lookup_create_self] at hi hj
      cases hi
      cases hj
      by_cases hkm : k = m
      · subst hkm
        simp
      · -- no other name is bound to the new file yet
        rw [lookup_create_ne hkm, lookup_create_ne hkm]
        refine iff_of_false (fun hk' => ?_) fun hk' => ?_
        · exact Nat.lt_irrefl _ (d.file_lt_fresh k _ hk')
        · exact Nat.lt_irrefl _ (d'.file_lt_fresh k _ hk')
    · rw [lookup_create_ne hmn] at hi hj
      by_cases hkn : k = n
      · subst hkn
        rw [lookup_create_self, lookup_create_self]
        have hne : d.fresh ≠ i := (Nat.ne_of_lt (d.file_lt_fresh m i hi)).symm
        have hne' : d'.fresh ≠ j := (Nat.ne_of_lt (d'.file_lt_fresh m j hj)).symm
        simp [hne, hne']
      · rw [lookup_create_ne hkn, lookup_create_ne hkn]
        exact h.twins m hm k hk i j hi hj
  dirSize := h.dirSize

/-- New bytes for a file that has one of the names. -/
theorem SameNames.setData (h : SameNames W d d') (hn : n ∈ W) (hi : d.lookup n = some (.file i))
    (hj : d'.lookup n = some (.file j)) (b : Bytes) :
    SameNames W (d.setData i b) (d'.setData j b) where
  entry m hm := by
    have hentry := h.entry m hm
    have htwins := h.twins n hn m hm i j hi hj
    rw [lookup_setData, lookup_setData]
    generalize d.lookup m = x at hentry htwins ⊢
    generalize d'.lookup m = y at hentry htwins ⊢
    cases hentry with
    | absent => exact .absent
    | dir => exact .dir
    | link target => exact .link target
    | file i' j' hbytes =>
        refine .file i' j' ?_
        by_cases hi' : i' = i
        · subst hi'
          obtain rfl : j' = j := by simpa using htwins
          rw [data_setData_self, data_setData_self]
        · have hj' : j' ≠ j := fun hj' => hi' (by simpa [hj'] using htwins)
          rw [data_setData_ne b hi', data_setData_ne b hj', hbytes]
  twins := h.twins
  dirSize := h.dirSize

/-! ## Work on other names -/

theorem OnlyAt.refl (W : Set N) (d : Disk N T) : OnlyAt W d d where
  entry _ _ := rfl
  data _ _ _ := rfl
  bound n hn _ hi := Or.inl ⟨n, hn, hi⟩
  dirSize := rfl

theorem onlyAt_erase (hn : n ∈ W) : OnlyAt W d (d.erase n) where
  entry m hm := lookup_erase_ne fun hmn => hm (hmn ▸ hn)
  data _ _ _ := rfl
  bound m hm i hi := by
    have hmn : m ≠ n := by
      rintro rfl
      rw [lookup_erase_self] at hi
      cases hi
    rw [lookup_erase_ne hmn] at hi
    exact Or.inl ⟨m, hm, hi⟩
  dirSize := rfl

theorem onlyAt_bind {x : Entry T} (hn : n ∈ W) (hm : m ∈ W) (hx : d.lookup m = some x) (hlt) :
    OnlyAt W d (d.bind n x hlt) where
  entry k hk := lookup_bind_ne _ fun hkn => hk (hkn ▸ hn)
  data _ _ _ := rfl
  bound k hk i hi := by
    by_cases hkn : k = n
    · subst hkn
      rw [lookup_bind_self] at hi
      cases hi
      exact Or.inl ⟨m, hm, hx⟩
    · rw [lookup_bind_ne _ hkn] at hi
      exact Or.inl ⟨k, hk, hi⟩
  dirSize := rfl

theorem onlyAt_create (hn : n ∈ W) : OnlyAt W d (d.create n) where
  entry m hm := lookup_create_ne fun hmn => hm (hmn ▸ hn)
  data i hi _ := data_create_ne (Nat.ne_of_lt hi)
  bound m hm i hi := by
    by_cases hmn : m = n
    · subst hmn
      rw [lookup_create_self] at hi
      cases hi
      exact Or.inr (Nat.le_refl _)
    · rw [lookup_create_ne hmn] at hi
      exact Or.inl ⟨m, hm, hi⟩
  dirSize := rfl

theorem onlyAt_setData (hn : n ∈ W) (hi : d.lookup n = some (.file i)) (b : Bytes) :
    OnlyAt W d (d.setData i b) where
  entry _ _ := rfl
  data _ _ hne := data_setData_ne b fun hji => hne n hn (hji ▸ hi)
  bound m hm _ hj := Or.inl ⟨m, hm, hj⟩
  dirSize := rfl

/-- No file has a name in `W` and one in `W'`. -/
def NoShared (W W' : Set N) (d : Disk N T) : Prop :=
  ∀ n ∈ W, ∀ m ∈ W', ∀ i, d.lookup n = some (.file i) → d.lookup m ≠ some (.file i)

theorem NoShared.symm (h : NoShared W W' d) : NoShared W' W d :=
  fun n hn m hm i hi hj => h m hm n hn i hj hi

/-- **Work on other names** makes no difference. -/
theorem SameNames.other (h : SameNames W d d') (hdisj : ∀ n ∈ W, n ∉ W')
    (hshared : NoShared W W' d) (honly : OnlyAt W' d e) : SameNames W e d' where
  entry n hn := by
    rw [honly.entry n (hdisj n hn)]
    refine (h.entry n hn).of_data (fun i hi => ?_) fun _ _ => rfl
    exact honly.data i (d.file_lt_fresh n i hi) fun m hm => hshared n hn m hm i hi
  twins n hn m hm := by
    rw [honly.entry n (hdisj n hn), honly.entry m (hdisj m hm)]
    exact h.twins n hn m hm
  dirSize := honly.dirSize.trans h.dirSize

/-- Files stay without names of both. -/
theorem NoShared.onlyAt (h : NoShared W W' d) (hdisj : ∀ n ∈ W, n ∉ W') (honly : OnlyAt W' d e) :
    NoShared W W' e := by
  intro n hn m hm i hi hj
  rw [honly.entry n (hdisj n hn)] at hi
  rcases honly.bound m hm i hj with ⟨k, hk, hik⟩ | hfresh
  · exact h n hn k hk i hi hik
  · exact Nat.not_le.mpr (d.file_lt_fresh n i hi) hfresh

/-- And without names of two others. -/
theorem NoShared.onlyAt_third {V : Set N} (h : NoShared W W' d) (hW : ∀ n ∈ W, n ∉ V)
    (hW' : ∀ n ∈ W', n ∉ V) (honly : OnlyAt V d e) : NoShared W W' e := by
  intro n hn m hm i hi
  rw [honly.entry n (hW n hn)] at hi
  rw [honly.entry m (hW' m hm)]
  exact h n hn m hm i hi

end Facts
end Disk

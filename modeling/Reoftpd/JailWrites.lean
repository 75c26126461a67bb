import Reoftpd.Backend

/-!
# What a request writes

Where the home of an uploader has no links at or below it, a request of that uploader
writes where its names say: a store at the location its virtual path spells and at the
staging name beside it (`storePlace_of_resolve`), a probe at its name in the quarantine
directory (`putProbe_writes`).  Whatever else is there stays, and so do the links, so a
home that is free of links stays free of them (`grows_afterRequest`).
-/
namespace Reoftpd
open UnixPath FileTree

/-- The home of the user, if it is an uploader, has no links at or below it. -/
def JailFree (t : FileTree) (user : ReoUser) : Prop :=
  ∀ home, user.role = .uploader home → t.LinkFree home

theorem JailFree.of_sameLinks {t t' : FileTree} {user : ReoUser} (h : JailFree t user)
    (hs : SameLinks t t') : JailFree t' user :=
  fun home hrole => (h home hrole).of_sameLinks hs

/-! ## The ways through `put` -/

section Put
variable {age : Age} {backend : ReoBackend age} {faults : PutFaults} {seed : age.Seed}
  {user : ReoUser} {path : OsStr} {startPos : Nat} {input : Input} {t : FileTree}

/-- The ways through `put`: refused, into the quarantine, or stored. -/
inductive PutCase (backend : ReoBackend age) (faults : PutFaults) (seed : age.Seed)
    (user : ReoUser) (path : OsStr) (startPos : Nat) (input : Input) (t : FileTree) :
    FileTree × Except StorageError Nat → Prop
  | refused (e : StorageError) :
      PutCase backend faults seed user path startPos input t (t, .error e)
  | probe (home name : OsStr) (role : user.role = .uploader home)
      (named : fileName path = some name)
      (isProbe : isReolinkTestFile (toStringLossy name) = true) :
      PutCase backend faults seed user path startPos input t
        (putProbe faults home (toStringLossy name) input t)
  | store (home name resolved : OsStr) (role : user.role = .uploader home)
      (named : fileName path = some name)
      (noProbe : isReolinkTestFile (toStringLossy name) = false)
      (resolves : (ScopeMap.ofRoot home).resolve t path = .ok resolved) :
      PutCase backend faults seed user path startPos input t
        (putStore backend.recipients faults seed resolved startPos input t)

/-- **Every `put` goes one of these ways.** -/
theorem put_case : PutCase backend faults seed user path startPos input t
    (backend.put faults seed user path startPos input t) := by
  unfold ReoBackend.put
  split
  · exact .refused _
  · split
    · exact .refused _
    · rename_i home hrole
      split
      · exact .refused _
      · rename_i name hname
        split
        · rename_i hprobe
          exact .probe home name hrole hname hprobe
        · rename_i hprobe
          rw [userView_uploader hrole]
          split
          · exact .refused _
          · rename_i resolved hres
            exact .store home name resolved hrole hname (by simpa using hprobe) hres

/-! ## Stores -/

/-- **Where a store writes**: at the name its virtual path ends with, lengthened by the
suffix `x` of the store, and at the staging name of that, in one directory. -/
theorem storePlace_of_resolve {home name resolved : OsStr} (hfree : t.LinkFree home)
    (hres : (ScopeMap.ofRoot home).resolve t path = .ok resolved)
    (hname : fileName path = some name) {x : OsStr} (hx : sep ∉ x) :
    ∃ P s, IsName s ∧
      StorePlace t (resolved ++ x) (P ++ [s ++ x ++ stagingSuffix]) (P ++ [s ++ x]) := by
  obtain ⟨B, parts, hB, hbound, hparts, rfl⟩ := resolve_ok hfree hres
  have hl : ∀ s ∈ parts.map ofString, IsName s := isName_map_ofString hparts
  have hne : parts.map ofString ≠ [] := by simpa using normalize_ne_nil hparts hname
  obtain ⟨l, s, hls⟩ : ∃ l s, parts.map ofString = l ++ [s] :=
    ⟨_, _, (List.dropLast_append_getLast hne).symm⟩
  rw [hls] at hl ⊢
  have hs : IsName s := hl s (by simp)
  have hsuffix : sep ∉ stagingSuffix := by decide
  have hnames : ∀ a, IsName a → ∀ b ∈ B ++ l ++ [a], IsName b := by
    intro a ha b hb
    simp only [List.mem_append, List.mem_singleton] at hb
    rcases hb with (hb | hb) | rfl
    · exact isName_of_entry hbound b hb
    · exact hl b (List.mem_append_left _ hb)
    · exact ha
  have hstraight : ∀ a, t.Straight (B ++ l ++ [a]) := fun a => by
    rw [List.append_assoc]
    exact hfree.straight hB hbound _
  have hfinal : locText (B ++ (l ++ [s])) ++ x = locText (B ++ l ++ [s ++ x]) := by
    rw [← List.append_assoc, locText_suffix]
  refine ⟨B ++ l, s, hs, hfinal, ?_, hnames _ (isName_suffix hs hx),
    hnames _ (isName_suffix (isName_suffix hs hx) hsuffix), hstraight _, hstraight _⟩
  rw [stagingPath, hfinal, locText_suffix]

/-- Only a store that returned `Ok` is answered with `Ok`. -/
theorem storeReply_ok {r : StoreResult} {n : Nat} (h : storeReply r = .ok n) : r = .ok n := by
  unfold storeReply at h
  split at h
  · rw [Except.ok.inj h]
  · cases h

/-- A store that finds its final name taken, or cannot tell, changes nothing. -/
theorem storeStream_refused {S H : Type} {ops : TargetOps S H} {fault : StoreSite → Option Errno}
    {s : S} (h : ops.tryExists s ≠ .ok false) :
    (storeStream ops fault startPos input s).1 = s := by
  unfold storeStream
  split
  · rfl
  · rfl
  · rename_i hex
    exact absurd (attempt_ok hex).2 h

/-! ## Probes -/

/-- What the copy of a probe changes: the bytes of the inode it writes to. -/
theorem copyProbe_frame (i n : Nat) (input : Input) (t : FileTree) :
    Grows t (copyProbe i t input n).1 ∧ (copyProbe i t input n).1.entry = t.entry ∧
      ∀ j, j ≠ i → (copyProbe i t input n).1.disk.data j = t.disk.data j := by
  induction input generalizing t n with
  | nil => exact ⟨.refl t, rfl, fun _ _ => rfl⟩
  | cons x rest ih =>
      cases x with
      | error e => exact ⟨.refl t, rfl, fun _ _ => rfl⟩
      | ok b =>
          obtain ⟨hg, he, hd⟩ := ih (n + b.length) (t.writeAt i n b)
          exact ⟨(grows_setData i _).trans hg, he,
            fun j hj => (hd j hj).trans (data_setData_ne _ hj)⟩

/-- **Where a probe writes**: the quarantine directory is made, and if that and the open
succeed, the inode at the probe's name is written to. -/
theorem putProbe_writes (faults : PutFaults) (home : OsStr) (filename : String) (input : Input)
    (t : FileTree) :
    ∃ t₁, t₁ = (t.createDirAll faults.mkdir (join home quarantineDir)).1 ∧ AddsDirs t t₁ ∧
      ((putProbe faults home filename input t).1 = t₁ ∨
        ∃ L i, t₁.isDir (join home quarantineDir) = true ∧
          t₁.locate true (probeDest home filename) = .ok L ∧
          (t₁.entry L = some (.file i) ∨ t₁.Vacant L ∧ i = t₁.disk.fresh) ∧
          Grows t₁ (putProbe faults home filename input t).1 ∧
          (putProbe faults home filename input t).1.entry L = some (.file i) ∧
          (∀ M, M ≠ L → (putProbe faults home filename input t).1.entry M = t₁.entry M) ∧
          ∀ j, j ≠ i → (putProbe faults home filename input t).1.disk.data j = t₁.disk.data j) := by
  refine ⟨_, rfl, addsDirs_createDirAll _ _ _, ?_⟩
  have hne : join home quarantineDir ≠ [] := join_ne_nil (by decide)
  unfold putProbe
  rcases hc : t.createDirAll faults.mkdir (join home quarantineDir) with ⟨t₁, e | ⟨⟩⟩
  · exact Or.inl rfl
  · have hdir : t₁.isDir (join home quarantineDir) = true := by
      have hmade := isDir_of_createDirAll hne (congrArg Prod.snd hc)
      rw [hc] at hmade
      exact hmade
    simp only
    cases ho : attempt faults.openProbe (t₁.openTruncate (probeDest home filename)) with
    | error e => exact Or.inl rfl
    | ok r =>
        obtain ⟨t₂, i⟩ := r
        obtain ⟨t₃, hfile, rfl⟩ := openTruncate_ok (attempt_ok ho).2
        obtain ⟨L, hl, hcases⟩ := openFile_ok hfile
        -- what is copied goes to the inode that was opened, whatever the copy comes to
        obtain ⟨hg, he, hd⟩ := copyProbe_frame i 0 input (t₃.setData i [])
        refine Or.inr ⟨L, i, hdir, hl, ?_⟩
        show (t₁.entry L = some (.file i) ∨ t₁.Vacant L ∧ i = t₁.disk.fresh) ∧
          Grows t₁ (copyProbe i (t₃.setData i []) input 0).1 ∧ _
        rw [he]
        rcases hcases with ⟨hi, rfl⟩ | ⟨hv, rfl, rfl⟩
        · exact ⟨Or.inl hi, (grows_setData i []).trans hg, hi, fun M _ => rfl,
            fun j hj => (hd j hj).trans (data_setData_ne _ hj)⟩
        · exact ⟨Or.inr ⟨hv, rfl⟩, (grows_createAt hv).trans ((grows_setData _ []).trans hg),
            entry_createAt_self hv, fun M hM => entry_createAt_ne hM,
            fun j hj => (hd j hj).trans ((data_setData_ne _ hj).trans (data_createAt_ne hj))⟩

/-! ## Any request -/

theorem grows_putProbe (faults : PutFaults) (home : OsStr) (filename : String) (input : Input)
    (t : FileTree) : Grows t (putProbe faults home filename input t).1 := by
  obtain ⟨t₁, -, ha, h | ⟨L, i, -, -, -, hg, -⟩⟩ := putProbe_writes faults home filename input t
  · rw [h]
    exact ha.grows
  · exact ha.grows.trans hg

theorem addsDirs_mkd (fault : MkdirFault) (user : ReoUser) (path : OsStr) (t : FileTree) :
    AddsDirs t (ReoBackend.mkd fault user path t).1 := by
  unfold ReoBackend.mkd
  split
  · exact .refl t
  · split
    · exact .refl t
    · rename_i real _
      have ha := addsDirs_createDirAll fault t real
      split
      · rename_i hc
        rw [hc] at ha
        exact ha
      · rename_i hc
        rw [hc] at ha
        exact ha

/-- A `put` keeps directories and links. -/
theorem grows_put (hfree : JailFree t user) :
    Grows t (backend.put faults seed user path startPos input t).1 := by
  have hcase : PutCase backend faults seed user path startPos input t
      (backend.put faults seed user path startPos input t) := put_case
  generalize backend.put faults seed user path startPos input t = r at hcase ⊢
  cases hcase with
  | refused e => exact .refl t
  | probe home name hrole hname hprobe => exact grows_putProbe faults home _ input t
  | store home name resolved hrole hname hprobe hres =>
      unfold putStore
      split
      · split
        · exact .refl t
        · obtain ⟨P, s, -, hp⟩ :=
            storePlace_of_resolve (x := ofString ".age") (hfree home hrole) hres hname (by decide)
          exact (storeEncrypted_frame hp _ _ _).1.grows
      · obtain ⟨P, s, -, hp⟩ :=
          storePlace_of_resolve (x := []) (hfree home hrole) hres hname (by decide)
        rw [List.append_nil] at hp
        exact (storeStream_frame hp _ _ _ _).1.grows

end Put

/-- **A request keeps directories and links.** -/
theorem grows_afterRequest {age : Age} {backend : ReoBackend age} {t : FileTree}
    {req : Request age} (hfree : JailFree t req.user) : Grows t (afterRequest backend t req) := by
  unfold afterRequest serve
  split
  · exact .refl t
  · exact .refl t
  · exact .refl t
  · exact grows_put hfree
  · exact (addsDirs_mkd _ _ _ t).grows
  all_goals exact .refl t

/-- So a home that is free of links stays free of them, along a whole run. -/
theorem sameLinks_run {age : Age} {backend : ReoBackend age} {t : FileTree}
    {reqs : List (Request age)} (hfree : ∀ req ∈ reqs, JailFree t req.user) :
    SameLinks t (Runs.run (afterRequest backend) t reqs) := by
  induction reqs generalizing t with
  | nil => exact .refl t
  | cons req reqs ih =>
      have hstep : SameLinks t (afterRequest backend t req) :=
        (grows_afterRequest (hfree req (List.mem_cons_self ..))).toSameLinks
      refine hstep.trans (ih fun req' hreq' => ?_)
      exact (hfree req' (List.mem_cons_of_mem _ hreq')).of_sameLinks hstep

end Reoftpd

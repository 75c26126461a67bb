import Reoftpd.JailWrites

/-!
# What a call touches

The locations a `put` or a `mkd` writes at, links followed: the names it binds or takes
away, and the files it empties or writes to under any name.

A store runs with a log of them (`logged`): the log is read off the trees before and after
each file operation, and an open adds where its path leads.  Without the log the store goes
the same way (`logged_simulates`), and nothing changes but what the log holds
(`putTouches_all`).
-/
namespace Reoftpd
open UnixPath FileTree

/-! ## A store with a log -/

/-- The names that are bound otherwise in one tree than in the other. -/
def changedNames (t t' : FileTree) : List Loc :=
  (t.disk.entries.keys ++ t'.disk.entries.keys).filter fun M => t.entry M ≠ t'.entry M

/-- Where an open of the path leads. -/
def place (t : FileTree) (p : OsStr) : Loc :=
  match t.locate true p with
  | .ok L => L
  | .error _ => []

/-- A tree, and the locations touched so far. -/
structure Logged where
  tree : FileTree
  log : List Loc

/-- A file operation on names. -/
def Logged.bind (s : Logged) (t' : FileTree) : Logged := ⟨t', changedNames s.tree t' ++ s.log⟩

/-- A file operation on the file at `L`. -/
def Logged.write (s : Logged) (t' : FileTree) (L : Loc) : Logged :=
  ⟨t', L :: (changedNames s.tree t' ++ s.log)⟩

/-- The operations of a store on `staging` and its final path, with a log.  An open file
remembers where it was found. -/
def logged (ops : TargetOps FileTree Nat) (staging : OsStr) : TargetOps Logged (Nat × Loc) where
  tryExists s := ops.tryExists s.tree
  stagingLen s := ops.stagingLen s.tree
  createParent s := (s.bind (ops.createParent s.tree).1, (ops.createParent s.tree).2)
  openAppend s := (ops.openAppend s.tree).map fun r => (s.bind r.1, r.2, place s.tree staging)
  createFile s :=
    (ops.createFile s.tree).map fun r =>
      (s.write r.1 (place s.tree staging), r.2, place s.tree staging)
  append s h b := s.write (ops.append s.tree h.1 b) h.2
  writeAt s h off b := s.write (ops.writeAt s.tree h.1 off b) h.2
  hardLink s := (ops.hardLink s.tree).map s.bind
  removeStaging s := s.bind (ops.removeStaging s.tree)

/-- **The log changes nothing.** -/
theorem logged_simulates (ops : TargetOps FileTree Nat) (staging : OsStr) :
    Simulates (logged ops staging) ops (fun s t => s.tree = t)
      (fun h i s t => h.1 = i ∧ s.tree = t) := by
  refine ⟨?_, ?_, ?_, ?_, ?_, ?_, ?_, ?_, ?_, ?_⟩
  · rintro s _ rfl
    rfl
  · rintro s _ rfl
    rfl
  · rintro s _ rfl
    exact ⟨rfl, rfl⟩
  · rintro s _ rfl
    show Agree _ ((ops.openAppend s.tree).map _) (ops.openAppend s.tree)
    cases ops.openAppend s.tree with
    | error e => rfl
    | ok r => exact ⟨rfl, rfl⟩
  · rintro s _ rfl
    show Agree _ ((ops.createFile s.tree).map _) (ops.createFile s.tree)
    cases ops.createFile s.tree with
    | error e => rfl
    | ok r => exact ⟨rfl, rfl⟩
  · rintro h _ s _ b ⟨rfl, rfl⟩
    exact ⟨rfl, rfl⟩
  · rintro h _ s _ off b ⟨rfl, rfl⟩
    exact ⟨rfl, rfl⟩
  · exact fun h i s t hJ => hJ.2
  · rintro s _ rfl
    show Agree _ ((ops.hardLink s.tree).map _) (ops.hardLink s.tree)
    cases ops.hardLink s.tree with
    | error e => rfl
    | ok r => rfl
  · rintro s _ rfl
    rfl

/-! ## The touched locations of a call -/

/-- What the store branch of `put` touches. -/
def storeTouches {age : Age} (recipients : Option (List age.Recipient)) (faults : PutFaults)
    (seed : age.Seed) (resolved : OsStr) (startPos : Nat) (input : Input) (t : FileTree) :
    List Loc :=
  match recipients with
  | some recipients =>
      if startPos ≠ 0 then []
      else
        (storeEncrypted
          (logged (treeTarget faults.mkdir (ageSuffix resolved)) (stagingPath (ageSuffix resolved)))
          faults.encrypt (encryptStream age recipients seed input) ⟨t, []⟩).1.log
  | none =>
      (storeStream (logged (treeTarget faults.mkdir resolved) (stagingPath resolved)) faults.store
        startPos input ⟨t, []⟩).1.log

/-- What the quarantine branch of `put` touches: the directories it makes, and the file it
opens and empties. -/
def probeTouches (faults : PutFaults) (home : OsStr) (filename : String) (t : FileTree) :
    List Loc :=
  match t.createDirAll faults.mkdir (join home quarantineDir) with
  | (t', .error _) => (Logged.bind ⟨t, []⟩ t').log
  | (t', .ok ()) =>
      match attempt faults.openProbe (t'.openTruncate (probeDest home filename)) with
      | .error _ => (Logged.bind ⟨t, []⟩ t').log
      | .ok (t'', _) =>
          ((Logged.bind ⟨t, []⟩ t').write t'' (place t' (probeDest home filename))).log

/-- **What a `put` touches.** -/
def putTouches {age : Age} (backend : ReoBackend age) (faults : PutFaults) (seed : age.Seed)
    (user : ReoUser) (path : OsStr) (startPos : Nat) (input : Input) (t : FileTree) : List Loc :=
  match user.role with
  | .viewer _ => []
  | .uploader home =>
      match fileName path with
      | none => []
      | some name =>
          if isReolinkTestFile (toStringLossy name) then
            probeTouches faults home (toStringLossy name) t
          else
            match (userView user).resolve t path with
            | .error _ => []
            | .ok resolved => storeTouches backend.recipients faults seed resolved startPos input t

/-- **What a `mkd` touches**: the directories it makes. -/
def mkdTouches (mkdirFault : MkdirFault) (user : ReoUser) (path : OsStr) (t : FileTree) :
    List Loc :=
  changedNames t (ReoBackend.mkd mkdirFault user path t).1

/-! ## Nothing changes that is not touched -/

section All
variable {t t' s' : FileTree} {s : Logged} {final : OsStr} {mk : MkdirFault} {L M : Loc} {i : Nat}

theorem mem_changedNames : M ∈ changedNames t t' ↔ t.entry M ≠ t'.entry M := by
  rw [changedNames, List.mem_filter, List.mem_append, mem_keys, mem_keys, decide_eq_true_eq]
  constructor
  · exact fun h => h.2
  · intro hne
    refine ⟨?_, hne⟩
    by_contra hnone
    rw [not_or, not_not, not_not] at hnone
    exact hne (hnone.1.trans hnone.2.symm)

theorem place_eq {p : OsStr} (h : t.locate true p = .ok L) : place t p = L := by
  rw [place, h]

/-- The log holds every name that is bound otherwise than in `t`, and a name of every file
of `t` that has other bytes than there. -/
structure HoldsChanges (t : FileTree) (s : Logged) : Prop where
  fresh : t.disk.fresh ≤ s.tree.disk.fresh
  names : ∀ M, s.tree.entry M ≠ t.entry M → M ∈ s.log
  bytes : ∀ i, i < t.disk.fresh → s.tree.disk.data i ≠ t.disk.data i →
    ∃ L ∈ s.log, t.entry L = some (.file i)

theorem HoldsChanges.refl (t : FileTree) : HoldsChanges t ⟨t, []⟩ :=
  ⟨Nat.le_refl _, fun _ h => absurd rfl h, fun _ _ h => absurd rfl h⟩

/-- A file operation on names changes no bytes. -/
theorem HoldsChanges.bind (h : HoldsChanges t s) (hfresh : s.tree.disk.fresh ≤ t'.disk.fresh)
    (hdata : ∀ i, i < s.tree.disk.fresh → t'.disk.data i = s.tree.disk.data i) :
    HoldsChanges t (s.bind t') := by
  refine ⟨h.fresh.trans hfresh, fun M hM => ?_, fun i hi hne => ?_⟩
  · show M ∈ changedNames s.tree t' ++ s.log
    by_cases hs : s.tree.entry M = t'.entry M
    · exact List.mem_append_right _ (h.names M fun he => hM (hs ▸ he))
    · exact List.mem_append_left _ (mem_changedNames.mpr hs)
  · have hsame : t'.disk.data i = s.tree.disk.data i := hdata i (Nat.lt_of_lt_of_le hi h.fresh)
    have hold : s.tree.disk.data i ≠ t.disk.data i := fun he => hne (hsame.trans he)
    obtain ⟨L, hL, he⟩ := h.bytes i hi hold
    exact ⟨L, List.mem_append_right _ hL, he⟩

/-- One on an open file changes the bytes of that one. -/
theorem HoldsChanges.write (h : HoldsChanges t s) (hfresh : s.tree.disk.fresh ≤ t'.disk.fresh)
    (hL : i < t.disk.fresh → t.entry L = some (.file i))
    (hdata : ∀ j, j < s.tree.disk.fresh → j ≠ i → t'.disk.data j = s.tree.disk.data j) :
    HoldsChanges t (s.write t' L) := by
  refine ⟨h.fresh.trans hfresh, fun M hM => List.mem_cons_of_mem L ?_, fun j hj hne => ?_⟩
  · by_cases hs : s.tree.entry M = t'.entry M
    · exact List.mem_append_right _ (h.names M fun he => hM (hs ▸ he))
    · exact List.mem_append_left _ (mem_changedNames.mpr hs)
  · by_cases hji : j = i
    · subst hji
      exact ⟨L, List.mem_cons_self .., hL hj⟩
    · have hsame : t'.disk.data j = s.tree.disk.data j :=
        hdata j (Nat.lt_of_lt_of_le hj h.fresh) hji
      have hold : s.tree.disk.data j ≠ t.disk.data j := fun he => hne (hsame.trans he)
      obtain ⟨L', hL', he⟩ := h.bytes j hj hold
      exact ⟨L', List.mem_cons_of_mem _ (List.mem_append_right _ hL'), he⟩

theorem HoldsChanges.discard (h : HoldsChanges t s) (p : OsStr) :
    HoldsChanges t (s.bind (s.tree.discard p)) := by
  unfold FileTree.discard
  split
  · rename_i t' hr
    obtain ⟨L, e, -, -, -, rfl⟩ := removeFile_ok hr
    exact h.bind fresh_eraseAt.ge fun i _ => by rw [data_eraseAt]
  · exact h.bind (Nat.le_refl _) fun i _ => rfl

/-- A store that has its staging file open: what the handle is on, if it is a file of `t`. -/
structure HoldsOpen (t : FileTree) (h : Nat × Loc) (s : Logged) : Prop
    extends HoldsChanges t s where
  handle : h.1 < t.disk.fresh → t.entry h.2 = some (.file h.1)

theorem HoldsOpen.write {h : Nat × Loc} (hJ : HoldsOpen t h s) (b : Bytes) :
    HoldsOpen t h (s.write (s.tree.setData h.1 b) h.2) :=
  ⟨hJ.toHoldsChanges.write (Nat.le_refl _) hJ.handle fun _ _ hji => data_setData_ne b hji,
    hJ.handle⟩

/-- The open of a staging path, once its directories are made. -/
theorem holdsOpen_of_openFile (h : HoldsChanges t s) (ha : AddsDirs t s.tree) {p : OsStr}
    (ho : s.tree.openFile p = .ok (t', i)) : HoldsOpen t (i, place s.tree p) (s.bind t') := by
  obtain ⟨L, hl, hcases⟩ := openFile_ok ho
  rw [place_eq hl]
  rcases hcases with ⟨hi, rfl⟩ | ⟨hv, rfl, rfl⟩
  · exact ⟨h.bind (Nat.le_refl _) fun _ _ => rfl, fun _ => ha.file_iff.mp hi⟩
  · refine ⟨h.bind fresh_createAt_le fun i hi => data_createAt_ne (Nat.ne_of_lt hi), fun hlt => ?_⟩
    rw [ha.fresh] at hlt
    exact absurd hlt (Nat.lt_irrefl _)

theorem holdsOpen_of_openTruncate (h : HoldsChanges t s) (ha : AddsDirs t s.tree) {p : OsStr}
    (ho : s.tree.openTruncate p = .ok (t', i)) :
    HoldsOpen t (i, place s.tree p) (s.write t' (place s.tree p)) := by
  obtain ⟨t₁, hfile, rfl⟩ := openTruncate_ok ho
  have hhandle := (holdsOpen_of_openFile h ha hfile).handle
  obtain ⟨L, -, hcases⟩ := openFile_ok hfile
  rcases hcases with ⟨-, rfl⟩ | ⟨-, rfl, rfl⟩
  · exact ⟨h.write (Nat.le_refl _) hhandle fun j _ hji => data_setData_ne _ hji, hhandle⟩
  · refine ⟨h.write fresh_createAt_le hhandle fun j _ hji => ?_, hhandle⟩
    rw [data_setData_ne _ hji, data_createAt_ne hji]

theorem holdsChanges_createParent (mk : MkdirFault) (final : OsStr) (t : FileTree) :
    HoldsChanges t
      ((logged (treeTarget mk final) (stagingPath final)).createParent ⟨t, []⟩).1 := by
  have ha : AddsDirs t ((treeTarget mk final).createParent t).1 := addsDirs_createParent mk final t
  exact (HoldsChanges.refl t).bind ha.fresh.ge fun i _ => by rw [ha.data]

/-- What the link of a store leaves. -/
theorem HoldsChanges.link (h : HoldsChanges t s) {src dst : OsStr}
    (hl : s.tree.hardLink src dst = .ok t') : HoldsChanges t (s.bind t') := by
  obtain ⟨S, D, e, -, -, -, -, -, rfl⟩ := hardLink_ok hl
  exact h.bind fresh_linkAt.ge fun i _ => by rw [data_linkAt]

theorem map_eq_ok {E A B : Type} {f : A → B} {r : Except E A} {b : B} (h : r.map f = .ok b) :
    ∃ a, r = .ok a ∧ f a = b := by
  cases r with
  | error e => cases h
  | ok a => exact ⟨a, rfl, Except.ok.inj h⟩

/-- **The log of a store holds all it changes.** -/
theorem holdsChanges_storeStream (mk : MkdirFault) (final : OsStr) (t : FileTree)
    (fault : StoreSite → Option Errno) (startPos : Nat) (input : Input) :
    HoldsChanges t (storeStream (logged (treeTarget mk final) (stagingPath final)) fault startPos
      input ⟨t, []⟩).1 := by
  refine storeStream_rule (J := fun h s => HoldsOpen t h s) (Q := fun s _ => HoldsChanges t s)
    ?_ ?_ ?_ ?_ ?_ ?_ ?_
  · exact fun _ => .refl t
  · exact fun _ => (HoldsChanges.refl t).discard _
  · exact fun _ => holdsChanges_createParent mk final t
  · intro s h ho
    obtain ⟨⟨t', i⟩, hopen, he⟩ := map_eq_ok ho
    obtain ⟨rfl, rfl⟩ := Prod.mk.inj he
    exact holdsOpen_of_openFile (holdsChanges_createParent mk final t)
      (addsDirs_createParent mk final t) hopen
  · exact fun s h b hJ => hJ.write _
  · exact fun s h _ hJ => ⟨hJ.toHoldsChanges, hJ.toHoldsChanges.discard _⟩
  · intro s h s' _ hJ hl
    obtain ⟨t', hlink, rfl⟩ := map_eq_ok hl
    have hlinked : HoldsChanges t (s.bind t') := hJ.toHoldsChanges.link hlink
    exact ⟨hlinked, hlinked.discard _⟩

theorem holdsChanges_storeEncrypted (mk : MkdirFault) (final : OsStr) (t : FileTree)
    (fault : EncryptSite → Option Errno) (out : Encrypted) :
    HoldsChanges t (storeEncrypted (logged (treeTarget mk final) (stagingPath final)) fault out
      ⟨t, []⟩).1 := by
  refine storeEncrypted_rule (J := fun h _ s => HoldsOpen t h s)
    (Q := fun s _ => HoldsChanges t s) ?_ ?_ ?_ ?_ ?_ ?_ ?_
  · exact fun _ => .refl t
  · exact fun _ => holdsChanges_createParent mk final t
  · intro s h ho
    obtain ⟨⟨t', i⟩, hopen, he⟩ := map_eq_ok ho
    obtain ⟨rfl, rfl⟩ := Prod.mk.inj he
    exact holdsOpen_of_openTruncate (holdsChanges_createParent mk final t)
      (addsDirs_createParent mk final t) hopen
  · exact fun s h _ b hJ => hJ.write _
  · exact fun s h _ _ _ hJ => hJ.toHoldsChanges
  · exact fun s h _ _ _ hJ => hJ.toHoldsChanges.discard _
  · intro s h s' _ _ hJ hl
    obtain ⟨t', hlink, rfl⟩ := map_eq_ok hl
    have hlinked : HoldsChanges t (s.bind t') := hJ.toHoldsChanges.link hlink
    exact ⟨hlinked, hlinked.discard _⟩

/-- Further writes to a file whose name the log holds. -/
theorem HoldsChanges.of_bytes (h : HoldsChanges t s) (hL : L ∈ s.log)
    (hhandle : i < t.disk.fresh → t.entry L = some (.file i))
    (hfresh : s.tree.disk.fresh ≤ t'.disk.fresh) (he : t'.entry = s.tree.entry)
    (hd : ∀ j, j ≠ i → t'.disk.data j = s.tree.disk.data j) : HoldsChanges t ⟨t', s.log⟩ := by
  refine ⟨h.fresh.trans hfresh, fun M hM => h.names M (he ▸ hM), fun j hj hne => ?_⟩
  by_cases hji : j = i
  · subst hji
    exact ⟨L, hL, hhandle hj⟩
  · exact h.bytes j hj (hd j hji ▸ hne)

theorem fresh_copyProbe (i n : Nat) (input : Input) (t : FileTree) :
    (copyProbe i t input n).1.disk.fresh = t.disk.fresh := by
  induction input generalizing t n with
  | nil => rfl
  | cons x rest ih =>
      cases x with
      | error e => rfl
      | ok b => exact ih (n + b.length) (t.writeAt i n b)

/-- What a probe changes, its log holds. -/
theorem holdsChanges_putProbe (faults : PutFaults) (home : OsStr) (filename : String)
    (input : Input) (t : FileTree) :
    HoldsChanges t ⟨(putProbe faults home filename input t).1,
      probeTouches faults home filename t⟩ := by
  have ha : AddsDirs t (t.createDirAll faults.mkdir (join home quarantineDir)).1 :=
    addsDirs_createDirAll faults.mkdir t _
  unfold putProbe probeTouches
  rcases hc : t.createDirAll faults.mkdir (join home quarantineDir) with ⟨t₁, r⟩
  rw [hc] at ha
  have hdirs : HoldsChanges t (Logged.bind ⟨t, []⟩ t₁) :=
    (HoldsChanges.refl t).bind ha.fresh.ge fun i _ => by rw [ha.data]
  cases r with
  | error e => exact hdirs
  | ok _ =>
      simp only
      cases ho : attempt faults.openProbe (t₁.openTruncate (probeDest home filename)) with
      | error e => exact hdirs
      | ok r =>
          obtain ⟨t₂, i⟩ := r
          have hopen := holdsOpen_of_openTruncate hdirs ha (attempt_ok ho).2
          obtain ⟨-, he, hd⟩ := copyProbe_frame i 0 input t₂
          exact hopen.toHoldsChanges.of_bytes (List.mem_cons_self ..) hopen.handle
            (fresh_copyProbe i 0 input t₂).ge he hd

/-- What the store branch changes, its log holds. -/
theorem holdsChanges_putStore {age : Age} (recipients : Option (List age.Recipient))
    (faults : PutFaults) (seed : age.Seed) (resolved : OsStr) (startPos : Nat) (input : Input)
    (t : FileTree) :
    HoldsChanges t ⟨(putStore recipients faults seed resolved startPos input t).1,
      storeTouches recipients faults seed resolved startPos input t⟩ := by
  unfold putStore storeTouches
  cases recipients with
  | none =>
      have htree : (storeStream (logged (treeTarget faults.mkdir resolved) (stagingPath resolved))
            faults.store startPos input ⟨t, []⟩).1.tree =
          (storeStream (treeTarget faults.mkdir resolved) faults.store startPos input t).1 :=
        ((logged_simulates _ _).storeStream rfl).1
      simp only
      rw [← htree]
      exact holdsChanges_storeStream faults.mkdir resolved t faults.store startPos input
  | some recipients =>
      simp only
      split
      · exact .refl t
      · have htree : (storeEncrypted
              (logged (treeTarget faults.mkdir (ageSuffix resolved))
                (stagingPath (ageSuffix resolved)))
              faults.encrypt (encryptStream age recipients seed input) ⟨t, []⟩).1.tree =
            (storeEncrypted (treeTarget faults.mkdir (ageSuffix resolved)) faults.encrypt
              (encryptStream age recipients seed input) t).1 :=
          ((logged_simulates _ _).storeEncrypted rfl).1
        rw [← htree]
        exact holdsChanges_storeEncrypted faults.mkdir (ageSuffix resolved) t faults.encrypt _

/-- **Nothing changes that is not touched**: a `put` binds and unbinds no name, and changes
the bytes of no file, but those at the locations it touches. -/
theorem putTouches_all {age : Age} (backend : ReoBackend age) (faults : PutFaults)
    (seed : age.Seed) (user : ReoUser) (path : OsStr) (startPos : Nat) (input : Input)
    (t : FileTree) :
    HoldsChanges t ⟨(backend.put faults seed user path startPos input t).1,
      putTouches backend faults seed user path startPos input t⟩ := by
  unfold ReoBackend.put putTouches
  cases hrole : user.role with
  | viewer scope => exact .refl t
  | uploader home =>
      cases fileName path with
      | none => exact .refl t
      | some name =>
          have hput : ¬ (!capabilityAllowed (.uploader home) .put) = true := by
            simp [capabilityAllowed]
          simp only
          rw [if_neg hput]
          split
          · exact holdsChanges_putProbe faults home _ input t
          · cases (userView user).resolve t path with
            | error e => exact .refl t
            | ok resolved => exact holdsChanges_putStore _ faults seed resolved startPos input t

end All

end Reoftpd

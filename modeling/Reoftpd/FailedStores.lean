import Reoftpd.TreeStores

/-!
# What a failed transfer leaves

A store alone on its final and staging path, neither of them there, whose input fails to
be read or to be encrypted.  Links may lie anywhere on the way.

**A failed `store_stream` leaves neither name**: it takes its staging file away.
**`store_encrypted` does not** (`failed_encryption_leaves_staging`): the error of its
blocking task is returned before anything is removed, so the staging file stays whenever
it could be created at all (`failed_store_clean_iff`).  What carries both is that making
the directories above a path brings nothing to light at it (`absent_createDirAll`).
-/
namespace Reoftpd
open UnixPath FileTree

/-- Nothing is at a path, a link at its end not followed. -/
def Absent (t : FileTree) (p : OsStr) : Prop := ∀ x, t.find false p ≠ .ok x

/-- Neither the final nor the staging path is there. -/
structure NoneThere (t : FileTree) (final : OsStr) : Prop where
  at_final : Absent t final
  at_staging : Absent t (stagingPath final)

variable {age : Age}

/-- A call of one of the two stores, with what its operations fail with. -/
inductive Transfer (age : Age) where
  | stream (fault : StoreSite → Option Errno) (input : Input)
  | encrypted (fault : EncryptSite → Option Errno) (recipients : List age.Recipient)
      (seed : age.Seed) (input : Input)

/-- The call, from the start of a file. -/
def Transfer.run (mk : MkdirFault) (final : OsStr) (t : FileTree) :
    Transfer age → FileTree × StoreResult
  | .stream fault input => storeStream (treeTarget mk final) fault 0 input t
  | .encrypted fault recipients seed input =>
      storeEncrypted (treeTarget mk final) fault (encryptStream age recipients seed input) t

/-- The call's removals do not fail by themselves. -/
def Transfer.Removes : Transfer age → Prop
  | .stream fault _ => fault .remove = none
  | .encrypted fault _ _ _ => fault .remove = none

/-- Reading the input of the call fails, or encrypting it: the encryption itself, which a
failed read ends (`encryptStream_unread`), or one of its writes. -/
def Transfer.Fails : Transfer age → Prop
  | .stream _ input => ∃ e, Except.error e ∈ input
  | .encrypted fault recipients seed input =>
      (∃ e, (encryptStream age recipients seed input).outcome = .error e) ∨
        ∃ k, k < (encryptStream age recipients seed input).chunks.length ∧ fault (.write k) ≠ none

/-- The call does not get to make a file that it leaves: the staging file of an encryption
cannot be created, as its directories cannot be made or its open fails. -/
def Transfer.LeavesNone (mk : MkdirFault) (final : OsStr) (t : FileTree) : Transfer age → Prop
  | .stream _ _ => True
  | .encrypted fault _ _ _ =>
      let made := makeParent (treeTarget mk final) (fault .createParent) t
      (∃ e, made.2 = .error e) ∨
        ∃ e, attempt (fault .create) ((treeTarget mk final).createFile made.1) = .error e

/-- An input that cannot be read to its end cannot be encrypted. -/
theorem encryptStream_unread {recipients : List age.Recipient} {seed : age.Seed} {input : Input}
    {e : Errno} (h : Except.error e ∈ input) :
    ∃ e, (encryptStream age recipients seed input).outcome = .error e := by
  cases ho : (encryptStream age recipients seed input).outcome with
  | error e => exact ⟨e, rfl⟩
  | ok n =>
      obtain ⟨bs, -, -, -, rfl, -⟩ := encryptStream_ok ho
      simp at h

/-! ## Making directories -/

section Absent
variable {t s s' : FileTree} {p : OsStr} {P D L : Loc} {a : OsStr} {mk : MkdirFault}

/-- In a new directory nothing is found. -/
theorem absent_of_mkdir {r : List OsStr} (hnames : ∀ s ∈ D ++ r, IsName s) (hne : r ≠ [])
    (hm : s.mkdir (locText D) = .ok s') : Absent s' (locText (D ++ r)) := by
  obtain ⟨y, rest, rfl⟩ := List.exists_cons_of_ne_nil hne
  obtain ⟨L, hL, hv, rfl⟩ := mkdir_ok hm
  have hy : IsName y := hnames y (by simp)
  have hD : ∀ s ∈ D, IsName s := fun s hs => hnames s (List.mem_append_left _ hs)
  have hdir : (s.mkdirAt L).entry L = some .dir := entry_mkdirAt_self hv
  -- the directory is empty, as its name was free
  have hempty : (s.mkdirAt L).entry (L ++ [y]) = none := by
    rw [entry_mkdirAt_ne (by simp)]
    by_contra hbound
    have habove : s.entry L = some .dir := s.parent_dir L y hbound
    rw [hv.2.1] at habove
    cases habove
  obtain ⟨-, -, here, hstart, -, hthere⟩ := locateSteps_ok ((grows_mkdirAt hv).locateSteps hL)
  have hthere' : walk (s.mkdirAt L).entry true maxSymlinks here D = .ok L := by
    rw [segments_locText hD] at hthere
    exact walk_follow hthere (by simp [hdir])
  rintro ⟨G, e⟩ hfind
  obtain ⟨hG, he⟩ := find_ok.mp hfind
  obtain ⟨-, -, here', hstart', hhere, hw⟩ := locateSteps_ok hG
  obtain rfl : here = here' := by
    rw [start, isAbsolute_locText, if_pos rfl] at hstart hstart'
    exact Except.ok.inj (hstart.symm.trans hstart')
  rw [steps, endsWithSep_locText (by simp) fun s hs => (hnames s hs).isSegment, if_neg (by simp),
    segments_locText hnames] at hw
  obtain ⟨A, m, hA, -, hon⟩ := walk_append_ok (s.mkdirAt L).rooted hhere hw (List.cons_ne_nil _ _)
  obtain rfl : L = A := Except.ok.inj (hthere'.symm.trans hA)
  rw [walk_cons hy.2.2.1 hy.2.2.2, hempty] at hon
  simp only at hon
  split at hon
  · rw [← Except.ok.inj hon, hempty] at he
    cases he
  · cases hon

/-- **Making directories above an absent path brings nothing to light at it**, whether they
are all made or not. -/
theorem absent_createDirAll {r : List OsStr} (hnames : ∀ s ∈ P ++ r, IsName s) (hne : r ≠ [])
    (h : Absent t (locText (P ++ r))) :
    Absent (t.createDirAll mk (locText P)).1 (locText (P ++ r)) := by
  refine createDirs_ind (J := fun s => Absent s (locText (P ++ r))) mk ?_ h
  intro q hq s s' _ hm
  have hP : ∀ s ∈ P, IsName s := fun s hs => hnames s (List.mem_append_left _ hs)
  obtain ⟨D, ⟨rest, rfl⟩, rfl⟩ := of_mem_ancestors_locText hP hq
  rw [List.append_assoc] at hnames ⊢
  exact absent_of_mkdir hnames (by simp [hne]) hm

/-- A removal of what is not there changes nothing. -/
theorem discard_absent (h : Absent t p) : t.discard p = t := by
  unfold FileTree.discard
  split
  · rename_i t' hr
    obtain ⟨L, e, hl, he, -⟩ := removeFile_ok hr
    exact absurd (find_ok.mpr ⟨hl, he⟩) (h _)
  · rfl

theorem tryExists_absent (h : Absent t p) : t.tryExists p ≠ .ok true := by
  intro hexists
  unfold tryExists at hexists
  split at hexists
  · rename_i x hfind
    obtain ⟨L, e⟩ := x
    obtain ⟨hL, he⟩ := find_ok.mp hfind
    obtain ⟨M, hM, rfl | ⟨target, hlink⟩⟩ := locate_unfollowed hL
    · exact h _ (find_ok.mpr ⟨hM, he⟩)
    · exact h _ (find_ok.mpr ⟨hM, hlink⟩)
  · cases hexists
  · cases hexists

/-- What is absent stays so where no name changes. -/
theorem Absent.congr (h : Absent t p) (hcwd : s.cwd = t.cwd) (hentry : ∀ M, s.entry M = t.entry M) :
    Absent s p := by
  rintro ⟨L, e⟩ hfind
  obtain ⟨hL, he⟩ := find_ok.mp hfind
  have hback : t.locate false p = .ok L := by
    refine locate_bound hcwd.symm (fun M e hM => ?_) hL (by simp [he])
    rw [← hentry M, hM]
  rw [hentry L] at he
  exact h _ (find_ok.mpr ⟨hback, he⟩)

/-! ## The staging file -/

/-- A store that found no file at its staging path has its own open there. -/
structure StagingMade (t s : FileTree) (p : OsStr) (L : Loc) : Prop where
  cwd : s.cwd = t.cwd
  at_path : s.locate false p = .ok L
  free : t.entry L = none
  file : ∃ i, s.entry L = some (.file i)
  others : ∀ M, M ≠ L → s.entry M = t.entry M

theorem stagingMade_of_openFile {i : Nat} (h : Absent t p) (ho : t.openFile p = .ok (s, i)) :
    ∃ L, StagingMade t s p L := by
  obtain ⟨L, hL, hcases⟩ := openFile_ok ho
  obtain ⟨M, hM, hML⟩ := locate_unfollowed hL
  have hunbound : t.entry M = none := by
    by_contra hbound
    obtain ⟨e, he⟩ := Option.ne_none_iff_exists'.mp hbound
    exact h _ (find_ok.mpr ⟨hM, he⟩)
  obtain rfl : M = L := by
    rcases hML with hML | ⟨target, hlink⟩
    · exact hML
    · rw [hunbound] at hlink
      cases hlink
  rcases hcases with ⟨hfile, -⟩ | ⟨hv, rfl, -⟩
  · rw [hunbound] at hfile
    cases hfile
  · exact ⟨M, cwd_createAt, (grows_createAt hv).locate hM, hunbound,
      ⟨_, entry_createAt_self hv⟩, fun _ => entry_createAt_ne⟩

theorem StagingMade.setData (h : StagingMade t s p L) (i : Nat) (b : Bytes) :
    StagingMade t (s.setData i b) p L :=
  ⟨h.cwd, (grows_setData i b).locate h.at_path, h.free, h.file, h.others⟩

theorem StagingMade.present (h : StagingMade t s p L) : ¬ Absent s p := by
  obtain ⟨i, hi⟩ := h.file
  exact fun habsent => habsent _ (find_ok.mpr ⟨h.at_path, hi⟩)

/-- The removal of the staging file brings the names back as they were. -/
theorem StagingMade.discard (h : StagingMade t s p L) :
    (s.discard p).cwd = t.cwd ∧ ∀ M, (s.discard p).entry M = t.entry M := by
  obtain ⟨i, hi⟩ := h.file
  have hremove : s.removeFile p = .ok (s.eraseAt L) := by
    rw [removeFile, find_ok.mpr ⟨h.at_path, hi⟩]
  rw [FileTree.discard, hremove]
  refine ⟨cwd_eraseAt.trans h.cwd, fun M => ?_⟩
  by_cases hML : M = L
  · rw [hML, entry_eraseAt_self (childless_of_entry hi rfl), h.free]
  · rw [entry_eraseAt_ne hML, h.others M hML]

theorem NoneThere.congr {final : OsStr} (h : NoneThere t final) (hcwd : s.cwd = t.cwd)
    (hentry : ∀ M, s.entry M = t.entry M) : NoneThere s final :=
  ⟨h.at_final.congr hcwd hentry, h.at_staging.congr hcwd hentry⟩

end Absent

/-! ## The two stores -/

section Stores
variable {t s : FileTree} {P L : Loc} {a final : OsStr} {mk : MkdirFault}

theorem NoneThere.makeParent (mk : MkdirFault) (hnames : ∀ s ∈ P ++ [a], IsName s)
    (h : NoneThere t (locText (P ++ [a]))) (f : Option Errno) :
    NoneThere (makeParent (treeTarget mk (locText (P ++ [a]))) f t).1 (locText (P ++ [a])) := by
  have hP : ∀ s ∈ P, IsName s := fun s hs => hnames s (List.mem_append_left _ hs)
  have hsuffix : stagingPath (locText (P ++ [a])) = locText (P ++ [a ++ stagingSuffix]) :=
    stagingPath_locText
  have hstaging : IsName (a ++ stagingSuffix) := isName_suffix (hnames a (by simp)) (by decide)
  have hstagings : ∀ s ∈ P ++ [a ++ stagingSuffix], IsName s :=
    List.forall_mem_append.mpr ⟨hP, List.forall_mem_singleton.mpr hstaging⟩
  cases f with
  | some e => exact h
  | none =>
      have hparent : (treeTarget mk (locText (P ++ [a]))).createParent t =
          t.createDirAll mk (locText P) := by
        simp only [treeTarget, hsuffix, parent_locText hP hstaging]
      rw [Reoftpd.makeParent, hparent]
      refine ⟨absent_createDirAll hnames (List.cons_ne_nil _ _) h.at_final, ?_⟩
      rw [hsuffix]
      exact absent_createDirAll hstagings (List.cons_ne_nil _ _) (hsuffix ▸ h.at_staging)

/-- A copy whose input cannot be read to its end fails. -/
theorem copyInput_unread {S H : Type} {ops : TargetOps S H} {h : H} {input : Input} {e : Errno}
    (hunread : Except.error e ∈ input) (s : S) (n : Nat) :
    ∃ e, (copyInput ops h s input n).2 = .error e := by
  induction input generalizing s n with
  | nil => cases hunread
  | cons x rest ih =>
      cases x with
      | error e => exact ⟨e, rfl⟩
      | ok b =>
          rcases List.mem_cons.mp hunread with h | h
          · cases h
          · exact ih h _ _

/-- **A failed `store_stream`** leaves no name. -/
theorem stream_leaves_none {fault : StoreSite → Option Errno} {startPos : Nat} {input : Input}
    {e : Errno} (hnames : ∀ s ∈ P ++ [a], IsName s) (h : NoneThere t (locText (P ++ [a])))
    (hremoves : fault .remove = none) (hunread : Except.error e ∈ input) :
    (∃ e, (storeStream (treeTarget mk (locText (P ++ [a]))) fault startPos input t).2 = .error e) ∧
      NoneThere (storeStream (treeTarget mk (locText (P ++ [a]))) fault startPos input t).1
        (locText (P ++ [a])) := by
  have hdrop : dropStaging (treeTarget mk (locText (P ++ [a]))) (fault .remove) t = t := by
    rw [hremoves]
    exact discard_absent h.at_staging
  have hmade := h.makeParent mk hnames (fault .createParent)
  unfold storeStream
  split
  · exact ⟨⟨_, rfl⟩, h⟩
  · exact ⟨⟨_, rfl⟩, h⟩
  · split
    · exact ⟨⟨_, rfl⟩, h⟩
    · exact ⟨⟨_, rfl⟩, hdrop.symm ▸ h⟩
    · exact ⟨⟨_, rfl⟩, hdrop.symm ▸ h⟩
    · unfold openAndStream
      split
      · rename_i s' e hp
        rw [hp] at hmade
        exact ⟨⟨_, rfl⟩, hmade⟩
      · rename_i s' hp
        rw [hp] at hmade
        split
        · exact ⟨⟨_, rfl⟩, hmade⟩
        · rename_i s'' i hopen
          obtain ⟨L, hL⟩ := stagingMade_of_openFile hmade.at_staging (attempt_ok hopen).2
          have hcopy : StagingMade s'
              (copyInput (treeTarget mk (locText (P ++ [a]))) i s'' input 0).1
              (stagingPath (locText (P ++ [a]))) L :=
            copyInput_ind (J := fun s => StagingMade s' s _ L) (fun s b hs => hs.setData i _) s''
              input 0 hL
          -- the copy comes to the input that fails
          have hfailed : ∃ e,
              (copyInput (treeTarget mk (locText (P ++ [a]))) i s'' input 0).2 = .error e :=
            copyInput_unread hunread s'' 0
          obtain ⟨e, he⟩ := hfailed
          unfold streamInput
          split
          · rename_i u e hc
            rw [hc] at hcopy
            -- and what it staged is dropped
            obtain ⟨hcwd, hentry⟩ := hcopy.discard
            rw [hremoves]
            exact ⟨⟨_, rfl⟩, hmade.congr hcwd hentry⟩
          · rename_i u n hc
            rw [hc] at he
            cases he

/-- The ciphertext does not all get into the file if one of its writes fails. -/
theorem writeChunks_fails {S H : Type} {ops : TargetOps S H} {fault : EncryptSite → Option Errno}
    {h : H} {chunks : List Bytes} {j : Nat} (hj : j < chunks.length) (s : S) (k off : Nat)
    (hfault : fault (.write (k + j)) ≠ none) :
    (writeChunks ops fault h s k off chunks).2 = false := by
  induction chunks generalizing s k off j with
  | nil => cases hj
  | cons b rest ih =>
      unfold writeChunks
      cases hk : fault (.write k) with
      | some e => rfl
      | none =>
          cases j with
          | zero => exact absurd hk hfault
          | succ j =>
              refine ih (Nat.lt_of_succ_lt_succ hj) _ (k + 1) _ ?_
              rw [Nat.add_assoc, Nat.add_comm 1 j]
              exact hfault

/-- An encryption that fails once its staging file is open leaves it. -/
theorem staging_left {fault : EncryptSite → Option Errno} {out : Encrypted} {s₀ s' : FileTree}
    {i : Nat} (habsent : Absent s₀ (stagingPath final))
    (hfails : (∃ e, out.outcome = .error e) ∨
      ∃ k, k < out.chunks.length ∧ fault (.write k) ≠ none)
    (hcreate : attempt (fault .create) ((treeTarget mk final).createFile s₀) = .ok (s', i)) :
    ∃ s e, createAndEncrypt (treeTarget mk final) fault out s₀ = (s, .error e) ∧
      ¬ Absent s (stagingPath final) := by
  obtain ⟨s₁, hopen, rfl⟩ := openTruncate_ok (attempt_ok hcreate).2
  obtain ⟨L, hL⟩ := stagingMade_of_openFile habsent hopen
  have hwritten : StagingMade s₀ (writeChunks (treeTarget mk final) fault i (s₁.setData i []) 0 0
      out.chunks).1 (stagingPath final) L := by
    have hchunks : ∃ ws rest, [] ++ out.chunks = ws ++ rest ∧
        StagingMade s₀ (writeChunks (treeTarget mk final) fault i (s₁.setData i []) 0 0
          out.chunks).1 (stagingPath final) L ∧
        ((writeChunks (treeTarget mk final) fault i (s₁.setData i []) 0 0 out.chunks).2 = true →
          rest = []) :=
      writeChunks_ind (J := fun _ s => StagingMade s₀ s (stagingPath final) L)
        (fun s ws b hs => hs.setData i _) out.chunks [] (s₁.setData i []) 0 (hL.setData i [])
    obtain ⟨-, -, -, hw, -⟩ := hchunks
    exact hw
  unfold createAndEncrypt
  rw [hcreate]
  simp only
  -- only an encryption with all its writes made goes on to the link
  split
  · rename_i u n hw ho
    rcases hfails with ⟨e, he⟩ | ⟨k, hk, hfault⟩
    · rw [he] at ho
      cases ho
    · have hstopped : (writeChunks (treeTarget mk final) fault i (s₁.setData i []) 0 0
          out.chunks).2 = false :=
        writeChunks_fails hk (s₁.setData i []) 0 0 (by simpa using hfault)
      rw [hw] at hstopped
      cases hstopped
  · rename_i u done _ hw _
    rw [hw] at hwritten
    exact ⟨_, _, rfl, hwritten.present⟩

/-- **A failed `store_encrypted`** leaves its staging file, if it could create it. -/
theorem encrypted_leaves_none_iff {fault : EncryptSite → Option Errno} {out : Encrypted}
    (hnames : ∀ s ∈ P ++ [a], IsName s) (h : NoneThere t (locText (P ++ [a])))
    (hfails : (∃ e, out.outcome = .error e) ∨
      ∃ k, k < out.chunks.length ∧ fault (.write k) ≠ none) :
    ((∃ e, (storeEncrypted (treeTarget mk (locText (P ++ [a]))) fault out t).2 = .error e) ∧
      NoneThere (storeEncrypted (treeTarget mk (locText (P ++ [a]))) fault out t).1
        (locText (P ++ [a]))) ↔
      (∃ e, (Reoftpd.makeParent (treeTarget mk (locText (P ++ [a]))) (fault .createParent) t).2 =
          .error e) ∨
        ∃ e, attempt (fault .create) ((treeTarget mk (locText (P ++ [a]))).createFile
          (Reoftpd.makeParent (treeTarget mk (locText (P ++ [a]))) (fault .createParent) t).1) =
            .error e := by
  have hmade := h.makeParent mk hnames (fault .createParent)
  have hexists : attempt (fault .exists) (t.tryExists (locText (P ++ [a]))) ≠ .ok true :=
    fun hok => tryExists_absent h.at_final (attempt_ok hok).2
  unfold storeEncrypted
  split
  · rename_i hok
    exact absurd hok hexists
  -- the parents, then the staging file, and no cleanup after that
  rcases hp : Reoftpd.makeParent (treeTarget mk (locText (P ++ [a]))) (fault .createParent) t with
    ⟨s', e | ⟨⟩⟩ <;> rw [hp] at hmade
  · exact ⟨fun _ => Or.inl ⟨e, rfl⟩, fun _ => ⟨⟨_, rfl⟩, hmade⟩⟩
  · simp only [reduceCtorEq, exists_false, false_or]
    cases hc : attempt (fault .create) ((treeTarget mk (locText (P ++ [a]))).createFile s') with
    | error e =>
        refine ⟨fun _ => ⟨e, rfl⟩, fun _ => ?_⟩
        simp only [createAndEncrypt, hc]
        exact ⟨⟨_, rfl⟩, hmade⟩
    | ok r =>
        obtain ⟨s, e, hrun, hleft⟩ := staging_left hmade.at_staging hfails hc
        simp only [hrun, reduceCtorEq, exists_false, iff_false, not_and]
        exact fun _ hnone => hleft hnone.at_staging

/-- **What a failed transfer leaves.**  A store of either kind, alone on a final and a
staging path where nothing is, whose removals do not fail and whose input fails to be read
or encrypted, returns an error and leaves nothing at either path exactly when it is a
`store_stream`, or a `store_encrypted` that could not create its staging file. -/
theorem failed_store_clean_iff (mk : MkdirFault) (t : FileTree) (P : Loc) (a : OsStr)
    (call : Transfer age) (hnames : ∀ s ∈ P ++ [a], IsName s)
    (hnone : NoneThere t (locText (P ++ [a]))) (hremoves : call.Removes) (hfails : call.Fails) :
    ((∃ e, (call.run mk (locText (P ++ [a])) t).2 = .error e) ∧
        NoneThere (call.run mk (locText (P ++ [a])) t).1 (locText (P ++ [a]))) ↔
      call.LeavesNone mk (locText (P ++ [a])) t := by
  cases call with
  | stream fault input =>
      obtain ⟨e, hunread⟩ := hfails
      exact iff_of_true (stream_leaves_none hnames hnone hremoves hunread) trivial
  | encrypted fault recipients seed input => exact encrypted_leaves_none_iff hnames hnone hfails

end Stores

/-! ## A camera that hangs up -/

/-- Three bytes of an upload, and then no more. -/
def hungUp : Input := [.ok [1, 2, 3], .error (.other 104)]

/-- A failed upload to `/x`. -/
def streamToX : Transfer shiftAge := .stream (fun _ => none) hungUp

/-- The same upload, encrypted. -/
def encryptToX : Transfer shiftAge := .encrypted (fun _ => none) [()] (7 : UInt8) hungUp

theorem noneThere_bare : NoneThere .bare (locText [ofString "x"]) := by
  have hfinal : FileTree.bare.find false (locText [ofString "x"]) = .error .notFound := by
    decide +kernel
  have hstaging : FileTree.bare.find false (stagingPath (locText [ofString "x"])) =
      .error .notFound := by
    decide +kernel
  constructor
  · intro x hx
    rw [hfinal] at hx
    cases hx
  · intro x hx
    rw [hstaging] at hx
    cases hx

/-- The plain upload leaves nothing. -/
theorem failed_stream_clean :
    (∃ e, (streamToX.run (fun _ _ => none) (locText [ofString "x"]) .bare).2 = .error e) ∧
      NoneThere (streamToX.run (fun _ _ => none) (locText [ofString "x"]) .bare).1
        (locText [ofString "x"]) :=
  (failed_store_clean_iff (fun _ _ => none) .bare [] (ofString "x") streamToX
    (by decide +kernel) noneThere_bare rfl
    ⟨.other 104, List.mem_cons_of_mem _ (List.mem_cons_self ..)⟩).mpr trivial

/-- **The encrypted upload leaves its staging file.** -/
theorem failed_encryption_leaves_staging :
    ¬ ∀ (mk : MkdirFault) (t : FileTree) (P : Loc) (a : OsStr) (call : Transfer shiftAge),
      (∀ s ∈ P ++ [a], IsName s) → NoneThere t (locText (P ++ [a])) → call.Removes → call.Fails →
      (∃ e, (call.run mk (locText (P ++ [a])) t).2 = .error e) ∧
        NoneThere (call.run mk (locText (P ++ [a])) t).1 (locText (P ++ [a])) := by
  intro h
  have hfails : encryptToX.Fails :=
    Or.inl (encryptStream_unread (List.mem_cons_of_mem _ (List.mem_cons_self ..)))
  have hnone := (h (fun _ _ => none) .bare [] (ofString "x") encryptToX (by decide +kernel)
    noneThere_bare rfl hfails).2
  have hleft : (encryptToX.run (fun _ _ => none) (locText [ofString "x"]) .bare).1.find false
      (stagingPath (locText [ofString "x"])) = .ok ([ofString "x.reoftpd-partial"], .file 0) := by
    decide +kernel
  exact hnone.at_staging _ hleft

end Reoftpd

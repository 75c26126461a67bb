import Reoftpd.Cleanup
import Reoftpd.Effects
import Reoftpd.EncryptedClips
import Reoftpd.Footage
import Reoftpd.StoreRace

/-!
# What an acknowledged upload has left

A store that returns `Ok` went all the way: it opened its staging file, wrote all of its
input, linked the staging file to the final name and removed the staging name
(`storeStream_ok`, `storeEncrypted_ok`).  So its final name, which was free, is bound to a
file with the bytes that were staged before and those that were sent, or with the
ciphertext, and unless the removal failed by itself no other name of that file is left
(`storeStream_stored`, `storeEncrypted_stored`).
-/
namespace Reoftpd
open UnixPath FileTree

/-! ## A store that returned `Ok` -/

section Inversion
variable {S H : Type} {ops : TargetOps S H} {s : S} {n : Nat}

/-- What the end of both stores did when it returned `Ok`. -/
theorem finalize_ok {fault : StoreSite → Option Errno} {m : Nat}
    (h : (finalize ops fault s m).2 = .ok n) :
    n = m ∧ ∃ s', ops.hardLink s = .ok s' ∧
      (finalize ops fault s m).1 = dropStaging ops (fault .remove) s' := by
  unfold finalize at h ⊢
  unfold linkStaging at h ⊢
  cases hl : attempt (fault .link) (ops.hardLink s) with
  | ok s' =>
      rw [hl] at h
      exact ⟨(Except.ok.inj h).symm, s', (attempt_ok hl).2, rfl⟩
  | error e =>
      rw [hl] at h
      cases e <;> cases h

/-- The chunks of an input that is read to its end. -/
theorem copyInput_ok {x : H} {input : Input} {m : Nat} {s' : S}
    (h : copyInput ops x s input m = (s', .ok n)) :
    ∃ bs : List Bytes, input = bs.map .ok ∧ n = m + bs.flatten.length ∧
      s' = bs.foldl (fun s b => ops.append s x b) s := by
  induction input generalizing s m with
  | nil =>
      obtain ⟨rfl, hn⟩ := Prod.mk.inj h
      exact ⟨[], rfl, (Except.ok.inj hn).symm, rfl⟩
  | cons c rest ih =>
      cases c with
      | error e => cases (Prod.mk.inj h).2
      | ok b =>
          obtain ⟨bs, rfl, hn, rfl⟩ := ih h
          exact ⟨b :: bs, rfl, by simp [hn, Nat.add_assoc], rfl⟩

/-- The parent directories were made, if the call went on from there. -/
theorem makeParent_ok {f : Option Errno} {s' : S} (h : makeParent ops f s = (s', .ok ())) :
    s' = (ops.createParent s).1 := by
  cases f with
  | none => exact (congrArg Prod.fst h).symm
  | some e => cases (Prod.mk.inj h).2

/-- **What a `store_stream` did that returned `Ok`.** -/
theorem storeStream_ok {fault : StoreSite → Option Errno} {startPos : Nat} {input : Input}
    (h : (storeStream ops fault startPos input s).2 = .ok n) :
    ∃ (s₁ s₂ : S) (x : H) (bs : List Bytes),
      judge startPos (attempt (fault .stat) (ops.stagingLen s)) = .ok .ok ∧
      ops.openAppend (ops.createParent s).1 = .ok (s₁, x) ∧
      input = bs.map .ok ∧ n = bs.flatten.length ∧
      ops.hardLink (bs.foldl (fun s b => ops.append s x b) s₁) = .ok s₂ ∧
      (storeStream ops fault startPos input s).1 = dropStaging ops (fault .remove) s₂ := by
  unfold storeStream at h ⊢
  rcases he : attempt (fault .exists) (ops.tryExists s) with e | (_ | _)
  all_goals simp only [he] at h ⊢
  · cases h
  · rcases hj : judge startPos (attempt (fault .stat) (ops.stagingLen s)) with e | (_ | _ | _)
    all_goals simp only [hj] at h ⊢
    · cases h
    · unfold openAndStream at h ⊢
      rcases hm : makeParent ops (fault .createParent) s with ⟨s₀, e | ⟨⟩⟩
      all_goals simp only [hm] at h ⊢
      · cases h
      · obtain rfl := makeParent_ok hm
        rcases ho : attempt (fault .openStaging) (ops.openAppend (ops.createParent s).1) with
          e | ⟨s₁, x⟩
        all_goals simp only [ho] at h ⊢
        · cases h
        · unfold streamInput at h ⊢
          rcases hc : copyInput ops x s₁ input 0 with ⟨s', e | m⟩
          all_goals simp only [hc] at h ⊢
          · cases h
          · cases hf : fault .flush with
            | some e => simp [hf] at h
            | none =>
                simp only [hf] at h ⊢
                obtain ⟨bs, hbs, hm, rfl⟩ := copyInput_ok hc
                obtain ⟨rfl, s₂, hl, hs⟩ := finalize_ok h
                exact ⟨s₁, s₂, x, bs, trivial, (attempt_ok ho).2, hbs, by simpa using hm, hl, hs⟩
    · cases h
    · cases h
  · cases h

/-- **What a `store_encrypted` did that returned `Ok`.** -/
theorem storeEncrypted_ok {fault : EncryptSite → Option Errno} {out : Encrypted}
    (h : (storeEncrypted ops fault out s).2 = .ok n) :
    ∃ (s₁ s₂ : S) (x : H), out.outcome = .ok n ∧
      ops.createFile (ops.createParent s).1 = .ok (s₁, x) ∧
      (writeChunks ops fault x s₁ 0 0 out.chunks).2 = true ∧
      ops.hardLink (writeChunks ops fault x s₁ 0 0 out.chunks).1 = .ok s₂ ∧
      (storeEncrypted ops fault out s).1 = dropStaging ops (fault .remove) s₂ := by
  -- from the creation of the staging file on
  have hcreate : ∀ s₀, (createAndEncrypt ops fault out s₀).2 = .ok n →
      ∃ s₁ s₂ x, out.outcome = .ok n ∧ ops.createFile s₀ = .ok (s₁, x) ∧
        (writeChunks ops fault x s₁ 0 0 out.chunks).2 = true ∧
        ops.hardLink (writeChunks ops fault x s₁ 0 0 out.chunks).1 = .ok s₂ ∧
        (createAndEncrypt ops fault out s₀).1 = dropStaging ops (fault .remove) s₂ := by
    intro s₀ h
    unfold createAndEncrypt at h ⊢
    rcases ho : attempt (fault .create) (ops.createFile s₀) with e | ⟨s₁, x⟩
    all_goals simp only [ho] at h ⊢
    · cases h
    · rcases hw : writeChunks ops fault x s₁ 0 0 out.chunks with ⟨s', _ | _⟩
      all_goals simp only [hw] at h
      · cases h
      · cases hout : out.outcome with
        | error e => simp [hout] at h
        | ok m =>
            simp only [hout] at h ⊢
            obtain ⟨rfl, s₂, hl, hs⟩ := finalize_ok h
            exact ⟨s₁, s₂, x, rfl, (attempt_ok ho).2, by rw [hw], by rw [hw]; exact hl, hs⟩
  unfold storeEncrypted at h ⊢
  rcases he : attempt (fault .exists) (ops.tryExists s) with e | (_ | _)
  all_goals simp only [he] at h ⊢
  case ok.true => cases h
  all_goals
    rcases hm : makeParent ops (fault .createParent) s with ⟨s₀, e | ⟨⟩⟩
    all_goals simp only [hm] at h ⊢
    · cases h
    · obtain rfl := makeParent_ok hm
      exact hcreate _ h

end Inversion

/-! ## On a directory tree -/

/-- The bytes a path names, none if it names no file. -/
def stagedBytes (t : FileTree) (p : OsStr) : Bytes :=
  match t.readFile p with
  | .ok b => b
  | .error _ => []

/-- **What an acknowledged store has left**: the final name, which was free, is bound to a
file with `bytes`, and the staging name is gone. -/
structure Stored (t s : FileTree) (S F : Loc) (bytes : Bytes) (removes writes : Prop) : Prop where
  free : t.entry F = none
  stored : ∃ i, s.entry F = some (.file i) ∧ s.disk.data i = bytes ∧
    (writes → s.disk.modified i = t.disk.clock)
  unstaged : removes → s.entry S = none

section Tree
variable {t s s' : FileTree} {final : OsStr} {S F : Loc} {mk : MkdirFault} {h n : Nat}

theorem modified_setData_self (t : FileTree) (i : Nat) (b : Bytes) :
    (t.setData i b).disk.modified i = t.disk.clock :=
  Disk.modified_setData_self b

/-- The appends to an open file. -/
theorem foldl_append (bs : List Bytes) (s : FileTree) (x : Nat) :
    let s' := bs.foldl (fun s b => s.append x b) s
    Grows s s' ∧ s'.entry = s.entry ∧ s'.disk.data x = s.disk.data x ++ bs.flatten ∧
      (bs ≠ [] → s'.disk.modified x = s.disk.clock) := by
  induction bs generalizing s with
  | nil => exact ⟨.refl s, rfl, by simp, fun h => absurd rfl h⟩
  | cons b bs ih =>
      obtain ⟨hgrows, hentry, hdata, hmodified⟩ := ih (s.append x b)
      refine ⟨(grows_setData x _).trans hgrows, hentry, ?_, fun _ => ?_⟩
      · rw [List.foldl_cons, hdata, append, data_setData_self]
        simp
      · by_cases hbs : bs = []
        · subst hbs
          exact modified_setData_self s x _
        · exact hmodified hbs

/-- The staging name of a store names the file bound there. -/
theorem stagedBytes_file (hp : StorePlace t final S F) {i : Nat}
    (hS : t.entry S = some (.file i)) : stagedBytes t (stagingPath final) = t.disk.data i := by
  have hlocate : t.locate true (stagingPath final) = .ok S := by
    rw [hp.staging_eq]
    exact locate_locText (by simp [hS]) fun target hlink => by
      rw [hS] at hlink
      cases hlink
  simp [stagedBytes, readFile, find_ok.mpr ⟨hlocate, hS⟩]

theorem stagedBytes_absent (hp : StorePlace t final S F) (hS : t.entry S = none) :
    stagedBytes t (stagingPath final) = [] := by
  have hfind : ∀ L e, t.find true (stagingPath final) ≠ .ok (L, e) := by
    intro L e hf
    obtain ⟨hl, he⟩ := find_ok.mp hf
    rw [hp.locate_staging hl, hS] at he
    cases he
  unfold stagedBytes readFile
  rcases hf : t.find true (stagingPath final) with err | ⟨L, e⟩
  · rfl
  · exact absurd hf (hfind L e)

/-- The open of the staging name finds what is staged. -/
theorem staged_of_openFile (hp : StorePlace t final S F) (ha : AddsDirs t s)
    (ho : s.openFile (stagingPath final) = .ok (s', h)) :
    s'.entry S = some (.file h) ∧ s'.disk.data h = stagedBytes t (stagingPath final) ∧
      s'.disk.clock = s.disk.clock := by
  have hps : StorePlace s final S F := hp.of_sameLinks ha.grows.toSameLinks
  obtain ⟨L, hl, hcases⟩ := openFile_ok ho
  obtain rfl := hps.locate_staging hl
  rcases hcases with ⟨hi, rfl⟩ | ⟨hv, rfl, rfl⟩
  · exact ⟨hi, by rw [stagedBytes_file hp (ha.file_iff.mp hi), ha.data], rfl⟩
  · have hnone : t.entry L = none := by
      rcases ha.entry L with heq | ⟨hnone, -⟩
      · rw [← heq]
        exact hv.2.1
      · exact hnone
    exact ⟨entry_createAt_self hv, by rw [data_createAt_self hv, stagedBytes_absent hp hnone],
      clock_createAt⟩

theorem discard_modified (t : FileTree) (p : OsStr) :
    (t.discard p).disk.modified = t.disk.modified := by
  unfold FileTree.discard
  split
  · rename_i t' hr
    obtain ⟨L, e, -, -, -, rfl⟩ := removeFile_ok hr
    exact sameContents_eraseAt.modified
  · rfl

/-- The end of a store: the link is made, and the staging name removed. -/
theorem stored_of_link {bytes : Bytes} {removes writes : Prop} {f : Option Errno} {s₂ : FileTree}
    (hp : StorePlace t final S F) (hg : SameLinks t s) (hF : s.entry F = none → t.entry F = none)
    (hS : s.entry S = some (.file h)) (hdata : s.disk.data h = bytes)
    (hmodified : writes → s.disk.modified h = t.disk.clock) (hf : removes → f = none)
    (hl : s.hardLink (stagingPath final) final = .ok s₂) :
    Stored t (dropStaging (treeTarget mk final) f s₂) S F bytes removes writes := by
  have hps : StorePlace s final S F := hp.of_sameLinks hg
  obtain ⟨A, D, e, hsrc, he, -, hdst, hv, rfl⟩ := hardLink_ok hl
  obtain rfl := hps.locate_staging hsrc
  obtain rfl := hps.locate_final hdst
  obtain rfl : e = .file h := Option.some.inj (he.symm.trans hS)
  have hsame : SameContents s (s.linkAt A D) := sameContents_linkAt
  have hps₂ : StorePlace (s.linkAt A D) final A D :=
    hps.of_sameLinks (grows_linkAt hv he).toSameLinks
  have hfinal : (s.linkAt A D).entry D = some (.file h) := entry_linkAt_self hv he
  have hstaging : (s.linkAt A D).entry A = some (.file h) := by
    rw [entry_linkAt_ne hp.ne]
    exact hS
  cases f with
  | some e =>
      refine ⟨hF hv.2.1, ⟨h, hfinal, by rw [dropStaging, hsame.data, hdata], fun hw => ?_⟩,
        fun hr => ?_⟩
      · rw [dropStaging, hsame.modified, hmodified hw]
      · cases hf hr
  | none =>
      obtain ⟨hentry, hkept⟩ := entry_discard_ne hps₂ hp.ne.symm
      refine ⟨hF hv.2.1, ⟨h, hentry.trans hfinal, ?_, fun hw => ?_⟩, fun _ => ?_⟩
      · show ((s.linkAt A D).discard (stagingPath final)).disk.data h = bytes
        rw [hkept, hsame.data, hdata]
      · show ((s.linkAt A D).discard (stagingPath final)).disk.modified h = _
        rw [discard_modified, hsame.modified, hmodified hw]
      · exact entry_discard_staging hps₂ hstaging

/-- What is free in a tree with more directories was free. -/
theorem free_of_addsDirs (ha : AddsDirs t s) {M : Loc} (hM : s.entry M = none) :
    t.entry M = none := by
  rcases ha.entry M with heq | ⟨hnone, -⟩
  · rw [← heq]
    exact hM
  · exact hnone

/-- What is free once a file was opened beside it was free. -/
theorem free_of_openFile (hp : StorePlace t final S F) (ha : AddsDirs t s)
    (ho : s.openFile (stagingPath final) = .ok (s', h)) (hF : s'.entry F = none) :
    t.entry F = none := by
  have hps : StorePlace s final S F := hp.of_sameLinks ha.grows.toSameLinks
  obtain ⟨L, hl, hcases⟩ := openFile_ok ho
  obtain rfl := hps.locate_staging hl
  rcases hcases with ⟨-, rfl⟩ | ⟨-, rfl, -⟩
  · exact free_of_addsDirs ha hF
  · rw [entry_createAt_ne hp.ne.symm] at hF
    exact free_of_addsDirs ha hF

theorem sameContents_createParent (mk : MkdirFault) (final : OsStr) (t : FileTree) :
    SameContents t ((treeTarget mk final).createParent t).1 := by
  unfold treeTarget
  dsimp only
  split
  · exact sameContents_createDirAll mk t _
  · exact ⟨rfl, rfl, rfl, rfl⟩

/-- **An acknowledged `store_stream`** has bound its final name to what was staged and what
was sent. -/
theorem storeStream_stored (hp : StorePlace t final S F) (mk : MkdirFault)
    {fault : StoreSite → Option Errno} {startPos : Nat} {input : Input}
    (hok : (storeStream (treeTarget mk final) fault startPos input t).2 = .ok n) :
    ∃ bs : List Bytes, input = bs.map .ok ∧ n = bs.flatten.length ∧
      Stored t (storeStream (treeTarget mk final) fault startPos input t).1 S F
        (stagedBytes t (stagingPath final) ++ bs.flatten) (fault .remove = none)
        (bs.flatten ≠ []) := by
  obtain ⟨s₁, s₂, x, bs, -, ho, hbs, hn, hl, htree⟩ := storeStream_ok hok
  have ha := addsDirs_createParent mk final t
  obtain ⟨hgrows, hentry, hdata, hmodified⟩ := foldl_append bs s₁ x
  obtain ⟨hS, hstaged, hclock⟩ := staged_of_openFile hp ha ho
  have hopen : StoreOpen t s₁ S F x := storeOpen_of_openFile hp ha ho
  refine ⟨bs, hbs, hn, ?_⟩
  rw [htree]
  refine stored_of_link hp (hopen.grows.trans hgrows).toSameLinks (fun hF => ?_)
    (by rw [hentry]; exact hS) (by rw [hdata, hstaged]) (fun hw => ?_) id hl
  · rw [hentry] at hF
    exact free_of_openFile hp ha ho hF
  · have hne : bs ≠ [] := by
      rintro rfl
      exact hw rfl
    rw [hmodified hne, hclock, (sameContents_createParent ..).clock]

/-- **An acknowledged `store_encrypted`** has bound its final name to the ciphertext. -/
theorem storeEncrypted_stored (hp : StorePlace t final S F) (mk : MkdirFault)
    {fault : EncryptSite → Option Errno} {out : Encrypted}
    (hok : (storeEncrypted (treeTarget mk final) fault out t).2 = .ok n) :
    out.outcome = .ok n ∧
      Stored t (storeEncrypted (treeTarget mk final) fault out t).1 S F out.chunks.flatten
        (fault .remove = none) True := by
  obtain ⟨s₁, s₂, x, hout, ho, hall, hl, htree⟩ := storeEncrypted_ok hok
  obtain ⟨s₀, hfile, rfl⟩ := openTruncate_ok ho
  have ha := addsDirs_createParent mk final t
  obtain ⟨hS, -, hclock⟩ := staged_of_openFile hp ha hfile
  have hopen : StoreOpen t s₀ S F x := storeOpen_of_openFile hp ha hfile
  -- what the writes keep, and what they have written
  obtain ⟨ws, rest, hws, ⟨hgrows, hentry, hdata, hclock', hmodified⟩, hrest⟩ :=
    @writeChunks_ind _ _ (treeTarget mk final) fault
      (fun ws s => Grows s₀ s ∧ s.entry = s₀.entry ∧ s.disk.data x = ws.flatten ∧
        s.disk.clock = s₀.disk.clock ∧ s.disk.modified x = s₀.disk.clock) x
      (fun s ws b hJ => by
        obtain ⟨hgrows, hentry, hdata, hclock, -⟩ := hJ
        refine ⟨hgrows.trans (grows_setData x _), hentry, ?_, hclock, ?_⟩
        · show (s.setData x _).disk.data x = _
          rw [data_setData_self, hdata, Disk.overwrite_length]
          simp
        · show (s.setData x _).disk.modified x = _
          rw [modified_setData_self, hclock])
      out.chunks [] (s₀.setData x []) 0
      ⟨grows_setData x [], rfl, data_setData_self _, rfl, modified_setData_self _ _ _⟩
  obtain rfl := hrest hall
  simp only [List.nil_append, List.append_nil] at hws
  subst hws
  refine ⟨hout, ?_⟩
  rw [htree]
  refine stored_of_link hp (hopen.grows.trans hgrows).toSameLinks (fun hF => ?_)
    (by rw [hentry]; exact hS) hdata (fun _ => ?_) id hl
  · rw [hentry] at hF
    exact free_of_openFile hp ha hfile hF
  · rw [hmodified, hclock, (sameContents_createParent ..).clock]

end Tree

/-! ## Requests -/

/-- A file in the archive: its bytes and the time it was last written. -/
structure Clip where
  bytes : Bytes
  modified : Nat
  deriving DecidableEq

/-- The place of a probe: directly in a directory named `.quarantine`, under a probe's
name. -/
def ProbePlaced (L : Loc) : Prop :=
  L.dropLast.getLast? = some quarantineDir ∧
    isReolinkTestFile (toStringLossy (L.getLastD [])) = true

/-- The name of a clip: neither that of a staging file nor that of a probe. -/
def ClipNamed (L : Loc) : Prop := ¬ StagingNamed L ∧ ¬ ProbePlaced L

instance : DecidablePred StagingNamed := fun _ => inferInstanceAs (Decidable (_ = true))

instance : DecidablePred ProbePlaced := fun _ => inferInstanceAs (Decidable (_ ∧ _))

instance : DecidablePred ClipNamed := fun _ => inferInstanceAs (Decidable (¬ _ ∧ ¬ _))

/-- The removals of staging names in a request do not fail by themselves. -/
def Request.Removes {age : Age} (req : Request age) : Prop :=
  ∀ path startPos input seed faults, req.call = .put path startPos input seed faults →
    faults.store .remove = none ∧ faults.encrypt .remove = none

/-- The name an upload is stored under. -/
def finalPath {age : Age} (backend : ReoBackend age) (resolved : OsStr) : OsStr :=
  resolved ++ backend.suffix

theorem finalPath_plain {age : Age} (resolved : OsStr) :
    finalPath (⟨none⟩ : ReoBackend age) resolved = resolved := List.append_nil resolved

/-- **What an upload is stored as**: all of its input, after what was staged before, or the
ciphertext of all of its input. -/
def storedBytes {age : Age} (backend : ReoBackend age) (t : FileTree) (resolved : OsStr)
    (seed : age.Seed) (input : Input) : Bytes :=
  match backend.recipients with
  | none => stagedBytes t (stagingPath resolved) ++ pendingBytes input
  | some recipients => (encryptStream age recipients seed input).chunks.flatten

/-- **An upload was acknowledged** that stored `c` at `L`. -/
structure StoredBy {age : Age} (backend : ReoBackend age) (t : FileTree) (req : Request age)
    (L : Loc) (c : Clip) : Prop where
  acknowledged : ∃ path startPos input seed faults resolved, ∃ bs : List Bytes,
    req.call = .put path startPos input seed faults ∧
      (serve backend t req).2 = .put (.ok bs.flatten.length) ∧
      (userView req.user).resolve t path = .ok resolved ∧ input = bs.map .ok ∧
      finalPath backend resolved = locText L ∧
      c.bytes = storedBytes backend t resolved seed input ∧
      (bs.flatten ≠ [] → c.modified = t.disk.clock)

/-- **What a request leaves**: it worked on a file at `O`, which is no clip's name, and may
have bound `F` to it; if `F` is a clip's name, it did so with an acknowledged upload. -/
structure RequestLeaves {age : Age} (backend : ReoBackend age) (t : FileTree) (req : Request age)
    (O F : Loc) : Prop where
  effect : Effect [] O F t (afterRequest backend t req)
  opens : ¬ ClipNamed O
  single : req.Removes → ∀ i, (afterRequest backend t req).entry O = some (.file i) →
    (afterRequest backend t req).entry F = some (.file i) →
      O = F ∨ t.entry O = some (.file i) ∧ t.entry F = some (.file i)
  stored : ∀ i, (afterRequest backend t req).entry F = some (.file i) →
    t.entry F ≠ some (.file i) → ClipNamed F → StoredBy backend t req F
      ⟨(afterRequest backend t req).disk.data i, (afterRequest backend t req).disk.modified i⟩

section Request
variable {age : Age} {backend : ReoBackend age} {t s : FileTree} {user : ReoUser} {path : OsStr}
  {startPos : Nat} {input : Input} {seed : age.Seed} {faults : PutFaults} {L O : Loc}

theorem stagingNamed_concat (P : Loc) (f : OsStr) : StagingNamed (P ++ [f ++ stagingSuffix]) := by
  have hlast : (P ++ [f ++ stagingSuffix]).getLastD [] = f ++ stagingSuffix := by simp
  rw [StagingNamed, hlast]
  exact List.isSuffixOf_iff_suffix.mpr (List.suffix_append f stagingSuffix)

theorem ProbeName.placed (h : ProbeName t user L) : ProbePlaced L := by
  obtain ⟨home, B, name, -, -, hprobe, rfl⟩ := h
  have hsplit : B ++ [quarantineDir, ofString name] =
      (B ++ [quarantineDir]) ++ [ofString name] := by
    simp
  rw [ProbePlaced, hsplit]
  simp [toStringLossy_ofString, hprobe]

theorem pendingBytes_map (bs : List Bytes) : pendingBytes (bs.map .ok) = bs.flatten := by
  induction bs with
  | nil => rfl
  | cons b bs ih => simp [pendingBytes, ih]

/-- Only a store that failed is answered with an error. -/
theorem storeReply_error {r : StoreResult} {e : StorageError} (h : storeReply r = .error e) :
    ∃ e', r = .error e' := by
  cases r with
  | ok n => cases h
  | error e' => exact ⟨e', rfl⟩

/-- The place of some probe. -/
def someProbe : Loc := [quarantineDir, ofString "test"]

theorem probePlaced_someProbe : ProbePlaced someProbe := by decide

/-- Where directories are made, they are made below the root. -/
theorem effect_dirs (ha : FileTree.AddsDirs t s) (hc : FileTree.SameContents t s) (O F : Loc) :
    Effect [] O F t s :=
  .of_addsDirs ha hc fun _ _ => List.nil_prefix

/-- A request that only makes directories. -/
theorem requestLeaves_dirs {req : Request age}
    (ha : FileTree.AddsDirs t (afterRequest backend t req))
    (hc : FileTree.SameContents t (afterRequest backend t req)) :
    ∃ O F, RequestLeaves backend t req O F :=
  ⟨someProbe, someProbe, effect_dirs ha hc _ _, fun h => h.2 probePlaced_someProbe,
    fun _ _ _ _ => Or.inl rfl, fun _ hi hnew => absurd (ha.file_iff.mp hi) hnew⟩

/-- **A probe** works on its place. -/
theorem requestLeaves_probe {home name : OsStr} (hfree : t.LinkFree home)
    (hrole : user.role = .uploader home) (hname : fileName path = some name)
    (hprobe : isReolinkTestFile (toStringLossy name) = true)
    (hafter : afterRequest backend t ⟨user, .put path startPos input seed faults⟩ =
      (putProbe faults home (toStringLossy name) input t).1) :
    ∃ O F, RequestLeaves backend t ⟨user, .put path startPos input seed faults⟩ O F := by
  have hc := sameContents_createDirAll faults.mkdir t (join home quarantineDir)
  have ha := addsDirs_createDirAll faults.mkdir t (join home quarantineDir)
  have hdirs : (putProbe faults home (toStringLossy name) input t).1 =
      (t.createDirAll faults.mkdir (join home quarantineDir)).1 →
      ∃ O F, RequestLeaves backend t ⟨user, .put path startPos input seed faults⟩ O F := by
    intro h
    rw [h] at hafter
    exact requestLeaves_dirs (hafter ▸ ha) (hafter ▸ hc)
  unfold putProbe at hafter hdirs
  rcases hm : t.createDirAll faults.mkdir (join home quarantineDir) with ⟨t₁, e | ⟨⟩⟩
  all_goals simp only [hm] at ha hc hafter hdirs
  · exact hdirs trivial
  · rcases ho :
      attempt faults.openProbe (t₁.openTruncate (probeDest home (toStringLossy name))) with
      e | ⟨t₂, i⟩
    all_goals simp only [ho] at hafter hdirs
    · exact hdirs trivial
    · obtain ⟨t₃, hfile, rfl⟩ := openTruncate_ok (attempt_ok ho).2
      obtain ⟨L, hl, -⟩ := openFile_ok hfile
      have hplaced : ProbePlaced L :=
        (probeName_of_locate hfree hrole hname hprobe ha.grows.toSameLinks hl).placed
      obtain ⟨heffect, hi⟩ := (effect_dirs ha hc L L).openFile hfile fun M hM =>
        (Except.ok.inj (hl.symm.trans hM)).symm
      have hcopied := effect_copyProbe input 0 (heffect.setData hi []) hi
      refine ⟨L, L, by rw [hafter]; exact hcopied, fun h => h.2 hplaced,
        fun _ _ _ _ => Or.inl rfl, fun _ _ _ h => absurd hplaced h.2⟩

/-- What is acknowledged is what was stored. -/
theorem Stored.clip {S F : Loc} {bytes : Bytes} {removes writes : Prop} {i : Nat}
    (h : Stored t s S F bytes removes writes) (hi : s.entry F = some (.file i)) :
    s.disk.data i = bytes ∧ (writes → s.disk.modified i = t.disk.clock) := by
  obtain ⟨j, hj, hdata, hmodified⟩ := h.stored
  obtain rfl : j = i := by simpa [hj] using hi
  exact ⟨hdata, hmodified⟩

/-- What the store branch of a `put` leaves that returned `r`: all that a store leaves, and
if it is acknowledged, all of the upload. -/
structure PutLeaves (backend : ReoBackend age) (faults : PutFaults) (seed : age.Seed)
    (resolved : OsStr) (input : Input) (t s : FileTree) (S F : Loc)
    (r : Except StorageError Nat) : Prop where
  staging : StagingNamed S
  final : finalPath backend resolved = locText F
  names : ∀ a ∈ F, IsName a
  effect : Effect [] S F t s
  failed : ∀ e, r = .error e → ∀ i, s.entry F = some (.file i) → t.entry F = some (.file i)
  stored : ∀ n, r = .ok n → ∃ bs : List Bytes, input = bs.map .ok ∧ n = bs.flatten.length ∧
    Stored t s S F (storedBytes backend t resolved seed input)
      (faults.store .remove = none ∧ faults.encrypt .remove = none) (bs.flatten ≠ [])

/-- **What the store branch of a `put` leaves.** -/
theorem putStore_put_leaves (backend : ReoBackend age) (faults : PutFaults) (seed : age.Seed)
    (startPos : Nat) (input : Input) {home name resolved : OsStr} (hfree : t.LinkFree home)
    (hname : fileName path = some name)
    (hres : (ScopeMap.ofRoot home).resolve t path = .ok resolved) :
    ∃ S F, PutLeaves backend faults seed resolved input t
      (putStore backend.recipients faults seed resolved startPos input t).1 S F
      (putStore backend.recipients faults seed resolved startPos input t).2 := by
  have hdirs : ∀ final S F, Effect [] S F t ((treeTarget faults.mkdir final).createParent t).1 :=
    fun final S F => effect_dirs (addsDirs_createParent _ _ _) (sameContents_createParent _ _ _) S F
  obtain ⟨recipients⟩ := backend
  cases recipients with
  | none =>
      obtain ⟨P, f, -, hp⟩ := storePlace_of_resolve (x := []) hfree hres hname (by decide)
      rw [List.append_nil, List.append_nil] at hp
      have hleaves := storeStream_leaves hp (hdirs resolved _ _) faults.store startPos input
      refine ⟨_, _, stagingNamed_concat P f, (finalPath_plain resolved).trans hp.final_eq,
        hp.finalNames, hleaves.1, fun e he => ?_, fun n hn => ?_⟩
      · obtain ⟨e', he'⟩ := storeReply_error he
        exact hleaves.2 e' he'
      · obtain ⟨bs, rfl, hlen, hstored⟩ := storeStream_stored hp faults.mkdir (storeReply_ok hn)
        have hbytes : storedBytes ⟨none⟩ t resolved seed (bs.map .ok) =
            stagedBytes t (stagingPath resolved) ++ bs.flatten := by
          simp [storedBytes, pendingBytes_map]
        rw [hbytes]
        exact ⟨bs, rfl, hlen, hstored.free, hstored.stored, fun hr => hstored.unstaged hr.1⟩
  | some recipients =>
      obtain ⟨P, f, -, hp⟩ :=
        storePlace_of_resolve (x := ofString ".age") hfree hres hname (by decide)
      by_cases hpos : startPos ≠ 0
      · -- an upload that is to go on somewhere is refused
        simp only [putStore, if_pos hpos]
        refine ⟨_, P ++ [f ++ ofString ".age"], stagingNamed_concat P f, hp.final_eq, hp.finalNames,
          .refl _ _ _ _, fun _ _ _ hi => hi, fun n hn => ?_⟩
        cases hn
      · have hleaves := storeEncrypted_leaves hp (hdirs (ageSuffix resolved) _ _) faults.encrypt
          (encryptStream age recipients seed input)
        simp only [putStore, if_neg hpos]
        refine ⟨_, _, stagingNamed_concat P _, hp.final_eq, hp.finalNames, hleaves.1,
          fun e he => ?_, fun n hn => ?_⟩
        · obtain ⟨e', he'⟩ := storeReply_error he
          exact hleaves.2 e' he'
        · obtain ⟨hout, hstored⟩ := storeEncrypted_stored hp faults.mkdir (storeReply_ok hn)
          obtain ⟨bs, -, -, -, hbs, hlen, -⟩ := encryptStream_ok hout
          obtain ⟨i, hi, hdata, hmodified⟩ := hstored.stored
          exact ⟨bs, hbs, hlen, hstored.free, ⟨i, hi, hdata, fun _ => hmodified trivial⟩,
            fun hr => hstored.unstaged hr.2⟩

/-- **A store** works on its staging name, and binds its final name when it is
acknowledged. -/
theorem requestLeaves_store {home name resolved : OsStr} (hfree : t.LinkFree home)
    (hrole : user.role = .uploader home) (hname : fileName path = some name)
    (hres : (ScopeMap.ofRoot home).resolve t path = .ok resolved)
    (hserve : serve backend t ⟨user, .put path startPos input seed faults⟩ =
      ((putStore backend.recipients faults seed resolved startPos input t).1,
        .put (putStore backend.recipients faults seed resolved startPos input t).2)) :
    ∃ O F, RequestLeaves backend t ⟨user, .put path startPos input seed faults⟩ O F := by
  have hview : (userView user).resolve t path = .ok resolved := by
    rw [userView_uploader hrole]
    exact hres
  obtain ⟨S, F, h⟩ := putStore_put_leaves backend faults seed startPos input hfree hname hres
  have hafter : afterRequest backend t ⟨user, .put path startPos input seed faults⟩ =
      (putStore backend.recipients faults seed resolved startPos input t).1 :=
    congrArg Prod.fst hserve
  rw [← hafter] at h
  refine ⟨S, F, h.effect, fun hS => hS.1 h.staging, fun hremoves i hi hi' => ?_,
    fun i hi hnew _ => ?_⟩
  · cases hr : (putStore backend.recipients faults seed resolved startPos input t).2 with
    | ok n =>
        obtain ⟨bs, -, -, hstored⟩ := h.stored n hr
        rw [hstored.unstaged (hremoves _ _ _ _ _ rfl)] at hi
        cases hi
    | error e =>
        have hF := h.failed e hr i hi'
        rcases h.effect.opened i hi with hin | hfresh
        · exact Or.inr ⟨hin, hF⟩
        · exact absurd (lt_fresh hF) (Nat.not_lt.mpr hfresh)
  · cases hr : (putStore backend.recipients faults seed resolved startPos input t).2 with
    | ok n =>
        obtain ⟨bs, hbs, rfl, hstored⟩ := h.stored n hr
        have hreply : (serve backend t ⟨user, .put path startPos input seed faults⟩).2 =
            .put (.ok bs.flatten.length) := by
          rw [hserve, hr]
        exact ⟨⟨path, startPos, input, seed, faults, resolved, bs, rfl, hreply, hview, hbs, h.final,
          (hstored.clip hi).1, (hstored.clip hi).2⟩⟩
    | error e => exact absurd (h.failed e hr i hi) hnew

/-- **What any request leaves**, made by a user whose home, if it is a camera, has no
links. -/
theorem request_leaves (backend : ReoBackend age) {req : Request age}
    (hfree : JailFree t req.user) :
    ∃ O F, RequestLeaves backend t req O F := by
  obtain ⟨user, call⟩ := req
  have hsame : ∀ {r}, afterRequest backend t r = t → ∃ O F, RequestLeaves backend t r O F := by
    intro r h
    refine requestLeaves_dirs ?_ ?_ <;> rw [h]
    · exact .refl t
    · exact ⟨rfl, rfl, rfl, rfl⟩
  cases call with
  | put path startPos input seed faults =>
      have hcase : PutCase backend faults seed user path startPos input t
          (backend.put faults seed user path startPos input t) := put_case
      generalize hput : backend.put faults seed user path startPos input t = r at hcase
      have hserve : serve backend t ⟨user, .put path startPos input seed faults⟩ =
          (r.1, .put r.2) := by
        rw [← hput]
        rfl
      cases hcase with
      | refused e => exact hsame (congrArg Prod.fst hserve)
      | probe home name hrole hname hprobe =>
          exact requestLeaves_probe (hfree home hrole) hrole hname hprobe (congrArg Prod.fst hserve)
      | store home name resolved hrole hname hprobe hres =>
          exact requestLeaves_store (hfree home hrole) hrole hname hres hserve
  | mkd path mk =>
      refine requestLeaves_dirs (addsDirs_mkd mk user path t) ?_
      show FileTree.SameContents t (ReoBackend.mkd mk user path t).1
      unfold ReoBackend.mkd
      split
      · exact ⟨rfl, rfl, rfl, rfl⟩
      · split
        · exact ⟨rfl, rfl, rfl, rfl⟩
        · rename_i real _
          have hc := sameContents_createDirAll mk t real
          split <;> (rename_i heq; rw [heq] at hc; exact hc)
  | metadata path => exact hsame rfl
  | list path => exact hsame rfl
  | get path startPos => exact hsame rfl
  | del path => exact hsame rfl
  | rename source target => exact hsame rfl
  | rmd path => exact hsame rfl
  | cwd path => exact hsame rfl

end Request

end Reoftpd

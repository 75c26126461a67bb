import Reoftpd.FileTreeFacts
import Reoftpd.StoreEncrypted

/-!
# Stores on a directory tree

The two stores with the calls they really make (`treeTarget`), on a final path that is
the text of a location with no link on the way.  Whatever happens, such a store leaves
everything as it was but the final and the staging name, the inode the staging name was
bound to, and the directories it made (`StoreFrame`).
-/
namespace Reoftpd
open UnixPath FileTree

/-- The calls of one store on `final`. -/
def treeTarget (mkdirFault : MkdirFault) (final : OsStr) : TargetOps FileTree Nat where
  tryExists t := t.tryExists final
  stagingLen t := (t.metadata (stagingPath final)).map FileStat.len
  createParent t :=
    match parent (stagingPath final) with
    | some p => t.createDirAll mkdirFault p
    | none => (t, .ok ())
  openAppend t := t.openAppend (stagingPath final)
  createFile t := t.openTruncate (stagingPath final)
  append t i b := t.append i b
  writeAt t i off b := t.writeAt i off b
  hardLink t := t.hardLink (stagingPath final) final
  removeStaging t := t.discard (stagingPath final)

/-- A final path and its staging path are the texts of two locations, with no link on
the way to either. -/
structure StorePlace (t : FileTree) (final : OsStr) (S F : Loc) : Prop where
  final_eq : final = locText F
  staging_eq : stagingPath final = locText S
  finalNames : ∀ s ∈ F, IsName s
  stagingNames : ∀ s ∈ S, IsName s
  finalStraight : t.Straight F
  stagingStraight : t.Straight S

theorem stagingPath_locText {P : Loc} {f : OsStr} :
    stagingPath (locText (P ++ [f])) = locText (P ++ [f ++ stagingSuffix]) :=
  locText_suffix P f stagingSuffix

/-- What a store leaves as it was. -/
structure StoreFrame (t s : FileTree) (S F : Loc) : Prop where
  grows : Grows t s
  entry : ∀ M, M ≠ S → M ≠ F → s.entry M = t.entry M ∨ t.entry M = none ∧ s.entry M = some .dir
  final : t.entry F ≠ none → s.entry F = t.entry F
  data : ∀ i, i < t.disk.fresh → t.entry S ≠ some (.file i) → s.disk.data i = t.disk.data i

/-- What holds of a store that has its staging file open on `h`. -/
structure StoreOpen (t s : FileTree) (S F : Loc) (h : Nat) : Prop extends StoreFrame t s S F where
  handle : s.entry S = some (.file h)
  inode : t.entry S = some (.file h) ∨ t.disk.fresh ≤ h
  notFinal : ∀ i, s.entry F = some (.file i) → t.entry F = some (.file i)

section Frame
variable {t s s' : FileTree} {final : OsStr} {S F : Loc} {h : Nat} {mk : MkdirFault}

theorem StorePlace.ne (hp : StorePlace t final S F) : S ≠ F := by
  rintro rfl
  exact stagingPath_ne final (hp.staging_eq.trans hp.final_eq.symm)

theorem StorePlace.of_sameLinks (hp : StorePlace t final S F) (h : SameLinks t s) :
    StorePlace s final S F :=
  { hp with
    finalStraight := hp.finalStraight.of_sameLinks h
    stagingStraight := hp.stagingStraight.of_sameLinks h }

/-- Where the staging path leads, with or without a link at the end followed. -/
theorem StorePlace.locate_staging (hp : StorePlace t final S F) {b : Bool} {L : Loc}
    (hl : t.locate b (stagingPath final) = .ok L) : L = S := by
  rw [hp.staging_eq] at hl
  exact hp.stagingStraight.locate hp.stagingNames hl

theorem StorePlace.locate_final (hp : StorePlace t final S F) {b : Bool} {L : Loc}
    (hl : t.locate b final = .ok L) : L = F := by
  rw [hp.final_eq] at hl
  exact hp.finalStraight.locate hp.finalNames hl

/-- What is bound on a straight way and is no directory is a file. -/
theorem file_of_straight {L : Loc} {e : Entry OsStr} (hL : t.Straight L) (he : t.entry L = some e)
    (hdir : e.isDir = false) : ∃ i, e = .file i := by
  cases e with
  | dir => cases hdir
  | file i => exact ⟨i, rfl⟩
  | link target =>
      have hne : L ≠ [] := (childless_of_entry he hdir).1
      exact absurd he (hL L List.prefix_rfl hne target)

theorem StoreFrame.refl (t : FileTree) (S F : Loc) : StoreFrame t t S F :=
  ⟨.refl t, fun _ _ _ => Or.inl rfl, fun _ => rfl, fun _ _ _ => rfl⟩

theorem storeFrame_of_addsDirs (ha : AddsDirs t s) (S F : Loc) : StoreFrame t s S F := by
  refine ⟨ha.grows, fun M _ _ => ha.entry M, fun hF => ?_, fun i _ _ => by rw [ha.data]⟩
  rcases ha.entry F with h | ⟨h, -⟩
  · exact h
  · exact absurd h hF

theorem addsDirs_createParent (mk : MkdirFault) (final : OsStr) (t : FileTree) :
    AddsDirs t ((treeTarget mk final).createParent t).1 := by
  show AddsDirs t (match parent (stagingPath final) with
    | some p => t.createDirAll mk p
    | none => (t, .ok ())).1
  split
  · exact addsDirs_createDirAll mk t _
  · exact .refl t

/-- The removal of the staging name takes nothing else away. -/
theorem StoreFrame.discard (hp : StorePlace t final S F) (hf : StoreFrame t s S F) :
    StoreFrame t (s.discard (stagingPath final)) S F := by
  have hp' : StorePlace s final S F := hp.of_sameLinks hf.grows.toSameLinks
  unfold FileTree.discard
  split
  · rename_i s' hr
    obtain ⟨L, e, hl, he, hdir, rfl⟩ := removeFile_ok hr
    obtain rfl := hp'.locate_staging hl
    obtain ⟨i, rfl⟩ := file_of_straight hp'.stagingStraight he hdir
    refine ⟨hf.grows.trans (grows_eraseAt he), fun M hMS hMF => ?_, fun hF => ?_, fun j hj hS => ?_⟩
    · rw [entry_eraseAt_ne hMS]
      exact hf.entry M hMS hMF
    · rw [entry_eraseAt_ne hp.ne.symm]
      exact hf.final hF
    · rw [data_eraseAt]
      exact hf.data j hj hS
  · exact hf

/-- The open of the staging name finds the file it is bound to, or makes a new one. -/
theorem storeOpen_of_openFile (hp : StorePlace t final S F) (ha : AddsDirs t s)
    (ho : s.openFile (stagingPath final) = .ok (s', h)) : StoreOpen t s' S F h := by
  have hp' : StorePlace s final S F := hp.of_sameLinks ha.grows.toSameLinks
  have hf : StoreFrame t s S F := storeFrame_of_addsDirs ha S F
  obtain ⟨L, hl, hcases⟩ := openFile_ok ho
  obtain rfl := hp'.locate_staging hl
  rcases hcases with ⟨hi, rfl⟩ | ⟨hv, rfl, rfl⟩
  · exact ⟨hf, hi, Or.inl (ha.file_iff.mp hi), fun i hi => ha.file_iff.mp hi⟩
  · have hfresh : ∀ i, i < t.disk.fresh → i ≠ s.disk.fresh := by
      intro i hi
      rw [ha.fresh]
      exact Nat.ne_of_lt hi
    refine ⟨⟨hf.grows.trans (grows_createAt hv), fun M hMS hMF => ?_, fun hF => ?_,
      fun i hi hS => ?_⟩, entry_createAt_self hv, Or.inr ha.fresh.ge, fun i hi => ?_⟩
    · rw [entry_createAt_ne hMS]
      exact hf.entry M hMS hMF
    · rw [entry_createAt_ne hp.ne.symm]
      exact hf.final hF
    · rw [data_createAt_ne (hfresh i hi)]
      exact hf.data i hi hS
    · rw [entry_createAt_ne hp.ne.symm] at hi
      exact ha.file_iff.mp hi

/-- Writes to the open staging file touch no other. -/
theorem StoreOpen.setData (hJ : StoreOpen t s S F h) (b : Bytes) :
    StoreOpen t (s.setData h b) S F h := by
  refine ⟨⟨hJ.grows.trans (grows_setData h b), hJ.entry, hJ.final, fun i hi hS => ?_⟩, hJ.handle,
    hJ.inode, hJ.notFinal⟩
  have hih : i ≠ h := by
    rintro rfl
    rcases hJ.inode with hin | hin
    · exact hS hin
    · omega
  rw [data_setData_ne b hih]
  exact hJ.data i hi hS

/-- The link binds the final name to the staging file. -/
theorem StoreOpen.link (hp : StorePlace t final S F) (hJ : StoreOpen t s S F h)
    (hl : s.hardLink (stagingPath final) final = .ok s') :
    StoreFrame t s' S F ∧ t.entry F = none ∧ s'.entry S = some (.file h) ∧
      s'.entry F = some (.file h) ∧ s'.disk.data = s.disk.data := by
  have hp' : StorePlace s final S F := hp.of_sameLinks hJ.grows.toSameLinks
  obtain ⟨L, D, e, hsrc, he, -, hdst, hv, rfl⟩ := hardLink_ok hl
  obtain rfl := hp'.locate_staging hsrc
  obtain rfl := hp'.locate_final hdst
  obtain rfl : e = .file h := Option.some.inj (he.symm.trans hJ.handle)
  have hF : t.entry D = none := by
    by_contra hne
    exact hne ((hJ.final hne).symm.trans hv.2.1)
  refine ⟨⟨hJ.grows.trans (grows_linkAt hv he), fun M hMS hMF => ?_, fun hne => absurd hF hne,
    fun i hi hS => ?_⟩, hF, ?_, entry_linkAt_self hv he, data_linkAt⟩
  · rw [entry_linkAt_ne hMF]
    exact hJ.entry M hMS hMF
  · rw [data_linkAt]
    exact hJ.data i hi hS
  · rw [entry_linkAt_ne hp.ne]
    exact hJ.handle

/-- The staging name goes, and only it. -/
theorem entry_discard_ne (hp : StorePlace s final S F) {M : Loc} (hM : M ≠ S) :
    (s.discard (stagingPath final)).entry M = s.entry M ∧
      (s.discard (stagingPath final)).disk.data = s.disk.data := by
  unfold FileTree.discard
  split
  · rename_i s' hr
    obtain ⟨L, e, hl, -, -, rfl⟩ := removeFile_ok hr
    obtain rfl := hp.locate_staging hl
    exact ⟨entry_eraseAt_ne hM, data_eraseAt⟩
  · exact ⟨rfl, rfl⟩

/-- **What `store_stream` leaves as it was**, and that a store that succeeds has bound
the final name, which was free, to a file. -/
theorem storeStream_frame (hp : StorePlace t final S F) (mk : MkdirFault)
    (fault : StoreSite → Option Errno) (startPos : Nat) (input : Input) :
    StoreFrame t (storeStream (treeTarget mk final) fault startPos input t).1 S F ∧
      ∀ n, (storeStream (treeTarget mk final) fault startPos input t).2 = .ok n →
        t.entry F = none ∧ ∃ i, (storeStream (treeTarget mk final) fault startPos input t).1.entry
          F = some (.file i) := by
  refine storeStream_rule (J := fun h s => StoreOpen t s S F h)
    (Q := fun s r => StoreFrame t s S F ∧
      ∀ n, r = .ok n → t.entry F = none ∧ ∃ i, s.entry F = some (.file i)) ?_ ?_ ?_ ?_ ?_ ?_ ?_
  · exact fun e => ⟨.refl t S F, fun n hn => by cases hn⟩
  · exact fun e => ⟨(StoreFrame.refl t S F).discard hp, fun n hn => by cases hn⟩
  · exact fun e => ⟨storeFrame_of_addsDirs (addsDirs_createParent mk final t) S F,
      fun n hn => by cases hn⟩
  · exact fun s' h ho => storeOpen_of_openFile hp (addsDirs_createParent mk final t) ho
  · exact fun s h b hJ => hJ.setData _
  · exact fun s h e hJ => ⟨⟨hJ.toStoreFrame, fun n hn => by cases hn⟩,
      hJ.toStoreFrame.discard hp, fun n hn => by cases hn⟩
  · intro s h s' n hJ hl
    obtain ⟨hf, hF, hS, hF', -⟩ := hJ.link hp hl
    have hp' : StorePlace s' final S F := hp.of_sameLinks hf.grows.toSameLinks
    refine ⟨⟨hf, fun _ _ => ⟨hF, h, hF'⟩⟩, hf.discard hp, fun _ _ => ⟨hF, h, ?_⟩⟩
    exact (entry_discard_ne hp' hp.ne.symm).1.trans hF'

/-- The files in `s` that are no files in `t` hold writes of `chunks`, from the first on. -/
def HoldsWrites (t s : FileTree) (chunks : List Bytes) : Prop :=
  ∀ M i, s.entry M = some (.file i) → (∀ j, t.entry M ≠ some (.file j)) →
    ∃ ws, ws <+: chunks ∧ s.disk.data i = ws.flatten

/-- A new file of a store that has its staging file open is the staging file. -/
theorem StoreOpen.eq_staging (hJ : StoreOpen t s S F h) {M : Loc} {i : Nat}
    (hi : s.entry M = some (.file i)) (hnew : ∀ j, t.entry M ≠ some (.file j)) : M = S := by
  by_contra hMS
  by_cases hMF : M = F
  · subst hMF
    exact hnew i (hJ.notFinal i hi)
  · rcases hJ.entry M hMS hMF with h' | ⟨-, h'⟩
    · exact hnew i (h' ▸ hi)
    · rw [h'] at hi
      cases hi

/-- A new file after a store is its staging or its final file. -/
theorem StoreFrame.eq_staging_or_final (hf : StoreFrame t s S F) {M : Loc} {i : Nat}
    (hi : s.entry M = some (.file i)) (hnew : ∀ j, t.entry M ≠ some (.file j)) :
    M = S ∨ M = F := by
  by_contra hM
  rw [not_or] at hM
  rcases hf.entry M hM.1 hM.2 with h' | ⟨-, h'⟩
  · exact hnew i (h' ▸ hi)
  · rw [h'] at hi
    cases hi

/-- **What `store_encrypted` leaves as it was**, that the new files hold ciphertext, and
that a store that succeeds has bound the final name, which was free, to a file with all
of it. -/
theorem storeEncrypted_frame (hp : StorePlace t final S F) (mk : MkdirFault)
    (fault : EncryptSite → Option Errno) (out : Encrypted) :
    StoreFrame t (storeEncrypted (treeTarget mk final) fault out t).1 S F ∧
      HoldsWrites t (storeEncrypted (treeTarget mk final) fault out t).1 out.chunks ∧
      ∀ n, (storeEncrypted (treeTarget mk final) fault out t).2 = .ok n →
        out.outcome = .ok n ∧ t.entry F = none ∧ ∃ i,
          (storeEncrypted (treeTarget mk final) fault out t).1.entry F = some (.file i) ∧
          (storeEncrypted (treeTarget mk final) fault out t).1.disk.data i =
            out.chunks.flatten := by
  have hold_refl : HoldsWrites t t out.chunks := fun M i hi hnew => absurd hi (hnew i)
  have hold_dirs : ∀ s, AddsDirs t s → HoldsWrites t s out.chunks :=
    fun s ha M i hi hnew => absurd (ha.file_iff.mp hi) (hnew i)
  have hold_open : ∀ s h ws, ws <+: out.chunks → StoreOpen t s S F h →
      s.disk.data h = ws.flatten → HoldsWrites t s out.chunks := by
    intro s h ws hws hJ hdata M i hi hnew
    obtain rfl := hJ.eq_staging hi hnew
    obtain rfl : i = h := Entry.file.inj (Option.some.inj (hi.symm.trans hJ.handle))
    exact ⟨ws, hws, hdata⟩
  -- the names left after a removal were there before it, with the same bytes
  have hold_discard : ∀ s, StorePlace s final S F → HoldsWrites t s out.chunks →
      HoldsWrites t (s.discard (stagingPath final)) out.chunks := by
    intro s hps hold M i hi hnew
    by_cases hMS : M = S
    · subst hMS
      have hi' : s.entry M = some (.file i) ∧
          (s.discard (stagingPath final)).disk.data = s.disk.data := by
        unfold FileTree.discard at hi ⊢
        split at hi
        · rename_i s' hr
          obtain ⟨L, e, hl, he, hdir, rfl⟩ := removeFile_ok hr
          obtain rfl := hps.locate_staging hl
          rw [entry_eraseAt_self (childless_of_entry he hdir)] at hi
          cases hi
        · exact ⟨hi, rfl⟩
      rw [hi'.2]
      exact hold M i hi'.1 hnew
    · obtain ⟨he, hd⟩ := entry_discard_ne hps hMS
      rw [hd]
      exact hold M i (he ▸ hi) hnew
  refine storeEncrypted_rule
    (J := fun h ws s => StoreOpen t s S F h ∧ s.disk.data h = ws.flatten)
    (Q := fun s r => StoreFrame t s S F ∧ HoldsWrites t s out.chunks ∧
      ∀ n, r = .ok n → out.outcome = .ok n ∧ t.entry F = none ∧
        ∃ i, s.entry F = some (.file i) ∧ s.disk.data i = out.chunks.flatten) ?_ ?_ ?_ ?_ ?_ ?_ ?_
  · exact fun e => ⟨.refl t S F, hold_refl, fun n hn => by cases hn⟩
  · intro e
    have ha := addsDirs_createParent mk final t
    exact ⟨storeFrame_of_addsDirs ha S F, hold_dirs _ ha, fun n hn => by cases hn⟩
  · intro s' h ho
    obtain ⟨s₁, hfile, rfl⟩ := openTruncate_ok ho
    have hJ := storeOpen_of_openFile hp (addsDirs_createParent mk final t) hfile
    exact ⟨hJ.setData _, data_setData_self _⟩
  · rintro s h ws b ⟨hJ, hdata⟩
    refine ⟨hJ.setData _, ?_⟩
    show (s.setData h (Disk.overwrite (s.disk.data h) ws.flatten.length b)).disk.data h = _
    rw [data_setData_self, hdata, Disk.overwrite_length]
    simp
  · rintro s h ws e hws ⟨hJ, hdata⟩
    exact ⟨hJ.toStoreFrame, hold_open s h ws hws hJ hdata, fun n hn => by cases hn⟩
  · rintro s h n e - ⟨hJ, hdata⟩
    have hold := hold_open s h _ List.prefix_rfl hJ hdata
    have hps : StorePlace s final S F := hp.of_sameLinks hJ.grows.toSameLinks
    exact ⟨hJ.toStoreFrame.discard hp, hold_discard s hps hold, fun n hn => by cases hn⟩
  · rintro s h s' n hout ⟨hJ, hdata⟩ hl
    obtain ⟨hf, hF, hS, hF', hd⟩ := hJ.link hp hl
    have hps : StorePlace s' final S F := hp.of_sameLinks hf.grows.toSameLinks
    have hall : s'.disk.data h = out.chunks.flatten := by rw [hd, hdata]
    have hold : HoldsWrites t s' out.chunks := by
      intro M i hi hnew
      refine ⟨out.chunks, List.prefix_rfl, ?_⟩
      rcases hf.eq_staging_or_final hi hnew with rfl | rfl
      · rw [Entry.file.inj (Option.some.inj (hi.symm.trans hS)), hall]
      · rw [Entry.file.inj (Option.some.inj (hi.symm.trans hF')), hall]
    obtain ⟨he, hd'⟩ := entry_discard_ne hps hp.ne.symm
    refine ⟨⟨hf, hold, fun m hm => ?_⟩, hf.discard hp, hold_discard s' hps hold, fun m hm => ?_⟩
    · obtain rfl := Except.ok.inj hm
      exact ⟨hout, hF, h, hF', hall⟩
    · obtain rfl := Except.ok.inj hm
      refine ⟨hout, hF, h, he.trans hF', ?_⟩
      show (s'.discard (stagingPath final)).disk.data h = _
      rw [hd', hall]

end Frame

end Reoftpd

import Reoftpd.Decrypt
import Reoftpd.FailedStores

/-!
# What a failed decryption leaves

The decrypt command when it stops at an input that does not decrypt: a wrong key, or a
ciphertext that is corrupt or cut short.  By then the output has been opened and emptied,
and on the error its name is removed.

**A failed decryption costs the file that was at the output path before**
(`failed_decryption_destroys`): the command made room for a plaintext that never came.  It
is harmless exactly when the output path led to no file, and is no symbolic link either
(`failed_decryption_iff`): through a link the output is made where the link points, but the
name removed is that of the link, so the beginning of the plaintext stays behind.
-/
namespace Reoftpd
open UnixPath FileTree

/-- What a failed command is to leave of an output: the file that was there, and if there
was none, none where the path leads or led. -/
structure OutputKept (t t' : FileTree) (out : OsStr) : Prop where
  kept : ∀ b, t.readFile out = .ok b → t'.readFile out = .ok b
  none_left : t.fileAt out = none → t'.fileAt out = none ∧
    ∀ L, t.locate true out = .ok L → ∀ i, t'.entry L ≠ some (.file i)

/-- Nothing that a decryption can spoil is at the path: no file, and no link. -/
structure OutputFree (t : FileTree) (out : OsStr) : Prop where
  no_file : t.fileAt out = none
  no_link : ∀ L target, t.locate false out = .ok L → t.entry L ≠ some (.link target)

variable {age : Age}

/-- The input is there and its output can be opened, but it does not decrypt. -/
def DecryptionFails (identity : age.Identity) (output : Option OsStr) (input out : OsStr)
    (t : FileTree) : Prop :=
  outPath output input = some out ∧ ∃ L rd t' wr plain e, t.find true input = .ok (L, rd) ∧
    t.openTruncate out = .ok (t', wr) ∧ decryptFrom identity t' rd = (plain, .error e)

section Discard
variable {t s : FileTree} {p : OsStr} {L M : Loc} {i : Nat}

/-- Where a name is removed, its path leads to nothing. -/
theorem absent_eraseAt {e : Entry OsStr} (hM : s.locate false p = .ok M)
    (he : s.entry M = some e) (hfile : e.isDir = false) : Absent (s.eraseAt M) p := by
  have hgone : (s.eraseAt M).entry M = none := entry_eraseAt_self (childless_of_entry he hfile)
  rintro ⟨K, k⟩ hfind
  obtain ⟨hK, hk⟩ := find_ok.mp hfind
  have hback : s.locate false p = .ok K := by
    refine locate_bound cwd_eraseAt.symm (fun N x hN => ?_) hK (by simp [hk])
    by_cases hNM : N = M
    · rw [hNM, hgone] at hN
      cases hN
    · rwa [entry_eraseAt_ne hNM] at hN
  obtain rfl : M = K := Except.ok.inj (hM.symm.trans hback)
  rw [hgone] at hk
  cases hk

/-- No file is found by the path of an absent name. -/
theorem fileAt_absent (h : Absent t p) : t.fileAt p = none := by
  by_contra hfile
  obtain ⟨i, hi⟩ := Option.ne_none_iff_exists'.mp hfile
  obtain ⟨L, hL, hentry⟩ := fileAt_eq_some.mp hi
  obtain ⟨M, hM, rfl | ⟨target, hlink⟩⟩ := locate_unfollowed hL
  · exact h _ (find_ok.mpr ⟨hM, hentry⟩)
  · exact h _ (find_ok.mpr ⟨hM, hlink⟩)

/-- The removal of a path that leads to a file takes the path's own name away. -/
theorem discard_file (hL : s.locate true p = .ok L) (hfile : s.entry L = some (.file i)) :
    ∃ M, s.locate false p = .ok M ∧ s.discard p = s.eraseAt M ∧ Absent (s.discard p) p ∧
      (M = L ∨ ∃ target, s.entry M = some (.link target)) := by
  obtain ⟨M, hM, hcases⟩ := locate_unfollowed hL
  obtain ⟨e, he, hdir⟩ : ∃ e, s.entry M = some e ∧ e.isDir = false := by
    rcases hcases with rfl | ⟨target, hlink⟩
    · exact ⟨_, hfile, rfl⟩
    · exact ⟨_, hlink, rfl⟩
  have hremove : s.discard p = s.eraseAt M := by
    rw [FileTree.discard, removeFile, find_ok.mpr ⟨hM, he⟩]
    cases e with
    | dir => cases hdir
    | file j => rfl
    | link target => rfl
  refine ⟨M, hM, hremove, ?_, hcases⟩
  rw [hremove]
  exact absent_eraseAt hM he hdir

end Discard

section Command
variable {identity : age.Identity} {output : Option OsStr} {t s : FileTree} {f out : OsStr}
  {before rest : List OsStr}

/-- **The input that fails**: the output's name is removed from a tree that the command only
wrote to, and the loop ends there. -/
theorem decryptFile_fails (hw : Wrote t s) (h : DecryptionFails identity output f out s) :
    ∃ s' L i e, Wrote t s' ∧ s'.locate true out = .ok L ∧ s'.entry L = some (.file i) ∧
      decryptFile identity output f s = (s'.discard out, .error e) := by
  obtain ⟨hout, A, rd, s₁, wr, plain, e, hfind, hopen, hplain⟩ := h
  have hfile : (s₁.setData wr plain).fileAt out = some wr :=
    ((Wrote.refl s₁).setData wr plain).fileAt (fileAt_of_openTruncate hopen)
  obtain ⟨L, hL, hentry⟩ := fileAt_eq_some.mp hfile
  refine ⟨s₁.setData wr plain, L, wr, toStringLossy f ++ ": " ++ e.display,
    (hw.openTruncate hopen).setData wr plain, hL, hentry, ?_⟩
  simp only [decryptFile, hout, hfind, hopen, hplain]

/-- A loop that gets past the first inputs goes on with the rest. -/
theorem decryptFiles_append (h : decryptFiles identity output before t = (s, .ok ())) :
    decryptFiles identity output (before ++ rest) t = decryptFiles identity output rest s := by
  induction before generalizing t with
  | nil =>
      obtain rfl := (Prod.mk.inj h).1
      rfl
  | cons g before ih =>
      obtain ⟨s₁, hstep, hrest⟩ := decryptFiles_cons h
      rw [List.cons_append, decryptFiles, hstep]
      exact ih hrest

/-- **When a failed decryption costs nothing.**  The command gets past the inputs `before`
and stops at `f`, which does not decrypt.  What was at the output path of `f` before the
command is then kept, or none is left if there was none, exactly when the path led to no
file and is no link. -/
theorem failed_decryption_iff (identity : age.Identity) (output : Option OsStr)
    (before rest : List OsStr) (f out : OsStr) (t : FileTree)
    (fromStr : String → Option age.Identity) (identityPath : OsStr) (text : String)
    (hkey : (keyLine text).bind fromStr = some identity)
    (hbefore : (decryptFiles identity output before t).2 = .ok ())
    (hfails : DecryptionFails identity output f out (decryptFiles identity output before t).1) :
    (∃ e, (decryptCommand fromStr identityPath (.ok text) output (before ++ f :: rest) t).2 =
        .error e) ∧
      (OutputKept t
        (decryptCommand fromStr identityPath (.ok text) output (before ++ f :: rest) t).1 out ↔
          OutputFree t out) := by
  have hloop : decryptFiles identity output before t =
    ((decryptFiles identity output before t).1, .ok ()) := Prod.ext rfl hbefore
  obtain ⟨s, L, i, e, hw, hL, hfile, hstep⟩ :=
    decryptFile_fails (wrote_decryptFiles hloop (.refl t)) hfails
  have hend : decryptCommand fromStr identityPath (.ok text) output (before ++ f :: rest) t =
      (s.discard out, .error e) := by
    rw [decryptCommand_files hkey, decryptFiles_append hloop, decryptFiles, hstep]
  obtain ⟨M, hM, hdiscard, habsent, hcases⟩ := discard_file hL hfile
  have hgone : (s.discard out).fileAt out = none := fileAt_absent habsent
  rw [hend]
  refine ⟨⟨e, rfl⟩, fun hkept => ?_, fun hfree => ?_⟩
  · have hnofile : t.fileAt out = none := by
      by_contra hthere
      obtain ⟨j, hj⟩ := Option.ne_none_iff_exists'.mp hthere
      obtain ⟨k, hk, -⟩ := readFile_ok.mp (hkept.kept _ (readFile_ok.mpr ⟨j, hj, rfl⟩))
      rw [hgone] at hk
      cases hk
    refine ⟨hnofile, fun N target hN hlink => ?_⟩
    -- the link goes and the file that it led to stays
    obtain rfl : M = N := Except.ok.inj (hM.symm.trans (hw.locate_iff.mpr hN))
    have hML : M ≠ L := by
      rintro rfl
      rw [hw.kept hlink] at hfile
      cases hfile
    refine (hkept.none_left hnofile).2 L (hw.locate_iff.mp hL) i ?_
    rw [hdiscard, entry_eraseAt_ne hML.symm, hfile]
  · refine ⟨fun b hb => ?_, fun _ => ⟨hgone, fun N hN j hj => ?_⟩⟩
    · obtain ⟨j, hj, -⟩ := readFile_ok.mp hb
      rw [hfree.no_file] at hj
      cases hj
    · obtain rfl : L = N := Except.ok.inj (hL.symm.trans (hw.locate_iff.mpr hN))
      rcases hcases with rfl | ⟨target, hlink⟩
      · rw [hdiscard, entry_eraseAt_self (childless_of_entry hfile rfl)] at hj
        cases hj
      · exact hfree.no_link M target (hw.locate_iff.mp hM) ((hw.sameLinks.link M target).mp hlink)

end Command

/-! ## A clip that is cut short -/

/-- An age file with nothing in it, the directory `/o`, and a file there. -/
def cutClip (old : String) : FileTree :=
  let dirs := (FileTree.bare.mkdirAt [ofString "a"]).mkdirAt [ofString "o"]
  ((dirs.createAt [ofString "a", ofString "x.age"]).createAt [ofString "o", ofString old]).setData 1
    [9]

theorem cutClip_fails : DecryptionFails shiftKey (some (ofString "/o")) (ofString "/a/x.age")
    (ofString "/o/x") (cutClip "y") := by
  have hisok : ((cutClip "y").openTruncate (ofString "/o/x")).isOk = true := by decide +kernel
  have hempty : (cutClip "y").disk.data 0 = [] := by decide +kernel
  have hfind : (cutClip "y").find true (ofString "/a/x.age") =
      .ok ([ofString "a", ofString "x.age"], .file 0) := by decide +kernel
  cases hopen : (cutClip "y").openTruncate (ofString "/o/x") with
  | error e =>
      rw [hopen] at hisok
      cases hisok
  | ok r =>
      obtain ⟨t', wr⟩ := r
      have hread : t'.disk.data 0 = [] := by
        obtain ⟨hnew, hothers⟩ := data_openTruncate hopen
        by_cases hwr : 0 = wr
        · rw [hwr, hnew]
        · rw [hothers 0 hwr, hempty]
      refine ⟨by decide +kernel, _, _, t', wr, [], .decrypt "no header", hfind, hopen, ?_⟩
      rw [decryptFrom, hread]
      rfl

/-- A file of another name in the output directory is no matter. -/
theorem cutClip_kept : OutputKept (cutClip "y")
    (decryptClips [ofString "/a/x.age"] (cutClip "y")).1 (ofString "/o/x") := by
  have hline : keyLine keyText = some "AGE-SECRET-KEY-1" := by decide +kernel
  have hkey : (keyLine keyText).bind (fun _ => some shiftKey) = some shiftKey := by
    rw [hline, Option.bind_some]
  have hplace :
      (cutClip "y").locate false (ofString "/o/x") = .ok [ofString "o", ofString "x"] := by
    decide +kernel
  have hfree : OutputFree (cutClip "y") (ofString "/o/x") := by
    refine ⟨by decide +kernel, fun L target hL => ?_⟩
    obtain rfl := Except.ok.inj (hplace.symm.trans hL)
    have hnone : (cutClip "y").entry [ofString "o", ofString "x"] = none := by decide +kernel
    rw [hnone]
    simp
  exact (failed_decryption_iff shiftKey (some (ofString "/o")) [] [] (ofString "/a/x.age")
    (ofString "/o/x") (cutClip "y") (fun _ => some shiftKey) (ofString "/k") keyText hkey rfl
    cutClip_fails).2.mpr hfree

/-- **The file at the output path is lost**, and its name with it. -/
theorem failed_decryption_destroys :
    (decryptClips [ofString "/a/x.age"] (cutClip "x")).2 =
        .error "/a/x.age: decryption failed: no header" ∧
      (cutClip "x").readFile (ofString "/o/x") = .ok [9] ∧
      (decryptClips [ofString "/a/x.age"] (cutClip "x")).1.entry [ofString "o", ofString "x"] =
        none ∧
      ¬ OutputKept (cutClip "x") (decryptClips [ofString "/a/x.age"] (cutClip "x")).1
        (ofString "/o/x") := by
  have hbefore : (cutClip "x").readFile (ofString "/o/x") = .ok [9] := by decide +kernel
  refine ⟨by decide +kernel, hbefore, by decide +kernel, fun hkept => ?_⟩
  have hafter := hkept.kept _ hbefore
  exact absurd hafter (by decide +kernel)

end Reoftpd

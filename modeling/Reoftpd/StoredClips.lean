import Reoftpd.JailWrites

/-!
# Stored clips over a run

Whole runs of the backend without encryption: any requests of any users, one after the
other.  A clip is stored once a `put` of it has returned `Ok`.

**A stored clip can be lost.**  A store stages under its final name with a suffix, and
nothing keeps a camera from uploading a clip of that very name.  A later store of the
name without the suffix then takes the clip for its own half-written file and removes it
or appends to it (`stored_clip_lost`).  As long as no later request opens the clip by that
name, the clip is there in every state the run goes through, with the bytes it had
(`stored_clip_kept`).
-/
namespace Reoftpd
open UnixPath FileTree Runs

variable {age : Age}

/-- The name a `put` opens a file at, and the tree it opens it in.  For a store that is
its staging name, unless the final name is taken; for a probe its name in the quarantine
directory, once that is made. -/
def Request.opens (t : FileTree) (req : Request age) : Option (FileTree × OsStr) :=
  match req.call, req.user.role with
  | .put path _ _ _ faults, .uploader home =>
      match fileName path with
      | none => none
      | some name =>
          if isReolinkTestFile (toStringLossy name) then
            some ((t.createDirAll faults.mkdir (join home quarantineDir)).1,
              probeDest home (toStringLossy name))
          else
            match (ScopeMap.ofRoot home).resolve t path with
            | .error _ => none
            | .ok resolved =>
                match t.tryExists resolved with
                | .ok false => some (t, stagingPath resolved)
                | _ => none
  | _, _ => none

/-- The request does not open the file at `r` by the name it derives. -/
def Spares (r : OsStr) (t : FileTree) (req : Request age) : Prop :=
  ∀ s p, req.opens t = some (s, p) → s.fileAt p ≠ s.fileAt r

instance (r : OsStr) (t : FileTree) (req : Request age) : Decidable (Spares r t req) :=
  match h : req.opens t with
  | none => .isTrue fun s p hs => by rw [h] at hs; cases hs
  | some (s, p) =>
      decidable_of_iff (s.fileAt p ≠ s.fileAt r)
        ⟨fun hne s' p' hs => by
          obtain ⟨rfl, rfl⟩ := Prod.mk.inj (Option.some.inj (h.symm.trans hs))
          exact hne, fun hall => hall s p h⟩

section Step
variable {t s : FileTree} {req : Request age} {R : Loc} {i : Nat}

/-- The text of a location names the file bound there. -/
theorem fileAt_locText (h : t.entry R = some (.file i)) : t.fileAt (locText R) = some i :=
  fileAt_eq_some.mpr ⟨R, locate_locText (by simp [h]) (by simp [h]), h⟩

/-- A store that does not open the file at `R` keeps it. -/
theorem storeStream_keeps {final : OsStr} {S F : Loc} (hp : StorePlace t final S F)
    (hR : t.entry R = some (.file i)) (hopen : t.fileAt (stagingPath final) ≠ some i)
    (mk : MkdirFault) (fault : StoreSite → Option Errno) (startPos : Nat) (input : Input) :
    (storeStream (treeTarget mk final) fault startPos input t).1.entry R = some (.file i) ∧
      (storeStream (treeTarget mk final) fault startPos input t).1.disk.data i =
        t.disk.data i := by
  obtain ⟨hf, -⟩ := storeStream_frame hp mk fault startPos input
  have hS : t.entry S ≠ some (.file i) := by
    intro hS
    apply hopen
    rw [hp.staging_eq]
    exact fileAt_locText hS
  refine ⟨?_, hf.data i (lt_fresh hR) hS⟩
  by_cases hRF : R = F
  · subst hRF
    rw [hf.final (by simp [hR]), hR]
  · have hRS : R ≠ S := by
      rintro rfl
      exact hS hR
    rcases hf.entry R hRS hRF with h | ⟨h, -⟩
    · rw [h, hR]
    · rw [hR] at h
      cases h

/-- A probe that does not open the file at `R` keeps it. -/
theorem putProbe_keeps {faults : PutFaults} {home : OsStr} {filename : String} {input : Input}
    (hR : t.entry R = some (.file i))
    (hopen : (t.createDirAll faults.mkdir (join home quarantineDir)).1.fileAt
      (probeDest home filename) ≠ some i) :
    (putProbe faults home filename input t).1.entry R = some (.file i) ∧
      (putProbe faults home filename input t).1.disk.data i = t.disk.data i := by
  obtain ⟨t₁, rfl, ha, h | ⟨L, j, -, hl, hL, -, -, hne, hdata⟩⟩ :=
    putProbe_writes faults home filename input t
  · rw [h]
    exact ⟨ha.file_iff.mpr hR, congrFun ha.data i⟩
  · have hR₁ := ha.file_iff.mpr hR
    have hRL : R ≠ L ∧ i ≠ j := by
      rcases hL with hj | ⟨hv, rfl⟩
      · have hij : i ≠ j := by
          rintro rfl
          exact hopen (fileAt_eq_some.mpr ⟨L, hl, hj⟩)
        refine ⟨?_, hij⟩
        rintro rfl
        exact hij (Entry.file.inj (Option.some.inj (hR₁.symm.trans hj)))
      · refine ⟨?_, Nat.ne_of_lt (lt_fresh hR₁)⟩
        rintro rfl
        rw [hv.2.1] at hR₁
        cases hR₁
    exact ⟨(hne R hRL.1).trans hR₁, (hdata i hRL.2).trans (congrFun ha.data i)⟩

/-- **The step lemma**: a request that does not open the file at `R` keeps it, and its
bytes. -/
theorem afterRequest_keeps (hfree : JailFree t req.user) (hR : t.entry R = some (.file i))
    (hspares : Spares (locText R) t req) :
    (afterRequest .plain t req).entry R = some (.file i) ∧
      (afterRequest .plain t req).disk.data i = t.disk.data i := by
  obtain ⟨user, call⟩ := req
  cases call with
  | metadata | list | get | del | rename | rmd | cwd => exact ⟨hR, rfl⟩
  | mkd path fault =>
      have ha := addsDirs_mkd fault user path t
      exact ⟨ha.file_iff.mpr hR, congrFun ha.data i⟩
  | put path startPos input seed faults =>
      show ((ReoBackend.plain.put faults seed user path startPos input t).1.entry R = _ ∧
        (ReoBackend.plain.put faults seed user path startPos input t).1.disk.data i = _)
      have hcase : PutCase ReoBackend.plain faults seed user path startPos input t
        (ReoBackend.plain.put faults seed user path startPos input t) := put_case
      generalize ReoBackend.plain.put faults seed user path startPos input t = r at hcase ⊢
      cases hcase with
      | refused e => exact ⟨hR, rfl⟩
      | probe home name hrole hname hprobe =>
          apply putProbe_keeps hR
          -- the probe opens its path after the quarantine directory is made
          have hopens := hspares (t.createDirAll faults.mkdir (join home quarantineDir)).1
            (probeDest home (toStringLossy name)) (by simp [Request.opens, hrole, hname, hprobe])
          have ha := addsDirs_createDirAll faults.mkdir t (join home quarantineDir)
          rwa [fileAt_locText (ha.file_iff.mpr hR)] at hopens
      | store home name resolved hrole hname hprobe hres =>
          show (storeStream (treeTarget faults.mkdir resolved) faults.store startPos input
              t).1.entry R = _ ∧
            (storeStream (treeTarget faults.mkdir resolved) faults.store startPos input
              t).1.disk.data i = _
          by_cases hex : t.tryExists resolved = .ok false
          · obtain ⟨P, a, -, hp⟩ :=
              storePlace_of_resolve (x := []) (hfree home hrole) hres hname (by decide)
            rw [List.append_nil] at hp
            apply storeStream_keeps hp hR
            have hopens := hspares t (stagingPath resolved)
              (by simp [Request.opens, hrole, hname, hprobe, hres, hex])
            rwa [fileAt_locText hR] at hopens
          · have hsame : (storeStream (treeTarget faults.mkdir resolved) faults.store startPos input
                t).1 = t := storeStream_refused hex
            rw [hsame]
            exact ⟨hR, rfl⟩

/-- A `put` that is no probe and returned `Ok` has bound its resolved path, which is the
text of a location, to a file. -/
theorem put_stored {user : ReoUser} {path name r : OsStr} {startPos n : Nat} {input : Input}
    {seed : age.Seed} {faults : PutFaults} (hfree : JailFree t user)
    (hname : fileName path = some name) (hprobe : isReolinkTestFile (toStringLossy name) = false)
    (hres : (userView user).resolve t path = .ok r)
    (hok : (ReoBackend.plain.put faults seed user path startPos input t).2 = .ok n) :
    ∃ R i, r = locText R ∧
      (ReoBackend.plain.put faults seed user path startPos input t).1.entry R =
        some (.file i) := by
  have hcase : PutCase ReoBackend.plain faults seed user path startPos input t
    (ReoBackend.plain.put faults seed user path startPos input t) := put_case
  generalize ReoBackend.plain.put faults seed user path startPos input t = out at hcase hok ⊢
  cases hcase with
  | refused e => cases hok
  | probe home name' hrole hname' hprobe' =>
      obtain rfl := Option.some.inj (hname.symm.trans hname')
      rw [hprobe] at hprobe'
      cases hprobe'
  | store home name' resolved hrole hname' hprobe' hres' =>
      rw [userView_uploader hrole, hres'] at hres
      obtain rfl := Except.ok.inj hres
      obtain ⟨P, a, -, hp⟩ :=
        storePlace_of_resolve (x := []) (hfree home hrole) hres' hname' (by decide)
      rw [List.append_nil] at hp
      have hstored : (storeStream (treeTarget faults.mkdir resolved) faults.store startPos input
          t).2 = .ok n := storeReply_ok hok
      obtain ⟨-, i, hi⟩ := (storeStream_frame hp _ _ _ _).2 n hstored
      exact ⟨_, i, hp.final_eq, hi⟩

end Step

/-- **A stored clip is kept**: in every run of the backend without encryption, once a
`put` that is no probe has returned `Ok`, the file at its resolved path has the same bytes
in every state, as long as every later request spares it. -/
theorem stored_clip_kept (t : FileTree) (pre post : List (Request age)) (user : ReoUser)
    (path name r : OsStr) (startPos n : Nat) (input : Input) (seed : age.Seed) (faults : PutFaults)
    (hfree : ∀ req ∈ pre ++ ⟨user, .put path startPos input seed faults⟩ :: post,
      JailFree t req.user)
    (hname : fileName path = some name) (hprobe : isReolinkTestFile (toStringLossy name) = false)
    (hres : (userView user).resolve (run (afterRequest .plain) t pre) path = .ok r)
    (hok : (serve .plain (run (afterRequest .plain) t pre)
      ⟨user, .put path startPos input seed faults⟩).2 = .put (.ok n))
    (hspares : Along (afterRequest .plain) (Spares r) (afterRequest .plain
      (run (afterRequest .plain) t pre) ⟨user, .put path startPos input seed faults⟩) post) :
    ∃ bytes, Throughout (afterRequest .plain) (fun s => s.readFile r = .ok bytes)
      (afterRequest .plain (run (afterRequest .plain) t pre)
        ⟨user, .put path startPos input seed faults⟩) post := by
  have hpre : SameLinks t (run (afterRequest .plain) t pre) :=
    sameLinks_run fun req hreq => hfree req (List.mem_append_left _ hreq)
  have huser : JailFree (run (afterRequest .plain) t pre) user :=
    (hfree ⟨user, _⟩ (List.mem_append_right _ (List.mem_cons_self ..))).of_sameLinks hpre
  have hput : (ReoBackend.plain.put faults seed user path startPos input
      (run (afterRequest .plain) t pre)).2 = .ok n := Reply.put.inj hok
  obtain ⟨R, i, rfl, hR⟩ := put_stored huser hname hprobe hres hput
  have hR' : (afterRequest .plain (run (afterRequest .plain) t pre)
      ⟨user, .put path startPos input seed faults⟩).entry R = some (.file i) := hR
  have hlinks : SameLinks t (afterRequest .plain (run (afterRequest .plain) t pre)
      ⟨user, .put path startPos input seed faults⟩) :=
    hpre.trans (grows_put huser).toSameLinks
  generalize afterRequest .plain (run (afterRequest .plain) t pre)
    ⟨user, .put path startPos input seed faults⟩ = s at hR' hlinks hspares ⊢
  -- the clip stays bound to its inode, whose bytes stay
  have hinv : Throughout (afterRequest .plain)
      (fun s' => s'.entry R = some (.file i) ∧ s'.disk.data i = s.disk.data i) s post := by
    have hpost : ∀ req ∈ post, JailFree s req.user := fun req hreq =>
      (hfree req (by simp [hreq])).of_sameLinks hlinks
    have hthroughout : Throughout (afterRequest .plain) (fun s' => SameLinks s s' ∧
        s'.entry R = some (.file i) ∧ s'.disk.data i = s.disk.data i) s post := by
      refine throughout_of_invariant ?_ ⟨.refl s, hR', rfl⟩ (hspares.and_forall hpost)
      rintro s' req ⟨hsame, hs', hdata⟩ ⟨hreq, hjail⟩
      obtain ⟨h1, h2⟩ := afterRequest_keeps (hjail.of_sameLinks hsame) hs' hreq
      exact ⟨hsame.trans (grows_afterRequest (hjail.of_sameLinks hsame)).toSameLinks, h1,
        h2.trans hdata⟩
    exact hthroughout.mono fun _ h => h.2
  refine ⟨s.disk.data i, hinv.mono fun s' h => ?_⟩
  rw [readFile_of_locate (locate_locText (by simp [h.1]) (by simp [h.1])) h.1, h.2]

/-! ## A camera with one home -/

/-- A tree with the home `/c` of a camera. -/
def oneHome : FileTree := FileTree.bare.mkdirAt [ofString "c"]

/-- The camera whose home is `/c`. -/
def cameraC : ReoUser := ⟨"c", .uploader (ofString "/c"), false⟩

/-- A `put` of the camera, with nothing failing by itself. -/
def putC (path : String) (startPos : Nat) (bytes : Bytes) : Request shiftAge :=
  ⟨cameraC, .put (ofString path) startPos [.ok bytes] (7 : UInt8) .never⟩

theorem no_links_oneHome (L : Loc) (target : OsStr) : oneHome.entry L ≠ some (.link target) := by
  have hvacant : FileTree.bare.Vacant [ofString "c"] := by decide
  refine no_links_of_entry no_links_bare (L := [ofString "c"]) (fun M => entry_mkdirAt_ne)
    (fun target => ?_) L target
  rw [entry_mkdirAt_self hvacant]
  simp

theorem jailFree_oneHome (user : ReoUser) : JailFree oneHome user :=
  fun home _ => linkFree_of_no_links no_links_oneHome home

/-- The clip `/c/x` through a second store, a probe, a new directory and a store of its
own name. -/
theorem clip_x_kept :
    ∃ bytes, Throughout (afterRequest (.plain : ReoBackend shiftAge))
      (fun s => s.readFile (ofString "/c/x") = .ok bytes)
      (afterRequest .plain (run (afterRequest (.plain : ReoBackend shiftAge)) oneHome [])
        (putC "x" 0 [1, 2]))
      [putC "y" 0 [3], putC "test.txt" 0 [4], ⟨cameraC, .mkd (ofString "z") fun _ _ => none⟩,
        putC "x" 2 [5]] :=
  stored_clip_kept oneHome [] _ cameraC (ofString "x") (ofString "x") _ 0 2 [.ok [1, 2]]
    (7 : UInt8) .never (fun req _ => jailFree_oneHome req.user) (by decide) (by decide)
    (by decide +kernel) (by decide +kernel) (by decide +kernel)

/-- **A stored clip is lost**: `a.reoftpd-partial` is stored, and a later store of `a`
that starts past the end takes it for its staging file and removes it. -/
theorem stored_clip_lost :
    ¬ ∀ (t : FileTree) (pre post : List (Request shiftAge)) (user : ReoUser) (path name r : OsStr)
        (startPos n : Nat) (input : Input) (seed : shiftAge.Seed) (faults : PutFaults),
        (∀ req ∈ pre ++ ⟨user, .put path startPos input seed faults⟩ :: post,
          JailFree t req.user) →
        fileName path = some name → isReolinkTestFile (toStringLossy name) = false →
        (userView user).resolve (run (afterRequest .plain) t pre) path = .ok r →
        (serve .plain (run (afterRequest .plain) t pre)
          ⟨user, .put path startPos input seed faults⟩).2 = .put (.ok n) →
        ∃ bytes, Throughout (afterRequest .plain) (fun s => s.readFile r = .ok bytes)
          (afterRequest .plain (run (afterRequest .plain) t pre)
            ⟨user, .put path startPos input seed faults⟩) post := by
  intro h
  obtain ⟨bytes, hkept⟩ := h oneHome [] [putC "a" 5 []] cameraC (ofString "a.reoftpd-partial")
    (ofString "a.reoftpd-partial") (ofString "/c/a.reoftpd-partial") 0 1 [.ok [1]] (7 : UInt8)
    .never (fun req _ => jailFree_oneHome req.user) (by decide) (by decide) (by decide +kernel)
    (by decide +kernel)
  have hlast := hkept [putC "a" 5 []] List.prefix_rfl
  have hgone : (run (afterRequest .plain) (afterRequest .plain
      (run (afterRequest (.plain : ReoBackend shiftAge)) oneHome [])
      (putC "a.reoftpd-partial" 0 [1])) [putC "a" 5 []]).readFile
        (ofString "/c/a.reoftpd-partial") = .error .notFound := by
    decide +kernel
  exact absurd ((show _ = Except.ok bytes from hlast).symm.trans hgone) (by simp)

end Reoftpd

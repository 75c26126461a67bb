import Reoftpd.StoredClips

/-!
# Encryption at rest over a run

Whole runs of the backend with recipients: any requests of any users, one after the
other.  Three kinds of names are kept apart.  A finalized clip is named `….age`, a clip on
its way `….age.reoftpd-partial`, and a probe has its own name, directly in the quarantine
directory.  The last two kinds are opened again and again, and what they are bound to is
emptied when they are.

**Nothing but ciphertext is left** outside the quarantine, every clip acknowledged decrypts
to the bytes that were sent, and every other file keeps its bytes (`encrypted_at_rest`).
The one exception is a file with a second name of one of the last two kinds: it is emptied
through that name (`linked_clip_emptied`).
-/
namespace Reoftpd
open UnixPath FileTree Runs

/-! ## Names -/

/-- The name of a finalized ciphertext. -/
def CipherFinal (M : Loc) : Prop := ∃ P s, M = P ++ [s ++ ofString ".age"]

/-- The name of a ciphertext on its way. -/
def CipherStaging (M : Loc) : Prop := ∃ P s, M = P ++ [s ++ ofString ".age" ++ stagingSuffix]

/-- The name of a probe of the user, directly in the quarantine directory of its home. -/
def ProbeName (t : FileTree) (user : ReoUser) (M : Loc) : Prop :=
  ∃ home B name, user.role = .uploader home ∧ t.aim home = .ok B ∧
    isReolinkTestFile name = true ∧ M = B ++ [quarantineDir, ofString name]

/-! ## What every call keeps -/

variable {age : Age}

/-- **Encryption at rest**, for one call that leads from the tree `t` to `s`. -/
structure AtRest (recipients : List age.Recipient) (user : ReoUser) (call : Call age)
    (t s : FileTree) (reply : Reply) : Prop where
  /-- A file keeps its name and its bytes, unless one of its names is that of a ciphertext on
  its way or of a probe. -/
  kept : ∀ M i, t.entry M = some (.file i) →
    (∀ M', t.entry M' = some (.file i) → ¬ CipherStaging M' ∧ ¬ ProbeName t user M') →
    s.entry M = some (.file i) ∧ s.disk.data i = t.disk.data i
  /-- A new file that is no probe has the name of a ciphertext and holds ciphertext of the
  call's own input. -/
  created : ∀ M i, s.entry M = some (.file i) → (∀ j, t.entry M ≠ some (.file j)) →
    ¬ ProbeName t user M → (CipherFinal M ∨ CipherStaging M) ∧
      ∃ path startPos input seed faults, call = .put path startPos input seed faults ∧
        ∃ ws, ws <+: (encryptStream age recipients seed input).chunks ∧
          s.disk.data i = ws.flatten
  /-- A clip that is acknowledged is a new file, and decrypts to its whole input. -/
  stored : ∀ path startPos input seed faults name n,
    call = .put path startPos input seed faults → fileName path = some name →
    isReolinkTestFile (toStringLossy name) = false → reply = .put (.ok n) →
    ∃ resolved F i, ∃ bs : List Bytes, (userView user).resolve t path = .ok resolved ∧
      ageSuffix resolved = locText F ∧ CipherFinal F ∧ t.entry F = none ∧
      s.entry F = some (.file i) ∧ input = bs.map .ok ∧ n = bs.flatten.length ∧
      ∀ identity, age.toPublic identity ∈ recipients →
        decryptStream age identity (s.disk.data i) = (bs.flatten, .ok n)

section Step
variable {recipients : List age.Recipient} {user : ReoUser} {call : Call age} {t s : FileTree}
  {reply : Reply} {path : OsStr} {startPos : Nat} {input : Input} {seed : age.Seed}
  {faults : PutFaults}

/-- The call is no `put` of a clip that returned `Ok`. -/
def StoresNothing (call : Call age) (reply : Reply) : Prop :=
  ∀ path startPos input seed faults name n, call = .put path startPos input seed faults →
    fileName path = some name → isReolinkTestFile (toStringLossy name) = false →
    reply ≠ .put (.ok n)

/-- A call that only adds directories. -/
theorem atRest_of_addsDirs (ha : AddsDirs t s) (hput : StoresNothing call reply) :
    AtRest recipients user call t s reply where
  kept _ i hM _ := ⟨ha.file_iff.mpr hM, congrFun ha.data i⟩
  created _ i hM hnew _ := absurd (ha.file_iff.mp hM) (hnew i)
  stored path startPos input seed faults name n hcall hname hprobe hok :=
    absurd hok (hput path startPos input seed faults name n hcall hname hprobe)

/-- Where a probe goes. -/
theorem probeName_of_locate {home name : OsStr} (hfree : t.LinkFree home)
    (hrole : user.role = .uploader home) (hname : fileName path = some name)
    (hprobe : isReolinkTestFile (toStringLossy name) = true) (hs : SameLinks t s) {L : Loc}
    (hL : s.locate true (probeDest home (toStringLossy name)) = .ok L) : ProbeName t user L := by
  have hnames : ∀ x ∈ [quarantineDir, ofString (toStringLossy name)], IsName x := by
    intro x hx
    rcases List.mem_pair.mp hx with rfl | rfl
    · decide
    · exact isName_lossy (isName_fileName hname)
  have haim : t.aim (probeDest home (toStringLossy name)) = .ok L := by
    rw [← hs.aim_eq]
    exact aim_of_locate hL
  obtain ⟨B, hB, rfl⟩ := aim_spelled hfree hnames (spells_foldl home hnames) haim
  exact ⟨home, B, toStringLossy name, hrole, hB, hprobe, rfl⟩

/-- **A probe** writes to nothing but a probe. -/
theorem atRest_putProbe {home name : OsStr} (hfree : t.LinkFree home)
    (hrole : user.role = .uploader home) (hname : fileName path = some name)
    (hprobe : isReolinkTestFile (toStringLossy name) = true) :
    AtRest recipients user (.put path startPos input seed faults) t
      (putProbe faults home (toStringLossy name) input t).1 reply := by
  have hnone : StoresNothing (.put path startPos input seed faults) reply := by
    intro path' startPos' input' seed' faults' name' n hcall hname' hno
    obtain ⟨rfl, -⟩ := Call.put.inj hcall
    obtain rfl := Option.some.inj (hname.symm.trans hname')
    rw [hprobe] at hno
    cases hno
  -- either only directories were made, or the probe is open at `L`
  obtain ⟨t₁, rfl, ha, h | ⟨L, j, -, hl, hL, -, hself, hne, hdata⟩⟩ :=
    putProbe_writes faults home (toStringLossy name) input t
  · rw [h]
    exact atRest_of_addsDirs ha hnone
  · have hL' : ProbeName t user L :=
      probeName_of_locate hfree hrole hname hprobe ha.grows.toSameLinks hl
    refine ⟨fun M i hM hexempt => ?_, fun M i hM hnew hno => ?_, fun path startPos input seed faults
      name n hcall hname hprobe hok => absurd hok (hnone path startPos input seed faults name n
        hcall hname hprobe)⟩
    · have hM₁ := ha.file_iff.mpr hM
      have hML : M ≠ L := by
        rintro rfl
        exact (hexempt M hM).2 hL'
      -- a second name of the probe would have been exempt
      have hij : i ≠ j := by
        rintro rfl
        rcases hL with hi | ⟨-, hi⟩
        · exact (hexempt L (ha.file_iff.mp hi)).2 hL'
        · exact absurd (lt_fresh hM₁) (by rw [← hi]; exact Nat.lt_irrefl i)
      exact ⟨(hne M hML).trans hM₁, (hdata i hij).trans (congrFun ha.data i)⟩
    · have hML : M ≠ L := by
        rintro rfl
        exact hno hL'
      exact absurd (ha.file_iff.mp ((hne M hML).symm.trans hM)) (hnew i)

/-- **A store** keeps every file but the one it stages over. -/
theorem atRest_putStore (hage : age.Inverts) {home name resolved : OsStr} (hfree : t.LinkFree home)
    (hrole : user.role = .uploader home) (hname : fileName path = some name)
    (hres : (ScopeMap.ofRoot home).resolve t path = .ok resolved) :
    AtRest recipients user (.put path startPos input seed faults) t
      (putStore (some recipients) faults seed resolved startPos input t).1
      (.put (putStore (some recipients) faults seed resolved startPos input t).2) := by
  unfold putStore
  simp only
  split
  · refine atRest_of_addsDirs (.refl t) fun _ _ _ _ _ _ n _ _ _ hok => ?_
    cases hok
  · obtain ⟨P, x, -, hp⟩ :=
      storePlace_of_resolve (x := ofString ".age") hfree hres hname (by decide)
    obtain ⟨hf, hold, hok⟩ := storeEncrypted_frame hp faults.mkdir faults.encrypt
      (encryptStream age recipients seed input)
    have hstaging : CipherStaging (P ++ [x ++ ofString ".age" ++ stagingSuffix]) := ⟨P, x, rfl⟩
    have hfinal : CipherFinal (P ++ [x ++ ofString ".age"]) := ⟨P, x, rfl⟩
    refine ⟨fun M i hM hexempt => ?_, fun M i hM hnew hno => ?_, ?_⟩
    · have hMS : M ≠ P ++ [x ++ ofString ".age" ++ stagingSuffix] := by
        rintro rfl
        exact (hexempt _ hM).1 hstaging
      refine ⟨?_, hf.data i (lt_fresh hM) fun hS => (hexempt _ hS).1 hstaging⟩
      -- a final name that is taken is not bound again
      by_cases hMF : M = P ++ [x ++ ofString ".age"]
      · subst hMF
        exact (hf.final (by simp [hM])).trans hM
      · rcases hf.entry M hMS hMF with h | ⟨h, -⟩
        · exact h.trans hM
        · rw [hM] at h
          cases h
    · obtain ⟨ws, hws, hdata⟩ := hold M i hM hnew
      refine ⟨?_, path, startPos, input, seed, faults, rfl, ws, hws, hdata⟩
      -- a new file is the staging file or the clip
      rcases hf.eq_staging_or_final hM hnew with rfl | rfl
      · exact Or.inr hstaging
      · exact Or.inl hfinal
    · intro path' startPos' input' seed' faults' name' n hcall hname' hprobe' hreply
      obtain ⟨rfl, rfl, rfl, rfl, rfl⟩ := Call.put.inj hcall
      obtain ⟨hout, hF, i, hi, hdata⟩ := hok n (storeReply_ok (Reply.put.inj hreply))
      obtain ⟨bs, -, -, -, hin, hn, -⟩ := encryptStream_ok hout
      refine ⟨resolved, _, i, bs, by rw [userView_uploader hrole]; exact hres, hp.final_eq, hfinal,
        hF, hi, hin, hn, fun identity hid => ?_⟩
      -- what the clip decrypts to is what the input delivered
      obtain ⟨bs', hin', -, hdec⟩ := decryptStream_encryptStream hage hout hid
      obtain rfl : bs = bs' :=
        List.map_injective_iff.mpr (fun _ _ => Except.ok.inj) (hin.symm.trans hin')
      rw [← hdata] at hdec
      exact hdec

/-- **A request** keeps encryption at rest. -/
theorem atRest_serve (hage : age.Inverts) (hfree : JailFree t user) :
    AtRest recipients user call t (afterRequest ⟨some recipients⟩ t ⟨user, call⟩)
      (serve ⟨some recipients⟩ t ⟨user, call⟩).2 := by
  cases call with
  | metadata | list | get | del | rename | rmd | cwd =>
      refine atRest_of_addsDirs (.refl t) fun _ _ _ _ _ _ _ hcall => ?_
      cases hcall
  | mkd path fault =>
      refine atRest_of_addsDirs (addsDirs_mkd fault user path t) fun _ _ _ _ _ _ _ hcall => ?_
      cases hcall
  | put path startPos input seed faults =>
      show AtRest recipients user _ t
        (ReoBackend.put ⟨some recipients⟩ faults seed user path startPos input t).1
        (.put (ReoBackend.put ⟨some recipients⟩ faults seed user path startPos input t).2)
      have hcase : PutCase ⟨some recipients⟩ faults seed user path startPos input t
        (ReoBackend.put ⟨some recipients⟩ faults seed user path startPos input t) := put_case
      generalize ReoBackend.put ⟨some recipients⟩ faults seed user path startPos input t = r
        at hcase ⊢
      cases hcase with
      | refused e =>
          refine atRest_of_addsDirs (.refl t) fun _ _ _ _ _ _ _ _ _ _ hok => ?_
          cases hok
      | probe home name hrole hname hprobe =>
          exact atRest_putProbe (hfree home hrole) hrole hname hprobe
      | store home name resolved hrole hname hprobe hres =>
          exact atRest_putStore hage (hfree home hrole) hrole hname hres

end Step

/-- **Encryption at rest**: so does every request of a run of the backend with recipients,
when no home has links at or below it. -/
theorem encrypted_at_rest (hage : age.Inverts) (recipients : List age.Recipient) (t : FileTree)
    (reqs : List (Request age)) (hfree : ∀ req ∈ reqs, JailFree t req.user) :
    Along (afterRequest ⟨some recipients⟩) (fun t req =>
      AtRest recipients req.user req.call t (afterRequest ⟨some recipients⟩ t req)
        (serve ⟨some recipients⟩ t req).2) t reqs := by
  induction reqs generalizing t with
  | nil => trivial
  | cons req reqs ih =>
      have hreq : JailFree t req.user := hfree req (List.mem_cons_self ..)
      refine ⟨atRest_serve hage hreq, ih _ fun req' hreq' => ?_⟩
      exact (hfree req' (List.mem_cons_of_mem _ hreq')).of_sameLinks
        (grows_afterRequest hreq).toSameLinks

/-- A clip, a probe and a second try of the clip, with the stand-in for age. -/
theorem encrypted_at_rest_oneHome :
    Along (afterRequest (⟨some [()]⟩ : ReoBackend shiftAge)) (fun t req =>
        @AtRest shiftAge [()] req.user req.call t (afterRequest ⟨some [()]⟩ t req)
          (serve ⟨some [()]⟩ t req).2)
      oneHome [putC "x" 0 [1, 2], putC "test.txt" 0 [3], putC "x" 0 [4]] :=
  encrypted_at_rest shiftAge_inverts [()] oneHome _ fun req _ => jailFree_oneHome req.user

/-- The home `/c` with a file left under a staging name, which has a second name `y`. -/
def linkedHome : FileTree :=
  let staging := [ofString "c", ofString "x.age.reoftpd-partial"]
  (((FileTree.bare.mkdirAt [ofString "c"]).createAt staging).setData 0 [9]).linkAt staging
    [ofString "c", ofString "y"]

theorem jailFree_linkedHome (user : ReoUser) : JailFree linkedHome user := by
  have hstaging : oneHome.Vacant [ofString "c", ofString "x.age.reoftpd-partial"] := by
    decide +kernel
  have hy :
      ((oneHome.createAt [ofString "c", ofString "x.age.reoftpd-partial"]).setData 0 [9]).Vacant
      [ofString "c", ofString "y"] := by
    decide +kernel
  have hself := entry_createAt_self hstaging
  have hcreated : ∀ M target, ((oneHome.createAt
      [ofString "c", ofString "x.age.reoftpd-partial"]).setData 0 [9]).entry M ≠
        some (.link target) := by
    refine no_links_of_entry (no_links_of_entry no_links_bare (L := [ofString "c"])
      (fun M => entry_mkdirAt_ne) fun target => ?_) (fun M => entry_createAt_ne) fun target => ?_
    · rw [entry_mkdirAt_self (by decide)]
      simp
    · rw [entry_setData, hself]
      simp
  refine fun home _ => linkFree_of_no_links
    (no_links_of_entry hcreated (fun M => entry_linkAt_ne) fun target => ?_) home
  rw [entry_linkAt_self hy hself]
  simp

/-- **A file with a second name is emptied**: `y` is no name of a ciphertext on its way and
of no probe, but the upload of `x` writes to it. -/
theorem linked_clip_emptied :
    (∀ user, JailFree linkedHome user) ∧
      linkedHome.readFile (ofString "/c/y") = .ok [9] ∧
      linkedHome.locate true (ofString "/c/y") = .ok [ofString "c", ofString "y"] ∧
      ¬ CipherStaging [ofString "c", ofString "y"] ∧
      (∀ user, ¬ ProbeName linkedHome user [ofString "c", ofString "y"]) ∧
      (afterRequest (⟨some [()]⟩ : ReoBackend shiftAge) linkedHome (putC "x" 0 [1])).readFile
        (ofString "/c/y") = .ok [7, 8] := by
  refine ⟨jailFree_linkedHome, by decide +kernel, by decide +kernel, ?_, ?_, by decide +kernel⟩
  · rintro ⟨P, s, h⟩
    have hlast := congrArg (List.length ∘ (List.getLastD · [])) h
    simp [ofString, stagingSuffix] at hlast
  · rintro user ⟨home, B, name, -, -, -, h⟩
    have hdir : [ofString "c"] = B ++ [quarantineDir] := by
      have hdrop := congrArg List.dropLast h
      rw [List.append_cons, List.dropLast_concat] at hdrop
      exact hdrop
    have hlast : ofString "c" = quarantineDir := by
      have hc := congrArg (List.getLastD · []) hdir
      rw [List.getLastD_concat] at hc
      exact hc
    exact absurd hlast (by decide)

end Reoftpd

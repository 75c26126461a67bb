import Reoftpd.ArchiveRuns
import Reoftpd.Decrypt
import Reoftpd.ResolveExact

/-!
# From a camera to a viewer

What a viewer gets of what a camera has sent.  A viewer whose scope shows the camera finds
its directory below the virtual root under the camera's name, whether the scope is the
whole archive or a list (`resolve_shown`).  So once an upload is acknowledged, the viewer
downloads the bytes that were stored, from any offset, in every state of a run until a
sweep finds the clip too old (`upload_delivered`), and if the backend encrypts, the holder
of an identity recovers what the camera sent (`encrypted_upload_recovered`).
-/
namespace Reoftpd
open UnixPath FileTree Runs

variable {age : Age}

/-- The scope shows the camera of that name. -/
def Scope.Shows (cfg : Config) : Scope → String → Prop
  | .all, _ => True
  | .list items, n => ∃ it ∈ items, n ∈ (cfg.group.lookup it).getD [it]

/-- The name a clip is stored under in its directory. -/
def storedName (backend : ReoBackend age) (file : String) : String :=
  toStringLossy (ofString file ++ backend.suffix)

/-- **The names of a clip**: its camera uploads it as `path`, a viewer asks for it as `virt`,
and it is neither a probe nor named like one of the server's own files. -/
structure NamedAs (backend : ReoBackend age) (cam : CameraCfg) (path virt : OsStr)
    (dirs : List String) (file : String) : Prop where
  uploaded : normalize path = .ok (dirs ++ [file])
  viewed : normalize virt = .ok (cam.name :: (dirs ++ [storedName backend file]))
  noProbe : ∃ name, fileName path = some name ∧ isReolinkTestFile (toStringLossy name) = false
  noStaging : stagingSuffix.isSuffixOf (ofString (storedName backend file)) = false
  noQuarantine : ofString (dirs.getLastD cam.name) ≠ quarantineDir

/-- The user has the rights of the login. -/
def LoggedIn (cfg : Config) (login : String) (user : ReoUser) : Prop :=
  ∃ a, (build cfg).get login = some a ∧ user.role = a.role

section Names
variable {backend : ReoBackend age} {cam : CameraCfg} {path virt : OsStr} {dirs : List String}
  {file : String} {H : Loc}

theorem ofString_storedName (backend : ReoBackend age) (file : String) :
    ofString (storedName backend file) = ofString file ++ backend.suffix :=
  lossy_stored backend file

/-- Where a clip is stored that resolves to a place. -/
theorem finalPath_locText (backend : ReoBackend age) (H : Loc) (file : String) :
    finalPath backend (locText (H ++ [ofString file])) =
      locText (H ++ [ofString (storedName backend file)]) := by
  rw [finalPath, ofString_storedName, locText_suffix]

theorem NamedAs.isName (h : NamedAs backend cam path virt dirs file) :
    (∀ a ∈ dirs.map ofString, IsName a) ∧ IsName (ofString (storedName backend file)) := by
  have hparts := isName_of_normalize h.uploaded
  refine ⟨fun a ha => ?_, ?_⟩
  · obtain ⟨d, hd, rfl⟩ := List.mem_map.mp ha
    exact hparts d (List.mem_append_left _ hd)
  · have hfile := hparts file (by simp)
    rw [ofString_storedName]
    exact isName_suffix hfile (sep_not_mem_suffix backend)

/-- The directory a clip is stored in is no quarantine directory. -/
theorem NamedAs.dir (h : NamedAs backend cam path virt dirs file) (R : Loc) (f : OsStr) :
    (R ++ ofString cam.name :: (dirs.map ofString ++ [f])).dropLast.getLast? ≠
      some quarantineDir := by
  have hdrop : (R ++ ofString cam.name :: (dirs.map ofString ++ [f])).dropLast =
      R ++ (cam.name :: dirs).map ofString := by
    rw [← List.cons_append, ← List.append_assoc, List.dropLast_concat]
    rfl
  rw [hdrop, List.getLast?_append_of_ne_nil _ (by simp), List.getLast?_map, List.getLast?_cons,
    ← List.getLastD_eq_getLast?]
  exact fun hq => h.noQuarantine (Option.some.inj hq)

theorem NamedAs.clipNamed (h : NamedAs backend cam path virt dirs file) (R : Loc) :
    ClipNamed (R ++ ofString cam.name :: (dirs.map ofString ++
      [ofString (storedName backend file)])) := by
  refine ⟨fun hs => ?_, fun hprobe => h.dir R _ hprobe.1⟩
  rw [StagingNamed, ← List.cons_append, ← List.append_assoc, List.getLastD_concat,
    h.noStaging] at hs
  cases hs

end Names

section Delivered
variable {backend : ReoBackend age} {cfg : Config} {t s : FileTree} {cam : CameraCfg}
  {v : ViewerCfg} {camera viewer : ReoUser} {path virt resolved : OsStr} {dirs : List String}
  {file : String} {startPos n now : Nat} {input : Input} {seed : age.Seed} {faults : PutFaults}
  {R : Loc}

/-- A camera that is logged in is at home. -/
theorem LoggedIn.role_camera (h : LoggedIn cfg cam.login camera) (hd : cfg.Distinct)
    (hcam : cam ∈ cfg.camera) : camera.role = .uploader (cameraHome cfg cam) := by
  obtain ⟨a, ha, hrole⟩ := h
  obtain rfl := Option.some.inj ((build_get_camera hd hcam).symm.trans ha)
  exact hrole

theorem LoggedIn.role_viewer (h : LoggedIn cfg v.name viewer) (hd : cfg.Distinct)
    (hv : v ∈ cfg.viewer) : viewer.role = .viewer (expandScope cfg v.scope) := by
  obtain ⟨a, ha, hrole⟩ := h
  obtain rfl := Option.some.inj ((build_get_viewer hd hv).symm.trans ha)
  exact hrole

/-- **What a scope shows** of a camera is below the camera's name, whatever the scope. -/
theorem resolve_shown (hfree : LinkFreeArchive cfg s) (hcam : cam ∈ cfg.camera)
    (hrole : viewer.role = .viewer (expandScope cfg v.scope)) (hshows : v.scope.Shows cfg cam.name)
    {rest : List String} (hvirt : normalize virt = .ok (cam.name :: rest))
    (hR : s.locate true cfg.archive.root = .ok R) (hdir : s.entry R = some .dir)
    (hhome : s.entry (R ++ [ofString cam.name]) = some .dir) :
    (userView viewer).resolve s virt =
      .ok (locText (R ++ ofString cam.name :: rest.map ofString)) := by
  have hview : userView viewer = expandScope cfg v.scope := by rw [userView, hrole]
  cases hscope : v.scope with
  | all =>
      have hsingle : (userView viewer).single = some cfg.archive.root := by
        rw [hview, hscope]
        rfl
      exact resolve_eq_locText (.root hsingle hvirt) hfree.root hR hdir
  | list items =>
      rw [hscope] at hshows hview
      obtain ⟨hnone, hroots⟩ := expandScope_standsFor cfg (.list items)
      have hbase : (userView viewer).roots.lookup cam.name = some (cameraHome cfg cam) := by
        rw [hview]
        exact (hroots _ _).mpr ⟨hshows, rfl⟩
      have hat : s.locate true (cameraHome cfg cam) = .ok (R ++ [ofString cam.name]) :=
        locate_join hR hdir hhome (Or.inr fun target h => by cases h)
      rw [resolve_eq_locText (.camera (by rw [hview]; exact hnone) hvirt hbase)
        (hfree.homes cam hcam) hat hhome]
      simp

/-- **A viewer downloads a clip** that its scope shows, from any offset there can be. -/
theorem get_shown (hfree : LinkFreeArchive cfg s) (hcam : cam ∈ cfg.camera)
    (hrole : viewer.role = .viewer (expandScope cfg v.scope)) (hshows : v.scope.Shows cfg cam.name)
    {rest : List String} {c : Clip} (hvirt : normalize virt = .ok (cam.name :: rest))
    (hrest : rest ≠ []) (hR : s.locate true cfg.archive.root = .ok R)
    (hdir : s.entry R = some .dir)
    (hclip : clips s (R ++ ofString cam.name :: rest.map ofString) = some c) {startPos : Nat}
    (hstart : startPos < 2 ^ 63) :
    ReoBackend.get s viewer virt startPos = .ok (.ok (c.bytes.drop startPos)) := by
  obtain ⟨-, i, hi, rfl⟩ := clips_eq_some.mp hclip
  have hbound : s.entry (R ++ ofString cam.name :: rest.map ofString) ≠ none := by simp [hi]
  have hhome : s.entry (R ++ [ofString cam.name]) = some .dir := by
    refine dir_above ?_ ?_ hbound
    · exact (List.prefix_append_right_inj R).mpr ⟨rest.map ofString, rfl⟩
    · simpa using hrest
  have hres := resolve_shown hfree hcam hrole hshows hvirt hR hdir hhome
  have hfind : s.find true (locText (R ++ ofString cam.name :: rest.map ofString)) =
      .ok (_, .file i) :=
    find_ok.mpr ⟨locate_locText (by simp [hi]) fun target h => (by rw [hi] at h; cases h), hi⟩
  have hseek : seekStart startPos = .ok () := if_pos hstart
  simp [ReoBackend.get, hrole, capabilityAllowed, hres, hfind, hseek]

/-- Where a camera's upload resolves to, below where the archive root leads, before or
after. -/
theorem resolved_below_root (hfree : LinkFreeArchive cfg t) (hlinks : SameLinks t s)
    (hcam : cam ∈ cfg.camera) (hname : IsName (ofString cam.name))
    (hrole : camera.role = .uploader (cameraHome cfg cam)) {parts : List String}
    (hpath : normalize path = .ok parts)
    (hres : (userView camera).resolve t path = .ok resolved)
    (hR : s.locate true cfg.archive.root = .ok R) :
    resolved = locText (R ++ ofString cam.name :: parts.map ofString) := by
  rw [userView_uploader hrole] at hres
  obtain ⟨B, parts', hB, -, hparts', rfl⟩ := resolve_ok (hfree.homes cam hcam) hres
  obtain rfl := Except.ok.inj (hpath.symm.trans hparts')
  obtain ⟨R', hR', rfl⟩ := aim_spelled hfree.root (l := [ofString cam.name]) (by simpa using hname)
    (spells_join _ hname) (aim_of_locate hB)
  have haim : t.aim cfg.archive.root = .ok R := by
    rw [← hlinks.aim_eq]
    exact aim_of_locate hR
  obtain rfl := Except.ok.inj (hR'.symm.trans haim)
  simp

/-- An acknowledged upload to a backend that encrypts was encrypted to its end. -/
theorem encrypted_of_acknowledged {recipients : List age.Recipient} (hfree : JailFree t camera)
    (hname : ∃ name, fileName path = some name ∧ isReolinkTestFile (toStringLossy name) = false)
    (hok : (serve ⟨some recipients⟩ t ⟨camera, .put path startPos input seed faults⟩).2 =
      .put (.ok n)) :
    ∃ resolved, (userView camera).resolve t path = .ok resolved ∧
      (encryptStream age recipients seed input).outcome = .ok n := by
  obtain ⟨name, hname, hprobe⟩ := hname
  have hcase : PutCase ⟨some recipients⟩ faults seed camera path startPos input t
      (ReoBackend.put ⟨some recipients⟩ faults seed camera path startPos input t) := put_case
  have hn : (ReoBackend.put ⟨some recipients⟩ faults seed camera path startPos input t).2 = .ok n :=
    Reply.put.inj hok
  generalize ReoBackend.put ⟨some recipients⟩ faults seed camera path startPos input t = r
    at hcase hn
  cases hcase with
  | refused e => cases hn
  | probe home name' hrole hname' hprobe' =>
      obtain rfl := Option.some.inj (hname.symm.trans hname')
      rw [hprobe] at hprobe'
      cases hprobe'
  | store home name' resolved hrole hname' hprobe' hres =>
      refine ⟨resolved, by rw [userView_uploader hrole]; exact hres, ?_⟩
      obtain ⟨P, f, -, hp⟩ :=
        storePlace_of_resolve (x := ofString ".age") (hfree home hrole) hres hname' (by decide)
      simp only [putStore] at hn
      split at hn
      · cases hn
      · exact (storeEncrypted_stored hp faults.mkdir (storeReply_ok hn)).1

/-- **An acknowledged upload is delivered** in every state in which the archive root is
found, as long as no sweep comes that is later than the upload by more than the retention
period. -/
theorem delivered (hd : cfg.Distinct) (hsound : Sound cfg t)
    {post : List (ArchiveEvent age)}
    (hput : (ArchiveEvent.request now ⟨camera, .put path startPos input seed faults⟩).Proper cfg)
    (hpost : ∀ e ∈ post, e.Proper cfg)
    (hroot : fileName cfg.archive.root ≠ some quarantineDir) (hcam : cam ∈ cfg.camera)
    (hname : IsName (ofString cam.name)) (hv : v ∈ cfg.viewer)
    (hshows : v.scope.Shows cfg cam.name) (hcamera : LoggedIn cfg cam.login camera)
    (hviewer : LoggedIn cfg v.name viewer) (hnamed : NamedAs backend cam path virt dirs file)
    (hres : (userView camera).resolve (t.atTime now) path = .ok resolved)
    (hok : (serve backend (t.atTime now) ⟨camera, .put path startPos input seed faults⟩).2 =
      .put (.ok n))
    (hbytes : n ≠ 0)
    (hsweeps : ∀ args fault, .sweep args fault ∈ post → args.now ≤ now + args.retention) :
    Throughout (archiveStep backend cfg)
      (fun s => s.isDir cfg.archive.root = true → ∀ offset < 2 ^ 63,
        ReoBackend.get s viewer virt offset =
          .ok (.ok ((storedBytes backend (t.atTime now) resolved seed input).drop offset)))
      (archiveStep backend cfg t (.request now ⟨camera, .put path startPos input seed faults⟩))
      post := by
  intro pre hpre hdir offset hoffset
  obtain ⟨R, hR, hdirR⟩ := isDir_iff.mp hdir
  have hpre' : ∀ e ∈ pre, e.Proper cfg := fun e he => hpost e (hpre.subset he)
  obtain ⟨hafter, hlinks⟩ := hsound.step backend hput
  obtain ⟨hthere, hlinks'⟩ := hafter.run backend hpre'
  obtain ⟨probeName, hfile, hprobe⟩ := hnamed.noProbe
  -- the clip lies below the camera's directory
  have hresolved := resolved_below_root (hsound.atTime now).free
    ((sameLinks_atTime t now).symm.trans (hlinks.trans hlinks')) hcam hname
    (hcamera.role_camera hd hcam) hnamed.uploaded hres hR
  have hplace : R ++ ofString cam.name :: (dirs ++ [file]).map ofString =
      (R ++ ofString cam.name :: dirs.map ofString) ++ [ofString file] := by simp
  have hfinal : finalPath backend resolved = locText (R ++ ofString cam.name ::
      (dirs.map ofString ++ [ofString (storedName backend file)])) := by
    rw [hresolved, hplace, finalPath_locText]
    simp
  have hnames : ∀ a ∈ R ++ ofString cam.name :: (dirs.map ofString ++
      [ofString (storedName backend file)]), IsName a := by
    intro a ha
    simp only [List.mem_append, List.mem_cons, List.not_mem_nil, or_false] at ha
    rcases ha with ha | rfl | ha | rfl
    · exact isName_of_entry (fun hnone => by rw [hnone] at hdirR; cases hdirR) a ha
    · exact hname
    · exact hnamed.isName.1 a ha
    · exact hnamed.isName.2
  obtain ⟨c, hcontent, hthrough⟩ := throughout_acknowledged backend hsound hput hpost hfile hprobe
    hres hok hbytes hfinal hnames (hnamed.clipNamed R) hroot (hnamed.dir R _) hsweeps
  have hclip := hthrough pre hpre
  rw [← hcontent]
  refine get_shown hthere.free hcam (hviewer.role_viewer hd hv) hshows hnamed.viewed (by simp) hR
    hdirR ?_ hoffset
  simpa using hclip

/-- **What a camera sends, a viewer gets.**  Over every run of requests and sweeps of an
archive with a valid config, once an upload of at least one byte is acknowledged, a viewer
whose scope shows the camera downloads what was stored, from any offset below 2^63 and under the
camera's name, in every state in which the archive root is found, as long as no sweep comes that is
later than the upload by more than the retention period. -/
theorem upload_delivered (backend : ReoBackend age) (hvalid : cfg.validate age = .ok ())
    (hsound : Sound cfg t) (pre post : List (ArchiveEvent age))
    (hproper : ∀ e ∈ pre ++ .request now ⟨camera, .put path startPos input seed faults⟩ :: post,
      e.Proper cfg)
    (hroot : fileName cfg.archive.root ≠ some quarantineDir) (hcam : cam ∈ cfg.camera)
    (hname : IsName (ofString cam.name)) (hv : v ∈ cfg.viewer)
    (hshows : v.scope.Shows cfg cam.name) (hcamera : LoggedIn cfg cam.login camera)
    (hviewer : LoggedIn cfg v.name viewer) (hnamed : NamedAs backend cam path virt dirs file)
    (hres : (userView camera).resolve ((run (archiveStep backend cfg) t pre).atTime now) path =
      .ok resolved)
    (hok : (serve backend ((run (archiveStep backend cfg) t pre).atTime now)
      ⟨camera, .put path startPos input seed faults⟩).2 = .put (.ok n))
    (hbytes : n ≠ 0)
    (hsweeps : ∀ args fault, .sweep args fault ∈ post → args.now ≤ now + args.retention) :
    Throughout (archiveStep backend cfg)
      (fun s => s.isDir cfg.archive.root = true → ∀ offset < 2 ^ 63,
        ReoBackend.get s viewer virt offset =
          .ok (.ok ((storedBytes backend ((run (archiveStep backend cfg) t pre).atTime now) resolved
            seed input).drop offset)))
      (archiveStep backend cfg (run (archiveStep backend cfg) t pre)
        (.request now ⟨camera, .put path startPos input seed faults⟩)) post := by
  have hpre : ∀ e ∈ pre, e.Proper cfg := fun e he => hproper e (List.mem_append_left _ he)
  obtain ⟨hput, hpost⟩ :=
    List.forall_mem_cons.mp fun e he => hproper e (List.mem_append_right pre he)
  exact delivered (Config.distinct_of_validate hvalid) (hsound.run backend hpre).1 hput hpost hroot
    hcam hname hv hshows hcamera hviewer hnamed hres hok hbytes hsweeps

/-- **What a camera sends, the holder of an identity recovers.**  Over every such run of a
backend that encrypts, the viewer's download is a ciphertext that decrypts, for an identity
whose recipient the backend encrypts to, to all that the camera sent. -/
theorem encrypted_upload_recovered (hage : age.Inverts) {recipients : List age.Recipient}
    {identity : age.Identity} (hidentity : age.toPublic identity ∈ recipients)
    (hvalid : cfg.validate age = .ok ()) (hsound : Sound cfg t)
    (pre post : List (ArchiveEvent age))
    (hproper : ∀ e ∈ pre ++ .request now ⟨camera, .put path startPos input seed faults⟩ :: post,
      e.Proper cfg)
    (hroot : fileName cfg.archive.root ≠ some quarantineDir) (hcam : cam ∈ cfg.camera)
    (hname : IsName (ofString cam.name)) (hv : v ∈ cfg.viewer)
    (hshows : v.scope.Shows cfg cam.name) (hcamera : LoggedIn cfg cam.login camera)
    (hviewer : LoggedIn cfg v.name viewer)
    (hnamed : NamedAs ⟨some recipients⟩ cam path virt dirs file)
    (hok : (serve ⟨some recipients⟩ ((run (archiveStep ⟨some recipients⟩ cfg) t pre).atTime now)
      ⟨camera, .put path startPos input seed faults⟩).2 = .put (.ok n))
    (hbytes : n ≠ 0)
    (hsweeps : ∀ args fault, .sweep args fault ∈ post → args.now ≤ now + args.retention) :
    Throughout (archiveStep ⟨some recipients⟩ cfg)
      (fun s => s.isDir cfg.archive.root = true → ∃ ciphertext, ∃ bs : List Bytes,
        ReoBackend.get s viewer virt 0 = .ok (.ok ciphertext) ∧ input = bs.map .ok ∧
          decryptStream age identity ciphertext = (bs.flatten, .ok n))
      (archiveStep ⟨some recipients⟩ cfg (run (archiveStep ⟨some recipients⟩ cfg) t pre)
        (.request now ⟨camera, .put path startPos input seed faults⟩)) post := by
  have hpre : ∀ e ∈ pre, e.Proper cfg := fun e he => hproper e (List.mem_append_left _ he)
  obtain ⟨hput, hpost⟩ :=
    List.forall_mem_cons.mp fun e he => hproper e (List.mem_append_right pre he)
  have hd := Config.distinct_of_validate hvalid
  have hthere := (hsound.run ⟨some recipients⟩ hpre).1
  have hrole := hcamera.role_camera hd hcam
  obtain ⟨resolved, hres, hout⟩ := encrypted_of_acknowledged
    ((hthere.atTime now).jailFree hput.2) hnamed.noProbe hok
  obtain ⟨bs, hinput, -, hdecrypt⟩ := decryptStream_encryptStream hage hout hidentity
  refine (delivered hd hthere hput hpost hroot hcam hname hv hshows hcamera hviewer hnamed hres hok
    hbytes hsweeps).mono fun s hget hdir => ⟨_, bs, hget hdir 0 (by simp), hinput, ?_⟩
  exact hdecrypt

end Delivered

/-! ## A clip for the guard -/

/-- The homes of the guarded yard. -/
def guardedHomes : FileTree := (ensureHomeDirs (fun _ _ => none) guardedYard .bare).1

/-- The camera of the yard, and the guard, logged in. -/
def yardCamera : ReoUser := ⟨"cam1", .uploader (ofString "/srv/yard"), true⟩
def yardGuard : ReoUser := ⟨"guard", .viewer (expandScope guardedYard (.list ["site"])), false⟩

/-- The camera sends a clip. -/
def clipCall : Call shiftAge := .put (ofString "d/x") 0 [.ok [1], .ok [2]] (7 : UInt8) .never

theorem guardedYard_valid : guardedYard.validate shiftAge = .ok () := by decide +kernel

theorem yard_mem : (⟨"yard", some "cam1", "h1", some true⟩ : CameraCfg) ∈ guardedYard.camera :=
  List.mem_cons_self ..

theorem guard_mem : (⟨"guard", "h3", .list ["site"]⟩ : ViewerCfg) ∈ guardedYard.viewer :=
  List.mem_cons_self ..

theorem yardCamera_loggedIn : LoggedIn guardedYard "cam1" yardCamera :=
  ⟨_, build_get_camera (Config.distinct_of_validate guardedYard_valid) yard_mem, rfl⟩

theorem yardGuard_loggedIn : LoggedIn guardedYard "guard" yardGuard :=
  ⟨_, build_get_viewer (Config.distinct_of_validate guardedYard_valid) guard_mem, rfl⟩

/-- The list of the guard has the group of the yard. -/
theorem guard_shows_yard : (Scope.list ["site"]).Shows guardedYard "yard" :=
  ⟨"site", List.mem_cons_self .., by decide⟩

theorem clipCall_proper (now : Nat) :
    (ArchiveEvent.request now ⟨yardCamera, clipCall⟩).Proper guardedYard := by
  refine ⟨?_, ?_⟩
  · rintro _ _ _ _ _ ⟨⟩
    exact ⟨rfl, rfl⟩
  · rintro _ ⟨⟩
    exact ⟨_, yard_mem, by decide⟩

/-- The clip is `d/x` to the camera, and `/yard/d/x` or `/yard/d/x.age` to the guard. -/
theorem clip_named (backend : ReoBackend shiftAge) {virt : OsStr}
    (h : normalize virt = .ok ("yard" :: (["d"] ++ [storedName backend "x"]))) :
    NamedAs backend ⟨"yard", some "cam1", "h1", some true⟩ (ofString "d/x") virt ["d"] "x" where
  uploaded := by decide +kernel
  viewed := h
  noProbe := ⟨ofString "x", by decide, by decide⟩
  noStaging := by
    rw [ofString_storedName]
    exact ((stored_internal_iff backend "x").mpr fun _ => by decide).1
  noQuarantine := by decide

/-- The guard downloads the clip, from any such offset, after the camera has tried to send it again
and after a sweep. -/
theorem clip_delivered :
    Throughout (archiveStep (.plain : ReoBackend shiftAge) guardedYard)
      (fun s => s.isDir (ofString "/srv") = true → ∀ offset < 2 ^ 63,
        ReoBackend.get s yardGuard (ofString "/yard/d/x") offset =
          .ok (.ok (([1, 2] : Bytes).drop offset)))
      (archiveStep (.plain : ReoBackend shiftAge) guardedYard guardedHomes
        (.request 45 ⟨yardCamera, clipCall⟩))
      [.request 46 ⟨yardCamera, clipCall⟩, .sweep sweepAt50 noSweepFault] := by
  have hsound : Sound guardedYard guardedHomes := sound_of_dirs (by decide +kernel)
  have hres : (userView yardCamera).resolve (guardedHomes.atTime 45) (ofString "d/x") =
      .ok (ofString "/srv/yard/d/x") := by decide +kernel
  have hok : (serve (.plain : ReoBackend shiftAge) (guardedHomes.atTime 45)
      ⟨yardCamera, clipCall⟩).2 = .put (.ok 2) := by decide +kernel
  have hstored : storedBytes (.plain : ReoBackend shiftAge) (guardedHomes.atTime 45)
      (ofString "/srv/yard/d/x") (7 : UInt8) [.ok [1], .ok [2]] = [1, 2] := by decide +kernel
  have hnamed := clip_named .plain (by decide +kernel :
    normalize (ofString "/yard/d/x") = .ok ["yard", "d", "x"])
  have hdelivered := upload_delivered (.plain : ReoBackend shiftAge) guardedYard_valid hsound []
    [.request 46 ⟨yardCamera, clipCall⟩, .sweep sweepAt50 noSweepFault]
    (by simpa using ⟨clipCall_proper 45, clipCall_proper 46, by simp [ArchiveEvent.Proper]⟩)
    (by decide) yard_mem (by decide) guard_mem guard_shows_yard yardCamera_loggedIn
    yardGuard_loggedIn hnamed hres hok (by decide) (by simp [sweepAt50])
  rw [run_nil, hstored] at hdelivered
  exact hdelivered

/-- A backend that encrypts the clips of the yard. -/
def yardVault : ReoBackend shiftAge := ⟨some [()]⟩

/-- What the guard then downloads decrypts to the clip. -/
theorem encrypted_clip_recovered :
    Throughout (archiveStep yardVault guardedYard)
      (fun s => s.isDir (ofString "/srv") = true → ∃ ciphertext, ∃ bs : List Bytes,
        ReoBackend.get s yardGuard (ofString "/yard/d/x.age") 0 = .ok (.ok ciphertext) ∧
          [Except.ok [1], Except.ok [2]] = bs.map (Except.ok (ε := Errno)) ∧
          decryptStream shiftAge shiftKey ciphertext = (bs.flatten, .ok 2))
      (archiveStep yardVault guardedYard guardedHomes (.request 45 ⟨yardCamera, clipCall⟩))
      [.request 46 ⟨yardCamera, clipCall⟩, .sweep sweepAt50 noSweepFault] := by
  have hsound : Sound guardedYard guardedHomes := sound_of_dirs (by decide +kernel)
  have hok : (serve yardVault (guardedHomes.atTime 45) ⟨yardCamera, clipCall⟩).2 =
      .put (.ok 2) := by decide +kernel
  have hidentity : shiftAge.toPublic shiftKey ∈ ([()] : List shiftAge.Recipient) :=
    List.mem_cons_self ..
  have hnamed := clip_named yardVault (by decide +kernel :
    normalize (ofString "/yard/d/x.age") = .ok ["yard", "d", "x.age"])
  exact encrypted_upload_recovered shiftAge_inverts hidentity guardedYard_valid hsound []
    [.request 46 ⟨yardCamera, clipCall⟩, .sweep sweepAt50 noSweepFault]
    (by simpa using ⟨clipCall_proper 45, clipCall_proper 46, by simp [ArchiveEvent.Proper]⟩)
    (by decide) yard_mem (by decide) guard_mem guard_shows_yard yardCamera_loggedIn
    yardGuard_loggedIn hnamed hok (by decide) (by simp [sweepAt50])

end Reoftpd

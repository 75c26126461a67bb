import Reoftpd.Account
import Reoftpd.JailWrites
import Reoftpd.Runs
import Reoftpd.SweepSpares

/-!
# Camera homes and the sweep

`ensure_home_dirs` makes the home of every camera when the server starts, and nothing
makes a home again until the next reload.  Requests keep directories; sweeps do not.

**A sweep disables a camera** whose home holds nothing that the sweep keeps: the empty
home is pruned with every other empty directory, and the camera's next request is
refused for a path that is not found (`fresh_home_pruned`).  Along a run whose sweeps all
find a file to keep below every directory on the way to a home, that happens to no camera
(`homes_kept`).  What carries it is that a sweep, whatever fails on its way, leaves every
file it keeps where it was, and with it the directories above (`sweep_spared`).
-/
namespace Reoftpd
open UnixPath FileTree

/-! ## An archive and its cameras -/

/-- The loop of `ensure_home_dirs`. -/
def makeHomes (fault : MkdirFault) (cfg : Config) :
    FileTree → List CameraCfg → FileTree × Except Errno Unit
  | t, [] => (t, .ok ())
  | t, cam :: rest =>
      match t.createDirAll fault (cameraHome cfg cam) with
      | (t', .error e) => (t', .error e)
      | (t', .ok ()) => makeHomes fault cfg t' rest

/-- `ensure_home_dirs`. -/
def ensureHomeDirs (fault : MkdirFault) (cfg : Config) (t : FileTree) :
    FileTree × Except Errno Unit :=
  makeHomes fault cfg t cfg.camera

/-- What happens to an archive: a request, at a time, or a sweep of its root. -/
inductive ArchiveEvent (age : Age) where
  | request (now : Nat) (req : Request age)
  | sweep (args : SweepArgs) (fault : SweepFault)

/-- One event. -/
def archiveStep {age : Age} (backend : ReoBackend age) (cfg : Config) (t : FileTree) :
    ArchiveEvent age → FileTree
  | .request now req => afterRequest backend (t.atTime now) req
  | .sweep args fault => (sweep args fault cfg.archive.root t).1

/-- A request is one of a camera. -/
def ArchiveEvent.ByCamera {age : Age} (cfg : Config) : ArchiveEvent age → Prop
  | .request _ req => ∃ cam ∈ cfg.camera, req.user.role = .uploader (cameraHome cfg cam)
  | .sweep _ _ => True

/-- No link lies in the archive: at or below its root, or the home of a camera. -/
structure LinkFreeArchive (cfg : Config) (t : FileTree) : Prop where
  root : t.LinkFree cfg.archive.root
  homes : ∀ cam ∈ cfg.camera, t.LinkFree (cameraHome cfg cam)

/-- Every directory below the archive root that the path of a camera's home leads through,
the home included, has a file at or below it that the sweep keeps. -/
def SparesHomes (cfg : Config) (args : SweepArgs) (t : FileTree) : Prop :=
  ∀ R, t.locate true cfg.archive.root = .ok R → ∀ cam ∈ cfg.camera, ∀ m, m ≠ [] →
    R ++ m ∈ t.pathTrail (cameraHome cfg cam) → Kept args t cfg.archive.root R m

/-- A sweep spares the homes. -/
def ArchiveEvent.Spares {age : Age} (cfg : Config) (t : FileTree) : ArchiveEvent age → Prop
  | .request _ _ => True
  | .sweep args _ => SparesHomes cfg args t

/-- No camera is refused a path because its home is not found. -/
def HomesFound (cfg : Config) (t : FileTree) : Prop :=
  ∀ cam ∈ cfg.camera, ∀ virt,
    (ScopeMap.ofRoot (cameraHome cfg cam)).resolve t virt ≠ .error .notFound

/-- The home of every camera is there, and no link is. -/
structure HomesThere (cfg : Config) (t : FileTree) : Prop where
  free : LinkFreeArchive cfg t
  dirs : ∀ cam ∈ cfg.camera, t.isDir (cameraHome cfg cam) = true

section Homes
variable {age : Age} {backend : ReoBackend age} {cfg : Config} {t t' : FileTree}

/-- Where every camera's name is a file name, the root says it all. -/
theorem linkFreeArchive_of_names (hroot : t.LinkFree cfg.archive.root)
    (hnames : ∀ cam ∈ cfg.camera, IsName (ofString cam.name)) : LinkFreeArchive cfg t where
  root := hroot
  homes cam hcam :=
    linkFree_spelled hroot (by simpa using hnames cam hcam) (spells_join _ (hnames cam hcam))

theorem LinkFreeArchive.of_sameLinks (h : LinkFreeArchive cfg t) (hs : SameLinks t t') :
    LinkFreeArchive cfg t' :=
  ⟨h.root.of_sameLinks hs, fun cam hcam => (h.homes cam hcam).of_sameLinks hs⟩

theorem HomesThere.grows (h : HomesThere cfg t) (hg : Grows t t') : HomesThere cfg t' :=
  ⟨h.free.of_sameLinks hg.toSameLinks, fun cam hcam => hg.isDir (h.dirs cam hcam)⟩

theorem HomesThere.found (h : HomesThere cfg t) : HomesFound cfg t := by
  intro cam hcam virt
  obtain ⟨L, hL, hdir⟩ := isDir_iff.mp (h.dirs cam hcam)
  exact resolve_ne_notFound (canonicalize_eq hL hdir)

/-- Every home the loop has come to is there, the empty path apart. -/
theorem makeHomes_dirs {fault : MkdirFault} {cams : List CameraCfg}
    (h : makeHomes fault cfg t cams = (t', .ok ())) :
    Grows t t' ∧ ∀ cam ∈ cams, cameraHome cfg cam ≠ [] →
      t'.isDir (cameraHome cfg cam) = true := by
  induction cams generalizing t with
  | nil =>
      obtain rfl := (Prod.mk.inj h).1
      exact ⟨.refl t, by simp⟩
  | cons cam cams ih =>
      unfold makeHomes at h
      split at h
      · cases (Prod.mk.inj h).2
      · rename_i t₁ hc
        have hg₁ := (addsDirs_createDirAll fault t (cameraHome cfg cam)).grows
        have hmade : cameraHome cfg cam ≠ [] → t₁.isDir (cameraHome cfg cam) = true := by
          intro hne
          have hdir : (t.createDirAll fault (cameraHome cfg cam)).1.isDir (cameraHome cfg cam) =
              true := isDir_of_createDirAll hne (by rw [hc])
          rw [hc] at hdir
          exact hdir
        rw [hc] at hg₁
        obtain ⟨hg, hrest⟩ := ih h
        refine ⟨hg₁.trans hg, List.forall_mem_cons.mpr ⟨fun hne => ?_, hrest⟩⟩
        exact hg.isDir (hmade hne)

/-- **A request** keeps the homes. -/
theorem HomesThere.request {req : Request age} (h : HomesThere cfg t) (now : Nat)
    (hcam : ∃ cam ∈ cfg.camera, req.user.role = .uploader (cameraHome cfg cam)) :
    HomesThere cfg (afterRequest backend (t.atTime now) req) := by
  obtain ⟨cam, hcam, hrole⟩ := hcam
  have htime : Grows t (t.atTime now) := ⟨⟨rfl, fun _ _ => Iff.rfl⟩, fun _ hdir => hdir⟩
  have hthen := h.grows htime
  refine hthen.grows (grows_afterRequest fun home hhome => ?_)
  obtain rfl := Role.uploader.inj (hrole.symm.trans hhome)
  exact hthen.free.homes cam hcam

/-- **A sweep** keeps the homes it spares. -/
theorem HomesThere.sweep {args : SweepArgs} {fault : SweepFault} (h : HomesThere cfg t)
    (hspares : SparesHomes cfg args t) :
    HomesThere cfg (Reoftpd.sweep args fault cfg.archive.root t).1 := by
  by_cases hplace : ∃ R, t.locate true cfg.archive.root = .ok R ∧ t.entry R = some .dir
  · obtain ⟨R, hleads, hdir⟩ := hplace
    have hp : SweepPlace t cfg.archive.root R :=
      ⟨hleads, hdir, fun m => h.free.root.entry_ne hleads (List.prefix_append R m)⟩
    have hkeep : Spared args t cfg.archive.root R
        (Reoftpd.sweep args fault cfg.archive.root t).1 := sweep_spared hleads hdir
    refine ⟨h.free.of_sameLinks (hkeep.grows hp).toSameLinks.symm, fun cam hcam => ?_⟩
    obtain ⟨L, hL, hLdir⟩ := isDir_iff.mp (h.dirs cam hcam)
    have hstay : ∀ D ∈ t.pathTrail (cameraHome cfg cam), t.entry D = some .dir →
        (Reoftpd.sweep args fault cfg.archive.root t).1.entry D = some .dir := by
      intro D hD hDdir
      rcases hkeep.entry_or D with he | ⟨-, ⟨m, rfl⟩, hne⟩
      · rw [he, hDdir]
      · have hk : Kept args t cfg.archive.root R m :=
          hspares R hleads cam hcam m (by simpa using hne) hD
        rw [hkeep.keeps m hk, hDdir]
    refine isDir_iff.mpr ⟨L, locate_stable hkeep.cwd (hkeep.link_iff hp) hstay hL, ?_⟩
    exact hstay L (mem_pathTrail hL hLdir) hLdir
  · rw [sweep_lost fun R hR hdir => hplace ⟨R, hR, hdir⟩]
    exact h

/-- **The sweep disables no camera** along a run whose sweeps all spare the homes. -/
theorem homes_kept {fault : MkdirFault} (hfree : LinkFreeArchive cfg t)
    (hne : ∀ cam ∈ cfg.camera, cameraHome cfg cam ≠ [])
    (hmade : ensureHomeDirs fault cfg t = (t', .ok ())) {events : List (ArchiveEvent age)}
    (hcams : ∀ e ∈ events, e.ByCamera cfg)
    (hspares : Runs.Along (archiveStep backend cfg) (fun t e => e.Spares cfg t) t' events) :
    Runs.Throughout (archiveStep backend cfg) (HomesFound cfg) t' events := by
  obtain ⟨hg, hdirs⟩ := makeHomes_dirs hmade
  have hstart : HomesThere cfg t' :=
    ⟨hfree.of_sameLinks hg.toSameLinks, fun cam hcam => hdirs cam hcam (hne cam hcam)⟩
  have hstep : ∀ t e, HomesThere cfg t → e.Spares cfg t ∧ e.ByCamera cfg →
      HomesThere cfg (archiveStep backend cfg t e) := by
    intro t e h hguard
    cases e with
    | request now req => exact h.request now hguard.2
    | sweep args fault => exact h.sweep hguard.1
  exact (Runs.throughout_of_invariant hstep hstart (hspares.and_forall hcams)).mono
    fun t h => h.found

end Homes

/-! ## One camera in its yard -/

/-- A config with one camera. -/
def yardConfig : Config where
  server := ⟨(2122, 2132)⟩
  archive := ⟨ofString "/srv", 30⟩
  limits := ⟨8, none⟩
  camera := [⟨"yard", none, "h1", none⟩]
  group := ∅
  viewer := []
  encryption := none

/-- The archive the server starts with. -/
def freshYard : FileTree := (ensureHomeDirs (fun _ _ => none) yardConfig .bare).1

/-- The camera stores a clip. -/
def yardPut : Request shiftAge where
  user := ⟨"yard", .uploader (ofString "/srv/yard"), false⟩
  call := .put (ofString "x") 0 [.ok [1]] (7 : UInt8) .never

theorem freshYard_made :
    ensureHomeDirs (fun _ _ => none) yardConfig .bare = (freshYard, .ok ()) := by
  have hok : (ensureHomeDirs (fun _ _ => none) yardConfig .bare).2 = .ok () := by decide +kernel
  exact Prod.ext rfl hok

theorem linkFree_bareYard : LinkFreeArchive yardConfig .bare :=
  ⟨linkFree_of_no_links no_links_bare _, fun _ _ => linkFree_of_no_links no_links_bare _⟩

/-- A home with a young clip in it is spared. -/
theorem homes_kept_yard : Runs.Throughout (archiveStep (.plain : ReoBackend shiftAge) yardConfig)
    (HomesFound yardConfig) freshYard
    [.request 45 yardPut, .sweep sweepAt50 noSweepFault, .request 50 yardPut] := by
  have hcam : (ArchiveEvent.request 45 yardPut).ByCamera yardConfig :=
    ⟨_, List.mem_cons_self .., rfl⟩
  have hspares : SparesHomes yardConfig sweepAt50
      (archiveStep (.plain : ReoBackend shiftAge) yardConfig freshYard (.request 45 yardPut)) := by
    intro R hR cam hcam m hm htrail
    have hroot : (archiveStep (.plain : ReoBackend shiftAge) yardConfig freshYard
        (.request 45 yardPut)).locate true yardConfig.archive.root = .ok [ofString "srv"] := by
      decide +kernel
    have hway : (archiveStep (.plain : ReoBackend shiftAge) yardConfig freshYard
        (.request 45 yardPut)).pathTrail (ofString "/srv/yard") =
          [[], [ofString "srv"], [ofString "srv", ofString "yard"]] := by
      decide +kernel
    obtain rfl : [ofString "srv"] = R := Except.ok.inj (hroot.symm.trans hR)
    obtain rfl := List.mem_singleton.mp hcam
    have hmem := hway ▸ htrail
    obtain rfl : m = [ofString "yard"] := by simpa [hm] using hmem
    exact ⟨[ofString "x"], 0, by decide +kernel, by decide +kernel⟩
  exact homes_kept linkFree_bareYard (by decide +kernel) freshYard_made
    (List.forall_mem_cons.mpr ⟨hcam, by simpa [ArchiveEvent.ByCamera] using hcam⟩)
    ⟨trivial, hspares, trivial, trivial⟩

/-- **A home that is still empty is pruned**, and the camera is refused its first clip. -/
theorem fresh_home_pruned :
    yardConfig.validate shiftAge = .ok () ∧ LinkFreeArchive yardConfig .bare ∧
      ensureHomeDirs (fun _ _ => none) yardConfig .bare = (freshYard, .ok ()) ∧
      sweepAt50.dryRun = false ∧
      ¬ Runs.Throughout (archiveStep (.plain : ReoBackend shiftAge) yardConfig)
        (HomesFound yardConfig) freshYard [.sweep sweepAt50 noSweepFault] ∧
      (serve .plain (archiveStep (.plain : ReoBackend shiftAge) yardConfig freshYard
        (.sweep sweepAt50 noSweepFault)) yardPut).2 =
          .put (.error (.kind .permanentFileNotAvailable)) := by
  refine ⟨by rfl, linkFree_bareYard, freshYard_made, rfl, ?_, by decide +kernel⟩
  intro h
  have hlast := h _ List.prefix_rfl _ (List.mem_cons_self ..) (ofString "x")
  have hgone : (ScopeMap.ofRoot (ofString "/srv/yard")).resolve
      (archiveStep (.plain : ReoBackend shiftAge) yardConfig freshYard
        (.sweep sweepAt50 noSweepFault)) (ofString "x") = .error .notFound := by
    decide +kernel
  exact hlast hgone

end Reoftpd

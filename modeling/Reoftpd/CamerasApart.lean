import Reoftpd.Effects
import Reoftpd.Noninterference
import Reoftpd.Unwinding

/-!
# Cameras do not interfere

Any number of cameras and viewers use one archive, their requests in any order.  **What a
camera is answered is what it would be answered alone** (`cameras_do_not_interfere`):
leaving out the requests of everybody else changes none of its replies, as long as no link
lies in the homes and no home lies in another or shares a file with it.

The relation that unwinds the backend is that of two trees with alike homes.  A request of
the camera itself goes the same way in both; a request of another camera leaves the home as
it was, since all it writes lies in a home apart; and a viewer writes nothing.
-/
namespace Reoftpd
open UnixPath FileTree Runs Unwinding

variable {age : Age}

/-- The home of the user that makes the request, if it is an uploader. -/
def Request.home? (req : Request age) : Option OsStr :=
  match req.user.role with
  | .uploader home => some home
  | .viewer _ => none

/-- The tree after a request made at a time. -/
def timedStep (backend : ReoBackend age) (t : FileTree) (e : Nat × Request age) : FileTree :=
  afterRequest backend (t.atTime e.1) e.2

/-- What a request made at a time is answered. -/
def timedReply (backend : ReoBackend age) (t : FileTree) (e : Nat × Request age) : Reply :=
  (serve backend (t.atTime e.1) e.2).2

/-- The request is one of the uploader with this home. -/
def MadeBy (home : OsStr) (e : Nat × Request age) : Prop := e.2.home? = some home

instance (home : OsStr) : DecidablePred (@MadeBy age home) :=
  fun e => inferInstanceAs (Decidable (e.2.home? = some home))

theorem madeBy_iff {home : OsStr} {e : Nat × Request age} :
    MadeBy home e ↔ e.2.user.role = .uploader home := by
  unfold MadeBy Request.home?
  cases e.2.user.role with
  | uploader home' => simp
  | viewer scope => simp

/-- Neither of two homes lies in the other, and no file has a name in both. -/
structure Apart (t : FileTree) (B B' : Loc) : Prop where
  notBelow : ¬ B <+: B'
  notAbove : ¬ B' <+: B
  files : ∀ m m' i, t.entry (B ++ m) = some (.file i) → t.entry (B' ++ m') ≠ some (.file i)

section Apart
variable {t s t' : FileTree} {home home' : OsStr} {B B' O F : Loc} {m : List OsStr}

theorem Apart.symm (h : Apart t B B') : Apart t B' B :=
  ⟨h.notAbove, h.notBelow, fun m m' i hi hi' => h.files m' m i hi' hi⟩

theorem Apart.not_prefix (h : Apart t B B') (m : List OsStr) : ¬ B' <+: B ++ m := fun hp =>
  (List.prefix_or_prefix_of_prefix (List.prefix_append B m) hp).elim h.notBelow h.notAbove

/-- **What is written in one home** leaves a home apart from it as it is. -/
theorem Effect.elsewhere (h : Effect B' O F t s) (hopens : Opens B' O F) (hapart : Apart t B B') :
    (∀ m, s.entry (B ++ m) = t.entry (B ++ m)) ∧
      ∀ m i, t.entry (B ++ m) = some (.file i) →
        s.disk.data i = t.disk.data i ∧ s.disk.modified i = t.disk.modified i := by
  obtain ⟨hO, hF⟩ := hopens.inside
  have hout : ∀ m M, B' <+: M → B ++ m ≠ M := fun m M hM he => hapart.not_prefix m (he ▸ hM)
  refine ⟨fun m => ?_, fun m i hi => ?_⟩
  · rcases h.entry (B ++ m) (hout m O hO) (hout m F hF) with he | ⟨-, -, hin⟩
    · exact he
    · exact absurd hin (hapart.not_prefix m)
  · refine h.contents i (lt_fresh hi) fun hOi => ?_
    obtain ⟨m', rfl⟩ := hO
    exact hapart.files m m' i hi hOi

/-- What a file below a home is bound to was bound there before, or is new. -/
theorem Effect.file_below (h : Effect B O F t s) (hopens : Opens B O F) {i : Nat}
    (hi : s.entry (B ++ m) = some (.file i)) :
    (∃ m', t.entry (B ++ m') = some (.file i)) ∨ t.disk.fresh ≤ i := by
  obtain ⟨⟨mO, rfl⟩, ⟨mF, rfl⟩⟩ := hopens.inside
  by_cases hmO : B ++ m = B ++ mO
  · rw [hmO] at hi
    exact (h.opened i hi).imp_left fun he => ⟨mO, he⟩
  · by_cases hmF : B ++ m = B ++ mF
    · rw [hmF] at hi
      rcases h.bound i hi with he | he | he
      · exact Or.inl ⟨mF, he⟩
      · exact Or.inl ⟨mO, he⟩
      · exact Or.inr he
    · rcases h.entry (B ++ m) hmO hmF with he | ⟨-, he, -⟩
      · exact Or.inl ⟨m, he ▸ hi⟩
      · rw [he] at hi
        cases hi

/-- Two homes stay apart when something is written in one of them. -/
theorem Apart.effect (h : Apart t B B') (hopens : Opens B' O F) (he : Effect B' O F t s) :
    Apart s B B' := by
  refine ⟨h.notBelow, h.notAbove, fun m m' i hi hi' => ?_⟩
  rw [(he.elsewhere hopens h).1 m] at hi
  rcases he.file_below hopens hi' with ⟨m'', hold⟩ | hnew
  · exact h.files m m'' i hi hold
  · exact absurd hnew (Nat.not_le.mpr (lt_fresh hi))

/-- And when something is written in a third one that is apart from the first. -/
theorem Apart.effect_third {C : Loc} (h : Apart t B B') (hC : Apart t B C) (hopens : Opens C O F)
    (he : Effect C O F t s) : Apart s B B' := by
  refine ⟨h.notBelow, h.notAbove, fun m m' i hi hi' => ?_⟩
  rw [(he.elsewhere hopens hC).1 m] at hi
  by_cases hmO : B' ++ m' = O
  · rw [hmO] at hi'
    rcases he.opened i hi' with hold | hnew
    · exact h.files m m' i hi (hmO ▸ hold)
    · exact absurd hnew (Nat.not_le.mpr (lt_fresh hi))
  · by_cases hmF : B' ++ m' = F
    · rw [hmF] at hi'
      obtain ⟨⟨mO, rfl⟩, -⟩ := hopens.inside
      rcases he.bound i hi' with hold | hold | hnew
      · exact h.files m m' i hi (hmF ▸ hold)
      · exact hC.files m mO i hi hold
      · exact absurd hnew (Nat.not_le.mpr (lt_fresh hi))
    · rcases he.entry (B' ++ m') hmO hmF with hsame | ⟨-, hdir, -⟩
      · exact h.files m m' i hi (hsame ▸ hi')
      · rw [hdir] at hi'
        cases hi'

/-- **What is written elsewhere** makes no difference to alike homes. -/
theorem Alike.elsewhere (h : Alike t t' B) (he : ∀ m, s.entry (B ++ m) = t.entry (B ++ m))
    (hc : ∀ m i, t.entry (B ++ m) = some (.file i) →
      s.disk.data i = t.disk.data i ∧ s.disk.modified i = t.disk.modified i)
    (hclock : s.disk.clock = t.disk.clock) (hdirSize : s.disk.dirSize = t.disk.dirSize) :
    Alike s t' B where
  there := by
    have hB := he []
    rw [List.append_nil] at hB
    rw [hB]
    exact h.there
  kind m := by
    rw [he m]
    exact h.kind m
  size m i j hi hj := by
    rw [he m] at hi
    rw [(hc m i hi).1]
    exact h.size m i j hi hj
  time m i j hi hj := by
    rw [he m] at hi
    rw [(hc m i hi).2]
    exact h.time m i j hi hj
  clock := hclock.trans h.clock
  dirSize := hdirSize.trans h.dirSize
  hardLinks m m' i j hi hj := by
    rw [he m] at hi
    rw [he m']
    exact h.hardLinks m m' i j hi hj

end Apart

/-! ## The unwinding -/

/-- What holds of the tree `t` of a run and the tree `t'` of the run with the requests of one
camera alone.  The homes of `others` are in `t`, apart from that of the camera. -/
structure AloneAlike (home : OsStr) (others : Set OsStr) (B : Loc) (t t' : FileTree) : Prop where
  alike : ∀ now, AlikeHomes home B (t.atTime now) (t'.atTime now)
  here : HomeAt t home B
  dir : t.entry B = some .dir
  there : ∀ home' ∈ others, ∃ B', HomeAt t home' B' ∧ t.entry B' = some .dir ∧ Apart t B B'

/-- The request is one of the camera, of a viewer, or of a camera whose home is among
`others`. -/
def Allowed (home : OsStr) (others : Set OsStr) (e : Nat × Request age) : Prop :=
  ∀ home', e.2.user.role = .uploader home' → home' = home ∨ home' ∈ others

section Unwinding
variable {home : OsStr} {others : Set OsStr} {B : Loc} {t t' : FileTree}
  {backend : ReoBackend age} {e : Nat × Request age}

/-- Homes are where they were at any other time. -/
theorem HomeAt.atTime {home' : OsStr} {B' : Loc} (h : HomeAt t home' B') (now : Nat) :
    HomeAt (t.atTime now) home' B' := ⟨h.leads, h.bound, h.free⟩

/-- A home without links is alike in one tree and itself. -/
theorem HomeAt.alike (h : HomeAt t home B) : AlikeHomes home B t t := by
  have hlinks : ∀ m target, t.entry (B ++ m) ≠ some (.link target) := fun m target =>
    h.free.entry_ne h.leads (List.prefix_append B m) target
  exact ⟨.refl h.bound hlinks, h.leads, h.leads⟩

/-- **A request of the camera** goes the same way with and without the others. -/
theorem AloneAlike.own (h : AloneAlike home others B t t') (he : MadeBy home e) :
    AloneAlike home others B (timedStep backend t e) (timedStep backend t' e) := by
  have hrole := madeBy_iff.mp he
  obtain ⟨O, F, hopens, heffect⟩ := afterRequest_effect backend (h.here.atTime e.1) hrole
  refine ⟨fun now => ((serve_alike backend e.2 (h.alike e.1) hrole).1).atTime now,
    (h.here.atTime e.1).grows h.dir heffect.toGrows, heffect.dir B h.dir, fun home' hhome' => ?_⟩
  obtain ⟨B', hat, hdir, hapart⟩ := h.there home' hhome'
  have hapart' : Apart (t.atTime e.1) B' B := ⟨hapart.notAbove, hapart.notBelow, hapart.symm.files⟩
  exact ⟨B', (hat.atTime e.1).grows hdir heffect.toGrows, heffect.dir B' hdir,
    (hapart'.effect hopens heffect).symm⟩

/-- **A request of anybody else** leaves the camera's home as it is. -/
theorem AloneAlike.other (h : AloneAlike home others B t t') (hallowed : Allowed home others e)
    (he : ¬ MadeBy home e) : AloneAlike home others B (timedStep backend t e) t' := by
  rw [madeBy_iff] at he
  cases hrole : e.2.user.role with
  | viewer scope =>
      rw [timedStep, afterRequest_viewer backend hrole]
      exact ⟨h.alike, h.here.atTime e.1, h.dir, fun home' hhome' => by
        obtain ⟨B', hat, hdir, hapart⟩ := h.there home' hhome'
        exact ⟨B', hat.atTime e.1, hdir, hapart.notBelow, hapart.notAbove, hapart.files⟩⟩
  | uploader home₁ =>
      have hmem : home₁ ∈ others := (hallowed home₁ hrole).resolve_left fun heq => he (heq ▸ hrole)
      obtain ⟨C, hatC, hdirC, hC⟩ := h.there home₁ hmem
      have hC' : Apart (t.atTime e.1) B C := ⟨hC.notBelow, hC.notAbove, hC.files⟩
      obtain ⟨O, F, hopens, heffect⟩ := afterRequest_effect backend (hatC.atTime e.1) hrole
      obtain ⟨hentry, hcontents⟩ := heffect.elsewhere hopens hC'
      refine ⟨fun now => ?_, (h.here.atTime e.1).grows h.dir heffect.toGrows,
        heffect.dir B h.dir, fun home' hhome' => ?_⟩
      · have halike := h.alike now
        have hs : Alike ((timedStep backend t e).atTime now) (t'.atTime now) B :=
          halike.toAlike.elsewhere hentry hcontents rfl heffect.dirSize
        have hleads : (timedStep backend t e).locate true home = .ok B :=
          heffect.locate (h.here.atTime e.1).leads
        exact ⟨hs, hleads, halike.leads'⟩
      · obtain ⟨B', hat, hdir, hapart⟩ := h.there home' hhome'
        have hapart' : Apart (t.atTime e.1) B B' :=
          ⟨hapart.notBelow, hapart.notAbove, hapart.files⟩
        exact ⟨B', (hat.atTime e.1).grows hdir heffect.toGrows, heffect.dir B' hdir,
          hapart'.effect_third hC' hopens heffect⟩

/-- **The backend is unwound** by homes that are alike. -/
theorem unwinds_aloneAlike (backend : ReoBackend age) (home : OsStr) (others : Set OsStr)
    (B : Loc) :
    Unwinds (timedStep backend) (timedReply backend) (MadeBy home)
      (fun _ e => Allowed home others e) (AloneAlike home others B) Reply.Same where
  own_answer _ _ e h _ he := (serve_alike backend e.2 (h.alike e.1) (madeBy_iff.mp he)).2
  own_step _ _ _ h _ he := h.own he
  other_step _ _ _ h hallowed he := h.other hallowed he

end Unwinding

/-! ## The cameras of a config -/

/-- The homes of a config are there, and no link lies in them. -/
structure PlainHomes (cfg : Config) (t : FileTree) : Prop where
  free : ∀ cam ∈ cfg.camera, t.LinkFree (cameraHome cfg cam)
  dirs : ∀ cam ∈ cfg.camera, t.isDir (cameraHome cfg cam) = true

/-- The homes of two cameras are apart. -/
def HomesApart (t : FileTree) (home home' : OsStr) : Prop :=
  ∀ B B', t.locate true home = .ok B → t.locate true home' = .ok B' → Apart t B B'

theorem HomesApart.symm {t : FileTree} {home home' : OsStr} (h : HomesApart t home home') :
    HomesApart t home' home := fun B B' hB hB' => (h B' B hB' hB).symm

/-- The request is one of a viewer, or of a camera of the config. -/
def OfConfig (cfg : Config) (e : Nat × Request age) : Prop :=
  ∀ home, e.2.user.role = .uploader home → ∃ cam ∈ cfg.camera, home = cameraHome cfg cam

/-- **Cameras do not interfere.**  In every run of requests of viewers and of the cameras of a
config whose homes are there without links, a camera whose home is apart from all others is
answered what it is answered in the run with its own requests alone. -/
theorem cameras_do_not_interfere (backend : ReoBackend age) {cfg : Config} {t : FileTree}
    {cam : CameraCfg} (hthere : PlainHomes cfg t) (hcam : cam ∈ cfg.camera)
    (hapart : ∀ other ∈ cfg.camera, other.name ≠ cam.name →
      HomesApart t (cameraHome cfg cam) (cameraHome cfg other))
    (events : List (Nat × Request age)) (hevents : ∀ e ∈ events, OfConfig cfg e) :
    List.Forall₂ Reply.Same
      (seen (timedStep backend) (timedReply backend) (MadeBy (cameraHome cfg cam)) t events)
      (seen (timedStep backend) (timedReply backend) (MadeBy (cameraHome cfg cam)) t
        (purge (MadeBy (cameraHome cfg cam)) events)) := by
  -- the homes of the cameras with another name are apart from this one
  let others : Set OsStr :=
    {h | ∃ other ∈ cfg.camera, other.name ≠ cam.name ∧ h = cameraHome cfg other}
  have hat : ∀ c ∈ cfg.camera, ∃ C, HomeAt t (cameraHome cfg c) C ∧ t.entry C = some .dir := by
    intro c hc
    obtain ⟨C, hC, hdir⟩ := isDir_iff.mp (hthere.dirs c hc)
    exact ⟨C, ⟨hC, by simp [hdir], hthere.free c hc⟩, hdir⟩
  obtain ⟨B, hB, hdir⟩ := hat cam hcam
  have hstart : AloneAlike (cameraHome cfg cam) others B t t := by
    refine ⟨fun now => ?_, hB, hdir, ?_⟩
    · exact hB.alike.atTime now
    · rintro home' ⟨other, hother, hne, rfl⟩
      obtain ⟨B', hB', hdir'⟩ := hat other hother
      exact ⟨B', hB', hdir', hapart other hother hne B B' hB.leads hB'.leads⟩
  have hallowed : ∀ e ∈ events, Allowed (cameraHome cfg cam) others e := by
    intro e he home' hrole
    obtain ⟨c, hc, rfl⟩ := hevents e he home' hrole
    by_cases hname : c.name = cam.name
    · exact Or.inl (by rw [cameraHome, cameraHome, hname])
    · exact Or.inr ⟨c, hc, hname, rfl⟩
  exact ((unwinds_aloneAlike backend (cameraHome cfg cam) others B).noninterference hstart
    (along_of_forall_mem hallowed t)).1

/-! ## Two cameras -/

/-- A config with the cameras `c` and `d`, on the root directory. -/
def twoCameras : Config where
  server := ⟨(2122, 2132)⟩
  archive := ⟨[sep], 30⟩
  limits := ⟨8, none⟩
  camera := [⟨"c", none, "h1", none⟩, ⟨"d", none, "h2", none⟩]
  group := ∅
  viewer := []
  encryption := none

/-- The homes of the two cameras. -/
def twoHomes : FileTree := oneHome.mkdirAt [ofString "d"]

/-- The second camera. -/
def cameraD : ReoUser := ⟨"d", .uploader (ofString "/d"), false⟩

theorem vacant_twoHomes : oneHome.Vacant [ofString "d"] := by decide +kernel

theorem twoHomes_entry (L : Loc) :
    twoHomes.entry L = some .dir ∨ twoHomes.entry L = none := by
  by_cases hd : L = [ofString "d"]
  · exact hd ▸ Or.inl (entry_mkdirAt_self vacant_twoHomes)
  · rw [twoHomes, entry_mkdirAt_ne hd]
    by_cases hc : L = [ofString "c"]
    · exact hc ▸ Or.inl (by decide +kernel)
    · rw [oneHome, entry_mkdirAt_ne hc]
      by_cases hnil : L = []
      · exact hnil ▸ Or.inl FileTree.bare.root_dir
      · right
        rw [entry, bare, Disk.lookup_bind_ne _ hnil]
        rfl

theorem twoHomes_there : PlainHomes twoCameras twoHomes := by
  have hfree : ∀ p, twoHomes.LinkFree p := linkFree_of_no_links fun L target hL => by
    rcases twoHomes_entry L with h | h <;> rw [h] at hL <;> cases hL
  exact ⟨fun cam _ => hfree _, by decide +kernel⟩

/-- Its homes are apart. -/
theorem twoHomes_apart : HomesApart twoHomes (ofString "/c") (ofString "/d") := by
  intro B B' hB hB'
  obtain rfl : [ofString "c"] = B := Except.ok.inj ((by decide +kernel :
    twoHomes.locate true (ofString "/c") = .ok [ofString "c"]).symm.trans hB)
  obtain rfl : [ofString "d"] = B' := Except.ok.inj ((by decide +kernel :
    twoHomes.locate true (ofString "/d") = .ok [ofString "d"]).symm.trans hB')
  refine ⟨by decide, by decide, fun m m' i hi => ?_⟩
  rcases twoHomes_entry ([ofString "c"] ++ m) with h | h <;> rw [h] at hi <;> cases hi

/-- The first camera stores a clip and looks at what it has, while the second does the same. -/
theorem two_cameras_apart :
    let events : List (Nat × Request shiftAge) :=
      [(1, putC "x" 0 [1]), (2, ⟨cameraD, .put (ofString "x") 0 [.ok [2]] (7 : UInt8) .never⟩),
        (3, ⟨cameraD, .mkd (ofString "z") fun _ _ => none⟩), (4, ⟨cameraC, .list [sep]⟩)]
    List.Forall₂ Reply.Same
      (seen (timedStep .plain) (timedReply .plain) (MadeBy (ofString "/c")) twoHomes events)
      (seen (timedStep .plain) (timedReply .plain) (MadeBy (ofString "/c")) twoHomes
        [(1, putC "x" 0 [1]), (4, ⟨cameraC, .list [sep]⟩)]) := by
  have hcam : (⟨"c", none, "h1", none⟩ : CameraCfg) ∈ twoCameras.camera := List.mem_cons_self ..
  refine cameras_do_not_interfere .plain twoHomes_there hcam ?_ _ ?_
  · intro other hother hne
    obtain rfl : other = ⟨"d", none, "h2", none⟩ := by
      simp only [twoCameras, List.mem_cons, List.not_mem_nil, or_false] at hother
      rcases hother with rfl | rfl
      · exact absurd rfl hne
      · rfl
    exact twoHomes_apart
  · intro e he home hrole
    simp only [List.mem_cons, List.not_mem_nil, or_false] at he
    rcases he with rfl | rfl | rfl | rfl
    all_goals cases hrole
    · exact ⟨_, List.mem_cons_self .., rfl⟩
    · exact ⟨_, List.mem_cons_of_mem _ (List.mem_cons_self ..), rfl⟩
    · exact ⟨_, List.mem_cons_of_mem _ (List.mem_cons_self ..), rfl⟩
    · exact ⟨_, List.mem_cons_self .., rfl⟩

end Reoftpd

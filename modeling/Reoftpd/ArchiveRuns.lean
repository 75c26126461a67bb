import Reoftpd.Acknowledged
import Reoftpd.HomesKept
import Reoftpd.WriteOnce

/-!
# The archive is write-once

The archive over any run of requests and sweeps, with or without encryption.  What it holds
are the clips: the files under names that are neither a staging file's nor a probe's
(`clips`).  **Seen so, it is a write-once archive** (`archive_refines`): only an acknowledged
upload stores a clip, only a sweep that finds it older than its limit takes it away, and
nothing changes it.

So a run accounts for every clip, from the upload that stored it to the sweep that took it
away (`run_accounts_for_clips`), and an acknowledged upload can be read, byte for byte, in
every state of a run whose sweeps are all within its retention period
(`acknowledged_upload_kept`).

Two things are asked of a run: no link lies in the archive, and no file there has two
names.  Requests and sweeps keep both, as long as a staging name that is to be removed is
removed.
-/
namespace Reoftpd
open UnixPath FileTree Runs WriteOnce

variable {age : Age}

/-! ## What the archive holds -/

/-- **The clips of a tree.** -/
def clips (t : FileTree) (L : Loc) : Option Clip :=
  if ClipNamed L then
    match t.entry L with
    | some (.file i) => some ⟨t.disk.data i, t.disk.modified i⟩
    | _ => none
  else none

/-- No file has two names. -/
def Unshared (t : FileTree) : Prop :=
  ∀ L L' i, t.entry L = some (.file i) → t.entry L' = some (.file i) → L = L'

/-- What a run is asked to keep: no link lies in the archive, and no file has two names. -/
structure Sound (cfg : Config) (t : FileTree) : Prop where
  free : LinkFreeArchive cfg t
  unshared : Unshared t

/-- A request is one of a viewer or of a camera of the config, and removes the staging name
it is to remove; a sweep is any. -/
def ArchiveEvent.Proper (cfg : Config) : ArchiveEvent age → Prop
  | .request _ req => req.Removes ∧ ∀ home, req.user.role = .uploader home →
      ∃ cam ∈ cfg.camera, home = cameraHome cfg cam
  | .sweep _ _ => True

/-- **What an event may do to the clips**: an acknowledged upload stores one, and a sweep
takes away what is older than its limit. -/
def eventLabel (backend : ReoBackend age) (cfg : Config) (t : FileTree) :
    ArchiveEvent age → Label Loc Clip
  | .request now req => ⟨StoredBy backend (t.atTime now) req, fun _ _ => False⟩
  | .sweep args _ => ⟨fun _ _ => False, fun L c => ∃ R m, L = R ++ m ∧ m ≠ [] ∧
      t.locate true cfg.archive.root = .ok R ∧
        limit args cfg.archive.root m < args.now - c.modified⟩

section Clips
variable {t s : FileTree} {L O F : Loc} {c : Clip} {i : Nat}

theorem clips_eq_some : clips t L = some c ↔
    ClipNamed L ∧ ∃ i, t.entry L = some (.file i) ∧ c = ⟨t.disk.data i, t.disk.modified i⟩ := by
  unfold clips
  split
  · rename_i hL
    split
    · rename_i i hi
      simp [hL, hi, eq_comm]
    · rename_i hno
      simp only [reduceCtorEq, hL, true_and, false_iff, not_exists, not_and]
      exact fun i hi _ => hno i hi
  · rename_i hL
    simp [hL]

/-- A clip is read by the text of its place. -/
theorem readFile_of_clips (h : clips t L = some c) : t.readFile (locText L) = .ok c.bytes := by
  obtain ⟨-, i, hi, rfl⟩ := clips_eq_some.mp h
  have hlocate : t.locate true (locText L) = .ok L := by
    refine locate_locText (by simp [hi]) fun target hlink => ?_
    rw [hi] at hlink
    cases hlink
  simp [readFile, find_ok.mpr ⟨hlocate, hi⟩]

/-! ## Requests -/

/-- **A file does not get a second name**, if what was opened is not bound to what was
there under two names. -/
theorem Unshared.effect (h : Unshared t) (he : Effect [] O F t s)
    (hsingle : ∀ i, s.entry O = some (.file i) → s.entry F = some (.file i) →
      O = F ∨ t.entry O = some (.file i) ∧ t.entry F = some (.file i)) : Unshared s := by
  -- a name of a file is one of the two, or was a name of it before
  have hname : ∀ L i, s.entry L = some (.file i) → L = O ∨ L = F ∨ t.entry L = some (.file i) := by
    intro L i hi
    by_cases hO : L = O
    · exact Or.inl hO
    · by_cases hF : L = F
      · exact Or.inr (Or.inl hF)
      · rcases he.entry L hO hF with heq | ⟨-, hdir, -⟩
        · exact Or.inr (Or.inr (heq ▸ hi))
        · rw [hdir] at hi
          cases hi
  -- what was there under another name is not what was opened or bound
  have hopened : ∀ L i, s.entry O = some (.file i) → t.entry L = some (.file i) → L = O := by
    intro L i hi hL
    rcases he.opened i hi with hO | hfresh
    · exact h L O i hL hO
    · exact absurd (lt_fresh hL) (Nat.not_lt.mpr hfresh)
  have hbound : ∀ L i, s.entry F = some (.file i) → t.entry L = some (.file i) →
      L = F ∨ L = O := by
    intro L i hi hL
    rcases he.bound i hi with hF | hO | hfresh
    · exact Or.inl (h L F i hL hF)
    · exact Or.inr (h L O i hL hO)
    · exact absurd (lt_fresh hL) (Nat.not_lt.mpr hfresh)
  have hboth : ∀ i, s.entry O = some (.file i) → s.entry F = some (.file i) → O = F := by
    intro i hO hF
    rcases hsingle i hO hF with heq | ⟨hO', hF'⟩
    · exact heq
    · exact h O F i hO' hF'
  intro L L' i hi hi'
  rcases hname L i hi with rfl | rfl | hL
  · rcases hname L' i hi' with rfl | rfl | hL'
    · rfl
    · exact hboth i hi hi'
    · exact (hopened L' i hi hL').symm
  · rcases hname L' i hi' with rfl | rfl | hL'
    · exact (hboth i hi' hi).symm
    · rfl
    · rcases hbound L' i hi hL' with rfl | rfl
      · rfl
      · exact (hboth i hi' hi).symm
  · rcases hname L' i hi' with rfl | rfl | hL'
    · exact hopened L i hi' hL
    · rcases hbound L i hi' hL with rfl | rfl
      · rfl
      · exact hboth i hi hi'
    · exact h L L' i hL hL'

/-- **A request** stores a clip only with an acknowledged upload, and changes none. -/
theorem RequestLeaves.step {backend : ReoBackend age} {req : Request age}
    (h : RequestLeaves backend t req O F) (hunshared : Unshared t) (expires : Loc → Clip → Prop) :
    Step ⟨StoredBy backend t req, expires⟩ (clips t) (clips (afterRequest backend t req)) where
  kept L c hc := by
    obtain ⟨hL, i, hi, rfl⟩ := clips_eq_some.mp hc
    have hLO : L ≠ O := fun hLO => h.opens (hLO ▸ hL)
    have hentry : (afterRequest backend t req).entry L = some (.file i) := by
      by_cases hLF : L = F
      · subst hLF
        rw [h.effect.final hLO (by simp [hi]), hi]
      · rcases h.effect.entry L hLO hLF with heq | ⟨hnone, -⟩
        · rw [heq, hi]
        · rw [hnone] at hi
          cases hi
    obtain ⟨hdata, hmodified⟩ := h.effect.contents i (lt_fresh hi)
      fun hO => hLO (hunshared L O i hi hO)
    exact Or.inl (clips_eq_some.mpr ⟨hL, i, hentry, by rw [hdata, hmodified]⟩)
  new L c hfree hc := by
    obtain ⟨hL, i, hi, rfl⟩ := clips_eq_some.mp hc
    have hno : ∀ j, t.entry L ≠ some (.file j) := by
      intro j hj
      rw [clips_eq_some.mpr ⟨hL, j, hj, rfl⟩] at hfree
      cases hfree
    have hLF : L = F := by
      by_contra hLF
      rcases h.effect.entry L (fun hLO => h.opens (hLO ▸ hL)) hLF with heq | ⟨-, hdir, -⟩
      · exact hno i (heq ▸ hi)
      · rw [hdir] at hi
        cases hi
    subst hLF
    exact h.stored i hi (hno i) hL

/-! ## Sweeps -/

variable {args : SweepArgs} {fault : SweepFault} {cfg : Config}

/-- **A sweep** takes a clip away only if it is older than its limit, and changes none. -/
theorem step_sweep (stores : Loc → Clip → Prop) :
    Step ⟨stores, fun L c => ∃ R m, L = R ++ m ∧ m ≠ [] ∧ t.locate true cfg.archive.root = .ok R ∧
        limit args cfg.archive.root m < args.now - c.modified⟩
      (clips t) (clips (sweep args fault cfg.archive.root t).1) := by
  by_cases hplace : ∃ R, t.locate true cfg.archive.root = .ok R ∧ t.entry R = some .dir
  · obtain ⟨R, hleads, hdir⟩ := hplace
    have hspared : Spared args t cfg.archive.root R (sweep args fault cfg.archive.root t).1 :=
      sweep_spared hleads hdir
    refine ⟨fun L c hc => ?_, fun L c hfree hc => ?_⟩
    · obtain ⟨hL, i, hi, rfl⟩ := clips_eq_some.mp hc
      rcases hspared.entry_or L with heq | ⟨hnone, ⟨m, rfl⟩, hne⟩
      · refine Or.inl (clips_eq_some.mpr ⟨hL, i, heq.trans hi, ?_⟩)
        rw [hspared.data, hspared.modified]
      · refine Or.inr ⟨by simp [clips, hnone], R, m, rfl, by simpa using hne, hleads, ?_⟩
        by_contra hyoung
        have hkept : Kept args t cfg.archive.root R m :=
          ⟨[], i, by simpa using hi, by simpa using hyoung⟩
        rw [hspared.keeps m hkept, hi] at hnone
        cases hnone
    · obtain ⟨hL, i, hi, rfl⟩ := clips_eq_some.mp hc
      rcases hspared.entry_or L with heq | ⟨hnone, -⟩
      · rw [clips_eq_some.mpr ⟨hL, i, heq ▸ hi, rfl⟩] at hfree
        cases hfree
      · rw [hnone] at hi
        cases hi
  · rw [sweep_lost fun R hR hdir => hplace ⟨R, hR, hdir⟩]
    exact .refl _ _

/-- A sweep of an archive without links takes no link away. -/
theorem Sound.sameLinks_sweep (h : Sound cfg t) :
    SameLinks t (Reoftpd.sweep args fault cfg.archive.root t).1 := by
  by_cases hplace : ∃ R, t.locate true cfg.archive.root = .ok R ∧ t.entry R = some .dir
  · obtain ⟨R, hleads, hdir⟩ := hplace
    have hspared :
        Spared args t cfg.archive.root R (Reoftpd.sweep args fault cfg.archive.root t).1 :=
      sweep_spared hleads hdir
    have hp : SweepPlace t cfg.archive.root R :=
      ⟨hleads, hdir, fun m => h.free.root.entry_ne hleads (List.prefix_append R m)⟩
    exact (hspared.grows hp).toSameLinks.symm
  · rw [sweep_lost fun R hR hdir => hplace ⟨R, hR, hdir⟩]
    exact .refl t

/-- A sweep gives no file a name. -/
theorem Unshared.sweep (h : Unshared t) {root : OsStr} :
    Unshared (Reoftpd.sweep args fault root t).1 := by
  by_cases hplace : ∃ R, t.locate true root = .ok R ∧ t.entry R = some .dir
  · obtain ⟨R, hleads, hdir⟩ := hplace
    have hspared : Spared args t root R (Reoftpd.sweep args fault root t).1 :=
      sweep_spared hleads hdir
    have hfile : ∀ L i, (Reoftpd.sweep args fault root t).1.entry L = some (.file i) →
        t.entry L = some (.file i) := by
      intro L i hi
      rcases hspared.entry_or L with heq | ⟨hnone, -⟩
      · exact heq ▸ hi
      · rw [hnone] at hi
        cases hi
    exact fun L L' i hi hi' => h L L' i (hfile L i hi) (hfile L' i hi')
  · rw [sweep_lost fun R hR hdir => hplace ⟨R, hR, hdir⟩]
    exact h

end Clips

/-! ## Runs -/

/-- A user of the config has no links in its home. -/
theorem Sound.jailFree {cfg : Config} {t : FileTree} {user : ReoUser} (h : Sound cfg t)
    (huser : ∀ home, user.role = .uploader home → ∃ cam ∈ cfg.camera, home = cameraHome cfg cam) :
    JailFree t user := by
  intro home hrole
  obtain ⟨cam, hcam, rfl⟩ := huser home hrole
  exact h.free.homes cam hcam

theorem sameLinks_atTime (t : FileTree) (now : Nat) : SameLinks t (t.atTime now) :=
  ⟨rfl, fun _ _ => Iff.rfl⟩

theorem Sound.atTime {cfg : Config} {t : FileTree} (h : Sound cfg t) (now : Nat) :
    Sound cfg (t.atTime now) :=
  ⟨h.free.of_sameLinks (sameLinks_atTime t now), h.unshared⟩

/-- **One event** keeps what is asked of a run, and every link. -/
theorem Sound.step (backend : ReoBackend age) {cfg : Config} {t : FileTree}
    {e : ArchiveEvent age} (h : Sound cfg t) (hproper : e.Proper cfg) :
    Sound cfg (archiveStep backend cfg t e) ∧ SameLinks t (archiveStep backend cfg t e) := by
  cases e with
  | request now req =>
      have hfree : JailFree (t.atTime now) req.user := (h.atTime now).jailFree hproper.2
      obtain ⟨O, F, hleaves⟩ := request_leaves backend hfree
      have hlinks : SameLinks t (afterRequest backend (t.atTime now) req) :=
        (sameLinks_atTime t now).trans hleaves.effect.toSameLinks
      exact ⟨⟨h.free.of_sameLinks hlinks,
        (h.atTime now).unshared.effect hleaves.effect (hleaves.single hproper.1)⟩, hlinks⟩
  | sweep args fault =>
      exact ⟨⟨h.free.of_sameLinks h.sameLinks_sweep, h.unshared.sweep⟩, h.sameLinks_sweep⟩

/-- **A run** keeps what is asked of it, and every link. -/
theorem Sound.run (backend : ReoBackend age) {cfg : Config} {t : FileTree}
    {events : List (ArchiveEvent age)} (h : Sound cfg t) (hproper : ∀ e ∈ events, e.Proper cfg) :
    Sound cfg (run (archiveStep backend cfg) t events) ∧
      SameLinks t (run (archiveStep backend cfg) t events) := by
  have hstep : ∀ (s : FileTree) (e : ArchiveEvent age), Sound cfg s ∧ SameLinks t s →
      e.Proper cfg → Sound cfg (archiveStep backend cfg s e) ∧
        SameLinks t (archiveStep backend cfg s e) := by
    rintro s e ⟨hs, hlinks⟩ hproper
    obtain ⟨hsound, hstep⟩ := hs.step backend hproper
    exact ⟨hsound, hlinks.trans hstep⟩
  exact invariant_run hstep ⟨h, .refl t⟩ (along_of_forall_mem hproper t)

/-- **The archive is write-once.**  Seen as its clips, over any requests of viewers and of
the cameras of a config and any sweeps of its archive, at any times and whatever fails but
the removal of a staging name: an acknowledged upload stores a clip under a free name, a
sweep takes away what is older than its limit, and nothing else changes. -/
theorem archive_refines (backend : ReoBackend age) (cfg : Config) :
    Refines (archiveStep backend cfg) clips (eventLabel backend cfg) (Sound cfg)
      (fun _ e => e.Proper cfg) where
  keeps t e h hproper := (h.step backend hproper).1
  steps t e h hproper := by
    cases e with
    | request now req =>
        obtain ⟨O, F, hleaves⟩ :=
          request_leaves backend ((h.atTime now).jailFree hproper.2)
        exact hleaves.step (h.atTime now).unshared _
    | sweep args fault => exact step_sweep _

/-- **A run neither loses nor invents a clip.**  A clip that is not there any more, as it
was, was there unchanged until a sweep found it older than its limit; and a clip that is
there was there all along, or was stored under a free name by an acknowledged upload and is
there unchanged since. -/
theorem run_accounts_for_clips (backend : ReoBackend age) {cfg : Config} {t : FileTree}
    (hsound : Sound cfg t) (events : List (ArchiveEvent age))
    (hproper : ∀ e ∈ events, e.Proper cfg) (L : Loc) (c : Clip) :
    (clips t L = some c → clips (run (archiveStep backend cfg) t events) L ≠ some c →
      ∃ pre args fault post, events = pre ++ .sweep args fault :: post ∧
        Throughout (archiveStep backend cfg) (fun s => clips s L = some c) t pre ∧
        ∃ R m, L = R ++ m ∧ m ≠ [] ∧
          (run (archiveStep backend cfg) t pre).locate true cfg.archive.root = .ok R ∧
          limit args cfg.archive.root m < args.now - c.modified) ∧
    (clips (run (archiveStep backend cfg) t events) L = some c →
      Throughout (archiveStep backend cfg) (fun s => clips s L = some c) t events ∨
        ∃ pre now req post, events = pre ++ .request now req :: post ∧
          clips (run (archiveStep backend cfg) t pre) L = none ∧
          StoredBy backend ((run (archiveStep backend cfg) t pre).atTime now) req L c ∧
          Throughout (archiveStep backend cfg) (fun s => clips s L = some c)
            (run (archiveStep backend cfg) t (pre ++ [.request now req])) post) := by
  have hrefines := archive_refines backend cfg
  have hguard : Along (archiveStep backend cfg) (fun _ e => e.Proper cfg) t events :=
    along_of_forall_mem hproper t
  refine ⟨fun hc hlost => ?_, fun hc => ?_⟩
  · obtain ⟨pre, e, post, rfl, hthrough, hexpires⟩ :=
      hrefines.expired_of_lost hsound hguard hc hlost
    cases e with
    | request now req => exact hexpires.elim
    | sweep args fault => exact ⟨pre, args, fault, post, rfl, hthrough, hexpires⟩
  · rcases hrefines.stored_of_found hsound hguard hc with
      hthrough | ⟨pre, e, post, rfl, hfree, hstores, hthrough⟩
    · exact Or.inl hthrough
    · cases e with
      | request now req => exact Or.inr ⟨pre, now, req, post, rfl, hfree, hstores, hthrough⟩
      | sweep args fault => exact hstores.elim

/-! ## An acknowledged upload -/

section Kept
variable {backend : ReoBackend age} {cfg : Config} {t : FileTree} {user : ReoUser}
  {path resolved name : OsStr} {startPos n now : Nat} {input : Input} {seed : age.Seed}
  {faults : PutFaults} {L : Loc}

/-- **An acknowledged upload** is among the clips, as what was sent. -/
theorem clips_acknowledged (hfree : JailFree t user) (hname : fileName path = some name)
    (hprobe : isReolinkTestFile (toStringLossy name) = false)
    (hres : (userView user).resolve t path = .ok resolved)
    (hok : (serve backend t ⟨user, .put path startPos input seed faults⟩).2 = .put (.ok n))
    (hfinal : finalPath backend resolved = locText L) (hnames : ∀ a ∈ L, IsName a)
    (hL : ClipNamed L) :
    ∃ c, clips (afterRequest backend t ⟨user, .put path startPos input seed faults⟩) L = some c ∧
      c.bytes = storedBytes backend t resolved seed input ∧
        (n ≠ 0 → c.modified = t.disk.clock) := by
  have hcase : PutCase backend faults seed user path startPos input t
      (backend.put faults seed user path startPos input t) := put_case
  generalize hput : backend.put faults seed user path startPos input t = r at hcase
  have hserve : serve backend t ⟨user, .put path startPos input seed faults⟩ = (r.1, .put r.2) := by
    rw [← hput]
    rfl
  rw [afterRequest, hserve]
  rw [hserve] at hok
  have hn : r.2 = .ok n := Reply.put.inj hok
  cases hcase with
  | refused e => cases hn
  | probe home name' hrole hname' hprobe' =>
      obtain rfl := Option.some.inj (hname.symm.trans hname')
      rw [hprobe] at hprobe'
      cases hprobe'
  | store home name' resolved' hrole hname' hprobe' hres' =>
      rw [userView_uploader hrole, hres'] at hres
      obtain rfl := Except.ok.inj hres
      obtain ⟨S, F, h⟩ :=
        putStore_put_leaves backend faults seed startPos input (hfree home hrole) hname' hres'
      obtain ⟨bs, -, rfl, hstored⟩ := h.stored n hn
      obtain ⟨i, hi, hdata, hmodified⟩ := hstored.stored
      obtain rfl : F = L := locText_injective h.names hnames (h.final.symm.trans hfinal)
      exact ⟨_, clips_eq_some.mpr ⟨hL, i, hi, rfl⟩, hdata, fun hne => hmodified (by
        rintro h
        simp [h] at hne)⟩

/-- Where a file directly in a directory that is not named `.quarantine` and without the
name of a staging file may lie, its limit is the retention period. -/
theorem limit_of_clipNamed {args : SweepArgs} {root : OsStr} {R m : Loc}
    (hroot : fileName root ≠ some quarantineDir) (hR : t.locate true root = .ok R) (hm : m ≠ [])
    (hq : (R ++ m).dropLast.getLast? ≠ some quarantineDir) (hL : ClipNamed (R ++ m)) :
    limit args root m = args.retention := by
  refine limit_retention hR hm (fun hin => ?_) hL.1
  rcases hin with hin | ⟨-, hin⟩
  · exact hq hin
  · exact hroot hin

/-- **The clip of an acknowledged upload** is there in every state of a run, as long as no
sweep comes that is later than the upload by more than the retention period. -/
theorem throughout_acknowledged (backend : ReoBackend age) (hsound : Sound cfg t)
    {post : List (ArchiveEvent age)}
    (hput : (ArchiveEvent.request now ⟨user, .put path startPos input seed faults⟩).Proper cfg)
    (hpost : ∀ e ∈ post, e.Proper cfg) (hname : fileName path = some name)
    (hprobe : isReolinkTestFile (toStringLossy name) = false)
    (hres : (userView user).resolve (t.atTime now) path = .ok resolved)
    (hok : (serve backend (t.atTime now) ⟨user, .put path startPos input seed faults⟩).2 =
      .put (.ok n))
    (hbytes : n ≠ 0) (hfinal : finalPath backend resolved = locText L)
    (hnames : ∀ a ∈ L, IsName a) (hclip : ClipNamed L)
    (hroot : fileName cfg.archive.root ≠ some quarantineDir)
    (hquarantine : L.dropLast.getLast? ≠ some quarantineDir)
    (hsweeps : ∀ args fault, .sweep args fault ∈ post → args.now ≤ now + args.retention) :
    ∃ c, c.bytes = storedBytes backend (t.atTime now) resolved seed input ∧
      Throughout (archiveStep backend cfg) (fun s => clips s L = some c)
        (archiveStep backend cfg t (.request now ⟨user, .put path startPos input seed faults⟩))
        post := by
  have hrefines := archive_refines backend cfg
  have hafter := (Sound.step backend hsound hput).1
  obtain ⟨c, hc, hcontent, htime⟩ := clips_acknowledged ((hsound.atTime now).jailFree hput.2)
    hname hprobe hres hok hfinal hnames hclip
  have hmodified : c.modified = now := htime hbytes
  refine ⟨c, hcontent, hrefines.throughout hafter (along_of_forall_mem hpost _) hc ?_⟩
  -- no sweep of the run lets the clip expire
  by_contra hviolated
  obtain ⟨pre, e, rest, rfl, -, hexpires⟩ := exists_first_violation hviolated
  rw [not_not] at hexpires
  cases e with
  | request now' req => exact hexpires
  | sweep args fault =>
      obtain ⟨R, m, rfl, hm, hR, hold⟩ := hexpires
      rw [limit_of_clipNamed hroot hR hm hquarantine hclip, hmodified] at hold
      have hnow := hsweeps args fault (by simp)
      omega

/-- **An acknowledged upload is kept for its retention period.**  Over every run of requests
and sweeps, once an upload of at least one byte is acknowledged, what was sent is read at its
final path in every state, as long as no sweep comes that is later than the upload by more
than the retention period. -/
theorem acknowledged_upload_kept (backend : ReoBackend age) (hsound : Sound cfg t)
    (pre post : List (ArchiveEvent age))
    (hproper : ∀ e ∈ pre ++ .request now ⟨user, .put path startPos input seed faults⟩ :: post,
      e.Proper cfg)
    (hname : fileName path = some name)
    (hprobe : isReolinkTestFile (toStringLossy name) = false)
    (hres : (userView user).resolve ((run (archiveStep backend cfg) t pre).atTime now) path =
      .ok resolved)
    (hok : (serve backend ((run (archiveStep backend cfg) t pre).atTime now)
      ⟨user, .put path startPos input seed faults⟩).2 = .put (.ok n))
    (hbytes : n ≠ 0) (hfinal : finalPath backend resolved = locText L)
    (hnames : ∀ a ∈ L, IsName a) (hclip : ClipNamed L)
    (hroot : fileName cfg.archive.root ≠ some quarantineDir)
    (hquarantine : L.dropLast.getLast? ≠ some quarantineDir)
    (hsweeps : ∀ args fault, .sweep args fault ∈ post → args.now ≤ now + args.retention) :
    Throughout (archiveStep backend cfg)
      (fun s => s.readFile (finalPath backend resolved) =
        .ok (storedBytes backend ((run (archiveStep backend cfg) t pre).atTime now) resolved seed
          input))
      (archiveStep backend cfg (run (archiveStep backend cfg) t pre)
        (.request now ⟨user, .put path startPos input seed faults⟩)) post := by
  have hpre : ∀ e ∈ pre, e.Proper cfg := fun e he => hproper e (List.mem_append_left _ he)
  have hrest := fun e he => hproper e (List.mem_append_right pre he)
  obtain ⟨hput, hpost⟩ := List.forall_mem_cons.mp hrest
  obtain ⟨c, hcontent, hthrough⟩ := throughout_acknowledged backend
    (Sound.run backend hsound hpre).1 hput hpost hname hprobe hres hok hbytes hfinal hnames
    hclip hroot hquarantine hsweeps
  refine hthrough.mono fun s hs => ?_
  rw [hfinal, readFile_of_clips hs, hcontent]

end Kept

/-! ## A clip in a yard -/

/-- A tree of nothing but directories can start a run. -/
theorem sound_of_dirs {cfg : Config} {t : FileTree}
    (h : ∀ e ∈ t.disk.entries.entries, e.2.isDir = true) : Sound cfg t := by
  have hdir : ∀ L e, t.entry L = some e → e.isDir = true := fun L e he =>
    h ⟨L, e⟩ (AList.mem_lookup_iff.mp he)
  have hfree : ∀ p, t.LinkFree p := linkFree_of_no_links fun L target hL => by
    cases hdir L _ hL
  refine ⟨⟨hfree _, fun cam _ => hfree _⟩, fun L L' i hi => ?_⟩
  cases hdir L _ hi

theorem sound_freshYard : Sound yardConfig freshYard := sound_of_dirs (by decide +kernel)

theorem yardPut_proper : (ArchiveEvent.request 45 yardPut).Proper yardConfig := by
  refine ⟨?_, ?_⟩
  · rintro _ _ _ _ _ ⟨⟩
    exact ⟨rfl, rfl⟩
  · rintro _ ⟨⟩
    exact ⟨_, List.mem_cons_self .., by decide⟩

/-- The clip of the yard, in its place. -/
def yardClip : Loc := [ofString "srv", ofString "yard", ofString "x"]

/-- The clip that is in the yard after a request and a sweep was stored by an acknowledged
upload. -/
theorem yard_clip_accounted :
    let events : List (ArchiveEvent shiftAge) :=
      [.request 45 yardPut, .sweep sweepAt50 noSweepFault]
    ∃ pre now req post, events = pre ++ .request now req :: post ∧
      clips (run (archiveStep .plain yardConfig) freshYard pre) yardClip = none ∧
      StoredBy .plain ((run (archiveStep .plain yardConfig) freshYard pre).atTime now) req
        yardClip ⟨[1], 45⟩ ∧
      Throughout (archiveStep .plain yardConfig) (fun s => clips s yardClip = some ⟨[1], 45⟩)
        (run (archiveStep .plain yardConfig) freshYard (pre ++ [.request now req])) post := by
  intro events
  have hfree : clips freshYard yardClip = none := by decide +kernel
  have hfound : clips (run (archiveStep .plain yardConfig) freshYard events) yardClip =
      some ⟨[1], 45⟩ := by decide +kernel
  have hproper : ∀ e ∈ events, e.Proper yardConfig :=
    List.forall_mem_cons.mpr ⟨yardPut_proper, by simp [ArchiveEvent.Proper]⟩
  rcases (run_accounts_for_clips .plain sound_freshYard events hproper yardClip
    ⟨[1], 45⟩).2 hfound with hthrough | hstored
  · rw [show clips freshYard yardClip = some _ from hthrough [] (List.nil_prefix)] at hfree
    cases hfree
  · exact hstored

/-- The clip of the yard is read after another request and a sweep. -/
theorem yard_upload_kept :
    Throughout (archiveStep (.plain : ReoBackend shiftAge) yardConfig)
      (fun s => s.readFile (ofString "/srv/yard/x") = .ok [1])
      (archiveStep (.plain : ReoBackend shiftAge) yardConfig freshYard (.request 45 yardPut))
      [.request 46 yardPut, .sweep sweepAt50 noSweepFault] := by
  have hput := yardPut_proper
  have hname : fileName (ofString "x") = some (ofString "x") := by decide
  have hres : (userView yardPut.user).resolve (freshYard.atTime 45) (ofString "x") =
      .ok (ofString "/srv/yard/x") := by decide +kernel
  have hok : (serve (.plain : ReoBackend shiftAge) (freshYard.atTime 45) yardPut).2 =
      .put (.ok 1) := by decide +kernel
  have hfinal : finalPath (.plain : ReoBackend shiftAge) (ofString "/srv/yard/x") =
      locText yardClip := by decide
  have hstored : storedBytes (.plain : ReoBackend shiftAge) (freshYard.atTime 45)
      (ofString "/srv/yard/x") (7 : UInt8) [.ok [1]] = [1] := by decide +kernel
  have hkept := acknowledged_upload_kept (.plain : ReoBackend shiftAge) sound_freshYard []
    [.request 46 yardPut, .sweep sweepAt50 noSweepFault]
    (List.forall_mem_cons.mpr ⟨hput, by simpa [ArchiveEvent.Proper] using hput⟩)
    hname (by decide) hres hok (by decide) hfinal (by decide) (by decide) (by decide) (by decide)
    (by simp [sweepAt50])
  have hbytes : storedBytes (.plain : ReoBackend shiftAge)
      ((run (archiveStep (.plain : ReoBackend shiftAge) yardConfig) freshYard []).atTime 45)
      (ofString "/srv/yard/x") (7 : UInt8) [.ok [1]] = [1] := hstored
  rw [hbytes] at hkept
  exact hkept

end Reoftpd

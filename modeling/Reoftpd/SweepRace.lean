import Reoftpd.ArchiveRuns
import Reoftpd.SweepCalls

/-!
# Cleanups beside the server

The server answers requests while `reoftpd cleanup` goes through the archive, one call at a
time.  Between the call that finds a file old and the call that removes it, any number of
requests may be answered.

**No clip is lost to a cleanup before its time**, whatever falls between its calls
(`race_accounts_for_clips`): what it has found old stays as it was, since nobody changes a
clip or binds its name again while it is there.  This takes a single cleanup at a time.
With two, a clip that one has found old may be gone by the other and the name given to a
new one, which the first then removes (`two_cleanups_lose_a_clip`).
-/
namespace Reoftpd
open UnixPath FileTree Runs WriteOnce

variable {age : Age}

/-- The archive, and the cleanup that is under way or was the last one. -/
structure Cleaning where
  tree : FileTree
  args : SweepArgs
  sweeping : Sweeping

/-- What happens: a request, the start of a cleanup, its next call, which fails with `fault` if
there is one, or that the directory it is in changes under it, so that the names still to come
are others. -/
inductive CleanEvent (age : Age) where
  | request (now : Nat) (req : Request age)
  | cleanup (args : SweepArgs)
  | call (fault : Option Errno)
  | stream (names : List OsStr)

/-- The innermost directory delivers other names from here on. -/
def SweepPc.stream (names : List OsStr) : SweepPc → SweepPc
  | .call site path (frame :: above) => .call site path ({ frame with names } :: above)
  | pc => pc

/-- **One event.**  A cleanup starts when none is under way. -/
def cleanStep (backend : ReoBackend age) (cfg : Config) (c : Cleaning) :
    CleanEvent age → Cleaning
  | .request now req => { c with tree := afterRequest backend (c.tree.atTime now) req }
  | .cleanup args =>
      match c.sweeping.pc with
      | .done _ => { c with args, sweeping := .start cfg.archive.root }
      | .call .. => c
  | .call fault =>
      let r := sweepStep c.args c.tree c.sweeping fault
      { c with tree := r.1, sweeping := r.2 }
  | .stream names => { c with sweeping := c.sweeping.go (c.sweeping.pc.stream names) }

/-- A request is one of a viewer or of a camera of the config, and removes the staging name it
is to remove; a directory delivers file names. -/
def CleanEvent.Proper (cfg : Config) : CleanEvent age → Prop
  | .request now req => (ArchiveEvent.request now req).Proper cfg
  | .cleanup _ | .call _ => True
  | .stream names => ∀ a ∈ names, IsName a

/-- **What an event may do to the clips**: an acknowledged upload stores one, and a call of a
cleanup takes away what is older than its limit. -/
def cleanLabel (backend : ReoBackend age) (cfg : Config) (c : Cleaning) :
    CleanEvent age → Label Loc Clip
  | .request now req => ⟨StoredBy backend (c.tree.atTime now) req, fun _ _ => False⟩
  | .cleanup _ | .stream _ => ⟨fun _ _ => False, fun _ _ => False⟩
  | .call _ => ⟨fun _ _ => False, fun L clip => ∃ R m, L = R ++ m ∧ m ≠ [] ∧
      c.tree.aim cfg.archive.root = .ok R ∧
      limit c.args cfg.archive.root m < c.args.now - clip.modified⟩

/-! ## Where a cleanup is -/

/-- A directory a cleanup is in lies below the root, and so do the names to come. -/
def FrameBelow (root : OsStr) (frame : SweepFrame) : Prop :=
  frame.dir ≠ [] ∧ (∀ a ∈ frame.names, IsName a) ∧
    ∃ l : Loc, (∀ a ∈ l, IsName a) ∧ frame.dir = below root l

def FramesBelow (root : OsStr) (above : List SweepFrame) : Prop :=
  ∀ frame ∈ above, FrameBelow root frame

/-- The path of a call: that of a directory, or that of a name in the innermost one.  A call of
`next` needs none, it asks the innermost directory. -/
def PathBelow (root : OsStr) (above : List SweepFrame) (path : OsStr) : SweepSite → Prop
  | .readDir | .reread | .firstEntry | .removeDir =>
      ∃ l : Loc, (∀ a ∈ l, IsName a) ∧ path = below root l
  | .nextEntry | .noEntry => True
  | .fileType | .stat | .removeFile =>
      ∃ frame rest a, above = frame :: rest ∧ IsName a ∧ path = join frame.dir a

/-- **What a cleanup is about to remove** is an old clip as it was found, a directory, which it
fails to remove, or no clip. -/
def Decided (args : SweepArgs) (root : OsStr) (t : FileTree) (path : OsStr) : Prop :=
  ∀ R m, t.aim root = .ok R → m ≠ [] → (∀ a ∈ m, IsName a) → path = below root m →
    ClipNamed (R ++ m) →
      (∃ c, clips t (R ++ m) = some c ∧ limit args root m < args.now - c.modified) ∨
        t.entry (R ++ m) = some .dir

/-- Where a cleanup is. -/
def Underway (args : SweepArgs) (root : OsStr) (t : FileTree) : SweepPc → Prop
  | .done _ => True
  | .call site path above =>
      FramesBelow root above ∧ PathBelow root above path site ∧
        (site = .removeFile → Decided args root t path)

section Underway
variable {args : SweepArgs} {root path : OsStr} {t s : FileTree} {above : List SweepFrame}
  {frame : SweepFrame}

/-- Going on in the directories it is in, a cleanup has decided nothing. -/
theorem underway_next (h : FramesBelow root above) :
    Underway args root t (.next above) := by
  match above, h with
  | [], _ => trivial
  | ⟨dir, a :: rest⟩ :: above, h => exact ⟨h, trivial, fun hsite => by cases hsite⟩
  | ⟨dir, []⟩ :: above, h => exact ⟨h, trivial, fun hsite => by cases hsite⟩

theorem underway_entry (h : FramesBelow root above) :
    Underway args root t (.entry above) := by
  match above, h with
  | [], _ => trivial
  | ⟨dir, a :: rest⟩ :: above, h =>
      obtain ⟨⟨hne, hnames, hdir⟩, habove⟩ := List.forall_mem_cons.mp h
      obtain ⟨ha, hrest⟩ := List.forall_mem_cons.mp hnames
      exact ⟨List.forall_mem_cons.mpr ⟨⟨hne, hrest, hdir⟩, habove⟩,
        ⟨⟨dir, rest⟩, above, a, rfl, ha, rfl⟩, fun hsite => by cases hsite⟩
  | [⟨dir, []⟩], _ => trivial
  | ⟨dir, []⟩ :: frame :: above, h =>
      obtain ⟨⟨-, -, hdir⟩, habove⟩ := List.forall_mem_cons.mp h
      exact ⟨habove, hdir, fun hsite => by cases hsite⟩

/-- A directory that has been read. -/
theorem frameBelow_of_readDir {names : List OsStr}
    (hpath : ∃ l : Loc, (∀ a ∈ l, IsName a) ∧ path = below root l)
    (hread : t.readDir path = .ok names) : FrameBelow root ⟨path, names⟩ := by
  obtain ⟨A, hA, -, rfl⟩ := readDir_ok hread
  refine ⟨(locateSteps_ok hA).1, fun a ha => ?_, hpath⟩
  exact isName_of_entry (t.mem_children.mp ha) a (by simp)

/-- Other names in the innermost directory change nothing. -/
theorem underway_stream {names : List OsStr} {pc : SweepPc} (hnames : ∀ a ∈ names, IsName a)
    (h : Underway args root t pc) : Underway args root t (pc.stream names) := by
  match pc, h with
  | .done _, _ => trivial
  | .call site path [], h => exact h
  | .call site path (frame :: above), ⟨hframes, hpath, hdecided⟩ =>
      obtain ⟨⟨hne, -, hdir⟩, habove⟩ := List.forall_mem_cons.mp hframes
      refine ⟨List.forall_mem_cons.mpr ⟨⟨hne, hnames, hdir⟩, habove⟩, ?_, hdecided⟩
      cases site with
      | readDir | reread | firstEntry | removeDir => exact hpath
      | nextEntry | noEntry => trivial
      | fileType | stat | removeFile =>
          obtain ⟨frame', rest, a, heq, ha, hp⟩ := hpath
          obtain ⟨rfl, rfl⟩ := List.cons.inj heq
          exact ⟨_, _, a, rfl, ha, hp⟩

/-! ## What one call does -/

variable {cfg : Config} {L : Loc} {e : Entry OsStr} {report : SweepReport}

/-- Where a path below the root leads in an archive without links. -/
theorem Sound.locate_below (h : Sound cfg t) {l : Loc} (hl : ∀ a ∈ l, IsName a)
    (hL : t.locate true (below cfg.archive.root l) = .ok L) :
    ∃ R, t.aim cfg.archive.root = .ok R ∧ L = R ++ l :=
  aim_spelled h.free.root hl (spells_foldl _ hl) (aim_of_locate hL)

/-- A name that is no link's goes. -/
theorem Sound.eraseAt (h : Sound cfg t) (he : t.entry L = some e)
    (hlink : ∀ target, e ≠ .link target) :
    Sound cfg (t.eraseAt L) ∧ SameLinks t (t.eraseAt L) := by
  have hentry : ∀ M x, (t.eraseAt L).entry M = some x → t.entry M = some x := by
    intro M x hx
    by_cases hM : M = L
    · subst hM
      by_cases hc : t.Childless M
      · rw [entry_eraseAt_self hc] at hx
        cases hx
      · rwa [FileTree.eraseAt, dif_neg hc] at hx
    · rwa [entry_eraseAt_ne hM] at hx
  have hlinks : SameLinks t (t.eraseAt L) := by
    refine ⟨cwd_eraseAt, fun M target => ⟨hentry M _, fun hM => ?_⟩⟩
    rwa [entry_eraseAt_ne]
    rintro rfl
    exact hlink target (Option.some.inj (he.symm.trans hM))
  exact ⟨⟨h.free.of_sameLinks hlinks, fun M M' i hi hi' =>
    h.unshared M M' i (hentry M _ hi) (hentry M' _ hi')⟩, hlinks⟩

/-- The clips but for one name. -/
theorem clips_eraseAt {M : Loc} (hM : M ≠ L) : clips (t.eraseAt L) M = clips t M := by
  unfold clips
  rw [entry_eraseAt_ne hM, data_eraseAt,
    (sameContents_eraseAt : SameContents t (t.eraseAt L)).modified]

/-- **What is found old** is an old clip, a directory or no clip. -/
theorem decided_of_olderThan (h : Sound cfg t) (hframes : FramesBelow cfg.archive.root above)
    (hpath : PathBelow cfg.archive.root above path .stat) {fault : SweepFault}
    (hold : olderThan fault t path (fileTtl args (inQuarantine above) path) args.now = true) :
    Decided args cfg.archive.root t path := by
  intro R m hR hm hnames hp hclip
  obtain ⟨frame, rest, a, rfl, ha, rfl⟩ := hpath
  obtain ⟨-, -, l, hl, hdir⟩ := hframes frame (List.mem_cons_self ..)
  have hla : ∀ x ∈ l ++ [a], IsName x := by simpa [ha, or_imp, forall_and] using hl
  have hbelow : below cfg.archive.root (l ++ [a]) = below cfg.archive.root m := by
    rw [below_concat, ← hdir, hp]
  obtain rfl := below_injective hla hnames hbelow
  obtain ⟨L, e, hfind, hage⟩ := olderThan_ok hold
  obtain ⟨hL, he⟩ := find_ok.mp hfind
  rw [hp] at hL
  obtain ⟨R', hR', rfl⟩ := h.locate_below hla hL
  obtain rfl := Except.ok.inj (hR'.symm.trans hR)
  have httl : fileTtl args (inQuarantine (frame :: rest)) (join frame.dir a) =
      limit args cfg.archive.root (l ++ [a]) := by
    rw [inQuarantine, hdir, fileTtl_below args _ hla]
  rw [httl] at hage
  cases e with
  | dir => exact Or.inr he
  | link target => exact absurd he (h.free.root _ hR' _ (List.prefix_append ..) target)
  | file i => exact Or.inl ⟨_, clips_eq_some.mpr ⟨hclip, i, he, rfl⟩, hage⟩

/-- **What a cleanup removes** lies below the root, by the names of its path. -/
theorem removed_below (h : Sound cfg t) (hframes : FramesBelow cfg.archive.root above)
    (hpath : PathBelow cfg.archive.root above path .removeFile)
    (hrm : t.removeFile path = .ok s) :
    ∃ R m e, t.aim cfg.archive.root = .ok R ∧ m ≠ [] ∧ (∀ a ∈ m, IsName a) ∧
      path = below cfg.archive.root m ∧ t.entry (R ++ m) = some e ∧ e.isDir = false ∧
      s = t.eraseAt (R ++ m) := by
  obtain ⟨L, e, hL, he, hfile, rfl⟩ := removeFile_ok hrm
  obtain ⟨frame, rest, a, rfl, ha, rfl⟩ := hpath
  obtain ⟨hne, -, l, hl, hdir⟩ := hframes frame (List.mem_cons_self ..)
  obtain ⟨A, -, hA, -, -⟩ := locate_join_ok hne ha hL
  obtain rfl := locate_child hne hA ha (Or.inl rfl) hL
  rw [hdir] at hA
  obtain ⟨R, hR, rfl⟩ := h.locate_below hl hA
  refine ⟨R, l ++ [a], e, hR, by simp, by simpa [ha, or_imp, forall_and] using hl, ?_, ?_, hfile,
    by rw [List.append_assoc]⟩
  · rw [below_concat, hdir]
  · rw [← List.append_assoc]
    exact he

/-- What an event leaves of the archive and of a cleanup under way. -/
structure CallLeaves (args : SweepArgs) (cfg : Config) (t s : FileTree) (pc : SweepPc) : Prop where
  sound : Sound cfg s
  links : SameLinks t s
  underway : Underway args cfg.archive.root s pc
  clips : Step ⟨fun _ _ => False, fun L c => ∃ R m, L = R ++ m ∧ m ≠ [] ∧
    t.aim cfg.archive.root = .ok R ∧ limit args cfg.archive.root m < args.now - c.modified⟩
    (Reoftpd.clips t) (Reoftpd.clips s)

/-- A call that leaves the tree as it is. -/
theorem callLeaves_same (h : Sound cfg t) {pc : SweepPc}
    (hpc : Underway args cfg.archive.root t pc) : CallLeaves args cfg t t pc :=
  ⟨h, .refl t, hpc, .refl _ _⟩

/-- **The removal of a file** takes away what was found old. -/
theorem callLeaves_removeFile (h : Sound cfg t) (hframes : FramesBelow cfg.archive.root above)
    (hpath : PathBelow cfg.archive.root above path .removeFile)
    (hdecided : Decided args cfg.archive.root t path) (hrm : t.removeFile path = .ok s) :
    CallLeaves args cfg t s (.next above) := by
  obtain ⟨R, m, e, hR, hm, hnames, rfl, he, hfile, rfl⟩ := removed_below h hframes hpath hrm
  have hlink : ∀ target, e ≠ .link target := by
    rintro target rfl
    exact h.free.root R hR _ (List.prefix_append ..) target he
  obtain ⟨hsound, hlinks⟩ := h.eraseAt he hlink
  refine ⟨hsound, hlinks, underway_next hframes, fun L c hc => ?_, fun L c hfree hc => ?_⟩
  · by_cases hL : L = R ++ m
    · subst hL
      have hgone : clips (t.eraseAt (R ++ m)) (R ++ m) = none := by
        simp [clips, entry_eraseAt_self (childless_of_entry he hfile)]
      obtain ⟨hclip, -⟩ := clips_eq_some.mp hc
      rcases hdecided R m hR hm hnames rfl hclip with ⟨c', hc', hold⟩ | hdir
      · obtain rfl := Option.some.inj (hc.symm.trans hc')
        exact Or.inr ⟨hgone, R, m, rfl, hm, hR, hold⟩
      · rw [he] at hdir
        obtain rfl := Option.some.inj hdir
        cases hfile
    · exact Or.inl ((clips_eraseAt hL).trans hc)
  · by_cases hL : L = R ++ m
    · subst hL
      simp [clips, entry_eraseAt_self (childless_of_entry he hfile)] at hc
    · rw [clips_eraseAt hL, hfree] at hc
      cases hc

/-- **The removal of a directory** leaves every clip. -/
theorem callLeaves_discardDir (h : Sound cfg t) (hframes : FramesBelow cfg.archive.root above)
    (fault : SweepFault) :
    CallLeaves args cfg t (discardDir fault path t) (.next above) := by
  unfold discardDir
  split
  · rename_i s hrm
    obtain ⟨L, -, hdir, hc, rfl⟩ := removeDir_ok (attempt_ok hrm).2
    obtain ⟨hsound, hlinks⟩ := h.eraseAt hdir fun target heq => by cases heq
    have hclips : clips (t.eraseAt L) = clips t := by
      funext M
      by_cases hM : M = L
      · subst hM
        simp [clips, entry_eraseAt_self hc, hdir]
      · exact clips_eraseAt hM
    refine ⟨hsound, hlinks, underway_next hframes, ?_⟩
    rw [hclips]
    exact .refl _ _
  · exact callLeaves_same h (underway_next hframes)

/-- **The look at the type** of an entry leads into it, or on to its age. -/
theorem callLeaves_fileType (h : Sound cfg t) (hframes : FramesBelow cfg.archive.root above)
    (hpath : PathBelow cfg.archive.root above path .fileType) (isDir : Bool) :
    CallLeaves args cfg t t (.call (if isDir then .readDir else .stat) path above) := by
  obtain ⟨frame, rest, a, rfl, ha, rfl⟩ := hpath
  obtain ⟨-, -, l, hl, hdir⟩ := hframes frame (List.mem_cons_self ..)
  refine callLeaves_same h ?_
  cases isDir with
  | true =>
      refine ⟨hframes, ⟨l ++ [a], by simpa [ha, or_imp, forall_and] using hl, ?_⟩,
        fun hsite => by cases hsite⟩
      rw [below_concat, hdir]
  | false => exact ⟨hframes, ⟨frame, rest, a, rfl, ha, rfl⟩, fun hsite => by cases hsite⟩

/-- **One call of a cleanup.** -/
theorem callLeaves_sweepStep (h : Sound cfg t) {p : Sweeping}
    (hpc : Underway args cfg.archive.root t p.pc) (f : Option Errno) :
    CallLeaves args cfg t (sweepStep args t p f).1 (sweepStep args t p f).2.pc := by
  obtain ⟨pc, report⟩ := p
  cases pc with
  | done r => exact callLeaves_same h trivial
  | call site path above =>
      obtain ⟨hframes, hpath, hdecided⟩ := hpc
      cases site with
      | readDir =>
          simp only [sweepStep]
          split
          · exact callLeaves_same h trivial
          · rename_i names hread
            exact callLeaves_same h (underway_next (List.forall_mem_cons.mpr
              ⟨frameBelow_of_readDir hpath (attempt_ok hread).2, hframes⟩))
      | fileType =>
          simp only [sweepStep]
          split
          · exact callLeaves_same h trivial
          · rename_i ft hft
            exact callLeaves_fileType h hframes hpath ft.isDir
      | stat =>
          simp only [sweepStep]
          split
          · rename_i hold
            refine callLeaves_same h ?_
            split
            · exact underway_next hframes
            · exact ⟨hframes, hpath, fun _ => decided_of_olderThan h hframes hpath hold⟩
          · exact callLeaves_same h (underway_next hframes)
      | removeFile =>
          simp only [sweepStep]
          split
          · rename_i s hrm
            exact callLeaves_removeFile h hframes hpath (hdecided rfl) (attempt_ok hrm).2
          · exact callLeaves_same h trivial
      | nextEntry | noEntry =>
          simp only [sweepStep]
          split
          · exact callLeaves_same h trivial
          · exact callLeaves_same h (underway_entry hframes)
      | reread =>
          simp only [sweepStep]
          split
          · exact callLeaves_same h trivial
          · rename_i names hread
            exact callLeaves_same h ⟨List.forall_mem_cons.mpr
              ⟨frameBelow_of_readDir hpath (attempt_ok hread).2, hframes⟩, hpath,
              fun hsite => by cases hsite⟩
      | firstEntry =>
          cases above with
          | nil => exact callLeaves_same h ⟨hframes, hpath, hdecided⟩
          | cons frame above =>
              have habove : FramesBelow cfg.archive.root above :=
                (List.forall_mem_cons.mp hframes).2
              simp only [sweepStep]
              split
              · refine callLeaves_same h ?_
                split
                · exact underway_next habove
                · exact ⟨habove, hpath, fun hsite => by cases hsite⟩
              · exact callLeaves_same h (underway_next habove)
      | removeDir => exact callLeaves_discardDir h hframes fun _ _ => f

/-- **A request** keeps what a cleanup has found. -/
theorem Underway.request {backend : ReoBackend age} {now : Nat} {req : Request age}
    (h : Sound cfg t) (hproper : (ArchiveEvent.request now req).Proper cfg) {pc : SweepPc}
    (hpc : Underway args cfg.archive.root t pc) :
    Underway args cfg.archive.root (afterRequest backend (t.atTime now) req) pc := by
  cases pc with
  | done r => trivial
  | call site path above =>
      obtain ⟨hframes, hpath, hdecided⟩ := hpc
      refine ⟨hframes, hpath, fun hsite R m hR hm hnames hp hclip => ?_⟩
      have hlinks : SameLinks t (afterRequest backend (t.atTime now) req) :=
        (h.step backend hproper).2
      obtain ⟨O, F, hleaves⟩ := request_leaves backend ((h.atTime now).jailFree hproper.2)
      rw [hlinks.aim_eq] at hR
      rcases hdecided hsite R m hR hm hnames hp hclip with ⟨c, hc, hold⟩ | hdir
      · have hstep := hleaves.step (h.atTime now).unshared fun _ _ => False
        rcases hstep.kept _ c hc with hkept | ⟨-, hfalse⟩
        · exact Or.inl ⟨c, hkept, hold⟩
        · exact hfalse.elim
      · exact Or.inr (hleaves.effect.dir _ hdir)

end Underway

/-! ## Runs -/

/-- What holds of an archive and the cleanup under way in it. -/
def CleanSound (cfg : Config) (c : Cleaning) : Prop :=
  Sound cfg c.tree ∧ Underway c.args cfg.archive.root c.tree c.sweeping.pc

/-- **The archive is write-once**, call by call: a cleanup takes away what is older than its
limit at the call that removes it. -/
theorem cleaning_refines (backend : ReoBackend age) (cfg : Config) :
    Refines (cleanStep backend cfg) (fun c => clips c.tree) (cleanLabel backend cfg)
      (CleanSound cfg) (fun _ e => e.Proper cfg) where
  keeps c e h hproper := by
    obtain ⟨hsound, hpc⟩ := h
    cases e with
    | request now req =>
        have hrequest : (ArchiveEvent.request now req).Proper cfg := hproper
        exact ⟨(hsound.step backend hrequest).1, hpc.request hsound hrequest⟩
    | cleanup args =>
        simp only [cleanStep]
        split
        · exact ⟨hsound, fun _ hf => (List.not_mem_nil hf).elim, ⟨[], by simp, rfl⟩,
            fun hsite => by cases hsite⟩
        · exact ⟨hsound, hpc⟩
    | call fault =>
        have hleaves := callLeaves_sweepStep hsound hpc fault
        exact ⟨hleaves.sound, hleaves.underway⟩
    | stream names => exact ⟨hsound, underway_stream hproper hpc⟩
  steps c e h hproper := by
    obtain ⟨hsound, hpc⟩ := h
    cases e with
    | request now req =>
        obtain ⟨O, F, hleaves⟩ :=
          request_leaves backend ((hsound.atTime now).jailFree hproper.2)
        exact hleaves.step (hsound.atTime now).unshared _
    | cleanup args =>
        have htree : (cleanStep backend cfg c (.cleanup args)).tree = c.tree := by
          simp only [cleanStep]
          split <;> rfl
        simp only [htree]
        exact .refl _ _
    | call fault => exact (callLeaves_sweepStep hsound hpc fault).clips
    | stream names => exact .refl _ _

/-- **Cleanups lose no clip before its time.**  Over every run of requests and of cleanups one
after the other, whose calls fall between the requests in any way, a clip that is not there any
more, as it was, was there unchanged until a call of a cleanup removed it, and it was older
than its limit then; and a clip that is there was there all along, or was stored under a free
name by an acknowledged upload and is there unchanged since. -/
theorem race_accounts_for_clips (backend : ReoBackend age) {cfg : Config} {c : Cleaning}
    {r : Except Errno Unit} (hsound : Sound cfg c.tree) (hidle : c.sweeping.pc = .done r)
    (events : List (CleanEvent age)) (hproper : ∀ e ∈ events, e.Proper cfg) (L : Loc)
    (clip : Clip) :
    (clips c.tree L = some clip →
      clips (run (cleanStep backend cfg) c events).tree L ≠ some clip →
      ∃ pre fault post, events = pre ++ .call fault :: post ∧
        Throughout (cleanStep backend cfg) (fun s => clips s.tree L = some clip) c pre ∧
        ∃ R m, L = R ++ m ∧ m ≠ [] ∧
          (run (cleanStep backend cfg) c pre).tree.aim cfg.archive.root = .ok R ∧
          limit (run (cleanStep backend cfg) c pre).args cfg.archive.root m <
            (run (cleanStep backend cfg) c pre).args.now - clip.modified) ∧
    (clips (run (cleanStep backend cfg) c events).tree L = some clip →
      Throughout (cleanStep backend cfg) (fun s => clips s.tree L = some clip) c events ∨
        ∃ pre now req post, events = pre ++ .request now req :: post ∧
          clips (run (cleanStep backend cfg) c pre).tree L = none ∧
          StoredBy backend ((run (cleanStep backend cfg) c pre).tree.atTime now) req L clip ∧
          Throughout (cleanStep backend cfg) (fun s => clips s.tree L = some clip)
            (run (cleanStep backend cfg) c (pre ++ [.request now req])) post) := by
  have hrefines := cleaning_refines backend cfg
  have hstart : CleanSound cfg c := ⟨hsound, by rw [hidle]; trivial⟩
  have hguard : Along (cleanStep backend cfg) (fun _ e => e.Proper cfg) c events :=
    along_of_forall_mem hproper c
  refine ⟨fun hc hlost => ?_, fun hc => ?_⟩
  · obtain ⟨pre, e, post, rfl, hthrough, hexpires⟩ :=
      hrefines.expired_of_lost hstart hguard hc hlost
    cases e with
    | request now req => exact hexpires.elim
    | cleanup args => exact hexpires.elim
    | call fault => exact ⟨pre, fault, post, rfl, hthrough, hexpires⟩
    | stream names => exact hexpires.elim
  · rcases hrefines.stored_of_found hstart hguard hc with
      hthrough | ⟨pre, e, post, rfl, hfree, hstores, hthrough⟩
    · exact Or.inl hthrough
    · cases e with
      | request now req => exact Or.inr ⟨pre, now, req, post, rfl, hfree, hstores, hthrough⟩
      | cleanup args => exact hstores.elim
      | call fault => exact hstores.elim
      | stream names => exact hstores.elim

/-! ## A cleanup of the yard -/

/-- A cleanup that finds the clips of the yard old. -/
def lateCleanup : SweepArgs := { sweepAt50 with now := 100 }

/-- The yard with a clip in it, and no cleanup under way. -/
def clippedYard : Cleaning where
  tree := afterRequest (.plain : ReoBackend shiftAge) (freshYard.atTime 45) yardPut
  args := lateCleanup
  sweeping := ⟨.done (.ok ()), ⟨[], []⟩⟩

/-- The cleanup finds the clip old; before it removes it, the camera tries to send it again. -/
def lateEvents : List (CleanEvent shiftAge) :=
  .cleanup lateCleanup :: List.replicate 7 (.call none) ++ [.request 100 yardPut, .call none]

/-- The clip is gone, by a call that removed it when it was older than its limit. -/
theorem old_clip_accounted :
    clips (run (cleanStep .plain yardConfig) clippedYard lateEvents).tree yardClip = none ∧
      ∃ pre fault post, lateEvents = pre ++ .call fault :: post ∧
        Throughout (cleanStep .plain yardConfig)
          (fun s => clips s.tree yardClip = some ⟨[1], 45⟩) clippedYard pre ∧
        ∃ R m, yardClip = R ++ m ∧ m ≠ [] ∧
          (run (cleanStep .plain yardConfig) clippedYard pre).tree.aim yardConfig.archive.root =
            .ok R ∧
          limit (run (cleanStep .plain yardConfig) clippedYard pre).args yardConfig.archive.root m <
            (run (cleanStep .plain yardConfig) clippedYard pre).args.now - 45 := by
  have hsound : Sound yardConfig clippedYard.tree := by
    have hstep := (sound_freshYard.step (.plain : ReoBackend shiftAge) yardPut_proper).1
    simp only [archiveStep] at hstep
    simp only [clippedYard]
    exact hstep
  have hproper : ∀ e ∈ lateEvents, e.Proper yardConfig := by
    have hput : (CleanEvent.request 100 yardPut).Proper yardConfig :=
      (yardPut_proper : (ArchiveEvent.request 45 yardPut).Proper yardConfig)
    simp [lateEvents, CleanEvent.Proper] at hput ⊢
    exact hput
  have hgone : clips (run (cleanStep .plain yardConfig) clippedYard lateEvents).tree yardClip =
      none := by decide +kernel
  refine ⟨hgone, (race_accounts_for_clips .plain hsound rfl lateEvents hproper yardClip
    ⟨[1], 45⟩).1 (by decide +kernel) ?_⟩
  rw [hgone]
  exact fun h => by cases h

/-- The yard with a second clip in it, which is not old yet. -/
def busyYard : FileTree :=
  afterRequest (.plain : ReoBackend shiftAge) (clippedYard.tree.atTime 90)
    ⟨yardPut.user, .put (ofString "y") 0 [.ok [1]] (7 : UInt8) .never⟩

/-- A cleanup that has found the first clip old. -/
def foundOld : Cleaning :=
  run (cleanStep (.plain : ReoBackend shiftAge) yardConfig)
    ⟨busyYard, lateCleanup, .start (ofString "/srv")⟩ (List.replicate 10 (.call none))

/-- Another one comes first. -/
def otherCleaned : FileTree := (sweep lateCleanup noSweepFault (ofString "/srv") foundOld.tree).1

/-- The camera stores a new clip under the name. -/
def storedAgain : FileTree :=
  afterRequest (.plain : ReoBackend shiftAge) (otherCleaned.atTime 100) yardPut

/-- **Two cleanups lose a clip.**  One has found the clip old, the other removes it, and the
camera stores a new clip under its name and is told so; that is the one the first removes. -/
theorem two_cleanups_lose_a_clip :
    (serve (.plain : ReoBackend shiftAge) (otherCleaned.atTime 100) yardPut).2 = .put (.ok 1) ∧
      clips storedAgain yardClip = some ⟨[1], 100⟩ ∧
      clips (sweepStep lateCleanup storedAgain foundOld.sweeping none).1 yardClip = none := by
  decide +kernel

end Reoftpd

import Reoftpd.CamerasApart
import Reoftpd.SameFootage
import Reoftpd.ScopeExpansion

/-!
# What a viewer sees of the other cameras

A viewer with a list of cameras may look at the bytes of every clip of these, and at nothing
else.  **What such a viewer is answered is what it would be answered without the other
cameras** (`viewer_sees_its_cameras`): leaving out of a run every request of a camera that is
not in its scope, and of every viewer that sees more, changes none of its replies, bytes of
clips included, and none of the replies to the cameras in its scope.

Besides the bytes it is as for a camera alone: the homes in the scope are the same in both
trees, and a request of a camera outside leaves all of them as they were.
-/
namespace Reoftpd
open UnixPath FileTree Runs Unwinding

variable {age : Age}

/-! ## Compartments -/

/-- A scope has this directory among its roots. -/
def ScopeMap.Shows (scope : ScopeMap) (home : OsStr) : Prop := ∃ r ∈ scope.roots.entries, r.2 = home

instance (scope : ScopeMap) (home : OsStr) : Decidable (scope.Shows home) :=
  inferInstanceAs (Decidable (∃ r ∈ scope.roots.entries, r.2 = home))

/-- A role sees nothing but what the scope shows. -/
def Role.Within (scope : ScopeMap) : Role → Prop
  | .uploader home => scope.Shows home
  | .viewer view => view.single = none ∧ ∀ r ∈ view.roots.entries, scope.Shows r.2

instance (scope : ScopeMap) : (role : Role) → Decidable (role.Within scope)
  | .uploader home => inferInstanceAs (Decidable (scope.Shows home))
  | .viewer view =>
      inferInstanceAs (Decidable (view.single = none ∧ ∀ r ∈ view.roots.entries, scope.Shows r.2))

/-- The request is one of a user that sees nothing but what the scope shows. -/
def InScope (scope : ScopeMap) (e : Nat × Request age) : Prop := e.2.user.role.Within scope

instance (scope : ScopeMap) : DecidablePred (@InScope age scope) :=
  fun e => inferInstanceAs (Decidable (e.2.user.role.Within scope))

/-! ## Looking at the same homes -/

section Look
variable {t t' s : FileTree} {home path : OsStr} {B : Loc} {user : ReoUser} {view : ScopeMap}

theorem AlikeHomes.linkFree (h : AlikeHomes home B t t') : t.LinkFree home := by
  intro B' hB' L hL target
  obtain rfl : B' = B := Except.ok.inj (hB'.symm.trans (aim_of_locate h.leads))
  obtain ⟨m, rfl⟩ := hL
  exact h.no_links m target

theorem SameHomes.symm (h : SameHomes home B t t') : SameHomes home B t' t :=
  ⟨h.toAlikeHomes.symm, fun i j ⟨m, hi, hj⟩ => (h.bytes j i ⟨m, hj, hi⟩).symm⟩

/-- Every directory that the view has among its roots is the same in both trees. -/
def SameView (view : ScopeMap) (t t' : FileTree) : Prop :=
  ∀ n home, view.roots.lookup n = some home → ∃ B, SameHomes home B t t'

/-- **Where a virtual path leads** in both trees, if it is not refused in both. -/
theorem SameView.resolve (h : SameView view t t') (hlist : view.single = none) (path : OsStr) :
    (∃ e, view.resolve t path = .error e ∧ view.resolve t' path = .error e) ∨
      ∃ home B m, SameHomes home B t t' ∧ HomePath home B (locText (B ++ m)) m ∧
        view.resolve t path = .ok (locText (B ++ m)) ∧
        view.resolve t' path = .ok (locText (B ++ m)) := by
  unfold ScopeMap.resolve ScopeMap.target
  rw [hlist]
  cases hparts : normalize path with
  | error e => exact Or.inl ⟨e, rfl, rfl⟩
  | ok parts =>
      cases parts with
      | nil => exact Or.inl ⟨.outsideScope, rfl, rfl⟩
      | cons cam rest =>
          cases hroot : view.roots.lookup cam with
          | none => exact Or.inl ⟨.outsideScope, by simp [hroot], by simp [hroot]⟩
          | some home =>
              obtain ⟨B, hB⟩ := h cam home hroot
              have hnames : ∀ s ∈ rest.map ofString, IsName s := fun s hs =>
                isName_map_ofString hparts s (List.mem_cons_of_mem _ hs)
              have hcontained : ∀ {t t' : FileTree}, SameHomes home B t t' →
                  contained t home (joinAll home rest) =
                    .ok (locText (B ++ rest.map ofString)) := by
                intro t t' hB
                rw [joinAll_eq]
                exact contained_eq hB.toAlikeHomes.linkFree hB.leads hB.there hnames
              refine Or.inr ⟨home, B, rest.map ofString, hB, .text hnames, ?_, ?_⟩
              · simp only [hroot]
                exact hcontained hB
              · simp only [hroot]
                exact hcontained hB.symm

theorem metadata_same (h : SameView view t t') (hlist : view.single = none)
    (hrole : user.role = .viewer view) :
    ReoBackend.metadata t user path = ReoBackend.metadata t' user path := by
  unfold ReoBackend.metadata userView
  rw [hrole]
  rcases h.resolve hlist path with ⟨e, hr, hr'⟩ | ⟨home, B, m, hB, hp, hr, hr'⟩
  · simp only [hr, hr']
  · simp only [hr, hr', hB.toAlikeHomes.metadata hp]

theorem cwd_same (h : SameView view t t') (hlist : view.single = none)
    (hrole : user.role = .viewer view) :
    ReoBackend.cwd t user path = ReoBackend.cwd t' user path := by
  unfold ReoBackend.cwd userView
  rw [hrole]
  rcases h.resolve hlist path with ⟨e, hr, hr'⟩ | ⟨home, B, m, hB, hp, hr, hr'⟩
  · simp only [hr, hr']
  · simp only [hr, hr', hB.toAlikeHomes.metadata hp]

/-- A clip is read to the same bytes. -/
theorem get_same (h : SameView view t t') (hlist : view.single = none)
    (hrole : user.role = .viewer view) (startPos : Nat) :
    ReoBackend.get t user path startPos = ReoBackend.get t' user path startPos := by
  unfold ReoBackend.get userView
  rw [hrole]
  rcases h.resolve hlist path with ⟨e, hr, hr'⟩ | ⟨home, B, m, hB, hp, hr, hr'⟩
  · simp only [hr, hr']
  · rcases (hB.toAlikeHomes.find true hp).cases with
      ⟨e, hf, hf'⟩ | ⟨⟨L, x⟩, ⟨L', x'⟩, hf, hf', -, hx, hx'⟩
    · simp only [hr, hr', hf, hf']
    · have hkind := hB.kind m
      simp only at hx hx'
      rw [hx, hx'] at hkind
      cases hkind with
      | dir => simp only [hr, hr', hf, hf']
      | file i j =>
          simp only [hr, hr', hf, hf', hB.bytes i j ⟨m, hx, hx'⟩]

theorem list_same (h : SameView view t t') (hlist : view.single = none)
    (hrole : user.role = .viewer view) :
    Agree List.Perm (ReoBackend.list t user path) (ReoBackend.list t' user path) := by
  unfold ReoBackend.list userView
  rw [hrole]
  simp only [capabilityAllowed]
  split
  · rfl
  · split
    · exact List.Perm.refl _
    · rcases h.resolve hlist path with ⟨e, hr, hr'⟩ | ⟨home, B, m, hB, hp, hr, hr'⟩
      · simp only [hr, hr']
        rfl
      · simp only [hr, hr']
        rcases (hB.toAlikeHomes.readDir hp).cases with
          ⟨e, hd, hd'⟩ | ⟨names, names', hd, hd', hperm, hnames⟩
        · simp only [hd, hd']
          rfl
        · simp only [hd, hd']
          exact listEntries_alike hB.toAlikeHomes hp.names hperm hnames

/-- **A viewer** is answered the same where its view is. -/
theorem serve_same (backend : ReoBackend age) (req : Request age) (h : SameView view t t')
    (hlist : view.single = none) (hrole : req.user.role = .viewer view) :
    Reply.Same (serve backend t req).2 (serve backend t' req).2 := by
  have hsame : ∀ r r' : Reply, r = r' → Reply.Same r r' := fun r r' he => he ▸ .same r
  obtain ⟨user, call⟩ := req
  change user.role = .viewer view at hrole
  cases call with
  | metadata path => exact hsame _ _ (congrArg Reply.metadata (metadata_same h hlist hrole))
  | list path =>
      show Reply.Same (.list (ReoBackend.list t user path)) (.list (ReoBackend.list t' user path))
      rcases (list_same h hlist hrole).cases with ⟨e, hl, hl'⟩ | ⟨entries, entries', hl, hl', hperm⟩
      · rw [hl, hl']
        exact .same _
      · rw [hl, hl']
        exact .listed entries entries' hperm
  | get path startPos =>
      exact hsame _ _ (congrArg Reply.get (get_same h hlist hrole startPos))
  | cwd path => exact hsame _ _ (congrArg Reply.unit (cwd_same h hlist hrole))
  | put path startPos input seed faults =>
      refine hsame _ _ ?_
      simp [serve, ReoBackend.put, hrole, capabilityAllowed]
  | mkd path mk =>
      refine hsame _ _ ?_
      simp [serve, ReoBackend.mkd, hrole, capabilityAllowed]
  | del path | rename source target | rmd path => exact .same _

end Look

/-! ## Homes apart -/

/-- Homes that are there, each of them apart from all others. -/
structure Lodged (homes : Set OsStr) (t : FileTree) : Prop where
  there : ∀ home ∈ homes, ∃ B, HomeAt t home B ∧ t.entry B = some .dir
  apart : ∀ home ∈ homes, ∀ home' ∈ homes, home ≠ home' → HomesApart t home home'

section Lodged
variable {homes : Set OsStr} {home home' path : OsStr} {B C O F : Loc} {t t' s : FileTree}

theorem Lodged.atTime (h : Lodged homes t) (now : Nat) : Lodged homes (t.atTime now) where
  there home hhome := by
    obtain ⟨B, hB, hdir⟩ := h.there home hhome
    exact ⟨B, hB.atTime now, hdir⟩
  apart home hhome home' hhome' hne B B' hB hB' := by
    obtain ⟨hbelow, habove, hfiles⟩ := h.apart home hhome home' hhome' hne B B' hB hB'
    exact ⟨hbelow, habove, hfiles⟩

/-- **Homes that are apart stay apart** when something is written in one of them. -/
theorem Lodged.effect (h : Lodged homes t) (hhome : home ∈ homes) (hC : HomeAt t home C)
    (hopens : Opens C O F) (he : Effect C O F t s) : Lodged homes s := by
  -- where the homes are now, they were before
  have hwas : ∀ home' ∈ homes, ∀ B, s.locate true home' = .ok B → t.locate true home' = .ok B := by
    intro home' hhome' B hB
    obtain ⟨B', hB', hdir⟩ := h.there home' hhome'
    have hnow : s.locate true home' = .ok B' := (hB'.grows hdir he.toGrows).leads
    rw [Except.ok.inj (hB.symm.trans hnow)]
    exact hB'.leads
  refine ⟨fun home' hhome' => ?_, fun home₁ h₁ home₂ h₂ hne B₁ B₂ hB₁ hB₂ => ?_⟩
  · obtain ⟨B, hB, hdir⟩ := h.there home' hhome'
    exact ⟨B, hB.grows hdir he.toGrows, he.dir B hdir⟩
  · have ht₁ := hwas home₁ h₁ B₁ hB₁
    have ht₂ := hwas home₂ h₂ B₂ hB₂
    have hapart : Apart t B₁ B₂ := h.apart home₁ h₁ home₂ h₂ hne B₁ B₂ ht₁ ht₂
    by_cases hhome₁ : home₁ = home
    · subst hhome₁
      obtain rfl : C = B₁ := Except.ok.inj (hC.leads.symm.trans ht₁)
      exact (hapart.symm.effect hopens he).symm
    · exact hapart.effect_third (h.apart home₁ h₁ home hhome hhome₁ B₁ C ht₁ hC.leads) hopens he

/-- **What is written elsewhere** leaves a home the same, at any time. -/
theorem SameHomes.elsewhere {now : Nat} (h : SameHomes home B (t.atTime now) t')
    (hleads : t.locate true home = .ok B) (hopens : Opens C O F) (he : Effect C O F t s)
    (hapart : Apart t B C) : SameHomes home B (s.atTime now) t' := by
  obtain ⟨hentry, hcontents⟩ := he.elsewhere hopens hapart
  have halike : Alike (s.atTime now) t' B := h.toAlike.elsewhere hentry hcontents rfl he.dirSize
  refine ⟨⟨halike, he.locate hleads, h.leads'⟩, ?_⟩
  rintro i j ⟨m, hi, hj⟩
  have hold : t.entry (B ++ m) = some (.file i) := (hentry m).symm.trans hi
  exact (hcontents m i hold).1.trans (h.bytes i j ⟨m, hold, hj⟩)

theorem SameHomes.atTime (h : SameHomes home B t t') (now : Nat) :
    SameHomes home B (t.atTime now) (t'.atTime now) := ⟨h.toAlikeHomes.atTime now, h.bytes⟩

end Lodged

/-! ## The unwinding -/

/-- What holds of the tree `t` of a run and the tree `t'` of the run that the scope leaves of
it.  Among `homes` are those of all cameras. -/
structure ScopedAlike (scope : ScopeMap) (homes : Set OsStr) (t t' : FileTree) : Prop where
  lodged : Lodged homes t
  inside : Lodged {home | scope.Shows home} t'
  shown : ∀ home, scope.Shows home → home ∈ homes
  same : ∀ home B, scope.Shows home → t.locate true home = .ok B →
    ∀ now, SameHomes home B (t.atTime now) (t'.atTime now)

/-- The request is one of a viewer, or of a camera whose home is among `homes`. -/
def AmongHomes (homes : Set OsStr) (e : Nat × Request age) : Prop :=
  ∀ home, e.2.user.role = .uploader home → home ∈ homes

section Unwinding
variable {scope : ScopeMap} {homes : Set OsStr} {t t' : FileTree} {backend : ReoBackend age}
  {e : Nat × Request age}

/-- What a viewer in the scope sees is the same in both trees. -/
theorem ScopedAlike.view (h : ScopedAlike scope homes t t') {view : ScopeMap}
    (hview : (Role.viewer view).Within scope) (now : Nat) :
    SameView view (t.atTime now) (t'.atTime now) := by
  intro n home hroot
  have hshows : scope.Shows home := hview.2 ⟨n, home⟩ (AList.mem_lookup_iff.mp hroot)
  obtain ⟨B, hB, -⟩ := h.lodged.there home (h.shown home hshows)
  exact ⟨B, h.same home B hshows hB.leads now⟩

/-- **A request in the scope** is answered the same. -/
theorem ScopedAlike.answer (h : ScopedAlike scope homes t t') (he : InScope scope e) :
    Reply.Same (timedReply backend t e) (timedReply backend t' e) := by
  unfold InScope at he
  cases hrole : e.2.user.role with
  | viewer view =>
      rw [hrole] at he
      exact serve_same backend e.2 (h.view he e.1) he.1 hrole
  | uploader home =>
      rw [hrole] at he
      obtain ⟨B, hB, -⟩ := h.lodged.there home (h.shown home he)
      exact (serve_alike backend e.2 (h.same home B he hB.leads e.1).toAlikeHomes hrole).2

/-- A viewer writes nothing. -/
theorem ScopedAlike.viewer (h : ScopedAlike scope homes t t') {view : ScopeMap}
    (hrole : e.2.user.role = .viewer view) :
    ScopedAlike scope homes (timedStep backend t e) t' := by
  rw [timedStep, afterRequest_viewer backend hrole]
  exact ⟨h.lodged.atTime e.1, h.inside, h.shown, h.same⟩

theorem ScopedAlike.viewer' (h : ScopedAlike scope homes t t') {view : ScopeMap}
    (hrole : e.2.user.role = .viewer view) :
    ScopedAlike scope homes t (timedStep backend t' e) := by
  rw [timedStep, afterRequest_viewer backend hrole]
  exact ⟨h.lodged, h.inside.atTime e.1, h.shown, h.same⟩

/-- **A request of a camera outside the scope** leaves every home in it as it is. -/
theorem ScopedAlike.outside (h : ScopedAlike scope homes t t') {home : OsStr}
    (hrole : e.2.user.role = .uploader home) (hhome : home ∈ homes) (hout : ¬ scope.Shows home) :
    ScopedAlike scope homes (timedStep backend t e) t' := by
  have hlodged := h.lodged.atTime e.1
  obtain ⟨C, hC, -⟩ := hlodged.there home hhome
  obtain ⟨O, F, hopens, heffect⟩ := afterRequest_effect backend hC hrole
  refine ⟨hlodged.effect hhome hC hopens heffect, h.inside, h.shown, ?_⟩
  intro home' B hshows hB now
  obtain ⟨B', hB', -⟩ := hlodged.there home' (h.shown home' hshows)
  obtain rfl : B' = B := Except.ok.inj ((heffect.locate hB'.leads).symm.trans hB)
  have hne : home' ≠ home := fun heq => hout (heq ▸ hshows)
  have hapart : Apart (t.atTime e.1) B' C :=
    hlodged.apart home' (h.shown home' hshows) home hhome hne B' C hB'.leads hC.leads
  have hsame : SameHomes home' B' ((t.atTime e.1).atTime now) (t'.atTime now) :=
    h.same home' B' hshows hB'.leads now
  exact hsame.elsewhere hB'.leads hopens heffect hapart

/-- **A request of a camera in the scope** goes the same way in both. -/
theorem ScopedAlike.camera (h : ScopedAlike scope homes t t') {home : OsStr}
    (hrole : e.2.user.role = .uploader home) (hshows : scope.Shows home) :
    ScopedAlike scope homes (timedStep backend t e) (timedStep backend t' e) := by
  have hlodged := h.lodged.atTime e.1
  have hinside := h.inside.atTime e.1
  have hhome : home ∈ homes := h.shown home hshows
  obtain ⟨C, hC, -⟩ := hlodged.there home hhome
  obtain ⟨C', hC', -⟩ := hinside.there home hshows
  have hown := h.same home C hshows hC.leads e.1
  obtain rfl : C' = C := Except.ok.inj (hC'.leads.symm.trans hown.leads')
  obtain ⟨O, F, hopens, heffect⟩ := afterRequest_effect backend hC hrole
  obtain ⟨O', F', hopens', heffect'⟩ := afterRequest_effect backend hC' hrole
  refine ⟨hlodged.effect hhome hC hopens heffect, hinside.effect hshows hC' hopens' heffect',
    h.shown, ?_⟩
  intro home' B hshows' hB now
  obtain ⟨B', hB', -⟩ := hlodged.there home' (h.shown home' hshows')
  obtain rfl : B' = B := Except.ok.inj ((heffect.locate hB'.leads).symm.trans hB)
  by_cases hne : home' = home
  · -- the home that is written in is written in alike
    subst hne
    obtain rfl : C' = B' := Except.ok.inj (hC.leads.symm.trans hB'.leads)
    exact (afterRequest_same backend e.2 hown hrole).atTime now
  · -- any other one is left as it is on both sides
    have hsame : SameHomes home' B' ((t.atTime e.1).atTime now) ((t'.atTime e.1).atTime now) :=
      h.same home' B' hshows' hB'.leads now
    have hapart : Apart (t.atTime e.1) B' C' :=
      hlodged.apart home' (h.shown home' hshows') home hhome hne B' C' hB'.leads hC.leads
    have hapart' : Apart (t'.atTime e.1) B' C' :=
      hinside.apart home' hshows' home hshows hne B' C' hsame.leads' hC'.leads
    have hleft : SameHomes home' B' ((timedStep backend t e).atTime now)
        ((t'.atTime e.1).atTime now) := hsame.elsewhere hB'.leads hopens heffect hapart
    exact (hleft.symm.elsewhere hsame.leads' hopens' heffect' hapart').symm

/-- **The backend is unwound** by the homes that the scope shows. -/
theorem unwinds_scopedAlike (backend : ReoBackend age) (scope : ScopeMap) (homes : Set OsStr) :
    Unwinds (timedStep backend) (timedReply backend) (InScope scope)
      (fun _ e => AmongHomes homes e) (ScopedAlike scope homes) Reply.Same where
  own_answer _ _ _ h _ he := h.answer he
  own_step _ _ e h _ he := by
    unfold InScope at he
    cases hrole : e.2.user.role with
    | viewer view => exact (h.viewer hrole).viewer' hrole
    | uploader home =>
        rw [hrole] at he
        exact h.camera hrole he
  other_step _ _ e h hamong he := by
    unfold InScope at he
    cases hrole : e.2.user.role with
    | viewer view => exact h.viewer hrole
    | uploader home =>
        rw [hrole] at he
        exact h.outside hrole (hamong home hrole) he

end Unwinding

/-! ## The viewers of a config -/

/-- What a list of cameras is expanded to shows the homes of cameras. -/
theorem cameraHome_of_shows {cfg : Config} (hvalid : cfg.validate age = .ok ()) {v : ViewerCfg}
    (hv : v ∈ cfg.viewer) {items : List String} (hscope : v.scope = .list items) {home : OsStr}
    (h : (expandScope cfg v.scope).Shows home) : ∃ cam ∈ cfg.camera, home = cameraHome cfg cam := by
  rw [hscope] at h
  obtain ⟨⟨n, root⟩, hr, rfl⟩ := h
  have hlookup : (expandScope cfg (.list items)).roots.lookup n = some root :=
    AList.mem_lookup_iff.mpr hr
  obtain ⟨-, hroots⟩ : ScopeStandsFor cfg (.list items) (expandScope cfg (.list items)) :=
    expandScope_standsFor cfg (.list items)
  obtain ⟨-, rfl⟩ := (hroots n root).mp hlookup
  have hn : n ∈ (expandScope cfg (.list items)).listRoot := List.mem_keys_of_mem hr
  obtain ⟨cam, hcam, rfl⟩ := isCamera_of_mem_listRoot hvalid hv hscope hn
  exact ⟨cam, hcam, rfl⟩

/-- **A viewer sees its cameras and nothing else.**  In every run of requests of viewers and of
the cameras of a valid config whose homes are there without links and apart, a viewer with a
list of cameras, these cameras and every viewer that sees no more are answered what they are
answered in the run with all other requests left out. -/
theorem viewer_sees_its_cameras (backend : ReoBackend age) {cfg : Config} {t : FileTree}
    (hvalid : cfg.validate age = .ok ()) (hthere : PlainHomes cfg t)
    (hapart : ∀ cam ∈ cfg.camera, ∀ other ∈ cfg.camera, cam.name ≠ other.name →
      HomesApart t (cameraHome cfg cam) (cameraHome cfg other))
    {v : ViewerCfg} (hv : v ∈ cfg.viewer) {items : List String} (hscope : v.scope = .list items)
    (events : List (Nat × Request age)) (hevents : ∀ e ∈ events, OfConfig cfg e) :
    (viewerAccount cfg v).role.Within (expandScope cfg v.scope) ∧
      List.Forall₂ Reply.Same
        (seen (timedStep backend) (timedReply backend) (InScope (expandScope cfg v.scope)) t events)
        (seen (timedStep backend) (timedReply backend) (InScope (expandScope cfg v.scope)) t
          (purge (InScope (expandScope cfg v.scope)) events)) := by
  have hwithin : (viewerAccount cfg v).role.Within (expandScope cfg v.scope) := by
    refine ⟨?_, fun r hr => ⟨r, hr, rfl⟩⟩
    rw [hscope]
    rfl
  refine ⟨hwithin, ?_⟩
  let homes : Set OsStr := {h | ∃ cam ∈ cfg.camera, h = cameraHome cfg cam}
  have hshown : ∀ home, (expandScope cfg v.scope).Shows home → home ∈ homes := fun home h =>
    cameraHome_of_shows hvalid hv hscope h
  have hlodged : Lodged homes t := by
    refine ⟨?_, ?_⟩
    · rintro home ⟨cam, hcam, rfl⟩
      obtain ⟨B, hB, hdir⟩ := isDir_iff.mp (hthere.dirs cam hcam)
      exact ⟨B, ⟨hB, by simp [hdir], hthere.free cam hcam⟩, hdir⟩
    · rintro home ⟨cam, hcam, rfl⟩ home' ⟨other, hother, rfl⟩ hne
      exact hapart cam hcam other hother fun hname => hne (by rw [cameraHome, cameraHome, hname])
  have hstart : ScopedAlike (expandScope cfg v.scope) homes t t := by
    refine ⟨hlodged, ⟨fun home h => hlodged.there home (hshown home h), ?_⟩, hshown, ?_⟩
    · exact fun home h home' h' => hlodged.apart home (hshown home h) home' (hshown home' h')
    · intro home B h hB now
      obtain ⟨B', hB', -⟩ := hlodged.there home (hshown home h)
      obtain rfl : B' = B := Except.ok.inj (hB'.leads.symm.trans hB)
      have hsame : SameHomes home B' t t := by
        refine ⟨hB'.alike, fun i j hij => ?_⟩
        obtain ⟨m, hi, hj⟩ := hij
        obtain rfl := Entry.file.inj (Option.some.inj (hi.symm.trans hj))
        rfl
      exact hsame.atTime now
  exact ((unwinds_scopedAlike backend _ homes).noninterference hstart
    (along_of_forall_mem hevents t)).1

/-! ## A guest of one camera -/

/-- The two cameras, and a guest who may see the first. -/
def guestConfig : Config := { twoCameras with viewer := [⟨"guest", "h3", .list ["c"]⟩] }

/-- The guest. -/
def guest : ReoUser := ⟨"guest", .viewer (expandScope guestConfig (.list ["c"])), false⟩

/-- The guest looks at a clip of the first camera while both store theirs. -/
theorem guest_sees_c :
    let events : List (Nat × Request shiftAge) :=
      [(1, putC "x" 0 [1]), (2, ⟨cameraD, .put (ofString "x") 0 [.ok [2]] (7 : UInt8) .never⟩),
        (3, ⟨guest, .get (ofString "c/x") 0⟩), (4, ⟨guest, .get (ofString "d/x") 0⟩)]
    List.Forall₂ Reply.Same
      (seen (timedStep .plain) (timedReply .plain)
        (InScope (expandScope guestConfig (.list ["c"]))) twoHomes events)
      (seen (timedStep .plain) (timedReply .plain)
        (InScope (expandScope guestConfig (.list ["c"]))) twoHomes
        (purge (InScope (expandScope guestConfig (.list ["c"]))) events)) := by
  have hthere : PlainHomes guestConfig twoHomes := by
    have hfree : ∀ p, twoHomes.LinkFree p := linkFree_of_no_links fun L target hL => by
      rcases twoHomes_entry L with h | h <;> rw [h] at hL <;> cases hL
    exact ⟨fun cam _ => hfree _, by decide +kernel⟩
  have hapart : ∀ cam ∈ guestConfig.camera, ∀ other ∈ guestConfig.camera, cam.name ≠ other.name →
      HomesApart twoHomes (cameraHome guestConfig cam) (cameraHome guestConfig other) := by
    intro cam hcam other hother hne
    simp only [guestConfig, twoCameras, List.mem_cons, List.not_mem_nil, or_false] at hcam hother
    rcases hcam with rfl | rfl <;> rcases hother with rfl | rfl
    · exact absurd rfl hne
    · exact twoHomes_apart
    · exact twoHomes_apart.symm
    · exact absurd rfl hne
  have hguest : (⟨"guest", "h3", .list ["c"]⟩ : ViewerCfg) ∈ guestConfig.viewer :=
    List.mem_cons_self ..
  refine (viewer_sees_its_cameras .plain (by decide +kernel) hthere hapart hguest rfl _ ?_).2
  intro e he home hrole
  simp only [List.mem_cons, List.not_mem_nil, or_false] at he
  rcases he with rfl | rfl | rfl | rfl
  all_goals cases hrole
  · exact ⟨_, List.mem_cons_self .., rfl⟩
  · exact ⟨_, List.mem_cons_of_mem _ (List.mem_cons_self ..), rfl⟩

end Reoftpd

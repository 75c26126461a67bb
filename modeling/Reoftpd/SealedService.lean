import Reoftpd.Acknowledged
import Reoftpd.AddAccount
import Reoftpd.Service

/-!
# A server that encrypts

`build_server` reads the recipients once, from the configuration the server starts with, and
every session gets the same backend.  A reload changes accounts and caps, never the
recipients.

**A server started with `[encryption]` writes no footage in the clear** (`started_encrypted`),
whatever configurations are reloaded later, also such as have no `[encryption]`: in every
state of every run, a file that does not lie at the place of a probe is one that was there
before, with the bytes it had, or holds a piece of a ciphertext, for the first configuration's
recipients, of what some camera has sent.
-/
namespace Reoftpd
open UnixPath FileTree Runs

/-! ## The backend -/

/-- The backend that `build_server` makes for every session. -/
def buildBackend (age : Age) (cfg : Config) : Except String (ReoBackend age) :=
  match cfg.encryption with
  | none => .ok ⟨none⟩
  | some enc =>
      match parseRecipients age enc.recipients with
      | .ok recipients => .ok ⟨some recipients⟩
      | .error e => .error ("encryption recipients: " ++ e.display)

/-- A valid configuration has a backend, which encrypts if the configuration says so. -/
theorem buildBackend_valid {age : Age} {cfg : Config} (h : cfg.validate age = .ok ()) :
    ∃ backend, buildBackend age cfg = .ok backend ∧
      ∀ enc, cfg.encryption = some enc → ∃ recipients,
        parseRecipients age enc.recipients = .ok recipients ∧ backend = ⟨some recipients⟩ := by
  obtain ⟨-, -, -, hcheck⟩ := Config.validate_eq_ok.mp h
  unfold buildBackend
  cases henc : cfg.encryption with
  | none => exact ⟨_, rfl, fun enc h => by cases h⟩
  | some enc =>
      rw [henc, checkEncryption] at hcheck
      split at hcheck
      · cases hcheck
      · cases hparse : parseRecipients age enc.recipients with
        | error e => simp [hparse] at hcheck
        | ok recipients =>
            refine ⟨⟨some recipients⟩, by simp [hparse], fun enc' h => ?_⟩
            obtain rfl := Option.some.inj h
            exact ⟨recipients, hparse, rfl⟩

/-! ## What a store writes -/

section Store
variable {t s : FileTree} {final : OsStr} {out : Encrypted} {M : Loc} {i : Nat}

/-- A file of `s` has the bytes it had in `t`, or some of the chunks of `out`. -/
def KeepsOrHolds (chunks : List Bytes) (t s : FileTree) : Prop :=
  ∀ M i, s.entry M = some (.file i) →
    i < t.disk.fresh ∧ s.disk.data i = t.disk.data i ∨
      ∃ ws, ws <+: chunks ∧ s.disk.data i = ws.flatten

theorem keepsOrHolds_dirs {chunks : List Bytes} (ha : AddsDirs t s) : KeepsOrHolds chunks t s :=
  fun _ i hM => Or.inl ⟨lt_fresh (ha.file_iff.mp hM), congrFun ha.data i⟩

/-- The staging file `h` is open and holds `ws`, and no other file has changed. -/
structure Staging (t s : FileTree) (h : Nat) (ws : List Bytes) : Prop where
  kept : ∀ i, i ≠ h → s.disk.data i = t.disk.data i
  named : ∀ M i, s.entry M = some (.file i) → i = h ∨ i < t.disk.fresh
  holds : s.disk.data h = ws.flatten

theorem Staging.keepsOrHolds {h : Nat} {ws chunks : List Bytes} (hs : Staging t s h ws)
    (hws : ws <+: chunks) : KeepsOrHolds chunks t s := by
  intro M i hM
  by_cases hi : i = h
  · subst hi
    exact Or.inr ⟨ws, hws, hs.holds⟩
  · exact Or.inl ⟨(hs.named M i hM).resolve_left hi, hs.kept i hi⟩

theorem staging_of_openTruncate {s₀ : FileTree} {p : OsStr} {h : Nat} (ha : AddsDirs t s₀)
    (ho : s₀.openTruncate p = .ok (s, h)) : Staging t s h [] := by
  obtain ⟨s₁, hfile, rfl⟩ := openTruncate_ok ho
  obtain ⟨L, -, ⟨hL, rfl⟩ | ⟨hv, rfl, rfl⟩⟩ := openFile_ok hfile
  · refine ⟨fun i hi => ?_, fun M i hM => ?_, data_setData_self _⟩
    · rw [data_setData_ne _ hi, ha.data]
    · exact Or.inr (lt_fresh (ha.file_iff.mp hM))
  · refine ⟨fun i hi => ?_, fun M i hM => ?_, data_setData_self _⟩
    · rw [data_setData_ne _ hi, data_createAt_ne hi, ha.data]
    · by_cases hML : M = L
      · subst hML
        have hself : (s₀.createAt M).entry M = some (.file i) := hM
        rw [entry_createAt_self hv] at hself
        exact Or.inl (Entry.file.inj (Option.some.inj hself)).symm
      · have hother : (s₀.createAt L).entry M = some (.file i) := hM
        rw [entry_createAt_ne hML] at hother
        exact Or.inr (lt_fresh (ha.file_iff.mp hother))

/-- A removal leaves what a file holds. -/
theorem KeepsOrHolds.discard {chunks : List Bytes} {p : OsStr} (h : KeepsOrHolds chunks t s) :
    KeepsOrHolds chunks t (s.discard p) := by
  intro M i hM
  rw [discard_data]
  exact h M i (file_of_discard hM)

/-- A link gives a file another name. -/
theorem KeepsOrHolds.hardLink {chunks : List Bytes} {p q : OsStr} {s' : FileTree}
    (h : KeepsOrHolds chunks t s) (hl : s.hardLink p q = .ok s') : KeepsOrHolds chunks t s' := by
  obtain ⟨S, D, e, -, he, -, -, hv, rfl⟩ := hardLink_ok hl
  intro M i hM
  rw [data_linkAt]
  by_cases hMD : M = D
  · subst hMD
    rw [entry_linkAt_self hv he] at hM
    exact h S i (he.trans hM)
  · rw [entry_linkAt_ne hMD] at hM
    exact h M i hM

/-- **An encrypted store** changes no file's bytes but to ciphertext. -/
theorem storeEncrypted_holds (mk : MkdirFault) (final : OsStr) (fault : EncryptSite → Option Errno)
    (out : Encrypted) (t : FileTree) :
    KeepsOrHolds out.chunks t (storeEncrypted (treeTarget mk final) fault out t).1 := by
  have hparents := addsDirs_createParent mk final t
  refine storeEncrypted_rule (J := fun h ws s => Staging t s h ws)
    (Q := fun s _ => KeepsOrHolds out.chunks t s) ?_ ?_ ?_ ?_ ?_ ?_ ?_
  · exact fun e => keepsOrHolds_dirs (.refl t)
  · exact fun e => keepsOrHolds_dirs hparents
  · exact fun s' h ho => staging_of_openTruncate hparents ho
  · intro s h ws b hs
    refine ⟨fun i hi => (data_setData_ne _ hi).trans (hs.kept i hi), hs.named, ?_⟩
    show (s.setData h (Disk.overwrite (s.disk.data h) ws.flatten.length b)).disk.data h = _
    rw [data_setData_self, hs.holds, Disk.overwrite_length]
    simp
  · exact fun s h ws e hws hs => hs.keepsOrHolds hws
  · exact fun s h n e _ hs => (hs.keepsOrHolds List.prefix_rfl).discard
  · intro s h s' n _ hs hl
    have hlinked := (hs.keepsOrHolds List.prefix_rfl).hardLink hl
    exact ⟨hlinked, hlinked.discard⟩

end Store

/-! ## Requests of cameras -/

section Seals
variable {age : Age} {recipients : List age.Recipient} {sent : Input → age.Seed → Prop}
  {t s s' : FileTree} {home path name : OsStr} {H M : Loc} {i : Nat}

/-- What comes after a dot makes a text begin with `p` only if `p` has a dot. -/
theorem prefix_before_dot {p l y : List Char} (h : p <+: l ++ '.' :: y) (hp : ¬ p <+: l) :
    ∃ r, p = l ++ '.' :: r := by
  rcases List.prefix_or_prefix_of_prefix h (List.prefix_append l _) with hpl | ⟨r, rfl⟩
  · exact absurd hpl hp
  · cases r with
    | nil => exact absurd (by simp) hp
    | cons c r =>
        obtain ⟨rfl, -⟩ := List.cons_prefix_cons.mp ((List.prefix_append_right_inj l).mp h)
        exact ⟨r, rfl⟩

/-- A name with `.age` behind it is no probe's, if without it it is none. -/
theorem not_probe_age {n : String} (h : isReolinkTestFile n = false) (x : String) :
    isReolinkTestFile (n ++ ".age" ++ x) = false := by
  have hlower : (n ++ ".age" ++ x).toList.map Char.toLower =
      n.toList.map Char.toLower ++ '.' :: ("age".toList ++ x.toList.map Char.toLower) := by
    simp
  unfold isReolinkTestFile at h ⊢
  simp only [hlower]
  generalize n.toList.map Char.toLower = l at h ⊢
  generalize "age".toList ++ x.toList.map Char.toLower = y
  simp only [← Bool.not_eq_true, Bool.or_eq_true, not_or, beq_iff_eq,
    List.isPrefixOf_iff_prefix] at h ⊢
  obtain ⟨⟨htest, hdot⟩, hftp⟩ := h
  refine ⟨⟨fun heq => ?_, fun hpre => ?_⟩, fun hpre => ?_⟩
  · have hmem : '.' ∈ "test".toList := heq ▸ by simp
    revert hmem
    decide
  · -- the dot of the probe's name is the one behind the name
    obtain ⟨r, hr⟩ := prefix_before_dot hpre hdot
    have hsplit : "test".toList ++ ['.'] = l ++ '.' :: r := hr
    rcases List.append_eq_append_iff.mp hsplit with ⟨c, rfl, hc⟩ | ⟨c, heq, hc⟩
    · cases c with
      | nil => exact htest (List.append_nil _)
      | cons a c => exact absurd (congrArg List.length hc) (by simp)
    · cases c with
      | nil => exact htest (by rw [heq, List.append_nil])
      | cons a c =>
          obtain ⟨rfl, -⟩ := List.cons.inj hc
          have hmem : '.' ∈ "test".toList := heq ▸ by simp
          revert hmem
          decide
  · obtain ⟨r, hr⟩ := prefix_before_dot hpre hftp
    have hmem : '.' ∈ "testftp".toList := hr ▸ by simp
    revert hmem
    decide

/-- A piece of a ciphertext for `recipients`, of what was sent. -/
def Ciphertext (recipients : List age.Recipient) (sent : Input → age.Seed → Prop) (b : Bytes) :
    Prop :=
  ∃ input seed, sent input seed ∧
    ∃ ws, ws <+: (encryptStream age recipients seed input).chunks ∧ b = ws.flatten

/-- The name of a file that is no new one is bound as it was. -/
theorem Effect.same_file {O F : Loc} (he : Effect H O F t s)
    (hthere : ∃ j, t.entry M = some (.file j)) (hlt : i < t.disk.fresh)
    (hM : s.entry M = some (.file i)) : t.entry M = some (.file i) := by
  obtain ⟨j, hj⟩ := hthere
  by_cases hMO : M = O
  · subst hMO
    exact (he.opened i hM).resolve_right (Nat.not_le.mpr hlt)
  · by_cases hMF : M = F
    · subst hMF
      rw [← he.final hMO (by simp [hj])]
      exact hM
    · rcases he.entry M hMO hMF with heq | ⟨hnone, -⟩
      · exact heq ▸ hM
      · rw [hnone] at hj
        cases hj

/-- **What a request leaves** on a backend that encrypts: it works on a probe, or on names that
are none, and then writes ciphertext. -/
inductive Seals (recipients : List age.Recipient) (sent : Input → age.Seed → Prop)
    (t s : FileTree) : Prop
  | probe (H L : Loc) (placed : ProbePlaced L) (effect : Effect H L L t s)
  | store (H O F : Loc) (opens : ¬ ProbePlaced O) (binds : ¬ ProbePlaced F)
      (effect : Effect H O F t s)
      (holds : ∀ M i, s.entry M = some (.file i) →
        t.entry M = some (.file i) ∧ s.disk.data i = t.disk.data i ∨
          Ciphertext recipients sent (s.disk.data i))

/-- A request that only makes directories. -/
theorem seals_dirs (ha : ∀ O F, Effect H O F t s) : Seals recipients sent t s :=
  .probe H someProbe probePlaced_someProbe (ha _ _)

/-- The last name of a virtual path. -/
theorem normalize_named {parts : List String} (hparts : normalize path = .ok parts)
    (hname : fileName path = some name) : ∃ front, parts = front ++ [toStringLossy name] := by
  have hlast : (components path).getLast? = some (.normal name) := by
    unfold fileName at hname
    split at hname
    · rename_i s hs
      rw [hs, Option.some.inj hname]
    · cases hname
  have hcomponents : normalizeComponents ((components path).dropLast ++ [.normal name]) =
      .ok parts := by
    rw [List.dropLast_append_getLast? _ hlast]
    exact hparts
  obtain ⟨front, -, rfl⟩ := normalizeComponents_concat hcomponents
  exact ⟨front, rfl⟩

/-- The place of a clip and of its staging file is no probe's. -/
theorem not_probePlaced {n : String} (h : isReolinkTestFile n = false) (P : Loc) (x : String) :
    ¬ ProbePlaced (P ++ [ofString n ++ ofString ".age" ++ ofString x]) := by
  rintro ⟨-, hprobe⟩
  have hlast : (P ++ [ofString n ++ ofString ".age" ++ ofString x]).getLastD [] =
      ofString (n ++ ".age" ++ x) := by
    simp [ofString]
  rw [hlast, toStringLossy_ofString, not_probe_age h] at hprobe
  cases hprobe

/-- **An encrypted store at the place of a clip** writes ciphertext. -/
theorem storeEncrypted_seals (hh : HomeAt t home H) {front : Loc} {n : String}
    (hl : ∀ a ∈ front ++ [ofString n], IsName a) (hprobe : isReolinkTestFile n = false)
    (mk : MkdirFault) (fault : EncryptSite → Option Errno) {seed : age.Seed} {input : Input}
    (hsent : sent input seed) :
    Seals recipients sent t (storeEncrypted
      (treeTarget mk (locText (H ++ front ++ [ofString n ++ ofString ".age"]))) fault
      (encryptStream age recipients seed input) t).1 := by
  have hage : sep ∉ ofString ".age" := by decide
  have hplace := hh.storePlace hl hage
  have heffect := (storeEncrypted_leaves hplace (hh.parents hl hage mk _ _) fault
    (encryptStream age recipients seed input)).1
  obtain ⟨-, hnew, -⟩ := storeEncrypted_frame hplace mk fault
    (encryptStream age recipients seed input)
  refine .store H _ _ (not_probePlaced hprobe _ ".reoftpd-partial")
    (by simpa [ofString] using not_probePlaced hprobe (H ++ front) "") heffect ?_
  intro M i hM
  by_cases hthere : ∃ j, t.entry M = some (.file j)
  · rcases storeEncrypted_holds mk _ fault _ t M i hM with ⟨hlt, hkept⟩ | ⟨ws, hws, hdata⟩
    · exact Or.inl ⟨heffect.same_file hthere hlt hM, hkept⟩
    · exact Or.inr ⟨input, seed, hsent, ws, hws, hdata⟩
  · obtain ⟨ws, hws, hdata⟩ := hnew M i hM fun j hj => hthere ⟨j, hj⟩
    exact Or.inr ⟨input, seed, hsent, ws, hws, hdata⟩

/-- **The store branch of a `put`** writes ciphertext. -/
theorem putStore_seals (hh : HomeAt t home H) {parts : List String}
    (hparts : normalize path = .ok parts) (hname : fileName path = some name)
    (hprobe : isReolinkTestFile (toStringLossy name) = false) (faults : PutFaults)
    {seed : age.Seed} (startPos : Nat) {input : Input} (hsent : sent input seed) :
    Seals recipients sent t (putStore (some recipients) faults seed
      (locText (H ++ parts.map ofString)) startPos input t).1 := by
  unfold putStore
  simp only
  split
  · exact seals_dirs fun O F => .refl H O F t
  · obtain ⟨front, rfl⟩ := normalize_named hparts hname
    have hl : ∀ a ∈ front.map ofString ++ [ofString (toStringLossy name)], IsName a := by
      simpa using isName_map_ofString hparts
    have hfinal : ageSuffix (locText (H ++ (front ++ [toStringLossy name]).map ofString)) =
        locText
          (H ++ front.map ofString ++ [ofString (toStringLossy name) ++ ofString ".age"]) := by
      rw [ageSuffix, List.map_append, ← List.append_assoc]
      exact locText_suffix _ _ _
    rw [hfinal]
    exact storeEncrypted_seals hh hl hprobe faults.mkdir faults.encrypt hsent

/-- **A request of a camera.** -/
theorem afterRequest_seals (hh : HomeAt t home H) {req : Request age}
    (hrole : req.user.role = .uploader home)
    (hsent : ∀ path startPos input seed faults, req.call = .put path startPos input seed faults →
      sent input seed) :
    Seals recipients sent t (afterRequest ⟨some recipients⟩ t req) := by
  obtain ⟨user, call⟩ := req
  cases call with
  | put path startPos input seed faults =>
      have hsent' : sent input seed := hsent _ _ _ _ _ rfl
      have hcase : PutCase ⟨some recipients⟩ faults seed user path startPos input t
        (ReoBackend.put ⟨some recipients⟩ faults seed user path startPos input t) := put_case
      show Seals recipients sent t
        (ReoBackend.put ⟨some recipients⟩ faults seed user path startPos input t).1
      generalize ReoBackend.put ⟨some recipients⟩ faults seed user path startPos input t = r
        at hcase ⊢
      cases hcase with
      | refused e => exact seals_dirs fun O F => .refl H O F t
      | probe home' name hrole' hname hprobe =>
          obtain rfl : home = home' := Role.uploader.inj (hrole.symm.trans hrole')
          refine .probe H _ ?_
            (putProbe_effect hh faults (isName_lossy (isName_fileName hname)) input)
          have hsplit : H ++ [quarantineDir, ofString (toStringLossy name)] =
              (H ++ [quarantineDir]) ++ [ofString (toStringLossy name)] := by simp
          rw [ProbePlaced, hsplit]
          simp [toStringLossy_ofString, hprobe]
      | store home' name resolved hrole' hname hprobe hres =>
          obtain rfl : home = home' := Role.uploader.inj (hrole.symm.trans hrole')
          obtain ⟨parts, hparts, rfl⟩ := hh.resolve hres
          exact putStore_seals hh hparts hname hprobe faults startPos hsent'
  | mkd path mk => exact seals_dirs fun O F => mkd_effect hh hrole mk path O F
  | metadata | list | get | del | rename | rmd | cwd =>
      exact seals_dirs fun O F => .refl H O F t

/-! ## Whole runs -/

/-- **Nothing lies in the clear** in `s` that has come since `t`, probes apart; and no file is a
probe under one name and none under another. -/
structure Sealed (recipients : List age.Recipient) (sent : Input → age.Seed → Prop)
    (t s : FileTree) : Prop where
  bytes : ∀ M i, s.entry M = some (.file i) → ¬ ProbePlaced M →
    t.entry M = some (.file i) ∧ s.disk.data i = t.disk.data i ∨
      Ciphertext recipients sent (s.disk.data i)
  probes : ∀ M M' i, s.entry M = some (.file i) → s.entry M' = some (.file i) →
    ProbePlaced M → ProbePlaced M'

theorem Sealed.addsDirs (h : Sealed recipients sent t s) (ha : AddsDirs s s') :
    Sealed recipients sent t s' where
  bytes M i hM hno := by
    rw [ha.data]
    exact h.bytes M i (ha.file_iff.mp hM) hno
  probes M M' i hM hM' := h.probes M M' i (ha.file_iff.mp hM) (ha.file_iff.mp hM')

/-- **A request keeps everything sealed.** -/
theorem Sealed.request (h : Sealed recipients sent t s) (hs : Seals recipients sent s s') :
    Sealed recipients sent t s' := by
  cases hs with
  | probe H L placed effect =>
      have hold : ∀ M i, M ≠ L → s'.entry M = some (.file i) → s.entry M = some (.file i) := by
        intro M i hML hM
        rcases effect.entry M hML hML with heq | ⟨-, hdir, -⟩
        · exact heq ▸ hM
        · rw [hdir] at hM
          cases hM
      refine ⟨fun M i hM hno => ?_, fun M M' i hM hM' hplaced => ?_⟩
      · have hM' := hold M i (fun heq => hno (heq ▸ placed)) hM
        -- the probe that was opened is no other file
        have hne : s.entry L ≠ some (.file i) := fun hL => hno (h.probes L M i hL hM' placed)
        rw [(effect.contents i (lt_fresh hM') hne).1]
        exact h.bytes M i hM' hno
      · by_cases hML' : M' = L
        · exact hML' ▸ placed
        · have hs' := hold M' i hML' hM'
          by_cases hML : M = L
          · subst hML
            rcases effect.opened i hM with hL | hfresh
            · exact h.probes M M' i hL hs' placed
            · exact absurd (lt_fresh hs') (Nat.not_lt.mpr hfresh)
          · exact h.probes M M' i (hold M i hML hM) hs' hplaced
  | store H O F opens binds effect holds =>
      refine ⟨fun M i hM hno => ?_, fun M M' i hM hM' hplaced => ?_⟩
      · rcases holds M i hM with ⟨hs, hkept⟩ | hcipher
        · rw [hkept]
          exact h.bytes M i hs hno
        · exact Or.inr hcipher
      · have hs : s.entry M = some (.file i) := by
          have hO : M ≠ O := fun heq => opens (heq ▸ hplaced)
          have hF : M ≠ F := fun heq => binds (heq ▸ hplaced)
          rcases effect.entry M hO hF with heq | ⟨-, hdir, -⟩
          · exact heq ▸ hM
          · rw [hdir] at hM
            cases hM
        have hold : i < s.disk.fresh := lt_fresh hs
        by_cases hMO : M' = O
        · subst hMO
          have hO := (effect.opened i hM').resolve_right (Nat.not_le.mpr hold)
          exact h.probes M M' i hs hO hplaced
        · by_cases hMF : M' = F
          · subst hMF
            rcases effect.bound i hM' with hF | hO | hfresh
            · exact h.probes M M' i hs hF hplaced
            · exact absurd (h.probes M O i hs hO hplaced) opens
            · exact absurd hold (Nat.not_lt.mpr hfresh)
          · rcases effect.entry M' hMO hMF with heq | ⟨-, hdir, -⟩
            · exact h.probes M M' i hs (heq ▸ hM') hplaced
            · rw [hdir] at hM'
              cases hM'

end Seals

section Started
variable {σ : Type} {age : Age} {env : ServiceEnv σ age} {recipients : List age.Recipient}
  {sent : Input → age.Seed → Prop} {t : FileTree} {s : Service σ}

/-- A step of the SIGHUP task makes directories at most. -/
theorem addsDirs_sighup (fault : MkdirFault) (file : Except String String) (s : Service σ) :
    AddsDirs s.tree (sighupStep env.toml age fault file s).tree := by
  have hbegin : AddsDirs s.tree (beginReload env.toml age fault file s).tree := by
    unfold beginReload
    cases load env.toml age file with
    | error e => exact .refl _
    | ok cfg =>
        have ha : AddsDirs s.tree (makeHomes fault cfg s.tree cfg.camera).1 :=
          addsDirs_makeHomes cfg.camera s.tree
        rcases hhomes : ensureHomeDirs fault cfg s.tree with ⟨tree, e | ⟨⟩⟩
        all_goals
          have htree : (makeHomes fault cfg s.tree cfg.camera).1 = tree := congrArg Prod.fst hhomes
          rw [htree] at ha
          simp only [hhomes]
          exact ha
  unfold sighupStep
  split
  · exact .refl _
  · exact .refl _
  · exact hbegin
  · exact hbegin
  · exact hbegin

/-- What an event sends, if it is an upload. -/
def Sends (sent : Input → age.Seed → Prop) (e : ServiceEvent σ age) : Prop :=
  ∀ k now path startPos input seed faults, e = .call k now (.put path startPos input seed faults) →
    sent input seed

variable [DecidableEq σ]

/-- **Every event keeps everything sealed**, in a lawful state. -/
theorem Sealed.step {e : ServiceEvent σ age} (h : Sealed recipients sent t s.tree)
    (hlaw : Lawful env t s) (hbackend : env.backend = ⟨some recipients⟩) (hsends : Sends sent e) :
    Sealed recipients sent t (s.step env e).tree := by
  cases e with
  | login k now =>
      show Sealed recipients sent t (s.login env k now).tree
      unfold Service.login
      split <;> exact h
  | quit k =>
      show Sealed recipients sent t (s.quit env k).tree
      unfold Service.quit
      split <;> exact h
  | die k | reap now => exact h
  | sighup fault file => exact h.addsDirs (addsDirs_sighup fault file s)
  | call k now c =>
      show Sealed recipients sent t (s.call env k now c).tree
      unfold Service.call
      split
      · rename_i u acct hk
        have hlogin : (s.sessions k).login = .user u acct := by rw [hk]
        have htime : Sealed recipients sent t (s.tree.atTime now) := ⟨h.bytes, h.probes⟩
        show Sealed recipients sent t (afterRequest env.backend (s.tree.atTime now) ⟨u, c⟩)
        cases hrole : u.role with
        | viewer scope =>
            have hrole' : (⟨u, c⟩ : Request age).user.role = .viewer scope := hrole
            rw [afterRequest_viewer env.backend hrole']
            exact htime
        | uploader home =>
            obtain ⟨H, hat⟩ := (hlaw.atTime now).home hlogin hrole
            have hrole' : (⟨u, c⟩ : Request age).user.role = .uploader home := hrole
            rw [hbackend]
            refine htime.request (afterRequest_seals hat hrole' ?_)
            intro path startPos input seed faults hcall
            exact hsends k now path startPos input seed faults (by rw [← hcall])
      · exact h

/-- **A server started with `[encryption]` writes no footage in the clear.**  In every run of it,
whatever is reloaded: a file that does not lie at the place of a probe was there when the server
started, with the bytes it has, or holds a piece of a ciphertext, for the recipients of the
configuration the server started with, of what a session has sent. -/
theorem started_encrypted {fault : MkdirFault} {cfg : Config} {t' : FileTree} {enc : EncryptionCfg}
    (hvalid : cfg.validate age = .ok ()) (henc : cfg.encryption = some enc)
    (hbackend : buildBackend age cfg = .ok env.backend) (hfits : Fits t cfg)
    (hstart : ensureHomeDirs fault cfg t = (t', .ok ()))
    (hprobes : ∀ M M' i, t.entry M = some (.file i) → t.entry M' = some (.file i) →
      ProbePlaced M → ProbePlaced M')
    {events : List (ServiceEvent σ age)} (hevents : ∀ e ∈ events, ReadsFitting env t e) :
    let s := run (Service.step env) (startService cfg t') events
    ∃ recipients, parseRecipients age enc.recipients = .ok recipients ∧
      ∀ M i, s.tree.entry M = some (.file i) → ¬ ProbePlaced M →
        t.entry M = some (.file i) ∧ s.tree.disk.data i = t.disk.data i ∨
          ∃ k now path startPos input seed faults ws,
            .call k now (.put path startPos input seed faults) ∈ events ∧
              ws <+: (encryptStream age recipients seed input).chunks ∧
                s.tree.disk.data i = ws.flatten := by
  intro s
  obtain ⟨backend, hbuilt, hencrypts⟩ := buildBackend_valid hvalid
  obtain ⟨recipients, hparse, rfl⟩ := hencrypts enc henc
  have hrecipients : env.backend = ⟨some recipients⟩ :=
    Except.ok.inj (hbackend.symm.trans hbuilt)
  let sent : Input → age.Seed → Prop := fun input seed => ∃ k now path startPos faults,
    ServiceEvent.call k now (.put path startPos input seed faults) ∈ events
  have hsent : ∀ e ∈ events, ReadsFitting env t e ∧ Sends sent e := by
    refine fun e he => ⟨hevents e he, ?_⟩
    rintro k now path startPos input seed faults rfl
    exact ⟨k, now, path, startPos, faults, he⟩
  have hinit : Sealed recipients sent t (startService cfg t' : Service σ).tree := by
    have hnothing : Sealed recipients sent t t := ⟨fun M i hM _ => Or.inl ⟨hM, rfl⟩, hprobes⟩
    exact hnothing.addsDirs (homesThere_of_ensureHomeDirs hfits hstart).1
  have hstep : ∀ (s : Service σ) (e : ServiceEvent σ age),
      Lawful env t s ∧ Sealed recipients sent t s.tree → ReadsFitting env t e ∧ Sends sent e →
        Lawful env t (s.step env e) ∧ Sealed recipients sent t (s.step env e).tree :=
    fun s e hs he => ⟨hs.1.step he.1, hs.2.step hs.1 hrecipients he.2⟩
  have hrun : Lawful env t s ∧ Sealed recipients sent t s.tree :=
    invariant_run hstep ⟨lawful_start hvalid hfits hstart, hinit⟩ (along_of_forall_mem hsent _)
  refine ⟨recipients, hparse, fun M i hM hno => ?_⟩
  rcases hrun.2.bytes M i hM hno with hkept | ⟨input, seed, hcall, ws, hws, hdata⟩
  · exact Or.inl hkept
  · obtain ⟨k, now, path, startPos, faults, he⟩ := hcall
    exact Or.inr ⟨k, now, path, startPos, input, seed, faults, ws, he, hws, hdata⟩

end Started

/-- The site of the two cameras, with a key. -/
def sealedConfig : Config := { guestConfig with encryption := some ⟨["age1"]⟩ }

/-- What the sessions of the site send, on the backend of that key. -/
def sealedSite : ServiceEnv Bool shiftAge := { guestSite with backend := ⟨some [()]⟩ }

/-- The clip of the camera is a ciphertext. -/
theorem guarded_upload_sealed :
    let s := run (Service.step sealedSite) (startService sealedConfig guestStart) guestEvents
    ∃ recipients, parseRecipients shiftAge ["age1"] = .ok recipients ∧
      ∀ M i, s.tree.entry M = some (.file i) → ¬ ProbePlaced M →
        FileTree.bare.entry M = some (.file i) ∧ s.tree.disk.data i = FileTree.bare.disk.data i ∨
          ∃ k now path startPos input seed faults ws,
            .call k now (.put path startPos input seed faults) ∈ guestEvents ∧
              ws <+: (encryptStream shiftAge recipients seed input).chunks ∧
                s.tree.disk.data i = ws.flatten := by
  have hfree : ∀ p, FileTree.bare.LinkFree p := linkFree_of_no_links no_links_bare
  have hfits : Fits .bare sealedConfig := ⟨⟨hfree _, fun cam _ => hfree _⟩, by decide +kernel⟩
  have hmade : ensureHomeDirs (fun _ _ => none) sealedConfig .bare = (guestStart, .ok ()) :=
    Prod.ext rfl (by decide +kernel)
  have hfitting : ∀ e ∈ guestEvents, ReadsFitting sealedSite .bare e := by
    intro e he
    simp only [guestEvents, List.mem_cons, List.not_mem_nil, or_false] at he
    rcases he with rfl | rfl | rfl | rfl | rfl | rfl | rfl | rfl
    all_goals first | trivial | (intro cfg hcfg; cases hcfg)
  exact started_encrypted (by decide +kernel) rfl rfl hfits hmade
    (fun M M' i hM => absurd (lt_fresh hM) (Nat.not_lt_zero i)) hfitting

end Reoftpd

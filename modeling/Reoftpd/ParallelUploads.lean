import Reoftpd.NameRace
import Reoftpd.SameNames
import Reoftpd.SoloRuns

/-!
# Uploads of different names, in parallel

Any number of uploads of pairwise different names on one disk, one file operation at a
time, scheduled in any order, each with failures of its own.  **Each ends as if it were
alone** (`parallel_uploads`): once an upload has had as many turns as it takes alone, it
has returned what the whole call alone returns, and its final and its staging name are
bound to what the whole call alone leaves there, byte for byte.

A step on a disk depends on the two names of its call only, and goes alike on two disks
where these look the same (`Simulates.storeStep`, `Simulates.encryptedStep`).  What makes
the calls leave each other alone is that a call that has its staging file open has it
under its own staging name, and that no file has names of two calls.
-/
namespace Reoftpd
open Interleaving Runs

/-! ## One step on two targets -/

section Steps
variable {S S' H H' : Type} {ops : TargetOps S H} {ops' : TargetOps S' H'} {R : S → S' → Prop}
  {J : H → H' → S → S' → Prop} {s : S} {s' : S'}

/-- Two `store_stream` calls have come equally far, on states that are alike. -/
inductive StoreAlike (R : S → S' → Prop) (J : H → H' → S → S' → Prop) (s : S) (s' : S') :
    StorePc H → StorePc H' → Prop
  | start (hR : R s s') : StoreAlike R J s s' .start .start
  | stat (hR : R s s') : StoreAlike R J s s' .stat .stat
  | createParent (hR : R s s') : StoreAlike R J s s' .createParent .createParent
  | openStaging (hR : R s s') : StoreAlike R J s s' .openStaging .openStaging
  | copy (h : H) (h' : H') (rest : Input) (n : Nat) (hJ : J h h' s s') :
      StoreAlike R J s s' (.copy h rest n) (.copy h' rest n)
  | flush (n : Nat) (hR : R s s') : StoreAlike R J s s' (.flush n) (.flush n)
  | link (n : Nat) (hR : R s s') : StoreAlike R J s s' (.link n) (.link n)
  | remove (r : StoreResult) (hR : R s s') : StoreAlike R J s s' (.remove r) (.remove r)
  | done (r : StoreResult) (hR : R s s') : StoreAlike R J s s' (.done r) (.done r)

/-- Two `store_encrypted` calls have come equally far, on states that are alike. -/
inductive EncryptAlike (R : S → S' → Prop) (J : H → H' → S → S' → Prop) (s : S) (s' : S') :
    EncryptPc H → EncryptPc H' → Prop
  | start (hR : R s s') : EncryptAlike R J s s' .start .start
  | createParent (hR : R s s') : EncryptAlike R J s s' .createParent .createParent
  | create (hR : R s s') : EncryptAlike R J s s' .create .create
  | write (h : H) (h' : H') (off k : Nat) (rest : List Bytes) (hJ : J h h' s s') :
      EncryptAlike R J s s' (.write h off k rest) (.write h' off k rest)
  | link (n : Nat) (hR : R s s') : EncryptAlike R J s s' (.link n) (.link n)
  | remove (r : StoreResult) (hR : R s s') : EncryptAlike R J s s' (.remove r) (.remove r)
  | done (r : StoreResult) (hR : R s s') : EncryptAlike R J s s' (.done r) (.done r)

theorem StoreAlike.site {p : StorePc H} {p' : StorePc H'} (h : StoreAlike R J s s' p p') :
    p.site = p'.site := by
  cases h <;> rfl

theorem EncryptAlike.site {p : EncryptPc H} {p' : EncryptPc H'} (h : EncryptAlike R J s s' p p') :
    p.site = p'.site := by
  cases h with
  | write x x' off k rest hJ => cases rest <;> rfl
  | _ => rfl

/-- Places of calls stay alike where the states do. -/
theorem StoreAlike.imp {e : S} {p : StorePc H} {p' : StorePc H'} (h : StoreAlike R J s s' p p')
    (hR : R s s' → R e s') (hJ : ∀ x x', J x x' s s' → J x x' e s') : StoreAlike R J e s' p p' := by
  cases h with
  | start h => exact .start (hR h)
  | stat h => exact .stat (hR h)
  | createParent h => exact .createParent (hR h)
  | openStaging h => exact .openStaging (hR h)
  | copy x x' rest n h => exact .copy x x' rest n (hJ x x' h)
  | flush n h => exact .flush n (hR h)
  | link n h => exact .link n (hR h)
  | remove r h => exact .remove r (hR h)
  | done r h => exact .done r (hR h)

theorem EncryptAlike.imp {e : S} {p : EncryptPc H} {p' : EncryptPc H'}
    (h : EncryptAlike R J s s' p p') (hR : R s s' → R e s')
    (hJ : ∀ x x', J x x' s s' → J x x' e s') : EncryptAlike R J e s' p p' := by
  cases h with
  | start h => exact .start (hR h)
  | createParent h => exact .createParent (hR h)
  | create h => exact .create (hR h)
  | write x x' off k rest h => exact .write x x' off k rest (hJ x x' h)
  | link n h => exact .link n (hR h)
  | remove r h => exact .remove r (hR h)
  | done r h => exact .done r (hR h)

/-- The hard link, and what its outcomes lead to. -/
theorem Simulates.linkStaging (h : Simulates ops ops' R J) (f : Option Errno) (hs : R s s')
    (n : Nat) :
    R (Reoftpd.linkStaging ops f s n).1 (Reoftpd.linkStaging ops' f s' n).1 ∧
      (Reoftpd.linkStaging ops f s n).2 = (Reoftpd.linkStaging ops' f s' n).2 := by
  unfold Reoftpd.linkStaging
  rcases ((h.hardLink s s' hs).attempt f).cases with ⟨e, hl, hl'⟩ | ⟨t, t', hl, hl', hR⟩
  · rw [hl, hl']
    cases e <;> exact ⟨hs, rfl⟩
  · rw [hl, hl']
    exact ⟨hR, rfl⟩

/-- **A step of `store_stream` goes the same way** on two targets of which one simulates the
other. -/
theorem Simulates.storeStep (h : Simulates ops ops' R J) (startPos : Nat) (input : Input)
    {p : StorePc H} {p' : StorePc H'} (hp : StoreAlike R J s s' p p') (f : Option Errno) :
    StoreAlike R J (Reoftpd.storeStep ops startPos input s p f).1
      (Reoftpd.storeStep ops' startPos input s' p' f).1
      (Reoftpd.storeStep ops startPos input s p f).2
      (Reoftpd.storeStep ops' startPos input s' p' f).2 := by
  cases hp with
  | start hR =>
      simp only [Reoftpd.storeStep, h.tryExists s s' hR]
      rcases attempt f (ops'.tryExists s') with e | (_ | _)
      · exact .done _ hR
      · exact .stat hR
      · exact .done _ hR
  | stat hR =>
      simp only [Reoftpd.storeStep, h.stagingLen s s' hR]
      rcases judge startPos (attempt f (ops'.stagingLen s')) with e | (_ | _ | _)
      · exact .done _ hR
      · exact .createParent hR
      · exact .remove _ hR
      · exact .remove _ hR
  | createParent hR =>
      obtain ⟨hmade, hr⟩ := h.makeParent f hR
      simp only [Reoftpd.storeStep]
      rcases hmake : Reoftpd.makeParent ops f s with ⟨u, r⟩
      rcases hmake' : Reoftpd.makeParent ops' f s' with ⟨u', r'⟩
      rw [hmake, hmake'] at hmade hr
      obtain rfl : r = r' := hr
      cases r with
      | error e => exact .done _ hmade
      | ok _ => exact .openStaging hmade
  | openStaging hR =>
      simp only [Reoftpd.storeStep]
      rcases ((h.openAppend s s' hR).attempt f).cases with ⟨e, ho, ho'⟩ | ⟨a, b, ho, ho', hJ⟩
      · rw [ho, ho']
        exact .done _ hR
      · rw [ho, ho']
        exact .copy _ _ _ _ hJ
  | copy x x' rest n hJ =>
      rcases rest with _ | ⟨e | b, rest⟩
      · exact .flush n (h.written x x' s s' hJ)
      · exact .remove _ (h.written x x' s s' hJ)
      · exact .copy x x' rest _ (h.append x x' s s' b hJ)
  | flush n hR =>
      cases f with
      | none => exact .link n hR
      | some e => exact .done _ hR
  | link n hR =>
      obtain ⟨hlinked, hr⟩ := h.linkStaging f hR n
      simp only [Reoftpd.storeStep, hr]
      exact .remove _ hlinked
  | remove r hR => exact .done r (h.dropStaging f hR)
  | done r hR => exact .done r hR

/-- **A step of `store_encrypted` goes the same way.** -/
theorem Simulates.encryptedStep (h : Simulates ops ops' R J) (out : Encrypted)
    {p : EncryptPc H} {p' : EncryptPc H'} (hp : EncryptAlike R J s s' p p') (f : Option Errno) :
    EncryptAlike R J (Reoftpd.encryptedStep ops out s p f).1
      (Reoftpd.encryptedStep ops' out s' p' f).1
      (Reoftpd.encryptedStep ops out s p f).2
      (Reoftpd.encryptedStep ops' out s' p' f).2 := by
  cases hp with
  | start hR =>
      simp only [Reoftpd.encryptedStep, h.tryExists s s' hR]
      rcases attempt f (ops'.tryExists s') with e | (_ | _)
      · exact .createParent hR
      · exact .createParent hR
      · exact .done _ hR
  | createParent hR =>
      obtain ⟨hmade, hr⟩ := h.makeParent f hR
      simp only [Reoftpd.encryptedStep]
      rcases hmake : Reoftpd.makeParent ops f s with ⟨u, r⟩
      rcases hmake' : Reoftpd.makeParent ops' f s' with ⟨u', r'⟩
      rw [hmake, hmake'] at hmade hr
      obtain rfl : r = r' := hr
      cases r with
      | error e => exact .done _ hmade
      | ok _ => exact .create hmade
  | create hR =>
      simp only [Reoftpd.encryptedStep]
      rcases ((h.createFile s s' hR).attempt f).cases with ⟨e, ho, ho'⟩ | ⟨a, b, ho, ho', hJ⟩
      · rw [ho, ho']
        exact .done _ hR
      · rw [ho, ho']
        exact .write _ _ _ _ _ hJ
  | write x x' off k rest hJ =>
      cases rest with
      | nil =>
          simp only [Reoftpd.encryptedStep]
          have hR := h.written x x' s s' hJ
          cases out.outcome with
          | ok n => exact .link n hR
          | error e => exact .done _ hR
      | cons b rest =>
          cases f with
          | none => exact .write x x' _ _ rest (h.writeAt x x' s s' off b hJ)
          | some e => exact .done _ (h.written x x' s s' hJ)
  | link n hR =>
      obtain ⟨hlinked, hr⟩ := h.linkStaging f hR n
      simp only [Reoftpd.encryptedStep, hr]
      exact .remove _ hlinked
  | remove r hR => exact .done r (h.dropStaging f hR)
  | done r hR => exact .done r hR

end Steps

/-! ## On a disk -/

section Disk
variable {N T : Type} [DecidableEq N] {final staging : N} {d d' : Disk N T} {h h' : Nat}
  {f : Option Errno}

/-- The two names of a call. -/
def ownNames (final staging : N) : Set N := {final, staging}

omit [DecidableEq N] in
theorem final_mem (final staging : N) : final ∈ ownNames final staging := Or.inl rfl

omit [DecidableEq N] in
theorem staging_mem (final staging : N) : staging ∈ ownNames final staging := Or.inr rfl

/-- Two calls have the files open that they have under their staging name. -/
structure Holding (final staging : N) (h h' : Nat) (d d' : Disk N T) : Prop where
  same : Disk.SameNames (ownNames final staging) d d'
  held : d.lookup staging = some (.file h)
  held' : d'.lookup staging = some (.file h')

theorem Holding.setData (hd : Holding final staging h h' d d') (b : Bytes) :
    Holding final staging h h' (d.setData h b) (d'.setData h' b) :=
  ⟨hd.same.setData (staging_mem ..) hd.held hd.held' b, hd.held, hd.held'⟩

theorem Holding.data (hd : Holding final staging h h' d d') : d.data h = d'.data h' := by
  obtain ⟨j, hj, hbytes⟩ := hd.same.file (staging_mem ..) hd.held
  rw [hd.held'] at hj
  cases hj
  exact hbytes

theorem holding_create (hsame : Disk.SameNames (ownNames final staging) d d') :
    Holding final staging d.fresh d'.fresh (d.create staging) (d'.create staging) :=
  ⟨hsame.create staging, Disk.lookup_create_self, Disk.lookup_create_self⟩

/-- **The operations of a call** go the same way where its two names look the same. -/
theorem simulates_disk (final staging : N) :
    Simulates (diskTarget (T := T) final staging) (diskTarget final staging)
      (Disk.SameNames (ownNames final staging)) (Holding final staging) where
  tryExists d d' hR := by
    have hentry := hR.entry final (final_mem ..)
    show Except.ok (d.lookup final).isSome = Except.ok (d'.lookup final).isSome
    generalize d.lookup final = x at hentry ⊢
    generalize d'.lookup final = y at hentry ⊢
    cases hentry <;> rfl
  stagingLen d d' hR := by
    have hentry := hR.entry staging (staging_mem ..)
    simp only [diskTarget, hR.dirSize]
    generalize d.lookup staging = x at hentry ⊢
    generalize d'.lookup staging = y at hentry ⊢
    cases hentry with
    | file i j hbytes => simp only [hbytes]
    | _ => rfl
  createParent d d' hR := ⟨hR, rfl⟩
  openAppend d d' hR := by
    have hentry := hR.entry staging (staging_mem ..)
    simp only [diskTarget, Disk.openAppend]
    generalize hx : d.lookup staging = x at hentry ⊢
    generalize hy : d'.lookup staging = y at hentry ⊢
    cases hentry with
    | absent => exact holding_create hR
    | dir => exact rfl
    | link target => exact rfl
    | file i j _ => exact ⟨hR, hx, hy⟩
  createFile d d' hR := by
    have hentry := hR.entry staging (staging_mem ..)
    simp only [diskTarget, Disk.openTruncate]
    generalize hx : d.lookup staging = x at hentry ⊢
    generalize hy : d'.lookup staging = y at hentry ⊢
    cases hentry with
    | absent => exact holding_create hR
    | dir => exact rfl
    | link target => exact rfl
    | file i j _ =>
        have hheld : Holding final staging i j d d' := ⟨hR, hx, hy⟩
        exact hheld.setData []
  append h h' d d' b hJ := by
    show Holding final staging h h' (d.setData h (d.data h ++ b)) (d'.setData h' (d'.data h' ++ b))
    rw [hJ.data]
    exact hJ.setData _
  writeAt h h' d d' off b hJ := by
    show Holding final staging h h' (d.setData h (Disk.overwrite (d.data h) off b))
      (d'.setData h' (Disk.overwrite (d'.data h') off b))
    rw [hJ.data]
    exact hJ.setData _
  written h h' d d' hJ := hJ.same
  hardLink d d' hR := by
    show Agree _ (d.hardLink staging final) (d'.hardLink staging final)
    have hsource := hR.entry staging (staging_mem ..)
    have htarget := hR.entry final (final_mem ..)
    rcases d.hardLink_cases staging final with ⟨hs, hl⟩ | ⟨x, hx, hcases⟩
    · rw [hl, Disk.hardLink_notFound (hR.absent (staging_mem ..) hs)]
      exact rfl
    · rcases d'.hardLink_cases staging final with ⟨hs', -⟩ | ⟨y, hy, hcases'⟩
      · rw [hR.symm.absent (staging_mem ..) hs'] at hx
        cases hx
      · have hdir : x.isDir = y.isDir := by
          rw [hx, hy] at hsource
          cases hsource <;> rfl
        have hfree : d.lookup final = none ↔ d'.lookup final = none :=
          ⟨hR.absent (final_mem ..), hR.symm.absent (final_mem ..)⟩
        rcases hcases with ⟨hb, hl⟩ | ⟨hn, hxdir, hl⟩ | ⟨hn, hxdir, hlt, hl⟩
        · rcases hcases' with ⟨-, hl'⟩ | ⟨hn', -⟩ | ⟨hn', -⟩
          · rw [hl, hl']
            exact rfl
          · exact absurd (hfree.mpr hn') hb
          · exact absurd (hfree.mpr hn') hb
        · rcases hcases' with ⟨hb', -⟩ | ⟨-, -, hl'⟩ | ⟨-, hydir, -⟩
          · exact absurd (hfree.mp hn) hb'
          · rw [hl, hl']
            exact rfl
          · simp [hdir, hydir] at hxdir
        · rcases hcases' with ⟨hb', -⟩ | ⟨-, hydir, -⟩ | ⟨-, -, hlt', hl'⟩
          · exact absurd (hfree.mp hn) hb'
          · simp [hdir, hydir] at hxdir
          · rw [hl, hl']
            exact hR.bind (staging_mem ..) hx hy final hlt hlt'
  removeStaging d d' hR := by
    have hentry := hR.entry staging (staging_mem ..)
    simp only [diskTarget, Disk.discard, Disk.unlink]
    generalize d.lookup staging = x at hentry ⊢
    generalize d'.lookup staging = y at hentry ⊢
    cases hentry with
    | absent => exact hR
    | dir => exact hR
    | link target => exact hR.erase staging
    | file i j _ => exact hR.erase staging

/-- Places of calls that are alike on two disks are alike the other way round. -/
theorem StoreAlike.symm {p p' : StorePc Nat}
    (h : StoreAlike (Disk.SameNames (ownNames final staging)) (Holding final staging) d d' p p') :
    StoreAlike (Disk.SameNames (ownNames final staging)) (Holding final staging) d' d p' p := by
  cases h with
  | start h => exact .start h.symm
  | stat h => exact .stat h.symm
  | createParent h => exact .createParent h.symm
  | openStaging h => exact .openStaging h.symm
  | copy x x' rest n h => exact .copy x' x rest n ⟨h.same.symm, h.held', h.held⟩
  | flush n h => exact .flush n h.symm
  | link n h => exact .link n h.symm
  | remove r h => exact .remove r h.symm
  | done r h => exact .done r h.symm

theorem EncryptAlike.symm {p p' : EncryptPc Nat}
    (h : EncryptAlike (Disk.SameNames (ownNames final staging)) (Holding final staging) d d' p p') :
    EncryptAlike (Disk.SameNames (ownNames final staging)) (Holding final staging) d' d p' p := by
  cases h with
  | start h => exact .start h.symm
  | createParent h => exact .createParent h.symm
  | create h => exact .create h.symm
  | write x x' off k rest h => exact .write x' x off k rest ⟨h.same.symm, h.held', h.held⟩
  | link n h => exact .link n h.symm
  | remove r h => exact .remove r h.symm
  | done r h => exact .done r h.symm

/-- A hard link works on the two names. -/
theorem onlyAt_hardLink (hl : d.hardLink staging final = .ok d') :
    Disk.OnlyAt (ownNames final staging) d d' := by
  obtain ⟨x, hlt, hs, -, -, rfl⟩ := Disk.hardLink_ok hl
  exact Disk.onlyAt_bind (final_mem ..) (staging_mem ..) hs hlt

/-- **A step of `store_stream` works on its two names only**, if the call has the file open
that it has under its staging name. -/
theorem StoreAlike.onlyAt {p : StorePc Nat}
    (h : StoreAlike (Disk.SameNames (ownNames final staging)) (Holding final staging) d d p p)
    (startPos : Nat) (input : Input) :
    Disk.OnlyAt (ownNames final staging) d
      (storeStep (diskTarget final staging) startPos input d p f).1 := by
  have m : StoreMove final staging input d p f
      (storeStep (diskTarget final staging) startPos input d p f) := storeStep_move
  generalize storeStep (diskTarget final staging) startPos input d p f = r at m ⊢
  cases m with
  | stay p q f hq => exact .refl _ _
  | opened i hi => exact .refl _ _
  | created hn => exact Disk.onlyAt_create (staging_mem ..)
  | wrote x b rest n =>
      cases h with
      | copy _ _ _ _ hJ => exact Disk.onlyAt_setData (staging_mem ..) hJ.held _
  | linked n d' hl => exact onlyAt_hardLink hl
  | removed r f => exact Disk.onlyAt_erase (staging_mem ..)

/-- **A step of `store_encrypted` works on its two names only.** -/
theorem EncryptAlike.onlyAt {p : EncryptPc Nat}
    (h : EncryptAlike (Disk.SameNames (ownNames final staging)) (Holding final staging) d d p p)
    (out : Encrypted) :
    Disk.OnlyAt (ownNames final staging) d
      (encryptedStep (diskTarget final staging) out d p f).1 := by
  have m : EncryptMove final staging out d p f _ _ := encryptedStep_move
  generalize (encryptedStep (diskTarget final staging) out d p f).1 = e at m ⊢
  generalize (encryptedStep (diskTarget final staging) out d p f).2 = q at m
  cases m with
  | stay p q f hq => exact .refl _ _
  | emptied i hi => exact Disk.onlyAt_setData (staging_mem ..) (Disk.ino_eq_some.mp hi) _
  | created hn => exact Disk.onlyAt_create (staging_mem ..)
  | wrote x off k b rest =>
      cases h with
      | write _ _ _ _ _ hJ => exact Disk.onlyAt_setData (staging_mem ..) hJ.held _
  | encrypted x off k n f hn => exact .refl _ _
  | linked n d' hl => exact onlyAt_hardLink hl
  | removed r f => exact Disk.onlyAt_erase (staging_mem ..)
  | returned p r f hp => exact .refl _ _

end Disk

/-! ## Calls in parallel -/

section Parallel
variable {ι N T : Type} [DecidableEq N] {final staging : ι → N} {d e : Disk N T}

/-- **Every call has names of its own**: no name belongs to two calls, and no file has names
of two. -/
structure NamesApart (final staging : ι → N) (d : Disk N T) : Prop where
  names : ∀ i j, i ≠ j →
    ∀ n ∈ ownNames (final i) (staging i), n ∉ ownNames (final j) (staging j)
  files : ∀ i j, i ≠ j →
    Disk.NoShared (ownNames (final i) (staging i)) (ownNames (final j) (staging j)) d

/-- Work on the names of one call leaves every call names of its own. -/
theorem NamesApart.onlyAt (h : NamesApart final staging d) {i : ι}
    (honly : Disk.OnlyAt (ownNames (final i) (staging i)) d e) : NamesApart final staging e where
  names := h.names
  files j k hjk := by
    by_cases hji : j = i
    · subst hji
      exact ((h.files k j hjk.symm).onlyAt (h.names k j hjk.symm) honly).symm
    · by_cases hki : k = i
      · subst hki
        exact (h.files j k hjk).onlyAt (h.names j k hjk) honly
      · exact (h.files j k hjk).onlyAt_third (h.names j i hji) (h.names k i hki) honly

/-- A turn of a `store_stream` call. -/
def streamTurn (final staging : ι → N) (calls : ι → StoreCall)
    (faults : ι → StoreSite → Option Errno)
    (i : ι) : Disk N T × StorePc Nat → Disk N T × StorePc Nat :=
  soloStep (diskTarget (final i) (staging i)) (faults i) (calls i).startPos (calls i).input

/-- A turn of a `store_encrypted` call. -/
def encryptTurn (final staging : ι → N) (outs : ι → Encrypted)
    (faults : ι → EncryptSite → Option Errno) (i : ι) :
    Disk N T × EncryptPc Nat → Disk N T × EncryptPc Nat :=
  soloEncryptedStep (diskTarget (final i) (staging i)) (faults i) (outs i)

variable {calls : ι → StoreCall} {streamFaults : ι → StoreSite → Option Errno}
  {outs : ι → Encrypted} {encryptFaults : ι → EncryptSite → Option Errno}

/-- What makes two `store_stream` calls on their own names alike. -/
def StreamAlike (final staging : ι → N) (i : ι) (x y : Disk N T × StorePc Nat) : Prop :=
  StoreAlike (Disk.SameNames (ownNames (final i) (staging i))) (Holding (final i) (staging i))
    x.1 y.1 x.2 y.2

/-- What makes two `store_encrypted` calls on their own names alike. -/
def EncryptionAlike (final staging : ι → N) (i : ι) (x y : Disk N T × EncryptPc Nat) : Prop :=
  EncryptAlike (Disk.SameNames (ownNames (final i) (staging i))) (Holding (final i) (staging i))
    x.1 y.1 x.2 y.2

/-- The file a call holds is there after work on the names of another. -/
theorem Holding.other {i j : ι} (h : NamesApart final staging d) (hij : i ≠ j)
    (honly : Disk.OnlyAt (ownNames (final j) (staging j)) d e) {x x' : Nat} {d' : Disk N T}
    (hJ : Holding (final i) (staging i) x x' d d') : Holding (final i) (staging i) x x' e d' := by
  refine ⟨hJ.same.other (h.names i j hij) (h.files i j hij) honly, ?_, hJ.held'⟩
  rw [honly.entry _ (h.names i j hij _ (staging_mem ..))]
  exact hJ.held

/-- **`store_stream` calls leave each other alone.** -/
theorem leaveAlone_stream (calls : ι → StoreCall) (faults : ι → StoreSite → Option Errno) :
    LeaveAlone (streamTurn final staging calls faults) (NamesApart (T := T) final staging)
      (StreamAlike final staging) where
  symm i x y h := StoreAlike.symm h
  keeps i x hx h := hx.onlyAt (StoreAlike.onlyAt h _ _)
  own i x y h := by
    unfold StreamAlike streamTurn soloStep
    rw [StoreAlike.site h]
    exact (simulates_disk _ _).storeStep _ _ h _
  other i j x y q hij hx hq h := by
    have honly := StoreAlike.onlyAt (f := q.site.bind (faults j)) hq (calls j).startPos
      (calls j).input
    exact StoreAlike.imp h (fun hR => hR.other (hx.names i j hij) (hx.files i j hij) honly)
      fun _ _ hJ => hJ.other hx hij honly

/-- **`store_encrypted` calls leave each other alone.** -/
theorem leaveAlone_encrypted (outs : ι → Encrypted) (faults : ι → EncryptSite → Option Errno) :
    LeaveAlone (encryptTurn final staging outs faults) (NamesApart (T := T) final staging)
      (EncryptionAlike final staging) where
  symm i x y h := EncryptAlike.symm h
  keeps i x hx h := hx.onlyAt (EncryptAlike.onlyAt h _)
  own i x y h := by
    unfold EncryptionAlike encryptTurn soloEncryptedStep
    rw [EncryptAlike.site h]
    exact (simulates_disk _ _).encryptedStep _ h _
  other i j x y q hij hx hq h := by
    have honly := EncryptAlike.onlyAt (f := q.site.bind (faults j)) hq (outs j)
    exact EncryptAlike.imp h (fun hR => hR.other (hx.names i j hij) (hx.files i j hij) honly)
      fun _ _ hJ => hJ.other hx hij honly

/-- A call has ended as the whole call ends alone: with the same result, and the same bytes
under its two names. -/
structure EndsAs (final staging : N) (returned : Option StoreResult) (d : Disk N T)
    (alone : Disk N T × StoreResult) : Prop where
  result : returned = some alone.2
  bound : ∀ n ∈ ownNames final staging, d.lookup n = none ↔ alone.1.lookup n = none
  bytes : ∀ n ∈ ownNames final staging, d.read n = alone.1.read n

theorem endsAs_of_sameNames {final staging : N} {alone : Disk N T × StoreResult}
    (h : Disk.SameNames (ownNames final staging) d alone.1) :
    EndsAs final staging (some alone.2) d alone :=
  ⟨rfl, fun _ hn => ⟨h.absent hn, h.symm.absent hn⟩, fun _ hn => h.read hn⟩

variable [DecidableEq ι]

/-- The `store_stream` calls after the turns of a schedule. -/
def afterStreams (final staging : ι → N) (calls : ι → StoreCall)
    (faults : ι → StoreSite → Option Errno) (d : Disk N T) (schedule : List ι) :
    Joint ι (Disk N T) (StorePc Nat) :=
  run (turn (streamTurn final staging calls faults)) ⟨d, fun _ => .start⟩ schedule

/-- The `store_encrypted` calls after the turns of a schedule. -/
def afterEncryptions (final staging : ι → N) (outs : ι → Encrypted)
    (faults : ι → EncryptSite → Option Errno) (d : Disk N T) (schedule : List ι) :
    Joint ι (Disk N T) (EncryptPc Nat) :=
  run (turn (encryptTurn final staging outs faults)) ⟨d, fun _ => .start⟩ schedule

theorem streams_end (h : NamesApart final staging d) {schedule : List ι} {i : ι}
    (hturns : (calls i).input.length + 8 ≤ schedule.count i) :
    EndsAs (final i) (staging i)
      ((afterStreams final staging calls streamFaults d schedule).loc i).returned
      (afterStreams final staging calls streamFaults d schedule).shared
      (storeStream (diskTarget (final i) (staging i)) (streamFaults i) (calls i).startPos
        (calls i).input d) := by
  have hfits : Fits (NamesApart final staging) (StreamAlike final staging)
      (⟨d, fun _ => .start⟩ : Joint ι (Disk N T) (StorePc Nat)) :=
    ⟨h, fun j => StoreAlike.start (.refl _ d)⟩
  have halike := (leaveAlone_stream calls streamFaults).run_rests hfits (storeSteps_eq d) rfl hturns
  simp only [StreamAlike, Joint.at] at halike
  unfold afterStreams
  generalize (run (turn (streamTurn final staging calls streamFaults))
    ⟨d, fun _ => .start⟩ schedule).loc i = p at halike ⊢
  cases halike with
  | done r hR => exact endsAs_of_sameNames hR

theorem encryptions_end (h : NamesApart final staging d) {schedule : List ι} {i : ι}
    (hturns : (outs i).chunks.length + 6 ≤ schedule.count i) :
    EndsAs (final i) (staging i)
      ((afterEncryptions final staging outs encryptFaults d schedule).loc i).returned
      (afterEncryptions final staging outs encryptFaults d schedule).shared
      (storeEncrypted (diskTarget (final i) (staging i)) (encryptFaults i) (outs i) d) := by
  have hfits : Fits (NamesApart final staging) (EncryptionAlike final staging)
      (⟨d, fun _ => .start⟩ : Joint ι (Disk N T) (EncryptPc Nat)) :=
    ⟨h, fun j => EncryptAlike.start (.refl _ d)⟩
  have halike :=
    (leaveAlone_encrypted outs encryptFaults).run_rests hfits (encryptedSteps_eq d) rfl hturns
  simp only [EncryptionAlike, Joint.at] at halike
  unfold afterEncryptions
  generalize (run (turn (encryptTurn final staging outs encryptFaults))
    ⟨d, fun _ => .start⟩ schedule).loc i = p at halike ⊢
  cases halike with
  | done r hR => exact endsAs_of_sameNames hR

/-- **Uploads of different names do not disturb each other.**  Whatever the schedule and
whatever fails, a call that has had as many turns as it takes alone ends as it ends alone. -/
theorem parallel_uploads (h : NamesApart final staging d) (calls : ι → StoreCall)
    (streamFaults : ι → StoreSite → Option Errno) (outs : ι → Encrypted)
    (encryptFaults : ι → EncryptSite → Option Errno) (schedule : List ι) (i : ι) :
    ((calls i).input.length + 8 ≤ schedule.count i →
      EndsAs (final i) (staging i)
        ((afterStreams final staging calls streamFaults d schedule).loc i).returned
        (afterStreams final staging calls streamFaults d schedule).shared
        (storeStream (diskTarget (final i) (staging i)) (streamFaults i) (calls i).startPos
          (calls i).input d)) ∧
    ((outs i).chunks.length + 6 ≤ schedule.count i →
      EndsAs (final i) (staging i)
        ((afterEncryptions final staging outs encryptFaults d schedule).loc i).returned
        (afterEncryptions final staging outs encryptFaults d schedule).shared
        (storeEncrypted (diskTarget (final i) (staging i)) (encryptFaults i) (outs i) d)) :=
  ⟨streams_end h, encryptions_end h⟩

end Parallel

end Reoftpd

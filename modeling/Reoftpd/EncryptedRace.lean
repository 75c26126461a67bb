import Reoftpd.StoreEncrypted
import Reoftpd.StoreRace

/-!
# Concurrent encrypted stores of one name

Several `store_encrypted` calls on one final path, interleaved one file operation at a
time on the disk of names of `Reoftpd.StoreRace`.

**An acknowledged upload is not always intact.**  A call that passed the existence
check early creates the staging file anew while it is a second name of the clip another
call has just linked, and empties that clip (`acknowledged_upload_lost`).  What is true
is that every acknowledged upload is intact as long as every staging file is created
alone: while no other call still writes or links, and not as a second name of the
finalized clip (`acknowledged_intact_of_createsAlone`).
-/
namespace Reoftpd
open Interleaving Runs

/-- One `store_encrypted` call: its recipients, its randomness and what its input
delivers. -/
structure EncryptCall (age : Age) where
  recipients : List age.Recipient
  seed : age.Seed
  input : Input

/-- What the call's own `encrypt_stream` produces. -/
def EncryptCall.out {age : Age} (call : EncryptCall age) : Encrypted :=
  encryptStream age call.recipients call.seed call.input

variable {ι : Type} [DecidableEq ι] {age : Age}

/-- Concurrent encrypted stores of one final path, and how far each has come. -/
abbrev EncryptedRace (ι : Type) := Joint ι (Disk OsStr Empty) (EncryptPc Nat)

/-- **A step of the race**: the next operation of call `e.1`, which fails with `e.2` if
there is one. -/
def encryptedRaceStep (calls : ι → EncryptCall age) (final : OsStr) :
    EncryptedRace ι → ι × Option Errno → EncryptedRace ι :=
  step fun i => encryptedStep (diskTarget final (stagingPath final)) (calls i).out

/-- Whether the encryption succeeds. -/
def Encrypted.complete (out : Encrypted) : Bool :=
  match out.outcome with
  | .ok _ => true
  | .error _ => false

/-- The call has the staging file open with bytes still to write, or is going to link
it. -/
def EncryptPc.Busy (out : Encrypted) : EncryptPc Nat → Prop
  | .write _ _ _ rest => rest.flatten ≠ [] ∨ out.complete = true
  | .link _ => True
  | _ => False

instance (out : Encrypted) : DecidablePred (EncryptPc.Busy out)
  | .write _ _ _ _ => inferInstanceAs (Decidable (_ ∨ _))
  | .link _ => .isTrue trivial
  | .start | .createParent | .create | .remove _ | .done _ => .isFalse id

/-- The inode a call has open with bytes still to write, if any. -/
def EncryptPc.writing : EncryptPc Nat → Option Nat
  | .write h _ _ rest => if rest.flatten = [] then none else some h
  | _ => none

/-- The number of bytes a call has acknowledged: it has linked its staging file. -/
def EncryptPc.acked : EncryptPc Nat → Option Nat
  | .remove (.ok n) | .done (.ok n) => some n
  | _ => none

/-- What `CreatesAlone` asks of a step taken from local state `p`. -/
def CreatesAloneAt (calls : ι → EncryptCall age) (final : OsStr) (c : EncryptedRace ι) (i : ι) :
    EncryptPc Nat → Prop
  | .create =>
      (c.shared.lookup final = none → ∀ j, j ≠ i → ¬ (c.loc j).Busy (calls j).out) ∧
        (c.shared.ino final = none ∨ c.shared.ino (stagingPath final) ≠ c.shared.ino final)
  | _ => True

instance [Fintype ι] (calls : ι → EncryptCall age) (final : OsStr) (c : EncryptedRace ι) (i : ι) :
    DecidablePred (CreatesAloneAt calls final c i)
  | .create => inferInstanceAs (Decidable (_ ∧ _))
  | .start | .createParent | .write .. | .link _ | .remove _ | .done _ => .isTrue trivial

/-- A staging file is created alone when, the final path being absent, no other call
still writes or links, and the staging name is not a second name of the clip. -/
def CreatesAlone (calls : ι → EncryptCall age) (final : OsStr) (c : EncryptedRace ι)
    (e : ι × Option Errno) : Prop :=
  e.2 = none → CreatesAloneAt calls final c e.1 (c.loc e.1)

instance [Fintype ι] (calls : ι → EncryptCall age) (final : OsStr) (c : EncryptedRace ι)
    (e : ι × Option Errno) : Decidable (CreatesAlone calls final c e) :=
  inferInstanceAs (Decidable (_ → _))

/-! ## What a step does -/

/-- Local states of a call that neither writes nor links nor has acknowledged. -/
def EncryptPc.Idle : EncryptPc Nat → Prop
  | .start | .createParent | .create | .remove (.error _) | .done (.error _) => True
  | _ => False

theorem EncryptPc.Idle.not_busy {p : EncryptPc Nat} (h : p.Idle) (out : Encrypted) :
    ¬ p.Busy out := by
  cases p <;> first | exact id | exact h.elim

theorem EncryptPc.Idle.writing {p : EncryptPc Nat} (h : p.Idle) : p.writing = none := by
  cases p <;> first | rfl | exact h.elim

theorem EncryptPc.Idle.acked {p : EncryptPc Nat} (h : p.Idle) : p.acked = none := by
  cases p with
  | remove r | done r =>
      cases r with
      | ok n => exact h.elim
      | error e => rfl
  | _ => rfl

section Moves
variable {N T : Type} [DecidableEq N] {final staging : N} {d d' : Disk N T}
  {out : Encrypted} {p q : EncryptPc Nat} {f : Option Errno}

/-- What one step can do to the disk, by the local state it is taken from. -/
inductive EncryptMove (final staging : N) (out : Encrypted) (d : Disk N T) :
    EncryptPc Nat → Option Errno → Disk N T → EncryptPc Nat → Prop
  | stay (p q : EncryptPc Nat) (f : Option Errno) (hq : q.Idle) :
      EncryptMove final staging out d p f d q
  | emptied (i : Nat) (h : d.ino staging = some i) :
      EncryptMove final staging out d .create none (d.setData i []) (.write i 0 0 out.chunks)
  | created (h : d.lookup staging = none) :
      EncryptMove final staging out d .create none (d.create staging)
        (.write d.fresh 0 0 out.chunks)
  | wrote (h off k : Nat) (b : Bytes) (rest : List Bytes) :
      EncryptMove final staging out d (.write h off k (b :: rest)) none (d.writeAt h off b)
        (.write h (off + b.length) (k + 1) rest)
  | encrypted (h off k n : Nat) (f : Option Errno) (hn : out.outcome = .ok n) :
      EncryptMove final staging out d (.write h off k []) f d (.link n)
  | linked (n : Nat) (d' : Disk N T) (h : d.hardLink staging final = .ok d') :
      EncryptMove final staging out d (.link n) none d' (.remove (.ok n))
  | removed (r : StoreResult) (f : Option Errno) :
      EncryptMove final staging out d (.remove r) f (d.erase staging) (.done r)
  | returned (p : EncryptPc Nat) (r : StoreResult) (f : Option Errno)
      (hp : p = .remove r ∨ p = .done r) : EncryptMove final staging out d p f d (.done r)

/-- **Every step of a call is one of the moves.** -/
theorem encryptedStep_move :
    EncryptMove final staging out d p f
      (encryptedStep (diskTarget final staging) out d p f).1
      (encryptedStep (diskTarget final staging) out d p f).2 := by
  cases p with
  | start =>
      refine .stay _ _ _ ?_
      simp only [encryptedStep]
      rcases attempt f ((diskTarget final staging).tryExists d) with e | (_ | _) <;> exact trivial
  | createParent => cases f <;> exact .stay _ _ _ trivial
  | create =>
      simp only [encryptedStep]
      split
      · rename_i d' i h
        obtain ⟨rfl, h⟩ := attempt_ok h
        -- an open empties what it finds or makes a new file
        rcases Disk.openTruncate_ok h with ⟨hi, rfl⟩ | ⟨hn, rfl, rfl⟩
        · exact .emptied i (Disk.ino_of_lookup hi)
        · exact .created hn
      · exact .stay _ _ _ trivial
  | write h off k rest =>
      cases rest with
      | nil =>
          simp only [encryptedStep]
          cases ho : out.outcome with
          | ok n => exact .encrypted h off k n f ho
          | error e => exact .stay _ _ _ trivial
      | cons b rest =>
          cases f with
          | none => exact .wrote h off k b rest
          | some e => exact .stay _ _ _ trivial
  | link n =>
      simp only [encryptedStep]
      rcases linkStaging_cases final staging f d n with ⟨e, h⟩ | ⟨d', rfl, hl, h⟩
      · rw [h]
        exact .stay _ _ _ trivial
      · rw [h]
        exact .linked n d' hl
  | remove r =>
      simp only [encryptedStep]
      rcases dropStaging_cases final staging f d with h | h <;> rw [h]
      · exact .returned _ r f (Or.inl rfl)
      · exact .removed r f
  | done r => exact .returned _ r f (Or.inr rfl)

/-- The final name is only ever bound by a link. -/
theorem EncryptMove.lookup_final (hne : staging ≠ final)
    (m : EncryptMove final staging out d p f d' q) :
    d'.lookup final = d.lookup final ∨
      ∃ n, p = .link n ∧ q = .remove (.ok n) ∧ d.hardLink staging final = .ok d' := by
  cases m with
  | stay => exact Or.inl rfl
  | emptied => exact Or.inl rfl
  | created h => exact Or.inl (Disk.lookup_create_ne hne.symm)
  | wrote => exact Or.inl rfl
  | encrypted => exact Or.inl rfl
  | linked n d' h => exact Or.inr ⟨n, rfl, rfl, h⟩
  | removed => exact Or.inl (Disk.lookup_erase_ne hne.symm)
  | returned => exact Or.inl rfl

/-- A write of nothing leaves every inode's bytes alone. -/
theorem data_writeAt_nil (d : Disk N T) (h off i : Nat) :
    (d.writeAt h off []).data i = d.data i := by
  by_cases hi : i = h
  · subst hi
    simp [Disk.writeAt]
  · exact Disk.data_setData_ne _ hi

/-- A step of a call that does not write to the finalized clip, and does not create
the staging file over it, leaves the clip as it is. -/
theorem EncryptMove.keeps_clip {k : Nat} (hne : staging ≠ final)
    (m : EncryptMove final staging out d p f d' q) (hk : d.ino final = some k)
    (hp : p.writing ≠ some k) (hc : f = none → p = .create → d.ino staging ≠ some k) :
    d'.ino final = some k ∧ d'.data k = d.data k ∧ q.writing ≠ some k := by
  cases m with
  | stay _ _ _ hq => exact ⟨hk, rfl, by simp [hq.writing]⟩
  | emptied i h =>
      have hik : k ≠ i := fun he => hc rfl rfl (he ▸ h)
      refine ⟨hk, Disk.data_setData_ne _ hik, ?_⟩
      simp only [EncryptPc.writing]
      split
      · simp
      · exact fun he => hik (Option.some.inj he).symm
  | created h =>
      have hlt : k ≠ d.fresh := Nat.ne_of_lt (Disk.ino_lt_fresh hk)
      refine ⟨by rw [Disk.ino_create_ne hne.symm, hk], Disk.data_create_ne hlt, ?_⟩
      simp only [EncryptPc.writing]
      split
      · simp
      · exact fun he => hlt (Option.some.inj he).symm
  | wrote h off j b rest =>
      -- a call with nothing left to write counts as not writing
      by_cases hb : (b :: rest).flatten = []
      · obtain ⟨rfl, hr⟩ := List.append_eq_nil_iff.mp hb
        exact ⟨hk, data_writeAt_nil d h off k, by simp [EncryptPc.writing, hr]⟩
      · have hh : h ≠ k := by
          simpa only [EncryptPc.writing, if_neg hb, ne_eq, Option.some.injEq] using hp
        refine ⟨hk, Disk.data_setData_ne _ hh.symm, ?_⟩
        simp only [EncryptPc.writing]
        split
        · simp
        · exact fun he => hh (Option.some.inj he)
  | encrypted h off j n f hn => exact ⟨hk, rfl, by simp [EncryptPc.writing]⟩
  | linked n d' h =>
      obtain ⟨e, he, -, hf, -, -⟩ := Disk.hardLink_ok h
      rw [Disk.ino, hf] at hk
      cases hk
  | removed r f =>
      exact ⟨by rw [Disk.ino_erase_ne hne.symm, hk], rfl, by simp [EncryptPc.writing]⟩
  | returned _ r _ hp => exact ⟨hk, rfl, by simp [EncryptPc.writing]⟩

/-- A call acknowledges its bytes when it links, and at no other step. -/
theorem EncryptMove.acked {n : Nat} (m : EncryptMove final staging out d p f d' q)
    (hq : q.acked = some n) :
    p.acked = some n ∨ p = .link n ∧ d.hardLink staging final = .ok d' := by
  cases m with
  | stay _ _ _ hi => simp [hi.acked] at hq
  | linked n' d' h =>
      obtain rfl : n' = n := Option.some.inj hq
      exact Or.inr ⟨rfl, h⟩
  | removed r f => cases r <;> exact Or.inl hq
  | returned _ r _ hp => rcases hp with rfl | rfl <;> cases r <;> exact Or.inl hq
  | _ => cases hq

/-- The staged bytes of a busy call: what it has written so far, at the staging name if
that is still bound. -/
def Staged (out : Encrypted) (staging : N) (d : Disk N T) : EncryptPc Nat → Prop
  | .write h off _ rest =>
      (d.lookup staging = none ∨ d.ino staging = some h) ∧
        ∃ sent, out.chunks = sent ++ rest ∧ d.data h = sent.flatten ∧ off = sent.flatten.length
  | .link n =>
      out.outcome = .ok n ∧ (d.lookup staging = none ∨
        ∃ h, d.ino staging = some h ∧ d.data h = out.chunks.flatten)
  | _ => True

/-- A step of a call that is not busy and creates nothing leaves it not busy and what
others have staged as it is, up to the staging name. -/
theorem EncryptMove.not_busy (m : EncryptMove final staging out d p f d' q) (hp : ¬ p.Busy out)
    (hc : ¬ (f = none ∧ p = .create)) :
    ¬ q.Busy out ∧ ∀ out' p', Staged out' staging d p' → Staged out' staging d' p' := by
  cases m with
  | stay _ _ _ hq => exact ⟨hq.not_busy out, fun _ _ h => h⟩
  | emptied => exact absurd ⟨rfl, rfl⟩ hc
  | created => exact absurd ⟨rfl, rfl⟩ hc
  | wrote h off k b rest =>
      simp only [EncryptPc.Busy, not_or, not_not] at hp
      obtain ⟨hb, hout⟩ := hp
      -- a call that is not busy has nothing but empty chunks left
      obtain ⟨rfl, hr⟩ := List.append_eq_nil_iff.mp hb
      refine ⟨by simp [EncryptPc.Busy, hr, hout], fun out' p' hs => ?_⟩
      cases p' with
      | write h' off' k' rest' =>
          obtain ⟨hn, sent, h1, h2, h3⟩ := hs
          exact ⟨hn, sent, h1, (data_writeAt_nil d h off h').trans h2, h3⟩
      | link n =>
          obtain ⟨ho, hn | ⟨h', h1, h2⟩⟩ := hs
          · exact ⟨ho, Or.inl hn⟩
          · exact ⟨ho, Or.inr ⟨h', h1, (data_writeAt_nil d h off h').trans h2⟩⟩
      | _ => exact trivial
  | encrypted h off k n f hn => simp [EncryptPc.Busy, Encrypted.complete, hn] at hp
  | linked => exact absurd trivial hp
  | removed r f =>
      refine ⟨id, fun out' p' hs => ?_⟩
      cases p' with
      | write h' off' k' rest' => exact ⟨Or.inl Disk.lookup_erase_self, hs.2⟩
      | link n => exact ⟨hs.1, Or.inl Disk.lookup_erase_self⟩
      | _ => exact trivial
  | returned _ r _ hp => exact ⟨id, fun _ _ h => h⟩

/-- A busy call's own step, and the step that creates the staging file, keep what the
call has staged. -/
theorem EncryptMove.staged (m : EncryptMove final staging out d p f d' q)
    (hs : p.Busy out → Staged out staging d p) (hq : q.Busy out) : Staged out staging d' q := by
  cases m with
  | stay _ _ _ hi => exact absurd hq (hi.not_busy out)
  | emptied i h =>
      exact ⟨Or.inr h, [], rfl, Disk.data_setData_self _, rfl⟩
  | created h =>
      exact ⟨Or.inr (Disk.ino_of_lookup Disk.lookup_create_self), [], rfl, Disk.data_create_self,
        rfl⟩
  | wrote h off k b rest =>
      have hp : EncryptPc.Busy out (.write h off k (b :: rest)) := by
        rcases hq with hq | hq
        · exact Or.inl (by simp [hq])
        · exact Or.inr hq
      obtain ⟨hn, sent, hchunks, hdata, rfl⟩ := hs hp
      refine ⟨hn, sent ++ [b], by rw [hchunks, List.append_assoc]; rfl, ?_, by simp⟩
      rw [Disk.writeAt, Disk.data_setData_self, hdata, Disk.overwrite_length]
      simp
  | encrypted h off k n f hn =>
      obtain ⟨hst, sent, hchunks, hdata, -⟩ :=
        hs (Or.inr (by simp [Encrypted.complete, hn]))
      refine ⟨hn, hst.imp_right fun h' => ⟨h, h', ?_⟩⟩
      rw [hdata, hchunks, List.append_nil]
  | linked => exact hq.elim
  | removed => exact hq.elim
  | returned => exact hq.elim

end Moves

/-! ## Acknowledged uploads under concurrency -/

section Intact
variable {calls : ι → EncryptCall age} {final : OsStr} {c : EncryptedRace ι}

/-- What holds along a run whose staging files are created alone.  As long as the final
path is absent, at most one call is busy and its bytes are staged; a finalized clip is
written by nobody and holds the ciphertext of every call that acknowledged it. -/
structure RaceInv (calls : ι → EncryptCall age) (final : OsStr) (c : EncryptedRace ι) :
    Prop where
  alone : c.shared.lookup final = none → ∀ i j,
    (c.loc i).Busy (calls i).out → (c.loc j).Busy (calls j).out → i = j
  staged : c.shared.lookup final = none → ∀ i, (c.loc i).Busy (calls i).out →
    Staged (calls i).out (stagingPath final) c.shared (c.loc i)
  closed : ∀ k, c.shared.ino final = some k → ∀ j, (c.loc j).writing ≠ some k
  acked : ∀ i n, (c.loc i).acked = some n → (calls i).out.outcome = .ok n ∧
    c.shared.read final = some (calls i).out.chunks.flatten

omit [DecidableEq ι] in
/-- What the guard says of a step that creates the staging file. -/
theorem CreatesAlone.create {i : ι} {f : Option Errno} (hg : CreatesAlone calls final c (i, f))
    (hf : f = none) (hp : c.loc i = .create) :
    (c.shared.lookup final = none → ∀ j, j ≠ i → ¬ (c.loc j).Busy (calls j).out) ∧
      (c.shared.ino final = none ∨ c.shared.ino (stagingPath final) ≠ c.shared.ino final) := by
  have hat := hg hf
  rwa [hp] at hat

/-- A step created alone leaves a finalized clip as it is. -/
theorem RaceInv.keeps_clip {i : ι} {f : Option Errno} {k : Nat} (hc : RaceInv calls final c)
    (hg : CreatesAlone calls final c (i, f)) (hk : c.shared.ino final = some k) :
    (encryptedRaceStep calls final c (i, f)).shared.ino final = some k ∧
      (encryptedRaceStep calls final c (i, f)).shared.data k = c.shared.data k ∧
      ∀ j, ((encryptedRaceStep calls final c (i, f)).loc j).writing ≠ some k := by
  obtain ⟨h1, h2, h3⟩ := (encryptedStep_move (f := f)).keeps_clip (stagingPath_ne final) hk
    (hc.closed k hk i) (fun hf hp => by
      rcases (hg.create hf hp).2 with h | h
      · rw [h] at hk
        cases hk
      · exact hk ▸ h)
  exact ⟨h1, h2, step_loc_cases (Q := fun _ (p : EncryptPc Nat) => p.writing ≠ some k) h3
    (fun j _ => hc.closed k hk j)⟩

omit [DecidableEq ι] in
/-- While the final path is absent, a step is taken by the only busy call, or by a call
that becomes the only busy one, or by a call that is not busy and does not become so. -/
theorem RaceInv.busy_step {i : ι} {f : Option Errno} (hc : RaceInv calls final c)
    (hg : CreatesAlone calls final c (i, f)) (hfinal : c.shared.lookup final = none) :
    (∀ j, j ≠ i → ¬ (c.loc j).Busy (calls j).out) ∨
      ¬ (c.loc i).Busy (calls i).out ∧ ¬ (f = none ∧ c.loc i = .create) := by
  by_cases hcreate : f = none ∧ c.loc i = .create
  · exact Or.inl ((hg.create hcreate.1 hcreate.2).1 hfinal)
  · by_cases hbusy : (c.loc i).Busy (calls i).out
    · exact Or.inl fun j hj hb => hj (hc.alone hfinal j i hb hbusy)
    · exact Or.inr ⟨hbusy, hcreate⟩

/-- The part of the invariant about an absent final path, over a step that leaves it
absent. -/
theorem RaceInv.step_absent {i : ι} {f : Option Errno} (hc : RaceInv calls final c)
    (hg : CreatesAlone calls final c (i, f)) (hfinal : c.shared.lookup final = none) :
    (∀ j, ((encryptedRaceStep calls final c (i, f)).loc j).Busy (calls j).out →
        ∀ j', ((encryptedRaceStep calls final c (i, f)).loc j').Busy (calls j').out → j = j') ∧
      ∀ j, ((encryptedRaceStep calls final c (i, f)).loc j).Busy (calls j).out →
        Staged (calls j).out (stagingPath final) (encryptedRaceStep calls final c (i, f)).shared
          ((encryptedRaceStep calls final c (i, f)).loc j) := by
  have m : EncryptMove final (stagingPath final) (calls i).out c.shared (c.loc i) f
      (encryptedStep (diskTarget final (stagingPath final)) (calls i).out c.shared (c.loc i) f).1
      (encryptedStep (diskTarget final (stagingPath final)) (calls i).out c.shared (c.loc i) f).2 :=
    encryptedStep_move
  rcases hc.busy_step hg hfinal with hothers | ⟨hbusy, hcreate⟩
  · -- nobody else is busy, before and after
    have honly {j : ι} (hj : ((encryptedRaceStep calls final c (i, f)).loc j).Busy (calls j).out) :
        j = i := by
      by_contra hne
      rw [encryptedRaceStep, step_loc_ne hne] at hj
      exact hothers j hne hj
    refine ⟨fun j hj j' hj' => (honly hj).trans (honly hj').symm, fun j hj => ?_⟩
    obtain rfl := honly hj
    rw [encryptedRaceStep, step_loc_self] at hj ⊢
    exact m.staged (hc.staged hfinal j) hj
  · -- the call that moves is not busy, and disturbs nobody who is
    obtain ⟨hquiet, hstaged⟩ := m.not_busy hbusy hcreate
    have hbefore {j : ι}
        (hj : ((encryptedRaceStep calls final c (i, f)).loc j).Busy (calls j).out) :
        j ≠ i ∧ (c.loc j).Busy (calls j).out := by
      by_cases hne : j = i
      · subst hne
        rw [encryptedRaceStep, step_loc_self] at hj
        exact absurd hj hquiet
      · rw [encryptedRaceStep, step_loc_ne hne] at hj
        exact ⟨hne, hj⟩
    refine ⟨fun j hj j' hj' => hc.alone hfinal j j' (hbefore hj).2 (hbefore hj').2, fun j hj => ?_⟩
    obtain ⟨hne, hb⟩ := hbefore hj
    rw [encryptedRaceStep, step_loc_ne hne]
    exact hstaged _ _ (hc.staged hfinal j hb)

/-- The link that finalizes the clip. -/
theorem RaceInv.step_linked {i : ι} {f : Option Errno} {n : Nat} {d' : Disk OsStr Empty}
    (hc : RaceInv calls final c) (hp : c.loc i = .link n)
    (hl : c.shared.hardLink (stagingPath final) final = .ok d')
    (hshared : (encryptedRaceStep calls final c (i, f)).shared = d')
    (hq : (encryptedRaceStep calls final c (i, f)).loc i = .remove (.ok n)) :
    RaceInv calls final (encryptedRaceStep calls final c (i, f)) := by
  obtain ⟨e, he, hse, hfinal, -, hd'⟩ := Disk.hardLink_ok hl
  have hbusy : (c.loc i).Busy (calls i).out := by
    rw [hp]
    exact trivial
  have hstaged := hc.staged hfinal i hbusy
  rw [hp] at hstaged
  -- the link would have failed without a staging file
  obtain ⟨hout, hnone | ⟨h, hino, hdata⟩⟩ := hstaged
  · rw [hse] at hnone
    cases hnone
  obtain rfl : e = .file h := Option.some.inj (hse.symm.trans (Disk.ino_eq_some.mp hino))
  have hk : (encryptedRaceStep calls final c (i, f)).shared.ino final = some h := by
    rw [hshared, hd']
    exact Disk.ino_of_lookup (Disk.lookup_bind_self _)
  have hpresent : (encryptedRaceStep calls final c (i, f)).shared.lookup final ≠ none := by
    rw [Disk.ino_eq_some.mp hk]
    simp
  have hread : (encryptedRaceStep calls final c (i, f)).shared.read final =
      some (calls i).out.chunks.flatten := by
    refine Disk.read_eq_some.mpr ⟨h, hk, ?_⟩
    rw [hshared, hd']
    exact hdata
  have hother {j : ι} (hj : j ≠ i) : (encryptedRaceStep calls final c (i, f)).loc j = c.loc j :=
    step_loc_ne hj
  refine ⟨fun h => absurd h hpresent, fun h => absurd h hpresent, fun k hk' j => ?_,
    fun j n' hj => ?_⟩
  · obtain rfl : h = k := Option.some.inj (hk.symm.trans hk')
    by_cases hji : j = i
    · subst hji
      rw [hq]
      simp [EncryptPc.writing]
    · rw [hother hji]
      intro hw
      -- who still wrote to the staging file would be busy beside `i`
      refine hji (hc.alone hfinal j i ?_ hbusy)
      unfold EncryptPc.writing at hw
      split at hw
      · rename_i h' off k rest hloc
        rw [hloc]
        split at hw
        · cases hw
        · exact Or.inl ‹_›
      · cases hw
  · by_cases hji : j = i
    · subst hji
      rw [hq] at hj
      obtain rfl : n = n' := Option.some.inj hj
      exact ⟨hout, hread⟩
    · rw [hother hji] at hj
      have := (hc.acked j n' hj).2
      rw [Disk.read, Disk.ino, hfinal] at this
      cases this

/-- **The invariant is kept** by every step whose staging file is created alone. -/
theorem RaceInv.step {e : ι × Option Errno} (hc : RaceInv calls final c)
    (hg : CreatesAlone calls final c e) :
    RaceInv calls final (encryptedRaceStep calls final c e) := by
  obtain ⟨i, f⟩ := e
  have m : EncryptMove final (stagingPath final) (calls i).out c.shared (c.loc i) f
      (encryptedStep (diskTarget final (stagingPath final)) (calls i).out c.shared (c.loc i) f).1
      (encryptedStep (diskTarget final (stagingPath final)) (calls i).out c.shared (c.loc i) f).2 :=
    encryptedStep_move
  -- either the final name is bound as before, or the step has linked it
  rcases m.lookup_final (stagingPath_ne final) with hsame | ⟨n, hp, hq, hl⟩
  · have hfinal {k : Nat}
        (h : (encryptedRaceStep calls final c (i, f)).shared.ino final = some k) :
        c.shared.ino final = some k := (Disk.ino_congr hsame).symm.trans h
    refine ⟨fun h i' j' hi' hj' => (hc.step_absent hg (hsame.symm.trans h)).1 i' hi' j' hj',
      fun h => (hc.step_absent hg (hsame.symm.trans h)).2,
      fun k hk => (hc.keeps_clip hg (hfinal hk)).2.2, fun j n hj => ?_⟩
    have hbefore : (c.loc j).acked = some n := by
      by_cases hji : j = i
      · subst hji
        rw [encryptedRaceStep, step_loc_self] at hj
        rcases m.acked hj with h | ⟨-, hl⟩
        · exact h
        · -- a link would have bound the final name
          obtain ⟨e, he, -, hnone, -, hd'⟩ := Disk.hardLink_ok hl
          rw [hd', Disk.lookup_bind_self, hnone] at hsame
          cases hsame
      · rwa [encryptedRaceStep, step_loc_ne hji] at hj
    obtain ⟨hout, hread⟩ := hc.acked j n hbefore
    obtain ⟨k, hk, hdata⟩ := Disk.read_eq_some.mp hread
    obtain ⟨h1, h2, -⟩ := hc.keeps_clip hg hk
    exact ⟨hout, Disk.read_eq_some.mpr ⟨k, h1, h2.trans hdata⟩⟩
  · refine hc.step_linked hp hl rfl ?_
    rw [encryptedRaceStep, step_loc_self]
    exact hq

/-- The upload of call `i` is acknowledged with `n`: the call has linked its staging
file, and returns or has returned `n`. -/
def Acknowledged (c : EncryptedRace ι) (i : ι) (n : Nat) : Prop :=
  c.loc i = .remove (.ok n) ∨ c.loc i = .done (.ok n)

/-- **Acknowledged uploads are intact when staging files are created alone.**  In every
run whose steps all meet `CreatesAlone`, in every state on the way: if a call has
linked its staging file to return `n`, then its input has `n` bytes and the final path
holds exactly the ciphertext that the call's own encryption produced for them. -/
theorem acknowledged_intact_of_createsAlone (age : Age) (calls : ι → EncryptCall age)
    (final : OsStr) (c : EncryptedRace ι) (hstart : ∀ i, c.loc i = .start)
    (es : List (ι × Option Errno))
    (hg : Along (encryptedRaceStep calls final) (CreatesAlone calls final) c es) :
    Throughout (encryptedRaceStep calls final)
      (fun c => ∀ i n, Acknowledged c i n →
        ∃ bs : List Bytes, (calls i).input = bs.map .ok ∧ n = bs.flatten.length ∧
          c.shared.read final = some (calls i).out.chunks.flatten) c es := by
  have hc : RaceInv calls final c := by
    constructor <;> simp [hstart, EncryptPc.Busy, EncryptPc.writing, EncryptPc.acked]
  refine (throughout_of_invariant (fun _ _ => RaceInv.step) hc hg).mono ?_
  intro c hc i n hi
  have hacked : (c.loc i).acked = some n := by rcases hi with h | h <;> rw [h] <;> rfl
  obtain ⟨hout, hread⟩ := hc.acked i n hacked
  obtain ⟨bs, -, -, -, hinput, hn, -⟩ := encryptStream_ok hout
  exact ⟨bs, hinput, hn, hread⟩

/-- Two uploads of one byte each, encrypted with different randomness. -/
def twoEncrypted (b : Bool) : EncryptCall shiftAge := 
  ⟨[()], (if b then 10 else 20 : UInt8), [.ok [1]]⟩

/-- All calls about to start on the disk `d`. -/
def startEncrypted (d : Disk OsStr Empty) : EncryptedRace ι := ⟨d, fun _ => .start⟩

/-- The first upload runs to its end, then the second starts and is refused. -/
theorem acknowledged_intact_sequential_uploads :
    Throughout (encryptedRaceStep twoEncrypted clip)
      (fun c => ∀ i n, Acknowledged c i n →
        ∃ bs : List Bytes, (twoEncrypted i).input = bs.map .ok ∧ n = bs.flatten.length ∧
          c.shared.read clip = some (twoEncrypted i).out.chunks.flatten)
      (startEncrypted .blank) (List.replicate 8 (true, none) ++ List.replicate 2 (false, none)) :=
  acknowledged_intact_of_createsAlone shiftAge twoEncrypted clip (startEncrypted .blank)
    (fun _ => rfl) _ (by decide)

/-- **An acknowledged upload is lost.**  The second upload checks the final path before
the first one links; its `File::create` then empties the clip that the first one has
linked and acknowledges. -/
theorem acknowledged_upload_lost :
    ¬ ∀ (calls : Bool → EncryptCall shiftAge) (final : OsStr) (c : EncryptedRace Bool)
        (es : List (Bool × Option Errno)), (∀ i, c.loc i = .start) →
        Throughout (encryptedRaceStep calls final)
          (fun c => ∀ i n, Acknowledged c i n →
            ∃ bs : List Bytes, (calls i).input = bs.map .ok ∧ n = bs.flatten.length ∧
              c.shared.read final = some (calls i).out.chunks.flatten) c es := by
  intro h
  have hlost := h twoEncrypted clip (startEncrypted .blank)
    (List.replicate 6 (true, none) ++ List.replicate 2 (false, none) ++
      [(true, none), (false, none)])
    (fun _ => rfl) _ List.prefix_rfl true 1 (Or.inl (by rfl))
  obtain ⟨bs, -, -, hread⟩ := hlost
  revert hread
  decide

end Intact

end Reoftpd

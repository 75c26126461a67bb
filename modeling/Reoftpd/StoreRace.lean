import Mathlib.Data.Fintype.Basic
import Mathlib.Tactic.Push
import Reoftpd.Interleaving
import Reoftpd.StoreStream

/-!
# Concurrent stores of one name

Several `store_stream` calls on one final path, interleaved one file operation at a
time on a disk of names.  They share one staging name, and a call that has opened
the staging file keeps its inode, whatever happens to the name.

**Finalized clips are not immutable under concurrency.**  A call that has the
staging file open while another call links it goes on appending to the finalized
clip (`finalized_clip_grows`).  What is true is that a clip does not change as long
as no call links a file that another call still has bytes to append to, and no call
with bytes to append opens the staging name while it is still a second name of the
clip (`finalized_immutable_of_linksAlone`).

**A refused store can destroy another session's upload.**  It removes the shared
staging name, whoever is writing to it (`refused_store_destroys_upload`).  An upload
among refused stores succeeds exactly when no refusal removes the staging name
between its open and its link (`upload_survives_iff`).
-/
namespace Reoftpd
open Interleaving Runs

/-- The operations of a call on a disk of names.  Every directory is there already; where that
is so, a tree goes the same way (`FileTree.simulates_tree`). -/
def diskTarget {N T : Type} [DecidableEq N] (final staging : N) :
    TargetOps (Disk N T) Nat where
  tryExists d := .ok (d.lookup final).isSome
  stagingLen d :=
    match d.lookup staging with
    | some (.file i) => .ok (d.data i).length
    | some .dir => .ok d.dirSize
    | some (.link _) => .error .notFound
    | none => .error .notFound
  createParent d := (d, .ok ())
  openAppend d := d.openAppend staging
  createFile d := d.openTruncate staging
  append d i b := d.append i b
  writeAt d i off b := d.writeAt i off b
  hardLink d := d.hardLink staging final
  removeStaging d := d.discard staging

/-- One `store_stream` call: its start offset and what its input delivers. -/
structure StoreCall where
  startPos : Nat
  input : Input

variable {ι : Type} [DecidableEq ι]

/-- Concurrent stores of one final path, and how far each has come. -/
abbrev StoreRace (ι : Type) := Joint ι (Disk OsStr Empty) (StorePc Nat)

/-- **A step of the race**: the next operation of call `e.1`, which fails with `e.2`
if there is one. -/
def raceStep (calls : ι → StoreCall) (final : OsStr) :
    StoreRace ι → ι × Option Errno → StoreRace ι :=
  step fun i => storeStep (diskTarget final (stagingPath final)) (calls i).startPos (calls i).input

/-! ## The bytes a call still appends -/

/-- What an input delivers before it ends or fails. -/
def pendingBytes : Input → Bytes
  | [] => []
  | .ok b :: rest => b ++ pendingBytes rest
  | .error _ :: _ => []

/-- The inode a call has open with bytes still to append, if any. -/
def StorePc.appending : StorePc Nat → Option Nat
  | .copy h rest _ => if pendingBytes rest = [] then none else some h
  | _ => none

/-- What `LinksAlone` asks of a step taken from local state `p`. -/
def LinksAloneAt (calls : ι → StoreCall) (final : OsStr) (c : StoreRace ι) (i : ι) :
    StorePc Nat → Prop
  | .link _ =>
      c.shared.lookup final = none →
        ∀ j, j ≠ i → (c.loc j).appending = none ∨
          (c.loc j).appending ≠ c.shared.ino (stagingPath final)
  | .openStaging =>
      pendingBytes (calls i).input = [] ∨ c.shared.ino final = none ∨
        c.shared.ino (stagingPath final) ≠ c.shared.ino final
  | _ => True

instance decidableLinksAloneAt [Fintype ι] (calls : ι → StoreCall) (final : OsStr)
    (c : StoreRace ι) (i : ι) : DecidablePred (LinksAloneAt calls final c i)
  | .link _ => inferInstanceAs (Decidable
      (c.shared.lookup final = none →
        ∀ j, j ≠ i → (c.loc j).appending = none ∨
          (c.loc j).appending ≠ c.shared.ino (stagingPath final)))
  | .openStaging => inferInstanceAs (Decidable
      (pendingBytes (calls i).input = [] ∨ c.shared.ino final = none ∨
        c.shared.ino (stagingPath final) ≠ c.shared.ino final))
  | .start | .stat | .createParent | .copy .. | .flush _ | .remove _ | .done _ => .isTrue trivial

/-- A link step that does not fail is taken alone when no other call has bytes to append
to the file it links, and an open step when it does not open the finalized clip to
append to it. -/
def LinksAlone (calls : ι → StoreCall) (final : OsStr) (c : StoreRace ι)
    (e : ι × Option Errno) : Prop :=
  e.2 = none → LinksAloneAt calls final c e.1 (c.loc e.1)

instance [Fintype ι] (calls : ι → StoreCall) (final : OsStr) (c : StoreRace ι)
    (e : ι × Option Errno) : Decidable (LinksAlone calls final c e) :=
  inferInstanceAs (Decidable (_ → _))

/-! ## What a step does -/

section Moves
variable {N T : Type} [DecidableEq N] {final staging : N} {d d' : Disk N T}
  {startPos : Nat} {input : Input} {p : StorePc Nat} {f : Option Errno}

/-- What one step can do to the disk, by the local state it is taken from.  `stay`
covers every step that leaves the disk alone and opens nothing. -/
inductive StoreMove (final staging : N) (input : Input) (d : Disk N T) :
    StorePc Nat → Option Errno → Disk N T × StorePc Nat → Prop
  | stay (p q : StorePc Nat) (f : Option Errno) (hq : q.appending = none) :
      StoreMove final staging input d p f (d, q)
  | opened (i : Nat) (h : d.ino staging = some i) :
      StoreMove final staging input d .openStaging none (d, .copy i input 0)
  | created (h : d.lookup staging = none) :
      StoreMove final staging input d .openStaging none
        (d.create staging, .copy d.fresh input 0)
  | wrote (h : Nat) (b : Bytes) (rest : Input) (n : Nat) (f : Option Errno) :
      StoreMove final staging input d (.copy h (.ok b :: rest) n) f
        (d.append h b, .copy h rest (n + b.length))
  | linked (n : Nat) (d' : Disk N T) (h : d.hardLink staging final = .ok d') :
      StoreMove final staging input d (.link n) none (d', .remove (.ok n))
  | removed (r : StoreResult) (f : Option Errno) :
      StoreMove final staging input d (.remove r) f (d.erase staging, .done r)

theorem afterExists_appending (r : Except Errno Bool) :
    (afterExists r : StorePc Nat).appending = none := by
  rcases r with e | (_ | _) <;> rfl

theorem afterVerdict_appending (r : Except Errno OffsetVerdict) :
    (afterVerdict r : StorePc Nat).appending = none := by
  rcases r with e | (_ | _ | _) <;> rfl

/-- A link step either fails and leaves the disk alone, or links. -/
theorem linkStaging_cases (final staging : N) (f : Option Errno) (d : Disk N T) (n : Nat) :
    (∃ e, linkStaging (diskTarget final staging) f d n = (d, .error e)) ∨
      ∃ d', f = none ∧ d.hardLink staging final = .ok d' ∧
        linkStaging (diskTarget final staging) f d n = (d', .ok n) := by
  unfold linkStaging
  cases h : attempt f ((diskTarget final staging).hardLink d) with
  | ok d' => exact Or.inr ⟨d', (attempt_ok h).1, (attempt_ok h).2, rfl⟩
  | error e => cases e <;> exact Or.inl ⟨_, rfl⟩

/-- The removal of the staging name leaves the disk alone or removes that name. -/
theorem dropStaging_cases (final staging : N) (f : Option Errno) (d : Disk N T) :
    dropStaging (diskTarget final staging) f d = d ∨
      dropStaging (diskTarget final staging) f d = d.erase staging := by
  cases f with
  | some e => exact Or.inl rfl
  | none =>
      show d.discard staging = d ∨ d.discard staging = d.erase staging
      exact d.discard_cases staging

/-- **Every step of a call is one of the moves.** -/
theorem storeStep_move :
    StoreMove final staging input d p f
      (storeStep (diskTarget final staging) startPos input d p f) := by
  cases p with
  | start => exact .stay _ _ _ (afterExists_appending _)
  | stat => exact .stay _ _ _ (afterVerdict_appending _)
  | createParent => cases f <;> exact .stay _ _ _ rfl
  | openStaging =>
      simp only [storeStep]
      split
      · rename_i d' i h
        obtain ⟨rfl, h⟩ := attempt_ok h
        rcases Disk.openAppend_ok h with ⟨hi, rfl⟩ | ⟨hn, rfl, rfl⟩
        · exact .opened i (Disk.ino_of_lookup hi)
        · exact .created hn
      · exact .stay _ _ _ rfl
  | copy h rest n =>
      rcases rest with _ | ⟨e | b, rest⟩
      · exact .stay _ _ _ rfl
      · exact .stay _ _ _ rfl
      · exact .wrote h b rest n f
  | flush n => cases f <;> exact .stay _ _ _ rfl
  | link n =>
      simp only [storeStep]
      rcases linkStaging_cases final staging f d n with ⟨e, h⟩ | ⟨d', rfl, hl, h⟩
      · rw [h]
        exact .stay _ _ _ rfl
      · rw [h]
        exact .linked n d' hl
  | remove r =>
      simp only [storeStep]
      rcases dropStaging_cases final staging f d with h | h <;> rw [h]
      · exact .stay _ _ _ rfl
      · exact .removed r f
  | done r => exact .stay _ _ _ rfl

/-- The final name is only ever bound by a link, to what the staging name is bound to. -/
theorem StoreMove.lookup_final {r : Disk N T × StorePc Nat} (hne : staging ≠ final)
    (m : StoreMove final staging input d p f r) :
    r.1.lookup final = d.lookup final ∨
      ∃ n, f = none ∧ p = .link n ∧ r.2 = .remove (.ok n) ∧ d.lookup final = none ∧
        r.1.lookup final = d.lookup staging ∧ r.1.data = d.data := by
  cases m with
  | stay _ q _ hq => exact Or.inl rfl
  | opened i h => exact Or.inl rfl
  | created h => exact Or.inl (Disk.lookup_create_ne hne.symm)
  | wrote h b rest n => exact Or.inl rfl
  | linked n d' h =>
      obtain ⟨e, he, hs, hf, -, rfl⟩ := Disk.hardLink_ok h
      exact Or.inr ⟨n, rfl, rfl, rfl, hf, by rw [Disk.lookup_bind_self, hs], rfl⟩
  | removed r => exact Or.inl (Disk.lookup_erase_ne hne.symm)

/-- A step of a call that has nothing to append to the finalized clip leaves the clip
as it is, and still has nothing to append to it afterwards. -/
theorem StoreMove.keeps_clip {r : Disk N T × StorePc Nat} {k : Nat} (hne : staging ≠ final)
    (m : StoreMove final staging input d p f r) (hk : d.ino final = some k)
    (hp : p.appending ≠ some k)
    (ho : f = none → p = .openStaging → pendingBytes input = [] ∨ d.ino staging ≠ some k) :
    r.1.ino final = some k ∧ r.1.data k = d.data k ∧ r.2.appending ≠ some k := by
  cases m with
  | stay _ q _ hq => exact ⟨hk, rfl, by rw [hq]; simp⟩
  | opened i h =>
      refine ⟨hk, rfl, ?_⟩
      rcases ho rfl rfl with hp | hs
      · simp [StorePc.appending, hp]
      · rw [h] at hs
        simp only [StorePc.appending]
        split
        · simp
        · exact hs
  | created h =>
      have hlt : k ≠ d.fresh := Nat.ne_of_lt (Disk.ino_lt_fresh hk)
      refine ⟨by rw [Disk.ino_create_ne hne.symm, hk], Disk.data_create_ne hlt, ?_⟩
      simp only [StorePc.appending]
      split
      · simp
      · exact fun he => hlt (Option.some.inj he).symm
  | wrote h b rest n =>
      -- a chunk that brings nothing may go to the clip itself
      by_cases hb : b ++ pendingBytes rest = []
      · obtain ⟨rfl, hr⟩ := List.append_eq_nil_iff.mp hb
        refine ⟨hk, ?_, by simp [StorePc.appending, hr]⟩
        by_cases hkh : k = h
        · subst hkh
          simp [Disk.append]
        · exact Disk.data_setData_ne _ hkh
      · have hh : h ≠ k := by
          simpa [StorePc.appending, pendingBytes, hb] using hp
        refine ⟨hk, Disk.data_setData_ne _ hh.symm, ?_⟩
        simp only [StorePc.appending]
        split
        · simp
        · exact fun he => hh (Option.some.inj he)
  | linked n d' h =>
      obtain ⟨e, he, -, hf, -, -⟩ := Disk.hardLink_ok h
      rw [Disk.ino, hf] at hk
      cases hk
  | removed r =>
      exact ⟨by rw [Disk.ino_erase_ne hne.symm, hk], rfl, by simp [StorePc.appending]⟩

end Moves

/-! ## Finalized clips under concurrency -/

section Immutable
variable {calls : ι → StoreCall} {final : OsStr} {c : StoreRace ι}

/-- No call has bytes left to append to the finalized clip. -/
def ClipClosed (final : OsStr) (c : StoreRace ι) : Prop :=
  ∀ k, c.shared.ino final = some k → ∀ j, (c.loc j).appending ≠ some k

omit [DecidableEq ι] in
/-- What `LinksAlone` says of an open step that would reach the finalized clip. -/
theorem LinksAlone.openStaging {e : ι × Option Errno} (hg : LinksAlone calls final c e) {k : Nat}
    (hk : c.shared.ino final = some k) (hf : e.2 = none) (ho : c.loc e.1 = .openStaging) :
    pendingBytes (calls e.1).input = [] ∨ c.shared.ino (stagingPath final) ≠ some k := by
  have hat := hg hf
  simp only [ho, LinksAloneAt] at hat
  rcases hat with h | h | h
  · exact Or.inl h
  · rw [hk] at h
    cases h
  · exact Or.inr (hk ▸ h)

/-- A step taken alone keeps the clip, once it is finalized and closed. -/
theorem raceStep_keeps_clip {e : ι × Option Errno} {k : Nat} (hc : ClipClosed final c)
    (hg : LinksAlone calls final c e) (hk : c.shared.ino final = some k) :
    (raceStep calls final c e).shared.ino final = some k ∧
      (raceStep calls final c e).shared.data k = c.shared.data k ∧
      ∀ j, ((raceStep calls final c e).loc j).appending ≠ some k := by
  obtain ⟨i, f⟩ := e
  have m : StoreMove final (stagingPath final) (calls i).input c.shared (c.loc i) f
      (storeStep (diskTarget final (stagingPath final)) (calls i).startPos (calls i).input
        c.shared (c.loc i) f) := storeStep_move
  obtain ⟨h1, h2, h3⟩ := m.keeps_clip (stagingPath_ne final) hk (hc k hk i) (hg.openStaging hk)
  exact ⟨h1, h2, step_loc_cases (Q := fun _ (p : StorePc Nat) => p.appending ≠ some k) h3
    (fun j _ => hc k hk j)⟩

theorem clipClosed_step {e : ι × Option Errno} (hc : ClipClosed final c)
    (hg : LinksAlone calls final c e) : ClipClosed final (raceStep calls final c e) := by
  intro k' hk'
  cases hk : c.shared.ino final with
  | some k =>
      obtain ⟨h1, -, h3⟩ := raceStep_keeps_clip hc hg hk
      obtain rfl : k = k' := Option.some.inj (h1.symm.trans hk')
      exact h3
  | none =>
      -- the clip is new, so this step linked the staging file, which nobody appends to
      obtain ⟨i, f⟩ := e
      have m : StoreMove final (stagingPath final) (calls i).input c.shared (c.loc i) f
          (storeStep (diskTarget final (stagingPath final)) (calls i).startPos (calls i).input
            c.shared (c.loc i) f) := storeStep_move
      rcases m.lookup_final (stagingPath_ne final) with h | ⟨n, hnone, hp, hr, hf, hs, -⟩
      · have : (raceStep calls final c (i, f)).shared.ino final = none :=
          (Disk.ino_congr h).trans hk
        rw [this] at hk'
        cases hk'
      · have hk'' : c.shared.ino (stagingPath final) = some k' := by
          rw [Disk.ino_eq_some, ← hs]
          exact Disk.ino_eq_some.mp hk'
        have hat := hg hnone
        simp only [hp, LinksAloneAt] at hat
        refine step_loc_cases (Q := fun _ (p : StorePc Nat) => p.appending ≠ some k') ?_ ?_
        · rw [hr]
          simp [StorePc.appending]
        · intro j hj
          rcases hat hf j hj with h | h
          · rw [h]
            simp
          · exact hk'' ▸ h

/-- **Finalized clips are immutable when links are taken alone.**  From a state where
the final path is absent, in every run whose steps all meet `LinksAlone`: once the
final path holds `b`, it holds `b` after every later step of every call. -/
theorem finalized_immutable_of_linksAlone (calls : ι → StoreCall) (final : OsStr)
    (c : StoreRace ι) (hfinal : c.shared.lookup final = none) (es₁ es₂ : List (ι × Option Errno))
    (hg : Along (raceStep calls final) (LinksAlone calls final) c (es₁ ++ es₂)) (b : Bytes)
    (hb : (run (raceStep calls final) c es₁).shared.read final = some b) :
    (run (raceStep calls final) c (es₁ ++ es₂)).shared.read final = some b := by
  have hc : ClipClosed final c := by
    intro k hk
    rw [Disk.ino, hfinal] at hk
    cases hk
  obtain ⟨hg₁, hg₂⟩ := along_append.mp hg
  have hc₁ := invariant_run (fun _ _ hc hg => clipClosed_step hc hg) hc hg₁
  rw [run_append]
  refine (invariant_run (I := fun c => ClipClosed final c ∧ c.shared.read final = some b)
    ?_ ⟨hc₁, hb⟩ hg₂).2
  rintro c e ⟨hc, hread⟩ hg
  obtain ⟨k, hk, rfl⟩ := Disk.read_eq_some.mp hread
  obtain ⟨h1, h2, -⟩ := raceStep_keeps_clip hc hg hk
  exact ⟨clipClosed_step hc hg, Disk.read_eq_some.mpr ⟨k, h1, h2⟩⟩

/-- The calls and the clip of the examples: two uploads, of one byte each. -/
def twoUploads (b : Bool) : StoreCall := ⟨0, [.ok [if b then 1 else 2]]⟩

/-- `clip.mp4`. -/
def clip : OsStr := UnixPath.ofString "clip.mp4"

/-- All calls about to start on the disk `d`. -/
def startRace (d : Disk OsStr Empty) : StoreRace ι := ⟨d, fun _ => .start⟩

/-- The first upload runs to its end, then the second starts and is refused. -/
theorem finalized_immutable_sequential_uploads :
    (run (raceStep twoUploads clip) (startRace .blank)
      (List.replicate 9 (true, none) ++ List.replicate 3 (false, none))).shared.read clip =
        some [1] :=
  finalized_immutable_of_linksAlone twoUploads clip (startRace .blank) (by decide) _ _
    (by decide) [1] (by decide)

/-- **A finalized clip grows.**  Both uploads open the staging file; the first links
it, and the second appends its byte to the finalized clip. -/
theorem finalized_clip_grows :
    ¬ ∀ (calls : Bool → StoreCall) (final : OsStr) (c : StoreRace Bool)
        (es₁ es₂ : List (Bool × Option Errno)) (b : Bytes),
        (∀ i, c.loc i = .start) → c.shared.lookup final = none →
        (run (raceStep calls final) c es₁).shared.read final = some b →
        (run (raceStep calls final) c (es₁ ++ es₂)).shared.read final = some b := by
  intro h
  have hgrown := h twoUploads clip (startRace .blank)
    (List.replicate 4 (true, none) ++ List.replicate 4 (false, none) ++
      List.replicate 4 (true, none))
    [(false, none)] [1] (fun _ => rfl) (by decide) (by decide)
  revert hgrown
  decide

/-- A call with bytes left to append to the clip changes it, if it is left to run. -/
theorem clip_grows_of_appending (calls : ι → StoreCall) {k : Nat} {j : ι}
    (hk : c.shared.ino final = some k)
    (hj : (c.loc j).appending = some k) :
    ∃ m, (run (raceStep calls final) c (List.replicate m (j, none))).shared.read final ≠
      c.shared.read final := by
  obtain ⟨rest, n, hloc, hrest⟩ :
      ∃ rest n, c.loc j = .copy k rest n ∧ pendingBytes rest ≠ [] := by
    unfold StorePc.appending at hj
    split at hj
    · rename_i h rest n hloc
      split at hj
      · cases hj
      · exact ⟨rest, n, by rw [hloc, Option.some.inj hj], ‹_›⟩
    · cases hj
  induction rest generalizing c n with
  | nil => exact absurd rfl hrest
  | cons x rest ih =>
      cases x with
      | error e => exact absurd rfl hrest
      | ok b =>
          have hstep : (raceStep calls final c (j, none)).shared = c.shared.append k b := by
            simp only [raceStep, step_shared, hloc, storeStep, diskTarget]
          have hread : (raceStep calls final c (j, none)).shared.read final =
              some (c.shared.data k ++ b) := by
            rw [hstep, Disk.read_eq_some]
            exact ⟨k, hk, Disk.data_setData_self _⟩
          have hread₀ : c.shared.read final = some (c.shared.data k) :=
            Disk.read_eq_some.mpr ⟨k, hk, rfl⟩
          by_cases hb : b = []
          · -- an empty chunk leaves the clip alone and the rest still to come
            subst hb
            have hloc' : (raceStep calls final c (j, none)).loc j = .copy k rest (n + 0) := by
              simp only [raceStep, step_loc_self, hloc, storeStep]
              rfl
            have hrest' : pendingBytes rest ≠ [] := hrest
            obtain ⟨m, hm⟩ := ih (c := raceStep calls final c (j, none)) (n := n + 0)
              (by rw [hstep]; exact hk) (by simp [hloc', StorePc.appending, hrest']) hloc' hrest'
            refine ⟨m + 1, ?_⟩
            rw [List.replicate_succ, run_cons]
            rw [hread, List.append_nil] at hm
            rw [hread₀]
            exact hm
          · refine ⟨1, ?_⟩
            rw [List.replicate_one, run_cons, run_nil, hread, hread₀]
            simpa using hb

/-- **`LinksAlone` is needed**: after a step that breaks it, the clip is finalized and
some call, left to run, changes it. -/
theorem clip_grows_of_not_linksAlone {e : ι × Option Errno}
    (h : ¬ LinksAlone calls final c e) :
    ∃ j m b, (raceStep calls final c e).shared.read final = some b ∧
      (run (raceStep calls final) (raceStep calls final c e)
        (List.replicate m (j, none))).shared.read final ≠ some b := by
  obtain ⟨i, f⟩ := e
  obtain ⟨rfl, hat⟩ : f = none ∧ ¬ LinksAloneAt calls final c i (c.loc i) :=
    Classical.not_imp.mp h
  -- either another call is still writing to the inode linked, or this one opened the clip
  obtain ⟨j, k, hk, hj⟩ : ∃ j k, (raceStep calls final c (i, none)).shared.ino final = some k ∧
      ((raceStep calls final c (i, none)).loc j).appending = some k := by
    cases hloc : c.loc i with
    | link n =>
        simp only [hloc, LinksAloneAt] at hat
        push Not at hat
        obtain ⟨hf, j, hji, happ, hsame⟩ := hat
        cases hs : (c.loc j).appending with
        | none => exact absurd hs happ
        | some k =>
            have hst := Disk.ino_eq_some.mp (hsame.symm.trans hs)
            obtain ⟨d', hd'⟩ := Disk.hardLink_file hst hf
            obtain ⟨e, he, hse, -, -, hd⟩ := Disk.hardLink_ok hd'
            obtain rfl : Entry.file k = e := Option.some.inj (hst.symm.trans hse)
            refine ⟨j, k, ?_, by rw [raceStep, step_loc_ne hji, hs]⟩
            simp only [raceStep, step_shared, hloc, storeStep, linkStaging, diskTarget,
              attempt_none, hd', hd]
            exact Disk.ino_of_lookup (Disk.lookup_bind_self _)
    | openStaging =>
        simp only [hloc, LinksAloneAt] at hat
        push Not at hat
        obtain ⟨hp, hf, hs⟩ := hat
        obtain ⟨k, hk⟩ := Option.ne_none_iff_exists'.mp hf
        have hst := Disk.ino_eq_some.mp (hs.trans hk)
        have hopen : c.shared.openAppend (stagingPath final) = .ok (c.shared, k) := by
          simp [Disk.openAppend, hst]
        refine ⟨i, k, ?_, ?_⟩
        · simp only [raceStep, step_shared, hloc, storeStep, diskTarget, attempt_none, hopen]
          exact hk
        · simp only [raceStep, step_loc_self, hloc, storeStep, diskTarget, attempt_none, hopen]
          simp [StorePc.appending, hp]
    | _ => exact absurd trivial (by simpa only [hloc, LinksAloneAt] using hat)
  obtain ⟨m, hm⟩ := clip_grows_of_appending calls hk hj
  refine ⟨j, m, _, Disk.read_eq_some.mpr ⟨k, hk, rfl⟩, ?_⟩
  rwa [Disk.read_eq_some.mpr ⟨k, hk, rfl⟩] at hm

end Immutable

/-! ## An upload among refused stores -/

section Refused
variable {calls : ι → StoreCall} {final : OsStr} {c : StoreRace ι} {up : ι} {chunks : List Bytes}

/-- The call returned `Overlap` or `Gap`. -/
def StorePc.Refused (p : StorePc Nat) : Prop :=
  p = .done (.error .overlap) ∨ p = .done (.error .gap)

instance (p : StorePc Nat) : Decidable p.Refused :=
  match p with
  | .done r => decidable_of_iff (r = .error .overlap ∨ r = .error .gap)
      (by simp [StorePc.Refused])
  | .start | .stat | .createParent | .openStaging | .copy .. | .flush _ | .link _ | .remove _ =>
      .isFalse (by simp [StorePc.Refused])

/-- Local states from which a call can still be refused: it has not gone past the
verdict on its offset. -/
def StorePc.Refusable : StorePc Nat → Prop
  | .start | .stat => True
  | .remove r | .done r => r = .error .overlap ∨ r = .error .gap
  | _ => False

/-- The call has the staging file open, or is about to link it. -/
def StorePc.Working : StorePc Nat → Prop
  | .copy .. | .flush _ | .link _ => True
  | _ => False

/-- The call is about to remove the staging name. -/
def StorePc.Removing : StorePc Nat → Prop
  | .remove _ => True
  | _ => False

instance : DecidablePred StorePc.Working
  | .copy .. | .flush _ | .link _ => .isTrue trivial
  | .start | .stat | .createParent | .openStaging | .remove _ | .done _ => .isFalse id

instance : DecidablePred StorePc.Removing
  | .remove _ => .isTrue trivial
  | .start | .stat | .createParent | .openStaging | .copy .. | .flush _ | .link _ | .done _ =>
      .isFalse id

/-- No other call's removal of the staging name falls between the open and the link of
the upload `up`. -/
def NotUnderway (up : ι) (c : StoreRace ι) (e : ι × Option Errno) : Prop :=
  e.1 ≠ up → e.2 = none → (c.loc e.1).Removing → ¬ (c.loc up).Working

instance (up : ι) (c : StoreRace ι) (e : ι × Option Errno) : Decidable (NotUnderway up c e) :=
  inferInstanceAs (Decidable (_ → _ → _ → _))

/-- How many steps a call still takes at most. -/
def StorePc.toGo (input : Input) : StorePc Nat → Nat
  | .start => input.length + 8
  | .stat => input.length + 7
  | .createParent => input.length + 6
  | .openStaging => input.length + 5
  | .copy _ rest _ => rest.length + 4
  | .flush _ => 3
  | .link _ => 2
  | .remove _ => 1
  | .done _ => 0

section Step
variable {N T : Type} [DecidableEq N] {staging' final' : N} {d : Disk N T} {startPos : Nat}
  {input : Input} {p : StorePc Nat} {f : Option Errno}

/-- Every step of a call brings it nearer to its return. -/
theorem toGo_storeStep :
    (storeStep (diskTarget final' staging') startPos input d p f).2.toGo input ≤
      p.toGo input - 1 := by
  cases p with
  | start =>
      simp only [storeStep]
      rcases attempt f ((diskTarget final' staging').tryExists d) with e | (_ | _) <;>
        simp [afterExists, StorePc.toGo]
  | stat =>
      simp only [storeStep]
      rcases judge startPos (attempt f ((diskTarget final' staging').stagingLen d))
        with e | (_ | _ | _) <;> simp [afterVerdict, StorePc.toGo]
  | createParent => cases f <;> simp [storeStep, makeParent, diskTarget, StorePc.toGo]
  | openStaging =>
      simp only [storeStep]
      split <;> simp [StorePc.toGo]
  | copy h rest n => rcases rest with _ | ⟨e | b, rest⟩ <;> simp [storeStep, StorePc.toGo]
  | flush n => cases f <;> simp [storeStep, StorePc.toGo]
  | link n => simp [storeStep, StorePc.toGo]
  | remove r => simp [storeStep, StorePc.toGo]
  | done r => simp [storeStep, StorePc.toGo]

/-- A call that is still to be refused has not gone past its verdict. -/
theorem refusable_of_storeStep
    (h : (storeStep (diskTarget final' staging') startPos input d p f).2.Refusable) :
    p.Refusable := by
  cases p with
  | start | stat => trivial
  | createParent => cases f <;> simp [storeStep, makeParent, diskTarget, StorePc.Refusable] at h
  | openStaging =>
      simp only [storeStep] at h
      split at h <;> simp [StorePc.Refusable] at h
  | copy k rest n => rcases rest with _ | ⟨e | b, rest⟩ <;> simp [storeStep, StorePc.Refusable] at h
  | flush n => cases f <;> simp [storeStep, StorePc.Refusable] at h
  | link n =>
      simp only [storeStep, linkStaging] at h
      split at h <;> simp [StorePc.Refusable] at h
  | remove r => exact h
  | done r => exact h

/-- A call that can still be refused does nothing to the disk but remove the staging
name. -/
theorem refusable_disk (h : p.Refusable) :
    (storeStep (diskTarget final' staging') startPos input d p f).1 = d ∨
      f = none ∧ p.Removing ∧
        (storeStep (diskTarget final' staging') startPos input d p f).1 = d.discard staging' := by
  cases p with
  | start | stat | done r => exact Or.inl rfl
  | remove r =>
      cases f with
      | none => exact Or.inr ⟨rfl, trivial, rfl⟩
      | some e => exact Or.inl rfl
  | createParent | openStaging | copy _ _ _ | flush _ | link _ => exact h.elim

/-- A call about to remove the staging name does so, unless the removal fails. -/
theorem removing_disk (h : p.Removing) :
    (storeStep (diskTarget final' staging') startPos input d p none).1 = d.discard staging' := by
  cases p with
  | remove r => rfl
  | start | stat | createParent | openStaging | copy _ _ _ | flush _ | link _ | done _ =>
      exact h.elim

end Step

/-- The upload is on its way to a finalized clip holding `chunks`: by its local state,
what the final and the staging name are bound to and which bytes are staged. -/
def OnItsWay (final : OsStr) (chunks : List Bytes) (d : Disk OsStr Empty) : StorePc Nat → Prop
  | .start | .stat | .createParent | .openStaging =>
      d.lookup final = none ∧ d.lookup (stagingPath final) = none
  | .copy h rest n =>
      d.lookup final = none ∧ d.lookup (stagingPath final) = some (.file h) ∧
        ∃ sent left, chunks = sent ++ left ∧ rest = left.map .ok ∧
          d.data h = sent.flatten ∧ n = sent.flatten.length
  | .flush n | .link n =>
      d.lookup final = none ∧
        ∃ h, d.lookup (stagingPath final) = some (.file h) ∧ d.data h = chunks.flatten ∧
          n = chunks.flatten.length
  | .remove r | .done r => r = .ok chunks.flatten.length ∧ d.read final = some chunks.flatten

/-- The upload has lost its staging name: it can only end in an error. -/
def Lost (final : OsStr) (d : Disk OsStr Empty) : StorePc Nat → Prop
  | .copy .. | .flush _ | .link _ =>
      d.lookup final = none ∧ d.lookup (stagingPath final) = none
  | .remove r | .done r => ∃ e, r = .error e
  | _ => False

/-- The upload's own next step keeps it on its way. -/
theorem onItsWay_own {d : Disk OsStr Empty} {p : StorePc Nat} (h : OnItsWay final chunks d p) :
    OnItsWay final chunks
      (storeStep (diskTarget final (stagingPath final)) 0 (chunks.map .ok) d p none).1
      (storeStep (diskTarget final (stagingPath final)) 0 (chunks.map .ok) d p none).2 := by
  have hne := stagingPath_ne final
  cases p with
  | start =>
      obtain ⟨hf, hs⟩ := h
      simp only [storeStep, diskTarget, hf, attempt_none]
      exact ⟨hf, hs⟩
  | stat =>
      obtain ⟨hf, hs⟩ := h
      simp only [storeStep, diskTarget, hs, attempt_none, judge]
      exact ⟨hf, hs⟩
  | createParent => exact h
  | openStaging =>
      obtain ⟨hf, hs⟩ := h
      simp only [storeStep, diskTarget, attempt_none, Disk.openAppend, hs]
      exact ⟨(Disk.lookup_create_ne hne.symm).trans hf, Disk.lookup_create_self, [], chunks, rfl,
        rfl, Disk.data_create_self, rfl⟩
  | copy k rest n =>
      -- the invariant splits the input into what was sent and what is left
      obtain ⟨hf, hs, sent, left, rfl, rfl, hdata, rfl⟩ := h
      cases left with
      | nil =>
          rw [List.append_nil]
          exact ⟨hf, k, hs, hdata, rfl⟩
      | cons b left =>
          refine ⟨hf, hs, sent ++ [b], left, by simp, rfl, ?_, by simp⟩
          refine (Disk.data_setData_self _).trans ?_
          rw [hdata]
          simp
  | flush n => exact h
  | link n =>
      obtain ⟨hf, k, hs, hdata, rfl⟩ := h
      obtain ⟨d', hd'⟩ := Disk.hardLink_file hs hf
      obtain ⟨e, he, hse, -, -, rfl⟩ := Disk.hardLink_ok hd'
      obtain rfl : Entry.file k = e := Option.some.inj (hs.symm.trans hse)
      simp only [storeStep, linkStaging, diskTarget, attempt_none, hd']
      exact ⟨rfl, Disk.read_eq_some.mpr
        ⟨k, Disk.ino_of_lookup (Disk.lookup_bind_self _), hdata⟩⟩
  | remove r =>
      obtain ⟨rfl, hr⟩ := h
      exact ⟨rfl, (Disk.read_discard_ne hne.symm).trans hr⟩
  | done r => exact h

/-- The removal of the staging name by somebody else keeps the upload on its way, when
the upload does not have the staging file open. -/
theorem onItsWay_discard {d : Disk OsStr Empty} {p : StorePc Nat} (h : OnItsWay final chunks d p)
    (hp : ¬ p.Working) : OnItsWay final chunks (d.discard (stagingPath final)) p := by
  cases p with
  | start | stat | createParent | openStaging =>
      rw [Disk.discard_absent h.2]
      exact h
  | copy k rest n => exact absurd trivial hp
  | flush n => exact absurd trivial hp
  | link n => exact absurd trivial hp
  | remove r | done r => exact ⟨h.1, (Disk.read_discard_ne (stagingPath_ne final).symm).trans h.2⟩

/-- The removal of the staging name by somebody else loses the upload, when it has the
staging file open. -/
theorem lost_discard {d : Disk OsStr Empty} {p : StorePc Nat} (h : OnItsWay final chunks d p)
    (hp : p.Working) : Lost final (d.discard (stagingPath final)) p := by
  have hlost {k : Nat} (hf : d.lookup final = none)
      (hs : d.lookup (stagingPath final) = some (.file k)) :
      (d.discard (stagingPath final)).lookup final = none ∧
        (d.discard (stagingPath final)).lookup (stagingPath final) = none := by
    rw [Disk.discard_file hs]
    exact ⟨(Disk.lookup_erase_ne (stagingPath_ne final).symm).trans hf, Disk.lookup_erase_self⟩
  cases p with
  | copy k rest n => exact hlost h.1 h.2.1
  | flush n | link n =>
      obtain ⟨hf, k, hs, -, -⟩ := h
      exact hlost hf hs
  | start | stat | createParent | openStaging | remove r | done r => exact hp.elim

/-- A lost upload stays lost under its own steps. -/
theorem lost_own {d : Disk OsStr Empty} {p : StorePc Nat} {startPos : Nat} {input : Input}
    {f : Option Errno} (h : Lost final d p) :
    Lost final (storeStep (diskTarget final (stagingPath final)) startPos input d p f).1
      (storeStep (diskTarget final (stagingPath final)) startPos input d p f).2 := by
  cases p with
  | copy k rest n =>
      rcases rest with _ | ⟨e | b, rest⟩
      · exact h
      · exact ⟨_, rfl⟩
      · exact h
  | flush n =>
      cases f with
      | none => exact h
      | some e => exact ⟨_, rfl⟩
  | link n =>
      simp only [storeStep]
      rcases linkStaging_cases final (stagingPath final) f d n
        with ⟨e, he⟩ | ⟨d', -, hl, -⟩
      · rw [he]
        exact ⟨e, rfl⟩
      · rw [Disk.hardLink_notFound h.2] at hl
        cases hl
  | remove r => exact h
  | done r => exact h
  | start | stat | createParent | openStaging => exact h.elim

/-- A lost upload stays lost when somebody else removes the staging name. -/
theorem lost_other {d d' : Disk OsStr Empty} {p : StorePc Nat} (h : Lost final d p)
    (hd : d' = d ∨ d' = d.discard (stagingPath final)) : Lost final d' p := by
  rcases hd with rfl | rfl
  · exact h
  · cases p with
    | copy k rest n => rwa [Disk.discard_absent h.2]
    | flush n => rwa [Disk.discard_absent h.2]
    | link n => rwa [Disk.discard_absent h.2]
    | remove r | done r => exact h
    | start | stat | createParent | openStaging => exact h.elim

/-- Every call but `up` can still be refused. -/
def OthersRefusable (up : ι) (c : StoreRace ι) : Prop := ∀ j, j ≠ up → (c.loc j).Refusable

/-- Calls that end up refused could be refused all along. -/
theorem othersRefusable_of_run (es : List (ι × Option Errno))
    (h : OthersRefusable up (run (raceStep calls final) c es)) : OthersRefusable up c := by
  induction es generalizing c with
  | nil => exact h
  | cons e es ih =>
      obtain ⟨i, f⟩ := e
      intro j hj
      have hj' := ih h j hj
      by_cases hji : j = i
      · subst hji
        rw [raceStep, step_loc_self] at hj'
        exact refusable_of_storeStep hj'
      · rwa [raceStep, step_loc_ne hji] at hj'

/-- What the step of another call does to the upload's surroundings. -/
theorem raceStep_other (calls : ι → StoreCall) (final : OsStr) {i : ι} (f : Option Errno)
    (hr : OthersRefusable up c) (hi : i ≠ up) :
    (raceStep calls final c (i, f)).loc up = c.loc up ∧
      ((raceStep calls final c (i, f)).shared = c.shared ∨
        f = none ∧ (c.loc i).Removing ∧
          (raceStep calls final c (i, f)).shared = c.shared.discard (stagingPath final)) :=
  ⟨step_loc_ne (Ne.symm hi), refusable_disk (hr i hi)⟩

/-- The upload, whose input reads without error, and its surroundings. -/
structure UploadOf (calls : ι → StoreCall) (up : ι) (chunks : List Bytes) : Prop where
  startPos : (calls up).startPos = 0
  input : (calls up).input = chunks.map .ok

/-- **An upload stays on its way** along a run of calls that can still be refused, in
which no refusal falls between its open and its link. -/
theorem onItsWay_run (hup : UploadOf calls up chunks) {es : List (ι × Option Errno)}
    (hown : ∀ e ∈ es, e.1 = up → e.2 = none)
    (hr : OthersRefusable up (run (raceStep calls final) c es))
    (hg : Along (raceStep calls final) (NotUnderway up) c es)
    (h : OnItsWay final chunks c.shared (c.loc up)) :
    OnItsWay final chunks (run (raceStep calls final) c es).shared
      ((run (raceStep calls final) c es).loc up) := by
  induction es generalizing c with
  | nil => exact h
  | cons e es ih =>
      obtain ⟨i, f⟩ := e
      refine ih (fun e he => hown e (List.mem_cons_of_mem _ he)) hr hg.2 ?_
      by_cases hi : i = up
      · subst hi
        obtain rfl : f = none := hown _ (List.mem_cons_self ..) rfl
        simp only [raceStep, step_shared, step_loc_self, hup.startPos, hup.input]
        exact onItsWay_own h
      · obtain ⟨hloc, hd⟩ := raceStep_other calls final f
          (othersRefusable_of_run ((i, f) :: es) hr) hi
        rw [hloc]
        rcases hd with hd | ⟨hf, hrem, hd⟩ <;> rw [hd]
        · exact h
        · exact onItsWay_discard h (hg.1 hi hf hrem)

/-- **A lost upload stays lost** along a run of calls that can still be refused. -/
theorem lost_run (es : List (ι × Option Errno))
    (hr : OthersRefusable up (run (raceStep calls final) c es))
    (h : Lost final c.shared (c.loc up)) :
    Lost final (run (raceStep calls final) c es).shared
      ((run (raceStep calls final) c es).loc up) := by
  induction es generalizing c with
  | nil => exact h
  | cons e es ih =>
      obtain ⟨i, f⟩ := e
      refine ih hr ?_
      by_cases hi : i = up
      · subst hi
        rw [raceStep, step_loc_self]
        exact lost_own h
      · obtain ⟨hloc, hd⟩ := raceStep_other calls final f
          (othersRefusable_of_run ((i, f) :: es) hr) hi
        rw [hloc]
        exact lost_other h (hd.imp_right fun hd => hd.2.2)

/-- A call takes at most `toGo` steps of its own. -/
theorem toGo_run {es : List (ι × Option Errno)} :
    ((run (raceStep calls final) c es).loc up).toGo (calls up).input ≤
      (c.loc up).toGo (calls up).input - es.countP (·.1 = up) := by
  induction es generalizing c with
  | nil => simp
  | cons e es ih =>
      obtain ⟨i, f⟩ := e
      rw [run_cons]
      by_cases hi : i = up
      · subst hi
        have hstep : ((raceStep calls final c (i, f)).loc i).toGo (calls i).input ≤
            (c.loc i).toGo (calls i).input - 1 := by
          rw [raceStep, step_loc_self]
          exact toGo_storeStep
        rw [List.countP_cons_of_pos (by simp)]
        exact ih.trans (by omega)
      · have hstep : (raceStep calls final c (i, f)).loc up = c.loc up := step_loc_ne (Ne.symm hi)
        rw [List.countP_cons_of_neg (by simpa using hi), ← hstep]
        exact ih

/-- A call left with nothing to do has returned. -/
theorem done_of_toGo (input : Input) {p : StorePc Nat} (h : p.toGo input = 0) :
    ∃ r, p = .done r := by
  cases p with
  | done r => exact ⟨r, rfl⟩
  | _ => simp [StorePc.toGo] at h

/-- **An upload among refused stores** succeeds exactly when no refusal removes the
staging name between its open and its link.  The upload starts at offset 0 on a final
and a staging path that are absent, reads its input without error, has no failing file
operation of its own and is run to its end; every other call ends up refused. -/
theorem upload_survives_iff (calls : ι → StoreCall) (final : OsStr) (up : ι)
    (chunks : List Bytes) (c : StoreRace ι) (es : List (ι × Option Errno))
    (hstart : (calls up).startPos = 0) (hinput : (calls up).input = chunks.map .ok)
    (hloc : c.loc up = .start) (hfinal : c.shared.lookup final = none)
    (hstaging : c.shared.lookup (stagingPath final) = none)
    (hown : ∀ e ∈ es, e.1 = up → e.2 = none)
    (hend : chunks.length + 8 ≤ es.countP (·.1 = up))
    (hrefused : ∀ j, j ≠ up → ((run (raceStep calls final) c es).loc j).Refused) :
    ((run (raceStep calls final) c es).loc up = .done (.ok chunks.flatten.length) ∧
        (run (raceStep calls final) c es).shared.read final = some chunks.flatten) ↔
      Along (raceStep calls final) (NotUnderway up) c es := by
  have hup : UploadOf calls up chunks := ⟨hstart, hinput⟩
  have hr : OthersRefusable up (run (raceStep calls final) c es) := by
    intro j hj
    rcases hrefused j hj with h | h <;> rw [h]
    · exact Or.inl rfl
    · exact Or.inr rfl
  have hway : OnItsWay final chunks c.shared (c.loc up) := by
    rw [hloc]
    exact ⟨hfinal, hstaging⟩
  have hdone : ∃ r, (run (raceStep calls final) c es).loc up = .done r := by
    refine done_of_toGo (calls up).input (Nat.le_zero.mp (toGo_run.trans ?_))
    rw [hloc, StorePc.toGo, hinput, List.length_map]
    omega
  obtain ⟨r, hdone⟩ := hdone
  constructor
  · rintro ⟨hok, -⟩
    by_contra hviol
    -- the first refusal under way loses the upload for good
    obtain ⟨pre, ⟨i, f⟩, rest, rfl, hpre, hbad⟩ := exists_first_violation hviol
    rw [run_append] at hok hr
    have hr' := othersRefusable_of_run _ hr
    have hway' := onItsWay_run hup
      (fun e he => hown e (List.mem_append_left _ he)) hr' hpre hway
    unfold NotUnderway at hbad
    push Not at hbad
    obtain ⟨hi, rfl, hrem, hwork⟩ := hbad
    obtain ⟨hsame, hd⟩ := raceStep_other calls final none hr' hi
    have hlost := lost_run (c := raceStep calls final _ (i, none)) rest hr (by
      rw [hsame]
      have hdisk : (raceStep calls final (run (raceStep calls final) c pre) (i, none)).shared =
          (run (raceStep calls final) c pre).shared.discard (stagingPath final) := by
        simp only [raceStep, step_shared]
        exact removing_disk hrem
      rw [hdisk]
      exact lost_discard hway' hwork)
    rw [run_cons] at hok
    rw [hok] at hlost
    obtain ⟨e, he⟩ := hlost
    cases he
  · intro hg
    have hway' := onItsWay_run hup hown hr hg hway
    rw [hdone] at hway' ⊢
    obtain ⟨rfl, hread⟩ := hway'
    exact ⟨rfl, hread⟩

/-- An upload of one byte, and a store that asks to continue at offset 5. -/
def uploadAndRefused (b : Bool) : StoreCall := if b then ⟨0, [.ok [1]]⟩ else ⟨5, []⟩

/-- The refused store runs first, and then the upload. -/
theorem upload_survives_sequential :
    (run (raceStep uploadAndRefused clip) (startRace .blank)
        (List.replicate 3 (false, none) ++ List.replicate 9 (true, none))).loc true =
          .done (.ok 1) ∧
      (run (raceStep uploadAndRefused clip) (startRace .blank)
        (List.replicate 3 (false, none) ++ List.replicate 9 (true, none))).shared.read clip =
          some [1] :=
  (upload_survives_iff uploadAndRefused clip true [[1]] (startRace .blank) _ rfl rfl rfl
    (by decide) (by decide) (by decide) (by decide) (by decide)).mpr (by decide)

/-- **A refused store destroys an upload.**  It removes the staging name that the
upload has open, and the upload's link fails. -/
theorem refused_store_destroys_upload :
    ¬ ∀ (calls : Bool → StoreCall) (final : OsStr) (chunks : List Bytes) (c : StoreRace Bool)
        (es : List (Bool × Option Errno)),
        (calls true).startPos = 0 → (calls true).input = chunks.map .ok →
        (∀ i, c.loc i = .start) → c.shared.lookup final = none →
        c.shared.lookup (stagingPath final) = none →
        (∀ e ∈ es, e.2 = none) → chunks.length + 8 ≤ es.countP (·.1 = true) →
        ((run (raceStep calls final) c es).loc false).Refused →
        (run (raceStep calls final) c es).loc true = .done (.ok chunks.flatten.length) ∧
          (run (raceStep calls final) c es).shared.read final = some chunks.flatten := by
  intro h
  have hlost := (h uploadAndRefused clip [[1]] (startRace .blank)
    (List.replicate 4 (true, none) ++ List.replicate 3 (false, none) ++
      List.replicate 5 (true, none))
    rfl rfl (fun _ => rfl) (by decide) (by decide) (by decide) (by decide) (by decide)).2
  revert hlost
  decide

end Refused

end Reoftpd

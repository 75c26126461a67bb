import Reoftpd.EncryptedRace
import Reoftpd.PlainRetries

/-!
# Retrying an encrypted upload

Attempts at one final path in encrypted mode, one after the other.  An attempt takes the steps
of `store_encrypted` on a disk of names, and the server may crash before any of them; the next
attempt then begins from what is there.

Unlike a plain upload, an encrypted one is never resumed: every attempt empties the staging
file and begins anew.  **So a crash never stands in the way** (`retry_law`): as long as the
final path is absent, an attempt that is left to finish is stored, and once the final path is
bound it holds the whole ciphertext of one attempt, for good.  What this rests on is that no
existence check fails: the code takes a check that fails for the answer that nothing is there,
and a crash right after the link leaves the staging name as a second name of the clip
(`failed_check_empties_clip`).
-/
namespace Reoftpd
open Runs UnixPath

/-- What happens to a series of attempts: a crash, if an attempt was under way, and the begin
of the next one; or the next step of the current one, which fails with `fault` if there is
one. -/
inductive RetryEvent (age : Age) where
  | begin (call : EncryptCall age)
  | step (fault : Option Errno)

/-- A series of attempts: the disk, the current attempt and how far it has come, and the
attempts made so far, this one included. -/
structure Retries (age : Age) (T : Type) where
  disk : Disk OsStr T
  call : EncryptCall age
  pc : EncryptPc Nat
  tried : List (EncryptCall age)

namespace Retries
variable {age : Age} {T : Type}

/-- The first attempt, on a disk. -/
def init (d : Disk OsStr T) (call : EncryptCall age) : Retries age T := ⟨d, call, .start, [call]⟩

/-- **One event.** -/
def step (final : OsStr) (w : Retries age T) : RetryEvent age → Retries age T
  | .begin call => { w with call, pc := .start, tried := call :: w.tried }
  | .step fault =>
      let r := encryptedStep (diskTarget final (stagingPath final)) w.call.out w.disk w.pc fault
      { w with disk := r.1, pc := r.2 }

/-- No existence check fails by itself. -/
def CheckTold (w : Retries age T) : RetryEvent age → Prop
  | .step (some _) =>
      match w.pc with
      | .start => False
      | _ => True
  | _ => True

/-! ## Before and after the final path is bound -/

section Stages
variable {final : OsStr} {w : Retries age T} {c : EncryptCall age} {i n : Nat}

/-- The final path is absent, and the current attempt has staged what it has written. -/
structure Open (final : OsStr) (w : Retries age T) : Prop where
  final_absent : w.disk.lookup final = none
  staging : w.disk.lookup (stagingPath final) = none ∨
    ∃ h, w.disk.lookup (stagingPath final) = some (.file h)
  staged : w.pc.Busy w.call.out → Staged w.call.out (stagingPath final) w.disk w.pc
  unacked : w.pc.acked = none

/-- What the place of the current attempt says once the attempt `c` has bound the final
path. -/
def FinalPc (c : EncryptCall age) (w : Retries age T) : EncryptPc Nat → Prop
  | .start | .done (.error _) => True
  | .remove (.ok n) | .done (.ok n) => c = w.call ∧ c.out.outcome = .ok n
  | _ => False

/-- The final path is bound to the inode `i`, which holds all that the attempt `c` has
encrypted. -/
structure Final (final : OsStr) (i : Nat) (c : EncryptCall age) (w : Retries age T) : Prop where
  bound : w.disk.lookup final = some (.file i)
  tried : c ∈ w.tried
  complete : ∃ n, c.out.outcome = .ok n
  data : w.disk.data i = c.out.chunks.flatten
  place : w.FinalPc c w.pc

/-- **While the final path is absent**, a step leaves it absent or binds it to all that the
current attempt has encrypted. -/
theorem Open.step (h : w.Open final) (hcall : w.call ∈ w.tried) (e : RetryEvent age) :
    (w.step final e).Open final ∨ ∃ i, (w.step final e).Final final i w.call := by
  obtain ⟨d, call, pc, tried⟩ := w
  obtain ⟨hfinal, hstaging, hstaged, hunacked⟩ := h
  simp only at hfinal hstaging hstaged hunacked hcall
  cases e with
  | begin call' => exact Or.inl ⟨hfinal, hstaging, fun hb => hb.elim, rfl⟩
  | step f =>
      have hmove : EncryptMove final (stagingPath final) call.out d pc f
          (encryptedStep (diskTarget final (stagingPath final)) call.out d pc f).1
          (encryptedStep (diskTarget final (stagingPath final)) call.out d pc f).2 :=
        encryptedStep_move
      simp only [Retries.step]
      generalize encryptedStep (diskTarget final (stagingPath final)) call.out d pc f = r at hmove ⊢
      obtain ⟨d', q⟩ := r
      have hnext : q.Busy call.out → Staged call.out (stagingPath final) d' q :=
        hmove.staged hstaged
      cases hmove with
      | stay p q f hq => exact Or.inl ⟨hfinal, hstaging, hnext, hq.acked⟩
      | emptied i hi => exact Or.inl ⟨hfinal, hstaging, hnext, rfl⟩
      | created hn =>
          refine Or.inl ⟨?_, Or.inr ⟨_, Disk.lookup_create_self⟩, hnext, rfl⟩
          exact (Disk.lookup_create_ne (stagingPath_ne final).symm).trans hfinal
      | wrote h off k b rest => exact Or.inl ⟨hfinal, hstaging, hnext, rfl⟩
      | encrypted h off k n f hn => exact Or.inl ⟨hfinal, hstaging, hnext, rfl⟩
      | linked n d' hl =>
          obtain ⟨e, he, hs, -, -, rfl⟩ := Disk.hardLink_ok hl
          obtain ⟨hok, hnone | ⟨i, hi, hdata⟩⟩ := hstaged trivial
          · rw [hnone] at hs
            cases hs
          · obtain rfl : e = .file i := Option.some.inj (hs.symm.trans (Disk.ino_eq_some.mp hi))
            exact Or.inr ⟨i, Disk.lookup_bind_self he, hcall, ⟨n, hok⟩, hdata, rfl, hok⟩
      | removed r f =>
          refine Or.inl ⟨?_, Or.inl Disk.lookup_erase_self, hnext, ?_⟩
          · exact (Disk.lookup_erase_ne (stagingPath_ne final).symm).trans hfinal
          · cases r with
            | ok n => cases hunacked
            | error e => rfl
      | returned p r f hp =>
          refine Or.inl ⟨hfinal, hstaging, hnext, ?_⟩
          cases r with
          | ok n => rcases hp with rfl | rfl <;> cases hunacked
          | error e => rfl

/-- **Once it is bound**, nothing happens to it: an attempt finds it there and returns. -/
theorem Final.step (h : w.Final final i c) {e : RetryEvent age} (he : w.CheckTold e) :
    (w.step final e).Final final i c := by
  obtain ⟨d, call, pc, tried⟩ := w
  obtain ⟨hbound, htried, hcomplete, hdata, hplace⟩ := h
  simp only at hbound htried hdata hplace
  cases e with
  | begin call' => exact ⟨hbound, List.mem_cons_of_mem _ htried, hcomplete, hdata, trivial⟩
  | step f =>
      cases pc with
      | start =>
          cases f with
          | some e => exact he.elim
          | none =>
              have hexists : (diskTarget final (stagingPath final)).tryExists d = .ok true :=
                diskExists_bound (by simp [hbound])
              refine ⟨hbound, htried, hcomplete, hdata, ?_⟩
              show FinalPc c _ (afterCheck ((diskTarget final (stagingPath final)).tryExists d))
              rw [hexists]
              trivial
      | remove r =>
          cases r with
          | error e => exact hplace.elim
          | ok n =>
              simp only [Retries.step, encryptedStep]
              rcases dropStaging_cases final (stagingPath final) f d with hd | hd <;> rw [hd]
              · exact ⟨hbound, htried, hcomplete, hdata, hplace⟩
              · exact ⟨(Disk.lookup_erase_ne (stagingPath_ne final).symm).trans hbound, htried,
                  hcomplete, hdata, hplace⟩
      | done r => exact ⟨hbound, htried, hcomplete, hdata, hplace⟩
      | createParent | create | write h off k rest | link n => exact hplace.elim

/-- One of the two holds in every state. -/
def Stage (final : OsStr) (w : Retries age T) : Prop :=
  w.call ∈ w.tried ∧ (w.Open final ∨ ∃ i c, w.Final final i c)

theorem Stage.step (h : w.Stage final) {e : RetryEvent age} (he : w.CheckTold e) :
    (w.step final e).Stage final := by
  refine ⟨?_, ?_⟩
  · cases e with
    | begin call => exact List.mem_cons_self ..
    | step f => exact h.1
  · rcases h.2 with hopen | ⟨i, c, hfin⟩
    · rcases hopen.step h.1 e with hnext | ⟨i, hfin⟩
      · exact Or.inl hnext
      · exact Or.inr ⟨i, w.call, hfin⟩
    · exact Or.inr ⟨i, c, hfin.step he⟩

theorem Final.run (h : w.Final final i c) {es : List (RetryEvent age)}
    (hes : Along (Retries.step final) CheckTold w es) :
    (run (Retries.step final) w es).Final final i c :=
  invariant_run (fun _ _ hw he => hw.step he) h hes

theorem Final.read (h : w.Final final i c) :
    w.disk.read final = some c.out.chunks.flatten :=
  Disk.read_eq_some.mpr ⟨i, Disk.ino_of_lookup h.bound, h.data⟩

/-! ## An attempt that is left to finish -/

/-- Steps without failures are those of a call left alone. -/
theorem run_replicate (final : OsStr) (w : Retries age T) (k : Nat) :
    run (Retries.step final) w (List.replicate k (.step none)) =
      { w with
        disk := ((soloEncryptedStep (diskTarget final (stagingPath final)) (fun _ => none)
          w.call.out)^[k] (w.disk, w.pc)).1
        pc := ((soloEncryptedStep (diskTarget final (stagingPath final)) (fun _ => none)
          w.call.out)^[k] (w.disk, w.pc)).2 } := by
  induction k generalizing w with
  | zero => rfl
  | succ k ih =>
      rw [List.replicate_succ, run_cons, ih, Function.iterate_succ_apply]
      simp [Retries.step, soloEncryptedStep]

/-- The writes of a ciphertext bind no name, and all of them are made if none fails. -/
theorem writeChunks_disk (final staging : OsStr) (d : Disk OsStr T) (h k off : Nat)
    (rest : List Bytes) :
    (writeChunks (diskTarget final staging) (fun _ => none) h d k off rest).2 = true ∧
      ∀ m, (writeChunks (diskTarget final staging) (fun _ => none) h d k off rest).1.lookup m =
        d.lookup m := by
  induction rest generalizing d k off with
  | nil => exact ⟨rfl, fun _ => rfl⟩
  | cons b rest ih => exact ih (d.writeAt h off b) (k + 1) (off + b.length)

/-- **Nothing stands in the way** of an encrypted store whose final path is absent, but a
directory at its staging name. -/
theorem storeEncrypted_disk {d : Disk OsStr T} {out : Encrypted} (hfinal : d.lookup final = none)
    (hstaging : d.lookup (stagingPath final) = none ∨
      ∃ h, d.lookup (stagingPath final) = some (.file h)) (hn : out.outcome = .ok n) :
    (storeEncrypted (diskTarget final (stagingPath final)) (fun _ => none) out d).2 = .ok n ∧
      (storeEncrypted (diskTarget final (stagingPath final)) (fun _ => none) out d).1.lookup
        (stagingPath final) = none := by
  have hstore : storeEncrypted (diskTarget final (stagingPath final)) (fun _ => none) out d =
      createAndEncrypt (diskTarget final (stagingPath final)) (fun _ => none) out d := by
    unfold storeEncrypted
    rw [diskExists_absent hfinal]
    rfl
  -- the open makes a staging file or empties the one that is there
  have hopen : ∃ d₁ h, d.openTruncate (stagingPath final) = .ok (d₁, h) ∧
      d₁.lookup (stagingPath final) = some (.file h) ∧ d₁.lookup final = none := by
    unfold Disk.openTruncate
    rcases hstaging with hs | ⟨h, hs⟩
    · refine ⟨_, _, by rw [hs], Disk.lookup_create_self, ?_⟩
      exact (Disk.lookup_create_ne (stagingPath_ne final).symm).trans hfinal
    · exact ⟨d.setData h [], h, by rw [hs], hs, hfinal⟩
  obtain ⟨d₁, h, hcreate, hh, hfree⟩ := hopen
  obtain ⟨hall, hlookup⟩ := writeChunks_disk final (stagingPath final) d₁ h 0 0 out.chunks
  have hcreated : createAndEncrypt (diskTarget final (stagingPath final)) (fun _ => none) out d =
      finalize (diskTarget final (stagingPath final)) (EncryptSite.ofStore fun _ => none)
        (writeChunks (diskTarget final (stagingPath final)) (fun _ => none) h d₁ 0 0
          out.chunks).1 n := by
    have hfile : attempt none ((diskTarget final (stagingPath final)).createFile d) =
        .ok (d₁, h) := hcreate
    simp only [createAndEncrypt, hfile, hn]
    generalize writeChunks (diskTarget final (stagingPath final)) (fun _ => none) h d₁ 0 0
      out.chunks = r at hall
    obtain ⟨d₂, done⟩ := r
    obtain rfl : done = true := hall
    rfl
  rw [hstore, hcreated]
  obtain ⟨hok, -, -, hgone⟩ := finalize_stored (EncryptSite.ofStore fun _ => none) rfl rfl
    ((hlookup final).trans hfree) ((hlookup _).trans hh) n
  exact ⟨hok, hgone⟩

/-- Where no step fails, no check does. -/
theorem along_checkTold {es : List (RetryEvent age)} (hes : ∀ e ∈ es, ∀ f, e ≠ .step (some f))
    (w : Retries age T) : Along (Retries.step final) CheckTold w es := by
  induction es generalizing w with
  | nil => trivial
  | cons e es ih =>
      obtain ⟨he, hes⟩ := List.forall_mem_cons.mp hes
      refine ⟨?_, ih hes _⟩
      cases e with
      | begin call => trivial
      | step f =>
          cases f with
          | none => trivial
          | some f => exact absurd rfl (he f)

/-- **A retry is stored**, if it is left to finish. -/
theorem Stage.retried (h : w.Stage final) (hfinal : w.disk.lookup final = none)
    {call : EncryptCall age} (hn : call.out.outcome = .ok n) :
    let w' := run (Retries.step final) w
      (.begin call :: List.replicate (call.out.chunks.length + 6) (.step none))
    w'.pc = .done (.ok n) ∧ w'.disk.read final = some call.out.chunks.flatten ∧
      w'.disk.lookup (stagingPath final) = none := by
  intro w'
  have hstaging : w.disk.lookup (stagingPath final) = none ∨
      ∃ h, w.disk.lookup (stagingPath final) = some (.file h) := by
    rcases h.2 with hopen | ⟨i, c, hfin⟩
    · exact hopen.staging
    · rw [hfin.bound] at hfinal
      cases hfinal
  have hsteps : EncryptionFinishes (diskTarget final (stagingPath final)) (fun _ => none) call.out
      (call.out.chunks.length + 6) (w.disk, .start)
      (storeEncrypted (diskTarget final (stagingPath final)) (fun _ => none) call.out w.disk) :=
    encryptedSteps_eq w.disk
  have hrun := run_replicate final (w.step final (.begin call)) (call.out.chunks.length + 6)
  obtain ⟨hok, hgone⟩ := storeEncrypted_disk hfinal hstaging hn
  have hpc : w'.pc = .done (.ok n) := by
    show (run (Retries.step final) (w.step final (.begin call)) _).pc = _
    rw [hrun, ← hok]
    exact congrArg Prod.snd hsteps
  have hdisk : w'.disk = (storeEncrypted (diskTarget final (stagingPath final)) (fun _ => none)
      call.out w.disk).1 := by
    show (run (Retries.step final) (w.step final (.begin call)) _).disk = _
    rw [hrun]
    exact congrArg Prod.fst hsteps
  -- the stage the run has come to says what the clip holds
  have hcheck : Along (Retries.step final) CheckTold w
      (.begin call :: List.replicate (call.out.chunks.length + 6) (.step none)) := by
    refine along_checkTold (fun e he f => ?_) w
    rcases List.mem_cons.mp he with rfl | he
    · simp
    · obtain ⟨-, rfl⟩ := List.mem_replicate.mp he
      simp
  have hstage : w'.Stage final := invariant_run (fun _ _ hw he => hw.step he) h hcheck
  have hcall : w'.call = call := by
    show (run (Retries.step final) (w.step final (.begin call)) _).call = _
    rw [hrun]
    rfl
  refine ⟨hpc, ?_, by rw [hdisk]; exact hgone⟩
  rcases hstage.2 with hopen | ⟨i, c, hfin⟩
  · have hunacked := hopen.unacked
    rw [hpc] at hunacked
    cases hunacked
  · have hplace := hfin.place
    rw [hpc] at hplace
    obtain rfl : c = call := hplace.1.trans hcall
    exact hfin.read

/-- **What a series of attempts has come to**, in one of its states and in all later ones. -/
structure RetryLaw (final : OsStr) (w : Retries age T) : Prop where
  /-- The final path is absent, or holds the whole ciphertext of one attempt, for good. -/
  complete : w.disk.lookup final = none ∨ ∃ c ∈ w.tried, (∃ n, c.out.outcome = .ok n) ∧
    ∀ es, Along (Retries.step final) CheckTold w es →
      (run (Retries.step final) w es).disk.read final = some c.out.chunks.flatten
  /-- An attempt that returns `Ok` has stored its own. -/
  acknowledged : ∀ n, w.pc = .done (.ok n) → w.call.out.outcome = .ok n ∧
    ∀ es, Along (Retries.step final) CheckTold w es →
      (run (Retries.step final) w es).disk.read final = some w.call.out.chunks.flatten
  /-- While the final path is absent, an attempt that meets no failure is stored, and cleans
  up. -/
  retried : w.disk.lookup final = none → ∀ (call : EncryptCall age) (n : Nat),
    call.out.outcome = .ok n →
      let w' := run (Retries.step final) w
        (.begin call :: List.replicate (call.out.chunks.length + 6) (.step none))
      w'.pc = .done (.ok n) ∧ w'.disk.read final = some call.out.chunks.flatten ∧
        w'.disk.lookup (stagingPath final) = none

theorem Stage.law (h : w.Stage final) : RetryLaw final w := by
  refine ⟨?_, fun n hn => ?_, fun hfinal call n hn => h.retried hfinal hn⟩
  · rcases h.2 with hopen | ⟨i, c, hfin⟩
    · exact Or.inl hopen.final_absent
    · exact Or.inr ⟨c, hfin.tried, hfin.complete, fun es hes => (hfin.run hes).read⟩
  · rcases h.2 with hopen | ⟨i, c, hfin⟩
    · have hunacked := hopen.unacked
      rw [hn] at hunacked
      cases hunacked
    · have hplace := hfin.place
      rw [hn] at hplace
      obtain ⟨rfl, hok⟩ := hplace
      exact ⟨hok, fun es hes => (hfin.run hes).read⟩

end Stages

/-! ## The law -/

/-- **The retry law of `store_encrypted`.**  On a disk where the final path is absent and no
directory is in the way, whatever attempts are made one after the other, however each of them
fails or is cut off by a crash, as long as no existence check fails by itself. -/
theorem retry_law {final : OsStr} {d : Disk OsStr T} (hfinal : d.lookup final = none)
    (hstaging : d.lookup (stagingPath final) = none ∨
      ∃ h, d.lookup (stagingPath final) = some (.file h))
    (call : EncryptCall age) {es : List (RetryEvent age)}
    (hes : Along (step final) CheckTold (init d call) es) :
    RetryLaw final (run (step final) (init d call) es) := by
  have hstart : (init d call).Stage final :=
    ⟨List.mem_cons_self .., Or.inl ⟨hfinal, hstaging, fun hb => hb.elim, rfl⟩⟩
  have hstage : (run (step final) (init d call) es).Stage final :=
    invariant_run (fun _ _ hw he => hw.step he) hstart hes
  exact hstage.law

/-- An attempt crashes after its first write. -/
def crashedOnce : List (RetryEvent shiftAge) := List.replicate 4 (.step none)

/-- The next one will be stored. -/
theorem crashed_upload_retried :
    RetryLaw clip (run (step clip) (init (.blank : Disk OsStr Empty) (twoEncrypted true))
      crashedOnce) := by
  refine retry_law rfl (Or.inl rfl) _ (along_checkTold (fun e he f => ?_) _)
  obtain ⟨-, rfl⟩ := List.mem_replicate.mp he
  simp

/-- **A failed check empties the clip.**  The first attempt is stored and acknowledged, but its
staging name stays; the existence check of the second one fails, and its `File::create` empties
the clip. -/
theorem failed_check_empties_clip :
    let stored := run (step clip) (init (.blank : Disk OsStr Empty) (twoEncrypted true))
      (List.replicate (((twoEncrypted true).out.chunks.length) + 5) (.step none) ++
        [.step (some (.other 5))])
    let retried := run (step clip) stored
      [.begin (twoEncrypted false), .step (some (.other 5)), .step none, .step none]
    stored.pc.acked = some 1 ∧
      stored.disk.read clip = some (twoEncrypted true).out.chunks.flatten ∧
      retried.disk.read clip = some [] := by
  decide

end Retries

end Reoftpd

import Reoftpd.Resume

/-!
# Getting an upload through

The resume law says that no attempt at a clip leaves anything wrong.  It does not say that the
clip ever gets there: an attempt that is cut off leaves a staging file behind, and one that
starts over at offset 0 is then refused for the overlap.

**The second try gets through** (`restart_law`).  Whatever has been attempted before, as long
as the final path is absent: an attempt that goes on where the staging file ends is stored,
with all that was there before it; and of two attempts in a row from the start, one is, since
the first is stored or takes the staging file away.
-/
namespace Reoftpd
open Runs UnixPath

section Disk
variable {T : Type} {final : OsStr} {d : Disk OsStr T} {h : Nat} {chunks : List Bytes}

/-- The bytes at the staging path, none if it is absent. -/
def stagedOn (final : OsStr) (d : Disk OsStr T) : Bytes := (d.read (stagingPath final)).getD []

/-- The copy appends every chunk, and binds no name. -/
theorem copyInput_disk (final staging : OsStr) (d : Disk OsStr T) (h n : Nat)
    (chunks : List Bytes) :
    let r := copyInput (diskTarget final staging) h d (chunks.map .ok) n
    r.2 = .ok (n + chunks.flatten.length) ∧ (∀ m, r.1.lookup m = d.lookup m) ∧
      r.1.data h = d.data h ++ chunks.flatten := by
  induction chunks generalizing d n with
  | nil => exact ⟨rfl, fun _ => rfl, (List.append_nil _).symm⟩
  | cons b chunks ih =>
      obtain ⟨hn, hlookup, hdata⟩ := ih (d.append h b) (n + b.length)
      have hb : (d.append h b).data h = d.data h ++ b := by
        simp [Disk.append, Disk.setData]
      refine ⟨?_, hlookup, ?_⟩
      · rw [List.flatten_cons, List.length_append, ← Nat.add_assoc]
        exact hn
      · rw [List.flatten_cons, ← List.append_assoc, ← hb]
        exact hdata

/-- **The end of a store that meets no failure**: the final path is bound to the staging file,
and the staging name goes. -/
theorem finalize_stored (fault : StoreSite → Option Errno) (hlink : fault .link = none)
    (hremove : fault .remove = none) (hfinal : d.lookup final = none)
    (hh : d.lookup (stagingPath final) = some (.file h)) (n : Nat) :
    let r := finalize (diskTarget final (stagingPath final)) fault d n
    r.2 = .ok n ∧ r.1.lookup final = some (.file h) ∧ r.1.data = d.data ∧
      r.1.lookup (stagingPath final) = none := by
  obtain ⟨d', hd'⟩ := Disk.hardLink_file hh hfinal
  have hfin : finalize (diskTarget final (stagingPath final)) fault d n =
      (d'.discard (stagingPath final), .ok n) := by
    simp [finalize, linkStaging, dropStaging, hlink, hremove, diskTarget, hd']
  obtain ⟨e, he, hs, -, -, rfl⟩ := Disk.hardLink_ok hd'
  obtain rfl : e = .file h := Option.some.inj (hs.symm.trans hh)
  have hbound : (d.bind final (.file h) he).lookup (stagingPath final) = some (.file h) :=
    (Disk.lookup_bind_ne he (stagingPath_ne final)).trans hh
  rw [hfin, Disk.discard_file hbound]
  refine ⟨rfl, ?_, rfl, Disk.lookup_erase_self⟩
  exact (Disk.lookup_erase_ne (stagingPath_ne final).symm).trans (Disk.lookup_bind_self he)

theorem diskExists_absent (hfinal : d.lookup final = none) :
    (diskTarget final (stagingPath final)).tryExists d = .ok false := by
  show Except.ok (d.lookup final).isSome = _
  rw [hfinal]
  rfl

theorem diskExists_bound (hfinal : d.lookup final ≠ none) :
    (diskTarget final (stagingPath final)).tryExists d = .ok true := by
  obtain ⟨e, he⟩ := Option.ne_none_iff_exists'.mp hfinal
  show Except.ok (d.lookup final).isSome = _
  rw [he]
  rfl

/-- The verdict on an offset is passed by the bytes that are staged. -/
theorem judge_stagedOn (hstaging : d.lookup (stagingPath final) = none ∨
      ∃ h, d.lookup (stagingPath final) = some (.file h)) (startPos : Nat) :
    judge startPos ((diskTarget final (stagingPath final)).stagingLen d) =
      .ok (classifyOffset startPos (stagedOn final d).length) := by
  rcases hstaging with hs | ⟨h, hs⟩
  · simp [judge, diskTarget, hs, stagedOn, Disk.read, Disk.ino]
  · simp [judge, diskTarget, hs, stagedOn, Disk.read, Disk.ino]

/-- A store whose final path is absent goes by that verdict. -/
theorem storeStream_judged (hfinal : d.lookup final = none)
    (hstaging : d.lookup (stagingPath final) = none ∨
      ∃ h, d.lookup (stagingPath final) = some (.file h)) (startPos : Nat) (input : Input) :
    storeStream (diskTarget final (stagingPath final)) (fun _ => none) startPos input d =
      match classifyOffset startPos (stagedOn final d).length with
      | .ok => openAndStream (diskTarget final (stagingPath final)) (fun _ => none) input d
      | .overlap => (d.discard (stagingPath final), .error .overlap)
      | .gap => (d.discard (stagingPath final), .error .gap) := by
  unfold storeStream
  rw [attempt_none, diskExists_absent hfinal]
  simp only [attempt_none, judge_stagedOn hstaging]
  cases classifyOffset startPos (stagedOn final d).length <;> rfl

/-- **An attempt at the right offset** is stored. -/
theorem storeStream_resumed (hfinal : d.lookup final = none)
    (hstaging : d.lookup (stagingPath final) = none ∨
      ∃ h, d.lookup (stagingPath final) = some (.file h)) (chunks : List Bytes) :
    let r := storeStream (diskTarget final (stagingPath final)) (fun _ => none)
      (stagedOn final d).length (chunks.map .ok) d
    r.2 = .ok chunks.flatten.length ∧
      r.1.read final = some (stagedOn final d ++ chunks.flatten) ∧
      r.1.lookup (stagingPath final) = none := by
  -- the open makes a staging file or finds the one that is there
  have hopen : ∃ d₁ h, d.openAppend (stagingPath final) = .ok (d₁, h) ∧
      d₁.lookup (stagingPath final) = some (.file h) ∧ d₁.lookup final = none ∧
      d₁.data h = stagedOn final d := by
    unfold Disk.openAppend
    rcases hstaging with hs | ⟨h, hs⟩
    · refine ⟨_, _, by rw [hs], Disk.lookup_create_self, ?_, ?_⟩
      · exact (Disk.lookup_create_ne (stagingPath_ne final).symm).trans hfinal
      · simp [stagedOn, Disk.read, Disk.ino, hs, Disk.create]
    · exact ⟨d, h, by rw [hs], hs, hfinal, by simp [stagedOn, Disk.read, Disk.ino, hs]⟩
  obtain ⟨d₁, h, hopened, hh, hfree, hstaged⟩ := hopen
  obtain ⟨hcount, hlookup, hdata⟩ := copyInput_disk final (stagingPath final) d₁ h 0 chunks
  have hstore : storeStream (diskTarget final (stagingPath final)) (fun _ => none)
      (stagedOn final d).length (chunks.map .ok) d =
        finalize (diskTarget final (stagingPath final)) (fun _ => none)
          (copyInput (diskTarget final (stagingPath final)) h d₁ (chunks.map .ok) 0).1
          chunks.flatten.length := by
    have happend : attempt none ((diskTarget final (stagingPath final)).openAppend d) =
        .ok (d₁, h) := hopened
    rw [storeStream_judged hfinal hstaging, classifyOffset_ok_iff.mpr rfl]
    have hparent : makeParent (diskTarget final (stagingPath final)) none d = (d, .ok ()) := rfl
    simp only [openAndStream, hparent, happend, streamInput]
    generalize copyInput (diskTarget final (stagingPath final)) h d₁ (chunks.map .ok) 0 = r
      at hcount
    obtain ⟨d₂, n⟩ := r
    obtain rfl : n = .ok (0 + chunks.flatten.length) := hcount
    rw [Nat.zero_add]
  obtain ⟨hok, hbound, hkept, hgone⟩ := finalize_stored (fun _ => none) rfl rfl
    ((hlookup final).trans hfree) ((hlookup _).trans hh) chunks.flatten.length
  intro r
  rw [show r = _ from hstore]
  refine ⟨hok, Disk.read_eq_some.mpr ⟨h, Disk.ino_of_lookup hbound, ?_⟩, hgone⟩
  rw [hkept, hdata, hstaged]

/-- **An attempt at any other offset** is refused, and takes the staging file away. -/
theorem storeStream_refused_offset (hfinal : d.lookup final = none)
    (hstaging : d.lookup (stagingPath final) = none ∨
      ∃ h, d.lookup (stagingPath final) = some (.file h)) {startPos : Nat}
    (hpos : startPos ≠ (stagedOn final d).length) (input : Input) :
    let r := storeStream (diskTarget final (stagingPath final)) (fun _ => none) startPos input d
    (∃ e, r.2 = .error e) ∧ r.1.lookup final = none ∧ r.1.lookup (stagingPath final) = none := by
  have hgone : (d.discard (stagingPath final)).lookup final = none ∧
      (d.discard (stagingPath final)).lookup (stagingPath final) = none := by
    rcases hstaging with hs | ⟨h, hs⟩
    · rw [Disk.discard_absent hs]
      exact ⟨hfinal, hs⟩
    · rw [Disk.discard_file hs]
      exact ⟨(Disk.lookup_erase_ne (stagingPath_ne final).symm).trans hfinal,
        Disk.lookup_erase_self⟩
  intro r
  have hr : r = _ := storeStream_judged hfinal hstaging startPos input
  rw [hr]
  cases hverdict : classifyOffset startPos (stagedOn final d).length with
  | ok => exact absurd (classifyOffset_ok_iff.mp hverdict) hpos
  | overlap => exact ⟨⟨_, rfl⟩, hgone⟩
  | gap => exact ⟨⟨_, rfl⟩, hgone⟩

/-- A store that finds its final path changes nothing. -/
theorem storeStream_finalized (hfinal : d.lookup final ≠ none) (startPos : Nat) (input : Input) :
    storeStream (diskTarget final (stagingPath final)) (fun _ => none) startPos input d =
      (d, .error .finalized) := by
  unfold storeStream
  rw [attempt_none, diskExists_bound hfinal]

end Disk

/-! ## Attempts that are left alone -/

namespace Attempts
variable {T : Type} {final : OsStr} {w : Attempts T}

/-- An attempt that begins and meets no failure, to its end. -/
def whole (call : StoreCall) : List AttemptEvent :=
  .begin call :: List.replicate (call.input.length + 8) (.step none)

/-- Where it leads. -/
def again (final : OsStr) (w : Attempts T) (call : StoreCall) : Attempts T :=
  run (step final) w (whole call)

/-- Steps without failures are those of a call left alone. -/
theorem run_replicate (final : OsStr) (w : Attempts T) (k : Nat) :
    ((run (step final) w (List.replicate k (.step none))).disk,
        (run (step final) w (List.replicate k (.step none))).pc) =
      (soloStep (diskTarget final (stagingPath final)) (fun _ => none) w.call.startPos
        w.call.input)^[k] (w.disk, w.pc) := by
  induction k generalizing w with
  | zero => rfl
  | succ k ih =>
      rw [List.replicate_succ, run_cons, ih, Function.iterate_succ_apply]
      simp [Attempts.step, operate, soloStep]

/-- **A whole attempt is `store_stream`.** -/
theorem again_eq (final : OsStr) (w : Attempts T) (call : StoreCall) :
    ((again final w call).disk, (again final w call).pc) =
      ((storeStream (diskTarget final (stagingPath final)) (fun _ => none) call.startPos call.input
          w.disk).1,
        .done (storeStream (diskTarget final (stagingPath final)) (fun _ => none) call.startPos
          call.input w.disk).2) := by
  rw [again, whole, run_cons, run_replicate]
  exact storeSteps_eq w.disk

/-- While the final path is absent, the staging path is absent or a file. -/
theorem Stage.staging (h : w.Stage final) (hfinal : w.disk.lookup final = none) :
    w.disk.lookup (stagingPath final) = none ∨
      ∃ h, w.disk.lookup (stagingPath final) = some (.file h) := by
  rcases h with hopen | ⟨i, hfin⟩
  · exact hopen.staging.imp_right fun ⟨i, hs, _⟩ => ⟨i, hs⟩
  · rw [hfin.bound] at hfinal
    cases hfinal

/-- What an upload may hope for in one state of a series of attempts. -/
structure RestartLaw (final : OsStr) (w : Attempts T) (chunks : List Bytes) : Prop where
  /-- Going on where the staging file ends stores it with what is sent. -/
  resumed : let w' := again final w ⟨(stagedOn final w.disk).length, chunks.map .ok⟩
    w'.pc = .done (.ok chunks.flatten.length) ∧
      w'.disk.read final = some (stagedOn final w.disk ++ chunks.flatten) ∧
      w'.disk.lookup (stagingPath final) = none
  /-- Of two attempts from the start, one is stored, and nothing is left behind. -/
  restarted : let w₁ := again final w ⟨0, chunks.map .ok⟩
    let w₂ := again final w₁ ⟨0, chunks.map .ok⟩
    (w₁.pc = .done (.ok chunks.flatten.length) ∨ w₂.pc = .done (.ok chunks.flatten.length)) ∧
      w₂.disk.read final = some chunks.flatten ∧ w₂.disk.lookup (stagingPath final) = none

/-- **The second try gets through**, whatever has been attempted before and however it ended,
as long as the final path is absent. -/
theorem restart_law {d : Disk OsStr T} (hfinal : d.lookup final = none)
    (hstaging : d.lookup (stagingPath final) = none) (call : StoreCall)
    (es : List AttemptEvent) (chunks : List Bytes)
    (habsent : (run (step final) (init d call) es).disk.lookup final = none) :
    RestartLaw final (run (step final) (init d call) es) chunks := by
  have hstage : (run (step final) (init d call) es).Stage final :=
    stage_run hfinal hstaging call es
  generalize run (step final) (init d call) es = w at habsent hstage
  have hplace := hstage.staging habsent
  refine ⟨?_, ?_⟩
  · obtain ⟨hok, hread, hgone⟩ := storeStream_resumed habsent hplace chunks
    obtain ⟨hdisk, hpc⟩ := Prod.mk.inj
      (again_eq final w ⟨(stagedOn final w.disk).length, chunks.map .ok⟩)
    intro w'
    rw [show w'.disk = _ from hdisk, show w'.pc = _ from hpc]
    exact ⟨congrArg StorePc.done hok, hread, hgone⟩
  · intro w₁ w₂
    obtain ⟨hdisk₁, hpc₁⟩ := Prod.mk.inj (again_eq final w ⟨0, chunks.map .ok⟩)
    obtain ⟨hdisk₂, hpc₂⟩ := Prod.mk.inj (again_eq final w₁ ⟨0, chunks.map .ok⟩)
    by_cases hpos : 0 = (stagedOn final w.disk).length
    · -- nothing is staged: the first is stored, and the second finds it there
      have hnil : stagedOn final w.disk = [] := List.length_eq_zero_iff.mp hpos.symm
      obtain ⟨hok, hread, hgone⟩ := storeStream_resumed habsent hplace chunks
      rw [← hpos, hnil, List.nil_append] at hread
      rw [← hpos] at hok hgone
      have hread₁ : w₁.disk.read final = some chunks.flatten := by
        rw [show w₁.disk = _ from hdisk₁]
        exact hread
      have hbound : w₁.disk.lookup final ≠ none := by
        obtain ⟨i, hi, -⟩ := Disk.read_eq_some.mp hread₁
        rw [Disk.ino_eq_some.mp hi]
        simp
      have hsame : w₂.disk = w₁.disk := by
        rw [show w₂.disk = _ from hdisk₂, storeStream_finalized hbound]
      refine ⟨Or.inl ?_, by rw [hsame]; exact hread₁, ?_⟩
      · rw [show w₁.pc = _ from hpc₁]
        exact congrArg StorePc.done hok
      · rw [hsame, show w₁.disk = _ from hdisk₁]
        exact hgone
    · -- something is: the first takes it away, and the second is stored
      obtain ⟨-, hfree, hgone⟩ := storeStream_refused_offset habsent hplace hpos (chunks.map .ok)
      have hfree₁ : w₁.disk.lookup final = none := by
        rw [show w₁.disk = _ from hdisk₁]
        exact hfree
      have hgone₁ : w₁.disk.lookup (stagingPath final) = none := by
        rw [show w₁.disk = _ from hdisk₁]
        exact hgone
      have hnil : stagedOn final w₁.disk = [] := by
        simp [stagedOn, Disk.read, Disk.ino, hgone₁]
      obtain ⟨hok, hread, hgone₂⟩ := storeStream_resumed hfree₁ (Or.inl hgone₁) chunks
      rw [hnil, List.nil_append] at hread
      rw [hnil] at hok hgone₂
      refine ⟨Or.inr ?_, ?_, ?_⟩
      · rw [show w₂.pc = _ from hpc₂]
        exact congrArg StorePc.done hok
      · rw [show w₂.disk = _ from hdisk₂]
        exact hread
      · rw [show w₂.disk = _ from hdisk₂]
        exact hgone₂

/-- An upload is cut off after its first chunk, and the camera starts over. -/
theorem restarted_clip_stored :
    RestartLaw (ofString "/c/x")
      (run (step (ofString "/c/x")) (init (Disk.blank : Disk OsStr Empty) ⟨0, [.ok [1], .ok [9]]⟩)
        (List.replicate 5 (.step none))) [[1], [2]] :=
  restart_law rfl rfl _ _ _ (by decide)

end Attempts

end Reoftpd

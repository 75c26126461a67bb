import Reoftpd.StoreRace

/-!
# Resuming an upload

Attempts at one final path, one after the other.  An attempt takes the steps of
`store_stream` on a disk of names and may be cut off before any of them, by a
cancellation or a crash; what it wrote so far has landed, and the next attempt begins
from what it left.

The **ledger** records what a run shows: for each attempt that opened the staging file
since that was last absent, the start offset it gave and the bytes it appended.  It is
only read by statements.

**The resume law** (`resume_law`).  The final path is absent, or it holds everything the
ledger records and keeps it for good.  The staging file only grows by appending, or goes
as a whole.  The attempts of the ledger follow on one another without a gap or an
overlap, and the one that returns `Ok(n)` is the last of them, with all `n` bytes of its
input.
-/
namespace Reoftpd
open Runs UnixPath

/-- A failure of an operation by itself: `NotFound` only ever says that a name is missing. -/
abbrev OwnFault := {e : Errno // e ≠ .notFound}

/-- What happens to a series of attempts: the next one begins, whatever has become of the
one before, or the current one takes a step. -/
inductive AttemptEvent where
  | begin (call : StoreCall)
  | step (fault : Option OwnFault)

/-- A series of attempts: the disk, the current attempt and how far it has come, and the
ledger. -/
structure Attempts (T : Type) where
  disk : Disk OsStr T
  call : StoreCall
  pc : StorePc Nat
  ledger : List (Nat × Bytes)

/-- The last attempt of the ledger appends `b`. -/
def credit (ledger : List (Nat × Bytes)) (b : Bytes) : List (Nat × Bytes) :=
  match ledger.getLast? with
  | some (p, c) => ledger.dropLast ++ [(p, c ++ b)]
  | none => []

/-- Everything a ledger records, in order. -/
def content (ledger : List (Nat × Bytes)) : Bytes := ledger.flatMap Prod.snd

/-- **No gap, no overlap**: every attempt of the ledger begins where those before it end. -/
def Contiguous (ledger : List (Nat × Bytes)) : Prop :=
  ∀ before p b after, ledger = before ++ (p, b) :: after → p = (content before).length

namespace Attempts
variable {T : Type}

/-- The first attempt, on a disk. -/
def init (d : Disk OsStr T) (call : StoreCall) : Attempts T := ⟨d, call, .start, []⟩

/-- The ledger after a step that leads to `q`: an open adds an attempt, and begins a new
ledger if there is no staging file; an append adds to the last attempt. -/
def record (w : Attempts T) (staging : OsStr) (q : StorePc Nat) : List (Nat × Bytes) :=
  match w.pc, q with
  | .openStaging, .copy .. =>
      if w.disk.lookup staging = none then [(w.call.startPos, [])]
      else w.ledger ++ [(w.call.startPos, [])]
  | .copy _ (.ok b :: _) _, _ => credit w.ledger b
  | _, _ => w.ledger

/-- The next operation of the current attempt. -/
def operate (final : OsStr) (w : Attempts T) (fault : Option OwnFault) :
    Disk OsStr T × StorePc Nat :=
  storeStep (diskTarget final (stagingPath final)) w.call.startPos w.call.input w.disk w.pc
    (fault.map Subtype.val)

/-- **One event.** -/
def step (final : OsStr) (w : Attempts T) : AttemptEvent → Attempts T
  | .begin call => { w with call, pc := .start }
  | .step fault =>
      { w with
        disk := (w.operate final fault).1
        pc := (w.operate final fault).2
        ledger := w.record (stagingPath final) (w.operate final fault).2 }

end Attempts

/-! ## Ledgers -/

section Ledger
variable {l : List (Nat × Bytes)} {p : Nat} {b c : Bytes}

@[simp] theorem content_concat : content (l ++ [(p, b)]) = content l ++ b := by
  simp [content]

@[simp] theorem credit_concat : credit (l ++ [(p, c)]) b = l ++ [(p, c ++ b)] := by
  simp [credit]

theorem contiguous_nil : Contiguous [] := by
  intro before p b after h
  simp at h

/-- An attempt may follow when it begins where the others end, whatever it appends. -/
theorem contiguous_concat : Contiguous (l ++ [(p, b)]) ↔ Contiguous l ∧ p = (content l).length := by
  constructor
  · intro h
    refine ⟨fun before q c after he => ?_, h l p b [] rfl⟩
    exact h before q c (after ++ [(p, b)]) (by simp [he])
  · rintro ⟨h, hp⟩ before q c after he
    rcases List.eq_nil_or_concat after with rfl | ⟨after', e, rfl⟩
    · obtain ⟨rfl, hlast⟩ := List.append_inj' he rfl
      obtain ⟨rfl, rfl⟩ := Prod.mk.inj (List.cons.inj hlast).1
      exact hp
    · have hsplit : l ++ [(p, b)] = (before ++ (q, c) :: after') ++ [e] := by simpa using he
      exact h before q c after' (List.append_inj' hsplit rfl).1

end Ledger

/-! ## Before and after the final path is bound -/

namespace Attempts
variable {T : Type} {final : OsStr} {w : Attempts T} {i n : Nat}

/-- The current attempt is the last of the ledger, and its input has delivered the chunks
it appended and still delivers `rest`. -/
def Appended (w : Attempts T) (rest : Input) (n : Nat) : Prop :=
  ∃ (before : List (Nat × Bytes)) (chunks : List Bytes),
    w.ledger = before ++ [(w.call.startPos, chunks.flatten)] ∧
      w.call.input = chunks.map .ok ++ rest ∧ n = chunks.flatten.length

/-- What the place of the current attempt says while the final path is absent. -/
def OpenPc (final : OsStr) (w : Attempts T) : StorePc Nat → Prop
  | .start | .stat => True
  | .createParent | .openStaging =>
      w.call.startPos = ((w.disk.read (stagingPath final)).getD []).length
  | .copy h rest n => w.disk.lookup (stagingPath final) = some (.file h) ∧ w.Appended rest n
  | .flush n | .link n => (w.disk.ino (stagingPath final)).isSome ∧ w.Appended [] n
  | .remove r | .done r => ∃ e, r = .error e

/-- What it says once the final path is bound. -/
def FinalPc (w : Attempts T) : StorePc Nat → Prop
  | .start | .done (.error _) => True
  | .remove (.ok n) | .done (.ok n) => w.Appended [] n
  | _ => False

/-- The final path is absent, and the staging file, if there is one, holds what the ledger
records. -/
structure Open (final : OsStr) (w : Attempts T) : Prop where
  final_absent : w.disk.lookup final = none
  staging : w.disk.lookup (stagingPath final) = none ∨
    ∃ h, w.disk.lookup (stagingPath final) = some (.file h) ∧ w.disk.data h = content w.ledger
  contiguous : Contiguous w.ledger
  place : w.OpenPc final w.pc

/-- The final path is bound to the inode `i`, which holds what the ledger records, and the
staging name is gone or is its second name. -/
structure Final (final : OsStr) (i : Nat) (w : Attempts T) : Prop where
  bound : w.disk.lookup final = some (.file i)
  data : w.disk.data i = content w.ledger
  staging : w.disk.lookup (stagingPath final) = none ∨
    w.disk.lookup (stagingPath final) = some (.file i)
  contiguous : Contiguous w.ledger
  place : w.FinalPc w.pc

/-- A removal that may fail: the staging name goes, or nothing happens. -/
theorem drop_cases (final : OsStr) (f : Option Errno) (d : Disk OsStr T) :
    dropStaging (diskTarget final (stagingPath final)) f d = d ∨
      dropStaging (diskTarget final (stagingPath final)) f d = d.erase (stagingPath final) :=
  dropStaging_cases final (stagingPath final) f d

/-- **Once the final path is bound, nothing happens to it**: an attempt finds it and
returns, and the attempt that bound it drops the staging name and returns. -/
theorem Final.step (h : w.Final final i) (e : AttemptEvent) :
    (w.step final e).Final final i ∧ (w.step final e).ledger = w.ledger := by
  obtain ⟨hbound, hdata, hstaging, hcont, hplace⟩ := h
  obtain ⟨d, call, pc, l⟩ := w
  cases e with
  | begin call' => exact ⟨⟨hbound, hdata, hstaging, hcont, trivial⟩, rfl⟩
  | step f =>
      cases pc with
      | start =>
          -- a new attempt finds the final path bound and refuses
          have hexists : (diskTarget final (stagingPath final)).tryExists d = .ok true := by
            show Except.ok (d.lookup final).isSome = _
            rw [hbound]
            rfl
          have hend : ∃ r, (Attempts.operate final ⟨d, call, .start, l⟩ f) =
              (d, .done (.error r)) := by
            simp only [operate, storeStep, hexists]
            cases f with
            | none => exact ⟨_, rfl⟩
            | some e => exact ⟨_, rfl⟩
          obtain ⟨r, hend⟩ := hend
          simp only [Attempts.step, hend, record]
          exact ⟨⟨hbound, hdata, hstaging, hcont, trivial⟩, trivial⟩
      | remove r =>
          obtain ⟨n, rfl⟩ : ∃ n, r = .ok n := by
            cases r with
            | ok n => exact ⟨n, rfl⟩
            | error e => exact hplace.elim
          simp only [Attempts.step, operate, storeStep, record]
          rcases drop_cases final (f.map Subtype.val) d with hd | hd <;> rw [hd]
          · exact ⟨⟨hbound, hdata, hstaging, hcont, hplace⟩, trivial⟩
          · refine ⟨⟨?_, hdata, Or.inl Disk.lookup_erase_self, hcont, hplace⟩, trivial⟩
            exact (Disk.lookup_erase_ne (stagingPath_ne final).symm).trans hbound
      | done r => exact ⟨⟨hbound, hdata, hstaging, hcont, hplace⟩, rfl⟩
      | _ => exact hplace.elim

/-- What the length of the staging file says of the start offset of an attempt that is
accepted. -/
theorem judge_stagingLen {d : Disk OsStr T} {startPos : Nat} {f : Option OwnFault}
    {size : Except Errno Nat} (hsize : size = (diskTarget final (stagingPath final)).stagingLen d)
    (hstaging : d.lookup (stagingPath final) = none ∨
      ∃ h, d.lookup (stagingPath final) = some (.file h))
    (hok : judge startPos (attempt (f.map Subtype.val) size) = .ok .ok) :
    startPos = ((d.read (stagingPath final)).getD []).length := by
  cases f with
  | some e =>
      obtain ⟨e, he⟩ := e
      cases e <;> first | exact absurd rfl he | cases hok
  | none =>
      -- an attempt is accepted at the length it finds, and at no other
      have hclass (n : Nat) (h : judge startPos (.ok n) = .ok .ok) : startPos = n :=
        classifyOffset_ok_iff.mp (Except.ok.inj h)
      subst hsize
      rcases hstaging with hs | ⟨h, hs⟩
      · have hlen : (diskTarget final (stagingPath final)).stagingLen d = .error .notFound := by
          simp only [diskTarget, hs]
        rw [Option.map_none, attempt_none, hlen] at hok
        have hread : d.read (stagingPath final) = none := by simp [Disk.read, Disk.ino, hs]
        rw [hread]
        exact hclass 0 hok
      · have hlen : (diskTarget final (stagingPath final)).stagingLen d =
            .ok (d.data h).length := by
          simp only [diskTarget, hs]
        rw [Option.map_none, attempt_none, hlen] at hok
        have hread : d.read (stagingPath final) = some (d.data h) :=
          Disk.read_eq_some.mpr ⟨h, Disk.ino_of_lookup hs, rfl⟩
        rw [hread]
        exact hclass _ hok

/-- The attempt opens the staging file: a new one, with a new ledger, or the one that is
there, where it ends. -/
theorem Open.opened {d : Disk OsStr T} {call : StoreCall} {l : List (Nat × Bytes)}
    (h : Open final ⟨d, call, .openStaging, l⟩) (f : Option OwnFault) :
    (Attempts.step final ⟨d, call, .openStaging, l⟩ (.step f)).Open final := by
  obtain ⟨hfinal, hstaging, hcont, hplace⟩ := h
  simp only at hfinal hstaging hcont hplace
  cases f with
  | some e => exact ⟨hfinal, hstaging, hcont, ⟨_, rfl⟩⟩
  | none =>
      have hne := stagingPath_ne final
      rcases hstaging with hs | ⟨h, hs, hdata⟩
      · -- a new staging file, and a new ledger
        have hread : d.read (stagingPath final) = none := by simp [Disk.read, Disk.ino, hs]
        have hstart : call.startPos = 0 := by
          simpa [OpenPc, hread] using hplace
        have hopen : operate final ⟨d, call, .openStaging, l⟩ none =
            (d.create (stagingPath final), .copy d.fresh call.input 0) := by
          simp [operate, storeStep, diskTarget, Disk.openAppend, hs]
        simp only [Attempts.step, hopen, record, hs, if_true]
        refine ⟨(Disk.lookup_create_ne hne.symm).trans hfinal,
          Or.inr ⟨_, Disk.lookup_create_self, Disk.data_create_self⟩,
          contiguous_concat.mpr ⟨contiguous_nil, hstart⟩,
          Disk.lookup_create_self, [], [], rfl, rfl, rfl⟩
      · -- the attempt goes on where the staging file ends
        have hread : d.read (stagingPath final) = some (d.data h) :=
          Disk.read_eq_some.mpr ⟨h, Disk.ino_of_lookup hs, rfl⟩
        have hstart : call.startPos = (content l).length := by
          simpa [OpenPc, hread, hdata] using hplace
        have hopen : operate final ⟨d, call, .openStaging, l⟩ none =
            (d, .copy h call.input 0) := by
          simp [operate, storeStep, diskTarget, Disk.openAppend, hs]
        simp only [Attempts.step, hopen, record, hs, reduceCtorEq, if_false]
        exact ⟨hfinal, Or.inr ⟨h, hs, by rw [content_concat, hdata, List.append_nil]⟩,
          contiguous_concat.mpr ⟨hcont, hstart⟩, hs, l, [], rfl, rfl, rfl⟩

/-- The attempt takes what its input delivers next and appends it, or fails to read it. -/
theorem Open.copied {d : Disk OsStr T} {call : StoreCall} {l : List (Nat × Bytes)} {h : Nat}
    {rest : Input} (hw : Open final ⟨d, call, .copy h rest n, l⟩) (f : Option OwnFault) :
    (Attempts.step final ⟨d, call, .copy h rest n, l⟩ (.step f)).Open final := by
  obtain ⟨hfinal, hstaging, hcont, hplace⟩ := hw
  simp only at hfinal hstaging hcont hplace
  obtain ⟨hs, before, chunks, hl, hinput, hn⟩ := hplace
  simp only at hl hinput
  rcases rest with _ | ⟨e | b, rest⟩
  · refine ⟨hfinal, hstaging, hcont, ?_, before, chunks, hl, hinput, hn⟩
    show (d.ino (stagingPath final)).isSome
    rw [Disk.ino_of_lookup hs]
    rfl
  · exact ⟨hfinal, hstaging, hcont, ⟨_, rfl⟩⟩
  · -- the handle is on the staging file, which holds what the ledger says
    have hdata : d.data h = content l := by
      rcases hstaging with hs' | ⟨h', hs', hdata⟩
      · rw [hs] at hs'
        cases hs'
      · rw [hs] at hs'
        obtain rfl := Entry.file.inj (Option.some.inj hs')
        exact hdata
    subst hl
    have hledger : (Attempts.step final ⟨d, call, .copy h (.ok b :: rest) n,
        before ++ [(call.startPos, chunks.flatten)]⟩ (.step f)).ledger =
        before ++ [(call.startPos, (chunks ++ [b]).flatten)] := by
      show credit _ b = _
      rw [credit_concat, List.flatten_append, List.flatten_singleton]
    refine ⟨hfinal, Or.inr ⟨h, hs, ?_⟩, ?_, hs, before, chunks ++ [b], hledger, ?_, ?_⟩
    · show (d.append h b).data h = _
      rw [hledger, content_concat, Disk.append, Disk.data_setData_self, hdata,
        content_concat]
      simp
    · rw [hledger]
      exact contiguous_concat.mpr (contiguous_concat.mp hcont)
    · show call.input = _
      rw [hinput]
      simp
    · rw [hn]
      simp

/-- The attempt links its staging file, which binds the final path, or fails to. -/
theorem Open.linked {d : Disk OsStr T} {call : StoreCall} {l : List (Nat × Bytes)}
    (h : Open final ⟨d, call, .link n, l⟩) (f : Option OwnFault) :
    (Attempts.step final ⟨d, call, .link n, l⟩ (.step f)).Open final ∨
      ∃ i, (Attempts.step final ⟨d, call, .link n, l⟩ (.step f)).Final final i := by
  obtain ⟨hfinal, hstaging, hcont, hplace⟩ := h
  simp only at hfinal hstaging hcont hplace
  obtain ⟨hs, happ⟩ := hplace
  rcases hstaging with hnone | ⟨h, hs, hdata⟩
  · simp [Disk.ino, hnone] at hs
  · cases f with
    | some e =>
        have hlink : ∃ r, operate final ⟨d, call, .link n, l⟩ (some e) =
            (d, .remove (.error r)) := by
          obtain ⟨e, -⟩ := e
          cases e <;> exact ⟨_, rfl⟩
        obtain ⟨r, hlink⟩ := hlink
        refine Or.inl ?_
        simp only [Attempts.step, hlink, record]
        exact ⟨hfinal, Or.inr ⟨h, hs, hdata⟩, hcont, ⟨_, rfl⟩⟩
    | none =>
        obtain ⟨d', hd⟩ := Disk.hardLink_file hs hfinal
        have hlink : operate final ⟨d, call, .link n, l⟩ none = (d', .remove (.ok n)) := by
          simp [operate, storeStep, linkStaging, diskTarget, hd]
        obtain ⟨e, he, hsrc, -, -, rfl⟩ := Disk.hardLink_ok hd
        obtain rfl : Entry.file h = e := Option.some.inj (hs.symm.trans hsrc)
        refine Or.inr ⟨h, ?_⟩
        simp only [Attempts.step, hlink, record]
        exact ⟨Disk.lookup_bind_self he, hdata,
          Or.inr ((Disk.lookup_bind_ne he (stagingPath_ne final)).trans hs), hcont, happ⟩

/-- **While the final path is absent**, an attempt is accepted only where the staging file
ends, what it appends is what the ledger gains, and its link binds the final path to all
of it. -/
theorem Open.step (h : w.Open final) (e : AttemptEvent) :
    (w.step final e).Open final ∨ ∃ i, (w.step final e).Final final i := by
  obtain ⟨d, call, pc, l⟩ := w
  obtain ⟨hfinal, hstaging, hcont, hplace⟩ := id h
  simp only at hfinal hstaging hcont hplace
  cases e with
  | begin call' => exact Or.inl ⟨hfinal, hstaging, hcont, trivial⟩
  | step f =>
      cases pc with
      | start =>
          refine Or.inl ?_
          simp only [Attempts.step, operate, storeStep, record]
          refine ⟨hfinal, hstaging, hcont, ?_⟩
          have hexists : (diskTarget final (stagingPath final)).tryExists d = .ok false := by
            show Except.ok (d.lookup final).isSome = _
            rw [hfinal]
            rfl
          rw [hexists]
          cases f with
          | none => trivial
          | some e => exact ⟨_, rfl⟩
      | stat =>
          refine Or.inl ?_
          simp only [Attempts.step, operate, storeStep, record]
          refine ⟨hfinal, hstaging, hcont, ?_⟩
          have hfile : d.lookup (stagingPath final) = none ∨
              ∃ h, d.lookup (stagingPath final) = some (.file h) := by
            rcases hstaging with hs | ⟨h, hs, -⟩
            · exact Or.inl hs
            · exact Or.inr ⟨h, hs⟩
          cases hj : judge call.startPos (attempt (f.map Subtype.val)
              ((diskTarget final (stagingPath final)).stagingLen d)) with
          | error e => exact ⟨_, rfl⟩
          | ok v =>
              cases v with
              | ok => exact judge_stagingLen rfl hfile hj
              | overlap => exact ⟨_, rfl⟩
              | gap => exact ⟨_, rfl⟩
      | createParent =>
          refine Or.inl ?_
          cases f with
          | none => exact ⟨hfinal, hstaging, hcont, hplace⟩
          | some e => exact ⟨hfinal, hstaging, hcont, ⟨_, rfl⟩⟩
      | openStaging => exact Or.inl (h.opened f)
      | copy i rest n => exact Or.inl (h.copied f)
      | flush n =>
          refine Or.inl ?_
          cases f with
          | none => exact ⟨hfinal, hstaging, hcont, hplace⟩
          | some e => exact ⟨hfinal, hstaging, hcont, ⟨_, rfl⟩⟩
      | link n => exact h.linked f
      | remove r =>
          refine Or.inl ?_
          simp only [Attempts.step, operate, storeStep, record]
          rcases drop_cases final (f.map Subtype.val) d with hd | hd <;> rw [hd]
          · exact ⟨hfinal, hstaging, hcont, hplace⟩
          · exact ⟨(Disk.lookup_erase_ne (stagingPath_ne final).symm).trans hfinal,
              Or.inl Disk.lookup_erase_self, hcont, hplace⟩
      | done r => exact Or.inl ⟨hfinal, hstaging, hcont, hplace⟩

/-- One of the two holds in every state. -/
def Stage (final : OsStr) (w : Attempts T) : Prop := w.Open final ∨ ∃ i, w.Final final i

theorem Stage.step (h : w.Stage final) (e : AttemptEvent) : (w.step final e).Stage final := by
  rcases h with h | ⟨i, h⟩
  · exact h.step e
  · exact Or.inr ⟨i, (h.step e).1⟩

theorem stage_run {d : Disk OsStr T} (hfinal : d.lookup final = none)
    (hstaging : d.lookup (stagingPath final) = none) (call : StoreCall)
    (es : List AttemptEvent) : (run (step final) (init d call) es).Stage final :=
  invariant_run (I := Stage final) (G := fun _ _ => True) (fun _ e h _ => h.step e)
    (Or.inl ⟨hfinal, Or.inl hstaging, contiguous_nil, trivial⟩)
    (along_of_forall (fun _ _ => trivial) _ es)

theorem Final.run (h : w.Final final i) (es : List AttemptEvent) :
    (run (Attempts.step final) w es).Final final i ∧
      (run (Attempts.step final) w es).ledger = w.ledger := by
  induction es generalizing w with
  | nil => exact ⟨h, rfl⟩
  | cons e es ih =>
      obtain ⟨hfin, hledger⟩ := ih (h.step e).1
      exact ⟨hfin, hledger.trans (h.step e).2⟩

theorem Final.read (h : w.Final final i) : w.disk.read final = some (content w.ledger) :=
  Disk.read_eq_some.mpr ⟨i, Disk.ino_of_lookup h.bound, h.data⟩

/-- **The staging file grows by appending or goes as a whole**, and appears empty. -/
theorem staging_step (h : w.Stage final) (e : AttemptEvent) :
    (w.step final e).disk.lookup (stagingPath final) = none ∨
      (w.step final e).disk.lookup (stagingPath final) = w.disk.lookup (stagingPath final) ∧
        (∀ old, w.disk.read (stagingPath final) = some old →
          ∃ b, (w.step final e).disk.read (stagingPath final) = some (old ++ b)) ∨
      w.disk.lookup (stagingPath final) = none ∧
        (w.step final e).disk.read (stagingPath final) = some [] := by
  have hsame : ∀ d : Disk OsStr T,
      d.lookup (stagingPath final) = w.disk.lookup (stagingPath final) →
      d.data = w.disk.data → ∀ old, w.disk.read (stagingPath final) = some old →
        ∃ b, d.read (stagingPath final) = some (old ++ b) := by
    intro d hd hdata old hold
    refine ⟨[], ?_⟩
    rw [List.append_nil, ← hold, Disk.read, Disk.read, Disk.ino_congr hd, hdata]
  cases e with
  | begin call => exact Or.inr (Or.inl ⟨rfl, hsame _ rfl rfl⟩)
  | step f =>
      have hmove : StoreMove final (stagingPath final) w.call.input w.disk w.pc
          (f.map Subtype.val) (w.operate final f) := storeStep_move
      show (w.operate final f).1.lookup (stagingPath final) = none ∨
        (w.operate final f).1.lookup (stagingPath final) = w.disk.lookup (stagingPath final) ∧
          (∀ old, w.disk.read (stagingPath final) = some old →
            ∃ b, (w.operate final f).1.read (stagingPath final) = some (old ++ b)) ∨
        w.disk.lookup (stagingPath final) = none ∧
          (w.operate final f).1.read (stagingPath final) = some []
      generalize w.operate final f = r at hmove ⊢
      generalize f.map Subtype.val = g at hmove
      generalize hpc : w.pc = p at hmove
      cases hmove with
      | stay _ q _ hq => exact Or.inr (Or.inl ⟨rfl, hsame _ rfl rfl⟩)
      | opened j hj => exact Or.inr (Or.inl ⟨rfl, hsame _ rfl rfl⟩)
      | created hn =>
          refine Or.inr (Or.inr ⟨hn, Disk.read_eq_some.mpr ⟨w.disk.fresh, ?_, ?_⟩⟩)
          · exact Disk.ino_of_lookup Disk.lookup_create_self
          · exact Disk.data_create_self
      | wrote j b rest n =>
          refine Or.inr (Or.inl ⟨rfl, fun old hold => ⟨b, ?_⟩⟩)
          rcases h with h | ⟨i, h⟩
          · have hplace := h.place
            rw [hpc] at hplace
            obtain ⟨k, hk, rfl⟩ := Disk.read_eq_some.mp hold
            obtain rfl : k = j := Option.some.inj (hk.symm.trans (Disk.ino_of_lookup hplace.1))
            exact Disk.read_eq_some.mpr ⟨k, hk, Disk.data_setData_self _⟩
          · have hplace := h.place
            rw [hpc] at hplace
            exact hplace.elim
      | linked n d' hl =>
          obtain ⟨e, he, -, -, -, rfl⟩ := Disk.hardLink_ok hl
          have hlookup := Disk.lookup_bind_ne (d := w.disk) he (stagingPath_ne final)
          exact Or.inr (Or.inl ⟨hlookup, hsame _ hlookup rfl⟩)
      | removed r => exact Or.inl Disk.lookup_erase_self

/-- **What a series of attempts has come to**, in one of its states and in all later
ones. -/
structure ResumeLaw (final : OsStr) (w : Attempts T) : Prop where
  /-- The final path is absent, or holds everything the ledger records, for good. -/
  complete : w.disk.lookup final = none ∨
    ∀ es, (run (Attempts.step final) w es).disk.read final = some (content w.ledger)
  /-- The staging file only grows by appending, or goes as a whole. -/
  staging : ∀ e, (w.step final e).disk.lookup (stagingPath final) = none ∨
    (w.step final e).disk.lookup (stagingPath final) = w.disk.lookup (stagingPath final) ∧
      (∀ old, w.disk.read (stagingPath final) = some old →
        ∃ b, (w.step final e).disk.read (stagingPath final) = some (old ++ b)) ∨
    w.disk.lookup (stagingPath final) = none ∧
      (w.step final e).disk.read (stagingPath final) = some []
  /-- While the final path is absent, it holds what the ledger records. -/
  staged : w.disk.lookup final = none → ∀ c, w.disk.read (stagingPath final) = some c →
    c = content w.ledger
  contiguous : Contiguous w.ledger
  /-- An attempt that returns `Ok(n)` is the last of the ledger, with all its input. -/
  acknowledged : ∀ n, w.pc = .done (.ok n) → w.disk.lookup final ≠ none ∧
    ∃ (before : List (Nat × Bytes)) (chunks : List Bytes),
      w.ledger = before ++ [(w.call.startPos, chunks.flatten)] ∧
        w.call.input = chunks.map .ok ∧ n = chunks.flatten.length

/-- **The resume law of `store_stream`.**  On a disk where neither the final nor the staging
path is bound, whatever attempts are made one after the other, however each of them fails
or is cut off. -/
theorem resume_law {d : Disk OsStr T} (hfinal : d.lookup final = none)
    (hstaging : d.lookup (stagingPath final) = none) (call : StoreCall)
    (es : List AttemptEvent) : ResumeLaw final (run (step final) (init d call) es) := by
  have hstage := stage_run hfinal hstaging call es
  generalize run (step final) (init d call) es = w at hstage
  have hgrows := staging_step hstage
  rcases hstage with h | ⟨i, h⟩
  · refine ⟨Or.inl h.final_absent, hgrows, fun _ c hc => ?_, h.contiguous, fun n hn => ?_⟩
    · obtain ⟨k, hk, rfl⟩ := Disk.read_eq_some.mp hc
      rcases h.staging with hs | ⟨j, hs, hdata⟩
      · simp [Disk.ino, hs] at hk
      · obtain rfl : k = j := Option.some.inj (hk.symm.trans (Disk.ino_of_lookup hs))
        exact hdata
    · have hplace := h.place
      rw [hn] at hplace
      obtain ⟨e, he⟩ := hplace
      cases he
  · refine ⟨Or.inr fun es => ?_, hgrows, fun hn => ?_, h.contiguous, fun n hn => ?_⟩
    · obtain ⟨hlater, hledger⟩ := h.run es
      rw [← hledger]
      exact hlater.read
    · rw [h.bound] at hn
      cases hn
    · have hplace := h.place
      rw [hn] at hplace
      obtain ⟨before, chunks, hl, hinput, hlen⟩ := hplace
      exact ⟨by simp [h.bound], before, chunks, hl, by simpa using hinput, hlen⟩

/-- An attempt with two bytes is cut off after the first, and the next one goes on there. -/
def cutOffAndResumed : List AttemptEvent :=
  List.replicate 5 (.step none) ++ [.begin ⟨1, [.ok [2, 3]]⟩] ++ List.replicate 9 (.step none)

/-- The clip is whole. -/
theorem resumed_clip_whole :
    (run (step (ofString "/c/x")) (init (Disk.blank : Disk OsStr Empty) ⟨0, [.ok [1], .ok [9]]⟩)
      cutOffAndResumed).ledger = [(0, [1]), (1, [2, 3])] ∧
    ResumeLaw (ofString "/c/x")
      (run (step (ofString "/c/x")) (init (Disk.blank : Disk OsStr Empty)
        ⟨0, [.ok [1], .ok [9]]⟩) cutOffAndResumed) :=
  ⟨by decide +kernel, resume_law rfl rfl _ _⟩

end Attempts

end Reoftpd

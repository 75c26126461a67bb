import Reoftpd.Append
import Reoftpd.Disk
import Reoftpd.Runs

/-!
# `store_stream`

One call of the append-only write core, twice: `storeStream` runs the whole call in
one go, `storeStep` takes it one file operation at a time, so that several calls can
be interleaved.  `storeSteps_eq` says that they are the same program: a call left
alone takes its steps to exactly the state and the result of `storeStream`.

Both are over `TargetOps`, the file operations of one call on its own final and
staging path, so that the same program runs on a bare disk of names
(`diskTarget`) and on a directory tree.  Every operation may also fail for a reason
of its own: `fault` says with which error, if at all.  Reading the input and
writing the chunk it delivered fail as an `Except.error` in the input.
-/
namespace Reoftpd
open Runs

/-- What the reads of an upload deliver, in order; the copy stops at an error. -/
abbrev Input := List (Except Errno Bytes)

/-- `StoreError`. -/
inductive StoreError where
  /-- Attempted to write at an offset already covered by the staging file. -/
  | overlap
  /-- Attempted to write past the end of the staging file. -/
  | gap
  /-- The final path already exists. -/
  | finalized
  /-- An I/O error occurred. -/
  | io (e : Errno)
  deriving DecidableEq

/-- What a store returns. -/
abbrev StoreResult := Except StoreError Nat

instance : DecidableEq StoreResult := fun
  | .ok a, .ok b => decidable_of_iff (a = b) (by simp)
  | .error a, .error b => decidable_of_iff (a = b) (by simp)
  | .ok _, .error _ => .isFalse (by simp)
  | .error _, .ok _ => .isFalse (by simp)

/-- The file operations of one call, on file systems `S` with open handles `H`: the
existence of the final path, the length at the staging path, the directories above
it, the two ways of opening it, writes through a handle, the hard link from staging
to final, and the removal of the staging name (whose result the source drops). -/
structure TargetOps (S H : Type) where
  tryExists : S → Except Errno Bool
  stagingLen : S → Except Errno Nat
  createParent : S → S × Except Errno Unit
  openAppend : S → Except Errno (S × H)
  createFile : S → Except Errno (S × H)
  append : S → H → Bytes → S
  writeAt : S → H → Nat → Bytes → S
  hardLink : S → Except Errno S
  removeStaging : S → S

/-- The result of an operation that fails with `fault` if there is one. -/
def attempt {α : Type} (fault : Option Errno) (r : Except Errno α) : Except Errno α :=
  match fault with
  | some e => .error e
  | none => r

@[simp] theorem attempt_none {α : Type} (r : Except Errno α) : attempt none r = r := rfl

@[simp] theorem attempt_some {α : Type} (e : Errno) (r : Except Errno α) :
    attempt (some e) r = .error e := rfl

/-- Only an operation that did not fail by itself returns anything. -/
theorem attempt_ok {α : Type} {f : Option Errno} {r : Except Errno α} {a : α}
    (h : attempt f r = .ok a) : f = none ∧ r = .ok a := by
  cases f with
  | none => exact ⟨rfl, h⟩
  | some e => cases h

variable {S H : Type} (ops : TargetOps S H)

/-- `let _ = remove_file(&staging)`. -/
def dropStaging (fault : Option Errno) (s : S) : S :=
  match fault with
  | none => ops.removeStaging s
  | some _ => s

/-- `create_dir_all(parent)`. -/
def makeParent (fault : Option Errno) (s : S) : S × Except Errno Unit :=
  match fault with
  | none => ops.createParent s
  | some e => (s, .error e)

/-- `hard_link(staging, real_final)` and the result each of its outcomes leads to. -/
def linkStaging (fault : Option Errno) (s : S) (n : Nat) : S × StoreResult :=
  match attempt fault (ops.hardLink s) with
  | .ok s' => (s', .ok n)
  | .error .alreadyExists => (s, .error .finalized)
  | .error e => (s, .error (.io e))

/-! ## The whole call -/

/-- Where an operation of a store fails by itself. -/
inductive StoreSite where
  | exists
  | stat
  | createParent
  | openStaging
  | flush
  | link
  | remove
  deriving DecidableEq

/-- `tokio::io::copy` from the input into the open staging file. -/
def copyInput (h : H) : S → Input → Nat → S × Except Errno Nat
  | s, [], n => (s, .ok n)
  | s, .ok b :: rest, n => copyInput h (ops.append s h b) rest (n + b.length)
  | s, .error e :: _, _ => (s, .error e)

/-- The verdict on the start offset, given what `metadata(&staging)` returned: an
absent staging file counts as empty. -/
def judge (startPos : Nat) : Except Errno Nat → Except Errno OffsetVerdict
  | .ok size => .ok (classifyOffset startPos size)
  | .error .notFound => .ok (classifyOffset startPos 0)
  | .error e => .error e

/-- Link, then drop the staging name whatever the link said. -/
def finalize (fault : StoreSite → Option Errno) (s : S) (n : Nat) : S × StoreResult :=
  (dropStaging ops (fault .remove) (linkStaging ops (fault .link) s n).1,
    (linkStaging ops (fault .link) s n).2)

/-- Steps 5 and 6: stream the input, flush, finalize. -/
def streamInput (fault : StoreSite → Option Errno) (input : Input) (s : S) (h : H) :
    S × StoreResult :=
  match copyInput ops h s input 0 with
  | (s', .error e) => (dropStaging ops (fault .remove) s', .error (.io e))
  | (s', .ok n) =>
      match fault .flush with
      | some e => (s', .error (.io e))
      | none => finalize ops fault s' n

/-- Step 4: create the parent directories and open the staging file. -/
def openAndStream (fault : StoreSite → Option Errno) (input : Input) (s : S) : S × StoreResult :=
  match makeParent ops (fault .createParent) s with
  | (s', .error e) => (s', .error (.io e))
  | (s', .ok ()) =>
      match attempt (fault .openStaging) (ops.openAppend s') with
      | .error e => (s', .error (.io e))
      | .ok (s'', h) => streamInput ops fault input s'' h

/-- `store_stream`. -/
def storeStream (fault : StoreSite → Option Errno) (startPos : Nat) (input : Input) (s : S) :
    S × StoreResult :=
  match attempt (fault .exists) (ops.tryExists s) with
  | .error e => (s, .error (.io e))
  | .ok true => (s, .error .finalized)
  | .ok false =>
      match judge startPos (attempt (fault .stat) (ops.stagingLen s)) with
      | .error e => (s, .error (.io e))
      | .ok .overlap => (dropStaging ops (fault .remove) s, .error .overlap)
      | .ok .gap => (dropStaging ops (fault .remove) s, .error .gap)
      | .ok .ok => openAndStream ops fault input s

section Rule
variable {ops} {fault : StoreSite → Option Errno} {startPos : Nat} {input : Input}

theorem dropStaging_ind {Q : S → Prop} {f : Option Errno} {s : S} (h : Q s)
    (hr : Q (ops.removeStaging s)) : Q (dropStaging ops f s) := by
  cases f
  · exact hr
  · exact h

/-- What the end of both stores establishes: the link, if it is made, and the staging
name removed or not. -/
theorem finalize_rule {Q : S → StoreResult → Prop} {s : S} {n : Nat}
    (failed : ∀ e, Q s (.error e) ∧ Q (ops.removeStaging s) (.error e))
    (linked : ∀ s', ops.hardLink s = .ok s' → Q s' (.ok n) ∧ Q (ops.removeStaging s') (.ok n)) :
    Q (finalize ops fault s n).1 (finalize ops fault s n).2 := by
  have hlink : ∃ s' r, linkStaging ops (fault .link) s n = (s', r) ∧ Q s' r ∧
      Q (ops.removeStaging s') r := by
    unfold linkStaging
    split
    · rename_i s' h
      exact ⟨s', .ok n, rfl, linked s' (attempt_ok h).2⟩
    · exact ⟨s, _, rfl, failed _⟩
    · exact ⟨s, _, rfl, failed _⟩
  obtain ⟨s', r, hl, hs, hr⟩ := hlink
  rw [finalize, hl]
  exact dropStaging_ind (Q := fun s => Q s r) hs hr

/-- The copy keeps what every append keeps. -/
theorem copyInput_ind {J : S → Prop} {h : H} (wrote : ∀ s b, J s → J (ops.append s h b)) (s : S)
    (input : Input) (n : Nat) (hs : J s) : J (copyInput ops h s input n).1 := by
  induction input generalizing s n with
  | nil => exact hs
  | cons x rest ih =>
      cases x with
      | ok b => exact ih _ _ (wrote s b hs)
      | error e => exact hs

/-- The first read of an input delivers something. -/
def Delivers (input : Input) : Prop := ∃ b rest, input = .ok b :: rest

/-- No read of an input fails. -/
def Whole (input : Input) : Prop := ∀ e, .error e ∉ input

/-- A copy that comes to its end met no read that fails. -/
theorem whole_of_copyInput {s s' : S} {h : H} {n m : Nat}
    (hc : copyInput ops h s input n = (s', .ok m)) : Whole input := by
  induction input generalizing s n with
  | nil => exact fun e he => absurd he List.not_mem_nil
  | cons x rest ih =>
      cases x with
      | error e => cases hc
      | ok b =>
          intro e he
          rcases List.mem_cons.mp he with he | he
          · cases he
          · exact ih hc e he

/-- From the open staging file to the end.  `J` holds while the file is open. -/
theorem streamInput_rule {J : S → Prop} {Q : S → StoreResult → Prop} {s : S} {h : H} (hs : J s)
    (wrote : Delivers input → ∀ s b, J s → J (ops.append s h b))
    (failed : ∀ s e, J s → Q s (.error e) ∧ Q (ops.removeStaging s) (.error e))
    (linked : Whole input → ∀ s s' n, J s → ops.hardLink s = .ok s' →
      Q s' (.ok n) ∧ Q (ops.removeStaging s') (.ok n)) :
    Q (streamInput ops fault input s h).1 (streamInput ops fault input s h).2 := by
  have hcopy : J (copyInput ops h s input 0).1 := by
    cases input with
    | nil => exact hs
    | cons x rest =>
        cases x with
        | error e => exact hs
        | ok b => exact copyInput_ind (wrote ⟨b, rest, rfl⟩) s _ 0 hs
  unfold streamInput
  split
  · rename_i s' e hc
    rw [hc] at hcopy
    exact dropStaging_ind (Q := fun s => Q s (.error (.io e))) (failed s' _ hcopy).1
      (failed s' _ hcopy).2
  · rename_i s' n hc
    rw [hc] at hcopy
    split
    · exact (failed s' _ hcopy).1
    · exact finalize_rule (fun e => failed s' e hcopy)
        (fun s'' => linked (whole_of_copyInput hc) s' s'' n hcopy)

/-- From the verdict to the end.  `J h` holds while the staging file is open on `h`. -/
theorem openAndStream_rule {J : H → S → Prop} {Q : S → StoreResult → Prop} {s : S}
    (refused : ∀ e, Q s (.error e))
    (parents : ∀ e, Q (ops.createParent s).1 (.error e))
    (opened : ∀ s' h, ops.openAppend (ops.createParent s).1 = .ok (s', h) → J h s')
    (wrote : Delivers input → ∀ s h b, J h s → J h (ops.append s h b))
    (failed : ∀ s h e, J h s → Q s (.error e) ∧ Q (ops.removeStaging s) (.error e))
    (linked : Whole input → ∀ s h s' n, J h s → ops.hardLink s = .ok s' →
      Q s' (.ok n) ∧ Q (ops.removeStaging s') (.ok n)) :
    Q (openAndStream ops fault input s).1 (openAndStream ops fault input s).2 := by
  unfold openAndStream makeParent
  cases fault .createParent with
  | some e => exact refused _
  | none =>
      simp only
      split
      · rename_i s' e hp
        have hpar := parents (.io e)
        rw [hp] at hpar
        exact hpar
      · rename_i s' hp
        split
        · rename_i e ho
          have hpar := parents (.io e)
          rw [hp] at hpar
          exact hpar
        · rename_i s'' h ho
          have hJ : J h s'' := opened s'' h (by rw [hp]; exact (attempt_ok ho).2)
          exact streamInput_rule hJ (fun hd s b => wrote hd s h b) (fun s e => failed s h e)
            (fun hw s s' n => linked hw s h s' n)

/-- **The rule for `storeStream`.**  `Q` is what the call establishes, `J h` what holds
while the staging file is open on `h`. -/
theorem storeStream_rule {J : H → S → Prop} {Q : S → StoreResult → Prop} {s : S}
    (refused : ∀ e, Q s (.error e))
    (discarded : ∀ e, Q (ops.removeStaging s) (.error e))
    (parents : ∀ e, Q (ops.createParent s).1 (.error e))
    (opened : ∀ s' h, ops.openAppend (ops.createParent s).1 = .ok (s', h) → J h s')
    (wrote : ∀ s h b, J h s → J h (ops.append s h b))
    (failed : ∀ s h e, J h s → Q s (.error e) ∧ Q (ops.removeStaging s) (.error e))
    (linked : ∀ s h s' n, J h s → ops.hardLink s = .ok s' →
      Q s' (.ok n) ∧ Q (ops.removeStaging s') (.ok n)) :
    Q (storeStream ops fault startPos input s).1 (storeStream ops fault startPos input s).2 := by
  have hdrop : ∀ e, Q (dropStaging ops (fault .remove) s) (.error e) := fun e =>
    dropStaging_ind (Q := fun s => Q s (.error e)) (refused e) (discarded e)
  unfold storeStream
  split
  · exact refused _
  · exact refused _
  · split
    · exact refused _
    · exact hdrop _
    · exact hdrop _
    · exact openAndStream_rule refused parents opened (fun _ => wrote) failed (fun _ => linked)

end Rule

/-! ## Two targets side by side -/

/-- Two results agree: they are the same error, or values that `Q` relates. -/
def Agree {E A B : Type} (Q : A → B → Prop) : Except E A → Except E B → Prop
  | .ok a, .ok b => Q a b
  | .error e, .error e' => e = e'
  | _, _ => False

/-- The two ways of agreeing. -/
theorem Agree.cases {E A B : Type} {Q : A → B → Prop} {r : Except E A} {r' : Except E B}
    (h : Agree Q r r') :
    (∃ e, r = .error e ∧ r' = .error e) ∨ ∃ a b, r = .ok a ∧ r' = .ok b ∧ Q a b := by
  cases r with
  | error e =>
      cases r' with
      | error e' => exact Or.inl ⟨e, rfl, congrArg _ (show e' = e from Eq.symm h)⟩
      | ok b => exact absurd h id
  | ok a =>
      cases r' with
      | error e' => exact absurd h id
      | ok b => exact Or.inr ⟨a, b, rfl, rfl, h⟩

theorem Agree.attempt {A B : Type} {Q : A → B → Prop} {r : Except Errno A} {r' : Except Errno B}
    (h : Agree Q r r') (f : Option Errno) : Agree Q (attempt f r) (Reoftpd.attempt f r') := by
  cases f with
  | none => exact h
  | some e => rfl

/-- The operations of one target go as those of another, on states that `R` relates and
with open handles that `J` does. -/
structure Simulates {S' H' : Type} (ops : TargetOps S H) (ops' : TargetOps S' H')
    (R : S → S' → Prop) (J : H → H' → S → S' → Prop) : Prop where
  tryExists : ∀ s s', R s s' → ops.tryExists s = ops'.tryExists s'
  stagingLen : ∀ s s', R s s' → ops.stagingLen s = ops'.stagingLen s'
  createParent : ∀ s s', R s s' → R (ops.createParent s).1 (ops'.createParent s').1 ∧
    (ops.createParent s).2 = (ops'.createParent s').2
  openAppend : ∀ s s', R s s' →
    Agree (fun a b => J a.2 b.2 a.1 b.1) (ops.openAppend s) (ops'.openAppend s')
  createFile : ∀ s s', R s s' →
    Agree (fun a b => J a.2 b.2 a.1 b.1) (ops.createFile s) (ops'.createFile s')
  append : ∀ h h' s s' b, J h h' s s' → J h h' (ops.append s h b) (ops'.append s' h' b)
  writeAt : ∀ h h' s s' off b, J h h' s s' →
    J h h' (ops.writeAt s h off b) (ops'.writeAt s' h' off b)
  written : ∀ h h' s s', J h h' s s' → R s s'
  hardLink : ∀ s s', R s s' → Agree R (ops.hardLink s) (ops'.hardLink s')
  removeStaging : ∀ s s', R s s' → R (ops.removeStaging s) (ops'.removeStaging s')

section Simulation
variable {ops} {S' H' : Type} {ops' : TargetOps S' H'} {R : S → S' → Prop}
  {J : H → H' → S → S' → Prop} {fault : StoreSite → Option Errno} {startPos : Nat} {input : Input}
  {s : S} {s' : S'}

theorem Simulates.dropStaging (h : Simulates ops ops' R J) (f : Option Errno) (hs : R s s') :
    R (Reoftpd.dropStaging ops f s) (Reoftpd.dropStaging ops' f s') := by
  cases f with
  | none => exact h.removeStaging s s' hs
  | some e => exact hs

theorem Simulates.makeParent (h : Simulates ops ops' R J) (f : Option Errno) (hs : R s s') :
    R (Reoftpd.makeParent ops f s).1 (Reoftpd.makeParent ops' f s').1 ∧
      (Reoftpd.makeParent ops f s).2 = (Reoftpd.makeParent ops' f s').2 := by
  cases f with
  | none => exact h.createParent s s' hs
  | some e => exact ⟨hs, rfl⟩

/-- The end of both stores. -/
theorem Simulates.finalize (h : Simulates ops ops' R J) (hs : R s s') (n : Nat) :
    R (Reoftpd.finalize ops fault s n).1 (Reoftpd.finalize ops' fault s' n).1 ∧
      (Reoftpd.finalize ops fault s n).2 = (Reoftpd.finalize ops' fault s' n).2 := by
  have hlink : R (linkStaging ops (fault .link) s n).1 (linkStaging ops' (fault .link) s' n).1 ∧
      (linkStaging ops (fault .link) s n).2 = (linkStaging ops' (fault .link) s' n).2 := by
    unfold linkStaging
    rcases ((h.hardLink s s' hs).attempt (fault .link)).cases with ⟨e, hl, hl'⟩ |
      ⟨t, t', hl, hl', hR⟩
    · rw [hl, hl']
      cases e <;> exact ⟨hs, rfl⟩
    · rw [hl, hl']
      exact ⟨hR, rfl⟩
  exact ⟨h.dropStaging _ hlink.1, hlink.2⟩

/-- The copy of the input into the two open files. -/
theorem Simulates.copyInput (h : Simulates ops ops' R J) {x : H} {x' : H'} (input : Input) (n : Nat)
    (hs : J x x' s s') :
    J x x' (Reoftpd.copyInput ops x s input n).1 (Reoftpd.copyInput ops' x' s' input n).1 ∧
      (Reoftpd.copyInput ops x s input n).2 = (Reoftpd.copyInput ops' x' s' input n).2 := by
  induction input generalizing s s' n with
  | nil => exact ⟨hs, rfl⟩
  | cons c rest ih =>
      cases c with
      | ok b => exact ih (n + b.length) (h.append x x' s s' b hs)
      | error e => exact ⟨hs, rfl⟩

/-- **A store goes the same way** on two targets of which one simulates the other. -/
theorem Simulates.storeStream (h : Simulates ops ops' R J) (hs : R s s') :
    R (Reoftpd.storeStream ops fault startPos input s).1
        (Reoftpd.storeStream ops' fault startPos input s').1 ∧
      (Reoftpd.storeStream ops fault startPos input s).2 =
        (Reoftpd.storeStream ops' fault startPos input s').2 := by
  -- the two runs copy, flush and finalize in step
  have hstream : ∀ x x' t t', J x x' t t' →
      R (streamInput ops fault input t x).1 (streamInput ops' fault input t' x').1 ∧
        (streamInput ops fault input t x).2 = (streamInput ops' fault input t' x').2 := by
    intro x x' t t' hJ
    obtain ⟨hc, hr⟩ := h.copyInput input 0 hJ
    unfold streamInput
    rcases hcopy : Reoftpd.copyInput ops x t input 0 with ⟨u, r⟩
    rcases hcopy' : Reoftpd.copyInput ops' x' t' input 0 with ⟨u', r'⟩
    rw [hcopy, hcopy'] at hc hr
    obtain rfl : r = r' := hr
    have hu : R u u' := h.written x x' u u' hc
    cases r with
    | error e => exact ⟨h.dropStaging _ hu, rfl⟩
    | ok n =>
        simp only
        cases fault .flush with
        | some e => exact ⟨hu, rfl⟩
        | none => exact h.finalize hu n
  have hopen : R (openAndStream ops fault input s).1 (openAndStream ops' fault input s').1 ∧
      (openAndStream ops fault input s).2 = (openAndStream ops' fault input s').2 := by
    obtain ⟨hp, hr⟩ := h.makeParent (fault .createParent) hs
    unfold openAndStream
    rcases hmake : Reoftpd.makeParent ops (fault .createParent) s with ⟨u, r⟩
    rcases hmake' : Reoftpd.makeParent ops' (fault .createParent) s' with ⟨u', r'⟩
    rw [hmake, hmake'] at hp hr
    obtain rfl : r = r' := hr
    cases r with
    | error e => exact ⟨hp, rfl⟩
    | ok _ =>
        simp only
        rcases ((h.openAppend u u' hp).attempt (fault .openStaging)).cases with ⟨e, ho, ho'⟩ |
          ⟨a, b, ho, ho', hJ⟩
        · rw [ho, ho']
          exact ⟨hp, rfl⟩
        · rw [ho, ho']
          exact hstream a.2 b.2 a.1 b.1 hJ
  unfold Reoftpd.storeStream
  rw [h.tryExists s s' hs, h.stagingLen s s' hs]
  split
  · exact ⟨hs, rfl⟩
  · exact ⟨hs, rfl⟩
  · split
    · exact ⟨hs, rfl⟩
    · exact ⟨h.dropStaging _ hs, rfl⟩
    · exact ⟨h.dropStaging _ hs, rfl⟩
    · exact hopen

end Simulation

/-! ## One operation at a time -/

/-- How far a call has come.  `copy` holds the open handle, what the input still
delivers and the bytes written; `remove` is about to drop the staging name and
return. -/
inductive StorePc (H : Type) where
  | start
  | stat
  | createParent
  | openStaging
  | copy (h : H) (rest : Input) (written : Nat)
  | flush (written : Nat)
  | link (written : Nat)
  | remove (r : StoreResult)
  | done (r : StoreResult)

/-- What the offset verdict leads to. -/
def afterVerdict : Except Errno OffsetVerdict → StorePc H
  | .ok .ok => .createParent
  | .ok .overlap => .remove (.error .overlap)
  | .ok .gap => .remove (.error .gap)
  | .error e => .done (.error (.io e))

/-- What the existence check leads to. -/
def afterExists : Except Errno Bool → StorePc H
  | .ok false => .stat
  | .ok true => .done (.error .finalized)
  | .error e => .done (.error (.io e))

/-- **One step of a call**: its next file operation.  A call that has returned stays
as it is. -/
def storeStep (startPos : Nat) (input : Input) (s : S) :
    StorePc H → Option Errno → S × StorePc H
  | .start, f => (s, afterExists (attempt f (ops.tryExists s)))
  | .stat, f => (s, afterVerdict (judge startPos (attempt f (ops.stagingLen s))))
  | .createParent, f =>
      match makeParent ops f s with
      | (s', .ok ()) => (s', .openStaging)
      | (s', .error e) => (s', .done (.error (.io e)))
  | .openStaging, f =>
      match attempt f (ops.openAppend s) with
      | .ok (s', h) => (s', .copy h input 0)
      | .error e => (s, .done (.error (.io e)))
  | .copy _ [] n, _ => (s, .flush n)
  | .copy h (.ok b :: rest) n, _ => (ops.append s h b, .copy h rest (n + b.length))
  | .copy _ (.error e :: _) _, _ => (s, .remove (.error (.io e)))
  | .flush n, none => (s, .link n)
  | .flush _, some e => (s, .done (.error (.io e)))
  | .link n, f => ((linkStaging ops f s n).1, .remove (linkStaging ops f s n).2)
  | .remove r, f => (dropStaging ops f s, .done r)
  | .done r, _ => (s, .done r)

/-- The operation the next step performs, if it is one that can fail by itself. -/
def StorePc.site : StorePc H → Option StoreSite
  | .start => some .exists
  | .stat => some .stat
  | .createParent => some .createParent
  | .openStaging => some .openStaging
  | .copy _ _ _ => none
  | .flush _ => some .flush
  | .link _ => some .link
  | .remove _ => some .remove
  | .done _ => none

/-! ## A call left alone -/

section Solo
variable {ops} {fault : StoreSite → Option Errno} {startPos : Nat} {input : Input}

/-- A step of a call nobody else interferes with. -/
def soloStep (ops : TargetOps S H) (fault : StoreSite → Option Errno) (startPos : Nat)
    (input : Input) (c : S × StorePc H) : S × StorePc H :=
  storeStep ops startPos input c.1 c.2 (c.2.site.bind fault)

/-- Within `k` steps of its own the call has returned `r`. -/
abbrev Finishes (ops : TargetOps S H) (fault : StoreSite → Option Errno) (startPos : Nat)
    (input : Input) (k : Nat) (c : S × StorePc H) (r : S × StoreResult) : Prop :=
  Takes (soloStep ops fault startPos input) k c (r.1, .done r.2)

theorem finishes_done (k : Nat) (s : S) (r : StoreResult) :
    Finishes ops fault startPos input k (s, .done r) (s, r) :=
  takes_fixed rfl k

theorem finishes_remove (k : Nat) (s : S) (r : StoreResult) :
    Finishes ops fault startPos input (k + 1) (s, .remove r)
      (dropStaging ops (fault .remove) s, r) :=
  .succ rfl (finishes_done k _ r)

theorem finishes_link (k : Nat) (s : S) (n : Nat) :
    Finishes ops fault startPos input (k + 2) (s, .link n) (finalize ops fault s n) :=
  .succ rfl (finishes_remove k _ _)

/-- The copy loop: a step for each chunk, then the rest of the call. -/
theorem finishes_copy (h : H) (rest : Input) (n k : Nat) (s : S) :
    Finishes ops fault startPos input (rest.length + (k + 4)) (s, .copy h rest n)
      (match copyInput ops h s rest n with
        | (s', .error e) => (dropStaging ops (fault .remove) s', .error (.io e))
        | (s', .ok n) =>
            match fault .flush with
            | some e => (s', .error (.io e))
            | none => finalize ops fault s' n) := by
  induction rest generalizing s n with
  | nil =>
      rw [List.length_nil, Nat.zero_add]
      refine .succ rfl ?_
      rw [copyInput]
      cases hf : fault .flush with
      | none => exact .succ (by simp [soloStep, StorePc.site, hf, storeStep]) (finishes_link k s n)
      | some e =>
          exact .succ (by simp [soloStep, StorePc.site, hf, storeStep]) (finishes_done _ s _)
  | cons x rest ih =>
      rw [List.length_cons, Nat.add_right_comm]
      cases x with
      | ok b => exact .succ rfl (ih _ _)
      | error e =>
          rw [copyInput, Nat.add_left_comm]
          exact .succ rfl (finishes_remove _ s _)

/-- Step 4 on, from the creation of the parent directories. -/
theorem finishes_createParent (s : S) :
    Finishes ops fault startPos input (input.length + 6) (s, .createParent)
      (openAndStream ops fault input s) := by
  have hstep : soloStep ops fault startPos input (s, .createParent) =
      match makeParent ops (fault .createParent) s with
      | (s', .ok ()) => (s', .openStaging)
      | (s', .error e) => (s', .done (.error (.io e))) := rfl
  unfold openAndStream
  rcases hp : makeParent ops (fault .createParent) s with ⟨s', e | _⟩
  · rw [hp] at hstep
    exact .succ hstep (finishes_done _ _ _)
  · rw [hp] at hstep
    refine .succ (k := input.length + 5) hstep ?_
    have hopen : soloStep ops fault startPos input (s', .openStaging) =
        match attempt (fault .openStaging) (ops.openAppend s') with
        | .ok (s'', h) => (s'', .copy h input 0)
        | .error e => (s', .done (.error (.io e))) := rfl
    rcases ho : attempt (fault .openStaging) (ops.openAppend s') with e | ⟨s'', h⟩
    · rw [ho] at hopen
      simp only [ho]
      exact .succ hopen (finishes_done _ _ _)
    · rw [ho] at hopen
      simp only [ho]
      exact .succ hopen (finishes_copy h input 0 0 s'')

/-- **A call left alone is `storeStream`**: after one step for each chunk of the
input and eight for the rest of the call, it has returned the result of
`storeStream` and left the file system as `storeStream` leaves it. -/
theorem storeSteps_eq (s : S) :
    Finishes ops fault startPos input (input.length + 8) (s, .start)
      (storeStream ops fault startPos input s) := by
  refine .succ (k := input.length + 7)
    (b := (s, afterExists (attempt (fault .exists) (ops.tryExists s)))) rfl ?_
  unfold storeStream
  rcases attempt (fault .exists) (ops.tryExists s) with e | (_ | _)
  · exact finishes_done _ _ _
  · refine .succ (k := input.length + 6)
      (b := (s, afterVerdict (judge startPos (attempt (fault .stat) (ops.stagingLen s))))) rfl ?_
    simp only
    rcases judge startPos (attempt (fault .stat) (ops.stagingLen s)) with e | (_ | _ | _)
    · exact finishes_done _ _ _
    · exact finishes_createParent s
    · exact finishes_remove _ _ _
    · exact finishes_remove _ _ _
  · exact finishes_done _ _ _

end Solo

end Reoftpd

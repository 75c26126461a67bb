import Reoftpd.Crypto

/-!
# `store_encrypted`

One call of the encrypting store, twice, as for `store_stream`: `storeEncrypted` runs
the whole call, `encryptedStep` takes it one file operation at a time, and
`encryptedSteps_eq` says that a call left alone does the same either way.

The ciphertext goes through a handle of its own, opened with `File::create`: the open
empties the staging file if there is one, and every write goes to the handle's own
offset.  An encryption that fails leaves what it wrote under the staging name.
-/
namespace Reoftpd
open Runs UnixPath

/-- `age_suffix`: the suffix is pushed onto the text of the path. -/
def ageSuffix (path : OsStr) : OsStr := path ++ ofString ".age"

/-- Where an operation of an encrypted store fails by itself; `write k` is the `k`-th
write of the ciphertext. -/
inductive EncryptSite where
  | exists
  | createParent
  | create
  | write (k : Nat)
  | link
  | remove
  deriving DecidableEq

/-- The failures of the two operations that both stores end with. -/
def EncryptSite.ofStore (fault : EncryptSite → Option Errno) : StoreSite → Option Errno
  | .link => fault .link
  | .remove => fault .remove
  | _ => none

variable {S H : Type} (ops : TargetOps S H)

/-! ## The whole call -/

/-- The ciphertext's way into the staging file: `k` writes and `off` bytes so far. -/
def writeChunks (fault : EncryptSite → Option Errno) (h : H) :
    S → Nat → Nat → List Bytes → S × Bool
  | s, _, _, [] => (s, true)
  | s, k, off, b :: rest =>
      match fault (.write k) with
      | some _ => (s, false)
      | none => writeChunks fault h (ops.writeAt s h off b) (k + 1) (off + b.length) rest

/-- The blocking task and what follows it: create the staging file, encrypt into it,
finalize.  Every error of the task becomes an I/O error of the program's own. -/
def createAndEncrypt (fault : EncryptSite → Option Errno) (out : Encrypted) (s : S) :
    S × StoreResult :=
  match attempt (fault .create) (ops.createFile s) with
  | .error _ => (s, .error (.io .custom))
  | .ok (s', h) =>
      match writeChunks ops fault h s' 0 0 out.chunks, out.outcome with
      | (s'', true), .ok n => finalize ops (EncryptSite.ofStore fault) s'' n
      | (s'', _), _ => (s'', .error (.io .custom))

/-- `store_encrypted`, given what the encryption of its input writes. -/
def storeEncrypted (fault : EncryptSite → Option Errno) (out : Encrypted) (s : S) :
    S × StoreResult :=
  match attempt (fault .exists) (ops.tryExists s) with
  | .ok true => (s, .error .finalized)
  | _ =>
      match makeParent ops (fault .createParent) s with
      | (s', .error e) => (s', .error (.io e))
      | (s', .ok ()) => createAndEncrypt ops fault out s'

section Rule
variable {ops} {fault : EncryptSite → Option Errno} {out : Encrypted}

/-- The ciphertext's way into the file: some of its writes, or all of them. -/
theorem writeChunks_ind {J : List Bytes → S → Prop} {h : H}
    (wrote : ∀ s ws b, J ws s → J (ws ++ [b]) (ops.writeAt s h ws.flatten.length b))
    (rest ws : List Bytes) (s : S) (k : Nat) (hs : J ws s) :
    ∃ ws' rest', ws ++ rest = ws' ++ rest' ∧
      J ws' (writeChunks ops fault h s k ws.flatten.length rest).1 ∧
      ((writeChunks ops fault h s k ws.flatten.length rest).2 = true → rest' = []) := by
  induction rest generalizing ws s k with
  | nil => exact ⟨ws, [], rfl, hs, fun _ => rfl⟩
  | cons b rest ih =>
      unfold writeChunks
      split
      · exact ⟨ws, b :: rest, rfl, hs, fun hf => by cases hf⟩
      · have hlen : (ws ++ [b]).flatten.length = ws.flatten.length + b.length := by simp
        obtain ⟨ws', rest', happ, hJ, hall⟩ := ih (ws ++ [b]) _ (k + 1) (wrote s ws b hs)
        rw [hlen] at hJ hall
        exact ⟨ws', rest', by rw [← happ]; simp, hJ, hall⟩

/-- From the parents to the end.  `J h ws` holds while the staging file is open on `h` with
the writes `ws` in it. -/
theorem createAndEncrypt_rule {J : H → List Bytes → S → Prop} {Q : S → StoreResult → Prop} {s : S}
    (refused : ∀ e, Q s (.error e))
    (opened : ∀ s' h, ops.createFile s = .ok (s', h) → J h [] s')
    (wrote : ∀ s h ws b, J h ws s → J h (ws ++ [b]) (ops.writeAt s h ws.flatten.length b))
    (failed : ∀ s h ws e, ws <+: out.chunks → J h ws s → Q s (.error e))
    (dropped : ∀ s h n e, out.outcome = .ok n → J h out.chunks s →
      Q (ops.removeStaging s) (.error e))
    (linked : ∀ s h s' n, out.outcome = .ok n → J h out.chunks s → ops.hardLink s = .ok s' →
      Q s' (.ok n) ∧ Q (ops.removeStaging s') (.ok n)) :
    Q (createAndEncrypt ops fault out s).1 (createAndEncrypt ops fault out s).2 := by
  unfold createAndEncrypt
  split
  · exact refused _
  · rename_i s'' h hc
    have hchunks : ∃ ws rest, [] ++ out.chunks = ws ++ rest ∧
        J h ws (writeChunks ops fault h s'' 0 0 out.chunks).1 ∧
        ((writeChunks ops fault h s'' 0 0 out.chunks).2 = true → rest = []) :=
      writeChunks_ind (fun s ws b => wrote s h ws b) out.chunks [] s'' 0
        (opened s'' h (attempt_ok hc).2)
    obtain ⟨ws, rest, happ, hJ, hall⟩ := hchunks
    rw [List.nil_append] at happ
    have hws : ws <+: out.chunks := ⟨rest, happ.symm⟩
    split
    · rename_i s₁ n hw ho
      rw [hw] at hJ hall
      rw [hall rfl, List.append_nil] at happ
      rw [← happ] at hJ hws
      exact finalize_rule (fun e => ⟨failed s₁ h _ e hws hJ, dropped s₁ h n e ho hJ⟩)
        (fun s₂ => linked s₁ h s₂ n ho hJ)
    · rename_i s₁ b hw _
      rw [hw] at hJ
      exact failed s₁ h ws _ hws hJ

/-- **The rule for `storeEncrypted`.**  `Q` is what the call establishes, `J h ws` what
holds while the staging file is open on `h` with the writes `ws` in it. -/
theorem storeEncrypted_rule {J : H → List Bytes → S → Prop} {Q : S → StoreResult → Prop} {s : S}
    (refused : ∀ e, Q s (.error e))
    (parents : ∀ e, Q (ops.createParent s).1 (.error e))
    (opened : ∀ s' h, ops.createFile (ops.createParent s).1 = .ok (s', h) → J h [] s')
    (wrote : ∀ s h ws b, J h ws s → J h (ws ++ [b]) (ops.writeAt s h ws.flatten.length b))
    (failed : ∀ s h ws e, ws <+: out.chunks → J h ws s → Q s (.error e))
    (dropped : ∀ s h n e, out.outcome = .ok n → J h out.chunks s →
      Q (ops.removeStaging s) (.error e))
    (linked : ∀ s h s' n, out.outcome = .ok n → J h out.chunks s → ops.hardLink s = .ok s' →
      Q s' (.ok n) ∧ Q (ops.removeStaging s') (.ok n)) :
    Q (storeEncrypted ops fault out s).1 (storeEncrypted ops fault out s).2 := by
  unfold storeEncrypted makeParent
  split
  · exact refused _
  · cases fault .createParent with
    | some e => exact refused _
    | none =>
        simp only
        split
        · rename_i s' e hp
          have hpar := parents (.io e)
          rw [hp] at hpar
          exact hpar
        · rename_i s' hp
          rw [hp] at parents opened
          exact createAndEncrypt_rule parents opened wrote failed dropped linked

end Rule

/-! ## Two targets side by side -/

section Simulation
variable {ops} {S' H' : Type} {ops' : TargetOps S' H'} {R : S → S' → Prop}
  {J : H → H' → S → S' → Prop} {fault : EncryptSite → Option Errno} {out : Encrypted} {s : S}
  {s' : S'}

/-- The ciphertext's way into the two open files. -/
theorem Simulates.writeChunks (h : Simulates ops ops' R J) {x : H} {x' : H'} (rest : List Bytes)
    (k off : Nat) (hs : J x x' s s') :
    J x x' (Reoftpd.writeChunks ops fault x s k off rest).1
        (Reoftpd.writeChunks ops' fault x' s' k off rest).1 ∧
      (Reoftpd.writeChunks ops fault x s k off rest).2 =
        (Reoftpd.writeChunks ops' fault x' s' k off rest).2 := by
  induction rest generalizing s s' k off with
  | nil => exact ⟨hs, rfl⟩
  | cons b rest ih =>
      unfold Reoftpd.writeChunks
      cases fault (.write k) with
      | some e => exact ⟨hs, rfl⟩
      | none => exact ih (k + 1) (off + b.length) (h.writeAt x x' s s' off b hs)

/-- **An encrypted store goes the same way** on two targets of which one simulates the
other. -/
theorem Simulates.storeEncrypted (h : Simulates ops ops' R J) (hs : R s s') :
    R (Reoftpd.storeEncrypted ops fault out s).1 (Reoftpd.storeEncrypted ops' fault out s').1 ∧
      (Reoftpd.storeEncrypted ops fault out s).2 =
        (Reoftpd.storeEncrypted ops' fault out s').2 := by
  -- the two runs open, write and finalize in step
  have hcreate : ∀ t t', R t t' →
      R (createAndEncrypt ops fault out t).1 (createAndEncrypt ops' fault out t').1 ∧
        (createAndEncrypt ops fault out t).2 = (createAndEncrypt ops' fault out t').2 := by
    intro t t' ht
    unfold createAndEncrypt
    rcases ((h.createFile t t' ht).attempt (fault .create)).cases with ⟨e, ho, ho'⟩ |
      ⟨a, b, ho, ho', hJ⟩
    · rw [ho, ho']
      exact ⟨ht, rfl⟩
    · rw [ho, ho']
      have hwrite : J a.2 b.2 (Reoftpd.writeChunks ops fault a.2 a.1 0 0 out.chunks).1
            (Reoftpd.writeChunks ops' fault b.2 b.1 0 0 out.chunks).1 ∧
          (Reoftpd.writeChunks ops fault a.2 a.1 0 0 out.chunks).2 =
            (Reoftpd.writeChunks ops' fault b.2 b.1 0 0 out.chunks).2 :=
        h.writeChunks out.chunks 0 0 hJ
      obtain ⟨hw, hr⟩ := hwrite
      simp only
      rcases hc : Reoftpd.writeChunks ops fault a.2 a.1 0 0 out.chunks with ⟨u, done⟩
      rcases hc' : Reoftpd.writeChunks ops' fault b.2 b.1 0 0 out.chunks with ⟨u', done'⟩
      rw [hc, hc'] at hw hr
      obtain rfl : done = done' := hr
      have hu : R u u' := h.written a.2 b.2 u u' hw
      cases done with
      | false => exact ⟨hu, rfl⟩
      | true =>
          cases out.outcome with
          | error e => exact ⟨hu, rfl⟩
          | ok n => exact h.finalize hu n
  unfold Reoftpd.storeEncrypted
  rw [h.tryExists s s' hs]
  split
  · exact ⟨hs, rfl⟩
  · obtain ⟨hp, hr⟩ := h.makeParent (fault .createParent) hs
    rcases hmake : Reoftpd.makeParent ops (fault .createParent) s with ⟨u, r⟩
    rcases hmake' : Reoftpd.makeParent ops' (fault .createParent) s' with ⟨u', r'⟩
    rw [hmake, hmake'] at hp hr
    obtain rfl : r = r' := hr
    cases r with
    | error e => exact ⟨hp, rfl⟩
    | ok _ => exact hcreate u u' hp

end Simulation

/-! ## One operation at a time -/

/-- How far a call has come.  `write` holds the open handle, its offset, the number of
writes made and the ciphertext still to write. -/
inductive EncryptPc (H : Type) where
  | start
  | createParent
  | create
  | write (h : H) (off k : Nat) (rest : List Bytes)
  | link (n : Nat)
  | remove (r : StoreResult)
  | done (r : StoreResult)

/-- What the existence check leads to: a check that fails counts as `false`. -/
def afterCheck : Except Errno Bool → EncryptPc H
  | .ok true => .done (.error .finalized)
  | _ => .createParent

/-- What the end of the ciphertext leads to. -/
def afterEncryption : Except CryptoError Nat → EncryptPc H
  | .ok n => .link n
  | .error _ => .done (.error (.io .custom))

/-- **One step of a call**: its next file operation. -/
def encryptedStep (out : Encrypted) (s : S) : EncryptPc H → Option Errno → S × EncryptPc H
  | .start, f => (s, afterCheck (attempt f (ops.tryExists s)))
  | .createParent, f =>
      match makeParent ops f s with
      | (s', .ok ()) => (s', .create)
      | (s', .error e) => (s', .done (.error (.io e)))
  | .create, f =>
      match attempt f (ops.createFile s) with
      | .ok (s', h) => (s', .write h 0 0 out.chunks)
      | .error _ => (s, .done (.error (.io .custom)))
  | .write _ _ _ [], _ => (s, afterEncryption out.outcome)
  | .write h off k (b :: rest), none =>
      (ops.writeAt s h off b, .write h (off + b.length) (k + 1) rest)
  | .write _ _ _ (_ :: _), some _ => (s, .done (.error (.io .custom)))
  | .link n, f => ((linkStaging ops f s n).1, .remove (linkStaging ops f s n).2)
  | .remove r, f => (dropStaging ops f s, .done r)
  | .done r, _ => (s, .done r)

/-- The operation the next step performs, if it is one that can fail by itself. -/
def EncryptPc.site : EncryptPc H → Option EncryptSite
  | .start => some .exists
  | .createParent => some .createParent
  | .create => some .create
  | .write _ _ _ [] => none
  | .write _ _ k (_ :: _) => some (.write k)
  | .link _ => some .link
  | .remove _ => some .remove
  | .done _ => none

/-! ## A call left alone -/

section Solo
variable {ops} {fault : EncryptSite → Option Errno} {out : Encrypted}

/-- A step of a call nobody else interferes with. -/
def soloEncryptedStep (ops : TargetOps S H) (fault : EncryptSite → Option Errno) (out : Encrypted)
    (c : S × EncryptPc H) : S × EncryptPc H :=
  encryptedStep ops out c.1 c.2 (c.2.site.bind fault)

/-- Within `k` steps of its own the call has returned `r`. -/
abbrev EncryptionFinishes (ops : TargetOps S H) (fault : EncryptSite → Option Errno)
    (out : Encrypted) (k : Nat) (c : S × EncryptPc H) (r : S × StoreResult) : Prop :=
  Takes (soloEncryptedStep ops fault out) k c (r.1, .done r.2)

theorem encryptionFinishes_done (k : Nat) (s : S) (r : StoreResult) :
    EncryptionFinishes ops fault out k (s, .done r) (s, r) :=
  takes_fixed rfl k

theorem encryptionFinishes_link (k : Nat) (s : S) (n : Nat) :
    EncryptionFinishes ops fault out (k + 2) (s, .link n)
      (finalize ops (EncryptSite.ofStore fault) s n) :=
  .succ rfl (.succ rfl (encryptionFinishes_done k _ _))

/-- The writes of the ciphertext, one step each, then the rest of the call. -/
theorem encryptionFinishes_write (h : H) (rest : List Bytes) (off j k : Nat) (s : S) :
    EncryptionFinishes ops fault out (rest.length + (k + 3)) (s, .write h off j rest)
      (match writeChunks ops fault h s j off rest, out.outcome with
        | (s', true), .ok n => finalize ops (EncryptSite.ofStore fault) s' n
        | (s', _), _ => (s', .error (.io .custom))) := by
  induction rest generalizing off j s with
  | nil =>
      rw [List.length_nil, Nat.zero_add, writeChunks]
      have hstep : soloEncryptedStep ops fault out (s, .write h off j []) =
          (s, afterEncryption out.outcome) := rfl
      cases ho : out.outcome with
      | ok n =>
          rw [ho] at hstep
          exact .succ hstep (encryptionFinishes_link k s n)
      | error e =>
          rw [ho] at hstep
          exact .succ hstep (encryptionFinishes_done _ s _)
  | cons b rest ih =>
      rw [List.length_cons, Nat.add_right_comm, writeChunks]
      cases hf : fault (.write j) with
      | none =>
          refine .succ ?_ (ih (off + b.length) (j + 1) (ops.writeAt s h off b))
          simp [soloEncryptedStep, EncryptPc.site, hf, encryptedStep]
      | some e =>
          refine .succ ?_ (encryptionFinishes_done _ s _)
          simp [soloEncryptedStep, EncryptPc.site, hf, encryptedStep]

theorem encryptionFinishes_create (s : S) :
    EncryptionFinishes ops fault out (out.chunks.length + 4) (s, .create)
      (createAndEncrypt ops fault out s) := by
  have hstep : soloEncryptedStep ops fault out (s, .create) =
      match attempt (fault .create) (ops.createFile s) with
      | .ok (s', h) => (s', .write h 0 0 out.chunks)
      | .error _ => (s, .done (.error (.io .custom))) := rfl
  unfold createAndEncrypt
  rcases hc : attempt (fault .create) (ops.createFile s) with e | ⟨s', h⟩
  · rw [hc] at hstep
    exact .succ hstep (encryptionFinishes_done _ s _)
  · rw [hc] at hstep
    exact .succ hstep (encryptionFinishes_write h out.chunks 0 0 0 s')

/-- **A call left alone is `storeEncrypted`**: after one step for each write of the
ciphertext and six for the rest of the call, it has returned the result of
`storeEncrypted` and left the file system as `storeEncrypted` leaves it. -/
theorem encryptedSteps_eq (s : S) :
    EncryptionFinishes ops fault out (out.chunks.length + 6) (s, .start)
      (storeEncrypted ops fault out s) := by
  have hparent : EncryptionFinishes ops fault out (out.chunks.length + 5) (s, .createParent)
      (match makeParent ops (fault .createParent) s with
        | (s', .error e) => (s', .error (.io e))
        | (s', .ok ()) => createAndEncrypt ops fault out s') := by
    have hstep : soloEncryptedStep ops fault out (s, .createParent) =
        match makeParent ops (fault .createParent) s with
        | (s', .ok ()) => (s', .create)
        | (s', .error e) => (s', .done (.error (.io e))) := rfl
    rcases hp : makeParent ops (fault .createParent) s with ⟨s', e | _⟩
    · rw [hp] at hstep
      exact .succ hstep (encryptionFinishes_done _ _ _)
    · rw [hp] at hstep
      exact .succ hstep (encryptionFinishes_create s')
  refine .succ (k := out.chunks.length + 5)
    (b := (s, afterCheck (attempt (fault .exists) (ops.tryExists s)))) rfl ?_
  unfold storeEncrypted
  rcases attempt (fault .exists) (ops.tryExists s) with e | (_ | _)
  · exact hparent
  · exact hparent
  · exact encryptionFinishes_done _ _ _

end Solo

end Reoftpd

import Reoftpd.StoreStream

/-!
# Encryption at rest

The age X25519 helpers (`crypto.rs`).  The age library itself is a parameter: `Age`
holds the calls the source makes, and `Age.Inverts` is the one law about them that
anything here rests on, that an identity decrypts what was encrypted to its
recipient.  The writes an encryption makes are kept apart, since a reader of the file
can see the state between any two of them; a write that stops half way is two writes.
-/
namespace Reoftpd

/-- The age library.  `Seed` is the randomness of one encryption; `wrapOutput`, `write`
and `finish` return the writes they make on the inner writer, and a decryption returns
what its reads deliver, up to the end of the plaintext. -/
structure Age where
  Recipient : Type
  Identity : Type
  Seed : Type
  Encryptor : Type
  Writer : Type
  Decryptor : Type
  parseRecipient : String → Except String Recipient
  toPublic : Identity → Recipient
  withRecipients : List Recipient → Except String Encryptor
  wrapOutput : Encryptor → Seed → Except String (Writer × List Bytes)
  write : Writer → Bytes → Writer × List Bytes
  finish : Writer → List Bytes
  newDecryptor : Bytes → Except String Decryptor
  decrypt : Decryptor → Identity → Except String (List (Except String Bytes))

/-- `CryptoError`. -/
inductive CryptoError where
  | recipient (e : String)
  | identity (e : String)
  | encrypt (e : String)
  | decrypt (e : String)
  | io (e : Errno)

/-- The text of an I/O error.  A code that `Errno` has no name for shows as its number. -/
def errnoText : Errno → String
  | .notFound => "No such file or directory (os error 2)"
  | .alreadyExists => "File exists (os error 17)"
  | .notADirectory => "Not a directory (os error 20)"
  | .isADirectory => "Is a directory (os error 21)"
  | .directoryNotEmpty => "Directory not empty (os error 39)"
  | .filesystemLoop => "Too many levels of symbolic links (os error 40)"
  | .other code => "os error " ++ toString code
  | .nulByte => "file name contained an unexpected NUL byte"
  | .custom => "other error"

/-- `Display` of `CryptoError`. -/
def CryptoError.display : CryptoError → String
  | .recipient e => "invalid age recipient: " ++ e
  | .identity e => "invalid age identity: " ++ e
  | .encrypt e => "encryption failed: " ++ e
  | .decrypt e => "decryption failed: " ++ e
  | .io e => "io error: " ++ errnoText e

/-- The characters `str::trim` removes. -/
def isWhiteSpace (c : Char) : Bool :=
  (0x9 ≤ c.toNat && c.toNat ≤ 0xd) || (0x2000 ≤ c.toNat && c.toNat ≤ 0x200a) ||
    [0x20, 0x85, 0xa0, 0x1680, 0x2028, 0x2029, 0x202f, 0x205f, 0x3000].contains c.toNat

/-- `str::trim`. -/
def trim (s : String) : String :=
  String.ofList ((s.toList.dropWhile isWhiteSpace).reverse.dropWhile isWhiteSpace).reverse

variable (age : Age)

/-- `parse_recipients`. -/
def parseRecipients (strs : List String) : Except CryptoError (List age.Recipient) :=
  strs.mapM fun s =>
    match age.parseRecipient (trim s) with
    | .ok r => .ok r
    | .error e => .error (.recipient (s ++ ": " ++ e))

/-- What one encryption writes, and how it ends. -/
structure Encrypted where
  chunks : List Bytes
  outcome : Except CryptoError Nat

/-- `io::copy` from the reader into the stream writer. -/
def copyEncrypted : age.Writer → Input → Nat → List Bytes × Except CryptoError (age.Writer × Nat)
  | w, [], n => ([], .ok (w, n))
  | w, .ok b :: rest, n =>
      ((age.write w b).2 ++ (copyEncrypted (age.write w b).1 rest (n + b.length)).1,
        (copyEncrypted (age.write w b).1 rest (n + b.length)).2)
  | _, .error e :: _, _ => ([], .error (.io e))

/-- `encrypt_stream`, as long as the inner writer takes every write. -/
def encryptStream (recipients : List age.Recipient) (seed : age.Seed) (input : Input) :
    Encrypted :=
  match age.withRecipients recipients with
  | .error e => ⟨[], .error (.encrypt e)⟩
  | .ok encryptor =>
      match age.wrapOutput encryptor seed with
      | .error e => ⟨[], .error (.encrypt e)⟩
      | .ok (w, header) =>
          match copyEncrypted age w input 0 with
          | (out, .error e) => ⟨header ++ out, .error e⟩
          | (out, .ok (w', n)) => ⟨header ++ out ++ age.finish w', .ok n⟩

/-- The copy loop of `decrypt_stream`: what reached the writer, and the result. -/
def drainPlaintext : List (Except String Bytes) → Bytes → Bytes × Except CryptoError Nat
  | [], acc => (acc, .ok acc.length)
  | .error e :: _, acc => (acc, .error (.decrypt e))
  | .ok b :: rest, acc => if b = [] then (acc, .ok acc.length) else drainPlaintext rest (acc ++ b)

/-- `decrypt_stream` into a writer that takes every write. -/
def decryptStream (identity : age.Identity) (ciphertext : Bytes) :
    Bytes × Except CryptoError Nat :=
  match age.newDecryptor ciphertext with
  | .error e => ([], .error (.decrypt e))
  | .ok decryptor =>
      match age.decrypt decryptor identity with
      | .error e => ([], .error (.decrypt e))
      | .ok reads => drainPlaintext reads []

/-! ## What age promises -/

section Inverts
variable {age}

/-- The writes of the stream writer, one after the other. -/
def Age.writes (age : Age) : age.Writer → List Bytes → age.Writer × List Bytes
  | w, [] => (w, [])
  | w, b :: bs =>
      ((age.writes (age.write w b).1 bs).1,
        (age.write w b).2 ++ (age.writes (age.write w b).1 bs).2)

/-- **Decryption inverts encryption**: whatever chunks were written to the stream
writer, an identity whose recipient is among the encryptor's reads them back. -/
def Age.Inverts (age : Age) : Prop :=
  ∀ (recipients : List age.Recipient) (encryptor : age.Encryptor) (seed : age.Seed)
    (w : age.Writer) (header bs : List Bytes) (identity : age.Identity),
    age.withRecipients recipients = .ok encryptor →
    age.wrapOutput encryptor seed = .ok (w, header) →
    age.toPublic identity ∈ recipients →
    ∃ (decryptor : age.Decryptor) (reads : List Bytes),
      age.newDecryptor (header ++ (age.writes w bs).2 ++ age.finish (age.writes w bs).1).flatten =
        .ok decryptor ∧
      age.decrypt decryptor identity = .ok (reads.map .ok) ∧
      (∀ b ∈ reads, b ≠ []) ∧ reads.flatten = bs.flatten

theorem copyEncrypted_ok {w w' : age.Writer} {input : Input} {n m : Nat} {out : List Bytes}
    (h : copyEncrypted age w input n = (out, .ok (w', m))) :
    ∃ bs : List Bytes, input = bs.map .ok ∧ age.writes w bs = (w', out) ∧
      m = n + bs.flatten.length := by
  induction input generalizing w n out with
  | nil =>
      simp only [copyEncrypted, Prod.mk.injEq, Except.ok.injEq] at h
      obtain ⟨rfl, rfl, rfl⟩ := h
      exact ⟨[], rfl, rfl, rfl⟩
  | cons x input ih =>
      cases x with
      | error e => simp [copyEncrypted] at h
      | ok b =>
          simp only [copyEncrypted, Prod.mk.injEq] at h
          obtain ⟨rfl, hok⟩ := h
          obtain ⟨bs, rfl, hw, rfl⟩ := ih (Prod.ext rfl hok)
          refine ⟨b :: bs, rfl, by rw [Age.writes, hw], ?_⟩
          rw [List.flatten_cons, List.length_append, Nat.add_assoc]

/-- An encryption that succeeded read its input to the end and wrote the header, the
writes of its chunks and the last chunk. -/
theorem encryptStream_ok {recipients : List age.Recipient} {seed : age.Seed} {input : Input}
    {n : Nat} (h : (encryptStream age recipients seed input).outcome = .ok n) :
    ∃ (bs : List Bytes) (encryptor : age.Encryptor) (w : age.Writer) (header : List Bytes),
      input = bs.map .ok ∧ n = bs.flatten.length ∧
      age.withRecipients recipients = .ok encryptor ∧
      age.wrapOutput encryptor seed = .ok (w, header) ∧
      (encryptStream age recipients seed input).chunks =
        header ++ (age.writes w bs).2 ++ age.finish (age.writes w bs).1 := by
  unfold encryptStream at h ⊢
  cases he : age.withRecipients recipients with
  | error e => simp [he] at h
  | ok encryptor =>
      cases hw : age.wrapOutput encryptor seed with
      | error e => simp [he, hw] at h
      | ok wh =>
          obtain ⟨w, header⟩ := wh
          rcases hc : copyEncrypted age w input 0 with ⟨out, e | ⟨w', m⟩⟩
          · simp [he, hw, hc] at h
          · obtain ⟨bs, rfl, hws, rfl⟩ := copyEncrypted_ok hc
            simp only [he, hw, hc, Except.ok.injEq] at h
            exact ⟨bs, encryptor, w, header, rfl, by omega, rfl, hw, by simp [hw, hc, hws]⟩

theorem drainPlaintext_ok {reads : List Bytes} (h : ∀ b ∈ reads, b ≠ []) (acc : Bytes) :
    drainPlaintext (reads.map .ok) acc =
      (acc ++ reads.flatten, .ok (acc ++ reads.flatten).length) := by
  induction reads generalizing acc with
  | nil => simp [drainPlaintext]
  | cons b reads ih =>
      rw [List.map_cons, drainPlaintext, if_neg (h b (List.mem_cons_self ..)),
        ih (fun b hb => h b (List.mem_cons_of_mem _ hb)), List.append_assoc, List.flatten_cons]

/-- **Round trip**: what a successful encryption wrote decrypts, for a matching
identity, to the bytes it read. -/
theorem decryptStream_encryptStream (hage : age.Inverts) {recipients : List age.Recipient}
    {seed : age.Seed} {input : Input} {n : Nat} {identity : age.Identity}
    (h : (encryptStream age recipients seed input).outcome = .ok n)
    (hid : age.toPublic identity ∈ recipients) :
    ∃ bs : List Bytes, input = bs.map .ok ∧ n = bs.flatten.length ∧
      decryptStream age identity (encryptStream age recipients seed input).chunks.flatten =
        (bs.flatten, .ok n) := by
  obtain ⟨bs, encryptor, w, header, rfl, rfl, he, hw, hchunks⟩ := encryptStream_ok h
  obtain ⟨decryptor, reads, hnew, hdec, hne, hflat⟩ :=
    hage recipients encryptor seed w header bs identity he hw hid
  refine ⟨bs, rfl, rfl, ?_⟩
  rw [hchunks, decryptStream, hnew]
  simp only [hdec]
  rw [drainPlaintext_ok hne, List.nil_append, hflat]

end Inverts

/-! ## A stand-in for age -/

/-- A library to run examples with: one key, a ciphertext that starts with the seed of
its encryption and goes on with the bytes shifted by it. -/
def shiftAge : Age where
  Recipient := Unit
  Identity := Unit
  Seed := UInt8
  Encryptor := Unit
  Writer := UInt8
  Decryptor := Bytes
  parseRecipient _ := .ok ()
  toPublic _ := ()
  withRecipients recipients := if recipients.isEmpty then .error "no recipients" else .ok ()
  wrapOutput _ seed := .ok (seed, [[seed]])
  write w b := (w, [b.map (· + w)])
  finish _ := []
  newDecryptor ciphertext := .ok ciphertext
  decrypt decryptor _ :=
    match decryptor with
    | [] => .error "no header"
    | seed :: body => .ok (if body = [] then [] else [.ok (body.map (· - seed))])

theorem shiftAge_writes (w : UInt8) (bs : List Bytes) :
    shiftAge.writes w bs = ((w, bs.map (List.map (· + w))) : UInt8 × List Bytes) := by
  induction bs with
  | nil => rfl
  | cons b bs ih =>
      change ((shiftAge.writes w bs).1, [b.map (· + w)] ++ (shiftAge.writes w bs).2) = _
      rw [ih]
      rfl

/-- The stand-in keeps age's promise. -/
theorem shiftAge_inverts : shiftAge.Inverts := by
  intro recipients encryptor (seed : UInt8) w header bs identity _ hw _
  obtain ⟨rfl, rfl⟩ : seed = w ∧ [[seed]] = header := Prod.mk.inj (Except.ok.inj hw)
  have hct : ([[seed]] ++ (shiftAge.writes seed bs).2 ++
      shiftAge.finish (shiftAge.writes seed bs).1).flatten = seed :: bs.flatten.map (· + seed) := by
    rw [shiftAge_writes]
    simp [shiftAge, List.map_flatten]
  generalize bs.flatten = plain at hct ⊢
  refine ⟨seed :: plain.map (· + seed), if plain = [] then [] else [plain],
    congrArg Except.ok hct, ?_, ?_, ?_⟩
  · by_cases h : plain = [] <;> simp [shiftAge, h, Function.comp_def]
  · intro b hb
    split at hb <;> simp_all
  · split <;> simp [*]

end Reoftpd

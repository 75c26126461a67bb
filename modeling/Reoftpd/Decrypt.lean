import Reoftpd.Crypto
import Reoftpd.FileTreeFacts

/-!
# The decrypt command

`reoftpd decrypt` (`main.rs`): each input's output is named after the base name of the
input, and is opened, emptied, filled and, on an error, removed before the next input is
looked at.  A failing device ends the command with an error and is left out.

**A command that ends without an error may have lost files.**  Inputs with one base name
have one output in the output directory, and the last of them wins
(`decrypt_loses_output`); an output may also be another input, which is then overwritten.
Nothing is lost exactly when files that coincide are to hold the same bytes
(`decrypt_loses_nothing_iff`).  What carries it is that the command only makes files and
writes through names (`Wrote`), so that two paths are one file after it exactly if they
were before.
-/
namespace Reoftpd
open UnixPath FileTree

/-! ## The identity file -/

/-- The pieces of a text that end after a newline, and what comes after the last one. -/
def splitInclusive : List Char → List (List Char)
  | [] => []
  | c :: cs =>
      if c = '\n' then [c] :: splitInclusive cs
      else
        match splitInclusive cs with
        | [] => [[c]]
        | l :: ls => (c :: l) :: ls

/-- A line without the newline that ends it, and the carriage return before that. -/
def stripNewline (l : List Char) : List Char :=
  match l.reverse with
  | '\n' :: '\r' :: rest => rest.reverse
  | '\n' :: rest => rest.reverse
  | _ => l

/-- `str::lines`. -/
def lines (text : String) : List (List Char) := (splitInclusive text.toList).map stripNewline

/-- The first line that looks like a key, without the white space around it. -/
def keyLine (text : String) : Option String :=
  ((lines text).find? fun l =>
    "AGE-SECRET-KEY-".toList.isPrefixOf (l.dropWhile isWhiteSpace)).map fun l =>
      trim (String.ofList l)

/-! ## The files -/

/-- `Path::with_file_name`. -/
def withFileName (path name : OsStr) : OsStr :=
  match fileName path with
  | some _ => join ((parent path).getD []) name
  | none => join path name

/-- The base name of an input without `.age`, if it ends so. -/
def ageStem (input : OsStr) : Option OsStr :=
  match fileName input with
  | none => none
  | some n =>
      match toStr n with
      | none => none
      | some s => (s.toList.dropSuffix? ".age".toList).map fun stem => ofString (String.ofList stem)

/-- Where the plaintext of an input goes. -/
def outPath (output : Option OsStr) (input : OsStr) : Option OsStr :=
  (ageStem input).map fun stem =>
    match output with
    | some dir => join dir stem
    | none => withFileName input stem

variable {age : Age}

/-- `decrypt_stream` from what an open found: reading a directory fails. -/
def decryptFrom (identity : age.Identity) (t : FileTree) :
    Entry OsStr → Bytes × Except CryptoError Nat
  | .file i => decryptStream age identity (t.disk.data i)
  | _ => ([], .error (.decrypt (errnoText .isADirectory)))

/-- **One input** of the command.  The output is empty before the input is read. -/
def decryptFile (identity : age.Identity) (output : Option OsStr) (input : OsStr)
    (t : FileTree) : FileTree × Except String Unit :=
  match outPath output input with
  | none => (t, .error (toStringLossy input ++ " does not end in .age"))
  | some out =>
      match t.find true input with
      | .error e => (t, .error (errnoText e))
      | .ok (_, rd) =>
          match t.openTruncate out with
          | .error e => (t, .error (errnoText e))
          | .ok (t', wr) =>
              match decryptFrom identity t' rd with
              | (plain, .ok _) => (t'.setData wr plain, .ok ())
              | (plain, .error e) =>
                  ((t'.setData wr plain).discard out,
                    .error (toStringLossy input ++ ": " ++ e.display))

/-- The loop over the inputs. -/
def decryptFiles (identity : age.Identity) (output : Option OsStr) :
    List OsStr → FileTree → FileTree × Except String Unit
  | [], t => (t, .ok ())
  | input :: rest, t =>
      match decryptFile identity output input t with
      | (t', .ok ()) => decryptFiles identity output rest t'
      | (t', .error e) => (t', .error e)

/-- **`Command::Decrypt`**, on what reading the identity file gives. -/
def decryptCommand (fromStr : String → Option age.Identity) (identityPath : OsStr)
    (identityText : Except String String) (output : Option OsStr) (files : List OsStr)
    (t : FileTree) : FileTree × Except String Unit :=
  match identityText with
  | .error e => (t, .error e)
  | .ok text =>
      match keyLine text with
      | none => (t, .error ("no AGE-SECRET-KEY- line in " ++ toStringLossy identityPath))
      | some key =>
          match fromStr key with
          | none =>
              (t, .error "identity file does not contain a valid AGE-SECRET-KEY-... value")
          | some identity => decryptFiles identity output files t

/-! ## What is to be kept -/

/-- Two paths are one file: they lead to one place, or to names of one inode. -/
def SameFile (t : FileTree) (p q : OsStr) : Prop :=
  (∃ L, t.locate true p = .ok L ∧ t.locate true q = .ok L) ∨
    ∃ i, t.fileAt p = some i ∧ t.fileAt q = some i

/-- An input is decrypted between two trees: its output holds the plaintext of the bytes
it had, and it has them still. -/
structure Decrypted (identity : age.Identity) (output : Option OsStr) (t t' : FileTree)
    (input : OsStr) : Prop where
  written : ∃ out ciphertext plain n, outPath output input = some out ∧
    t.readFile input = .ok ciphertext ∧
    decryptStream age identity ciphertext = (plain, .ok n) ∧ t'.readFile out = .ok plain
  kept : t'.readFile input = t.readFile input

/-- Files that coincide are to hold the same bytes. -/
structure Compatible (identity : age.Identity) (output : Option OsStr) (t : FileTree)
    (files : List OsStr) : Prop where
  there : ∀ f ∈ files, ∃ b, t.readFile f = .ok b
  outputs : ∀ f ∈ files, ∀ g ∈ files, ∀ o ∈ outPath output f, ∀ o' ∈ outPath output g,
    SameFile t o o' → ∀ b c, t.readFile f = .ok b → t.readFile g = .ok c →
      (decryptStream age identity b).1 = (decryptStream age identity c).1
  inputs : ∀ f ∈ files, ∀ g ∈ files, ∀ o ∈ outPath output f,
    SameFile t o g → ∀ b c, t.readFile f = .ok b → t.readFile g = .ok c →
      (decryptStream age identity b).1 = c

section Wrote
variable {t s : FileTree} {p q : OsStr} {L M : Loc} {i : Nat}

/-- **Two paths that name one inode were one file before.** -/
theorem sameFile_of_wrote (h : Wrote t s) (hp : s.fileAt p = some i) (hq : s.fileAt q = some i) :
    SameFile t p q := by
  obtain ⟨L, hL, hLfile⟩ := fileAt_eq_some.mp hp
  obtain ⟨M, hM, hMfile⟩ := fileAt_eq_some.mp hq
  by_cases hi : t.disk.fresh ≤ i
  · obtain rfl := h.once L M i hLfile hMfile hi
    exact Or.inl ⟨L, h.locate_iff.mp hL, h.locate_iff.mp hM⟩
  · have hold : ∀ K, s.entry K = some (.file i) → t.entry K = some (.file i) := by
      intro K hK
      rcases h.entry_or K with he | ⟨-, j, hj, hfresh⟩
      · rw [← he, hK]
      · rw [hj] at hK
        obtain rfl : j = i := by simpa using hK
        exact absurd hfresh hi
    exact Or.inr ⟨i, fileAt_eq_some.mpr ⟨L, h.locate_iff.mp hL, hold L hLfile⟩,
      fileAt_eq_some.mpr ⟨M, h.locate_iff.mp hM, hold M hMfile⟩⟩

/-- Two paths that are one file read the same. -/
theorem readFile_of_sameFile (h : Wrote t s) (hs : SameFile t p q) :
    s.readFile p = s.readFile q := by
  rcases hs with ⟨L, hp, hq⟩ | ⟨i, hp, hq⟩
  · unfold readFile find
    rw [h.locate_iff.mpr hp, h.locate_iff.mpr hq]
  · obtain ⟨L, hL, hLfile⟩ := fileAt_eq_some.mp (h.fileAt hp)
    obtain ⟨M, hM, hMfile⟩ := fileAt_eq_some.mp (h.fileAt hq)
    rw [readFile_of_locate hL hLfile, readFile_of_locate hM hMfile]

/-- A file that reads is an inode with those bytes. -/
theorem readFile_ok {b : Bytes} : t.readFile p = .ok b ↔
    ∃ i, t.fileAt p = some i ∧ t.disk.data i = b := by
  constructor
  · intro h
    unfold readFile at h
    split at h
    · rename_i L i hf
      exact ⟨i, fileAt_eq_some.mpr ⟨L, find_ok.mp hf⟩, Except.ok.inj h⟩
    · cases h
    · cases h
    · cases h
  · rintro ⟨i, hi, rfl⟩
    obtain ⟨L, hL, hfile⟩ := fileAt_eq_some.mp hi
    exact readFile_of_locate hL hfile

theorem fileAt_of_openTruncate {s' : FileTree} (ho : s.openTruncate p = .ok (s', i)) :
    s'.fileAt p = some i := by
  have hw := (Wrote.refl s).openTruncate ho
  obtain ⟨s₁, hopen, rfl⟩ := openTruncate_ok ho
  obtain ⟨L, hL, hcases⟩ := openFile_ok hopen
  refine fileAt_eq_some.mpr ⟨L, hw.locate_iff.mpr hL, ?_⟩
  rcases hcases with ⟨hfile, rfl⟩ | ⟨hvacant, rfl, rfl⟩
  · exact hfile
  · exact entry_createAt_self hvacant

/-- A truncating open empties one inode and no other. -/
theorem data_openTruncate {s' : FileTree} (ho : s.openTruncate p = .ok (s', i)) :
    s'.disk.data i = [] ∧ ∀ j, j ≠ i → s'.disk.data j = s.disk.data j := by
  obtain ⟨s₁, hopen, rfl⟩ := openTruncate_ok ho
  refine ⟨data_setData_self [], fun j hj => ?_⟩
  rw [data_setData_ne [] hj]
  obtain ⟨L, -, ⟨-, rfl⟩ | ⟨-, rfl, rfl⟩⟩ := openFile_ok hopen
  · rfl
  · exact data_createAt_ne hj

end Wrote

section Command
variable {identity : age.Identity} {output : Option OsStr} {t s s' : FileTree} {f : OsStr}
  {files : List OsStr}

/-- What decrypting one input did. -/
structure DecryptStep (identity : age.Identity) (output : Option OsStr) (f : OsStr)
    (s s' : FileTree) (out : OsStr) (rd wr : Nat) (plain : Bytes) (n : Nat) : Prop where
  outPath : outPath output f = some out
  reads : s.fileAt f = some rd
  writes : s'.fileAt out = some wr
  decrypts : decryptStream age identity (if rd = wr then [] else s.disk.data rd) = (plain, .ok n)
  data : s'.disk.data wr = plain
  others : ∀ j, j ≠ wr → s'.disk.data j = s.disk.data j
  wrote : ∀ t, Wrote t s → Wrote t s'

theorem decryptFile_ok (h : decryptFile identity output f s = (s', .ok ())) :
    ∃ out rd wr plain n, DecryptStep identity output f s s' out rd wr plain n := by
  unfold decryptFile at h
  split at h
  · cases h
  · rename_i out hout
    split at h
    · cases h
    · rename_i L e hfind
      split at h
      · cases h
      · rename_i s₁ wr hopen
        obtain ⟨hempty, hothers⟩ := data_openTruncate hopen
        split at h
        · rename_i plain n hplain
          obtain ⟨rfl, -⟩ := Prod.mk.inj h
          cases e with
          | file rd =>
              refine ⟨out, rd, wr, plain, n, hout, fileAt_eq_some.mpr ⟨L, find_ok.mp hfind⟩,
                ((Wrote.refl s₁).setData wr plain).fileAt (fileAt_of_openTruncate hopen), ?_,
                data_setData_self plain,
                fun j hj => ?_, fun t hw => (hw.openTruncate hopen).setData wr plain⟩
              · rw [decryptFrom] at hplain
                -- an input that is its own output is empty when it is read
                by_cases hrd : rd = wr
                · rw [if_pos hrd, ← hplain, hrd, hempty]
                · rw [if_neg hrd, ← hplain, hothers rd hrd]
              · rw [data_setData_ne plain hj, hothers j hj]
          | dir => cases hplain
          | link target => cases hplain
        · cases h

/-- A file that is not the output, or is to hold what is written there, reads as it did. -/
theorem DecryptStep.readFile {out g : OsStr} {rd wr n : Nat} {plain b : Bytes}
    (h : DecryptStep identity output f s s' out rd wr plain n) (hw : Wrote t s)
    (hread : s.readFile g = .ok b) (hsame : SameFile t out g → plain = b) :
    s'.readFile g = .ok b := by
  obtain ⟨i, hi, rfl⟩ := readFile_ok.mp hread
  have hi' : s'.fileAt g = some i := (h.wrote s (.refl s)).fileAt hi
  refine readFile_ok.mpr ⟨i, hi', ?_⟩
  by_cases hiw : i = wr
  · rw [hiw] at hi' ⊢
    rw [h.data, hsame (sameFile_of_wrote (h.wrote t hw) h.writes hi'), hiw]
  · exact h.others i hiw

/-- What holds while the command goes through its inputs: those behind it are decrypted,
and all of them have the bytes they had. -/
structure Going (identity : age.Identity) (output : Option OsStr) (t : FileTree)
    (files done : List OsStr) (s : FileTree) : Prop where
  wrote : Wrote t s
  inputs : ∀ f ∈ files, s.readFile f = t.readFile f
  outputs : ∀ f ∈ done, Decrypted identity output t s f

/-- **One input.** -/
theorem Going.step {done : List OsStr} (hcomp : Compatible identity output t files)
    (hempty : ∀ n, (decryptStream age identity []).2 ≠ .ok n)
    (h : Going identity output t files done s) (hdone : ∀ g ∈ done, g ∈ files) (hf : f ∈ files)
    (hstep : decryptFile identity output f s = (s', .ok ())) :
    Going identity output t files (done ++ [f]) s' := by
  obtain ⟨out, rd, wr, plain, n, hs⟩ := decryptFile_ok hstep
  -- an empty input does not decrypt, so the output is another file
  have hne : rd ≠ wr := by
    intro he
    have hdec := hs.decrypts
    rw [if_pos he] at hdec
    exact hempty n (by rw [hdec])
  obtain ⟨b, hb⟩ := hcomp.there f hf
  have hdec : decryptStream age identity b = (plain, .ok n) := by
    have hrd := hs.decrypts
    have hsame : s.readFile f = .ok (s.disk.data rd) := readFile_ok.mpr ⟨rd, hs.reads, rfl⟩
    rw [h.inputs f hf, hb] at hsame
    rw [if_neg hne, ← Except.ok.inj hsame] at hrd
    exact hrd
  -- what the output coincides with was to hold these bytes anyway
  have hinputs : ∀ g ∈ files, s'.readFile g = t.readFile g := by
    intro g hg
    obtain ⟨c, hc⟩ := hcomp.there g hg
    rw [hc]
    refine hs.readFile h.wrote ((h.inputs g hg).trans hc) fun hsame => ?_
    rw [← hcomp.inputs f hf g hg out hs.outPath hsame b c hb hc, hdec]
  refine ⟨hs.wrote t h.wrote, hinputs, fun g hg => ?_⟩
  rcases List.mem_append.mp hg with hg | hg
  · obtain ⟨⟨o, c, plain', m, ho, hc, hdec', hread⟩, -⟩ := h.outputs g hg
    refine ⟨⟨o, c, plain', m, ho, hc, hdec', hs.readFile h.wrote hread fun hsame => ?_⟩,
      hinputs g (hdone g hg)⟩
    have hplain := hcomp.outputs f hf g (hdone g hg) out hs.outPath o ho hsame b c hb hc
    rw [hdec, hdec'] at hplain
    exact hplain
  · obtain rfl := List.mem_singleton.mp hg
    exact ⟨⟨out, b, plain, n, hs.outPath, hb, hdec,
      readFile_ok.mpr ⟨wr, hs.writes, hs.data⟩⟩, hinputs _ hf⟩

/-- A loop that ends without an error went from step to step. -/
theorem decryptFiles_cons (h : decryptFiles identity output (f :: files) s = (s', .ok ())) :
    ∃ s₁, decryptFile identity output f s = (s₁, .ok ()) ∧
      decryptFiles identity output files s₁ = (s', .ok ()) := by
  rw [decryptFiles] at h
  split at h
  · rename_i s₁ hstep
    exact ⟨s₁, hstep, h⟩
  · cases h

theorem Going.run {done rest : List OsStr} (hcomp : Compatible identity output t files)
    (hempty : ∀ n, (decryptStream age identity []).2 ≠ .ok n)
    (h : Going identity output t files done s) (hfiles : done ++ rest = files)
    (hend : decryptFiles identity output rest s = (s', .ok ())) :
    Going identity output t files files s' := by
  induction rest generalizing done s with
  | nil =>
      obtain rfl := (Prod.mk.inj hend).1
      rw [List.append_nil] at hfiles
      rwa [hfiles] at h
  | cons f rest ih =>
      obtain ⟨s₁, hstep, hrest⟩ := decryptFiles_cons hend
      have hdone : ∀ g ∈ done, g ∈ files := fun g hg => by
        rw [← hfiles]
        exact List.mem_append_left _ hg
      have hf : f ∈ files := by
        rw [← hfiles]
        exact List.mem_append_right _ (List.mem_cons_self ..)
      refine ih (h.step hcomp hempty hdone hf hstep) ?_ hrest
      rw [List.append_assoc]
      exact hfiles

/-- A loop that ends without an error only made files and wrote through names. -/
theorem wrote_decryptFiles (hend : decryptFiles identity output files s = (s', .ok ()))
    (h : Wrote t s) : Wrote t s' := by
  induction files generalizing s with
  | nil =>
      obtain rfl := (Prod.mk.inj hend).1
      exact h
  | cons f files ih =>
      obtain ⟨s₁, hstep, hrest⟩ := decryptFiles_cons hend
      obtain ⟨out, rd, wr, plain, n, hs⟩ := decryptFile_ok hstep
      exact ih hrest (hs.wrote t h)

/-- Where every input was decrypted, files that coincide were to hold the same bytes. -/
theorem compatible_of_decrypted (hw : Wrote t s')
    (h : ∀ f ∈ files, Decrypted identity output t s' f) : Compatible identity output t files := by
  refine ⟨fun f hf => ?_, fun f hf g hg o ho o' ho' hsame b c hb hc => ?_,
    fun f hf g hg o ho hsame b c hb hc => ?_⟩
  · obtain ⟨⟨-, b, -, -, -, hb, -⟩, -⟩ := h f hf
    exact ⟨b, hb⟩
  · obtain ⟨⟨p, b', plain, n, hp, hb', hdec, hread⟩, -⟩ := h f hf
    obtain ⟨⟨q, c', plain', m, hq, hc', hdec', hread'⟩, -⟩ := h g hg
    obtain rfl := Option.some.inj (ho.symm.trans hp)
    obtain rfl := Option.some.inj (ho'.symm.trans hq)
    obtain rfl := Except.ok.inj (hb.symm.trans hb')
    obtain rfl := Except.ok.inj (hc.symm.trans hc')
    rw [readFile_of_sameFile hw hsame, hread'] at hread
    rw [hdec, hdec', Except.ok.inj hread]
  · obtain ⟨⟨p, b', plain, n, hp, hb', hdec, hread⟩, -⟩ := h f hf
    obtain ⟨-, hkept⟩ := h g hg
    obtain rfl := Option.some.inj (ho.symm.trans hp)
    obtain rfl := Except.ok.inj (hb.symm.trans hb')
    rw [readFile_of_sameFile hw hsame, hkept, hc] at hread
    rw [hdec, Except.ok.inj hread]

/-- With a key, the command is the loop over its inputs. -/
theorem decryptCommand_files {fromStr : String → Option age.Identity} {identityPath : OsStr}
    {text : String} (hkey : (keyLine text).bind fromStr = some identity) :
    decryptCommand fromStr identityPath (.ok text) output files t =
      decryptFiles identity output files t := by
  obtain ⟨key, hline, hfrom⟩ := Option.bind_eq_some_iff.mp hkey
  rw [decryptCommand]
  simp only [hline, hfrom]

/-- **When the decrypt command loses nothing.**  Let it end without an error, whatever the
inputs, the output directory and the file system, an empty file being no age file.  Every
output then holds the plaintext of its input, and every input its bytes, exactly when all
inputs were there from the start and files that coincide are to hold the same bytes. -/
theorem decrypt_loses_nothing_iff (identity : age.Identity) (output : Option OsStr)
    (files : List OsStr) (t : FileTree) (fromStr : String → Option age.Identity)
    (identityPath : OsStr) (text : String)
    (hempty : ∀ n, (decryptStream age identity []).2 ≠ .ok n)
    (hkey : (keyLine text).bind fromStr = some identity)
    (hend : (decryptCommand fromStr identityPath (.ok text) output files t).2 = .ok ()) :
    (∀ f ∈ files, Decrypted identity output t
        (decryptCommand fromStr identityPath (.ok text) output files t).1 f) ↔
      Compatible identity output t files := by
  rw [decryptCommand_files hkey] at hend ⊢
  have hend' : decryptFiles identity output files t =
    ((decryptFiles identity output files t).1, .ok ()) := Prod.ext rfl hend
  constructor
  · exact compatible_of_decrypted (wrote_decryptFiles hend' (.refl t))
  · intro hcomp
    have hstart : Going identity output t files [] t := ⟨.refl t, fun _ _ => rfl, by simp⟩
    exact (hstart.run hcomp hempty rfl hend').outputs

end Command

/-! ## Two cameras with a clip of one name -/

/-- A clip of each of two cameras, and a directory for their plaintexts. -/
def twoClips (a b : String) : FileTree :=
  let dirs := ((FileTree.bare.mkdirAt [ofString "a"]).mkdirAt [ofString "b"]).mkdirAt [ofString "o"]
  let first := (dirs.createAt [ofString "a", ofString a]).setData 0 [1, 5]
  (first.createAt [ofString "b", ofString b]).setData 1 [1, 7]

/-- The text of a key file. -/
def keyText : String := "# a key\nAGE-SECRET-KEY-1\n"

/-- The key of the stand-in. -/
def shiftKey : shiftAge.Identity := ()

/-- The command with that key, into the directory. -/
def decryptClips (files : List OsStr) (t : FileTree) : FileTree × Except String Unit :=
  decryptCommand (fun _ => some shiftKey) (ofString "/k") (.ok keyText) (some (ofString "/o"))
    files t

/-- Clips of different names are both decrypted. -/
theorem compatible_twoClips :
    Compatible shiftKey (some (ofString "/o")) (twoClips "x.age" "y.age")
      [ofString "/a/x.age", ofString "/b/y.age"] := by
  have hempty : ∀ n, (decryptStream shiftAge shiftKey []).2 ≠ .ok n := by
    rintro n ⟨⟩
  have hline : keyLine keyText = some "AGE-SECRET-KEY-1" := by decide +kernel
  have hkey : (keyLine keyText).bind (fun _ => some shiftKey) = some shiftKey := by
    rw [hline, Option.bind_some]
  have hfirst : Decrypted shiftKey (some (ofString "/o")) (twoClips "x.age" "y.age")
      (decryptClips [ofString "/a/x.age", ofString "/b/y.age"] (twoClips "x.age" "y.age")).1
      (ofString "/a/x.age") :=
    ⟨⟨ofString "/o/x", [1, 5], [4], 1, by decide +kernel, by decide +kernel, rfl,
      by decide +kernel⟩, by decide +kernel⟩
  have hsecond : Decrypted shiftKey (some (ofString "/o")) (twoClips "x.age" "y.age")
      (decryptClips [ofString "/a/x.age", ofString "/b/y.age"] (twoClips "x.age" "y.age")).1
      (ofString "/b/y.age") :=
    ⟨⟨ofString "/o/y", [1, 7], [6], 1, by decide +kernel, by decide +kernel, rfl,
      by decide +kernel⟩, by decide +kernel⟩
  exact (decrypt_loses_nothing_iff shiftKey (some (ofString "/o")) _ _ (fun _ => some shiftKey)
    (ofString "/k") keyText hempty hkey (by decide +kernel)).mp
      (List.forall_mem_cons.mpr ⟨hfirst, List.forall_mem_singleton.mpr hsecond⟩)

/-- **The second camera's clip replaces the first's**, and the command ends without an
error. -/
theorem decrypt_loses_output :
    ¬ ∀ (files : List OsStr) (t : FileTree), files.Nodup →
      (decryptClips files t).2 = .ok () →
      ∀ f ∈ files, Decrypted shiftKey (some (ofString "/o")) t (decryptClips files t).1 f := by
  intro h
  obtain ⟨⟨out, c, plain, n, hout, hc, hdec, hread⟩, -⟩ :=
    h [ofString "/a/x.age", ofString "/b/x.age"] (twoClips "x.age" "x.age") (by decide +kernel)
      (by decide +kernel) _ (List.mem_cons_self ..)
  have hclip : (twoClips "x.age" "x.age").readFile (ofString "/a/x.age") = .ok [1, 5] := by
    decide +kernel
  have hstem : outPath (some (ofString "/o")) (ofString "/a/x.age") = some (ofString "/o/x") := by
    decide +kernel
  have hlast : (decryptClips [ofString "/a/x.age", ofString "/b/x.age"]
      (twoClips "x.age" "x.age")).1.readFile (ofString "/o/x") = .ok [6] := by
    decide +kernel
  obtain rfl := Except.ok.inj (hclip.symm.trans hc)
  obtain rfl := Option.some.inj (hstem.symm.trans hout)
  obtain rfl := Except.ok.inj (hlast.symm.trans hread)
  cases hdec

end Reoftpd

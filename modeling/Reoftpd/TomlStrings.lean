import Mathlib.Data.List.Basic
import Mathlib.Data.List.Infix
import Mathlib.Tactic.SplitIfs

/-!
# TOML strings

The four kinds of strings of TOML 1.0, read a character at a time, from the character that
follows the opening quote.  A quote may turn out to be the first of three, and three quotes
that end a string may be followed by two more that belong to it, so the end of a string is
seen with its last character or with the first one behind it (`Scanned`).
-/
namespace Reoftpd.Toml

/-- A space or a tab. -/
def isWs (c : Char) : Bool := c = ' ' || c = '\t'

/-- A character that stands for itself in a basic string. -/
def isBasicChar (c : Char) : Bool :=
  c = '\t' || (0x20 ≤ c.toNat && c ≠ '\x22' && c ≠ '\x5c' && c ≠ '\x7f')

/-- A character of a literal string. -/
def isLiteralChar (c : Char) : Bool :=
  c = '\t' || (0x20 ≤ c.toNat && c ≠ '\x27' && c ≠ '\x7f')

/-- What a character does to a token: the token goes on, the character ends it, or the
token had ended before the character. -/
inductive Scanned (M V : Type) where
  | more (m : M)
  | done (v : V)
  | before (v : V)

/-- The token at the front of a text, and the text behind it. -/
def scan {M V : Type} (step : M → Char → Option (Scanned M V)) (m : M) :
    List Char → Option (V × List Char)
  | [] => none
  | c :: cs =>
      match step m c with
      | none => none
      | some (.more m') => scan step m' cs
      | some (.done v) => some (v, cs)
      | some (.before v) => some (v, c :: cs)

/-- What a text that ends no token makes of its mode. -/
def feed {M V : Type} (step : M → Char → Option (Scanned M V)) (m : M) :
    List Char → Option M
  | [] => some m
  | c :: cs =>
      match step m c with
      | some (.more m') => feed step m' cs
      | _ => none

/-! ## Escapes -/

/-- Behind a backslash: nothing yet, or `left` digits less than one that are still to come. -/
inductive Escape where
  | start
  | hex (left value : Nat)
  deriving DecidableEq

/-- The value of a hexadecimal digit. -/
def hexDigit? (c : Char) : Option Nat :=
  if 0x30 ≤ c.toNat ∧ c.toNat ≤ 0x39 then some (c.toNat - 0x30)
  else if 0x61 ≤ c.toNat ∧ c.toNat ≤ 0x66 then some (c.toNat - 0x61 + 10)
  else if 0x41 ≤ c.toNat ∧ c.toNat ≤ 0x46 then some (c.toNat - 0x41 + 10)
  else none

/-- The character of a code point, unless it is a surrogate or too large. -/
def scalarValue? (n : Nat) : Option Char :=
  if n < 0xd800 ∨ 0xdfff < n ∧ n < 0x110000 then some (Char.ofNat n) else none

/-- A character of an escape: the escape goes on, or the character it stands for. -/
def Escape.step : Escape → Char → Option (Escape ⊕ Char)
  | .start, 'b' => some (.inr '\x08')
  | .start, 't' => some (.inr '\t')
  | .start, 'n' => some (.inr '\n')
  | .start, 'f' => some (.inr '\x0c')
  | .start, 'r' => some (.inr '\r')
  | .start, '\x22' => some (.inr '\x22')
  | .start, '\x5c' => some (.inr '\x5c')
  | .start, 'u' => some (.inl (.hex 3 0))
  | .start, 'U' => some (.inl (.hex 7 0))
  | .start, _ => none
  | .hex left value, c =>
      match hexDigit? c, left with
      | none, _ => none
      | some d, 0 => (scalarValue? (16 * value + d)).map .inr
      | some d, left + 1 => some (.inl (.hex left (16 * value + d)))

/-! ## Basic strings -/

/-- Where a basic string is: behind its first quote or its second, in a string on one line,
or, behind three quotes, at the start of a string on many lines, in it, behind `n` quotes
in it, or behind a backslash at the end of a line, up to the next text.  `cr` is behind a
carriage return, which a line feed must follow. -/
inductive BasicMode where
  | one
  | two
  | single (acc : List Char)
  | escape (many : Bool) (acc : List Char) (e : Escape)
  | opening
  | multi (acc : List Char)
  | quotes (acc : List Char) (n : Nat)
  | lineEnd (acc : List Char)
  | skip (acc : List Char)
  | cr (skipping : Bool) (acc : List Char)

namespace BasicMode

/-- A character of a string on one line. -/
def inSingle (acc : List Char) (c : Char) : Option (Scanned BasicMode (List Char)) :=
  if c = '\x22' then some (.done acc)
  else if c = '\x5c' then some (.more (.escape false acc .start))
  else if isBasicChar c then some (.more (.single (acc ++ [c])))
  else none

/-- A character of a string on many lines.  A line ends with a line feed in the value. -/
def inMulti (acc : List Char) (c : Char) : Option (Scanned BasicMode (List Char)) :=
  if c = '\x22' then some (.more (.quotes acc 1))
  else if c = '\x5c' then some (.more (.escape true acc .start))
  else if c = '\n' then some (.more (.multi (acc ++ ['\n'])))
  else if c = '\r' then some (.more (.cr false (acc ++ ['\n'])))
  else if isBasicChar c then some (.more (.multi (acc ++ [c])))
  else none

/-- A character behind a backslash.  On many lines the backslash may end a line. -/
def inEscape (many : Bool) (acc : List Char) (e : Escape) (c : Char) :
    Option (Scanned BasicMode (List Char)) :=
  match e.step c with
  | some (.inl e') => some (.more (.escape many acc e'))
  | some (.inr x) => some (.more (if many then .multi (acc ++ [x]) else .single (acc ++ [x])))
  | none =>
      if many = false ∨ e ≠ .start then none
      else if c = '\n' then some (.more (.skip acc))
      else if c = '\r' then some (.more (.cr true acc))
      else if isWs c then some (.more (.lineEnd acc))
      else none

/-- A character of a basic string. -/
def step : BasicMode → Char → Option (Scanned BasicMode (List Char))
  | one, c => if c = '\x22' then some (.more two) else inSingle [] c
  | two, c => if c = '\x22' then some (.more opening) else some (.before [])
  | single acc, c => inSingle acc c
  | escape many acc e, c => inEscape many acc e c
  | opening, c =>
      if c = '\n' then some (.more (multi []))
      else if c = '\r' then some (.more (cr false []))
      else inMulti [] c
  | multi acc, c => inMulti acc c
  | quotes acc n, c =>
      if c = '\x22' ∧ n < 5 then some (.more (quotes acc (n + 1)))
      else if 3 ≤ n then some (.before (acc ++ List.replicate (n - 3) '\x22'))
      else inMulti (acc ++ List.replicate n '\x22') c
  | lineEnd acc, c =>
      if c = '\n' then some (.more (skip acc))
      else if c = '\r' then some (.more (cr true acc))
      else if isWs c then some (.more (lineEnd acc))
      else none
  | skip acc, c =>
      if c = '\n' ∨ isWs c then some (.more (skip acc))
      else if c = '\r' then some (.more (cr true acc))
      else inMulti acc c
  | cr skipping acc, c =>
      if c = '\n' then some (.more (if skipping then skip acc else multi acc)) else none

end BasicMode

/-! ## Literal strings -/

/-- Where a literal string is, as for a basic one. -/
inductive LiteralMode where
  | one
  | two
  | single (acc : List Char)
  | opening
  | multi (acc : List Char)
  | quotes (acc : List Char) (n : Nat)
  | cr (acc : List Char)

namespace LiteralMode

/-- A character of a string on one line. -/
def inSingle (acc : List Char) (c : Char) : Option (Scanned LiteralMode (List Char)) :=
  if c = '\x27' then some (.done acc)
  else if isLiteralChar c then some (.more (.single (acc ++ [c])))
  else none

/-- A character of a string on many lines. -/
def inMulti (acc : List Char) (c : Char) : Option (Scanned LiteralMode (List Char)) :=
  if c = '\x27' then some (.more (.quotes acc 1))
  else if c = '\n' then some (.more (.multi (acc ++ ['\n'])))
  else if c = '\r' then some (.more (.cr (acc ++ ['\n'])))
  else if isLiteralChar c then some (.more (.multi (acc ++ [c])))
  else none

/-- A character of a literal string. -/
def step : LiteralMode → Char → Option (Scanned LiteralMode (List Char))
  | one, c => if c = '\x27' then some (.more two) else inSingle [] c
  | two, c => if c = '\x27' then some (.more opening) else some (.before [])
  | single acc, c => inSingle acc c
  | opening, c =>
      if c = '\n' then some (.more (multi []))
      else if c = '\r' then some (.more (cr []))
      else inMulti [] c
  | multi acc, c => inMulti acc c
  | quotes acc n, c =>
      if c = '\x27' ∧ n < 5 then some (.more (quotes acc (n + 1)))
      else if 3 ≤ n then some (.before (acc ++ List.replicate (n - 3) '\x27'))
      else inMulti (acc ++ List.replicate n '\x27') c
  | cr acc, c => if c = '\n' then some (.more (multi acc)) else none

end LiteralMode

/-! ## Tokens -/

section
variable {M V : Type} {step : M → Char → Option (Scanned M V)} {m m' : M} {v : V}
  {x y cs rest : List Char}

/-- A token that does not end in the first part of a text ends in the rest of it. -/
theorem scan_append (h : scan step m (x ++ y) = some (v, rest)) (hr : rest.length < y.length) :
    ∃ m', feed step m x = some m' ∧ scan step m' y = some (v, rest) := by
  induction x generalizing m with
  | nil => exact ⟨m, rfl, h⟩
  | cons c x ih =>
      rw [List.cons_append, scan] at h
      split at h
      · cases h
      · rename_i m₁ hs
        simpa [feed, hs] using ih h
      · obtain ⟨rfl, rfl⟩ := Prod.mk.inj (Option.some.inj h)
        rw [List.length_append] at hr
        omega
      · obtain ⟨rfl, rfl⟩ := Prod.mk.inj (Option.some.inj h)
        rw [List.length_cons, List.length_append] at hr
        omega

end

/-! ## What a basic string is the value of -/

namespace BasicMode

variable {m m' : BasicMode} {acc v x y rest : List Char} {c : Char}

/-- The value so far, with the quotes that may or may not belong to it. -/
def text : BasicMode → List Char
  | one | two | opening => []
  | single acc | multi acc | lineEnd acc | skip acc | cr _ acc | escape _ acc _ => acc
  | quotes acc n => acc ++ List.replicate n '\x22'

/-- The value so far. -/
def kept : BasicMode → List Char
  | one | two | opening => []
  | single acc | multi acc | lineEnd acc | skip acc | cr _ acc => acc
  | escape _ acc _ | quotes acc _ => acc

/-- So many characters at least have been read that are not in the value. -/
def spent : BasicMode → Nat
  | one | single _ => 0
  | two | escape false _ _ => 1
  | opening | multi _ | lineEnd _ | skip _ | cr _ _ | quotes _ _ => 2
  | escape true _ _ => 3

theorem inSingle_more (h : inSingle acc c = some (.more m')) :
    m' = escape false acc .start ∨ isBasicChar c = true ∧ m' = single (acc ++ [c]) := by
  unfold inSingle at h
  split at h
  · cases h
  · split at h
    · cases h
      exact .inl rfl
    · split at h
      · cases h
        exact .inr ⟨by assumption, rfl⟩
      · cases h

theorem inMulti_more (h : inMulti acc c = some (.more m')) :
    m'.text.length + m'.spent ≤ acc.length + 3 ∧ acc <+: m'.kept := by
  unfold inMulti at h
  split_ifs at h <;> cases h <;> simp [text, spent, kept]

theorem inEscape_more {many : Bool} {e : Escape} (h : inEscape many acc e c = some (.more m')) :
    m'.text.length + m'.spent ≤ acc.length + (escape many acc e).spent ∧ acc <+: m'.kept := by
  unfold inEscape at h
  split at h
  · cases h
    cases many <;> simp [text, spent, kept]
  · cases h
    cases many <;> simp [text, spent, kept]
  · cases many
    · simp at h
    · split_ifs at h <;> cases h <;> simp [text, spent, kept]

/-- A character adds one to the value at most, and takes nothing away. -/
theorem step_more (h : m.step c = some (.more m')) :
    m'.text.length + m'.spent ≤ m.text.length + m.spent + 1 ∧ m.kept <+: m'.kept := by
  cases m with
  | one =>
      simp only [step] at h
      split at h
      · cases h
        simp [text, spent, kept]
      · rcases inSingle_more h with rfl | ⟨-, rfl⟩ <;> simp [text, spent, kept]
  | two =>
      simp only [step] at h
      split at h <;> cases h
      simp [text, spent, kept]
  | single acc =>
      rcases inSingle_more h with rfl | ⟨-, rfl⟩ <;> simp [text, spent, kept]
  | escape many acc e =>
      obtain ⟨hl, hk⟩ := inEscape_more h
      exact ⟨Nat.le_succ_of_le hl, hk⟩
  | opening =>
      simp only [step] at h
      split_ifs at h
      · cases h
        simp [text, spent, kept]
      · cases h
        simp [text, spent, kept]
      · exact ⟨(inMulti_more h).1, List.nil_prefix⟩
  | multi acc => exact inMulti_more h
  | quotes acc n =>
      simp only [step] at h
      split_ifs at h
      · cases h
        simp [text, spent, kept]
        omega
      · cases h
      · obtain ⟨hl, hk⟩ := inMulti_more h
        exact ⟨hl, (List.prefix_append ..).trans hk⟩
  | lineEnd acc =>
      simp only [step] at h
      split_ifs at h <;> cases h <;> simp [text, spent, kept]
  | skip acc =>
      simp only [step] at h
      split_ifs at h
      · cases h
        simp [text, spent, kept]
      · cases h
        simp [text, spent, kept]
      · exact inMulti_more h
  | cr skipping acc =>
      simp only [step] at h
      split at h <;> cases h
      cases skipping <;> simp [text, spent, kept]

theorem inMulti_goesOn {r : Scanned BasicMode (List Char)} (h : inMulti acc c = some r) :
    ∃ m', r = .more m' := by
  unfold inMulti at h
  split_ifs at h <;> cases h <;> exact ⟨_, rfl⟩

theorem inEscape_goesOn {many : Bool} {e : Escape} {r : Scanned BasicMode (List Char)}
    (h : inEscape many acc e c = some r) : ∃ m', r = .more m' := by
  unfold inEscape at h
  split at h
  · cases h
    exact ⟨_, rfl⟩
  · cases h
    exact ⟨_, rfl⟩
  · split_ifs at h <;> cases h <;> exact ⟨_, rfl⟩

theorem inSingle_ends {r : Scanned BasicMode (List Char)} (h : inSingle acc c = some r) :
    (∃ m', r = .more m') ∨ c = '\x22' ∧ r = .done acc := by
  unfold inSingle at h
  split_ifs at h with hq <;> cases h
  · exact .inr ⟨hq, rfl⟩
  · exact .inl ⟨_, rfl⟩
  · exact .inl ⟨_, rfl⟩

/-- **Where a string ends**: on one line with a quote, else before the character behind two
quotes, or behind three or more. -/
theorem step_ends {r : Scanned BasicMode (List Char)} (h : m.step c = some r) :
    (∃ m', r = .more m') ∨ (∃ acc, m = single acc ∧ r = .done acc) ∨
      m = two ∧ r = .before [] ∨
      ∃ acc n, m = quotes acc n ∧ 3 ≤ n ∧ r = .before (acc ++ List.replicate (n - 3) '\x22') := by
  cases m with
  | one =>
      simp only [step] at h
      split at h
      · cases h
        exact .inl ⟨_, rfl⟩
      · rename_i hq
        exact .inl ((inSingle_ends h).resolve_right fun hd => hq hd.1)
  | two =>
      simp only [step] at h
      split at h <;> cases h
      · exact .inl ⟨_, rfl⟩
      · exact .inr (.inr (.inl ⟨rfl, rfl⟩))
  | single acc =>
      rcases inSingle_ends h with hmore | ⟨-, hd⟩
      · exact .inl hmore
      · exact .inr (.inl ⟨acc, rfl, hd⟩)
  | escape many acc e => exact .inl (inEscape_goesOn h)
  | multi acc => exact .inl (inMulti_goesOn h)
  | quotes acc n =>
      simp only [step] at h
      split_ifs at h with hq hn
      · cases h
        exact .inl ⟨_, rfl⟩
      · cases h
        exact .inr (.inr (.inr ⟨acc, n, rfl, hn, rfl⟩))
      · exact .inl (inMulti_goesOn h)
  | opening | lineEnd acc | skip acc | cr skipping acc =>
      simp only [step] at h
      split_ifs at h <;> first | exact .inl (inMulti_goesOn h) | (cases h; exact .inl ⟨_, rfl⟩)

theorem step_done (h : m.step c = some (.done v)) : m = single v := by
  rcases step_ends h with ⟨m', he⟩ | ⟨acc, rfl, he⟩ | ⟨-, he⟩ | ⟨acc, n, -, -, he⟩ <;> cases he
  rfl

theorem step_before (h : m.step c = some (.before v)) :
    m.kept <+: v ∧ (m = two ∧ v = [] ∨ v.length + 3 ≤ m.text.length) := by
  rcases step_ends h with ⟨m', he⟩ | ⟨acc, -, he⟩ | ⟨rfl, he⟩ | ⟨acc, n, rfl, hn, he⟩ <;> cases he
  · exact ⟨List.nil_prefix, .inl ⟨rfl, rfl⟩⟩
  · refine ⟨List.prefix_append .., .inr ?_⟩
    simp only [text, List.length_append, List.length_replicate]
    omega

theorem feed_spent (h : feed step m x = some m') :
    m'.text.length + m'.spent ≤ m.text.length + m.spent + x.length := by
  induction x generalizing m with
  | nil =>
      cases h
      simp
  | cons c x ih =>
      unfold feed at h
      split at h
      · rename_i hs
        have hle := ih h
        have hstep := (step_more hs).1
        simp only [List.length_cons]
        omega
      · cases h

/-- No value is longer than what was read of it, and none drops what was kept. -/
theorem scan_bound {cs : List Char} (h : scan step m cs = some (v, rest)) :
    v.length + rest.length + 1 ≤ m.text.length + m.spent + cs.length ∧ m.kept <+: v := by
  induction cs generalizing m with
  | nil => cases h
  | cons c cs ih =>
      unfold scan at h
      split at h
      · cases h
      · rename_i m₁ hs
        obtain ⟨hle, hk⟩ := ih h
        obtain ⟨hstep, hk₁⟩ := step_more hs
        exact ⟨by simp only [List.length_cons]; omega, hk₁.trans hk⟩
      · rename_i hs
        obtain ⟨rfl, rfl⟩ := Prod.mk.inj (Option.some.inj h)
        rw [step_done hs]
        exact ⟨by simp only [text, spent, List.length_cons]; omega, List.prefix_refl _⟩
      · rename_i hs
        obtain ⟨rfl, rfl⟩ := Prod.mk.inj (Option.some.inj h)
        obtain ⟨hk, ⟨rfl, rfl⟩ | hlen⟩ := step_before hs
        · refine ⟨?_, List.nil_prefix⟩
          simp only [text, spent, List.length_nil, List.length_cons]
          omega
        · exact ⟨by simp only [List.length_cons]; omega, hk⟩

/-- A part of a string on one line whose value is as long as itself has no escapes. -/
theorem feed_single {acc' : List Char} (h : feed step (single acc) x = some (single acc'))
    (hl : acc'.length = acc.length + x.length) :
    acc' = acc ++ x ∧ ∀ c ∈ x, isBasicChar c = true := by
  induction x generalizing acc with
  | nil =>
      cases h
      simp
  | cons c x ih =>
      unfold feed at h
      split at h
      · rename_i hs
        rcases inSingle_more hs with rfl | ⟨hc, rfl⟩
        · -- the backslash stands for nothing
          cases x with
          | nil => cases h
          | cons c' x =>
              unfold feed at h
              split at h
              · rename_i hs'
                have hesc := (inEscape_more hs').1
                have hle := feed_spent h
                simp only [text, spent, List.length_cons] at hesc hle hl
                omega
              · cases h
        · have hl' : acc'.length = (acc ++ [c]).length + x.length := by
            simp only [hl, List.length_append, List.length_cons, List.length_nil]
            omega
          obtain ⟨rfl, hx⟩ := ih h hl'
          exact ⟨by simp, List.forall_mem_cons.mpr ⟨hc, hx⟩⟩
      · cases h

/-- Inside a string, where a quote or a character may follow. -/
def Inner : BasicMode → Prop
  | single _ | multi _ | quotes _ _ => True
  | _ => False

/-- Behind the two quotes that may begin a string on many lines, a quote that does not end
the string belongs to its value, and something else was read that does not. -/
theorem step_quote (h : m.step '\x22' = some (.more m')) :
    m = one ∧ m' = two ∨ m = two ∧ m' = opening ∨
      1 ≤ m.spent ∧ m'.text = m.text ++ ['\x22'] ∧ m'.Inner := by
  cases m with
  | one => exact .inl ⟨rfl, by simpa [step, eq_comm] using h⟩
  | two => exact .inr (.inl ⟨rfl, by simpa [step, eq_comm] using h⟩)
  | single acc => simp [step, inSingle] at h
  | escape many acc e =>
      refine .inr (.inr ?_)
      cases e with
      | start => cases many <;> (cases h; simp [text, spent, Inner])
      | hex left value => simp [step, inEscape, Escape.step, hexDigit?] at h
  | opening | multi acc | skip acc =>
      refine .inr (.inr ?_)
      simp [step, inMulti, isWs] at h
      subst h
      simp [text, spent, Inner]
  | quotes acc n =>
      refine .inr (.inr ?_)
      simp only [step] at h
      split_ifs at h
      · cases h
        simp [text, spent, Inner, List.replicate_succ']
      · cases h
      · simp [inMulti] at h
        subst h
        simp [text, spent, Inner]
  | lineEnd acc => simp [step, isWs] at h
  | cr skipping acc => simp [step] at h

/-- A string on many lines goes on as one. -/
theorem step_many (hm : 2 ≤ m.spent) (h : m.step c = some (.more m')) : 2 ≤ m'.spent := by
  have hmulti : ∀ acc, inMulti acc c = some (.more m') → 2 ≤ m'.spent := by
    intro acc he
    unfold inMulti at he
    split_ifs at he <;> cases he <;> simp [spent]
  cases m with
  | one | two | single acc => simp [spent] at hm
  | multi acc => exact hmulti acc h
  | escape many acc e =>
      cases many
      · simp [spent] at hm
      · simp only [step, inEscape] at h
        split at h
        · cases h
          simp [spent]
        · cases h
          simp [spent]
        · split_ifs at h <;> cases h <;> simp [spent]
  | cr skipping acc =>
      simp only [step] at h
      split at h <;> cases h
      cases skipping <;> simp [spent]
  | opening | quotes acc n | lineEnd acc | skip acc =>
      simp only [step] at h
      split_ifs at h <;> first | exact hmulti _ h | (cases h; exact le_rfl) | cases h

theorem feed_many (hm : 2 ≤ m.spent) (h : feed step m x = some m') : 2 ≤ m'.spent := by
  induction x generalizing m with
  | nil => exact Option.some.inj h ▸ hm
  | cons c x ih =>
      unfold feed at h
      split at h
      · exact ih (step_many hm ‹_›) h
      · cases h

/-- In a string on one line. -/
def OnLine : BasicMode → Prop
  | single _ | escape false _ _ => True
  | _ => False

theorem step_onLine (hm : m.OnLine) (h : m.step c = some (.more m')) : m'.OnLine := by
  cases m with
  | single acc => rcases inSingle_more h with rfl | ⟨-, rfl⟩ <;> trivial
  | escape many acc e =>
      cases many
      · simp only [step, inEscape] at h
        split at h
        · cases h
          trivial
        · cases h
          trivial
        · simp at h
      · exact absurd hm id
  | _ => exact absurd hm id

theorem feed_onLine (hm : m.OnLine) (h : feed step m x = some m') : m'.OnLine := by
  induction x generalizing m with
  | nil => exact Option.some.inj h ▸ hm
  | cons c x ih =>
      unfold feed at h
      split at h
      · exact ih (step_onLine hm ‹_›) h
      · cases h

/-- From the first quote on: it is the second one that comes next, or the string is on one
line, or on many. -/
theorem feed_one (h : feed step one x = some m) :
    x = [] ∧ m = one ∨ x = ['\x22'] ∧ m = two ∨ 2 ≤ m.spent ∨
      feed step (single []) x = some m := by
  cases x with
  | nil => exact .inl ⟨rfl, (Option.some.inj h).symm⟩
  | cons c x =>
      by_cases hc : c = '\x22'
      · subst hc
        cases x with
        | nil => exact .inr (.inl ⟨rfl, (Option.some.inj h).symm⟩)
        | cons c' x =>
            by_cases hc' : c' = '\x22'
            · subst hc'
              exact .inr (.inr (.inl (feed_many (m := opening) (by simp [spent]) h)))
            · simp [feed, step, hc'] at h
      · exact .inr (.inr (.inr (by simpa [feed, step, hc] using h)))

/-- What may stand behind the quote that ends a value: a character of a basic string, or
the end of the line and the first character of the next. -/
inductive Follows : List Char → Prop where
  | char {d : Char} (hd : isBasicChar d = true) : Follows [d]
  | newline {d : Char} (hd : isBasicChar d = true ∨ d = '\n') : Follows ['\n', d]

theorem ne_of_isBasicChar (h : isBasicChar c = true) :
    c ≠ '\x22' ∧ c ≠ '\x5c' ∧ c ≠ '\n' ∧ c ≠ '\r' := by
  refine ⟨?_, ?_, ?_, ?_⟩ <;> (rintro rfl; simp [isBasicChar] at h)

theorem inSingle_basic (h : isBasicChar c = true) :
    inSingle acc c = some (.more (single (acc ++ [c]))) := by
  obtain ⟨hq, hb, -, -⟩ := ne_of_isBasicChar h
  simp [inSingle, hq, hb, h]

theorem inMulti_basic (h : isBasicChar c = true ∨ c = '\n') :
    inMulti acc c = some (.more (multi (acc ++ [c]))) := by
  rcases h with h | rfl
  · obtain ⟨hq, hb, hn, hr⟩ := ne_of_isBasicChar h
    simp [inMulti, hq, hb, hn, hr, h]
  · simp [inMulti]

theorem step_inner (hm : m.Inner) (hc : isBasicChar c = true ∨ c = '\n') :
    m.step c = none ∨ (∃ v, m.step c = some (.before v)) ∨
      m.step c = some (.more (multi (m.text ++ [c]))) ∨
      isBasicChar c = true ∧ m.step c = some (.more (single (m.text ++ [c]))) := by
  cases m with
  | single acc =>
      rcases hc with hc | rfl
      · exact .inr (.inr (.inr ⟨hc, inSingle_basic hc⟩))
      · exact .inl (by simp [step, inSingle, isBasicChar])
  | multi acc => exact .inr (.inr (.inl (inMulti_basic hc)))
  | quotes acc n =>
      have hq : c ≠ '\x22' := by
        rcases hc with hc | rfl
        · exact (ne_of_isBasicChar hc).1
        · decide
      by_cases hn : 3 ≤ n
      · exact .inr (.inl ⟨acc ++ List.replicate (n - 3) '\x22', by simp [step, hq, hn]⟩)
      · exact .inr (.inr (.inl (by simp [step, hq, hn, inMulti_basic hc, text])))
  | _ => exact absurd hm id

/-- If the string goes on behind a quote, it has the quote and what follows it in its
value; else the quote was one of three. -/
theorem scan_follows {p z : List Char} (hp : Follows p) (hm : m.Inner)
    (h : scan step m (p ++ z) = some (v, rest)) :
    m.text ++ p <+: v ∨ v.length + 3 ≤ m.text.length := by
  have hbefore : ∀ {c v'}, m.step c = some (.before v') → v'.length + 3 ≤ m.text.length := by
    intro c v' hs
    obtain ⟨-, ⟨rfl, -⟩ | hlen⟩ := step_before hs
    · exact absurd hm id
    · exact hlen
  cases hp with
  | char hd =>
      rcases step_inner hm (.inl hd) with hs | ⟨v', hs⟩ | hs | ⟨-, hs⟩ <;>
        simp only [List.cons_append, List.nil_append, scan, hs] at h
      · cases h
      · cases h
        exact .inr (hbefore hs)
      · exact .inl (scan_bound h).2
      · exact .inl (scan_bound h).2
  | @newline d hd =>
      rcases step_inner hm (c := '\n') (.inr rfl) with hs | ⟨v', hs⟩ | hs | ⟨hc, -⟩
      · simp [scan, hs] at h
      · simp only [List.cons_append, scan, hs] at h
        cases h
        exact .inr (hbefore hs)
      · have hs' : step (multi (m.text ++ ['\n'])) d = _ := inMulti_basic hd
        simp only [List.cons_append, List.nil_append, scan, hs, hs'] at h
        exact .inl (by simpa [kept] using (scan_bound h).2)
      · cases hc

theorem Follows.ne_nil {p : List Char} (hp : Follows p) : p ≠ [] := by
  cases hp <;> simp

theorem Follows.not_quote {p z : List Char} (hp : Follows p) : ¬ ['\x22'] <+: p ++ z := by
  cases hp with
  | char hd => simpa [eq_comm] using (ne_of_isBasicChar hd).1
  | newline hd => simp

/-- Two quotes are the empty string, if no third one follows. -/
theorem scan_two {p z : List Char} (hp : Follows p)
    (h : scan step two (p ++ z) = some (v, rest)) : v = [] := by
  cases hp with
  | char hd =>
      simp only [List.cons_append, scan, step, (ne_of_isBasicChar hd).1, if_false] at h
      exact (Prod.mk.inj (Option.some.inj h)).1.symm
  | newline hd => exact (Prod.mk.inj (Option.some.inj h)).1.symm

/-- Behind two quotes, what follows the second begins the string. -/
theorem scan_opening {p z : List Char} (hp : Follows p)
    (h : scan step opening (p ++ z) = some (v, rest)) : ¬ ['\x22'] <+: v := by
  cases hp with
  | @char d hd =>
      obtain ⟨hq, -, hn, hr⟩ := ne_of_isBasicChar hd
      simp only [List.cons_append, List.nil_append, scan, step, hn, hr, if_false,
        inMulti_basic (.inl hd)] at h
      obtain ⟨t, rfl⟩ := (scan_bound h).2
      simpa [kept, eq_comm] using hq
  | @newline d hd =>
      simp only [List.cons_append, List.nil_append, scan, step, if_true, inMulti_basic hd] at h
      obtain ⟨t, rfl⟩ := (scan_bound h).2
      rcases hd with hd | rfl
      · simpa [kept, eq_comm] using (ne_of_isBasicChar hd).1
      · simp [kept]

/-- **A text between quotes is its own value only if it has no characters that are not
plain.**  Else the quote behind it, and what follows that, would be in the value once more,
and earlier than in the text, and so on for ever. -/
theorem plain_of_scan {s p y : List Char} (hp : Follows p)
    (h : scan step one (s ++ '\x22' :: (p ++ y)) = some (s, rest)) :
    ∀ c ∈ s, isBasicChar c = true := by
  -- `x` is what stands before a quote that is followed by `p`
  suffices ∀ (n : Nat) (x z : List Char), x.length = n → x.length ≤ s.length →
      s ++ '\x22' :: (p ++ y) = x ++ '\x22' :: (p ++ z) → ∀ c ∈ s, isBasicChar c = true from
    this _ s y rfl le_rfl rfl
  intro n
  induction n using Nat.strong_induction_on with
  | h n ih =>
      intro x z hn hx he
      have hbound := (scan_bound h).1
      have hrest : rest.length < ('\x22' :: (p ++ z)).length := by
        have hlen := congrArg List.length he
        simp only [text, spent, List.length_append, List.length_cons, List.length_nil]
          at hbound hlen ⊢
        omega
      rw [he] at h
      obtain ⟨m, hf, hm⟩ := scan_append h hrest
      have hspent := feed_spent hf
      change _ ≤ 0 + 0 + x.length at hspent
      rw [scan] at hm
      split at hm
      · cases hm
      · rename_i m' hs
        rcases step_quote hs with ⟨rfl, rfl⟩ | ⟨rfl, rfl⟩ | ⟨hslack, htext, hinner⟩
        · simp [scan_two hp hm]
        · -- the text begins with the second of the three quotes, its value does not
          rcases feed_one hf with ⟨-, hm'⟩ | ⟨rfl, -⟩ | hm' | hm'
          · cases hm'
          · cases s with
            | nil => simp
            | cons c s =>
                obtain ⟨rfl, -⟩ := List.cons.inj he
                exact absurd ⟨s, rfl⟩ (scan_opening hp hm)
          · simp [spent] at hm'
          · exact absurd (feed_onLine (m := single []) trivial hm') id
        · rcases scan_follows hp hinner hm with ⟨t, ht⟩ | hlen
          · rw [htext] at ht
            exact ih m.text.length (by omega) m.text (t ++ '\x22' :: (p ++ y)) rfl
              (by omega) (by simp [← ht])
          · rw [htext, List.length_append, List.length_singleton] at hlen
            omega
      · rename_i hs
        obtain ⟨hv, -⟩ := Prod.mk.inj (Option.some.inj hm)
        rw [step_done hs, hv] at hf hspent
        change s.length + 0 ≤ _ at hspent
        obtain ⟨rfl, -⟩ := List.append_inj he (by omega)
        rcases feed_one hf with ⟨-, hm'⟩ | ⟨-, hm'⟩ | hm' | hm'
        · cases hm'
        · cases hm'
        · simp [spent] at hm'
        · exact (feed_single hm' (by simp)).2
      · rename_i hs
        obtain ⟨hv, -⟩ := Prod.mk.inj (Option.some.inj hm)
        obtain ⟨-, ⟨rfl, hv'⟩ | hlen⟩ := step_before hs
        · simp [← hv, hv']
        · rw [hv] at hlen
          omega

/-! ## Plain text -/

theorem scan_single {s : List Char} (hs : ∀ c ∈ s, isBasicChar c = true) :
    scan step (single acc) (s ++ '\x22' :: y) = some (acc ++ s, y) := by
  induction s generalizing acc with
  | nil => simp [scan, step, inSingle]
  | cons c s ih =>
      have hc : step (single acc) c = _ := inSingle_basic (hs c (by simp))
      simp only [List.cons_append, scan, hc]
      rw [ih fun c' hc' => hs c' (List.mem_cons_of_mem _ hc')]
      simp

/-- **A plain text between quotes is its own value.** -/
theorem scan_plain {s : List Char} (hs : ∀ c ∈ s, isBasicChar c = true)
    (hy : ¬ ['\x22'] <+: y) (hne : y ≠ []) :
    scan step one (s ++ '\x22' :: y) = some (s, y) := by
  cases s with
  | nil =>
      cases y with
      | nil => exact absurd rfl hne
      | cons c y =>
          have hc : c ≠ '\x22' := fun h => hy (by simp [h])
          simp [scan, step, hc]
  | cons c s =>
      have hc := hs c (by simp)
      simp only [List.cons_append, scan, step, (ne_of_isBasicChar hc).1, if_false,
        inSingle_basic hc]
      exact scan_single fun c' hc' => hs c' (List.mem_cons_of_mem _ hc')

end BasicMode

end Reoftpd.Toml

import Reoftpd.TomlScalars

/-!
# Reading TOML

TOML 1.0 as a machine that takes a text one character at a time.  Where the machine is
(`Place`) depends on the characters read and not on what they said: the statements it
passes on are for the document to accept or to refuse.  So a text that ends a line can be
continued by any other (`statements_append`).

A place within a value knows the key of the pair and, innermost first, the arrays and
inline tables the value is part of.
-/
namespace Reoftpd.Toml

/-! ## Keys -/

/-- A character of a bare key. -/
def isBareKeyChar (c : Char) : Bool := c.isAlphanum || c = '-' || c = '_'

/-- A character of a comment. -/
def isCommentChar (c : Char) : Bool := c = '\t' || (0x20 ≤ c.toNat && c ≠ '\x7f')

/-- Where a key is: before a part of it, in a part, or behind one. -/
inductive KeyMode where
  | start
  | bare (acc : List Char)
  | quoted (acc : List Char)
  | escape (acc : List Char) (e : Escape)
  | literal (acc : List Char)
  | closed

/-- A key in reading: the parts that are complete. -/
structure KeyRead where
  parts : List String
  mode : KeyMode

namespace KeyRead

/-- Before a key. -/
def start : KeyRead := ⟨[], .start⟩

/-- The path that a key is, if it may end here. -/
def path? : KeyRead → Option (List String)
  | ⟨parts, .bare acc⟩ => some (parts ++ [String.ofList acc])
  | ⟨parts, .closed⟩ => some parts
  | _ => none

/-- A character of a key. -/
def step (k : KeyRead) (c : Char) : Option KeyRead :=
  match k.mode with
  | .start =>
      if isWs c then some k
      else if c = '\x22' then some ⟨k.parts, .quoted []⟩
      else if c = '\x27' then some ⟨k.parts, .literal []⟩
      else if isBareKeyChar c then some ⟨k.parts, .bare [c]⟩
      else none
  | .bare acc =>
      if isBareKeyChar c then some ⟨k.parts, .bare (acc ++ [c])⟩
      else if isWs c then some ⟨k.parts ++ [String.ofList acc], .closed⟩
      else if c = '.' then some ⟨k.parts ++ [String.ofList acc], .start⟩
      else none
  | .quoted acc =>
      if c = '\x22' then some ⟨k.parts ++ [String.ofList acc], .closed⟩
      else if c = '\x5c' then some ⟨k.parts, .escape acc .start⟩
      else if isBasicChar c then some ⟨k.parts, .quoted (acc ++ [c])⟩
      else none
  | .escape acc e =>
      match e.step c with
      | none => none
      | some (.inl e') => some ⟨k.parts, .escape acc e'⟩
      | some (.inr x) => some ⟨k.parts, .quoted (acc ++ [x])⟩
  | .literal acc =>
      if c = '\x27' then some ⟨k.parts ++ [String.ofList acc], .closed⟩
      else if isLiteralChar c then some ⟨k.parts, .literal (acc ++ [c])⟩
      else none
  | .closed =>
      if isWs c then some k
      else if c = '.' then some ⟨k.parts, .start⟩
      else none

end KeyRead

/-! ## Places -/

/-- An array or an inline table in reading; a table with the key whose value is read. -/
inductive Frame where
  | array (items : List Node)
  | inline (entries : Table) (key : List String)

/-- Where in a value a place is.  `items` and `firstKey` are where an array or a table may
end without another element; `after` of a comment or a line's end says whether an item
stands before it. -/
inductive ValueMode where
  | before
  | basic (m : BasicMode)
  | literal (m : LiteralMode)
  | scalar (acc : List Char)
  | dateSpace (acc : List Char)
  | items
  | afterItem
  | comment (after : Bool)
  | cr (after : Bool)
  | firstKey
  | key (k : KeyRead)
  | afterPair

/-- Where in a text a place is: before a statement, in its key, its header or its value,
behind it, in a comment, or at a carriage return. -/
inductive Place where
  | line
  | key (k : KeyRead)
  | headerOpen
  | header (array : Bool) (k : KeyRead)
  | headerClose (path : List String)
  | value (path : List String) (frames : List Frame) (m : ValueMode)
  | ended
  | comment
  | cr

/-- The place behind a character, and the statements it completes. -/
abbrev Move := Option (Place × List Statement)

namespace Place

/-- A character that completes nothing. -/
def move (p : Place) : Move := some (p, [])

/-- Behind a value that is complete. -/
def finish (path : List String) : List Frame → Node → Move
  | [], n => some (ended, [.pair path n])
  | .array items :: frames, n => move (value path (.array (items ++ [n]) :: frames) .afterItem)
  | .inline entries name :: frames, n =>
      match Table.putDotted name n entries with
      | none => none
      | some entries' => move (value path (.inline entries' [] :: frames) .afterPair)

/-- A character behind a statement, an item or a pair. -/
def after : Place → Char → Move
  | ended, c =>
      if isWs c then move ended
      else if c = '\n' then move line
      else if c = '\r' then move cr
      else if c = '#' then move comment
      else none
  | value path (.array items :: frames) .afterItem, c =>
      if isWs c ∨ c = '\n' then move (value path (.array items :: frames) .afterItem)
      else if c = '\r' then move (value path (.array items :: frames) (.cr true))
      else if c = '#' then move (value path (.array items :: frames) (.comment true))
      else if c = ',' then move (value path (.array items :: frames) .items)
      else if c = ']' then finish path frames (.array items)
      else none
  | value path (.inline entries name :: frames) .afterPair, c =>
      if isWs c then move (value path (.inline entries name :: frames) .afterPair)
      else if c = ',' then move (value path (.inline entries name :: frames) (.key .start))
      else if c = '\x7d' then finish path frames (.table .inline entries)
      else none
  | _, _ => none

/-- A character behind a value that it does not belong to. -/
def finishBefore (path : List String) (frames : List Frame) (n : Node) (c : Char) : Move :=
  match finish path frames n with
  | none => none
  | some (p, ss) => (p.after c).map fun (p', ss') => (p', ss ++ ss')

/-- What a character of a string does. -/
def scanned {M : Type} (path : List String) (frames : List Frame) (mode : M → ValueMode)
    (c : Char) : Option (Scanned M (List Char)) → Move
  | none => none
  | some (.more m) => move (value path frames (mode m))
  | some (.done s) => finish path frames (.string (String.ofList s))
  | some (.before s) => finishBefore path frames (.string (String.ofList s)) c

/-- The first character of a value. -/
def startValue (path : List String) (frames : List Frame) (c : Char) : Move :=
  if c = '\x22' then move (value path frames (.basic .one))
  else if c = '\x27' then move (value path frames (.literal .one))
  else if c = '[' then move (value path (.array [] :: frames) .items)
  else if c = '\x7b' then move (value path (.inline [] [] :: frames) .firstKey)
  else if isScalarChar c then move (value path frames (.scalar [c]))
  else none

/-- The end of the innermost array or table. -/
def close (path : List String) : List Frame → Move
  | [] => none
  | .array items :: frames => finish path frames (.array items)
  | .inline entries _ :: frames => finish path frames (.table .inline entries)

/-- A character of a value. -/
def inValue (path : List String) (frames : List Frame) (m : ValueMode) (c : Char) : Move :=
  match m with
  | .before => if isWs c then move (value path frames .before) else startValue path frames c
  | .basic m => scanned path frames .basic c (m.step c)
  | .literal m => scanned path frames .literal c (m.step c)
  | .scalar acc =>
      if isScalarChar c then move (value path frames (.scalar (acc ++ [c])))
      else if c = ' ' ∧ afterDate acc = some [] then move (value path frames (.dateSpace acc))
      else
        match scalar? acc with
        | none => none
        | some n => finishBefore path frames n c
  | .dateSpace acc =>
      if c.isDigit then move (value path frames (.scalar (acc ++ [' ', c])))
      else
        match scalar? acc with
        | none => none
        | some n => finishBefore path frames n c
  | .items =>
      if isWs c ∨ c = '\n' then move (value path frames .items)
      else if c = '\r' then move (value path frames (.cr false))
      else if c = '#' then move (value path frames (.comment false))
      else if c = ']' then close path frames
      else startValue path frames c
  | .comment behind =>
      if c = '\n' then move (value path frames (if behind then .afterItem else .items))
      else if c = '\r' then move (value path frames (.cr behind))
      else if isCommentChar c then move (value path frames (.comment behind))
      else none
  | .cr behind =>
      if c = '\n' then move (value path frames (if behind then .afterItem else .items)) else none
  | .firstKey =>
      if isWs c then move (value path frames .firstKey)
      else if c = '\x7d' then close path frames
      else (KeyRead.start.step c).map fun k => (value path frames (.key k), [])
  | .key k =>
      match frames, if c = '=' then k.path? else none with
      | .inline entries _ :: frames, some name =>
          move (value path (.inline entries name :: frames) .before)
      | frames, _ => (k.step c).map fun k => (value path frames (.key k), [])
  | .afterItem => after (value path frames .afterItem) c
  | .afterPair => after (value path frames .afterPair) c

/-- A character of a text. -/
def step (p : Place) (c : Char) : Move :=
  match p with
  | line =>
      if isWs c ∨ c = '\n' then move line
      else if c = '\r' then move cr
      else if c = '#' then move comment
      else if c = '[' then move headerOpen
      else (KeyRead.start.step c).map fun k => (key k, [])
  | key k =>
      match if c = '=' then k.path? else none with
      | some path => move (value path [] .before)
      | none => (k.step c).map fun k => (key k, [])
  | headerOpen =>
      if c = '[' then move (header true .start)
      else (KeyRead.start.step c).map fun k => (header false k, [])
  | header array k =>
      match if c = ']' then k.path? else none with
      | some path => if array then move (headerClose path) else some (ended, [.table path])
      | none => (k.step c).map fun k => (header array k, [])
  | headerClose path => if c = ']' then some (ended, [.arrayTable path]) else none
  | value path frames m => inValue path frames m c
  | ended => after ended c
  | comment =>
      if c = '\n' then move line
      else if c = '\r' then move cr
      else if isCommentChar c then move comment
      else none
  | cr => if c = '\n' then move line else none

end Place

/-! ## Texts -/

/-- Where a text leads from a place, and the statements it completes. -/
def statements (p : Place) : List Char → Move
  | [] => p.move
  | c :: cs =>
      match p.step c with
      | none => none
      | some (p', ss) => (statements p' cs).map fun (p'', ss') => (p'', ss ++ ss')

/-- The statements of a text.  What ends a text ends its last line; a carriage return does
not. -/
def parse (text : List Char) : Option (List Statement) :=
  if text.getLast? = some '\r' then none
  else
    match statements .line (text ++ ['\n']) with
    | some (.line, ss) => some ss
    | _ => none

/-- The document that a text is. -/
def read (text : List Char) : Option Doc :=
  (parse text).bind fun ss => Doc.execAll ss .empty

end Reoftpd.Toml

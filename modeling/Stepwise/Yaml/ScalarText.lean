import Stepwise.Yaml.Cursor
import Stepwise.Yaml.Token

/-!
# Texts of scalars

Plain, quoted and block texts. Line breaks inside plain and quoted texts are folded. A block text
keeps its lines or folds them, and says what becomes of the line breaks at its end.
-/

namespace Stepwise.Yaml

/-- A text that has been read, up to the cursor. -/
structure Reading where
  text : List Char
  cursor : Cursor

/-- The character that a backslash and another one stand for. -/
def escaped? (c : Char) : Option Char :=
  match c with
  | '0' => some '\x00'
  | 'a' => some '\x07'
  | 'b' => some '\x08'
  | 't' | '\t' => some '\t'
  | 'n' => some '\n'
  | 'v' => some '\x0b'
  | 'f' => some '\x0c'
  | 'r' => some '\r'
  | 'e' => some '\x1b'
  | ' ' => some ' '
  | '"' => some '"'
  | '/' => some '/'
  | '\\' => some '\\'
  | 'N' => some '\u0085'
  | '_' => some '\u00a0'
  | 'L' => some '\u2028'
  | 'P' => some '\u2029'
  | _ => none

/-- The number of hexadecimal digits after a backslash and a letter. -/
def codeLength? (c : Char) : Option Nat :=
  match c with
  | 'x' => some 2
  | 'u' => some 4
  | 'U' => some 8
  | _ => none

def hexValue? (c : Char) : Option Nat :=
  if c.isDigit then some (c.toNat - '0'.toNat)
  else if 'a' ≤ c ∧ c ≤ 'f' then some (c.toNat - 'a'.toNat + 10)
  else if 'A' ≤ c ∧ c ≤ 'F' then some (c.toNat - 'A'.toNat + 10)
  else none

def readHex (cs : List Char) : Option Nat :=
  cs.foldlM (fun n c => (hexValue? c).map (16 * n + ·)) 0

/-- A character by its code; surrogates and numbers too large have none. -/
def charOfCode? (n : Nat) : Option Char := if n.isValidChar then some (Char.ofNat n) else none

/-- Reads an escape, the cursor being at its backslash. -/
def readEscape (c : Cursor) : Option (Char × Cursor) := do
  let kind ← c.peekAt 1
  match codeLength? kind with
  | none => return (← escaped? kind, c.skip 2)
  | some length =>
    let digits := (c.rest.drop 2).take length
    if digits.length < length then none
    return (← charOfCode? (← readHex digits), c.skip (length + 2))

/-- Reads on to the closing quote; `text` is what has been read, the latest first. -/
def readQuoted (single : Bool) : Nat → List Char → Cursor → Option Reading
  | 0, _, _ => none
  | fuel + 1, text, c =>
    match c.rest with
    | [] => none
    | ch :: rest =>
      if single && ch = '\'' && rest.head? = some '\'' then
        readQuoted single fuel ('\'' :: text) (c.skip 2)
      else if ch = (if single then '\'' else '"') then some ⟨text.reverse, c.skip 1⟩
      else if !single && ch = '\\' then
        if rest.head?.any isBreak then do
          let (gap, c) ← (c.skip 1).takeBreak.2.gap? 0 fuel
          if c.atDocumentMark then none
          else readQuoted single fuel (gap.breaks.reverse ++ text) c
        else do
          let (found, c) ← readEscape c
          readQuoted single fuel (found :: text) c
      else if isBlank ch || isBreak ch then do
        let (gap, c) ← c.gap? 0 fuel
        if c.atDocumentMark then none
        else readQuoted single fuel (gap.folded.reverse ++ text) c
      else readQuoted single fuel (ch :: text) (c.skip 1)

/-- Reads a quoted text, the cursor being at its opening quote. -/
def quoted? (single : Bool) (c : Cursor) : Option Reading :=
  readQuoted single (c.rest.length + 1) [] (c.skip 1)

def isFlowIndicator (c : Char) : Bool := c ∈ [',', '[', ']', '\x7b', '\x7d']

/-- Whether a plain text ends before the character at the cursor. Inside brackets a colon must not
stand right before one of them. -/
def plainEnds (inFlow : Bool) (c : Cursor) : Option Bool :=
  match c.peek with
  | none => some true
  | some ch =>
    let hugged := (c.peekAt 1).any fun next => isFlowIndicator next || next = '?'
    if inFlow && ch = ':' && hugged then none
    else some (ch = ':' && isGap (c.peekAt 1) || inFlow && isFlowIndicator ch)

/-- What has been read of a plain text, the latest first, and whether a line break follows it. -/
def plainEnd (text : List Char) (gap : Gap) (c : Cursor) : Reading × Bool :=
  (⟨text.reverse, c⟩, !gap.breaks.isEmpty)

/-- Reads on through a plain text. `pending` is the gap before the cursor, which belongs to the text
only if more of it follows; the answer also tells whether a gap with a line break came last. -/
def readPlain (inFlow : Bool) (margin : Nat) :
    Nat → List Char → Gap → Cursor → Option (Reading × Bool)
  | 0, text, pending, c => some (plainEnd text pending c)
  | fuel + 1, text, pending, c =>
    match c.peek with
    | none => some (plainEnd text pending c)
    | some ch =>
      if isBlank ch || isBreak ch then do
        let (gap, c) ← c.gap? margin fuel
        if !inFlow && c.column < margin || c.atDocumentMark || c.peek = some '#' then
          some (plainEnd text gap c)
        else readPlain inFlow margin fuel text gap c
      else do
        if ← plainEnds inFlow c then some (plainEnd text pending c)
        else
          let text := ch :: (pending.folded.reverse ++ text)
          readPlain inFlow margin fuel text ⟨[], []⟩ (c.skip 1)

def plain? (inFlow : Bool) (margin : Nat) (c : Cursor) : Option (Reading × Bool) :=
  readPlain inFlow margin (c.rest.length + 1) [] ⟨[], []⟩ c

inductive Chomping where
  | clip
  | strip
  | keep
  deriving DecidableEq, Repr

def chomping? : Option Char → Option Chomping
  | some '+' => some .keep
  | some '-' => some .strip
  | _ => none

/-- An explicit indentation is a digit from one on. -/
def indentDigit? : Option Char → Option Nat
  | some c => if c.isDigit then some (c.toNat - '0'.toNat) else none
  | none => none

/-- The header of a block text after its indicator: how it ends and its indentation, in any order.
-/
def readHeader (c : Cursor) : Option (Chomping × Option Nat × Cursor) := do
  let (chomping, indent, c) :=
    match chomping? c.peek, indentDigit? c.peek with
    | some chomping, _ =>
      match indentDigit? (c.peekAt 1) with
      | some n => (chomping, some n, c.skip 2)
      | none => (chomping, none, c.skip 1)
    | none, some n =>
      match chomping? (c.peekAt 1) with
      | some chomping => (chomping, some n, c.skip 2)
      | none => (.clip, some n, c.skip 1)
    | none, none => (.clip, none, c)
  if indent = some 0 then none
  return (chomping, indent, ← c.skipLineEnd)

/-- The empty lines before a line of a block text. -/
structure EmptyLines where
  breaks : List Char
  /-- The largest indentation seen. -/
  widest : Nat
  cursor : Cursor

/-- Reads empty lines. The indentation is not known yet if it is zero, and a tab must not stand
where a blank of the indentation is due. -/
def readEmptyLines (indent : Nat) : Nat → List Char → Nat → Cursor → Option EmptyLines
  | 0, breaks, widest, c => some ⟨breaks, widest, c⟩
  | fuel + 1, breaks, widest, c =>
    let blanks := (c.rest.takeWhile (· = ' ')).length
    let c := c.skip (if indent = 0 then blanks else min blanks (indent - c.column))
    let widest := max widest c.column
    if (indent = 0 || c.column < indent) && c.peek = some '\t' then none
    else if c.peek.any isBreak then
      let (text, c) := c.takeBreak
      readEmptyLines indent fuel (breaks ++ text) widest c
    else some ⟨breaks, widest, c⟩

def Cursor.emptyLines? (indent : Nat) (c : Cursor) : Option EmptyLines :=
  readEmptyLines indent (c.rest.length + 1) [] 0 c

/-- What has been read of a block text: its text, the latest character first, the line break that
ended the last line, the empty lines after it, and whether the last line started with a blank. -/
structure BlockText where
  text : List Char
  lineBreak : List Char
  emptyLines : List Char
  blankBefore : Bool

namespace BlockText

/-- The text with its line breaks, before a line that is added. Between two lines that do not start
with a blank, a folded text has a blank for one line break. -/
def joined (literal blankNow : Bool) (b : BlockText) : List Char :=
  if !literal && b.lineBreak = ['\n'] && !b.blankBefore && !blankNow then
    (if b.emptyLines.isEmpty then [' '] else b.emptyLines.reverse) ++ b.text
  else b.emptyLines.reverse ++ (b.lineBreak.reverse ++ b.text)

def chomped (chomping : Chomping) (b : BlockText) : List Char :=
  (match chomping with
    | .strip => b.text
    | .clip => b.lineBreak.reverse ++ b.text
    | .keep => b.emptyLines.reverse ++ (b.lineBreak.reverse ++ b.text)).reverse

end BlockText

/-- Reads the lines of a block text that stand at the indentation. -/
def readLines (literal : Bool) (indent : Nat) :
    Nat → BlockText → Cursor → Option (BlockText × Cursor)
  | 0, block, c => some (block, c)
  | fuel + 1, block, c =>
    if c.column = indent && c.peek.isSome then do
      let blankNow := c.peek.any isBlank
      let (line, c) := c.takeWhile (!isBreak ·)
      let (lineBreak, c) := c.takeBreak
      let empty ← c.emptyLines? indent
      let text := line.reverse ++ block.joined literal blankNow
      readLines literal indent fuel ⟨text, lineBreak, empty.breaks, blankNow⟩ empty.cursor
    else some (block, c)

/-- Reads a block text, the cursor being at its indicator and `outer` the indentation around it,
which is below zero at the top. -/
def block? (literal : Bool) (outer : Int) (c : Cursor) : Option Reading := do
  let (chomping, explicit, c) ← readHeader (c.skip 1)
  let given := (explicit.map fun n => n + outer.toNat).getD 0
  let empty ← c.emptyLines? given
  let indent := if given = 0 then max empty.widest (max (outer + 1) 1).toNat else given
  let start : BlockText := ⟨[], [], empty.breaks, false⟩
  let (block, c) ← readLines literal indent (c.rest.length + 1) start empty.cursor
  return ⟨block.chomped chomping, c⟩

end Stepwise.Yaml

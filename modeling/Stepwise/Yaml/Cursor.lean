/-!
# Reading position

A cursor is the text that is still to be read, with the line, the column and the number of bytes
before it. A line break is a line feed, a carriage return with or without a line feed
after it, a next line character, or a line or paragraph separator; the last two stand for themselves
in a text and all others for a line feed.
-/

namespace Stepwise.Yaml

def isBreak (c : Char) : Bool :=
  c = '\n' || c = '\r' || c = '\u0085' || c = '\u2028' || c = '\u2029'

def isBlank (c : Char) : Bool := c = ' ' || c = '\t'

/-- A blank, a line break or the end of the text. -/
def isGap : Option Char → Bool
  | none => true
  | some c => isBlank c || isBreak c

def isBreakOrEnd : Option Char → Bool
  | none => true
  | some c => isBreak c

/-- Characters with which a plain text does not start, or only before some others. -/
def indicatorChars : List Char :=
  ['-', '?', ':', ',', '[', ']', '\x7b', '\x7d', '#', '&', '*', '!', '|', '>', '\'', '"', '%',
    '@', '\x60']

/-- A letter, a digit, an underscore or a dash. -/
def isWordChar (c : Char) : Bool := c.isAlphanum || c = '_' || c = '-'

/-- The characters that a document may hold. -/
def isAllowed (c : Char) : Bool :=
  let n := c.toNat
  n = 0x09 || n = 0x0A || n = 0x0D || 0x20 ≤ n && n ≤ 0x7E || n = 0x85 || 0xA0 ≤ n && n ≤ 0xFFFD ||
    0x10000 ≤ n

/-- The number of bytes that a text takes. -/
def byteCount (cs : List Char) : Nat := cs.foldl (fun n c => n + c.utf8Size) 0

structure Cursor where
  rest : List Char
  line : Nat
  column : Nat
  offset : Nat

namespace Cursor

def ofText (text : List Char) : Cursor := ⟨text, 0, 0, 0⟩

def peek (c : Cursor) : Option Char := c.rest.head?

def peekAt (n : Nat) (c : Cursor) : Option Char := c.rest[n]?

/-- Passes over characters of one line. -/
def skip (n : Nat) (c : Cursor) : Cursor :=
  { c with
    rest := c.rest.drop n
    column := c.column + n
    offset := c.offset + byteCount (c.rest.take n) }

def takeWhile (p : Char → Bool) (c : Cursor) : List Char × Cursor :=
  let taken := c.rest.takeWhile p
  (taken, c.skip taken.length)

def skipWhile (p : Char → Bool) (c : Cursor) : Cursor := (c.takeWhile p).2

/-- Passes over a line break, giving what it stands for. -/
def takeBreak (c : Cursor) : List Char × Cursor :=
  let after (n : Nat) : Cursor := { c.skip n with line := c.line + 1, column := 0 }
  match c.rest with
  | '\r' :: '\n' :: _ => (['\n'], after 2)
  | '\u2028' :: _ => (['\u2028'], after 1)
  | '\u2029' :: _ => (['\u2029'], after 1)
  | ch :: _ => if isBreak ch then (['\n'], after 1) else ([], c)
  | [] => ([], c)

/-- Blanks, a comment and the line break after them; unreadable if anything else stands there. -/
def skipLineEnd (c : Cursor) : Option Cursor :=
  let c := c.skipWhile isBlank
  let c := if c.peek = some '#' then c.skipWhile (!isBreak ·) else c
  if isBreakOrEnd c.peek then some c.takeBreak.2 else none

/-- Three dashes or three dots at the start of a line. -/
def atDocumentMark (c : Cursor) : Bool :=
  c.column = 0 && (c.rest.take 3 = ['-', '-', '-'] || c.rest.take 3 = ['.', '.', '.']) &&
    isGap (c.peekAt 3)

end Cursor

/-- What stands between two parts of a text: blanks on one line, or line breaks. -/
structure Gap where
  blanks : List Char
  breaks : List Char

namespace Gap

/-- One line break is a blank, and of several the first is left out, unless it stands for itself. -/
def folded (g : Gap) : List Char :=
  match g.breaks with
  | [] => g.blanks
  | ['\n'] => [' ']
  | '\n' :: more => more
  | breaks => breaks

end Gap

/-- Reads blanks and line breaks. In a line that starts in the gap, a tab before column `margin` is
an error. -/
def readGap (margin : Nat) : Nat → Gap → Cursor → Option (Gap × Cursor)
  | 0, gap, c => some (gap, c)
  | fuel + 1, gap, c =>
    match c.peek with
    | none => some (gap, c)
    | some ch =>
      if isBreak ch then
        let (text, c) := c.takeBreak
        readGap margin fuel ⟨[], gap.breaks ++ text⟩ c
      else if isBlank ch then
        if gap.breaks.isEmpty then
          readGap margin fuel { gap with blanks := gap.blanks ++ [ch] } (c.skip 1)
        else if ch = '\t' && c.column < margin then none
        else readGap margin fuel gap (c.skip 1)
      else some (gap, c)

/-- The gap at a cursor, which has at most `fuel` characters. -/
def Cursor.gap? (margin fuel : Nat) (c : Cursor) : Option (Gap × Cursor) :=
  readGap margin fuel ⟨[], []⟩ c

end Stepwise.Yaml

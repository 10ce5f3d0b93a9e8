import Stepwise.Yaml.Cursor
import Stepwise.Yaml.Resolution

/-!
# How texts are written

A text of several lines is written as a literal block. Any other one is written plainly, or in
single quotes if it would then be read as something else. What neither way can hold is written in
double quotes.
-/

namespace Stepwise.Yaml

/-- The characters that stand for themselves in any style. -/
def isPrintable (c : Char) : Bool :=
  let n := c.toNat
  n = 0x0A || 0x20 ≤ n && n ≤ 0x7E || 0xA0 ≤ n && n ≤ 0xFFFD && n ≠ 0xFEFF || 0x10000 ≤ n

def hasPair (p q : Char → Bool) : List Char → Bool
  | a :: b :: rest => p a && q b || hasPair p q (b :: rest)
  | _ => false

/-- Blanks before a line break would be lost. -/
def hasBlankLineEnd : List Char → Bool := hasPair (· = ' ') isBreak

def hasBlankLineStart : List Char → Bool := hasPair isBreak (· = ' ')

/-- A colon before a gap, or a number sign after one, behind the first character. -/
def hasMark : List Char → Bool
  | a :: b :: rest =>
    b = ':' && isGap rest.head? || b = '#' && isGap (some a) || hasMark (b :: rest)
  | _ => false

def startsWithMark : List Char → Bool
  | [] => false
  | c :: rest =>
    if c ∈ ['?', ':', '-'] then isGap rest.head? else c ∈ indicatorChars

def startsLikeDocumentMark (cs : List Char) : Bool :=
  cs.take 3 = ['-', '-', '-'] || cs.take 3 = ['.', '.', '.']

def fitsPlain (cs : List Char) : Bool :=
  cs.all (fun c => isPrintable c && !isBreak c) && cs.head? ≠ some ' ' && cs.getLast? ≠ some ' ' &&
    !(startsWithMark cs || hasMark cs || startsLikeDocumentMark cs)

def fitsSingleQuoted (cs : List Char) : Bool :=
  cs.all isPrintable && !hasBlankLineStart cs && !hasBlankLineEnd cs

def fitsLiteral (cs : List Char) : Bool :=
  cs.all isPrintable && !hasBlankLineEnd cs && cs.getLast? ≠ some ' '

/-- Whether a plain text would be read as a value other than this text. Digits after a leading zero
are quoted too. -/
def looksLikeOther (s : String) : Bool :=
  match plainValue? s with
  | some (.str _) => isZeroPadded s.toList
  | _ => true

def textStyle (s : String) : Style :=
  let cs := s.toList
  if '\n' ∈ cs then (if fitsLiteral cs then .literal else .doubleQuoted)
  else if !looksLikeOther s && fitsPlain cs then .plain
  else if fitsSingleQuoted cs then .singleQuoted
  else .doubleQuoted

def blanks (n : Nat) : List Char := List.replicate n ' '

/-- Puts blanks before each line that has characters; `atStart` tells whether one starts here. -/
def indentLines (indent : Nat) : Bool → List Char → List Char
  | _, [] => []
  | atStart, c :: rest =>
    if isBreak c then c :: indentLines indent true rest
    else (if atStart then blanks indent else []) ++ c :: indentLines indent false rest

def endsWithBreak (cs : List Char) : Bool := cs.getLast?.any isBreak

def singleQuotedText (indent : Nat) (cs : List Char) : List Char :=
  let doubled := cs.flatMap fun c => if c = '\'' then ['\'', '\''] else [c]
  let last := if endsWithBreak cs then blanks indent else []
  '\'' :: (indentLines indent false doubled ++ last ++ ['\''])

def upperHex (width n : Nat) : List Char :=
  (List.range width).reverse.map fun place => (Nat.digitChar (n / Nat.pow 16 place % 16)).toUpper

/-- What stands after a backslash for a character. -/
def escapeCode (c : Char) : List Char :=
  match c with
  | '\x00' => ['0']
  | '\x07' => ['a']
  | '\x08' => ['b']
  | '\t' => ['t']
  | '\n' => ['n']
  | '\x0b' => ['v']
  | '\x0c' => ['f']
  | '\r' => ['r']
  | '\x1b' => ['e']
  | '"' => ['"']
  | '\\' => ['\\']
  | '\u0085' => ['N']
  | '\u2028' => ['L']
  | '\u2029' => ['P']
  | c => if c.toNat ≤ 0xFF then 'x' :: upperHex 2 c.toNat else 'u' :: upperHex 4 c.toNat

def doubleQuotedText (cs : List Char) : List Char :=
  let escaped := cs.flatMap fun c =>
    if isPrintable c && !isBreak c && c ≠ '"' && c ≠ '\\' then [c] else '\\' :: escapeCode c
  '"' :: (escaped ++ ['"'])

/-- The mark for the line breaks at the end of a block text: none is left, one is, or all are. -/
def chompingMark (cs : List Char) : List Char :=
  match cs.reverse with
  | [] => ['-']
  | last :: before =>
    if !isBreak last then ['-'] else if before.head?.all isBreak then ['+'] else []

/-- A literal block. Its indentation is told if the first line does not show it. -/
def literalText (indent : Nat) (cs : List Char) : List Char :=
  let hidden := cs.head?.any fun c => c = ' ' || isBreak c
  '|' :: ((if hidden then ['2'] else []) ++ chompingMark cs ++ '\n' :: indentLines indent true cs)

/-- A text up to the start of the next line; a block of lines is indented. -/
def textLine (indent : Nat) (s : String) : List Char :=
  let cs := s.toList
  match textStyle s with
  | .plain => cs ++ ['\n']
  | .singleQuoted => singleQuotedText indent cs ++ ['\n']
  | .doubleQuoted => doubleQuotedText cs ++ ['\n']
  | .literal | .folded => literalText indent cs ++ (if endsWithBreak cs then [] else ['\n'])

end Stepwise.Yaml

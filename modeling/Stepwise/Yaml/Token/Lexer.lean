import Stepwise.Yaml.ScalarText

/-!
# From text to tokens

Outside brackets the indentation opens and closes blocks. A mapping need not mark its keys: a token
that could start a key is remembered, and when a colon follows it on the same line and not too far
away, a key mark is put before it, with the start of a mapping if its column opens one. One such
token is remembered for each level of brackets.
-/

namespace Stepwise.Yaml

/-- A token that may turn out to start a key; a required one must. -/
structure PossibleKey where
  required : Bool
  /-- How many tokens stand before it. -/
  position : Nat
  line : Nat
  column : Nat
  offset : Nat

structure Lexer where
  cursor : Cursor
  /-- The latest first. -/
  tokens : List Token
  /-- The column of the innermost block, below zero outside of all. -/
  indent : Int
  /-- The columns of the blocks around it. -/
  indents : List Int
  keyAllowed : Bool
  /-- The possible key outside brackets or in the innermost ones. -/
  key : Option PossibleKey
  /-- Those of the brackets around them. -/
  outerKeys : List (Option PossibleKey)

namespace Lexer

def start (text : List Char) : Lexer := ⟨.ofText text, [], -1, [], true, none, []⟩

def inFlow (l : Lexer) : Bool := !l.outerKeys.isEmpty

def emit (token : Token) (l : Lexer) : Lexer := { l with tokens := token :: l.tokens }

/-- Puts a token where only `position` tokens stand before it. -/
def insertAt (position : Nat) (token : Token) (l : Lexer) : Lexer :=
  let later := l.tokens.length - position
  { l with tokens := l.tokens.take later ++ token :: l.tokens.drop later }

def advance (n : Nat) (l : Lexer) : Lexer := { l with cursor := l.cursor.skip n }

/-- Opens a block at a column to the right of the innermost one. -/
def openBlock (column position : Nat) (token : Token) (l : Lexer) : Lexer :=
  if l.inFlow || (column : Int) ≤ l.indent then l
  else { l.insertAt position token with indent := column, indents := l.indent :: l.indents }

def closeWhile (column : Int) : List Int → Lexer → Lexer
  | [], l => l
  | outer :: rest, l =>
    if column < l.indent then
      closeWhile column rest { l.emit .blockEnd with indent := outer, indents := rest }
    else l

/-- Closes the blocks to the right of a column. -/
def closeBlocks (column : Int) (l : Lexer) : Lexer :=
  if l.inFlow then l else closeWhile column l.indents l

/-- Forgets the possible key; a required one must not be forgotten. -/
def dropKey (l : Lexer) : Option Lexer :=
  if l.key.any (·.required) then none else some { l with key := none }

/-- Remembers the next token as a possible key. -/
def saveKey (l : Lexer) : Option Lexer := do
  if l.keyAllowed then
    let l ← l.dropKey
    let c := l.cursor
    let required := !l.inFlow && l.indent = c.column
    return { l with key := some ⟨required, l.tokens.length, c.line, c.column, c.offset⟩ }
  else return l

/-- Keys stand on one line and have at most 1024 bytes. -/
def isStale (c : Cursor) (k : PossibleKey) : Bool := k.line < c.line || k.offset + 1024 < c.offset

def freshen (c : Cursor) : Option PossibleKey → Option (Option PossibleKey)
  | none => some none
  | some k => if isStale c k then (if k.required then none else some none) else some (some k)

/-- Forgets the keys for which a colon would come too late. -/
def dropStaleKeys (l : Lexer) : Option Lexer := do
  let key ← freshen l.cursor l.key
  let outerKeys ← l.outerKeys.mapM (freshen l.cursor)
  return { l with key, outerKeys }

/-- Passes over blanks, comments and line breaks. A tab must not stand where a block key can start.
A byte order mark may start a line and takes a column. -/
def toNextToken : Nat → Lexer → Lexer
  | 0, l => l
  | fuel + 1, l =>
    let mark := l.cursor.column = 0 && l.cursor.peek = some '\ufeff'
    let c := if mark then l.cursor.skip 1 else l.cursor
    let tabs := l.inFlow || !l.keyAllowed
    let c := c.skipWhile fun ch => ch = ' ' || tabs && ch = '\t'
    let c := if c.peek = some '#' then c.skipWhile (!isBreak ·) else c
    if c.peek.any isBreak then
      toNextToken fuel { l with cursor := c.takeBreak.2, keyAllowed := l.keyAllowed || !l.inFlow }
    else { l with cursor := c }

def endOfStream (l : Lexer) : Option Lexer := do
  let l ← (l.closeBlocks (-1)).dropKey
  return { l.emit .streamEnd with keyAllowed := false }

def documentMark (token : Token) (l : Lexer) : Option Lexer := do
  let l ← (l.closeBlocks (-1)).dropKey
  return ({ l with keyAllowed := false }.emit token).advance 3

def openFlow (token : Token) (l : Lexer) : Option Lexer := do
  let l ← l.saveKey
  let opened := { l with key := none, outerKeys := l.key :: l.outerKeys, keyAllowed := true }
  return (opened.emit token).advance 1

def closeFlow (token : Token) (l : Lexer) : Option Lexer := do
  let l ← l.dropKey
  let l :=
    match l.outerKeys with
    | [] => l
    | outer :: rest => { l with key := outer, outerKeys := rest }
  return ({ l with keyAllowed := false }.emit token).advance 1

def flowEntry (l : Lexer) : Option Lexer := do
  let l ← l.dropKey
  return ({ l with keyAllowed := true }.emit .flowEntry).advance 1

def blockEntry (l : Lexer) : Option Lexer := do
  if !l.inFlow && !l.keyAllowed then none
  let l ← (l.openBlock l.cursor.column l.tokens.length .blockSequenceStart).dropKey
  return ({ l with keyAllowed := true }.emit .blockEntry).advance 1

/-- A key that is marked by a question mark. -/
def markedKey (l : Lexer) : Option Lexer := do
  if !l.inFlow && !l.keyAllowed then none
  let l ← (l.openBlock l.cursor.column l.tokens.length .blockMappingStart).dropKey
  return ({ l with keyAllowed := !l.inFlow }.emit .key).advance 1

def value (l : Lexer) : Option Lexer :=
  match l.key with
  | some k =>
    let l := (l.insertAt k.position .key).openBlock k.column k.position .blockMappingStart
    some (({ l with key := none, keyAllowed := false }.emit .value).advance 1)
  | none =>
    if !l.inFlow && !l.keyAllowed then none
    else
      let l := l.openBlock l.cursor.column l.tokens.length .blockMappingStart
      some (({ l with keyAllowed := !l.inFlow }.emit .value).advance 1)

/-- A token that may start a key and after which none can start. -/
def keyToken (read : Lexer → Option (Token × Cursor)) (l : Lexer) : Option Lexer := do
  let l ← l.saveKey
  let (token, cursor) ← read l
  return { l.emit token with keyAllowed := false, cursor }

/-- The name of an anchor or an alias after its indicator. -/
def readName (make : String → Token) (l : Lexer) : Option (Token × Cursor) :=
  let (name, c) := (l.cursor.skip 1).takeWhile isWordChar
  let ends := isGap c.peek || c.peek.any (· ∈ ['?', ':', ',', ']', '\x7d', '%', '@', '\x60'])
  if name.isEmpty || !ends then none else some (make (String.ofList name), c)

def readQuotedToken (single : Bool) (l : Lexer) : Option (Token × Cursor) := do
  let reading ← quoted? single l.cursor
  return (.scalar (String.ofList reading.text) (if single then .singleQuoted else .doubleQuoted),
    reading.cursor)

def plainToken (l : Lexer) : Option Lexer := do
  let l ← l.saveKey
  let (reading, brokeLine) ← plain? l.inFlow (l.indent + 1).toNat l.cursor
  return { l.emit (.scalar (String.ofList reading.text) .plain) with
    keyAllowed := brokeLine, cursor := reading.cursor }

def blockToken (literal : Bool) (l : Lexer) : Option Lexer := do
  let l ← l.dropKey
  let reading ← block? literal l.indent l.cursor
  let style := if literal then .literal else .folded
  return { l.emit (.scalar (String.ofList reading.text) style) with
    keyAllowed := true, cursor := reading.cursor }

def isTagChar (verbatim : Bool) (c : Char) : Bool :=
  isWordChar c ||
    c ∈ [';', '/', '?', ':', '@', '&', '=', '+', '$', '.', '!', '~', '*', '\'', '(', ')'] ||
    verbatim && c ∈ [',', '[', ']']

/-- The byte that a percent sign and two hexadecimal digits stand for. -/
def percentByte? (c : Cursor) : Option (UInt8 × Cursor) := do
  let digits := (c.rest.drop 1).take 2
  if c.peek ≠ some '%' || digits.length < 2 then none
  return (.ofNat (← readHex digits), c.skip 3)

/-- The number of bytes after the first one of a character. -/
def moreBytes? (first : UInt8) : Option Nat :=
  if first < 0x80 then some 0
  else if first < 0xC0 then none
  else if first < 0xE0 then some 1
  else if first < 0xF0 then some 2
  else if first < 0xF8 then some 3
  else none

def laterBytes? : Nat → Cursor → Option (List UInt8 × Cursor)
  | 0, c => some ([], c)
  | n + 1, c => do
    let (byte, c) ← percentByte? c
    if byte < 0x80 || 0xC0 ≤ byte then none
    let (bytes, c) ← laterBytes? n c
    return (byte :: bytes, c)

/-- The bytes of a character, each given by a percent sign. Their number must be right, but they
need not be the shortest for the character, nor stand for one at all. -/
def percentBytes? (c : Cursor) : Option (List UInt8 × Cursor) := do
  let (first, c) ← percentByte? c
  let (later, c) ← laterBytes? (← moreBytes? first) c
  return (first :: later, c)

def asciiByte (c : Char) : UInt8 := .ofNat c.toNat

/-- The bytes of a tag, its characters being bytes themselves. -/
def tagBytes (verbatim : Bool) : Nat → Cursor → Option (List UInt8 × Cursor)
  | 0, c => some ([], c)
  | fuel + 1, c =>
    match c.peek with
    | some '%' => do
      let (bytes, c) ← percentBytes? c
      let (rest, c) ← tagBytes verbatim fuel c
      return (bytes ++ rest, c)
    | some ch =>
      if isTagChar verbatim ch then do
        let (rest, c) ← tagBytes verbatim fuel (c.skip 1)
        return (asciiByte ch :: rest, c)
      else some ([], c)
    | none => some ([], c)

def readTagBytes (verbatim : Bool) (c : Cursor) : Option (List UInt8 × Cursor) :=
  tagBytes verbatim (c.rest.length + 1) c

/-- A tag handle: an exclamation mark, word characters, and perhaps another exclamation mark. -/
def readHandle (c : Cursor) : List Char × Cursor :=
  let (name, c) := (c.skip 1).takeWhile isWordChar
  if c.peek = some '!' then ('!' :: (name ++ ['!']), c.skip 1) else ('!' :: name, c)

/-- A tag is verbatim in angle brackets, or a handle and a suffix, or a suffix after one exclamation
mark; that mark alone is a tag without handle. -/
def readTag (l : Lexer) : Option (Token × Cursor) := do
  let c := l.cursor
  let (handle, suffix, c) ←
    if c.peekAt 1 = some '<' then do
      let (bytes, c) ← readTagBytes true (c.skip 2)
      if bytes.isEmpty || c.peek ≠ some '>' then none
      pure ([], Tag.ofBytes bytes, c.skip 1)
    else do
      let (handle, c) := readHandle c
      let (bytes, c) ← readTagBytes false c
      if 2 ≤ handle.length && handle.getLast? = some '!' then
        if bytes.isEmpty then none
        pure (handle, Tag.ofBytes bytes, c)
      else
        let suffix := Tag.ofBytes ((handle.drop 1).map asciiByte ++ bytes)
        pure (if suffix.isEmpty then ([], Tag.mark, c) else (['!'], suffix, c))
  if isGap c.peek || l.inFlow && c.peek = some ',' then
    return (.tag (String.ofList handle) suffix, c)
  else none

/-- A version number of at most nine digits. -/
def readVersionNumber (c : Cursor) : Option (Nat × Cursor) :=
  let (digits, c) := c.takeWhile Char.isDigit
  if digits.isEmpty || 9 < digits.length then none
  else some (digits.foldl (fun n d => 10 * n + (d.toNat - '0'.toNat)) 0, c)

def readVersion (c : Cursor) : Option (Token × Cursor) := do
  let (major, c) ← readVersionNumber (c.skipWhile isBlank)
  if c.peek ≠ some '.' then none
  let (minor, c) ← readVersionNumber (c.skip 1)
  return (.version major minor, c)

def readTagHandle (c : Cursor) : Option (Token × Cursor) := do
  let c := c.skipWhile isBlank
  if c.peek ≠ some '!' then none
  let (handle, c) := readHandle c
  if handle.getLast? ≠ some '!' then none
  if !c.peek.any isBlank then none
  let (bytes, c) ← readTagBytes true (c.skipWhile isBlank)
  if bytes.isEmpty || !isGap c.peek then none
  return (.tagHandle (String.ofList handle) (.ofBytes bytes), c)

def directive (l : Lexer) : Option Lexer := do
  let l ← (l.closeBlocks (-1)).dropKey
  let (name, c) := (l.cursor.skip 1).takeWhile isWordChar
  if !isGap c.peek then none
  let (token, c) ←
    if name = ['Y', 'A', 'M', 'L'] then readVersion c
    else if name = ['T', 'A', 'G'] then readTagHandle c
    else none
  return { l.emit token with keyAllowed := false, cursor := ← c.skipLineEnd }

/-- Whether a plain text starts at the cursor. -/
def startsPlain (l : Lexer) (ch : Char) (next : Option Char) : Bool :=
  !(isGap (some ch) || ch ∈ indicatorChars) || ch = '-' && !next.any isBlank ||
    !l.inFlow && (ch = '?' || ch = ':') && !isGap next

/-- Reads the token at the cursor. -/
def token (l : Lexer) : Option Lexer :=
  let c := l.cursor
  let next := c.peekAt 1
  match c.peek with
  | none => l.endOfStream
  | some ch =>
    if c.column = 0 && ch = '%' then l.directive
    else if c.atDocumentMark then l.documentMark (if ch = '-' then .documentStart else .documentEnd)
    else if ch = '[' then l.openFlow .flowSequenceStart
    else if ch = '\x7b' then l.openFlow .flowMappingStart
    else if ch = ']' then l.closeFlow .flowSequenceEnd
    else if ch = '\x7d' then l.closeFlow .flowMappingEnd
    else if ch = ',' then l.flowEntry
    else if ch = '-' && isGap next then l.blockEntry
    else if ch = '?' && (l.inFlow || isGap next) then l.markedKey
    else if ch = ':' && (l.inFlow || isGap next) then l.value
    else if ch = '*' then l.keyToken (readName .alias)
    else if ch = '&' then l.keyToken (readName .anchor)
    else if ch = '!' then l.keyToken readTag
    else if ch = '|' && !l.inFlow then l.blockToken true
    else if ch = '>' && !l.inFlow then l.blockToken false
    else if ch = '\'' then l.keyToken (readQuotedToken true)
    else if ch = '"' then l.keyToken (readQuotedToken false)
    else if l.startsPlain ch next then l.plainToken
    else none

/-- Reads on to the end of the stream. The fuel is more than the number of characters left. -/
def run : Nat → Lexer → Option Lexer
  | 0, _ => none
  | fuel + 1, l => do
    let l ← (toNextToken (fuel + 1) l).dropStaleKeys
    let l ← (l.closeBlocks l.cursor.column).token
    if l.tokens.head? = some .streamEnd then return l else run fuel l

end Lexer

/-- The tokens of a text, the last one being the end of the stream. -/
def tokens? (text : String) : Option (List Token) :=
  let chars := text.toList
  if chars.all isAllowed then do
    let l ← Lexer.run (chars.length + 1) (.start chars)
    return l.tokens.reverse
  else none

end Stepwise.Yaml

import TextOrigin.Pool.Printer

/-!
Reading the text form of pools. Blank lines and lines that start with `#` are left out, blanks
around and between tokens do not matter, and numbers may have leading zeros. In all else the text
must be as the printer writes it. An error names the line of the first fault. Numbers of lines are
words of 32 bits, which start over after `UInt32.size` lines.
-/

namespace TextOrigin.Pool

inductive Item where
  | entryId
  | entryKind
  | offset
  | row
  | column
  | keyword (word : Bytes)
  | fileId
  | parentId
  | substringOffset
  | pieceCount
  | piece
  | mappingCount
  | mapEntry
deriving DecidableEq, Repr

def Item.label : Item → Bytes
  | entryId => ascii "entry id"
  | entryKind => ascii "entry kind"
  | offset => ascii "offset"
  | row => ascii "row"
  | column => ascii "column"
  | keyword word => ascii "'" ++ word ++ ascii "'"
  | fileId => ascii "file id"
  | parentId => ascii "parent id"
  | substringOffset => ascii "substring offset"
  | pieceCount => ascii "piece count"
  | piece => ascii "piece"
  | mappingCount => ascii "mapping count"
  | mapEntry => ascii "mapping entry"

inductive LineFault where
  | otherHeader
  | noHeader
  | missing (item : Item)
  | malformed (item : Item) (token : Bytes)
  | otherKeyword (word token : Bytes)
  | otherId (expected : Nat) (found : EntryId)
  | unknownKind (token : Bytes)
  | pieceCount (declared : Word) (listed : Nat)
  | mappingCount (declared : Word) (listed : Nat)
  | pieceId (id : Word)
  | trailing (token : Bytes)
deriving DecidableEq, Repr

def LineFault.message : LineFault → Bytes
  | otherHeader => ascii "expected '" ++ header ++ ascii "' header"
  | noHeader => ascii "missing '" ++ header ++ ascii "' header"
  | missing item => ascii "missing " ++ item.label
  | malformed item token =>
    ascii "malformed " ++ item.label ++ ascii " '" ++ token ++ ascii "'"
  | otherKeyword word token =>
    ascii "expected '" ++ word ++ ascii "', found '" ++ token ++ ascii "'"
  | otherId expected found =>
    ascii "expected entry id " ++ decimal expected ++ ascii ", found " ++ decimal found.toNat
  | unknownKind token => ascii "unknown entry kind '" ++ token ++ ascii "'"
  | pieceCount declared listed =>
    ascii "declares " ++ decimal declared.toNat ++ ascii " pieces but lists " ++ decimal listed
  | mappingCount declared listed =>
    ascii "declares " ++ decimal declared.toNat ++ ascii " mapping entries but lists " ++
      decimal listed
  | pieceId id => ascii "piece id " ++ decimal id.toNat ++ ascii " out of range"
  | trailing token => ascii "unexpected trailing token '" ++ token ++ ascii "'"

structure ParseError where
  line : UInt32
  fault : LineFault
deriving DecidableEq, Repr

def ParseError.message (error : ParseError) : Bytes :=
  ascii "Line " ++ decimal error.line.toNat ++ ascii ": " ++ error.fault.message

namespace Parser

abbrev Reader := StateT (List Bytes) (Except LineFault)

def token (item : Item) : Reader Bytes := fun
  | [] => .error (.missing item)
  | first :: rest => .ok (first, rest)

def value {α : Type} (item : Item) (read? : Bytes → Option α) : Reader α := do
  let text ← token item
  match read? text with
  | some result => return result
  | none => throw (.malformed item text)

def keyword (word : Bytes) : Reader Unit := do
  let text ← token (.keyword word)
  if text ≠ word then throw (.otherKeyword word text)

def position : Reader Position := do
  let offset ← value .offset readWord?
  let row ← value .row readWord?
  let column ← value .column readWord?
  return ⟨offset, row, column⟩

def readGroup? (text : Bytes) : Option (List Word) :=
  (Bytes.split (· == Bytes.colon) text).mapM readWord?

def piece (text : Bytes) : Except LineFault (Piece EntryId) :=
  match readGroup? text with
  | some [id, offset, length] =>
    if id.toNat < UInt32.size then .ok ⟨id.toUInt32, offset, length⟩ else .error (.pieceId id)
  | _ => .error (.malformed .piece text)

def mapEntry (text : Bytes) : Except LineFault MapEntry :=
  match readGroup? text with
  | some [fromStart, fromStop, toStart, toStop] => .ok ⟨fromStart, fromStop, toStart, toStop⟩
  | _ => .error (.malformed .mapEntry text)

/-- Reads a count and then all tokens that are left, which must be as many. -/
def listed {α : Type} (item : Item) (fault : Word → Nat → LineFault)
    (read : Bytes → Except LineFault α) : Reader (List α) := do
  let count ← value item readWord?
  let rest ← get
  if count.toNat ≠ rest.length then throw (fault count rest.length)
  set ([] : List Bytes)
  rest.mapM fun text => liftM (read text)

def link : Kind → Reader (Link EntryId)
  | .leaf => do
    keyword (ascii "file")
    return .leaf ⟨← value .fileId readWord32?⟩
  | .substring => do
    keyword (ascii "parent")
    let parent ← value .parentId readWord32?
    keyword (ascii "offset")
    return .substring parent (← value .substringOffset readWord?)
  | .concat => do
    keyword (ascii "pieces")
    return .concat (← listed .pieceCount .pieceCount piece)
  | .transformed => do
    keyword (ascii "parent")
    let parent ← value .parentId readWord32?
    keyword (ascii "map")
    return .transformed parent (← listed .mappingCount .mappingCount mapEntry)

def entry (expected : Nat) : Reader Entry := do
  let id ← value .entryId readWord32?
  if id.toNat ≠ expected then throw (.otherId expected id)
  let name ← token .entryKind
  match Kind.ofName? name with
  | none => throw (.unknownKind name)
  | some kind =>
    let start ← position
    let stop ← position
    let link ← link kind
    match ← get with
    | [] => return Entry.ofLink ⟨start, stop⟩ link
    | text :: _ => throw (.trailing text)

def byteOrderMark : Bytes := [0xEF, 0xBB, 0xBF]

def dropMark (line : Bytes) : Bytes :=
  if byteOrderMark.isPrefixOf line then line.drop 3 else line

def isContent (line : Bytes) : Bool :=
  match line with
  | [] => false
  | first :: _ => first != 35

/-- Numbers start over where a word of 32 bits wraps. -/
def lineNumber (index : Nat) : UInt32 :=
  UInt32.ofNat index

/-- A line without the mark, which is dropped wherever the number of the line is one. -/
def unmark (line : Bytes) (index : Nat) : Bytes :=
  if lineNumber index = 1 then dropMark line else line

/-- The trimmed lines that hold the header and the entries, each with its place in the text, counted
from one. -/
def contentLines (text : Bytes) : List (Bytes × Nat) :=
  let placed := (Bytes.lines text).zipIdx 1
  let trimmed := placed.map fun (line, index) => (Bytes.trimBlanks (unmark line index), index)
  trimmed.filter fun (line, _) => isContent line

def entriesFrom (pool : Pool) : List (Bytes × Nat) → Except ParseError Pool
  | [] => .ok pool
  | (line, index) :: rest =>
    match (entry pool.size).run (Bytes.tokens line) with
    | .error fault => .error ⟨lineNumber index, fault⟩
    | .ok (read, _) => entriesFrom (pool.push read) rest

end Parser

/-- The pool that a text describes. A text without a header is at fault in its last line. -/
def parse (text : Bytes) : Except ParseError Pool :=
  match Parser.contentLines text with
  | [] => .error ⟨Parser.lineNumber (Bytes.lines text).length, .noHeader⟩
  | (first, index) :: rest =>
    if first = header then Parser.entriesFrom #[] rest
    else .error ⟨Parser.lineNumber index, .otherHeader⟩

end TextOrigin.Pool

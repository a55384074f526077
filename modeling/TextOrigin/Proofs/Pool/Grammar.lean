import Mathlib.Data.List.Forall2
import TextOrigin.Pool.Parser
import TextOrigin.Proofs.Bytes.Numeral

/-!
The grammar of the text form of pools: relations between texts and what they write, without a
procedure. Numbers may have leading zeros, blanks may stand around and between tokens, and lines
may be empty or comments; all else of a text is fixed by the pool that it writes. A mark may stand in
front of the first line, and of every line to which the number one comes back.
-/

namespace TextOrigin.Pool

def Numerals : List Bytes → List Word → Prop :=
  List.Forall₂ fun text word => Numeral text word.toNat

theorem Numerals.ne_nil {parts : List Bytes} {fields : List Word} (h : Numerals parts fields)
    (hne : fields ≠ []) : parts ≠ [] := by
  rintro rfl
  cases h
  exact hne rfl

theorem Numerals.forall_mem {p : Bytes → Prop} {parts : List Bytes} {fields : List Word}
    (h : Numerals parts fields) (hp : ∀ {text : Bytes} {n : Nat}, Numeral text n → p text) :
    ∀ part ∈ parts, p part :=
  have hboth := h.imp fun _ _ hnumeral => And.intro (hp hnumeral) hnumeral
  ((List.forall₂_and_left parts fields).1 hboth).1

def Group (text : Bytes) (fields : List Word) : Prop :=
  ∃ parts, text = Bytes.join Bytes.colon parts ∧ Numerals parts fields

inductive Listing {α : Type} (fields : α → List Word) : List Bytes → List α → Prop where
  | mk {count : Bytes} {groups : List Bytes} {items : List α}
      (hcount : Numeral count groups.length) (hlt : groups.length < UInt64.size)
      (hgroups : List.Forall₂ (fun text item => Group text (fields item)) groups items) :
      Listing fields (count :: groups) items

def pieceFields (piece : Piece EntryId) : List Word :=
  [piece.source.toUInt64, piece.offset, piece.length]

def mapFields (entry : MapEntry) : List Word :=
  [entry.fromStart, entry.fromStop, entry.toStart, entry.toStop]

def positionFields (position : Position) : List Word :=
  [position.offset, position.row, position.column]

inductive LinkTokens : List Bytes → Link EntryId → Prop where
  | leaf {number : Bytes} {file : FileId} (hfile : Numeral number file.value.toNat) :
      LinkTokens [ascii "file", number] (.leaf file)
  | substring {first second : Bytes} {parent : EntryId} {offset : Word}
      (hparent : Numeral first parent.toNat) (hoffset : Numeral second offset.toNat) :
      LinkTokens [ascii "parent", first, ascii "offset", second] (.substring parent offset)
  | concat {list : List Bytes} {pieces : List (Piece EntryId)}
      (hpieces : Listing pieceFields list pieces) :
      LinkTokens (ascii "pieces" :: list) (.concat pieces)
  | transformed {number : Bytes} {list : List Bytes} {parent : EntryId} {mapping : Mapping}
      (hparent : Numeral number parent.toNat) (hmapping : Listing mapFields list mapping) :
      LinkTokens (ascii "parent" :: number :: ascii "map" :: list) (.transformed parent mapping)

/-- The tokens of an entry's line: its index, the name of its kind, the six numbers of its range and
its link. The fields of other kinds have their defaults. -/
inductive EntryTokens (id : Nat) : List Bytes → Entry → Prop where
  | mk {number : Bytes} {start stop link : List Bytes} {range : Range} {flat : Link EntryId}
      (hid : Numeral number id) (hlt : id < UInt32.size)
      (hstart : Numerals start (positionFields range.start))
      (hstop : Numerals stop (positionFields range.stop)) (hlink : LinkTokens link flat) :
      EntryTokens id (number :: flat.kind.name :: (start ++ (stop ++ link)))
        (Entry.ofLink range flat)

def EntryLine (id : Nat) (line : Bytes) (entry : Entry) : Prop :=
  ∃ tokens, Bytes.Spaced tokens line ∧ EntryTokens id tokens entry

inductive HeaderLine : Bytes → Prop where
  | mk {lead trail : Bytes} (hlead : ∀ b ∈ lead, Bytes.isBlank b = true)
      (htrail : ∀ b ∈ trail, Bytes.isBlank b = true) : HeaderLine (lead ++ (header ++ trail))

/-- A line that says nothing: a blank one, or a comment behind blanks. -/
inductive IdleLine : Bytes → Prop where
  | blank {line : Bytes} (h : ∀ b ∈ line, Bytes.isBlank b = true) : IdleLine line
  | comment {lead rest : Bytes} (hlead : ∀ b ∈ lead, Bytes.isBlank b = true) :
      IdleLine (lead ++ 35 :: rest)

/-- The lines behind the header, where the next entry has the index `id`. -/
inductive EntryLines : Nat → List Bytes → List Entry → Prop where
  | nil {id : Nat} : EntryLines id [] []
  | idle {id : Nat} {line : Bytes} {lines : List Bytes} {entries : List Entry}
      (hline : IdleLine line) (hlines : EntryLines id lines entries) :
      EntryLines id (line :: lines) entries
  | entry {id : Nat} {line : Bytes} {lines : List Bytes} {entry : Entry} {entries : List Entry}
      (hline : EntryLine id line entry) (hlines : EntryLines (id + 1) lines entries) :
      EntryLines id (line :: lines) (entry :: entries)

inductive PoolLines : List Bytes → List Entry → Prop where
  | idle {line : Bytes} {lines : List Bytes} {entries : List Entry} (hline : IdleLine line)
      (hlines : PoolLines lines entries) : PoolLines (line :: lines) entries
  | header {line : Bytes} {lines : List Bytes} {entries : List Entry} (hline : HeaderLine line)
      (hlines : EntryLines 0 lines entries) : PoolLines (line :: lines) entries

/-- A line and what it is without the mark that may stand in front of a text in UTF-8. -/
inductive Unmarked : Bytes → Bytes → Prop where
  | mark (line : Bytes) : Unmarked (0xEF :: 0xBB :: 0xBF :: line) line
  | bare {line : Bytes} (h : ¬ [0xEF, 0xBB, 0xBF] <+: line) : Unmarked line line

/-- Lines and what they are without marks, where their numbers go on from `number` and only lines of
number one have marks. -/
inductive UnmarkedFrom : UInt32 → List Bytes → List Bytes → Prop where
  | nil {number : UInt32} : UnmarkedFrom number [] []
  | cons {number : UInt32} {line bare : Bytes} {lines bares : List Bytes}
      (hone : number = 1 → Unmarked line bare) (hother : number ≠ 1 → line = bare)
      (hlines : UnmarkedFrom (number + 1) lines bares) :
      UnmarkedFrom number (line :: lines) (bare :: bares)

/-- A header and then one line for each entry, in order. -/
def Written (text : Bytes) (pool : Pool) : Prop :=
  ∃ lines bares, Bytes.CutAt Bytes.newline text lines ∧ UnmarkedFrom 1 lines bares ∧
    PoolLines bares pool.toList

end TextOrigin.Pool

import TextOrigin.Pool.Entry
import TextOrigin.Registry

/-!
The rules of pools. An entry keeps them if its range is not inverted, the fields of other kinds have
their defaults, its references point to entries before it, and its link stays within what it refers
to, as the builders of records demand. `Pool.fault?` finds the first entry that breaks a rule. Every
reference points backwards in a pool without faults, so no chain of references returns to its start.
-/

namespace TextOrigin

inductive EntryField where
  | file
  | parent
  | offset
  | pieces
  | mapping
deriving DecidableEq, Repr

def EntryField.name : EntryField → Bytes
  | file => ascii "file"
  | parent => ascii "parent"
  | offset => ascii "offset"
  | pieces => ascii "pieces"
  | mapping => ascii "mapping"

inductive RefFault where
  | missing (target : EntryId)
  | notBefore (target : EntryId)
deriving DecidableEq, Repr

def RefFault.message : RefFault → Bytes
  | missing target => ascii "references missing entry " ++ decimal target.toNat
  | notBefore target =>
    ascii "references entry " ++ decimal target.toNat ++ ascii ", which does not precede it"

inductive EntryFault where
  | inverted (start stop : Word)
  | stray (kind : UInt8) (field : EntryField)
  | unknownFile (file : FileId)
  | reference (fault : RefFault)
  | slice (start stop parentLength : Word)
  | pieceReference (index : Nat) (fault : RefFault)
  | pieceStart (index : Nat) (start expected : Word)
  | pieceLength (index : Nat) (claimed covered : Word)
  | total (covered length : Word)
  | mapEntry (index : Nat) (fault : MapFault)
  | unknownKind (code : UInt8)
deriving DecidableEq, Repr

def EntryFault.message : EntryFault → Bytes
  | inverted start stop =>
    ascii "range [" ++ decimal start.toNat ++ ascii ", " ++ decimal stop.toNat ++
      ascii ") is inverted"
  | stray kind field =>
    Kind.nameOfCode kind ++ ascii " entry sets unused field '" ++ field.name ++ ascii "'"
  | unknownFile file => ascii "names unknown file " ++ decimal file.value.toNat
  | reference fault => fault.message
  | slice start stop parentLength =>
    ascii "slice [" ++ decimal start.toNat ++ ascii ", " ++ decimal stop.toNat ++
      ascii ") exceeds parent of length " ++ decimal parentLength.toNat
  | pieceReference index fault =>
    ascii "piece " ++ decimal index ++ ascii " " ++ fault.message
  | pieceStart index start expected =>
    ascii "piece " ++ decimal index ++ ascii " starts at " ++ decimal start.toNat ++
      ascii ", expected " ++ decimal expected.toNat
  | pieceLength index claimed covered =>
    ascii "piece " ++ decimal index ++ ascii " claims " ++ decimal claimed.toNat ++
      ascii " bytes but its entry covers " ++ decimal covered.toNat
  | total covered length =>
    ascii "pieces cover " ++ decimal covered.toNat ++ ascii " bytes but the range covers " ++
      decimal length.toNat
  | mapEntry index fault => ascii "mapping entry " ++ decimal index ++ ascii " " ++ fault.message
  | unknownKind code => ascii "has unknown kind " ++ decimal code.toNat

structure PoolFault where
  entry : Nat
  fault : EntryFault
deriving DecidableEq, Repr

def PoolFault.message (fault : PoolFault) : Bytes :=
  ascii "pool entry " ++ decimal fault.entry ++ ascii " " ++ fault.fault.message

namespace Entry

def strayField? (entry : Entry) : Option EntryField :=
  let is (kind : Kind) : Bool := entry.kind == kind.code
  if !is .leaf && entry.file.isKnown then some .file
  else if !is .substring && !is .transformed && entry.parent != 0 then some .parent
  else if !is .substring && entry.offset != 0 then some .offset
  else if !is .concat && !entry.pieces.isEmpty then some .pieces
  else if !is .transformed && !entry.mapping.isEmpty then some .mapping
  else none

end Entry

namespace Pool

def refLength (pool : Pool) (id : Nat) (target : EntryId) : Except RefFault Word :=
  match pool[target.toNat]? with
  | none => .error (.missing target)
  | some entry => if target.toNat < id then .ok entry.length else .error (.notBefore target)

/-- Checks that pieces lie back to back from `expected` on and use no more than their entries cover.
`index` counts the pieces before them and `length` is what all pieces must cover. -/
def pieceFault? (pool : Pool) (id : Nat) (length : Word) (index : Nat) (expected : Word) :
    List (Piece EntryId) → Option EntryFault
  | [] => if expected = length then none else some (.total expected length)
  | piece :: rest =>
    match pool.refLength id piece.source with
    | .error fault => some (.pieceReference index fault)
    | .ok covered =>
      if piece.offset ≠ expected then some (.pieceStart index piece.offset expected)
      else if covered < piece.length then some (.pieceLength index piece.length covered)
      else pool.pieceFault? id length (index + 1) (expected + piece.length) rest

def linkFault? (pool : Pool) (files? : Option Registry) (id : Nat) (length : Word) :
    Link EntryId → Option EntryFault
  | .leaf file =>
    match files? with
    | some registry => if (registry.file? file).isSome then none else some (.unknownFile file)
    | none => none
  | .substring parent offset =>
    match pool.refLength id parent with
    | .error fault => some (.reference fault)
    | .ok covered =>
      if covered < offset ∨ covered - offset < length then
        some (.slice offset (offset + length) covered)
      else none
  | .concat pieces => pool.pieceFault? id length 0 0 pieces
  | .transformed parent mapping =>
    match pool.refLength id parent with
    | .error fault => some (.reference fault)
    | .ok covered =>
      (mapping.firstFault? covered length).map fun (index, _, fault) => .mapEntry index fault

def entryFault? (pool : Pool) (files? : Option Registry) (id : Nat) (entry : Entry) :
    Option EntryFault :=
  if ¬ entry.range.Valid then
    some (.inverted entry.range.start.offset entry.range.stop.offset)
  else
    match entry.strayField? with
    | some field => some (.stray entry.kind field)
    | none =>
      match entry.link? with
      | none => some (.unknownKind entry.kind)
      | some link => pool.linkFault? files? id entry.length link

def fault? (pool : Pool) (files? : Option Registry) : Option PoolFault :=
  pool.toList.zipIdx.findSome? fun (entry, id) =>
    (pool.entryFault? files? id entry).map (⟨id, ·⟩)

end Pool

end TextOrigin

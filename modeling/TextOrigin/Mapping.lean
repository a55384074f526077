import TextOrigin.Bisection
import TextOrigin.Bytes.Decimal

/-!
Mappings relate a transformed text to the text that it was made from. An entry pairs a source range
with a target range; entries are sorted and disjoint in the target text, which may have gaps where
text was inserted. `firstFault?` finds the first entry that breaks these rules. An offset that an
entry covers is carried over by proportion, and any other offset has a nearest boundary.
-/

namespace TextOrigin

structure MapEntry where
  fromStart : Word
  fromStop : Word
  toStart : Word
  toStop : Word
deriving DecidableEq, Repr

namespace MapEntry

def covers (entry : MapEntry) (offset : Word) : Bool :=
  entry.toStart ≤ offset && offset < entry.toStop

/-- The source offset in proportion to the target offset, rounded down. Ranges of one length are
shifted instead, without a product that could wrap. -/
def interpolate (entry : MapEntry) (offset : Word) : Word :=
  let toLength := entry.toStop - entry.toStart
  let fromLength := entry.fromStop - entry.fromStart
  if toLength = fromLength then entry.fromStart + (offset - entry.toStart)
  else entry.fromStart + (offset - entry.toStart) * fromLength / toLength

end MapEntry

inductive MapFault where
  | inverted
  | beyondSource
  | beyondTarget
  | overlap
deriving DecidableEq, Repr

def MapFault.message : MapFault → Bytes
  | inverted => ascii "is inverted"
  | beyondSource => ascii "exceeds the parent text"
  | beyondTarget => ascii "exceeds the transformed text"
  | overlap => ascii "overlaps or precedes the previous entry"

def MapEntry.fault? (entry : MapEntry) (sourceLength targetLength previous : Word) :
    Option MapFault :=
  if entry.fromStop < entry.fromStart ∨ entry.toStop < entry.toStart then some .inverted
  else if sourceLength < entry.fromStop then some .beyondSource
  else if targetLength < entry.toStop then some .beyondTarget
  else if entry.toStart < previous then some .overlap
  else none

abbrev Mapping := List MapEntry

namespace Mapping

def faultFrom? (sourceLength targetLength previous : Word) (index : Nat) :
    Mapping → Option (Nat × MapEntry × MapFault)
  | [] => none
  | entry :: rest =>
    match entry.fault? sourceLength targetLength previous with
    | some fault => some (index, entry, fault)
    | none => faultFrom? sourceLength targetLength entry.toStop (index + 1) rest

def firstFault? (mapping : Mapping) (sourceLength targetLength : Word) :
    Option (Nat × MapEntry × MapFault) :=
  faultFrom? sourceLength targetLength 0 0 mapping

def around (mapping : Mapping) (offset : Word) : Option MapEntry × Option MapEntry :=
  let next := partitionPoint (fun entry => entry.toStart ≤ offset) mapping
  (if next = 0 then none else mapping[next - 1]?, mapping[next]?)

def carry? (mapping : Mapping) (offset : Word) : Option Word :=
  match (mapping.around offset).1 with
  | some entry => if offset < entry.toStop then some (entry.interpolate offset) else none
  | none => none

/-- The source offset nearest to a target offset that no entry covers: the end of the entry before
it or the start of the entry after it, whichever is closer. The entry after it wins a tie, and
without entries the offset is kept up to the length of the source. -/
def nearest (mapping : Mapping) (sourceLength offset : Word) : Word :=
  match mapping.around offset with
  | (none, none) => min offset sourceLength
  | (none, some next) => next.fromStart
  | (some previous, none) => previous.fromStop
  | (some previous, some next) =>
    if offset - previous.toStop < next.toStart - offset then previous.fromStop
    else next.fromStart

end Mapping

end TextOrigin

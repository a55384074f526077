import TextOrigin.Bytes

/-!
Places in texts. Offsets and columns count bytes, rows count lines, and all three start at zero.
The length of a range is a difference of words: for a range whose ends are swapped it wraps.
-/

namespace TextOrigin

/-- Handle of a registered file. The greatest word is never issued and marks an unknown file. -/
structure FileId where
  value : UInt32
deriving DecidableEq, Repr

namespace FileId

def unknown : FileId := ⟨4294967295⟩

def isKnown (file : FileId) : Bool := file != unknown

end FileId

structure Position where
  offset : Word
  row : Word
  column : Word
deriving DecidableEq, Repr

def Position.zero : Position := ⟨0, 0, 0⟩

structure Range where
  start : Position
  stop : Position
deriving DecidableEq, Repr

namespace Range

/-- Only the offsets of the two ends are compared: rows and columns of a local range are zero. -/
def Valid (range : Range) : Prop := range.start.offset ≤ range.stop.offset

instance (range : Range) : Decidable range.Valid :=
  inferInstanceAs (Decidable (range.start.offset ≤ range.stop.offset))

def length (range : Range) : Word := range.stop.offset - range.start.offset

def ofLength (length : Word) : Range := ⟨Position.zero, ⟨length, 0, 0⟩⟩

theorem length_ofLength (n : Word) : (ofLength n).length = n := by
  simp [length, ofLength, Position.zero]

theorem toNat_length {range : Range} (h : range.Valid) :
    range.length.toNat = range.stop.offset.toNat - range.start.offset.toNat :=
  UInt64.toNat_sub_of_le _ _ h

theorem valid_ofLength (n : Word) : (ofLength n).Valid := by
  simp [Valid, ofLength, Position.zero]

end Range

structure Location where
  file : FileId
  position : Position
deriving DecidableEq, Repr

def Location.unknown : Location := ⟨FileId.unknown, Position.zero⟩

end TextOrigin

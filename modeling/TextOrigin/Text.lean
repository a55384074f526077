import TextOrigin.Bytes

/-!
Texts whose length a word can hold. The bound sits in the type, so that the size of a text, read
as a word, is its length and every offset inside it is exact.
-/

namespace TextOrigin

structure Text where
  bytes : Bytes
  length_lt : bytes.length < UInt64.size

namespace Text

def ofBytes? (bytes : Bytes) : Option Text :=
  if h : bytes.length < UInt64.size then some ⟨bytes, h⟩ else none

def size (text : Text) : Word :=
  UInt64.ofNat text.bytes.length

theorem toNat_size (text : Text) : text.size.toNat = text.bytes.length :=
  UInt64.toNat_ofNat_of_lt' text.length_lt

end Text

namespace Bytes

def slice (bytes : Bytes) (start length : Word) : Bytes :=
  (bytes.drop start.toNat).take length.toNat

theorem length_slice {bytes : Bytes} {start length : Word}
    (h : start.toNat + length.toNat ≤ bytes.length) :
    (slice bytes start length).length = length.toNat := by
  rw [slice, List.length_take, List.length_drop]
  omega

theorem length_slice_le (bytes : Bytes) (start length : Word) :
    (slice bytes start length).length ≤ length.toNat := by
  rw [slice, List.length_take]
  exact Nat.min_le_left _ _

theorem characterCount_slice_le (bytes : Bytes) (start length : Word) :
    (slice bytes start length).characterCount ≤ length.toNat :=
  Nat.le_trans (characterCount_le _) (length_slice_le bytes start length)

theorem getElem?_slice (bytes : Bytes) (start : Word) {length : Word} {i : Nat}
    (h : i < length.toNat) : (slice bytes start length)[i]? = bytes[start.toNat + i]? := by
  rw [slice, List.getElem?_take, if_pos h, List.getElem?_drop]

end Bytes

end TextOrigin

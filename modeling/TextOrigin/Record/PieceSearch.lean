import TextOrigin.Bisection
import TextOrigin.Record
import TextOrigin.Settings

/-!
Search for the piece of a concatenation that holds an offset. Short lists are scanned from the
front, longer ones are searched by halving. An offset on a boundary belongs to the piece that
starts there.
-/

namespace TextOrigin

namespace Piece

def stop {ρ : Type} (piece : Piece ρ) : Word := piece.offset + piece.length

def contains {ρ : Type} (piece : Piece ρ) (offset : Word) : Bool :=
  piece.offset ≤ offset && offset < piece.stop

def scan? {ρ : Type} (pieces : List (Piece ρ)) (offset : Word) : Option Nat :=
  pieces.findIdx? (·.contains offset)

/-- Index of the last piece that starts at or before `offset`, if that piece holds it. Where several
pieces start at one offset, only the last of them can be other than empty. -/
def bisect? {ρ : Type} (pieces : List (Piece ρ)) (offset : Word) : Option Nat :=
  match partitionPoint (fun piece => piece.offset ≤ offset) pieces with
  | 0 => none
  | last + 1 => if pieces[last]?.any (·.contains offset) then some last else none

def index? {ρ : Type} (settings : Settings) (pieces : List (Piece ρ)) (offset : Word) :
    Option Nat :=
  if pieces.length ≤ settings.scanLimit.toNat then scan? pieces offset
  else bisect? pieces offset

def at? {ρ : Type} (settings : Settings) (pieces : List (Piece ρ)) (offset : Word) :
    Option (Piece ρ) :=
  (index? settings pieces offset).bind (pieces[·]?)

def lastFilled? {ρ : Type} (pieces : List (Piece ρ)) : Option (Piece ρ) :=
  match pieces.reverse.find? (0 < ·.length) with
  | some piece => some piece
  | none => pieces.getLast?

theorem mem_of_at? {ρ : Type} {settings : Settings} {pieces : List (Piece ρ)} {offset : Word}
    {piece : Piece ρ} (h : at? settings pieces offset = some piece) : piece ∈ pieces := by
  obtain ⟨i, -, hi⟩ := Option.bind_eq_some_iff.1 h
  exact List.mem_of_getElem? hi

theorem mem_of_lastFilled? {ρ : Type} {pieces : List (Piece ρ)} {piece : Piece ρ}
    (h : lastFilled? pieces = some piece) : piece ∈ pieces := by
  unfold lastFilled? at h
  split at h
  · next last hlast =>
    obtain rfl := Option.some.inj h
    exact List.mem_reverse.1 (List.mem_of_find?_eq_some hlast)
  · exact List.mem_of_getLast? h

end Piece

end TextOrigin

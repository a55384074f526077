import TextOrigin.Bytes

/-!
Settings of resolution and of alignment, and the two ways to resolve an offset.
-/

namespace TextOrigin

structure Settings where
  /-- Whether resolution and alignment report their steps. -/
  trace : Bool := false
  /-- A concatenation of at most this many pieces is scanned; a longer one is searched by
  halving. -/
  scanLimit : Word := 8
  /-- Bound on the insertions and deletions that an alignment explores, which an even number of them
  may exceed by one; zero sets no bound. -/
  editLimit : Word := 0

/-- What becomes of an offset that no text covers: a strict resolution misses, and a closest one
goes to the nearest place that is covered. -/
inductive Mode where
  | strict
  | closest
deriving DecidableEq, Repr

end TextOrigin

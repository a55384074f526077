import TextOrigin.Proofs.Record.Arising
import TextOrigin.Proofs.Record.Descent

/-!
The limit up to which pieces are scanned. It decides how the piece of an offset is looked for at
every concatenation on a way down, and nothing else. While no total of lengths wraps, a scan and
halving find one piece, so no limit shows in what resolution returns or reports.
-/

namespace TextOrigin

theorem Piece.at?_with_scanLimit {ρ : Type} {pieces : List (Piece ρ)}
    (h : pieces.Pairwise Precedes) (settings : Settings) (limit offset : Word) :
    at? { settings with scanLimit := limit } pieces offset = at? settings pieces offset := by
  have hindex : ∀ s : Settings, index? s pieces offset = bisect? pieces offset := fun s => by
    rw [index?, scan?_eq_bisect? h, ite_self]
  rw [at?, at?, hindex, hindex]

namespace Record

theorem step_with_scanLimit {record : Record} (h : record.Arises) (htotals : record.TotalsFit)
    (settings : Settings) (limit : Word) (mode : Mode) (offset : Word) :
    record.step { settings with scanLimit := limit } mode offset =
      record.step settings mode offset := by
  rw [step, step]
  cases hlink : record.link with
  | concat pieces =>
    have hordered := h.pieces_ordered htotals hlink
    simp only [concatStep, Piece.at?_with_scanLimit hordered]
  | leaf file => rfl
  | substring parent start => rfl
  | transformed parent mapping => rfl

theorem descend_with_scanLimit {record : Record} (h : record.Arises) (htotals : record.TotalsFit)
    (settings : Settings) (limit : Word) (mode : Mode) (offset : Word) :
    record.descend { settings with scanLimit := limit } mode offset =
      record.descend settings mode offset := by
  rw [descend_eq, descend_eq, step_with_scanLimit h htotals]
  cases hstep : record.step settings mode offset with
  | miss => rfl
  | land file place => rfl
  | enter child inner =>
    -- The choice is made anew in every record that is entered.
    have hchild := mem_refs_of_step hstep
    simp only [descend_with_scanLimit (h.of_mem_refs hchild) (htotals.of_mem_refs hchild)]
termination_by record.height
decreasing_by exact height_lt_of_mem_refs hchild

/-- Settings that differ in the scan limit alone resolve every offset and every range of a record
to the same places and report the same lines. On pieces that lie back to back, a scan and halving
give the same index. -/
theorem resolve_with_scanLimit {record : Record} (h : record.Arises) (htotals : record.TotalsFit)
    (registry : Registry) (settings : Settings) (limit : Word) :
    (∀ mode offset, record.resolve registry { settings with scanLimit := limit } mode offset =
        record.resolve registry settings mode offset) ∧
      (∀ mode start stop,
        record.resolveRange registry { settings with scanLimit := limit } mode start stop =
          record.resolveRange registry settings mode start stop) ∧
      ∀ (pieces : List (Piece Record)) (start stop offset : Word),
        Piece.BackToBack start pieces stop →
        start.toNat + Piece.totalLength pieces < UInt64.size →
        Piece.scan? pieces offset = Piece.bisect? pieces offset := by
  have hresolve : ∀ mode offset,
      record.resolve registry { settings with scanLimit := limit } mode offset =
        record.resolve registry settings mode offset := fun mode offset => by
    simp only [resolve, descend_with_scanLimit h htotals]
  refine ⟨hresolve, fun mode start stop => ?_, fun pieces start stop offset hback hlt => ?_⟩
  · simp only [resolveRange, hresolve]
  · exact Piece.scan?_eq_bisect? (hback.pairwise hlt) offset

end Record

/-! A concatenation with empty pieces at its start, in the middle and at its end, rebuilt from a
pool. -/

namespace Spaced

def pool : Pool := #[
  Entry.ofLink ⟨⟨1, 0, 1⟩, ⟨6, 0, 6⟩⟩ (.leaf ⟨0⟩),
  Entry.ofLink (Range.ofLength 5)
    (.concat [⟨0, 0, 0⟩, ⟨0, 0, 2⟩, ⟨0, 2, 0⟩, ⟨0, 2, 3⟩, ⟨0, 5, 0⟩])]

def line : Record := Record.leaf ⟨4⟩ ⟨0⟩ ⟨⟨1, 0, 1⟩, ⟨6, 0, 6⟩⟩

def pieces : List (Piece Record) :=
  [⟨line, 0, 0⟩, ⟨line, 0, 2⟩, ⟨line, 2, 0⟩, ⟨line, 2, 3⟩, ⟨line, 5, 0⟩]

def joined : Record := .mk ⟨5⟩ (Range.ofLength 5) (.concat pieces)

theorem decode_pool : pool.decode none ⟨4⟩ = .ok (#[line, joined], ⟨6⟩) := rfl

theorem totalsFit_joined : joined.TotalsFit := by
  have hline : line.TotalsFit :=
    Record.totalsFit_iff.2 (by simp [line, Record.leaf, Record.link, Link.refs])
  refine Record.totalsFit_iff.2 ⟨fun other hlink => ?_, fun child hchild => ?_⟩
  · obtain rfl : pieces = other := Link.concat.inj hlink
    decide
  · obtain rfl : child = line := by
      simpa [joined, pieces, Record.link, Link.refs] using hchild
    exact hline

end Spaced

theorem Record.resolve_with_scanLimit_spaced :
    Spaced.joined.Arises ∧ Spaced.joined.TotalsFit ∧
      (Spaced.joined.resolve Registry.empty { trace := true, scanLimit := 0 } .strict 2).lines =
        [ascii "[lineage] resolve concat local=2", ascii "[lineage]   resolve original local=0"] ∧
      Spaced.joined.resolve Registry.empty { trace := true, scanLimit := 0 } .strict 2 =
        Spaced.joined.resolve Registry.empty { trace := true, scanLimit := 9 } .strict 2 ∧
      Piece.scan? Spaced.pieces 2 = some 3 ∧ Piece.bisect? Spaced.pieces 2 = some 3 := by
  have harises : Spaced.joined.Arises := .rebuilt Spaced.decode_pool (by simp)
  obtain ⟨hresolve, -, hsearch⟩ := Record.resolve_with_scanLimit harises Spaced.totalsFit_joined
    Registry.empty { trace := true, scanLimit := 9 } 0
  have hscan : Piece.scan? Spaced.pieces 2 = some 3 := by decide
  refine ⟨harises, Spaced.totalsFit_joined, ?_, hresolve .strict 2, hscan, ?_⟩
  · decide +kernel
  · rw [← hsearch Spaced.pieces 0 5 2 (by simp [Spaced.pieces, Piece.BackToBack]) (by decide), hscan]

end TextOrigin

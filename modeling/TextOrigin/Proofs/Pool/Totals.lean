import TextOrigin.Proofs.Pool.Rules

/-!
Totals of concatenations. A builder and the rules of pools add up the lengths of pieces in words and
refuse no sum, so the length that comes out is the number of bytes only up to whole turns of a word. It
is the number itself exactly if that number fits a word, and then the pieces lie in order and share the
bytes out among them, each byte to one piece. Main statement: `concat_total`.
-/

namespace TextOrigin

namespace Piece

variable {ρ : Type} {start stop length : Word} {pieces : List (Piece ρ)}

theorem BackToBack.toNat_stop_mod (h : BackToBack start pieces stop) :
    stop.toNat = (start.toNat + totalLength pieces) % UInt64.size := by
  induction pieces generalizing start with
  | nil =>
    obtain rfl : start = stop := h
    rw [totalLength, Nat.add_zero, Nat.mod_eq_of_lt start.toNat_lt_size]
  | cons piece rest ih =>
    have hadd : (start + piece.length).toNat =
        (start.toNat + piece.length.toNat) % UInt64.size :=
      UInt64.toNat_add start piece.length
    rw [ih h.2, hadd, Nat.mod_add_mod, totalLength, Nat.add_assoc]

def Spans (piece : Piece ρ) (offset : Word) : Prop :=
  piece.offset.toNat ≤ offset.toNat ∧
    offset.toNat < piece.offset.toNat + piece.length.toNat

/-- Pieces in order that share out the offsets below a length, each offset to one piece. -/
structure SharesOut (pieces : List (Piece ρ)) (length : Word) : Prop where
  sorted : pieces.Pairwise fun piece next => piece.offset ≤ next.offset
  spans : ∀ offset, offset < length → ∃ (i : Nat) (piece : Piece ρ), pieces[i]? = some piece ∧
    piece.Spans offset ∧
    ∀ (j : Nat) (other : Piece ρ), pieces[j]? = some other → other.Spans offset → j = i

/-- What the length of a concatenation says of the total of its pieces. -/
structure Totals (pieces : List (Piece ρ)) (length : Word) : Prop where
  length_eq : length.toNat = totalLength pieces % UInt64.size
  exact_iff : length.toNat = totalLength pieces ↔ totalLength pieces < UInt64.size
  sharesOut : totalLength pieces < UInt64.size → SharesOut pieces length

theorem BackToBack.contains_iff (h : BackToBack start pieces stop)
    (hlt : start.toNat + totalLength pieces < UInt64.size) {piece : Piece ρ}
    (hpiece : piece ∈ pieces) {offset : Word} :
    piece.contains offset = true ↔ piece.Spans offset := by
  rw [contains, Bool.and_eq_true, decide_eq_true_eq, decide_eq_true_eq, UInt64.le_iff_toNat_le,
    UInt64.lt_iff_toNat_lt, h.toNat_piece_stop hlt hpiece, Spans]

theorem not_contains_of_precedes {first second : Piece ρ} {offset : Word}
    (h : first.Precedes second) (hfirst : first.contains offset = true) :
    ¬ second.contains offset = true := by
  simp only [contains, Bool.and_eq_true, decide_eq_true_eq] at hfirst ⊢
  intro hsecond
  exact UInt64.not_lt.2 (UInt64.le_trans h.2 hsecond.1) hfirst.2

theorem BackToBack.sharesOut (h : BackToBack 0 pieces length)
    (hlt : totalLength pieces < UInt64.size) : SharesOut pieces length := by
  have hlt' : (0 : Word).toNat + totalLength pieces < UInt64.size := by
    rwa [UInt64.toNat_zero, Nat.zero_add]
  have hordered := h.pairwise hlt'
  refine ⟨hordered.imp fun hprecedes => UInt64.le_trans hprecedes.1 hprecedes.2,
    fun offset hoffset => ?_⟩
  obtain ⟨piece, hpiece, hcontains⟩ := h.exists_contains UInt64.zero_le hoffset
  obtain ⟨i, hi⟩ := List.mem_iff_getElem?.1 hpiece
  refine ⟨i, piece, hi, (h.contains_iff hlt' hpiece).1 hcontains, fun j other hj hspans => ?_⟩
  have hother := (h.contains_iff hlt' (List.mem_of_getElem? hj)).2 hspans
  exact eq_of_pairwise_not hordered (fun _ _ => not_contains_of_precedes) hj hi hother hcontains

theorem BackToBack.totals (h : BackToBack 0 pieces length) : Totals pieces length := by
  have hlength : length.toNat = totalLength pieces % UInt64.size := by
    rw [h.toNat_stop_mod, UInt64.toNat_zero, Nat.zero_add]
  refine ⟨hlength, ⟨fun heq => ?_, fun hlt => ?_⟩, h.sharesOut⟩
  · rw [← heq]
    exact length.toNat_lt_size
  · rw [hlength, Nat.mod_eq_of_lt hlt]

end Piece

namespace Pool

/-- A builder that succeeds, and an entry of a pool that breaks no rule, concatenate pieces to their
total, reduced by whole turns of a word. Exactly the totals below a turn come out as they are, and
then each offset below the length lies in one piece. -/
theorem concat_total (node : NodeId) (contributions : List (Record × Word)) (pool : Pool)
    (files? : Option Registry) (id : Nat) (entry : Entry) (pieces : List (Piece EntryId)) :
    (∀ record, Record.concat node contributions = .ok record →
        ∃ laid, record.link = .concat laid ∧
          laid.map (fun piece => (piece.source, piece.length)) = contributions ∧
          Piece.Totals laid record.length) ∧
      (pool.fault? files? = none → pool[id]? = some entry →
        entry.link? = some (.concat pieces) → Piece.Totals pieces entry.length) := by
  constructor
  · intro record hbuilt
    obtain ⟨laid, total, hlaid, hback, -, rfl⟩ := Record.concat_eq_ok_iff.1 hbuilt
    refine ⟨laid, rfl, hlaid, ?_⟩
    rw [Record.length_mk_ofLength]
    exact hback.totals
  · intro hfault hentry hlink
    obtain ⟨link, hlink', -, hfits⟩ := exists_link?_of_fault?_eq_none hfault hentry
    obtain rfl := Option.some.inj (hlink'.symm.trans hlink)
    exact hfits.1.totals

/-! A text taken in part, with a piece of no length between, and a file of half a turn of a word. -/

namespace Overfull

def line : Record := Record.leaf ⟨0⟩ ⟨0⟩ ⟨⟨4, 0, 4⟩, ⟨9, 0, 9⟩⟩

def laid : List (Piece Record) := [⟨line, 0, 2⟩, ⟨line, 2, 0⟩, ⟨line, 2, 5⟩]

def laidPool : Pool := #[
  Entry.ofLink line.range (.leaf ⟨0⟩),
  Entry.ofLink (Range.ofLength 7) (.concat [⟨0, 0, 2⟩, ⟨0, 2, 0⟩, ⟨0, 2, 5⟩])]

def half : Record :=
  Record.leaf ⟨0⟩ ⟨0⟩ ⟨Position.zero, ⟨9223372036854775808, 0, 9223372036854775808⟩⟩

def wrapped : List (Piece Record) :=
  [⟨half, 0, 9223372036854775808⟩, ⟨half, 9223372036854775808, 9223372036854775808⟩, ⟨half, 0, 5⟩]

def pool : Pool := #[
  Entry.ofLink half.range (.leaf ⟨0⟩),
  Entry.ofLink (Range.ofLength 5) (.concat [⟨0, 0, 9223372036854775808⟩,
    ⟨0, 9223372036854775808, 9223372036854775808⟩, ⟨0, 0, 5⟩])]

end Overfull

theorem concat_total_laid :
    Record.concat ⟨1⟩ [(Overfull.line, 2), (Overfull.line, 0), (Overfull.line, 5)] =
        .ok (.mk ⟨1⟩ (Range.ofLength 7) (.concat Overfull.laid)) ∧
      Piece.Totals Overfull.laid 7 ∧ Piece.SharesOut Overfull.laid 7 ∧
      Overfull.laidPool.fault? none = none ∧
      Piece.Totals ([⟨0, 0, 2⟩, ⟨0, 2, 0⟩, ⟨0, 2, 5⟩] : List (Piece EntryId)) 7 := by
  have hbuilt : Record.concat ⟨1⟩ [(Overfull.line, 2), (Overfull.line, 0), (Overfull.line, 5)] =
      .ok (.mk ⟨1⟩ (Range.ofLength 7) (.concat Overfull.laid)) := rfl
  have hfault : Overfull.laidPool.fault? none = none := by decide
  obtain ⟨hrecord, hentry⟩ :=
    concat_total ⟨1⟩ [(Overfull.line, 2), (Overfull.line, 0), (Overfull.line, 5)]
      Overfull.laidPool none 1 _ _
  obtain ⟨pieces, hlink, -, htotals⟩ := hrecord _ hbuilt
  obtain rfl : Overfull.laid = pieces := Link.concat.inj hlink
  rw [Record.length_mk_ofLength] at htotals
  exact ⟨hbuilt, htotals, htotals.sharesOut (by decide), hfault, hentry hfault rfl rfl⟩

/-- Both the builder and the rules take pieces that go round once: their offsets go back to zero, and
offset 2 lies in the first piece and in the last one. -/
theorem concat_total_wraps :
    Record.concat ⟨1⟩ [(Overfull.half, 9223372036854775808), (Overfull.half, 9223372036854775808),
        (Overfull.half, 5)] = .ok (.mk ⟨1⟩ (Range.ofLength 5) (.concat Overfull.wrapped)) ∧
      Overfull.pool.fault? none = none ∧
      Piece.totalLength Overfull.wrapped = 18446744073709551621 ∧
      ¬ Overfull.wrapped.Pairwise (fun piece next => piece.offset ≤ next.offset) ∧
      (Overfull.wrapped.map fun piece => piece.contains 2) = [true, false, true] := by
  refine ⟨rfl, by decide +kernel, by decide, ?_, by decide⟩
  simp [Overfull.wrapped]

end Pool

end TextOrigin

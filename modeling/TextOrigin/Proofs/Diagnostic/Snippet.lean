import Mathlib.Data.UInt
import TextOrigin.Diagnostic
import TextOrigin.Proofs.Registry.DisplayColumns
import TextOrigin.Proofs.Registry.Lines

/-!
Snippets. Under the line of a diagnostic, as many spaces as characters start before its column are
followed by a caret for each character of its span, at least by one. The span ends with the line. Its
end is a sum of words: where it wraps, one caret is left. Main statement: `snippet_eq_underlined`.
-/

namespace TextOrigin

namespace Registry.RowStart

variable {registry : Registry} {file : FileId} {row column start : Word} {text : Text}
  (h : registry.RowStart file row text start)

include h

theorem add_length_line_le :
    start.toNat + (text.bytes.lineFrom start.toNat).length ≤ text.bytes.length := by
  have hstart := h.start_le
  rw [UInt64.le_iff_toNat_le, text.toNat_size] at hstart
  exact Bytes.add_length_lineFrom_le hstart

theorem toNat_length_line : (UInt64.ofNat (text.bytes.lineFrom start.toNat).length).toNat =
    (text.bytes.lineFrom start.toNat).length := by
  have hline := h.add_length_line_le
  have hsize := text.length_lt
  exact UInt64.toNat_ofNat_of_lt' (by omega)

theorem lineText?_eq : registry.lineText? file row = some (text.bytes.lineFrom start.toNat) := by
  rw [Registry.lineText?_eq h.content_eq, LineTable.getElem?_split_newline, h.start_eq,
    Option.map_some]

theorem exists_displayColumn? (hcolumn : column.toNat ≤ (text.bytes.lineFrom start.toNat).length) :
    ∃ value, registry.displayColumn? file row column = some value ∧
      value.toNat = Bytes.characterCount ((text.bytes.lineFrom start.toNat).take column.toNat) := by
  have hline := h.add_length_line_le
  have hsome : (registry.displayColumn? file row column).isSome :=
    h.isSome_displayColumn?_iff.2 (.inl (by omega))
  obtain ⟨value, hvalue⟩ := Option.isSome_iff_exists.1 hsome
  refine ⟨value, hvalue, ?_⟩
  rw [h.toNat_displayColumn? hvalue, Bytes.slice, Bytes.take_lineFrom hcolumn]

end Registry.RowStart

namespace Diagnostic

/-- A line, and under it carets behind a space for each character before a column. -/
def underlined (line : Bytes) (column carets : Nat) : Bytes :=
  line ++ [Bytes.newline] ++ List.replicate (Bytes.characterCount (line.take column)) Bytes.space ++
    List.replicate carets 94 ++ [Bytes.newline]

/-- Width of a span of a line: the number of characters that start in it, and at least one. -/
def spanWidth (line : Bytes) (column stop : Nat) : Nat :=
  max 1 (Bytes.characterCount ((line.take stop).drop column))

theorem underlined_inj {line : Bytes} {column first second : Nat} :
    underlined line column first = underlined line column second ↔ first = second := by
  constructor
  · intro h
    have hlength := congrArg List.length h
    simpa [underlined] using hlength
  · intro h
    rw [h]

theorem spanWidth_of_le {line : Bytes} {column stop : Nat} (h : stop ≤ column) :
    spanWidth line column stop = 1 := by
  have hnone : (line.take stop).drop column = [] := by
    apply List.drop_eq_nil_of_le
    rw [List.length_take]
    exact Nat.le_trans (Nat.min_le_left _ _) h
  rw [spanWidth, hnone]
  rfl

variable {registry : Registry} {file : FileId} {text : Text} {offset : Word}

theorem toNat_caretCount {position : Position} {start first : Word} {line : Bytes}
    (h : registry.RowStart file position.row text start)
    (hline : text.bytes.lineFrom start.toNat = line)
    (hfirst : first.toNat = Bytes.characterCount (line.take position.column.toNat))
    (severity : Severity) (message : Bytes) (length : Word) :
    (caretCount ⟨severity, message, ⟨file, position⟩, length⟩ registry (UInt64.ofNat line.length)
        first).toNat =
      spanWidth line position.column.toNat
        (min (position.column + length).toNat line.length) := by
  have hsize := h.toNat_length_line
  rw [hline] at hsize
  rw [caretCount]
  split
  · next hzero =>
    have hzero : length = 0 := hzero
    rw [hzero, UInt64.add_zero, spanWidth_of_le (Nat.min_le_left _ _)]
    rfl
  · have hstop : (min (position.column + length) (UInt64.ofNat line.length)).toNat =
        min (position.column + length).toNat line.length := by
      rw [UInt64.toNat_min, hsize]
    have hinside : (min (position.column + length) (UInt64.ofNat line.length)).toNat ≤
        (text.bytes.lineFrom start.toNat).length := by
      rw [hstop, hline]
      exact Nat.min_le_right _ _
    obtain ⟨last, hlast, hcount⟩ := h.exists_displayColumn? hinside
    rw [hline, hstop] at hcount
    simp only [hlast]
    rw [spanWidth, Bytes.characterCount_drop_take, ← hcount, ← hfirst]
    split
    · next hlt =>
      have hle := UInt64.toNat_sub_of_le _ _ (UInt64.le_of_lt hlt)
      rw [UInt64.lt_iff_toNat_lt] at hlt
      omega
    · next hge =>
      rw [UInt64.lt_iff_toNat_lt] at hge
      change 1 = _
      omega

theorem snippet_eq {position : Position} {start : Word} {line : Bytes}
    (h : registry.RowStart file position.row text start)
    (hline : text.bytes.lineFrom start.toNat = line) (hcolumn : position.column.toNat ≤ line.length)
    (severity : Severity) (message : Bytes) (length : Word) :
    snippet ⟨severity, message, ⟨file, position⟩, length⟩ registry =
      underlined line position.column.toNat (spanWidth line position.column.toNat
        (min (position.column + length).toNat line.length)) := by
  have hknown := Registry.isKnown_of_content? h.content_eq
  have htext := h.lineText?_eq
  obtain ⟨first, hfirst, hcount⟩ := h.exists_displayColumn? (hline ▸ hcolumn)
  rw [hline] at htext hcount
  rw [underlined, ← toNat_caretCount h hline hcount severity message length, ← hcount]
  simp only [snippet, hknown, htext, hfirst, if_true]

theorem spanWidth_eq_iff {line : Bytes} {column length : Word} (h : line.length < UInt64.size) :
    spanWidth line column.toNat (min (column + length).toNat line.length) =
        spanWidth line column.toNat (min (column.toNat + length.toNat) line.length) ↔
      column.toNat + length.toNat < UInt64.size ∨
        Bytes.characterCount (line.drop column.toNat) ≤ 1 := by
  rcases Nat.lt_or_ge (column.toNat + length.toNat) UInt64.size with hlt | hge
  · rw [toNat_add_of_lt hlt]
    exact iff_of_true rfl (.inl hlt)
  · have hlength := length.toNat_lt_size
    have hwrapped : min (column + length).toNat line.length ≤ column.toNat := by
      rw [toNat_add_of_le hge]
      omega
    have hwhole : min (column.toNat + length.toNat) line.length = line.length := by omega
    rw [spanWidth_of_le hwrapped, hwhole, spanWidth, List.take_length]
    omega

/-- At every offset of a retained text, a diagnostic shows the line around the offset and underlines
its span, the end of which is the sum of column and length as words. With the sum as a number the
picture is the same exactly if the sum does not wrap, or if no more than one character is left of the
line. -/
theorem snippet_eq_underlined (h : registry.content? file = some text) (hoffset : offset ≤ text.size) :
    ∃ position line, registry.positionAt? file offset = some position ∧
      registry.lineText? file position.row = some line ∧
      line = text.bytes.lineAround offset.toNat ∧
      ∀ severity message length,
        snippet ⟨severity, message, ⟨file, position⟩, length⟩ registry =
            underlined line position.column.toNat (spanWidth line position.column.toNat
              (min (position.column + length).toNat line.length)) ∧
          (snippet ⟨severity, message, ⟨file, position⟩, length⟩ registry =
              underlined line position.column.toNat (spanWidth line position.column.toNat
                (min (position.column.toNat + length.toNat) line.length)) ↔
            position.column.toNat + length.toNat < UInt64.size ∨
              Bytes.characterCount (line.drop position.column.toNat) ≤ 1) := by
  obtain ⟨position, hlocate⟩ : ∃ position, (LineTable.ofText text).locate? offset = some position :=
    LineTable.exists_locate? hoffset
  obtain ⟨start, hstart, -, hline, hcolumn⟩ := LineTable.exists_lineStart_of_locate? hlocate
  have hrow : registry.RowStart file position.row text start := ⟨h, hstart⟩
  have hsize : (text.bytes.lineAround offset.toNat).length < UInt64.size := by
    have hwithin := hrow.add_length_line_le
    have htext := text.length_lt
    rw [hline] at hwithin
    omega
  refine ⟨position, _, (Registry.positionAt?_of_content? h offset).trans hlocate,
    Registry.lineText?_of_locate? h hlocate, rfl, fun severity message length => ?_⟩
  have hsnippet := snippet_eq hrow hline hcolumn severity message length
  refine ⟨hsnippet, ?_⟩
  rw [hsnippet, underlined_inj]
  exact spanWidth_eq_iff hsize

theorem snippet_eq_underlined_carte :
    Registry.carte.content? ⟨0⟩ = some Registry.menu ∧ 8 ≤ Registry.menu.size ∧
      Registry.carte.positionAt? ⟨0⟩ 8 = some ⟨8, 1, 3⟩ ∧
      Registry.carte.lineText? ⟨0⟩ 1 = some (ascii "caf" ++ [0xC3, 0xA9] ++ ascii " noir") ∧
      snippet ⟨.error, [], ⟨⟨0⟩, ⟨8, 1, 3⟩⟩, 3⟩ Registry.carte =
        ascii "caf" ++ [0xC3, 0xA9] ++ ascii " noir\n   ^^\n" := by
  have hoffset : 8 ≤ Registry.menu.size := by decide
  have hplace : Registry.carte.positionAt? ⟨0⟩ 8 = some ⟨8, 1, 3⟩ := by decide +kernel
  have hcontent : Registry.carte.content? ⟨0⟩ = some Registry.menu := rfl
  obtain ⟨position, line, hposition, htext, hline, hsnippet⟩ :=
    snippet_eq_underlined hcontent hoffset
  obtain rfl : position = ⟨8, 1, 3⟩ := Option.some.inj (hposition.symm.trans hplace)
  obtain rfl : line = ascii "caf" ++ [0xC3, 0xA9] ++ ascii " noir" := hline.trans (by decide)
  refine ⟨hcontent, hoffset, hplace, htext, ?_⟩
  rw [(hsnippet _ _ _).1]
  decide

/-- A span that goes far past the end of the line is shown with one caret, not with the six that
reach to the end of the line. -/
theorem snippet_past_end :
    Registry.carte.positionAt? ⟨0⟩ 8 = some ⟨8, 1, 3⟩ ∧
      snippet ⟨.error, [], ⟨⟨0⟩, ⟨8, 1, 3⟩⟩, 18446744073709551615⟩ Registry.carte =
        ascii "caf" ++ [0xC3, 0xA9] ++ ascii " noir\n   ^\n" ∧
      underlined (Bytes.lineAround Registry.menu.bytes 8) 3
          (spanWidth (Bytes.lineAround Registry.menu.bytes 8) 3
            (min (3 + 18446744073709551615) (Bytes.lineAround Registry.menu.bytes 8).length)) =
        ascii "caf" ++ [0xC3, 0xA9] ++ ascii " noir\n   ^^^^^^\n" :=
  ⟨by decide +kernel, by decide +kernel, by decide⟩

end Diagnostic

end TextOrigin

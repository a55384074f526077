import TextOrigin.Proofs.LineTable.Lines
import TextOrigin.Registry

/-!
Lines of retained texts. A registry answers for each row of a file that retains its text, and for no
other row, with the part of the text between two newlines, so that all lines together are the text.
The line of a located offset holds the byte at the offset, or ends there. Main statement:
`lines_partition`.
-/

namespace TextOrigin.Registry

variable {registry : Registry} {file : FileId} {text : Text}

section Content

variable (h : registry.content? file = some text)

include h

theorem isKnown_of_content? : file.isKnown = true := by
  obtain ⟨path, hfile⟩ := content?_eq_some_iff.1 h
  rw [file?] at hfile
  split at hfile
  · assumption
  · contradiction

theorem lines?_of_content? : registry.lines? file = some (LineTable.ofText text) := by
  obtain ⟨path, hfile⟩ := content?_eq_some_iff.1 h
  rw [lines?, hfile]
  rfl

theorem positionAt?_of_content? (offset : Word) :
    registry.positionAt? file offset = (LineTable.ofText text).locate? offset := by
  rw [positionAt?, lines?_of_content? h]
  rfl

theorem lineText?_eq (row : Word) :
    registry.lineText? file row = (Bytes.split (· == Bytes.newline) text.bytes)[row.toNat]? := by
  obtain ⟨path, hfile⟩ := content?_eq_some_iff.1 h
  rw [LineTable.getElem?_split_newline, lineText?, hfile]
  cases hstart : (LineTable.ofText text).lineStart? row with
  | none => simp only [Backing.ofText, hstart, Option.map_none]
  | some start =>
    obtain ⟨stop, hstop⟩ := LineTable.exists_lineEnd? (LineTable.row_le_of_lineStart? hstart)
    simp only [Backing.ofText, hstart, hstop, Option.map_some, LineTable.slice_row hstart hstop]

theorem lineText?_of_locate? {offset : Word} {position : Position}
    (hlocate : (LineTable.ofText text).locate? offset = some position) :
    registry.lineText? file position.row = some (text.bytes.lineAround offset.toNat) := by
  obtain ⟨start, hstart, -, hline, -⟩ := LineTable.exists_lineStart_of_locate? hlocate
  rw [lineText?_eq h, LineTable.getElem?_split_newline, hstart, Option.map_some, hline]

end Content

/-- A file that retains its text has a line for each row below the number of lines. No line holds a
newline, and joined by newlines the lines are the text. Each offset before the end stands for the
byte at its column in the line of its row, or for the newline that ends this line. -/
theorem lines_partition (h : registry.content? file = some text) :
    registry.lines? file = some (LineTable.ofText text) ∧
      (∀ row, (registry.lineText? file row).isSome ↔
        row.toNat < (LineTable.ofText text).lineCount) ∧
      (∀ row line, registry.lineText? file row = some line → Bytes.newline ∉ line) ∧
      (∃ lines, (List.range (LineTable.ofText text).lineCount).map
          (fun row => registry.lineText? file (UInt64.ofNat row)) = lines.map some ∧
        Bytes.join Bytes.newline lines = text.bytes) ∧
      ∀ offset < text.size, ∃ position bytes, registry.positionAt? file offset = some position ∧
        registry.lineText? file position.row = some bytes ∧
        ∃ b, text.bytes[offset.toNat]? = some b ∧ (bytes[position.column.toNat]? = some b ∨
          b = Bytes.newline ∧ position.column.toNat = bytes.length) := by
  refine ⟨lines?_of_content? h, ?_, ?_, ?_, ?_⟩
  · intro row
    rw [lineText?_eq h, ← LineTable.length_split_newline, Option.isSome_iff_ne_none, ne_eq,
      List.getElem?_eq_none_iff, Nat.not_le]
  · intro row line hline
    rw [lineText?_eq h] at hline
    exact Bytes.notMem_of_mem_split (List.mem_of_getElem? hline)
  · have hlength := LineTable.length_split_newline text
    refine ⟨Bytes.split (· == Bytes.newline) text.bytes, ?_, Bytes.join_split _ _⟩
    refine List.ext_getElem (by simp [hlength]) fun row hrow _ => ?_
    rw [List.length_map, List.length_range] at hrow
    have hword := (LineTable.ofText text).toNat_ofNat_row (Nat.le_of_lt_succ hrow)
    rw [List.getElem_map, List.getElem_range, List.getElem_map, lineText?_eq h, hword]
    exact List.getElem?_eq_getElem (hlength ▸ hrow)
  · intro offset hlt
    have hbyte := List.getElem?_eq_getElem (text.toNat_size ▸ UInt64.lt_iff_toNat_lt.1 hlt)
    obtain ⟨position, hlocate⟩ : ∃ position, (LineTable.ofText text).locate? offset = some position :=
      LineTable.exists_locate? (UInt64.le_of_lt hlt)
    obtain ⟨start, -, hsum, hline, hcolumn⟩ := LineTable.exists_lineStart_of_locate? hlocate
    refine ⟨position, _, (positionAt?_of_content? h offset).trans hlocate,
      lineText?_of_locate? h hlocate, _, hbyte, ?_⟩
    rw [← hline] at hcolumn ⊢
    exact Bytes.getElem?_lineFrom_or hcolumn (hsum.symm ▸ hbyte)

/-! A text that starts with a newline, has an empty line and does not end its last line. -/

def pond : Text := ⟨ascii "\nreed\n\nfrog", by decide⟩

def shore : Registry := ⟨#[⟨ascii "pond", .ofText pond⟩], 1⟩

theorem lines_partition_pond :
    shore.content? ⟨0⟩ = some pond ∧ (shore.lineText? ⟨0⟩ 3).isSome = true ∧
      (shore.lineText? ⟨0⟩ 4).isSome = false ∧
      (∃ lines, (List.range 4).map (fun row => shore.lineText? ⟨0⟩ (UInt64.ofNat row)) =
          lines.map some ∧ Bytes.join Bytes.newline lines = pond.bytes) ∧
      5 < pond.size ∧ ∃ position bytes, shore.positionAt? ⟨0⟩ 5 = some position ∧
        shore.lineText? ⟨0⟩ position.row = some bytes ∧
        ∃ b, pond.bytes[5]? = some b ∧ (bytes[position.column.toNat]? = some b ∨
          b = Bytes.newline ∧ position.column.toNat = bytes.length) := by
  have hcontent : shore.content? ⟨0⟩ = some pond := rfl
  have hcount : (LineTable.ofText pond).lineCount = 4 := by decide
  have hlt : 5 < pond.size := by decide
  obtain ⟨-, hrows, -, hjoin, hbytes⟩ := lines_partition hcontent
  rw [hcount] at hrows hjoin
  exact ⟨hcontent, (hrows 3).2 (by decide), Bool.eq_false_iff.2 ((hrows 4).not.2 (by decide)), hjoin,
    hlt, hbytes 5 hlt⟩

end TextOrigin.Registry

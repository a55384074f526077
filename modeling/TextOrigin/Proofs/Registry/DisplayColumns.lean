import TextOrigin.Proofs.LineTable.Rows
import TextOrigin.Registry

/-!
Display columns. The display column of a byte column counts the characters that start in the bytes
before it on its row. It is never greater than the byte column and grows with it. A column is refused
if it reaches past the end of the text, and the bound is compared as a word: a column so great that
its offset wraps is accepted, and counts what is left of the text. Main statement:
`displayColumn?_within`.
-/

namespace TextOrigin.Registry

variable {registry : Registry} {file : FileId} {text : Text} {row column start value : Word}

/-- A file retains a text in which a row starts at an offset. -/
structure RowStart (registry : Registry) (file : FileId) (row : Word) (text : Text) (start : Word) :
    Prop where
  content_eq : registry.content? file = some text
  start_eq : (LineTable.ofText text).lineStart? row = some start

namespace RowStart

variable (h : registry.RowStart file row text start)

include h

theorem start_le : start ≤ text.size := LineTable.start_le_total h.start_eq

theorem displayColumn?_eq (column : Word) :
    registry.displayColumn? file row column =
      if text.size < start + column then none
      else some (UInt64.ofNat (Bytes.slice text.bytes start column).characterCount) := by
  obtain ⟨path, hfile⟩ := content?_eq_some_iff.1 h.content_eq
  rw [displayColumn?, hfile]
  simp only [Backing.ofText, h.start_eq]

theorem add_le_size_iff : start + column ≤ text.size ↔
    start.toNat + column.toNat ≤ text.bytes.length ∨
      UInt64.size ≤ start.toNat + column.toNat := by
  have hstart := h.start_le
  have hsize := text.length_lt
  have hcolumn := column.toNat_lt_size
  rw [UInt64.le_iff_toNat_le, text.toNat_size] at hstart ⊢
  rcases Nat.lt_or_ge (start.toNat + column.toNat) UInt64.size with hlt | hge
  · rw [toNat_add_of_lt hlt]
    omega
  · rw [toNat_add_of_le hge]
    omega

theorem isSome_displayColumn?_iff : (registry.displayColumn? file row column).isSome ↔
    start.toNat + column.toNat ≤ text.bytes.length ∨
      UInt64.size ≤ start.toNat + column.toNat := by
  rw [← h.add_le_size_iff, h.displayColumn?_eq, ← UInt64.not_lt]
  split
  · next hlt => simp [hlt]
  · next hle => simp [hle]

theorem toNat_displayColumn? (hvalue : registry.displayColumn? file row column = some value) :
    value.toNat = (Bytes.slice text.bytes start column).characterCount := by
  rw [h.displayColumn?_eq] at hvalue
  split at hvalue
  · contradiction
  · obtain rfl := Option.some.inj hvalue
    have hcount := Bytes.characterCount_slice_le text.bytes start column
    exact UInt64.toNat_ofNat_of_lt' (Nat.lt_of_le_of_lt hcount column.toNat_lt_size)

theorem length_slice_eq_iff (hbound : start.toNat + column.toNat ≤ text.bytes.length ∨
    UInt64.size ≤ start.toNat + column.toNat) :
    (Bytes.slice text.bytes start column).length = column.toNat ↔
      start.toNat + column.toNat < UInt64.size := by
  have hstart := h.start_le
  have hsize := text.length_lt
  rw [UInt64.le_iff_toNat_le, text.toNat_size] at hstart
  constructor
  · -- A slice ends in the text, so a column that is met in full ends there too.
    intro hfull
    have hrest : (Bytes.slice text.bytes start column).length ≤ text.bytes.length - start.toNat := by
      rw [Bytes.slice, List.length_take, List.length_drop]
      exact Nat.min_le_right _ _
    omega
  · intro hlt
    exact Bytes.length_slice (hbound.resolve_right (Nat.not_le.2 hlt))

end RowStart

theorem exists_rowStart_of_displayColumn?
    (h : registry.displayColumn? file row column = some value) :
    ∃ text start, registry.RowStart file row text start := by
  rw [displayColumn?] at h
  split at h
  · next path content lines lines_eq hfile =>
    split at h
    · next start hstart =>
      refine ⟨content, start, ?_, lines_eq ▸ hstart⟩
      rw [content?, hfile]
      rfl
    · contradiction
  · contradiction

/-- Display columns of any position, also of one that no lookup returned. A column is found if the
text has the row and the column ends in the text, or if its offset wraps. What is found counts the
characters that start in the bytes before the column; these bytes are as many as the column says
unless the offset wraps. The count is at most the column, and grows with it. -/
theorem displayColumn?_within (registry : Registry) (file : FileId) (row column : Word) :
    ((registry.displayColumn? file row column).isSome ↔
      ∃ text start, registry.RowStart file row text start ∧
        (start.toNat + column.toNat ≤ text.bytes.length ∨
          UInt64.size ≤ start.toNat + column.toNat)) ∧
      ∀ value text start, registry.displayColumn? file row column = some value →
        registry.RowStart file row text start →
          value.toNat = (Bytes.slice text.bytes start column).characterCount ∧
            ((Bytes.slice text.bytes start column).length = column.toNat ↔
              start.toNat + column.toNat < UInt64.size) ∧
            value ≤ column ∧
            ∀ later next, column ≤ later →
              registry.displayColumn? file row later = some next → value ≤ next := by
  constructor
  · constructor
    · intro hsome
      obtain ⟨value, hvalue⟩ := Option.isSome_iff_exists.1 hsome
      obtain ⟨text, start, hrow⟩ := exists_rowStart_of_displayColumn? hvalue
      exact ⟨text, start, hrow, hrow.isSome_displayColumn?_iff.1 hsome⟩
    · intro hwithin
      obtain ⟨text, start, hrow, hbound⟩ := hwithin
      exact hrow.isSome_displayColumn?_iff.2 hbound
  · intro value text start hvalue hrow
    have hcount := hrow.toNat_displayColumn? hvalue
    have hbound := hrow.isSome_displayColumn?_iff.1 (Option.isSome_iff_exists.2 ⟨value, hvalue⟩)
    refine ⟨hcount, hrow.length_slice_eq_iff hbound, ?_, ?_⟩
    · rw [UInt64.le_iff_toNat_le, hcount]
      exact Bytes.characterCount_slice_le _ _ _
    · -- A later column counts in a longer slice from the same start.
      intro later next hle hnext
      rw [UInt64.le_iff_toNat_le] at hle ⊢
      rw [hcount, hrow.toNat_displayColumn? hnext]
      exact Bytes.characterCount_take_mono _ hle

/-! Two lines with a character of two bytes each, the second one inside its line. -/

def menu : Text :=
  ⟨ascii "th" ++ [0xC3, 0xA9] ++ ascii "\ncaf" ++ [0xC3, 0xA9] ++ ascii " noir", by decide⟩

def carte : Registry := ⟨#[⟨ascii "carte", .ofText menu⟩], 1⟩

theorem rowStart_carte : carte.RowStart ⟨0⟩ 1 menu 5 := ⟨rfl, by decide⟩

theorem displayColumn?_within_carte :
    carte.displayColumn? ⟨0⟩ 1 4 = some 4 ∧ carte.RowStart ⟨0⟩ 1 menu 5 ∧
      (4 : Word).toNat = (Bytes.slice menu.bytes 5 4).characterCount ∧
      ((Bytes.slice menu.bytes 5 4).length = (4 : Word).toNat ↔
        (5 : Word).toNat + (4 : Word).toNat < UInt64.size) ∧
      carte.displayColumn? ⟨0⟩ 1 10 = some 9 ∧ (4 : Word) ≤ 9 ∧
      (carte.displayColumn? ⟨0⟩ 1 10).isSome = true := by
  have hinside : carte.displayColumn? ⟨0⟩ 1 4 = some 4 := by decide
  have hend : carte.displayColumn? ⟨0⟩ 1 10 = some 9 := by decide
  obtain ⟨hcount, hlength, -, hgrows⟩ :=
    (displayColumn?_within carte ⟨0⟩ 1 4).2 4 menu 5 hinside rowStart_carte
  exact ⟨hinside, rowStart_carte, hcount, hlength, hend, hgrows 10 9 (by decide) hend,
    (displayColumn?_within carte ⟨0⟩ 1 10).1.2 ⟨menu, 5, rowStart_carte, .inl (by decide)⟩⟩

/-- A column far past the end of the text is answered with all that is left of the text. -/
theorem displayColumn?_past_end :
    carte.displayColumn? ⟨0⟩ 1 18446744073709551615 = some 9 ∧
      carte.RowStart ⟨0⟩ 1 menu 5 ∧
      ¬ (5 : Word).toNat + (18446744073709551615 : Word).toNat ≤ menu.bytes.length ∧
      (Bytes.slice menu.bytes 5 18446744073709551615).length ≠
        (18446744073709551615 : Word).toNat :=
  ⟨by decide, rowStart_carte, by decide, by decide⟩

end TextOrigin.Registry

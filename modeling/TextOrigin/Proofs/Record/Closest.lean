import TextOrigin.Proofs.Record.Graph
import TextOrigin.Proofs.Record.Descent

/-!
Closest resolution. A step of a closest descent misses nowhere but at a concatenation without
pieces: whatever the offset, a leaf clamps it to its own range and every other link hands some offset
on to a record of lesser height. So the descent ends in a leaf, at a place of the leaf's range, and
neither wrapped offsets on the way nor the bounds of the links in between matter to that.
-/

namespace TextOrigin

theorem Piece.exists_lastFilled? {ρ : Type} {pieces : List (Piece ρ)} (h : pieces ≠ []) :
    ∃ piece, lastFilled? pieces = some piece := by
  rw [lastFilled?]
  cases pieces.reverse.find? (fun piece => 0 < piece.length) with
  | some piece => exact ⟨piece, rfl⟩
  | none => exact ⟨pieces.getLast h, List.getLast?_eq_some_getLast h⟩

namespace Record

theorem exists_clamp?_closest (record : Record) (offset : Word) :
    ∃ inside, record.clamp? .closest offset = some inside ∧ inside ≤ record.length := by
  rw [clamp?]
  split
  · next hle => exact ⟨offset, rfl, hle⟩
  · exact ⟨record.length, rfl, UInt64.le_refl _⟩

theorem step_closest {record : Record} (hfilled : record.link ≠ .concat []) (settings : Settings)
    (offset : Word) :
    (∃ file inside, record.link = .leaf file ∧ inside ≤ record.length ∧
        record.step settings .closest offset = .land file (record.range.start.offset + inside)) ∨
      ∃ child inner, record.step settings .closest offset = .enter child inner := by
  obtain ⟨inside, hclamp, hinside⟩ := record.exists_clamp?_closest offset
  rw [step]
  cases hlink : record.link with
  | leaf file => exact .inl ⟨file, inside, rfl, hinside, by simp only [hclamp]⟩
  | substring parent start => exact .inr ⟨parent, inside + start, by simp only [hclamp]⟩
  | concat pieces =>
    right
    simp only [concatStep]
    cases Piece.at? settings pieces offset with
    | some piece => exact ⟨piece.source, offset - piece.offset, rfl⟩
    | none =>
      have hpieces : pieces ≠ [] := fun hnil => hfilled (by rw [hlink, hnil])
      obtain ⟨piece, hlast⟩ := Piece.exists_lastFilled? hpieces
      exact ⟨piece.source, piece.length, by simp only [hlast]⟩
  | transformed parent mapping =>
    right
    simp only [transformedStep]
    cases mapping.carry? offset with
    | some inner => exact ⟨parent, inner, rfl⟩
    | none => exact ⟨parent, mapping.nearest parent.length offset, rfl⟩

/-- Every concatenation below has pieces, and every leaf below is a slice of a file with a line
table. -/
def Grounded (registry : Registry) (record : Record) : Prop :=
  ∀ other ∈ record.subrecords, other.link ≠ .concat [] ∧
    ∀ file, other.link = .leaf file → other.range.Valid ∧
      ∃ lines, registry.lines? file = some lines ∧ other.range.stop.offset ≤ lines.total

theorem grounded_iff {registry : Registry} {record : Record} :
    Grounded registry record ↔
      (record.link ≠ .concat [] ∧
        ∀ file, record.link = .leaf file → record.range.Valid ∧
          ∃ lines, registry.lines? file = some lines ∧ record.range.stop.offset ≤ lines.total) ∧
        ∀ child ∈ record.link.refs, Grounded registry child :=
  forall_subrecords

theorem Grounded.landing_closest {registry : Registry} {record : Record}
    (h : Grounded registry record) (settings : Settings) (offset : Word) :
    ∃ leaf ∈ record.subrecords, ∃ file inside, leaf.link = .leaf file ∧ inside ≤ leaf.length ∧
      (record.descend settings .closest offset).landing =
        some (file, leaf.range.start.offset + inside) := by
  obtain ⟨⟨hfilled, -⟩, hbelow⟩ := grounded_iff.1 h
  rw [landing_descend]
  rcases step_closest hfilled settings offset with
    ⟨file, inside, hlink, hinside, hstep⟩ | ⟨child, inner, hstep⟩
  · exact ⟨record, record.self_mem_subrecords, file, inside, hlink, hinside, by rw [hstep]⟩
  · have hchild := mem_refs_of_step hstep
    obtain ⟨leaf, hleaf, file, inside, hlink, hinside, hlanding⟩ :=
      (hbelow child hchild).landing_closest settings inner
    refine ⟨leaf, mem_subrecords_of_mem_refs hchild hleaf, file, inside, hlink, hinside, ?_⟩
    rw [hstep]
    exact hlanding
termination_by record.height
decreasing_by exact height_lt_of_mem_refs hchild

/-- Whatever the offset, a closest resolution gives a place of a leaf below, from its start to its
end, with the row and the column that the leaf's file has there. Nothing is asked of how the record
was made. -/
theorem resolve_closest_in_leaf {registry : Registry} {record : Record}
    (h : Grounded registry record) (settings : Settings) (offset : Word) :
    ∃ leaf ∈ record.subrecords, ∃ file position, leaf.link = .leaf file ∧
      (record.resolve registry settings .closest offset).value = some ⟨file, position⟩ ∧
      leaf.range.start.offset ≤ position.offset ∧ position.offset ≤ leaf.range.stop.offset ∧
      registry.positionAt? file position.offset = some position := by
  obtain ⟨leaf, hleaf, file, inside, hlink, hinside, hlanding⟩ :=
    h.landing_closest settings offset
  obtain ⟨-, hfile⟩ := h leaf hleaf
  obtain ⟨hvalid, lines, hlines, htotal⟩ := hfile file hlink
  obtain ⟨hstart, hstop⟩ := Range.start_add_mem hvalid hinside
  obtain ⟨position, hposition⟩ :=
    Registry.exists_positionAt? hlines (UInt64.le_trans hstop htotal)
  have hoffset := Registry.positionAt?_offset hposition
  refine ⟨leaf, hleaf, file, position, hlink, ?_, ?_, ?_, ?_⟩
  · rw [value_resolve, hlanding, Option.bind_some, Registry.place?_of_positionAt? hposition]
  · rwa [hoffset]
  · rwa [hoffset]
  · rwa [hoffset]

end Record

/-! A transformed text without any mapping, made from pieces that contribute nothing. -/

namespace Emptied

def files : Registry :=
  (Registry.empty.add (ascii "note") (Backing.ofText ⟨ascii "a\nbcd", by decide⟩)).value.2

def line : Record := Record.leaf ⟨0⟩ ⟨0⟩ ⟨⟨2, 1, 0⟩, ⟨5, 1, 3⟩⟩

def cut : Record := .mk ⟨1⟩ (Range.ofLength 2) (.substring line 1)

def blank : Record := .mk ⟨2⟩ (Range.ofLength 0) (.concat [⟨line, 0, 0⟩, ⟨cut, 0, 0⟩])

def answer : Record := .mk ⟨3⟩ (Range.ofLength 7) (.transformed blank [])

theorem grounded_answer : Record.Grounded files answer := by
  have hline : Record.Grounded files line := by
    refine Record.grounded_iff.2 ⟨⟨by simp [line, Record.leaf, Record.link], ?_⟩, by
      simp [line, Record.leaf, Record.link, Link.refs]⟩
    intro file hlink
    obtain rfl : ⟨0⟩ = file := Link.leaf.inj hlink
    exact ⟨by decide, _, rfl, by decide⟩
  have hcut : Record.Grounded files cut :=
    Record.grounded_iff.2 ⟨by simp [cut, Record.link], by simp [cut, Record.link, Link.refs, hline]⟩
  have hblank : Record.Grounded files blank :=
    Record.grounded_iff.2 ⟨by simp [blank, Record.link],
      by simp [blank, Record.link, Link.refs, hline, hcut]⟩
  exact Record.grounded_iff.2 ⟨by simp [answer, Record.link],
    by simp [answer, Record.link, Link.refs, hblank]⟩

end Emptied

theorem Record.resolve_closest_in_leaf_emptied :
    Record.Grounded Emptied.files Emptied.answer ∧
      (Emptied.answer.resolve Emptied.files {} .closest 18446744073709551615).value =
        some ⟨⟨0⟩, 3, 1, 1⟩ ∧
      ∃ leaf ∈ Emptied.answer.subrecords, leaf.link = .leaf ⟨0⟩ ∧
        leaf.range.start.offset ≤ 3 ∧ 3 ≤ leaf.range.stop.offset := by
  have hvalue : (Emptied.answer.resolve Emptied.files {} .closest 18446744073709551615).value =
      some ⟨⟨0⟩, 3, 1, 1⟩ := by
    decide +kernel
  obtain ⟨leaf, hleaf, file, position, hlink, hresolve, hstart, hstop, -⟩ :=
    Record.resolve_closest_in_leaf Emptied.grounded_answer {} 18446744073709551615
  rw [hvalue] at hresolve
  cases hresolve
  exact ⟨Emptied.grounded_answer, hvalue, leaf, hleaf, hlink, hstart, hstop⟩

end TextOrigin

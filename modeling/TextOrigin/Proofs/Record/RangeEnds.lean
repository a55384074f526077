import TextOrigin.Proofs.Record.Descent
import TextOrigin.Proofs.Record.Graph

/-!
The ends of ranges. What an offset resolves to is a place of its file, in either mode: an offset up
to the end of the file, with the row and the column there. A range starts at such a place. It ends
one byte after the place of its last offset, and this is a place of the file again as long as there
is another byte. Where the last offset was clamped to the end of a file there is none, and the range
ends one byte after the end of the file. Main statement: `resolveRange_ends`.
-/

namespace TextOrigin

/-- A location that is a place of its file: an offset up to the end of the file, with the row and
the column that the line table gives. -/
def Location.InFile (registry : Registry) (location : Location) : Prop :=
  ∃ lines, registry.lines? location.file = some lines ∧
    location.position.offset ≤ lines.total ∧
    lines.locate? location.position.offset = some location.position

theorem Location.inFile_iff {registry : Registry} {location : Location} :
    location.InFile registry ↔
      registry.positionAt? location.file location.position.offset = some location.position := by
  constructor
  · rintro ⟨lines, hlines, -, hlocate⟩
    rw [Registry.positionAt?, hlines, Option.bind_some, hlocate]
  · intro h
    obtain ⟨lines, hlines, hlocate⟩ := Option.bind_eq_some_iff.1 h
    exact ⟨lines, hlines, (LineTable.offset_of_locate? hlocate).1, hlocate⟩

theorem Location.inFile_of_locate? {registry : Registry} {file : FileId} {lines : LineTable}
    (hlines : registry.lines? file = some lines) {offset : Word} {position : Position}
    (h : lines.locate? offset = some position) : Location.InFile registry ⟨file, position⟩ := by
  obtain ⟨hle, hoffset⟩ := LineTable.offset_of_locate? h
  refine ⟨lines, hlines, ?_, ?_⟩
  · rwa [hoffset]
  · rw [hoffset]
    exact h

theorem Registry.place?_inFile {registry : Registry} {mode : Mode} {file : FileId}
    {offset : Word} {location : Location} (h : registry.place? mode file offset = some location) :
    location.InFile registry ∧ location.file = file ∧ location.position.offset ≤ offset := by
  obtain ⟨position, hposition, rfl⟩ := Option.map_eq_some_iff.1 h
  cases hexact : registry.positionAt? file offset with
  | some exact =>
    obtain rfl : exact = position := by simpa [hexact] using hposition
    obtain ⟨lines, hlines, hlocate⟩ := Option.bind_eq_some_iff.1 hexact
    have hoffset := (LineTable.offset_of_locate? hlocate).2
    exact ⟨Location.inFile_of_locate? hlines hlocate, rfl, UInt64.le_of_eq hoffset⟩
  | none =>
    cases mode with
    | strict => simp [hexact] at hposition
    | closest =>
      simp only [hexact] at hposition
      obtain ⟨lines, hlines, hlocate⟩ := Option.bind_eq_some_iff.1 hposition
      have hoffset := (LineTable.offset_of_locate? hlocate).2
      refine ⟨Location.inFile_of_locate? hlines hlocate, rfl, ?_⟩
      rw [hoffset]
      exact Std.min_le_left

namespace Record

theorem inFile_of_resolve {registry : Registry} {settings : Settings} {mode : Mode}
    {record : Record} {offset : Word} {location : Location}
    (h : (record.resolve registry settings mode offset).value = some location) :
    location.InFile registry := by
  rw [value_resolve] at h
  obtain ⟨landing, -, hplace⟩ := Option.bind_eq_some_iff.1 h
  exact (Registry.place?_inFile hplace).1

theorem nextLocation_eq (registry : Registry) (location : Location) :
    nextLocation registry location =
      ⟨location.file, (registry.positionAt? location.file (location.position.offset + 1)).getD
        ⟨location.position.offset + 1, location.position.row, location.position.column + 1⟩⟩ := by
  rw [nextLocation]
  cases registry.positionAt? location.file (location.position.offset + 1) <;> rfl

theorem file_nextLocation (registry : Registry) (location : Location) :
    (nextLocation registry location).file = location.file := by
  rw [nextLocation_eq]

theorem offset_nextLocation (registry : Registry) (location : Location) :
    (nextLocation registry location).position.offset = location.position.offset + 1 := by
  rw [nextLocation_eq]
  cases hposition : registry.positionAt? location.file (location.position.offset + 1) with
  | none => rfl
  | some position => exact Registry.positionAt?_offset hposition

theorem nextLocation_of_positionAt? {registry : Registry} {location : Location}
    {position : Position}
    (h : registry.positionAt? location.file (location.position.offset + 1) = some position) :
    nextLocation registry location = ⟨location.file, position⟩ := by
  rw [nextLocation_eq, h, Option.getD_some]

theorem inFile_nextLocation_iff {registry : Registry} {location : Location} {lines : LineTable}
    (hlines : registry.lines? location.file = some lines) :
    (nextLocation registry location).InFile registry ↔
      location.position.offset + 1 ≤ lines.total := by
  constructor
  · rintro ⟨lines', hlines', hle, -⟩
    rw [file_nextLocation, hlines] at hlines'
    obtain rfl := Option.some.inj hlines'
    rwa [offset_nextLocation] at hle
  · intro hle
    obtain ⟨position, hposition⟩ := Registry.exists_positionAt? hlines hle
    have hoffset := Registry.positionAt?_offset hposition
    rw [Location.inFile_iff, nextLocation_of_positionAt? hposition, hoffset, hposition]

theorem nextLocation_of_not_inFile {registry : Registry} {location : Location} {lines : LineTable}
    (hlines : registry.lines? location.file = some lines) (hlocation : location.InFile registry)
    (h : ¬ (nextLocation registry location).InFile registry) :
    location.position.offset = lines.total ∧
      nextLocation registry location =
        ⟨location.file, lines.total + 1, location.position.row, location.position.column + 1⟩ := by
  obtain ⟨lines', hlines', hle, -⟩ := hlocation
  obtain rfl := Option.some.inj (hlines.symm.trans hlines')
  rw [inFile_nextLocation_iff hlines, UInt64.not_le] at h
  -- only from the end of its file does a location leave it
  have hend : location.position.offset = lines.total := by
    rcases UInt64.lt_or_eq_of_le hle with hlt | heq
    · exact absurd (add_one_le hlt) (UInt64.not_le.2 h)
    · exact heq
  have hnone : registry.positionAt? location.file (location.position.offset + 1) = none := by
    rw [Registry.positionAt?, hlines, Option.bind_some, LineTable.locate?, if_pos h]
  exact ⟨hend, by rw [nextLocation_eq, hnone, Option.getD_none, hend]⟩

theorem value_resolveRange (registry : Registry) (settings : Settings) (mode : Mode)
    (record : Record) (start stop : Word) :
    (record.resolveRange registry settings mode start stop).value =
      if stop < start then none
      else (record.resolve registry settings mode start).value.bind fun first =>
        if start = stop then some (first, first)
        else (record.resolve registry settings mode (stop - 1)).value.map fun last =>
          (first, nextLocation registry last) := by
  rw [resolveRange]
  split
  · rfl
  · rw [Traced.value_bind]
    cases (record.resolve registry settings mode start).value with
    | none => rfl
    | some first =>
      rw [Option.bind_some]
      dsimp only
      split <;> rfl

theorem resolveRange_eq_some_iff {registry : Registry} {settings : Settings} {mode : Mode}
    {record : Record} {start stop : Word} {first second : Location} :
    (record.resolveRange registry settings mode start stop).value = some (first, second) ↔
      (record.resolve registry settings mode start).value = some first ∧
        (start = stop ∧ second = first ∨
          start < stop ∧ ∃ last,
            (record.resolve registry settings mode (stop - 1)).value = some last ∧
              second = nextLocation registry last) := by
  rw [value_resolveRange]
  constructor
  · intro h
    split at h
    · contradiction
    · next hinverted =>
      obtain ⟨found, hfound, hends⟩ := Option.bind_eq_some_iff.1 h
      split at hends
      · next heq =>
        cases hends
        exact ⟨hfound, .inl ⟨heq, rfl⟩⟩
      · next hne =>
        obtain ⟨last, hlast, hpair⟩ := Option.map_eq_some_iff.1 hends
        cases hpair
        have hlt := UInt64.lt_of_le_of_ne (UInt64.not_lt.1 hinverted) hne
        exact ⟨hfound, .inr ⟨hlt, last, hlast, rfl⟩⟩
  · rintro ⟨hfirst, ⟨rfl, rfl⟩ | ⟨hlt, last, hlast, rfl⟩⟩
    · rw [if_neg (UInt64.lt_irrefl start), hfirst, Option.bind_some, if_pos rfl]
    · rw [if_neg (UInt64.not_lt.2 (UInt64.le_of_lt hlt)), hfirst, Option.bind_some,
        if_neg (UInt64.ne_of_lt hlt), hlast, Option.map_some]

theorem exists_of_step_land {settings : Settings} {mode : Mode} {record : Record}
    {offset place : Word} {file : FileId}
    (h : record.step settings mode offset = .land file place) :
    record.link = .leaf file ∧
      ∃ inside, inside ≤ record.length ∧ place = record.range.start.offset + inside := by
  unfold step at h
  cases hlink : record.link with
  | leaf own =>
    cases hclamp : record.clamp? mode offset with
    | none => simp [hlink, hclamp] at h
    | some inside =>
      simp only [hlink, hclamp, Step.land.injEq] at h
      obtain ⟨rfl, rfl⟩ := h
      exact ⟨rfl, inside, le_length_of_clamp? hclamp, rfl⟩
  | substring parent start => cases hclamp : record.clamp? mode offset <;> simp [hlink, hclamp] at h
  | concat pieces =>
    cases hat : Piece.at? settings pieces offset with
    | some piece => simp [hlink, concatStep, hat] at h
    | none =>
      cases mode with
      | strict => simp [hlink, concatStep, hat] at h
      | closest => cases hlast : Piece.lastFilled? pieces <;> simp [hlink, concatStep, hat, hlast] at h
  | transformed parent mapping =>
    cases hcarry : mapping.carry? offset with
    | some inner => simp [hlink, transformedStep, hcarry] at h
    | none => cases mode <;> simp [hlink, transformedStep, hcarry] at h

theorem exists_leaf_of_landing {settings : Settings} {mode : Mode} {record : Record}
    {offset place : Word} {file : FileId}
    (h : (record.descend settings mode offset).landing = some (file, place)) :
    ∃ leaf ∈ record.subrecords, leaf.link = .leaf file ∧
      ∃ inside, inside ≤ leaf.length ∧ place = leaf.range.start.offset + inside := by
  rw [landing_descend] at h
  cases hstep : record.step settings mode offset with
  | miss => simp [hstep] at h
  | land own inner =>
    simp only [hstep] at h
    cases h
    exact ⟨record, record.self_mem_subrecords, exists_of_step_land hstep⟩
  | enter child inner =>
    simp only [hstep] at h
    have hchild := mem_refs_of_step hstep
    obtain ⟨leaf, hleaf, hplace⟩ := exists_leaf_of_landing h
    exact ⟨leaf, mem_subrecords_of_mem_refs hchild hleaf, hplace⟩
termination_by record.height
decreasing_by exact height_lt_of_mem_refs hchild

theorem exists_leaf_of_resolve {registry : Registry} {settings : Settings} {mode : Mode}
    {record : Record} {offset : Word} {location : Location}
    (h : (record.resolve registry settings mode offset).value = some location) :
    ∃ leaf ∈ record.subrecords, leaf.link = .leaf location.file ∧
      (leaf.range.Valid → location.position.offset ≤ leaf.range.stop.offset) := by
  rw [value_resolve] at h
  obtain ⟨⟨file, place⟩, hlanding, hplace⟩ := Option.bind_eq_some_iff.1 h
  obtain ⟨-, hfile, hle⟩ := Registry.place?_inFile hplace
  obtain ⟨leaf, hleaf, hlink, inside, hinside, rfl⟩ := exists_leaf_of_landing hlanding
  refine ⟨leaf, hleaf, by rw [hlink, hfile], fun hvalid => ?_⟩
  exact UInt64.le_trans hle (Range.start_add_mem hvalid hinside).2

/-- A range that resolves starts at a place of a file. It ends at the byte after the place of its
last offset, and that is a place of the file unless the last offset already came to the end of the
file, by way of a leaf that reaches it. -/
theorem resolveRange_ends {registry : Registry} {settings : Settings} {mode : Mode}
    {record : Record} {start stop : Word} {first second : Location}
    (h : (record.resolveRange registry settings mode start stop).value = some (first, second)) :
    first.InFile registry ∧ (start = stop → second = first) ∧
      (start < stop → ∃ last lines,
        (record.resolve registry settings mode (stop - 1)).value = some last ∧
          last.InFile registry ∧ registry.lines? last.file = some lines ∧
          second.file = last.file ∧ second.position.offset = last.position.offset + 1 ∧
          (second.InFile registry ↔ last.position.offset + 1 ≤ lines.total) ∧
          (¬ second.InFile registry →
            last.position.offset = lines.total ∧
              second.position =
                ⟨lines.total + 1, last.position.row, last.position.column + 1⟩ ∧
              ∃ leaf ∈ record.subrecords, leaf.link = .leaf last.file ∧
                (leaf.range.Valid → lines.total ≤ leaf.range.stop.offset))) := by
  obtain ⟨hfirst, hsecond⟩ := resolveRange_eq_some_iff.1 h
  refine ⟨inFile_of_resolve hfirst, fun heq => ?_, fun hlt => ?_⟩
  · rcases hsecond with ⟨-, hsame⟩ | ⟨hlt, -⟩
    · exact hsame
    · exact absurd heq (UInt64.ne_of_lt hlt)
  · rcases hsecond with ⟨heq, -⟩ | ⟨-, last, hlast, rfl⟩
    · exact absurd heq (UInt64.ne_of_lt hlt)
    have hinside := inFile_of_resolve hlast
    obtain ⟨lines, hlines, -⟩ := inFile_of_resolve hlast
    obtain ⟨leaf, hleaf, hlink, hstop⟩ := exists_leaf_of_resolve hlast
    refine ⟨last, lines, hlast, hinside, hlines, file_nextLocation registry last,
      offset_nextLocation registry last, inFile_nextLocation_iff hlines, fun hout => ?_⟩
    obtain ⟨hend, hnext⟩ := nextLocation_of_not_inFile hlines hinside hout
    rw [← hend]
    exact ⟨rfl, by rw [hnext, hend], leaf, hleaf, hlink, hstop⟩

end Record

/-! A whole file of two lines, with bytes put before its first line and after its last one. -/

namespace Framed

def text : Text := ⟨ascii "one\ntwo", by decide⟩

def files : Registry := (Registry.empty.add (ascii "note") (Backing.ofText text)).value.2

def whole : Record := Record.leaf ⟨0⟩ ⟨0⟩ ⟨⟨0, 0, 0⟩, ⟨7, 1, 3⟩⟩

def framed : Record := .mk ⟨1⟩ (Range.ofLength 10) (.transformed whole [⟨0, 7, 2, 9⟩])

end Framed

theorem Record.resolveRange_ends_framed :
    (Framed.framed.resolveRange Framed.files {} .closest 0 9).value =
        some (⟨⟨0⟩, 0, 0, 0⟩, ⟨⟨0⟩, 7, 1, 3⟩) ∧
      Location.InFile Framed.files ⟨⟨0⟩, 0, 0, 0⟩ ∧ Location.InFile Framed.files ⟨⟨0⟩, 7, 1, 3⟩ := by
  have hrange : (Framed.framed.resolveRange Framed.files {} .closest 0 9).value =
      some (⟨⟨0⟩, 0, 0, 0⟩, ⟨⟨0⟩, 7, 1, 3⟩) := by
    decide +kernel
  have hlast : (Framed.framed.resolve Framed.files {} .closest 8).value =
      some ⟨⟨0⟩, 6, 1, 2⟩ := by
    decide +kernel
  have hlines : Framed.files.lines? ⟨0⟩ = some (LineTable.ofText Framed.text) := rfl
  obtain ⟨hfirst, -, hends⟩ := Record.resolveRange_ends hrange
  obtain ⟨last, lines, hlast', -, hlines', -, -, hiff, -⟩ := hends (by decide)
  obtain rfl := Option.some.inj (hlast.symm.trans hlast')
  obtain rfl := Option.some.inj (hlines.symm.trans hlines')
  exact ⟨hrange, hfirst, hiff.2 (by decide)⟩

/-- The last byte of the range was put there, and where the range ends the file has no place. -/
theorem Record.resolveRange_leaves_file :
    Framed.whole.transformed ⟨1⟩ [⟨0, 7, 2, 9⟩] 10 = .ok Framed.framed ∧
      (10 : Word) ≤ Framed.framed.length ∧
      (Framed.framed.resolveRange Framed.files {} .closest 5 10).value =
        some (⟨⟨0⟩, 3, 0, 3⟩, ⟨⟨0⟩, 8, 1, 4⟩) ∧
      Framed.files.positionAt? ⟨0⟩ 8 = none ∧
      ¬ Location.InFile Framed.files ⟨⟨0⟩, 8, 1, 4⟩ := by
  have hnone : Framed.files.positionAt? ⟨0⟩ 8 = none := by decide +kernel
  refine ⟨rfl, by decide, by decide +kernel, hnone, fun hin => ?_⟩
  have hplace := Location.inFile_iff.1 hin
  rw [hnone] at hplace
  contradiction

end TextOrigin

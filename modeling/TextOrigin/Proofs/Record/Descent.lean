import TextOrigin.Proofs.Record.Pieces
import TextOrigin.Resolution

/-!
Where a descent lands, link by link. Inside their length, leaves and slices do the same in either
mode. A strict descent lands in leaves and slices only from inside their length, and through pieces
or a mapping only by way of a piece that holds the offset or an entry that covers it.
-/

namespace TextOrigin

theorem Mapping.covers_of_carry? {mapping : Mapping} {offset inner : Word}
    (h : mapping.carry? offset = some inner) :
    ∃ entry ∈ mapping, entry.covers offset = true ∧ inner = entry.interpolate offset := by
  unfold carry? around at h
  cases hnext :
    partitionPoint (fun entry : MapEntry => decide (entry.toStart ≤ offset)) mapping with
  | zero => simp [hnext] at h
  | succ n =>
    obtain ⟨entry, hentry, hstart⟩ := partitionPoint_eq_succ hnext
    simp only [hnext, Nat.add_one_ne_zero, if_false, Nat.add_sub_cancel, hentry] at h
    split at h
    · next hstop =>
      refine ⟨entry, List.mem_of_getElem? hentry, ?_, (Option.some.inj h).symm⟩
      rw [MapEntry.covers, hstart, decide_eq_true hstop, Bool.and_self]
    · contradiction

theorem Range.start_add_mem {range : Range} (hvalid : range.Valid) {inside : Word}
    (h : inside ≤ range.length) :
    range.start.offset ≤ range.start.offset + inside ∧
      range.start.offset + inside ≤ range.stop.offset := by
  have hlength := toNat_length hvalid
  have hordered := UInt64.le_iff_toNat_le.1 hvalid
  have hstop := range.stop.offset.toNat_lt_size
  rw [UInt64.le_iff_toNat_le] at h
  have hplace : (range.start.offset + inside).toNat = range.start.offset.toNat + inside.toNat :=
    toNat_add_of_lt (by omega)
  rw [UInt64.le_iff_toNat_le, UInt64.le_iff_toNat_le, hplace]
  omega

theorem Registry.exists_positionAt? {registry : Registry} {file : FileId} {lines : LineTable}
    (hlines : registry.lines? file = some lines) {offset : Word} (h : offset ≤ lines.total) :
    ∃ position, registry.positionAt? file offset = some position := by
  obtain ⟨position, hlocate⟩ := LineTable.exists_locate? h
  exact ⟨position, by rw [positionAt?, hlines, Option.bind_some, hlocate]⟩

theorem Registry.positionAt?_offset {registry : Registry} {file : FileId} {offset : Word}
    {position : Position} (h : registry.positionAt? file offset = some position) :
    position.offset = offset := by
  obtain ⟨lines, -, hlocate⟩ := Option.bind_eq_some_iff.1 h
  exact (LineTable.offset_of_locate? hlocate).2

theorem Registry.place?_of_positionAt? {registry : Registry} {mode : Mode} {file : FileId}
    {offset : Word} {position : Position} (h : registry.positionAt? file offset = some position) :
    registry.place? mode file offset = some ⟨file, position⟩ := by
  simp [place?, h]

theorem Registry.place?_strict {registry : Registry} {file : FileId} {offset : Word}
    {location : Location} (h : registry.place? .strict file offset = some location) :
    location.file = file ∧ location.position.offset = offset := by
  obtain ⟨position, hposition, rfl⟩ := Option.map_eq_some_iff.1 h
  cases hexact : registry.positionAt? file offset with
  | none => simp [hexact] at hposition
  | some exact =>
    obtain rfl : exact = position := by simpa [hexact] using hposition
    exact ⟨rfl, registry.positionAt?_offset hexact⟩

namespace Record

theorem clamp?_of_le (mode : Mode) (record : Record) {offset : Word}
    (h : offset ≤ record.length) : record.clamp? mode offset = some offset :=
  if_pos h

theorem clamp?_closest_of_le {record : Record} {offset : Word} (h : record.length ≤ offset) :
    record.clamp? .closest offset = some record.length := by
  rw [clamp?]
  split
  · next hle => rw [UInt64.le_antisymm hle h]
  · rfl

theorem clamp?_strict_eq_some_iff {record : Record} {offset inside : Word} :
    record.clamp? .strict offset = some inside ↔ offset ≤ record.length ∧ offset = inside := by
  rw [clamp?]
  split
  · next hle => simp [hle]
  · next hle => simp [hle]

theorem le_length_of_clamp? {mode : Mode} {record : Record} {offset inside : Word}
    (h : record.clamp? mode offset = some inside) : inside ≤ record.length := by
  unfold clamp? at h
  split at h
  · next hle => rwa [← Option.some.inj h]
  · cases mode with
    | strict => contradiction
    | closest => rw [← Option.some.inj h]; exact UInt64.le_refl _

theorem step_leaf_of_le {settings : Settings} {mode : Mode} {node : NodeId} {range : Range}
    {file : FileId} {offset : Word} (h : offset ≤ range.length) :
    (mk node range (.leaf file)).step settings mode offset =
      .land file (range.start.offset + offset) := by
  have hclamp := clamp?_of_le mode (mk node range (.leaf file)) h
  simp only [step, link, hclamp, Record.range]

theorem step_substring_of_le {settings : Settings} {mode : Mode} {node : NodeId} {range : Range}
    {parent : Record} {start offset : Word} (h : offset ≤ range.length) :
    (mk node range (.substring parent start)).step settings mode offset =
      .enter parent (offset + start) := by
  have hclamp := clamp?_of_le mode (mk node range (.substring parent start)) h
  simp only [step, link, hclamp]

theorem descend_eq (settings : Settings) (mode : Mode) (record : Record) (offset : Word) :
    record.descend settings mode offset =
      match record.step settings mode offset with
      | .miss => ⟨[⟨record, offset⟩], none⟩
      | .land file place => ⟨[⟨record, offset⟩], some (file, place)⟩
      | .enter child inner =>
        ⟨⟨record, offset⟩ :: (child.descend settings mode inner).visits,
          (child.descend settings mode inner).landing⟩ := by
  rw [descend]
  split <;> simp [*]

theorem landing_descend (settings : Settings) (mode : Mode) (record : Record) (offset : Word) :
    (record.descend settings mode offset).landing =
      match record.step settings mode offset with
      | .miss => none
      | .land file place => some (file, place)
      | .enter child inner => (child.descend settings mode inner).landing := by
  rw [descend_eq]
  cases record.step settings mode offset <;> rfl

theorem visits_descend (settings : Settings) (mode : Mode) (record : Record) (offset : Word) :
    (record.descend settings mode offset).visits =
      ⟨record, offset⟩ ::
        match record.step settings mode offset with
        | .enter child inner => (child.descend settings mode inner).visits
        | _ => [] := by
  rw [descend_eq]
  cases record.step settings mode offset <;> rfl

theorem value_resolve (registry : Registry) (settings : Settings) (mode : Mode) (record : Record)
    (offset : Word) :
    (record.resolve registry settings mode offset).value =
      (record.descend settings mode offset).landing.bind fun landing =>
        registry.place? mode landing.1 landing.2 := by
  unfold resolve
  cases settings.trace <;> rfl

theorem resolve_of_landing {registry : Registry} {settings : Settings} {mode : Mode}
    {record : Record} {offset place : Word} {file : FileId} {position : Position}
    (hlanding : (record.descend settings mode offset).landing = some (file, place))
    (hposition : registry.positionAt? file place = some position) :
    (record.resolve registry settings mode offset).value = some ⟨file, position⟩ := by
  rw [value_resolve, hlanding, Option.bind_some, Registry.place?_of_positionAt? hposition]

theorem landing_leaf_strict {settings : Settings} {node : NodeId} {range : Range}
    {file : FileId} {offset : Word} {landing : FileId × Word}
    (h : ((mk node range (.leaf file)).descend settings .strict offset).landing = some landing) :
    offset ≤ range.length := by
  rw [landing_descend] at h
  simp only [step, link] at h
  cases hclamp : (mk node range (.leaf file)).clamp? .strict offset with
  | none => simp [hclamp] at h
  | some inside => exact (clamp?_strict_eq_some_iff.1 hclamp).1

theorem landing_substring_strict {settings : Settings} {node : NodeId} {range : Range}
    {parent : Record} {start offset : Word} {landing : FileId × Word}
    (h : ((mk node range (.substring parent start)).descend settings .strict offset).landing =
      some landing) :
    offset ≤ range.length ∧
      (parent.descend settings .strict (offset + start)).landing = some landing := by
  rw [landing_descend] at h
  simp only [step, link] at h
  cases hclamp : (mk node range (.substring parent start)).clamp? .strict offset with
  | none => simp [hclamp] at h
  | some inside =>
    simp only [hclamp] at h
    obtain ⟨hle, rfl⟩ := clamp?_strict_eq_some_iff.1 hclamp
    exact ⟨hle, h⟩

theorem landing_concat_strict {settings : Settings} {node : NodeId} {range : Range}
    {pieces : List (Piece Record)} {offset : Word} {landing : FileId × Word}
    (h : ((mk node range (.concat pieces)).descend settings .strict offset).landing =
      some landing) :
    ∃ piece ∈ pieces, piece.contains offset = true ∧
      (piece.source.descend settings .strict (offset - piece.offset)).landing = some landing := by
  rw [landing_descend] at h
  simp only [step, link, concatStep] at h
  cases hat : Piece.at? settings pieces offset with
  | none => simp [hat] at h
  | some piece =>
    simp only [hat] at h
    exact ⟨piece, Piece.mem_of_at? hat, Piece.contains_of_at? hat, h⟩

theorem landing_transformed_strict {settings : Settings} {node : NodeId} {range : Range}
    {parent : Record} {mapping : Mapping} {offset : Word} {landing : FileId × Word}
    (h : ((mk node range (.transformed parent mapping)).descend settings .strict offset).landing =
      some landing) :
    ∃ entry ∈ mapping, entry.covers offset = true ∧
      (parent.descend settings .strict (entry.interpolate offset)).landing = some landing := by
  rw [landing_descend] at h
  simp only [step, link, transformedStep] at h
  cases hcarry : mapping.carry? offset with
  | none => simp [hcarry] at h
  | some inner =>
    simp only [hcarry] at h
    obtain ⟨entry, hentry, hcovers, rfl⟩ := Mapping.covers_of_carry? hcarry
    exact ⟨entry, hentry, hcovers, h⟩

end Record

end TextOrigin

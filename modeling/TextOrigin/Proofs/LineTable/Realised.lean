import Mathlib.Data.List.Sort
import TextOrigin.Proofs.LineTable.Newlines

/-!
Tables given from outside. A list of offsets and a length are accepted as a table exactly if some
text of this length has its newlines at these offsets, and then the table is the one that the text
itself would give. The comparison of neighbours is enough for that, and no word that an accepted
table computes wraps, whatever its length. Main statement: `ofBreaks?_realisable`.
-/

namespace TextOrigin

/-- A text of a given length has its newlines at the given offsets, in this order. -/
structure Text.Realises (text : Text) (breaks : List Word) (total : Word) : Prop where
  size_eq : text.size = total
  newlines_eq : text.bytes.newlinesBefore text.bytes.length = breaks.map (·.toNat)

namespace Bytes

def ruled (places : List Nat) (length : Nat) : Bytes :=
  (List.range length).map fun i => if places.contains i then newline else space

theorem length_ruled (places : List Nat) (length : Nat) : (ruled places length).length = length := by
  rw [ruled, List.length_map, List.length_range]

theorem newlinesBefore_ruled {places : List Nat} {length : Nat}
    (hincreasing : places.Pairwise (· < ·)) (hbelow : ∀ i ∈ places, i < length) :
    (ruled places length).newlinesBefore length = places := by
  apply (List.pairwise_lt_range.filter _).eq_of_mem_iff hincreasing
  intro i
  rw [List.mem_filter, List.mem_range, beq_iff_eq]
  constructor
  · intro h
    have hbyte := h.2
    rw [ruled, List.getElem?_map, List.getElem?_range h.1, Option.map_some, Option.some.injEq] at hbyte
    by_contra hi
    simp [hi, newline, space] at hbyte
  · intro hi
    refine ⟨hbelow i hi, ?_⟩
    rw [ruled, List.getElem?_map, List.getElem?_range (hbelow i hi), Option.map_some]
    simp [hi]

end Bytes

namespace LineTable

variable {breaks : List Word} {total : Word}

theorem ofBreaks?_eq_some_iff {table : LineTable} :
    ofBreaks? breaks total = some table ↔ table.breaks = breaks ∧ table.total = total := by
  unfold ofBreaks?
  constructor
  · intro h
    split at h
    · obtain rfl := Option.some.inj h
      exact ⟨rfl, rfl⟩
    · contradiction
  · intro h
    obtain ⟨rfl, rfl⟩ := h
    rw [dif_pos (ascends_iff.2 ⟨table.increasing, table.below⟩)]

theorem ofBreaks?_eq_ofText_iff {text : Text} :
    ofBreaks? breaks total = some (ofText text) ↔ text.Realises breaks total := by
  rw [ofBreaks?_eq_some_iff]
  have hbreaks : (ofText text).breaks = breaks ↔
      text.bytes.newlinesBefore text.bytes.length = breaks.map (·.toNat) := by
    rw [← map_toNat_breaks_ofText]
    exact (List.map_injective_iff.2 fun _ _ => UInt64.toNat_inj.1).eq_iff.symm
  rw [hbreaks]
  exact ⟨fun h => ⟨h.2, h.1⟩, fun h => ⟨h.2, h.1⟩⟩

theorem exists_realises (table : LineTable) : ∃ text : Text, text.Realises table.breaks table.total := by
  have hlength := Bytes.length_ruled (table.breaks.map (·.toNat)) table.total.toNat
  let text : Text := ⟨Bytes.ruled (table.breaks.map (·.toNat)) table.total.toNat, by
    rw [hlength]
    exact table.total.toNat_lt_size⟩
  refine ⟨text, ?_, ?_⟩
  · apply UInt64.toNat_inj.1
    rw [text.toNat_size]
    exact hlength
  · have hincreasing : (table.breaks.map (·.toNat)).Pairwise (· < ·) := by
      rw [List.pairwise_map]
      exact table.increasing.imp UInt64.lt_iff_toNat_lt.1
    have hbelow : ∀ i ∈ table.breaks.map (·.toNat), i < table.total.toNat := by
      intro i hi
      obtain ⟨b, hb, rfl⟩ := List.mem_map.1 hi
      exact UInt64.lt_iff_toNat_lt.1 (table.below b hb)
    change text.bytes.newlinesBefore (List.length (Bytes.ruled _ _)) = _
    rw [hlength]
    exact Bytes.newlinesBefore_ruled hincreasing hbelow

/-- The words that a table computes are the numbers they stand for: each row starts one byte behind a
newline, the row found is the number of newlines before the offset, and the column is what the
offset is away from the start of the row. -/
structure Exact (table : LineTable) : Prop where
  starts : ∀ b ∈ table.breaks, (b + 1).toNat = b.toNat + 1
  places : ∀ offset position, table.locate? offset = some position →
    position.row.toNat = table.rowOf offset ∧
      ∃ start, table.lineStart? position.row = some start ∧
        start.toNat + position.column.toNat = offset.toNat

theorem isExact (table : LineTable) : table.Exact where
  starts _ hb := (toNat_break_add_one hb).1
  places _ _ h := (locate?_eq_some_iff.1 h).2.2

/-- Offsets and a length make a table exactly if some text has this length and its newlines at these
offsets. The table is then the one of that text, of every such text, and none of its words wraps. -/
theorem ofBreaks?_realisable (breaks : List Word) (total : Word) :
    ((ofBreaks? breaks total).isSome ↔ ∃ text : Text, text.Realises breaks total) ∧
      ∀ text : Text, text.Realises breaks total →
        ofBreaks? breaks total = some (ofText text) ∧ (ofText text).Exact := by
  refine ⟨⟨?_, ?_⟩, fun text h => ⟨ofBreaks?_eq_ofText_iff.2 h, isExact _⟩⟩
  · intro h
    obtain ⟨table, htable⟩ := Option.isSome_iff_exists.1 h
    obtain ⟨rfl, rfl⟩ := ofBreaks?_eq_some_iff.1 htable
    exact table.exists_realises
  · intro h
    obtain ⟨text, hrealises⟩ := h
    rw [ofBreaks?_eq_ofText_iff.2 hrealises]
    rfl

theorem ofBreaks?_realisable_stanza :
    ofBreaks? [0, 3] 4 = some (ofText ⟨ascii "\nxy\n", by decide⟩) ∧
      (ofText ⟨ascii "\nxy\n", by decide⟩).Exact ∧
      (∃ text : Text, text.Realises [0, 18446744073709551614] 18446744073709551615) ∧
      ¬ ∃ text : Text, text.Realises [3, 3] 4 := by
  have hstanza : Text.Realises ⟨ascii "\nxy\n", by decide⟩ [0, 3] 4 :=
    ⟨by decide, by decide⟩
  obtain ⟨htable, hexact⟩ := (ofBreaks?_realisable [0, 3] 4).2 _ hstanza
  refine ⟨htable, hexact, (ofBreaks?_realisable _ _).1.1 (by decide), fun htwice => ?_⟩
  exact absurd ((ofBreaks?_realisable [3, 3] 4).1.2 htwice) (by decide)

end LineTable

end TextOrigin

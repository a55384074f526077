import TextOrigin.Proofs.LineTable.Rows

/-!
Line tables of texts. The table of a text holds the offsets at which a scan of the text meets
newlines, so its rows are lines: the row of an offset is the number of newlines before it, and its
column counts from the byte behind the last of them. Main statement: `locate?_ofText`.
-/

namespace TextOrigin

namespace Bytes

/-- Offsets below a limit at which a text has a newline, in order. -/
def newlinesBefore (text : Bytes) (limit : Nat) : List Nat :=
  (List.range limit).filter fun i => text[i]? == some newline

/-- Where the line of an offset begins: behind the last newline before it, or with the text. -/
def lineOrigin (text : Bytes) (offset : Nat) : Nat :=
  (text.newlinesBefore offset).getLast?.elim 0 (· + 1)

theorem newlinesBefore_cons (b : UInt8) (rest : Bytes) (n : Nat) :
    newlinesBefore (b :: rest) (n + 1) =
      if b = newline then 0 :: (newlinesBefore rest n).map (· + 1)
      else (newlinesBefore rest n).map (· + 1) := by
  have hshift : ((List.range n).map Nat.succ).filter (fun i => (b :: rest)[i]? == some newline) =
      (newlinesBefore rest n).map (· + 1) := by
    rw [List.filter_map]
    rfl
  rw [newlinesBefore, List.range_succ_eq_map, List.filter_cons, hshift]
  simp only [List.getElem?_cons_zero, beq_iff_eq, Option.some.injEq]

theorem exists_newlinesBefore_append (text : Bytes) {m n : Nat} (h : m ≤ n) :
    ∃ later, text.newlinesBefore n = text.newlinesBefore m ++ later ∧ ∀ i ∈ later, m ≤ i := by
  obtain ⟨k, rfl⟩ := Nat.exists_eq_add_of_le h
  refine ⟨((List.range k).map (m + ·)).filter fun i => text[i]? == some newline, ?_, ?_⟩
  · rw [newlinesBefore, List.range_add, List.filter_append]
    rfl
  · intro i hi
    obtain ⟨j, -, rfl⟩ := List.mem_map.1 (List.mem_filter.1 hi).1
    exact Nat.le_add_right m j

end Bytes

theorem newlineOffsets_eq (start : Nat) (bytes : Bytes) :
    newlineOffsets start bytes = (bytes.newlinesBefore bytes.length).map (start + ·) := by
  induction bytes generalizing start with
  | nil => rfl
  | cons b rest ih =>
    have hshift : (Bytes.newlinesBefore rest rest.length).map (start + 1 + ·) =
        ((Bytes.newlinesBefore rest rest.length).map (· + 1)).map (start + ·) := by
      rw [List.map_map]
      apply List.map_congr_left
      intro i _
      change start + 1 + i = start + (i + 1)
      rw [Nat.add_assoc, Nat.add_comm 1 i]
    rw [newlineOffsets, ih, hshift, List.length_cons, Bytes.newlinesBefore_cons]
    split <;> rfl

namespace LineTable

variable {offset row : Word}

theorem map_toNat_breaks_ofText (text : Text) :
    (ofText text).breaks.map (·.toNat) = text.bytes.newlinesBefore text.bytes.length := by
  have hwords : (newlineOffsets 0 text.bytes).map (fun n => (UInt64.ofNat n).toNat) =
      (newlineOffsets 0 text.bytes).map id := by
    apply List.map_congr_left
    intro n hn
    have hlt := (newlineOffsets_bounds hn).2
    have hsize := text.length_lt
    exact UInt64.toNat_ofNat_of_lt' (by omega)
  have hscan := newlineOffsets_eq 0 text.bytes
  simp only [Nat.zero_add, List.map_id'] at hscan
  rw [ofText, List.map_map, ← hscan]
  exact hwords.trans (List.map_id _)

theorem exists_breaks_ofText (text : Text) (h : offset ≤ text.size) :
    ∃ before after, (ofText text).breaks = before ++ after ∧
      before.map (·.toNat) = text.bytes.newlinesBefore offset.toNat ∧
      (ofText text).rowOf offset = before.length := by
  rw [UInt64.le_iff_toNat_le, text.toNat_size] at h
  obtain ⟨later, hlater, hfrom⟩ := text.bytes.exists_newlinesBefore_append h
  have hbreaks := map_toNat_breaks_ofText text
  rw [hlater] at hbreaks
  obtain ⟨before, after, heq, hbefore, hafter⟩ := List.map_eq_append_iff.1 hbreaks
  refine ⟨before, after, heq, hbefore, ?_⟩
  rw [rowOf, heq]
  apply partitionPoint_append
  · intro b hb
    have hmem : b.toNat ∈ text.bytes.newlinesBefore offset.toNat := by
      rw [← hbefore]
      exact List.mem_map_of_mem hb
    exact decide_eq_true (UInt64.lt_iff_toNat_lt.2 (List.mem_range.1 (List.mem_filter.1 hmem).1))
  · intro b hb
    have hmem : b.toNat ∈ later := by
      rw [← hafter]
      exact List.mem_map_of_mem hb
    exact decide_eq_false (UInt64.not_lt.2 (UInt64.le_iff_toNat_le.2 (hfrom _ hmem)))

theorem rowOf_ofText (text : Text) (h : offset ≤ text.size) :
    (ofText text).rowOf offset = (text.bytes.newlinesBefore offset.toNat).length := by
  obtain ⟨before, after, -, hbefore, hrow⟩ := exists_breaks_ofText text h
  rw [hrow, ← hbefore, List.length_map]

theorem lineStart?_ofText (text : Text) (h : offset ≤ text.size) {start : Word}
    (hrow : row.toNat = (ofText text).rowOf offset)
    (hstart : (ofText text).lineStart? row = some start) :
    start.toNat = text.bytes.lineOrigin offset.toNat := by
  obtain ⟨before, after, heq, hbefore, hlength⟩ := exists_breaks_ofText text h
  rw [lineStart?, hrow, hlength] at hstart
  rw [Bytes.lineOrigin, ← hbefore, List.getLast?_map]
  rcases List.eq_nil_or_concat before with rfl | ⟨init, b, rfl⟩
  · obtain rfl : 0 = start := Option.some.inj hstart
    rfl
  · have hb : (ofText text).breaks[init.length]? = some b := by
      rw [heq]
      simp
    rw [List.concat_eq_append, List.length_append, List.length_singleton, rowStart?, hb] at hstart
    obtain rfl : b + 1 = start := Option.some.inj hstart
    rw [(toNat_break_add_one (List.mem_of_getElem? hb)).1, List.concat_eq_append,
      List.getLast?_concat]
    rfl

/-- An offset has a place in a text exactly up to its end. The row is the number of newlines before
the offset and the column the distance from the byte behind the last of them, so that the start of
the row and the column add up to the offset. This row is the only one that spans the offset, and
places are in the order of their offsets. -/
theorem locate?_ofText (text : Text) (offset : Word) :
    (((ofText text).locate? offset).isSome ↔ offset ≤ text.size) ∧
      ∀ position, (ofText text).locate? offset = some position →
        position.offset = offset ∧
        position.row.toNat = (text.bytes.newlinesBefore offset.toNat).length ∧
        text.bytes.lineOrigin offset.toNat + position.column.toNat = offset.toNat ∧
        (∃ start stop, (ofText text).lineStart? position.row = some start ∧
          (ofText text).lineEnd? position.row = some stop ∧
          start.toNat + position.column.toNat = offset.toNat ∧ offset ≤ stop) ∧
        position.row.toNat < (ofText text).lineCount ∧
        (∀ row, (ofText text).Spans row offset ↔ row = position.row) ∧
        ∀ later next, offset < later → (ofText text).locate? later = some next →
          position.Before next := by
  constructor
  · constructor
    · intro hsome
      obtain ⟨position, h⟩ := Option.isSome_iff_exists.1 hsome
      exact (offset_of_locate? h).1
    · intro hle
      have hlocate : ∃ position, (ofText text).locate? offset = some position := exists_locate? hle
      exact Option.isSome_iff_exists.2 hlocate
  · intro position h
    obtain ⟨htotal, hoffset, hrow, start, hstart, hsum⟩ := locate?_eq_some_iff.1 h
    have horigin := lineStart?_ofText text htotal hrow hstart
    have hspans : (ofText text).Spans position.row offset := spans_iff.2 ⟨htotal, hrow⟩
    refine ⟨hoffset, ?_, ?_, ?_, ?_, ?_, ?_⟩
    · rw [hrow, rowOf_ofText text htotal]
    · rw [← horigin, hsum]
    · obtain ⟨_, stop, _, hstop, _, hge⟩ := hspans
      exact ⟨start, stop, hstart, hstop, hsum, hge⟩
    · rw [hrow, lineCount]
      exact Nat.lt_succ_of_le (rowOf_le _ _)
    · intro row
      rw [spans_iff, and_iff_right htotal, ← hrow, UInt64.toNat_inj]
    · intro later next hlt hnext
      exact before_of_lt hlt h hnext

/-! A text that starts with a newline, has an empty line and does not end its last line. -/

def verse : Text := ⟨ascii "\nab\n\nc", by decide⟩

theorem locate?_ofText_verse :
    (ofText verse).locate? 3 = some ⟨3, 1, 2⟩ ∧ (ofText verse).locate? 4 = some ⟨4, 2, 0⟩ ∧
      (verse.bytes.newlinesBefore 3).length = 1 ∧ verse.bytes.lineOrigin 3 + 2 = 3 ∧
      (∀ row, (ofText verse).Spans row 3 ↔ row = 1) ∧
      Position.Before ⟨3, 1, 2⟩ ⟨4, 2, 0⟩ ∧ ((ofText verse).locate? 7).isSome = false := by
  have hthird : (ofText verse).locate? 3 = some ⟨3, 1, 2⟩ := by decide +kernel
  have hfourth : (ofText verse).locate? 4 = some ⟨4, 2, 0⟩ := by decide +kernel
  obtain ⟨-, hrow, hcolumn, -, -, hspans, hbefore⟩ := (locate?_ofText verse 3).2 _ hthird
  have hpast : ¬ ((ofText verse).locate? 7).isSome = true := by
    rw [(locate?_ofText verse 7).1]
    decide
  exact ⟨hthird, hfourth, hrow.symm, hcolumn, hspans, hbefore 4 _ (by decide) hfourth,
    Bool.eq_false_iff.2 hpast⟩

end LineTable

end TextOrigin

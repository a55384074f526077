import Mathlib.Data.List.Basic
import TextOrigin.Proofs.Bytes.Separators
import TextOrigin.Proofs.LineTable.Newlines

/-!
Lines of texts. A line runs from its first byte to the newline behind it, or to the end of the text.
What a table cuts out for a row is the line that starts there, and all rows in order are the parts
between the newlines of the text. Main statements: `slice_row`, `getElem?_split_newline` and
`exists_lineStart_of_locate?`.
-/

namespace TextOrigin

namespace Bytes

/-- The line that starts at an offset: the bytes up to the next newline, or to the end. -/
def lineFrom (text : Bytes) (start : Nat) : Bytes :=
  (text.drop start).takeWhile (· != newline)

/-- The line around an offset: the bytes between the last newline before it and the next one from
it on. -/
def lineAround (text : Bytes) (offset : Nat) : Bytes :=
  text.lineFrom (text.lineOrigin offset)

theorem take_lineFrom {text : Bytes} {start n : Nat} (h : n ≤ (text.lineFrom start).length) :
    (text.lineFrom start).take n = (text.drop start).take n := by
  have hfront : text.lineFrom start <+: text.drop start := List.takeWhile_prefix _
  rw [List.prefix_iff_eq_take.1 hfront, List.take_take, Nat.min_eq_left h]

theorem add_length_lineFrom_le {text : Bytes} {start : Nat} (h : start ≤ text.length) :
    start + (text.lineFrom start).length ≤ text.length := by
  have hlength := (List.takeWhile_sublist (l := text.drop start) (· != newline)).length_le
  rw [List.length_drop] at hlength
  rw [lineFrom]
  omega

theorem getElem?_lineFrom_or {text : Bytes} {start n : Nat} {b : UInt8}
    (hn : n ≤ (text.lineFrom start).length) (hb : text[start + n]? = some b) :
    (text.lineFrom start)[n]? = some b ∨ b = newline ∧ n = (text.lineFrom start).length := by
  have hparts : text.lineFrom start ++ (text.drop start).dropWhile (· != newline) =
      text.drop start := List.takeWhile_append_dropWhile
  have hnext := List.head?_dropWhile_not (· != newline) (text.drop start)
  rw [← List.getElem?_drop, ← hparts] at hb
  rcases Nat.lt_or_eq_of_le hn with hlt | rfl
  · rw [List.getElem?_append_left hlt] at hb
    exact .inl hb
  · rw [List.getElem?_append_right (Nat.le_refl _), Nat.sub_self, ← List.head?_eq_getElem?] at hb
    rw [hb] at hnext
    exact .inr ⟨bne_eq_false_iff_eq.1 hnext, rfl⟩

theorem lineFrom_eq_take {text : Bytes} {start n : Nat}
    (hline : ∀ i < n, text[start + i]? ≠ some newline)
    (hstop : start + n = text.length ∨ text[start + n]? = some newline) :
    text.lineFrom start = (text.drop start).take n := by
  have hinside : ∀ b ∈ (text.drop start).take n, (b != newline) = true := by
    intro b hb
    obtain ⟨i, hi⟩ := List.mem_iff_getElem?.1 hb
    rw [List.getElem?_take, List.getElem?_drop] at hi
    split at hi
    · next hlt =>
      apply bne_iff_ne.2
      rintro rfl
      exact hline i hlt hi
    · contradiction
  have hbehind : (text.drop (start + n)).takeWhile (· != newline) = [] := by
    rcases hstop with hlength | hbyte
    · rw [hlength, List.drop_length, List.takeWhile_nil]
    · obtain ⟨hlt, hbyte⟩ := List.getElem?_eq_some_iff.1 hbyte
      rw [List.drop_eq_getElem_cons hlt, hbyte]
      rfl
  have hdrop := List.take_append_drop n (text.drop start)
  rw [List.drop_drop] at hdrop
  rw [lineFrom, ← hdrop, List.takeWhile_append_of_pos hinside, hbehind, List.append_nil, hdrop]

theorem split_newline (text : Bytes) :
    split (· == newline) text =
      text.lineFrom 0 :: (text.newlinesBefore text.length).map fun i => text.lineFrom (i + 1) := by
  induction text with
  | nil => rfl
  | cons b rest ih =>
    have hshift : ((newlinesBefore rest rest.length).map (· + 1)).map
        (fun i => lineFrom (b :: rest) (i + 1)) =
        (newlinesBefore rest rest.length).map fun i => lineFrom rest (i + 1) :=
      List.map_map
    rw [split_cons, ih, List.length_cons, newlinesBefore_cons]
    by_cases hb : b = newline
    · rw [if_pos (beq_iff_eq.2 hb), if_pos hb, List.map_cons, hshift]
      simp [lineFrom, hb]
    · rw [if_neg (beq_iff_eq.not.2 hb), if_neg hb, hshift, List.modifyHead_cons]
      simp [lineFrom, hb]

end Bytes

namespace LineTable

variable {text : Text} {offset row start stop : Word}

theorem mem_breaks_ofText_iff {b : Word} :
    b ∈ (ofText text).breaks ↔ text.bytes[b.toNat]? = some Bytes.newline := by
  have hinjective : Function.Injective UInt64.toNat := fun _ _ => UInt64.toNat_inj.1
  rw [← List.mem_map_of_injective hinjective, map_toNat_breaks_ofText, Bytes.newlinesBefore,
    List.mem_filter, List.mem_range, beq_iff_eq]
  exact and_iff_right_of_imp fun h => (List.getElem?_eq_some_iff.1 h).1

theorem getElem?_split_newline (text : Text) (row : Word) :
    (Bytes.split (· == Bytes.newline) text.bytes)[row.toNat]? =
      ((ofText text).lineStart? row).map fun start => text.bytes.lineFrom start.toNat := by
  rw [Bytes.split_newline, ← map_toNat_breaks_ofText, lineStart?]
  cases row.toNat with
  | zero => rfl
  | succ i =>
    rw [List.getElem?_cons_succ, List.map_map, List.getElem?_map, rowStart?, Option.map_map]
    apply Option.map_congr
    intro b hb
    have hnext := (toNat_break_add_one (List.mem_of_getElem? hb)).1
    simp only [Function.comp_apply, hnext]

theorem length_split_newline (text : Text) :
    (Bytes.split (· == Bytes.newline) text.bytes).length = (ofText text).lineCount := by
  rw [Bytes.split_newline, ← map_toNat_breaks_ofText, List.length_cons, List.length_map,
    List.length_map, lineCount]

theorem lineEnd?_ofText_cases (h : (ofText text).lineEnd? row = some stop) :
    stop.toNat = text.bytes.length ∨ text.bytes[stop.toNat]? = some Bytes.newline := by
  rcases lineEnd?_cases h with rfl | hmem
  · exact .inl text.toNat_size
  · exact .inr (mem_breaks_ofText_iff.1 hmem)

theorem getElem?_ne_newline (hstart : (ofText text).lineStart? row = some start)
    (hstop : (ofText text).lineEnd? row = some stop) {i : Nat} (hfrom : start.toNat ≤ i)
    (hbelow : i < stop.toNat) : text.bytes[i]? ≠ some Bytes.newline := by
  have hword : (UInt64.ofNat i).toNat = i :=
    UInt64.toNat_ofNat_of_lt' (Nat.lt_trans hbelow stop.toNat_lt_size)
  have hle : start ≤ UInt64.ofNat i := by
    rwa [UInt64.le_iff_toNat_le, hword]
  have hlt : UInt64.ofNat i < stop := by
    rwa [UInt64.lt_iff_toNat_lt, hword]
  have hinside := notMem_breaks_of_between hstart hstop hle hlt
  rwa [mem_breaks_ofText_iff, hword] at hinside

theorem slice_row (hstart : (ofText text).lineStart? row = some start)
    (hstop : (ofText text).lineEnd? row = some stop) :
    Bytes.slice text.bytes start (stop - start) = text.bytes.lineFrom start.toNat := by
  have hle := start_le_stop hstart hstop
  have hlength := UInt64.toNat_sub_of_le _ _ hle
  rw [UInt64.le_iff_toNat_le] at hle
  symm
  apply Bytes.lineFrom_eq_take
  · intro i hi
    exact getElem?_ne_newline hstart hstop (Nat.le_add_right _ _) (by omega)
  · rw [hlength, Nat.add_sub_cancel' hle]
    exact lineEnd?_ofText_cases hstop

theorem exists_lineStart_of_locate? {position : Position}
    (h : (ofText text).locate? offset = some position) :
    ∃ start, (ofText text).lineStart? position.row = some start ∧
      start.toNat + position.column.toNat = offset.toNat ∧
      text.bytes.lineFrom start.toNat = text.bytes.lineAround offset.toNat ∧
      position.column.toNat ≤ (text.bytes.lineAround offset.toNat).length := by
  obtain ⟨htotal, -, hrow, start, hstart, hsum⟩ := locate?_eq_some_iff.1 h
  have horigin := lineStart?_ofText text htotal hrow hstart
  have hline : text.bytes.lineFrom start.toNat = text.bytes.lineAround offset.toNat := by
    rw [horigin]
    rfl
  refine ⟨start, hstart, hsum, hline, ?_⟩
  obtain ⟨_, stop, _, hstop, _, hle⟩ := spans_iff.2 ⟨htotal, hrow⟩
  have hbelow : stop ≤ text.size := stop_le_total hstop
  rw [UInt64.le_iff_toNat_le, text.toNat_size] at hbelow
  rw [UInt64.le_iff_toNat_le] at hle
  have hsub := UInt64.toNat_sub_of_le _ _ (start_le_stop hstart hstop)
  rw [← hline, ← slice_row hstart hstop, Bytes.length_slice (by omega), hsub]
  omega

end LineTable

end TextOrigin

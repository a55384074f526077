import TextOrigin.Proofs.Record.Descent
import TextOrigin.Proofs.Record.Trim

/-!
Trimmed records. Nothing is asked of the record that is trimmed, only that the text is as long as the
record. Then the trimmed record is the part of it that is kept: an offset of it resolves to what the
record's offset behind the blanks in front resolves to, in either mode. A text that was trimmed has no
blanks left to trim, so a record trimmed twice stays on its node. Main statement: `trim_slices`.
-/

namespace TextOrigin

namespace Record

/-- A record that stands for the bytes `[start, stop)` of another one: it is as long as they are, and
its offsets resolve to what the offsets from `start` on resolve to. -/
structure SliceOf (record : Record) (start stop : Word) (slice : Record) : Prop where
  length_eq : slice.length = stop - start
  value_eq : ∀ (registry : Registry) (settings : Settings) (mode : Mode) (offset : Word),
    offset < slice.length →
      (start + offset).toNat = start.toNat + offset.toNat ∧
      (slice.resolve registry settings mode offset).value =
        (record.resolve registry settings mode (start + offset)).value

theorem sliceOf_self (record : Record) : SliceOf record 0 record.length record where
  length_eq := (UInt64.sub_zero _).symm
  value_eq registry settings mode offset _ := by
    rw [UInt64.zero_add, UInt64.toNat_zero, Nat.zero_add]
    exact ⟨rfl, rfl⟩

theorem sliceOf_substring {node : NodeId} {record slice : Record} {start stop : Word}
    (h : record.substring node start stop = .ok slice) : SliceOf record start stop slice := by
  obtain ⟨hstart, hstop, rfl⟩ := substring_eq_ok_iff.1 h
  refine ⟨length_mk_ofLength _ _ _, fun registry settings mode offset hoffset => ⟨?_, ?_⟩⟩
  · have hwidth := UInt64.toNat_sub_of_le _ _ hstart
    have hsize := stop.toNat_lt_size
    rw [length_mk_ofLength, UInt64.lt_iff_toNat_lt] at hoffset
    rw [UInt64.le_iff_toNat_le] at hstart
    exact toNat_add_of_lt (by omega)
  · have hinside : offset ≤ (Range.ofLength (stop - start)).length := UInt64.le_of_lt hoffset
    rw [value_resolve, landing_descend, step_substring_of_le hinside, value_resolve,
      UInt64.add_comm]

variable {record : Record} {text : Text} {leading trailing : Bool} {front kept back : Bytes}

theorem sliceOf_trim (h : text.bytes.Trimming leading trailing front kept back)
    (hlength : record.length = text.size) (node : NodeId) :
    SliceOf record (UInt64.ofNat front.length) (UInt64.ofNat (front.length + kept.length))
      (record.trim node text leading trailing) := by
  by_cases hnone : front = [] ∧ back = []
  · have hparts := h.length_eq
    rw [hnone.1, hnone.2, List.length_nil, Nat.add_zero] at hparts
    have hsize : UInt64.ofNat (0 + kept.length) = record.length := by
      rw [hparts, hlength, Text.size]
    rw [trim_of_nil h hnone node, hnone.1, List.length_nil, hsize]
    exact sliceOf_self record
  · exact sliceOf_substring (substring_of_trimming h hlength hnone node)

theorem length_trim (h : text.bytes.Trimming leading trailing front kept back)
    (hlength : record.length = text.size) (node : NodeId) :
    (record.trim node text leading trailing).length = (text.trim leading trailing).size := by
  obtain ⟨hstart, hstop⟩ := toNat_bounds_of_trimming h
  have hle : UInt64.ofNat front.length ≤ UInt64.ofNat (front.length + kept.length) := by
    rw [UInt64.le_iff_toNat_le, hstart, hstop]
    exact Nat.le_add_right _ _
  rw [(sliceOf_trim h hlength node).length_eq, ← UInt64.toNat_inj, UInt64.toNat_sub_of_le _ _ hle,
    hstart, hstop, Text.toNat_size, Text.bytes_trim, h.trim_eq, Nat.add_sub_cancel_left]

theorem trim_trim (h : text.bytes.Trimming leading trailing front kept back) (node again : NodeId) :
    (record.trim node text leading trailing).trim again (text.trim leading trailing) leading
      trailing = record.trim node text leading trailing := by
  have hkept : (text.trim leading trailing).bytes.Trimming leading trailing [] kept [] := by
    rw [Text.bytes_trim, h.trim_eq]
    exact h.again
  exact trim_of_nil hkept ⟨rfl, rfl⟩ again

/-- Trimming a record by a text as long as it. The text is cut into the blanks at its ends that are
asked for and the bytes that are kept. The trimmed record stands for these bytes: it is the record
itself where nothing is cut off, and else the slice of it at their bounds, which is always made. It is
as long as the trimmed text, and trimmed by this text again it is the same record on the same node. -/
theorem trim_slices (hlength : record.length = text.size) (node : NodeId)
    (leading trailing : Bool) :
    ∃ (front kept back : Bytes) (start stop : Word),
      text.bytes.Trimming leading trailing front kept back ∧
      start.toNat = front.length ∧ stop.toNat = front.length + kept.length ∧
      SliceOf record start stop (record.trim node text leading trailing) ∧
      (front = [] ∧ back = [] → record.trim node text leading trailing = record) ∧
      (¬ (front = [] ∧ back = []) →
        record.substring node start stop = .ok (record.trim node text leading trailing)) ∧
      (text.trim leading trailing).bytes = kept ∧
      (record.trim node text leading trailing).length = (text.trim leading trailing).size ∧
      ∀ again, (record.trim node text leading trailing).trim again (text.trim leading trailing)
        leading trailing = record.trim node text leading trailing := by
  obtain ⟨front, kept, back, h⟩ := text.bytes.exists_trimming leading trailing
  obtain ⟨hstart, hstop⟩ := toNat_bounds_of_trimming h
  exact ⟨front, kept, back, _, _, h, hstart, hstop, sliceOf_trim h hlength node,
    fun hnone => trim_of_nil h hnone node, fun hsome => substring_of_trimming h hlength hsome node,
    h.trim_eq, length_trim h hlength node, trim_trim h node⟩

end Record

/-! A line of a song with blanks around it. -/

namespace Song

def sheet : Text := ⟨ascii "1) \tdo re \nmi", by decide⟩

def files : Registry :=
  (Registry.empty.add (ascii "song") (Backing.ofText sheet)).value.2

def line : Record := Record.leaf ⟨0⟩ ⟨0⟩ ⟨⟨2, 0, 2⟩, ⟨11, 1, 0⟩⟩

def given : Text := ⟨ascii " \tdo re \n", by decide⟩

def words : Record := .mk ⟨1⟩ (Range.ofLength 5) (.substring line 2)

end Song

theorem Record.trim_slices_song :
    Song.line.length = Song.given.size ∧ Song.line.trim ⟨1⟩ Song.given true true = Song.words ∧
      (Song.given.trim true true).bytes = ascii "do re" ∧
      (Song.words.resolve Song.files {} .closest 3).value =
        (Song.line.resolve Song.files {} .closest 5).value ∧
      (Song.words.resolve Song.files {} .strict 3).value = some ⟨⟨0⟩, 7, 0, 7⟩ ∧
      Song.words.trim ⟨2⟩ (Song.given.trim true true) true true = Song.words := by
  have hlength : Song.line.length = Song.given.size := by decide
  have hwords : Song.line.trim ⟨1⟩ Song.given true true = Song.words := rfl
  obtain ⟨front, kept, back, start, stop, htrimming, hstart, -, hslice, -, -, -, -, hagain⟩ :=
    Record.trim_slices hlength ⟨1⟩ true true
  rw [hwords] at hslice hagain
  obtain rfl : start = 2 := by
    have hfront := htrimming.leading_eq
    rw [← hstart] at hfront
    exact UInt64.toNat_inj.1 hfront.symm
  have hvalue := fun mode => (hslice.value_eq Song.files {} mode 3 (by decide)).2
  exact ⟨hlength, hwords, by decide, hvalue .closest, by decide +kernel, hagain ⟨2⟩⟩

end TextOrigin

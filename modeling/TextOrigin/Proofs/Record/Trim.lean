import TextOrigin.Proofs.Bytes.Trimming
import TextOrigin.Proofs.Record.Pieces
import TextOrigin.Record.Trim

/-!
What trimming a record cuts off. The text that remains is the slice that is kept, and the trimmed
record is either the record itself, when nothing is cut off, or the slice of it at the same bounds.
-/

namespace TextOrigin

namespace Text

def trim (text : Text) (leading trailing : Bool) : Text where
  bytes := text.bytes.trim leading trailing
  length_lt := by
    have hlt := text.length_lt
    rw [(Bytes.trim_eq_slice text.bytes leading trailing).2, List.length_take, List.length_drop]
    omega

theorem bytes_trim (text : Text) (leading trailing : Bool) :
    (text.trim leading trailing).bytes = text.bytes.trim leading trailing := rfl

end Text

namespace Record

section Trimming

variable {record : Record} {text : Text} {leading trailing : Bool} {front kept back : Bytes}

theorem toNat_bounds_of_trimming (h : text.bytes.Trimming leading trailing front kept back) :
    (UInt64.ofNat front.length).toNat = front.length ∧
      (UInt64.ofNat (front.length + kept.length)).toNat = front.length + kept.length := by
  have hlt := text.length_lt
  have hparts := h.length_eq
  exact ⟨UInt64.toNat_ofNat_of_lt' (by omega), UInt64.toNat_ofNat_of_lt' (by omega)⟩

theorem trim_of_nil (h : text.bytes.Trimming leading trailing front kept back)
    (hnone : front = [] ∧ back = []) (node : NodeId) :
    record.trim node text leading trailing = record := by
  unfold trim
  dsimp only
  rw [h.leading_eq, h.trailing_eq, hnone.1, hnone.2]
  simp

theorem substring_of_trimming (h : text.bytes.Trimming leading trailing front kept back)
    (hlength : record.length = text.size) (hsome : ¬ (front = [] ∧ back = [])) (node : NodeId) :
    record.substring node (UInt64.ofNat front.length)
      (UInt64.ofNat (front.length + kept.length)) =
        .ok (record.trim node text leading trailing) := by
  have hparts := h.length_eq
  have hstop : text.bytes.length - back.length = front.length + kept.length := by omega
  obtain ⟨slice, hslice⟩ : ∃ slice, record.substring node (UInt64.ofNat front.length)
      (UInt64.ofNat (front.length + kept.length)) = .ok slice := by
    obtain ⟨hfirst, hlast⟩ := toNat_bounds_of_trimming h
    refine ⟨_, substring_eq_ok_iff.2 ⟨?_, ?_, rfl⟩⟩
    · rw [UInt64.le_iff_toNat_le, hfirst, hlast]
      exact Nat.le_add_right _ _
    · rw [hlength, UInt64.le_iff_toNat_le, hlast, text.toNat_size]
      omega
  have htrim : record.trim node text leading trailing = slice := by
    unfold trim
    dsimp only
    rw [if_neg fun hne => hne hlength.symm, h.leading_eq, h.trailing_eq, if_neg (by simpa using hsome),
      hstop, hslice]
  rw [htrim, hslice]

end Trimming

theorem trim_cases (node : NodeId) {record : Record} {text : Text} (leading trailing : Bool)
    (hlength : record.length = text.size) :
    (record.trim node text leading trailing = record ∧ text.trim leading trailing = text) ∨
    ∃ start stop, record.substring node start stop =
        .ok (record.trim node text leading trailing) ∧
      (text.trim leading trailing).bytes = Bytes.slice text.bytes start (stop - start) := by
  obtain ⟨front, kept, back, h⟩ := text.bytes.exists_trimming leading trailing
  by_cases hnone : front = [] ∧ back = []
  · left
    have hparts := h.parts
    rw [hnone.1, hnone.2, List.nil_append, List.append_nil] at hparts
    refine ⟨trim_of_nil h hnone node, ?_⟩
    simp only [Text.trim, h.trim_eq, hparts]
  · right
    have hslice := substring_of_trimming h hlength hnone node
    obtain ⟨hfirst, hlast⟩ := toNat_bounds_of_trimming h
    have hwidth := UInt64.toNat_sub_of_le _ _ (substring_eq_ok_iff.1 hslice).1
    refine ⟨_, _, hslice, ?_⟩
    rw [Text.bytes_trim, h.trim_eq, Bytes.slice, hwidth, hfirst, hlast, Nat.add_sub_cancel_left,
      h.drop_front, List.take_left]

end Record

end TextOrigin

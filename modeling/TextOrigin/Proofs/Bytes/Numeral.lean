import TextOrigin.Bytes.Decimal
import TextOrigin.Proofs.Bytes.Separators

/-!
Numerals. A numeral is one or more digits, leading zeros included, and its value is the number that
they write in base ten. The readers of numbers accept exactly the numerals of the values that they
can return, and the writer writes one of them for every number.
-/

namespace TextOrigin

def digitsValue (value : Nat) (text : Bytes) : Nat :=
  text.foldl (fun value b => 10 * value + (b.toNat - 48)) value

/-- One or more digits that write `n`. -/
structure Numeral (text : Bytes) (n : Nat) : Prop where
  ne_nil : text ≠ []
  digits : ∀ b ∈ text, 48 ≤ b ∧ b ≤ 57
  value_eq : digitsValue 0 text = n

theorem readDigits?_eq_some_iff {value n : Nat} {text : Bytes} :
    readDigits? value text = some n ↔
      (∀ b ∈ text, 48 ≤ b ∧ b ≤ 57) ∧ digitsValue value text = n := by
  induction text generalizing value with
  | nil => simp [readDigits?, digitsValue]
  | cons b rest ih =>
    rw [readDigits?, digitValue?, List.forall_mem_cons, digitsValue, List.foldl_cons]
    by_cases hb : 48 ≤ b ∧ b ≤ 57
    · rw [if_pos hb]
      simp only [ih, hb, digitsValue, and_self, true_and]
    · rw [if_neg hb]
      simp only [hb, reduceCtorEq, false_and]

theorem readDecimal?_eq_some_iff {text : Bytes} {n : Nat} :
    readDecimal? text = some n ↔ Numeral text n := by
  rw [readDecimal?]
  split
  · next hnil => simpa using fun h : Numeral text n => h.ne_nil hnil
  · next hne =>
    rw [readDigits?_eq_some_iff]
    exact ⟨fun h => ⟨hne, h.1, h.2⟩, fun h => ⟨h.digits, h.value_eq⟩⟩

theorem readWord?_eq_some_iff {text : Bytes} {w : Word} :
    readWord? text = some w ↔ Numeral text w.toNat := by
  rw [← readDecimal?_eq_some_iff, readWord?, Option.bind_eq_some_iff]
  constructor
  · rintro ⟨n, hn, hw⟩
    split at hw
    · next hlt => rw [hn, ← Option.some.inj hw, UInt64.toNat_ofNat_of_lt' hlt]
    · contradiction
  · intro h
    exact ⟨w.toNat, h, by rw [if_pos w.toNat_lt, UInt64.ofNat_toNat]⟩

theorem readWord32?_eq_some_iff {text : Bytes} {w : UInt32} :
    readWord32? text = some w ↔ Numeral text w.toNat := by
  rw [← readDecimal?_eq_some_iff, readWord32?, Option.bind_eq_some_iff]
  constructor
  · rintro ⟨n, hn, hw⟩
    split at hw
    · next hlt => rw [hn, ← Option.some.inj hw, UInt32.toNat_ofNat_of_lt' hlt]
    · contradiction
  · intro h
    exact ⟨w.toNat, h, by rw [if_pos w.toNat_lt, UInt32.ofNat_toNat]⟩

theorem numeral_decimal (n : Nat) : Numeral (decimal n) n :=
  readDecimal?_eq_some_iff.1 (readDecimal?_decimal n)

namespace Numeral

theorem le_of_mem {text : Bytes} {n : Nat} (h : Numeral text n) : ∀ b ∈ text, 48 ≤ b :=
  fun b hb => (h.digits b hb).1

theorem isToken {text : Bytes} {n : Nat} (h : Numeral text n) : Bytes.IsToken text :=
  Bytes.isToken_of_le h.ne_nil h.le_of_mem

theorem colon_notMem {text : Bytes} {n : Nat} (h : Numeral text n) : Bytes.colon ∉ text := by
  intro hmem
  exact absurd (h.digits _ hmem).2 (by decide)

end Numeral

end TextOrigin

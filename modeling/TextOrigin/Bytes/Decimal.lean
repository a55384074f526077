import TextOrigin.Bytes

/-!
Plain decimal numerals. `decimal` writes a number without sign or leading zeros. `readDecimal?`
reads one or more digits and nothing else, leading zeros included, and so reads back what
`decimal` writes. The bounded readers refuse a value that their word cannot hold.
-/

namespace TextOrigin

def digit (d : Nat) : UInt8 :=
  UInt8.ofNat (48 + d)

def decimal (n : Nat) : Bytes :=
  if n < 10 then [digit n] else decimal (n / 10) ++ [digit (n % 10)]
termination_by n
decreasing_by omega

def digitValue? (b : UInt8) : Option Nat :=
  if 48 ≤ b ∧ b ≤ 57 then some (b.toNat - 48) else none

def readDigits? (value : Nat) : Bytes → Option Nat
  | [] => some value
  | b :: rest =>
    match digitValue? b with
    | some d => readDigits? (10 * value + d) rest
    | none => none

def readDecimal? (text : Bytes) : Option Nat :=
  if text = [] then none else readDigits? 0 text

def readWord? (text : Bytes) : Option Word :=
  (readDecimal? text).bind fun n => if n < UInt64.size then some (UInt64.ofNat n) else none

def readWord32? (text : Bytes) : Option UInt32 :=
  (readDecimal? text).bind fun n => if n < UInt32.size then some (UInt32.ofNat n) else none

theorem digitValue?_digit {d : Nat} (h : d < 10) : digitValue? (digit d) = some d := by
  have hd : (digit d).toNat = 48 + d := by
    simp only [digit, UInt8.toNat_ofNat']
    omega
  have hlow : (48 : UInt8) ≤ digit d := by
    rw [UInt8.le_iff_toNat_le, hd]
    change 48 ≤ 48 + d
    omega
  have hhigh : digit d ≤ 57 := by
    rw [UInt8.le_iff_toNat_le, hd]
    change 48 + d ≤ 57
    omega
  rw [digitValue?, if_pos ⟨hlow, hhigh⟩, hd]
  simp

theorem readDigits?_append (value : Nat) (first rest : Bytes) :
    readDigits? value (first ++ rest) =
      (readDigits? value first).bind fun v => readDigits? v rest := by
  induction first generalizing value with
  | nil => rfl
  | cons b first ih =>
    simp only [List.cons_append, readDigits?]
    cases digitValue? b with
    | none => rfl
    | some d => exact ih _

theorem readDigits?_decimal (n : Nat) : readDigits? 0 (decimal n) = some n := by
  fun_induction decimal n with
  | case1 n h => simp [readDigits?, digitValue?_digit h]
  | case2 n h ih =>
    rw [readDigits?_append, ih]
    simp only [Option.bind_some, readDigits?, digitValue?_digit (Nat.mod_lt n (by omega : 10 > 0))]
    congr 1
    omega

theorem decimal_ne_nil (n : Nat) : decimal n ≠ [] := by
  unfold decimal
  split <;> simp

theorem readDecimal?_decimal (n : Nat) : readDecimal? (decimal n) = some n := by
  rw [readDecimal?, if_neg (decimal_ne_nil n), readDigits?_decimal]

end TextOrigin

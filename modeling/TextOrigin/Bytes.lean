/-!
Byte strings and machine words. Every offset, row, column and length of the library is a
`Word` of sixty-four bits whose arithmetic wraps. A text is a list of bytes and nothing here
assumes an encoding. `split` cuts a text at separators; joining its result with one separator
byte gives the text back.
-/

namespace TextOrigin

abbrev Word := UInt64

abbrev Bytes := List UInt8

theorem toNat_add_of_lt {a b : Word} (h : a.toNat + b.toNat < UInt64.size) :
    (a + b).toNat = a.toNat + b.toNat := by
  rw [UInt64.toNat_add, Nat.mod_eq_of_lt h]

theorem toNat_add_of_le {a b : Word} (h : UInt64.size ≤ a.toNat + b.toNat) :
    (a + b).toNat = a.toNat + b.toNat - UInt64.size := by
  have ha := a.toNat_lt_size
  have hb := b.toNat_lt_size
  rw [UInt64.toNat_add, Nat.mod_eq_sub_mod h]
  exact Nat.mod_eq_of_lt (by omega)

theorem toNat_add_one {a b : Word} (h : a < b) : (a + 1).toNat = a.toNat + 1 := by
  have hone : (1 : Word).toNat = 1 := rfl
  have hsize := b.toNat_lt_size
  rw [UInt64.lt_iff_toNat_lt] at h
  rw [toNat_add_of_lt (by omega), hone]

theorem add_one_le {a b : Word} (h : a < b) : a + 1 ≤ b := by
  rw [UInt64.le_iff_toNat_le, toNat_add_one h]
  exact UInt64.lt_iff_toNat_lt.1 h

theorem toNat_sub_one {a : Word} (h : 0 < a) : (a - 1).toNat = a.toNat - 1 := by
  have hone : (1 : Word).toNat = 1 := rfl
  have hle : 1 ≤ a := by
    rw [UInt64.le_iff_toNat_le, hone]
    exact UInt64.lt_iff_toNat_lt.1 h
  rw [UInt64.toNat_sub_of_le _ _ hle, hone]

theorem le_sub_one {a b : Word} (h : a < b) : a ≤ b - 1 := by
  rw [UInt64.le_iff_toNat_le, toNat_sub_one (UInt64.lt_of_le_of_lt UInt64.zero_le h)]
  exact Nat.le_pred_of_lt (UInt64.lt_iff_toNat_lt.1 h)

def ascii (s : String) : Bytes :=
  s.toList.map fun c => UInt8.ofNat c.toNat

namespace Bytes

def newline : UInt8 := 10

def space : UInt8 := 32

def slash : UInt8 := 47

def colon : UInt8 := 58

/-- Cuts `text` at every byte that satisfies `isSeparator`. The result is never empty: without a
separator it holds the whole text, and separators at an end give empty parts there. -/
def split (isSeparator : UInt8 → Bool) (text : Bytes) : List Bytes :=
  text.foldr (fun b parts =>
    if isSeparator b then [] :: parts
    else match parts with
      | [] => [[b]]
      | part :: rest => (b :: part) :: rest) [[]]

theorem split_ne_nil (isSeparator : UInt8 → Bool) (text : Bytes) :
    split isSeparator text ≠ [] := by
  cases text with
  | nil => simp [split]
  | cons b rest =>
    rw [split, List.foldr_cons]
    split
    · simp
    · split <;> simp

/-- The lines of a text. A newline ends its line, so a final newline opens no further line and
the empty text has no lines. -/
def lines (text : Bytes) : List Bytes :=
  let parts := split (· == newline) text
  if parts.getLast? = some [] then parts.dropLast else parts

/-- White space of the plain ASCII locale: tab, newline, vertical tab, form feed, carriage return
and space. -/
def isBlank (b : UInt8) : Bool :=
  b == space || (9 ≤ b && b ≤ 13)

def leadingBlanks (text : Bytes) : Nat :=
  (text.takeWhile isBlank).length

def trailingBlanks (text : Bytes) : Nat :=
  leadingBlanks text.reverse

def dropTrailingBlanks (text : Bytes) : Bytes :=
  (text.reverse.dropWhile isBlank).reverse

def trimBlanks (text : Bytes) : Bytes :=
  dropTrailingBlanks (text.dropWhile isBlank)

def tokens (text : Bytes) : List Bytes :=
  (split isBlank text).filter (· ≠ [])

def join (separator : UInt8) : List Bytes → Bytes
  | [] => []
  | [part] => part
  | part :: rest => part ++ separator :: join separator rest

theorem join_cons_cons (separator b : UInt8) (part : Bytes) (rest : List Bytes) :
    join separator ((b :: part) :: rest) = b :: join separator (part :: rest) := by
  cases rest <;> simp [join]

theorem join_split (separator : UInt8) (text : Bytes) :
    join separator (split (· == separator) text) = text := by
  induction text with
  | nil => rfl
  | cons b rest ih =>
    have hne := split_ne_nil (· == separator) rest
    rw [split, List.foldr_cons]
    change join separator (if (b == separator) = true then [] :: split (· == separator) rest
      else match split (· == separator) rest with
        | [] => [[b]]
        | part :: parts => (b :: part) :: parts) = _
    cases hs : split (· == separator) rest with
    | nil => exact absurd hs hne
    | cons part parts =>
      rw [hs] at ih
      split
      · next h => simp [join, ih, eq_of_beq h]
      · simp [join_cons_cons, ih]

/-- Bytes that start a character in UTF-8: all but the continuation bytes `10xxxxxx`. -/
def startsCharacter (b : UInt8) : Bool :=
  b &&& 0xC0 != 0x80

def characterCount (text : Bytes) : Nat :=
  text.countP startsCharacter

theorem characterCount_append (first second : Bytes) :
    characterCount (first ++ second) = characterCount first + characterCount second :=
  List.countP_append

theorem characterCount_le (text : Bytes) : characterCount text ≤ text.length :=
  List.countP_le_length

theorem characterCount_take_mono (text : Bytes) {m n : Nat} (h : m ≤ n) :
    characterCount (text.take m) ≤ characterCount (text.take n) :=
  (List.take_sublist_take_left h).countP_le

theorem characterCount_drop_take (text : Bytes) (first stop : Nat) :
    characterCount ((text.take stop).drop first) =
      characterCount (text.take stop) - characterCount (text.take first) := by
  rcases Nat.le_total first stop with hle | hle
  · have hparts := List.take_append_drop first (text.take stop)
    rw [List.take_take, Nat.min_eq_left hle] at hparts
    rw [← hparts, characterCount_append, Nat.add_sub_cancel_left, hparts]
  · have hnone : (text.take stop).drop first = [] := by
      apply List.drop_eq_nil_of_le
      rw [List.length_take]
      exact Nat.le_trans (Nat.min_le_left _ _) hle
    rw [hnone, Nat.sub_eq_zero_of_le (characterCount_take_mono text hle)]
    rfl

end Bytes

end TextOrigin

import TextOrigin.Proofs.Record.Lookup

/-!
Proportional places. An entry carries an offset over in proportion to its two widths, rounded down. The
product on the way is a word that may wrap, and the quotient is then too small; entries of one width
shift without a product. So an offset goes on at its proportional place exactly if the widths are equal
or the product fits a word. Main statement: `transformed_proportion`.
-/

namespace TextOrigin

theorem toNat_mul_word (a b : Word) : (a * b).toNat = a.toNat * b.toNat % UInt64.size :=
  UInt64.toNat_mul a b

theorem mod_size_div_lt {product width : Nat} (hwrap : UInt64.size ≤ product) (hpos : 0 < width)
    (hwidth : width < UInt64.size) : product % UInt64.size / width < product / width := by
  have hdiv := Nat.div_add_mod product UInt64.size
  have hquot : 1 ≤ product / UInt64.size := (Nat.one_le_div_iff (by decide)).2 hwrap
  have hle := Nat.mul_le_mul_left UInt64.size hquot
  rw [Nat.div_lt_iff_lt_mul hpos]
  have hupper := Nat.lt_div_mul_add hpos (a := product)
  omega

namespace MapEntry

def fromWidth (entry : MapEntry) : Nat := entry.fromStop.toNat - entry.fromStart.toNat

def toWidth (entry : MapEntry) : Nat := entry.toStop.toNat - entry.toStart.toNat

/-- How many bytes of the entry's target range come before an offset. -/
def inset (entry : MapEntry) (offset : Word) : Nat := offset.toNat - entry.toStart.toNat

/-- The source offset in proportion to a target offset, rounded down. -/
def proportion (entry : MapEntry) (offset : Word) : Nat :=
  entry.fromStart.toNat + entry.inset offset * entry.fromWidth / entry.toWidth

/-- The proportion is computed without a product or with one that fits a word. -/
def Exact (entry : MapEntry) (offset : Word) : Prop :=
  entry.fromWidth = entry.toWidth ∨ entry.inset offset * entry.fromWidth < UInt64.size

variable {entry : MapEntry} {offset later : Word}

theorem inset_lt (h : entry.covers offset = true) : entry.inset offset < entry.toWidth := by
  obtain ⟨hstart, hstop⟩ := covers_iff.1 h
  rw [UInt64.le_iff_toNat_le] at hstart
  rw [UInt64.lt_iff_toNat_lt] at hstop
  rw [inset, toWidth]
  omega

theorem toWidth_pos (h : entry.covers offset = true) : 0 < entry.toWidth :=
  Nat.lt_of_le_of_lt (Nat.zero_le _) (inset_lt h)

theorem toWidth_lt (entry : MapEntry) : entry.toWidth < UInt64.size :=
  Nat.lt_of_le_of_lt (Nat.sub_le _ _) entry.toStop.toNat_lt_size

theorem share_le {product : Nat} (h : entry.covers offset = true)
    (hle : product ≤ entry.inset offset * entry.fromWidth) :
    product / entry.toWidth ≤ entry.fromWidth := by
  refine Nat.div_le_of_le_mul (Nat.le_trans hle ?_)
  exact Nat.mul_le_mul_right _ (Nat.le_of_lt (inset_lt h))

/-- The words of an interpolation as numbers: nothing wraps but the product. -/
theorem toNat_interpolate (hfrom : entry.fromStart ≤ entry.fromStop)
    (h : entry.covers offset = true) :
    (entry.interpolate offset).toNat = entry.fromStart.toNat +
      if entry.fromWidth = entry.toWidth then entry.inset offset
      else entry.inset offset * entry.fromWidth % UInt64.size / entry.toWidth := by
  obtain ⟨hstart, hstop⟩ := covers_iff.1 h
  have hto := UInt64.le_trans hstart (UInt64.le_of_lt hstop)
  have hfromWidth : (entry.fromStop - entry.fromStart).toNat = entry.fromWidth :=
    UInt64.toNat_sub_of_le _ _ hfrom
  have htoWidth : (entry.toStop - entry.toStart).toNat = entry.toWidth :=
    UInt64.toNat_sub_of_le _ _ hto
  have hinset : (offset - entry.toStart).toNat = entry.inset offset :=
    UInt64.toNat_sub_of_le _ _ hstart
  have hend : entry.fromStart.toNat + entry.fromWidth < UInt64.size := by
    have hstop := entry.fromStop.toNat_lt_size
    rw [UInt64.le_iff_toNat_le] at hfrom
    rw [fromWidth]
    omega
  have hwidths : entry.toStop - entry.toStart = entry.fromStop - entry.fromStart ↔
      entry.fromWidth = entry.toWidth := by
    rw [← UInt64.toNat_inj, htoWidth, hfromWidth, eq_comm]
  rw [interpolate]
  simp only [hwidths]
  split
  · next hsame =>
    have hlt := inset_lt h
    rw [toNat_add_of_lt (by omega), hinset]
  · have hshare : ((offset - entry.toStart) * (entry.fromStop - entry.fromStart) /
        (entry.toStop - entry.toStart)).toNat =
          entry.inset offset * entry.fromWidth % UInt64.size / entry.toWidth := by
      rw [UInt64.toNat_div, toNat_mul_word, hinset, hfromWidth, htoWidth]
    have hle := share_le h (Nat.mod_le (entry.inset offset * entry.fromWidth) UInt64.size)
    rw [toNat_add_of_lt (by omega), hshare]

theorem proportion_of_width_eq (hsame : entry.fromWidth = entry.toWidth)
    (h : entry.covers offset = true) :
    entry.proportion offset = entry.fromStart.toNat + entry.inset offset := by
  rw [proportion, hsame, Nat.mul_div_cancel _ (toWidth_pos h)]

theorem toNat_interpolate_le (hfrom : entry.fromStart ≤ entry.fromStop)
    (h : entry.covers offset = true) :
    (entry.interpolate offset).toNat ≤ entry.proportion offset ∧
      ((entry.interpolate offset).toNat = entry.proportion offset ↔ entry.Exact offset) := by
  rw [toNat_interpolate hfrom h]
  by_cases hsame : entry.fromWidth = entry.toWidth
  · rw [if_pos hsame, proportion_of_width_eq hsame h]
    exact ⟨Nat.le_refl _, iff_of_true rfl (.inl hsame)⟩
  · rw [if_neg hsame, proportion]
    by_cases hfits : entry.inset offset * entry.fromWidth < UInt64.size
    · rw [Nat.mod_eq_of_lt hfits]
      exact ⟨Nat.le_refl _, iff_of_true rfl (.inr hfits)⟩
    · have hlt := mod_size_div_lt (Nat.le_of_not_lt hfits) (toWidth_pos h) entry.toWidth_lt
      refine ⟨Nat.add_le_add_left (Nat.le_of_lt hlt) _, iff_of_false ?_ ?_⟩
      · omega
      · rintro (heq | hfits')
        · exact hsame heq
        · exact hfits hfits'

theorem inset_mono (hle : offset ≤ later) : entry.inset offset ≤ entry.inset later :=
  Nat.sub_le_sub_right (UInt64.le_iff_toNat_le.1 hle) _

theorem proportion_mono (hle : offset ≤ later) :
    entry.proportion offset ≤ entry.proportion later :=
  Nat.add_le_add_left (Nat.div_le_div_right (Nat.mul_le_mul_right _ (inset_mono hle))) _

theorem interpolate_mono (hfrom : entry.fromStart ≤ entry.fromStop)
    (h : entry.covers offset = true) (hle : offset ≤ later) (hlater : entry.covers later = true)
    (hexact : entry.Exact later) : entry.interpolate offset ≤ entry.interpolate later := by
  rw [UInt64.le_iff_toNat_le]
  calc (entry.interpolate offset).toNat
      ≤ entry.proportion offset := (toNat_interpolate_le hfrom h).1
    _ ≤ entry.proportion later := proportion_mono hle
    _ = (entry.interpolate later).toNat := ((toNat_interpolate_le hfrom hlater).2.2 hexact).symm

end MapEntry

/-- An offset that an entry of a transformed record covers goes on in the parent at its proportional
place exactly if the entry's widths are equal or the product of the proportion fits a word, and short
of this place otherwise. Up to an offset of the first kind the order of offsets is kept. -/
theorem Record.transformed_proportion {record parent : Record} {mapping : Mapping}
    (h : record.Arises) (hlink : record.link = .transformed parent mapping) (settings : Settings)
    {entry : MapEntry} (hentry : entry ∈ mapping) {offset : Word}
    (hcovers : entry.covers offset = true) :
    (∀ mode, GoesOn settings mode record offset parent (entry.interpolate offset)) ∧
      (entry.interpolate offset).toNat ≤ entry.proportion offset ∧
      ((entry.interpolate offset).toNat = entry.proportion offset ↔ entry.Exact offset) ∧
      ∀ later, offset ≤ later → entry.covers later = true → entry.Exact later →
        entry.interpolate offset ≤ entry.interpolate later := by
  have hfits := h.fits
  rw [hlink] at hfits
  have hfrom := (Mapping.within_of_faultFrom? hfits entry hentry).from_le
  obtain ⟨hle, hexact⟩ := MapEntry.toNat_interpolate_le hfrom hcovers
  exact ⟨goesOn_of_covers (h.mapping_ordered hlink) hlink hentry hcovers settings, hle, hexact,
    fun later => MapEntry.interpolate_mono hfrom hcovers⟩

/-! A text that came back at half its length, of a size at which a product wraps. -/

namespace Halved

def files : Registry :=
  (Registry.empty.add (ascii "log") (.table ⟨[], 8589934592, .nil, by simp⟩)).value.2

def whole : Record := Record.leaf ⟨0⟩ ⟨0⟩ ⟨⟨0, 0, 0⟩, ⟨8589934592, 0, 8589934592⟩⟩

def entry : MapEntry := ⟨0, 8589934592, 0, 4294967296⟩

def text : Record := .mk ⟨1⟩ (Range.ofLength 4294967296) (.transformed whole [entry])

theorem transformed_whole : whole.transformed ⟨1⟩ [entry] 4294967296 = .ok text := rfl

theorem arises_text : text.Arises := by
  have hnone : ∀ other ∈ ([] : List Record), other.Arises := by simp
  exact .built (List.forall_mem_singleton.2 (.built hnone (.leaf _ _)))
    (.transformed (List.mem_singleton_self whole) transformed_whole)

end Halved

theorem Record.transformed_proportion_halved :
    Halved.text.Arises ∧ Halved.entry.covers 2147483647 = true ∧
      Halved.entry.Exact 2147483647 ∧ Halved.entry.proportion 2147483647 = 4294967294 ∧
      GoesOn {} .strict Halved.text 2147483647 Halved.whole 4294967294 := by
  have hcovers : Halved.entry.covers 2147483647 = true := by decide
  have hplace : Halved.entry.interpolate 2147483647 = 4294967294 := by decide
  have hproportion : Halved.entry.proportion 2147483647 = 4294967294 := by decide
  obtain ⟨hgoes, -, hexact, -⟩ := Record.transformed_proportion Halved.arises_text rfl {}
    (List.mem_singleton_self Halved.entry) hcovers
  rw [hplace, hproportion] at hexact
  rw [hplace] at hgoes
  exact ⟨Halved.arises_text, hcovers, hexact.1 rfl, hproportion, hgoes .strict⟩

/-- One byte further on, the product wraps to zero and the offset goes back to the start. -/
theorem Record.transformed_proportion_wrapped :
    Halved.whole.transformed ⟨1⟩ [Halved.entry] 4294967296 = .ok Halved.text ∧
      Halved.entry.covers 2147483648 = true ∧
      Halved.entry.proportion 2147483648 = 4294967296 ∧
      Halved.entry.interpolate 2147483648 = 0 ∧
      Halved.entry.interpolate 2147483648 < Halved.entry.interpolate 2147483647 ∧
      (Halved.text.resolve Halved.files {} .strict 2147483648).value = some ⟨⟨0⟩, 0, 0, 0⟩ ∧
      (Halved.whole.resolve Halved.files {} .strict 4294967296).value =
        some ⟨⟨0⟩, 4294967296, 0, 4294967296⟩ :=
  ⟨rfl, by decide, by decide, by decide, by decide, by decide +kernel, by decide +kernel⟩

end TextOrigin

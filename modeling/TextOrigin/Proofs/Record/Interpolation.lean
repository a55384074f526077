import TextOrigin.Proofs.Record.Proportion

/-!
Where interpolation ends up. A product that wraps only gets smaller, and its quotient with it, so an
offset that an entry covers is carried into the entry's source range whether or not the product wraps:
before the end of a range that is not empty, and to the start of an empty one. Mappings that passed a
check keep these ranges inside the source text. Main statement: `interpolate_within`.
-/

namespace TextOrigin

namespace MapEntry

variable {entry : MapEntry} {offset : Word}

theorem share_lt {product : Nat} (hwidth : 0 < entry.fromWidth) (h : entry.covers offset = true)
    (hle : product ≤ entry.inset offset * entry.fromWidth) :
    product / entry.toWidth < entry.fromWidth := by
  rw [Nat.div_lt_iff_lt_mul (toWidth_pos h)]
  calc product
      ≤ entry.inset offset * entry.fromWidth := hle
    _ < entry.toWidth * entry.fromWidth := Nat.mul_lt_mul_of_pos_right (inset_lt h) hwidth
    _ = entry.fromWidth * entry.toWidth := Nat.mul_comm _ _

theorem le_interpolate (hfrom : entry.fromStart ≤ entry.fromStop)
    (h : entry.covers offset = true) : entry.fromStart ≤ entry.interpolate offset := by
  rw [UInt64.le_iff_toNat_le, toNat_interpolate hfrom h]
  exact Nat.le_add_right _ _

theorem interpolate_lt (hfrom : entry.fromStart < entry.fromStop)
    (h : entry.covers offset = true) : entry.interpolate offset < entry.fromStop := by
  have hwidth : entry.fromStop.toNat = entry.fromStart.toNat + entry.fromWidth := by
    have hle := UInt64.lt_iff_toNat_lt.1 hfrom
    rw [fromWidth]
    omega
  rw [UInt64.lt_iff_toNat_lt] at hfrom ⊢
  rw [toNat_interpolate (UInt64.le_iff_toNat_le.2 (Nat.le_of_lt hfrom)) h, hwidth]
  apply Nat.add_lt_add_left
  split
  · next hsame =>
    rw [hsame]
    exact inset_lt h
  · exact share_lt (by omega) h (Nat.mod_le _ _)

theorem interpolate_of_from_eq (hfrom : entry.fromStart = entry.fromStop)
    (h : entry.covers offset = true) : entry.interpolate offset = entry.fromStart := by
  have hnone : entry.fromWidth = 0 := by
    rw [fromWidth, hfrom, Nat.sub_self]
  have hpos := toWidth_pos h
  rw [← UInt64.toNat_inj, toNat_interpolate (hfrom ▸ UInt64.le_refl _) h, hnone,
    if_neg (Nat.ne_of_lt hpos), Nat.mul_zero, Nat.zero_mod, Nat.zero_div, Nat.add_zero]

theorem interpolate_le (hfrom : entry.fromStart ≤ entry.fromStop)
    (h : entry.covers offset = true) : entry.interpolate offset ≤ entry.fromStop := by
  rcases UInt64.le_iff_lt_or_eq.1 hfrom with hlt | heq
  · exact UInt64.le_of_lt (interpolate_lt hlt h)
  · rw [interpolate_of_from_eq heq h, heq]
    exact UInt64.le_refl _

end MapEntry

namespace Mapping

/-- The mapping of a record that a builder made, or of an entry of a pool without faults, with the
length of the source that it refers to. -/
inductive Accepted : Mapping → Word → Prop where
  | built {node : NodeId} {parent record : Record} {mapping : Mapping} {length : Word}
      (hbuilt : parent.transformed node mapping length = .ok record) :
      Accepted mapping parent.length
  | checked {pool : Pool} {files? : Option Registry} {id : Nat} {entry : Entry}
      (hfault : pool.fault? files? = none) (hentry : pool[id]? = some entry) :
      Accepted entry.mapping (pool.lengthAt entry.parent)

theorem Accepted.within {mapping : Mapping} {sourceLength : Word} (h : mapping.Accepted sourceLength)
    {entry : MapEntry} (hentry : entry ∈ mapping) :
    ∃ targetLength, entry.Within sourceLength targetLength := by
  cases h with
  | @built _ _ _ _ length hbuilt =>
    obtain ⟨hfault, -⟩ := Record.transformed_eq_ok_iff.1 hbuilt
    exact ⟨length, within_of_faultFrom? hfault entry hentry⟩
  | @checked pool _ _ source hfault hsource =>
    obtain ⟨-, link, hflat, -, -, hfits⟩ :=
      Pool.entryFault?_eq_none_iff.1 (Pool.fault?_eq_none_iff.1 hfault _ _ hsource)
    rw [hflat] at hentry ⊢
    cases link with
    | transformed parent mapping => exact ⟨_, within_of_faultFrom? hfits entry hentry⟩
    | _ => exact absurd hentry List.not_mem_nil

/-- Take an entry of an accepted mapping and an offset in its target range. The target range is not
empty, so nothing is divided by zero. The offset is carried into the source range, before its end, or
to its start if that range is empty, and so not past the end of the source. -/
theorem Accepted.interpolate_within {mapping : Mapping} {sourceLength : Word}
    (h : mapping.Accepted sourceLength) {entry : MapEntry} (hentry : entry ∈ mapping)
    {offset : Word} (hstart : entry.toStart ≤ offset) (hstop : offset < entry.toStop) :
    entry.toStop - entry.toStart ≠ 0 ∧
      (entry.fromStart < entry.fromStop →
        entry.fromStart ≤ entry.interpolate offset ∧ entry.interpolate offset < entry.fromStop) ∧
      (entry.fromStart = entry.fromStop → entry.interpolate offset = entry.fromStart) ∧
      entry.interpolate offset ≤ sourceLength := by
  obtain ⟨targetLength, hwithin⟩ := h.within hentry
  have hcovers := MapEntry.covers_iff.2 ⟨hstart, hstop⟩
  refine ⟨fun hzero => ?_, fun hlt => ⟨MapEntry.le_interpolate hwithin.from_le hcovers,
    MapEntry.interpolate_lt hlt hcovers⟩, fun heq => MapEntry.interpolate_of_from_eq heq hcovers,
    UInt64.le_trans (MapEntry.interpolate_le hwithin.from_le hcovers) hwithin.source_le⟩
  have hwidth : (entry.toStop - entry.toStart).toNat = entry.toWidth :=
    UInt64.toNat_sub_of_le _ _ hwithin.to_le
  rw [hzero] at hwidth
  exact Nat.ne_of_lt (MapEntry.toWidth_pos hcovers) hwidth

end Mapping

/-! A text that came back at two thirds of its length. -/

namespace Condensed

def entry : MapEntry := ⟨5, 6442450949, 0, 4294967296⟩

def pool : Pool := #[
  Entry.ofLink ⟨⟨0, 0, 0⟩, ⟨6442450949, 0, 6442450949⟩⟩ (.leaf ⟨0⟩),
  Entry.ofLink (Range.ofLength 4294967296) (.transformed 0 [entry])]

end Condensed

theorem Mapping.Accepted.interpolate_within_condensed :
    Mapping.Accepted [Condensed.entry] 6442450949 ∧
      Condensed.entry.proportion 4294967295 = 6442450947 ∧
      Condensed.entry.interpolate 4294967295 = 2147483651 ∧
      (5 : Word) ≤ 2147483651 ∧ (2147483651 : Word) < 6442450949 := by
  have haccepted : Mapping.Accepted [Condensed.entry] 6442450949 :=
    have hfault : Condensed.pool.fault? none = none := by decide
    have hentry : Condensed.pool[1]? = some (Entry.ofLink (Range.ofLength 4294967296)
        (.transformed 0 [Condensed.entry])) := rfl
    .checked hfault hentry
  have hplace : Condensed.entry.interpolate 4294967295 = 2147483651 := by decide
  obtain ⟨-, hrange, -, -⟩ := Mapping.Accepted.interpolate_within haccepted
    (List.mem_singleton_self Condensed.entry) (show _ ≤ (4294967295 : Word) by decide) (by decide)
  rw [hplace] at hrange
  obtain ⟨hle, hlt⟩ := hrange (by decide)
  exact ⟨haccepted, by decide, hplace, hle, hlt⟩

end TextOrigin

import TextOrigin.Proofs.Record.Origins
import TextOrigin.Proofs.Record.RangeEnds

/-!
Ranges inside plain records. Every byte of a plain record stands before the end of its file, so a
range that stays inside the record ends at a place of the file again: the one after its last byte,
on the next row if that byte is a newline. Bytes that stand one after another in one file keep the
width of the range. Main statement: `resolveRange_in_bounds`.
-/

namespace TextOrigin

namespace Record

theorem Plain.before_end {registry : Registry} {record : Record} (h : Plain registry record) :
    ∀ origin ∈ record.origins,
      ∃ lines, registry.lines? origin.file = some lines ∧ origin.offset < lines.total := by
  induction h with
  | @leaf node file range lines hlines hvalid hstop =>
    intro origin horigin
    obtain ⟨inside, hinside, rfl⟩ := exists_of_mem_origins_leaf horigin
    refine ⟨lines, hlines, ?_⟩
    have hlength := Range.toNat_length hvalid
    have hsize := range.stop.offset.toNat_lt_size
    rw [UInt64.lt_iff_toNat_lt, hlength] at hinside
    rw [UInt64.le_iff_toNat_le] at hstop
    rw [UInt64.lt_iff_toNat_lt, toNat_add_of_lt (by omega)]
    omega
  | substring hplain hrecord hparent =>
    intro origin horigin
    obtain ⟨-, -, rfl⟩ := substring_eq_ok_iff.1 hrecord
    rw [origins, linkOrigins] at horigin
    exact hparent origin (List.mem_of_mem_drop (List.mem_of_mem_take horigin))
  | concat hplain htotal hrecord hsources =>
    intro origin horigin
    obtain ⟨pieces, total, rfl, -, -, rfl⟩ := concat_eq_ok_iff.1 hrecord
    rw [origins, linkOrigins] at horigin
    obtain ⟨piece, hpiece, hmem⟩ := mem_piecesOrigins.1 horigin
    exact hsources _ (List.mem_map_of_mem hpiece) origin (List.mem_of_mem_take hmem)

theorem Plain.next_inFile {registry : Registry} {record : Record} (h : Plain registry record)
    {origin : Origin} (horigin : origin ∈ record.origins) (place : Position)
    (hoffset : place.offset = origin.offset) :
    (nextLocation registry ⟨origin.file, place⟩).InFile registry ∧
      (nextLocation registry ⟨origin.file, place⟩).position.offset.toNat =
        origin.offset.toNat + 1 := by
  obtain ⟨lines, hlines, hlt⟩ := h.before_end origin horigin
  constructor
  · rw [inFile_nextLocation_iff hlines, hoffset]
    exact add_one_le hlt
  · rw [offset_nextLocation, hoffset, toNat_add_one hlt]

theorem Plain.exists_landing {registry : Registry} {record : Record} (h : Plain registry record)
    {offset : Word} (hoffset : offset < record.length) :
    ∃ origin position, record.origins[offset.toNat]? = some origin ∧
      registry.positionAt? origin.file origin.offset = some position ∧
      ∀ settings mode, (record.descend settings mode offset).landing =
        some (origin.file, origin.offset) := by
  have hlocated := h.located
  rw [UInt64.lt_iff_toNat_lt, ← hlocated.length_eq] at hoffset
  have horigin := List.getElem?_eq_getElem hoffset
  obtain ⟨position, hposition⟩ := hlocated.known _ (List.getElem_mem hoffset)
  exact ⟨_, position, horigin, hposition, fun settings mode => hlocated.landing_eq horigin⟩

theorem Plain.exists_resolveRange {registry : Registry} {record : Record}
    (h : Plain registry record) {start stop : Word} (hlt : start < stop)
    (hstop : stop ≤ record.length) :
    ∃ head tail first last, record.origins[start.toNat]? = some head ∧
      record.origins[(stop - 1).toNat]? = some tail ∧
      registry.positionAt? head.file head.offset = some first ∧
      registry.positionAt? tail.file tail.offset = some last ∧
      ∀ settings mode, (record.resolve registry settings mode start).value =
          some ⟨head.file, first⟩ ∧
        (record.resolveRange registry settings mode start stop).value =
          some (⟨head.file, first⟩, nextLocation registry ⟨tail.file, last⟩) := by
  have hlast : stop - 1 < record.length := by
    have hwidth := UInt64.lt_iff_toNat_lt.1 hlt
    rw [UInt64.le_iff_toNat_le] at hstop
    rw [UInt64.lt_iff_toNat_lt, toNat_sub_one (UInt64.lt_of_le_of_lt UInt64.zero_le hlt)]
    omega
  obtain ⟨head, first, hhead, hfirst, hlandFirst⟩ :=
    h.exists_landing (UInt64.lt_of_lt_of_le hlt hstop)
  obtain ⟨tail, last, htail, hlast, hlandLast⟩ := h.exists_landing hlast
  refine ⟨head, tail, first, last, hhead, htail, hfirst, hlast, fun settings mode => ?_⟩
  have hresolve := resolve_of_landing (hlandFirst settings mode) hfirst
  have hresolveLast := resolve_of_landing (hlandLast settings mode) hlast
  exact ⟨hresolve, resolveRange_eq_some_iff.2 ⟨hresolve, .inr ⟨hlt, _, hresolveLast, rfl⟩⟩⟩

/-- Bytes from `start` up to `stop` that stand one after another in one file. -/
def Consecutive (origins : List Origin) (start stop : Nat) : Prop :=
  ∀ i, start ≤ i → i + 1 < stop → ∃ origin, origins[i]? = some origin ∧
    origins[i + 1]? = some ⟨origin.file, origin.offset + 1⟩

theorem Consecutive.offset_add {origins : List Origin} {start stop : Nat}
    (h : Consecutive origins start stop)
    (hnext : ∀ origin ∈ origins, (origin.offset + 1).toNat = origin.offset.toNat + 1)
    {head : Origin} (hhead : origins[start]? = some head) {k : Nat} (hk : start + k < stop) :
    ∃ origin, origins[start + k]? = some origin ∧ origin.file = head.file ∧
      origin.offset.toNat = head.offset.toNat + k := by
  induction k with
  | zero => exact ⟨head, hhead, rfl, rfl⟩
  | succ k ih =>
    obtain ⟨origin, horigin, hfile, hoffset⟩ := ih (by omega)
    obtain ⟨same, hsame, hafter⟩ := h (start + k) (Nat.le_add_right _ _) hk
    obtain rfl := Option.some.inj (horigin.symm.trans hsame)
    refine ⟨_, hafter, hfile, ?_⟩
    rw [hnext origin (List.mem_of_getElem? horigin), hoffset, Nat.add_assoc]

/-- A range inside a plain record resolves in either mode. It starts where its first byte stands and
ends at the place after its last byte, which starts the next row if that byte is a newline. Where
the bytes stand one after another in one file, both ends are as far apart as in the record. -/
theorem resolveRange_in_bounds {registry : Registry} {record : Record} (h : Plain registry record)
    (settings : Settings) (mode : Mode) {start stop : Word} (hlt : start < stop)
    (hstop : stop ≤ record.length) :
    ∃ (head tail : Origin) (first second : Position),
      record.origins[start.toNat]? = some head ∧
        record.origins[(stop - 1).toNat]? = some tail ∧
        (record.resolve registry settings .strict start).value = some ⟨head.file, first⟩ ∧
        (record.resolveRange registry settings mode start stop).value =
          some (⟨head.file, first⟩, ⟨tail.file, second⟩) ∧
        second.offset.toNat = tail.offset.toNat + 1 ∧
        registry.positionAt? tail.file second.offset = some second ∧
        (∀ lines last, registry.lines? tail.file = some lines →
          lines.locate? tail.offset = some last → tail.offset ∈ lines.breaks →
            second.row = last.row + 1 ∧ second.column = 0) ∧
        (Consecutive record.origins start.toNat stop.toNat → tail.file = head.file ∧
          second.offset.toNat = first.offset.toNat + (stop.toNat - start.toNat)) := by
  obtain ⟨head, tail, first, last, hhead, htail, hfirst, hlast, hresolve⟩ :=
    h.exists_resolveRange hlt hstop
  have hlastOffset := Registry.positionAt?_offset hlast
  obtain ⟨hin, hoffset⟩ := h.next_inFile (List.mem_of_getElem? htail) last hlastOffset
  obtain ⟨second, hsecond⟩ : ∃ second, nextLocation registry ⟨tail.file, last⟩ =
      ⟨tail.file, second⟩ := ⟨_, nextLocation_eq registry ⟨tail.file, last⟩⟩
  rw [hsecond] at hin hoffset
  refine ⟨head, tail, first, second, hhead, htail, (hresolve settings .strict).1, ?_, hoffset,
    Location.inFile_iff.1 hin, fun lines place hlines hplace hbreak => ?_, fun hconsecutive => ?_⟩
  · rw [(hresolve settings mode).2, hsecond]
  · have hafter : registry.positionAt? tail.file (last.offset + 1) =
        some ⟨last.offset + 1, place.row + 1, 0⟩ := by
      rw [Registry.positionAt?, hlines, Option.bind_some, hlastOffset]
      exact LineTable.locate?_after_break hbreak hplace
    rw [nextLocation_of_positionAt? hafter] at hsecond
    cases hsecond
    exact ⟨rfl, rfl⟩
  · have hwidth := UInt64.lt_iff_toNat_lt.1 hlt
    have hpred := toNat_sub_one (UInt64.lt_of_le_of_lt UInt64.zero_le hlt)
    have hnext : ∀ origin ∈ record.origins, (origin.offset + 1).toNat = origin.offset.toNat + 1 :=
      fun origin horigin => by
        obtain ⟨lines, -, hend⟩ := h.before_end origin horigin
        exact toNat_add_one hend
    obtain ⟨origin, horigin, hfile, hplace⟩ := hconsecutive.offset_add hnext hhead
      (show start.toNat + ((stop - 1).toNat - start.toNat) < stop.toNat by omega)
    rw [Nat.add_sub_cancel' (by omega)] at horigin
    obtain rfl := Option.some.inj (horigin.symm.trans htail)
    rw [hoffset, hplace, Registry.positionAt?_offset hfirst]
    exact ⟨hfile, by omega⟩

end Record

theorem Record.resolveRange_in_bounds_patch :
    Plain Patchwork.files Patchwork.patch ∧ (0 : Word) < 2 ∧ 2 ≤ Patchwork.patch.length ∧
      Patchwork.patch.origins[1]? = some ⟨⟨1⟩, 1⟩ ∧
      (Patchwork.patch.resolveRange Patchwork.files {} .closest 0 2).value =
        some (⟨⟨0⟩, 4, 0, 4⟩, ⟨⟨1⟩, 2, 1, 0⟩) := by
  have horigin : Patchwork.patch.origins[1]? = some ⟨⟨1⟩, 1⟩ := by decide
  have hfirst : (Patchwork.patch.resolve Patchwork.files {} .strict 0).value =
      some ⟨⟨0⟩, 4, 0, 4⟩ := by
    decide +kernel
  have hnext : Patchwork.files.positionAt? ⟨1⟩ 2 = some ⟨2, 1, 0⟩ := by decide +kernel
  obtain ⟨head, tail, first, second, -, htail, hfirst', hrange, hoffset, hsecond, -, -⟩ :=
    Record.resolveRange_in_bounds Patchwork.plain_patch {} .closest
      (by decide : (0 : Word) < 2) (by decide)
  obtain rfl := Option.some.inj (horigin.symm.trans htail)
  have hstart := Option.some.inj (hfirst.symm.trans hfirst')
  have htwo : second.offset = 2 := UInt64.toNat_inj.1 hoffset
  rw [htwo, hnext] at hsecond
  rw [← hstart, ← Option.some.inj hsecond] at hrange
  exact ⟨Patchwork.plain_patch, by decide, by decide, horigin, hrange⟩

end TextOrigin

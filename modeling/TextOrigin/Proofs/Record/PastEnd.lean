import TextOrigin.Proofs.Record.Origins

/-!
Past the end of a plain record. A closest resolution hands the end of a slice to the text that it is
cut from, and the end of a concatenation to the source of its last piece that is not empty. There
the end is an offset like any other: it belongs to the byte that stands there, and only at the end
of that text it is handed on. So the place found is the one that follows the record in what it is
cut from. It is the place after the record's last byte only where both are the same, and where
pieces meet they are not. Main statement: `resolve_past_end`.
-/

namespace TextOrigin

namespace Record

mutual

/-- The place that follows the bytes of a record in what it is cut from: the place of the next byte
there, or at the end of it what follows that in turn. -/
def next? : Record → Option Origin
  | mk _ range link => linkNext? range link

def linkNext? (range : Range) : Link Record → Option Origin
  | .leaf file => some ⟨file, range.start.offset + range.length⟩
  | .substring parent offset =>
    parent.origins[offset.toNat + range.length.toNat]?.or parent.next?
  | .concat pieces => piecesNext? pieces
  | .transformed _ _ => none

def piecesNext? : List (Piece Record) → Option Origin
  | [] => none
  | ⟨source, _, length⟩ :: rest =>
    if 0 < length ∧ rest.all fun piece => piece.length = 0 then
      source.origins[length.toNat]?.or source.next?
    else piecesNext? rest

end

def place? (record : Record) (i : Nat) : Option Origin :=
  record.origins[i]?.or record.next?

theorem piecesNext?_append {before after : List (Piece Record)} {piece : Piece Record}
    (hfilled : 0 < piece.length) (hempty : ∀ p ∈ after, ¬ 0 < p.length) :
    piecesNext? (before ++ piece :: after) = piece.source.place? piece.length.toNat := by
  induction before with
  | nil =>
    have hall : after.all (fun p => p.length = 0) = true :=
      List.all_eq_true.2 fun p hp => by simpa using hempty p hp
    rw [List.nil_append, piecesNext?, if_pos ⟨hfilled, hall⟩, place?]
  | cons first rest ih =>
    have hall : ¬ (rest ++ piece :: after).all (fun p => p.length = 0) = true := fun h => by
      have hzero := List.all_eq_true.1 h piece (by simp)
      rw [of_decide_eq_true hzero] at hfilled
      exact UInt64.lt_irrefl _ hfilled
    rw [List.cons_append, piecesNext?, if_neg fun h => hall h.2, ih]

/-- A record of which each byte has a place after it, and whose end, if it has any bytes, lands at
the place that follows it. -/
structure Followed (registry : Registry) (record : Record) : Prop where
  known_after : ∀ origin ∈ record.origins,
    ∃ position, registry.positionAt? origin.file (origin.offset + 1) = some position
  landing_next (hpos : 0 < record.length) : ∃ next position, record.next? = some next ∧
    registry.positionAt? next.file next.offset = some position ∧
    ∀ (settings : Settings) (offset : Word), record.length ≤ offset →
      (record.descend settings .closest offset).landing = some (next.file, next.offset)

namespace Followed

variable {registry : Registry}

theorem landing_place {record : Record} (h : Followed registry record)
    (hlocated : Located registry record) (hpos : 0 < record.length) (inner : Word) :
    ∃ place position, record.place? inner.toNat = some place ∧
      registry.positionAt? place.file place.offset = some position ∧
      ∀ settings : Settings, (record.descend settings .closest inner).landing =
        some (place.file, place.offset) := by
  have hlength := hlocated.length_eq
  rw [place?]
  cases horigin : record.origins[inner.toNat]? with
  | some origin =>
    obtain ⟨position, hposition⟩ := hlocated.known origin (List.mem_of_getElem? horigin)
    exact ⟨origin, position, rfl, hposition, fun settings => hlocated.landing_eq horigin⟩
  | none =>
    obtain ⟨next, position, hnext, hposition, hlanding⟩ := h.landing_next hpos
    rw [List.getElem?_eq_none_iff, hlength] at horigin
    exact ⟨next, position, hnext, hposition, fun settings =>
      hlanding settings inner (UInt64.le_iff_toNat_le.2 horigin)⟩

theorem leaf {node : NodeId} {file : FileId} {range : Range} {lines : LineTable}
    (hlines : registry.lines? file = some lines) (hvalid : range.Valid)
    (hstop : range.stop.offset ≤ lines.total) :
    Followed registry (Record.leaf node file range) := by
  have hknown : ∀ inside, inside ≤ range.length →
      ∃ position, registry.positionAt? file (range.start.offset + inside) = some position :=
    fun inside hinside => Registry.exists_positionAt? hlines
      (UInt64.le_trans (Range.start_add_mem hvalid hinside).2 hstop)
  refine ⟨fun origin horigin => ?_, fun hpos => ?_⟩
  · obtain ⟨inside, hinside, rfl⟩ := exists_of_mem_origins_leaf horigin
    obtain ⟨position, hposition⟩ := hknown (inside + 1) (add_one_le hinside)
    rw [← UInt64.add_assoc] at hposition
    exact ⟨position, hposition⟩
  · obtain ⟨position, hposition⟩ := hknown range.length (UInt64.le_refl _)
    refine ⟨⟨file, range.start.offset + range.length⟩, position, rfl, hposition,
      fun settings offset hoffset => ?_⟩
    have hclamp := clamp?_closest_of_le hoffset
    rw [landing_descend]
    simp only [step, Record.leaf, link] at hclamp ⊢
    simp only [hclamp]
    rfl

theorem substring {node : NodeId} {parent record : Record} {start stop : Word}
    (hparent : Followed registry parent) (hlocated : Located registry parent)
    (hrecord : Record.substring node parent start stop = .ok record) :
    Followed registry record := by
  obtain ⟨hstart, hstop, rfl⟩ := substring_eq_ok_iff.1 hrecord
  refine ⟨fun origin horigin => ?_, fun hpos => ?_⟩
  · rw [origins, linkOrigins] at horigin
    exact hparent.known_after origin (List.mem_of_mem_drop (List.mem_of_mem_take horigin))
  · rw [length_mk_ofLength] at hpos
    have hlength := UInt64.toNat_sub_of_le _ _ hstart
    rw [UInt64.lt_iff_toNat_lt, hlength] at hpos
    rw [UInt64.le_iff_toNat_le] at hstart hstop
    have hfilled : 0 < parent.length := by
      rw [UInt64.lt_iff_toNat_lt]
      omega
    obtain ⟨place, position, hplace, hposition, hlanding⟩ :=
      hparent.landing_place hlocated hfilled stop
    refine ⟨place, position, ?_, hposition, fun settings offset hoffset => ?_⟩
    · rw [next?, linkNext?, Range.length_ofLength, hlength, Nat.add_sub_cancel' hstart]
      exact hplace
    · rw [landing_descend, step]
      simp only [link, clamp?_closest_of_le hoffset, length_mk_ofLength, UInt64.sub_add_cancel]
      exact hlanding settings

theorem concat {node : NodeId} {contributions : List (Record × Word)} {record : Record}
    (hsources : ∀ contribution ∈ contributions, Followed registry contribution.1)
    (hlocated : ∀ contribution ∈ contributions, Located registry contribution.1)
    (htotal : contributed contributions < UInt64.size)
    (hrecord : Record.concat node contributions = .ok record) : Followed registry record := by
  obtain ⟨pieces, total, rfl, hback, hfit, rfl⟩ := concat_eq_ok_iff.1 hrecord
  rw [contributed_map] at htotal
  have hpieces : ∀ piece ∈ pieces, Followed registry piece.source := fun piece hpiece =>
    hsources _ (List.mem_map_of_mem hpiece)
  have hlocatedPieces : ∀ piece ∈ pieces, Located registry piece.source := fun piece hpiece =>
    hlocated _ (List.mem_map_of_mem hpiece)
  have hlt : (0 : Word).toNat + Piece.totalLength pieces < UInt64.size := by
    rwa [UInt64.toNat_zero, Nat.zero_add]
  refine ⟨fun origin horigin => ?_, fun hpos => ?_⟩
  · rw [origins, linkOrigins] at horigin
    obtain ⟨piece, hpiece, horigin⟩ := mem_piecesOrigins.1 horigin
    exact (hpieces piece hpiece).known_after origin (List.mem_of_mem_take horigin)
  · have hstop := hback.toNat_stop hlt
    rw [length_mk_ofLength, UInt64.lt_iff_toNat_lt, hstop, UInt64.toNat_zero, Nat.zero_add] at hpos
    -- past all pieces the descent goes on in the last one that is not empty
    obtain ⟨before, piece, after, hsplit, hfilled, hempty, hlast⟩ :=
      Piece.exists_lastFilled?_append hpos
    have hpiece : piece ∈ pieces := by simp [hsplit]
    obtain ⟨place, position, hplace, hposition, hlanding⟩ :=
      (hpieces piece hpiece).landing_place (hlocatedPieces piece hpiece)
        (UInt64.lt_of_lt_of_le hfilled (hfit piece hpiece)) piece.length
    refine ⟨place, position, ?_, hposition, fun settings offset hoffset => ?_⟩
    · rw [next?, linkNext?, hsplit, piecesNext?_append hfilled hempty, hplace]
    · rw [length_mk_ofLength] at hoffset
      rw [landing_descend, step]
      simp only [link, concatStep, hback.at?_eq_none hlt hoffset, hlast]
      exact hlanding settings

end Followed

theorem Plain.followed {registry : Registry} {record : Record} (h : Plain registry record) :
    Followed registry record := by
  induction h with
  | leaf hlines hvalid hstop => exact .leaf hlines hvalid hstop
  | substring hplain hrecord hparent => exact hparent.substring hplain.located hrecord
  | concat hplain htotal hrecord hsources =>
    exact .concat hsources (fun contribution hmem => (hplain contribution hmem).located) htotal
      hrecord

/-- Past its end a plain record resolves closest to the place that follows its bytes in what it is
cut from. This is the place after its last byte exactly if that is where the bytes go on. -/
theorem resolve_past_end {registry : Registry} {record : Record} (h : Plain registry record)
    (hfilled : 0 < record.length) (settings : Settings) {offset : Word}
    (hoffset : record.length ≤ offset) :
    ∃ (last : Location) (after : Position) (next : Origin) (position : Position),
      (record.resolve registry settings .strict (record.length - 1)).value = some last ∧
        registry.positionAt? last.file (last.position.offset + 1) = some after ∧
        record.next? = some next ∧
        registry.positionAt? next.file next.offset = some position ∧
        (record.resolve registry settings .closest offset).value = some ⟨next.file, position⟩ ∧
        ((record.resolve registry settings .closest offset).value = some ⟨last.file, after⟩ ↔
          next = ⟨last.file, last.position.offset + 1⟩) := by
  have hlocated := h.located
  obtain ⟨next, position, hnext, hposition, hlanding⟩ := h.followed.landing_next hfilled
  have hend := resolve_of_landing (hlanding settings offset hoffset) hposition
  -- the last byte has an origin, and from there the place after it
  have hlt : (record.length - 1).toNat < record.origins.length := by
    have hone : (1 : Word).toNat = 1 := rfl
    rw [UInt64.lt_iff_toNat_lt, UInt64.toNat_zero] at hfilled
    have hle : 1 ≤ record.length := UInt64.le_iff_toNat_le.2 (by omega)
    rw [hlocated.length_eq, UInt64.toNat_sub_of_le _ _ hle, hone]
    omega
  obtain ⟨origin, horigin⟩ : ∃ origin, record.origins[(record.length - 1).toNat]? = some origin :=
    ⟨_, List.getElem?_eq_getElem hlt⟩
  obtain ⟨place, hplace⟩ := hlocated.known origin (List.mem_of_getElem? horigin)
  obtain ⟨after, hafter⟩ := h.followed.known_after origin (List.mem_of_getElem? horigin)
  have hlast : (record.resolve registry settings .strict (record.length - 1)).value =
      some ⟨origin.file, place⟩ := resolve_of_landing (hlocated.landing_eq horigin) hplace
  have hbyte := Registry.positionAt?_offset hplace
  refine ⟨⟨origin.file, place⟩, after, next, position, hlast, ?_, hnext, hposition, hend, ?_⟩
  · rw [hbyte]
    exact hafter
  · rw [hend, hbyte]
    constructor
    · intro heq
      obtain ⟨hfile, rfl⟩ := Location.mk.inj (Option.some.inj heq)
      obtain ⟨file, start⟩ := next
      rw [Origin.mk.injEq]
      exact ⟨hfile, (Registry.positionAt?_offset hposition).symm.trans
        (Registry.positionAt?_offset hafter)⟩
    · rintro rfl
      rw [Option.some.inj (hposition.symm.trans hafter)]

end Record

/-! The first piece of the patchwork, cut off again where the next one starts. -/

namespace Patchwork

def stem : Record := .mk ⟨4⟩ (Range.ofLength 2) (.substring joined 0)

theorem plain_stem : Record.Plain files stem :=
  have hstem : joined.substring ⟨4⟩ 0 2 = .ok stem := rfl
  .substring plain_joined hstem

end Patchwork

theorem Record.resolve_past_end_patch :
    Plain Patchwork.files Patchwork.patch ∧ 0 < Patchwork.patch.length ∧
      Patchwork.patch.length ≤ 18446744073709551615 ∧
      Patchwork.patch.next? = some ⟨⟨1⟩, 3⟩ ∧
      (Patchwork.patch.resolve Patchwork.files {} .strict 2).value = some ⟨⟨1⟩, 2, 1, 0⟩ ∧
      (Patchwork.patch.resolve Patchwork.files {} .closest 18446744073709551615).value =
        some ⟨⟨1⟩, 3, 1, 1⟩ := by
  have hnext : Patchwork.patch.next? = some ⟨⟨1⟩, 3⟩ := by decide
  have hlast : (Patchwork.patch.resolve Patchwork.files {} .strict 2).value =
      some ⟨⟨1⟩, 2, 1, 0⟩ := by decide +kernel
  obtain ⟨last, after, next, position, hbyte, hafter, hnext', -, -, hiff⟩ :=
    resolve_past_end Patchwork.plain_patch (by decide) {}
      (by decide : Patchwork.patch.length ≤ 18446744073709551615)
  obtain rfl := Option.some.inj (hnext.symm.trans hnext')
  obtain rfl := Option.some.inj (hlast.symm.trans hbyte)
  have hplace : Patchwork.files.positionAt? ⟨1⟩ 3 = some ⟨3, 1, 1⟩ := by decide +kernel
  obtain rfl := Option.some.inj (hplace.symm.trans hafter)
  exact ⟨Patchwork.plain_patch, by decide, by decide, hnext, hlast, hiff.2 rfl⟩

theorem Record.resolve_past_end_stem :
    Plain Patchwork.files Patchwork.stem ∧
      Patchwork.stem.origins = [⟨⟨0⟩, 3⟩, ⟨⟨0⟩, 4⟩] ∧
      (Patchwork.stem.resolve Patchwork.files {} .strict 1).value = some ⟨⟨0⟩, 4, 0, 4⟩ ∧
      Patchwork.files.positionAt? ⟨0⟩ 5 = some ⟨5, 0, 5⟩ ∧
      (Patchwork.stem.resolve Patchwork.files {} .closest 2).value = some ⟨⟨1⟩, 1, 0, 1⟩ :=
  ⟨Patchwork.plain_stem, by decide, by decide +kernel, by decide +kernel, by decide +kernel⟩

end TextOrigin

import TextOrigin.Proofs.Alignment.Shared
import TextOrigin.Proofs.Record.Descent
import TextOrigin.Proofs.Record.Trim
import TextOrigin.Record.Recover

/-!
Strict resolution and the bytes of texts. `Describes` gives the records that builders make out of
retained files their texts, builder by builder. Wherever a strict resolution of an offset of such a
record lands, the file holds the byte that the text has at the offset: `resolve_byte`.
-/

namespace TextOrigin

/-- A record that contributes the first `length` bytes of its text to a concatenation. -/
structure Contribution where
  record : Record
  text : Text
  length : Word

def Contribution.bytes (contribution : Contribution) : Bytes :=
  contribution.text.bytes.take contribution.length.toNat

/-- The texts of records that are made from retained files, builder by builder. Every text has a
size that a word holds, so no total of a concatenation wraps. -/
inductive Describes (registry : Registry) : Record → Text → Prop where
  | leaf {node : NodeId} {file : FileId} {range : Range} {content text : Text}
      (hcontent : registry.content? file = some content) (hvalid : range.Valid)
      (hstop : range.stop.offset ≤ content.size)
      (htext : text.bytes = Bytes.slice content.bytes range.start.offset range.length) :
      Describes registry (Record.leaf node file range) text
  | substring {node : NodeId} {parent record : Record} {whole text : Text} {start stop : Word}
      (hparent : Describes registry parent whole)
      (hrecord : Record.substring node parent start stop = .ok record)
      (htext : text.bytes = Bytes.slice whole.bytes start (stop - start)) :
      Describes registry record text
  | concat {node : NodeId} {contributions : List Contribution} {record : Record} {text : Text}
      (hcontributions : ∀ c ∈ contributions, Describes registry c.record c.text)
      (hrecord : Record.concat node (contributions.map fun c => (c.record, c.length)) = .ok record)
      (htext : text.bytes = contributions.flatMap Contribution.bytes) :
      Describes registry record text
  | trim (node : NodeId) (leading trailing : Bool) {record : Record} {text : Text}
      (hrecord : Describes registry record text) :
      Describes registry (record.trim node text leading trailing) (text.trim leading trailing)
  | recover {settings : Settings} {node : NodeId} {parent record : Record} {source target : Text}
      (hparent : Describes registry parent source)
      (hrecord : (Record.recover settings node parent source target).value = .ok record) :
      Describes registry record target

/-- A record as long as a text, of which every offset that lands in a file strictly lands on the
byte that the text has there. -/
structure Faithful (registry : Registry) (record : Record) (text : Text) : Prop where
  length_eq : record.length = text.size
  byte_eq : ∀ {settings : Settings} {offset : Word} {file : FileId} {place : Word},
    offset.toNat < text.bytes.length →
    (record.descend settings .strict offset).landing = some (file, place) →
    ∃ content, registry.content? file = some content ∧
      content.bytes[place.toNat]? = text.bytes[offset.toNat]?

namespace Faithful

theorem leaf {registry : Registry} {node : NodeId} {file : FileId} {range : Range}
    {content text : Text} (hcontent : registry.content? file = some content)
    (hvalid : range.Valid) (hstop : range.stop.offset ≤ content.size)
    (htext : text.bytes = Bytes.slice content.bytes range.start.offset range.length) :
    Faithful registry (Record.leaf node file range) text := by
  have hlength := Range.toNat_length hvalid
  have hle := UInt64.le_iff_toNat_le.1 hvalid
  rw [UInt64.le_iff_toNat_le, content.toNat_size] at hstop
  have hsize : text.bytes.length = range.length.toNat := by
    rw [htext, Bytes.length_slice (by omega)]
  refine ⟨?_, fun {settings offset file' place} hoffset hlanding => ?_⟩
  · rw [← UInt64.toNat_inj, text.toNat_size, hsize]
    rfl
  · have hin : offset ≤ range.length := by
      rw [UInt64.le_iff_toNat_le]
      omega
    rw [Record.landing_descend, Record.leaf, Record.step_leaf_of_le hin] at hlanding
    obtain ⟨rfl, rfl⟩ := Prod.mk.inj (Option.some.inj hlanding)
    have hplace : (range.start.offset + offset).toNat =
        range.start.offset.toNat + offset.toNat := by
      have := range.stop.offset.toNat_lt_size
      rw [toNat_add_of_lt (by omega)]
    refine ⟨content, hcontent, ?_⟩
    rw [htext, Bytes.getElem?_slice _ _ (by omega), hplace]

theorem substring {registry : Registry} {node : NodeId} {parent record : Record}
    {whole text : Text} {start stop : Word} (hparent : Faithful registry parent whole)
    (hrecord : Record.substring node parent start stop = .ok record)
    (htext : text.bytes = Bytes.slice whole.bytes start (stop - start)) :
    Faithful registry record text := by
  obtain ⟨hstart, hstop, rfl⟩ := Record.substring_eq_ok_iff.1 hrecord
  have hlength := UInt64.toNat_sub_of_le _ _ hstart
  rw [hparent.length_eq, UInt64.le_iff_toNat_le, whole.toNat_size] at hstop
  rw [UInt64.le_iff_toNat_le] at hstart
  have hsize : text.bytes.length = (stop - start).toNat := by
    rw [htext, Bytes.length_slice (by omega)]
  refine ⟨?_, fun {settings offset file place} hoffset hlanding => ?_⟩
  · rw [← UInt64.toNat_inj, text.toNat_size, hsize]
    exact congrArg UInt64.toNat (Range.length_ofLength _)
  · have hin : offset ≤ (Range.ofLength (stop - start)).length := by
      rw [Range.length_ofLength, UInt64.le_iff_toNat_le]
      omega
    rw [Record.landing_descend, Record.step_substring_of_le hin] at hlanding
    have hinner : (offset + start).toNat = offset.toNat + start.toNat := by
      have := whole.length_lt
      rw [toNat_add_of_lt (by omega)]
    obtain ⟨content, hcontent, hbyte⟩ := hparent.byte_eq (by omega) hlanding
    refine ⟨content, hcontent, ?_⟩
    rw [hbyte, htext, Bytes.getElem?_slice _ _ (by omega), hinner, Nat.add_comm]

theorem length_bytes {registry : Registry} {contribution : Contribution}
    (h : Faithful registry contribution.record contribution.text)
    (hle : contribution.length ≤ contribution.record.length) :
    contribution.bytes.length = contribution.length.toNat := by
  rw [h.length_eq, UInt64.le_iff_toNat_le, Text.toNat_size] at hle
  rw [Contribution.bytes, List.length_take, Nat.min_eq_left hle]

theorem length_flatMap_bytes {registry : Registry} {contributions : List Contribution}
    {pieces : List (Piece Record)} (h : ∀ c ∈ contributions, Faithful registry c.record c.text)
    (hle : ∀ c ∈ contributions, c.length ≤ c.record.length)
    (hmap : pieces.map (fun p => (p.source, p.length)) =
      contributions.map fun c => (c.record, c.length)) :
    (contributions.flatMap Contribution.bytes).length = Piece.totalLength pieces := by
  induction contributions generalizing pieces with
  | nil =>
    obtain rfl := List.map_eq_nil_iff.1 hmap
    rfl
  | cons c rest ih =>
    obtain ⟨piece, back, rfl, hc, hrest⟩ := List.map_eq_cons_iff.1 hmap
    obtain ⟨-, hlength⟩ := Prod.mk.inj hc
    rw [List.flatMap_cons, List.length_append, Piece.totalLength, hlength,
      length_bytes (h c (by simp)) (hle c (by simp)),
      ih (fun d hd => h d (by simp [hd])) (fun d hd => hle d (by simp [hd])) hrest]

theorem length_le_of_pieces {pieces : List (Piece Record)} {contributions : List Contribution}
    (h : pieces.map (fun p => (p.source, p.length)) =
      contributions.map fun c => (c.record, c.length))
    (hfit : ∀ piece ∈ pieces, piece.length ≤ piece.source.length) :
    ∀ c ∈ contributions, c.length ≤ c.record.length := by
  intro c hc
  have hmem : (c.record, c.length) ∈ pieces.map fun p => (p.source, p.length) := by
    rw [h]
    exact List.mem_map_of_mem hc
  obtain ⟨piece, hpiece, heq⟩ := List.mem_map.1 hmem
  obtain ⟨hsource, hlength⟩ := Prod.mk.inj heq
  rw [← hsource, ← hlength]
  exact hfit piece hpiece

theorem concat {registry : Registry} {node : NodeId} {contributions : List Contribution}
    {record : Record} {text : Text}
    (hcontributions : ∀ c ∈ contributions, Faithful registry c.record c.text)
    (hrecord : Record.concat node (contributions.map fun c => (c.record, c.length)) = .ok record)
    (htext : text.bytes = contributions.flatMap Contribution.bytes) :
    Faithful registry record text := by
  obtain ⟨pieces, total, hmap, hback, hfit, rfl⟩ := Record.concat_eq_ok_iff.1 hrecord
  have hle := length_le_of_pieces hmap hfit
  have hsize : text.bytes.length = Piece.totalLength pieces := by
    rw [htext, length_flatMap_bytes hcontributions hle hmap]
  have hlt := text.length_lt
  refine ⟨?_, fun {settings offset file place} hoffset hlanding => ?_⟩
  · rw [← UInt64.toNat_inj, text.toNat_size, hsize]
    change (Range.ofLength total).length.toNat = _
    rw [Range.length_ofLength, hback.toNat_stop (by simp; omega)]
    simp
  · obtain ⟨piece, hpiece, hcontains, hinner⟩ := Record.landing_concat_strict hlanding
    obtain ⟨before, after, rfl⟩ := List.append_of_mem hpiece
    obtain ⟨front, rest, rfl, hfront, hrest⟩ := List.map_eq_append_iff.1
      (hmap.symm.trans (List.map_append ..))
    obtain ⟨c, back, rfl, hc, -⟩ := List.map_eq_cons_iff.1 (hrest.trans (List.map_cons ..))
    obtain ⟨hsource, hlength⟩ := Prod.mk.inj hc
    have hsum := Piece.totalLength_append before (piece :: after)
    rw [Piece.totalLength] at hsum
    have hstart := hback.toNat_offset (by rw [UInt64.toNat_zero]; omega)
    rw [UInt64.toNat_zero, Nat.zero_add] at hstart
    obtain ⟨hin, hafter, hbefore⟩ := Piece.toNat_sub_of_contains hcontains
    have hskip : (front.flatMap Contribution.bytes).length = piece.offset.toNat := by
      rw [length_flatMap_bytes (fun d hd => hcontributions d (by simp [hd]))
        (fun d hd => hle d (by simp [hd])) hfront.symm, hstart]
    have hc := hcontributions c (by simp)
    have hown := length_bytes hc (hle c (by simp))
    have hsame := congrArg UInt64.toNat hlength
    have hlong : c.text.bytes.length ≥ c.length.toNat := by
      rw [← hown]
      exact List.length_take_le' ..
    rw [hsource] at hc
    obtain ⟨content, hcontent, hbyte⟩ := hc.byte_eq (by omega) hinner
    refine ⟨content, hcontent, ?_⟩
    rw [hbyte, htext, List.flatMap_append, List.flatMap_cons,
      List.getElem?_append_right (by omega), hskip, ← hin, List.getElem?_append_left (by omega),
      Contribution.bytes, List.getElem?_take, if_pos (by omega)]

theorem interpolate_ofBlock {source target : Bytes} {block : Block}
    (h : block.Shared source target) (hsource : source.length < UInt64.size)
    (htarget : target.length < UInt64.size) {offset : Word}
    (hcovers : (MapEntry.ofBlock block).covers offset = true) :
    block.targetStart ≤ offset.toNat ∧ offset.toNat < block.targetStart + block.length ∧
      ((MapEntry.ofBlock block).interpolate offset).toNat =
        block.sourceStart + (offset.toNat - block.targetStart) := by
  have hs := h.source_le
  have ht := h.target_le
  obtain ⟨hfromStart, -, htoStart, htoStop⟩ :=
    MapEntry.toNat_ofBlock (Nat.lt_of_le_of_lt hs hsource) (Nat.lt_of_le_of_lt ht htarget)
  obtain ⟨-, -, hwidth⟩ :=
    MapEntry.width_ofBlock (Nat.lt_of_le_of_lt hs hsource) (Nat.lt_of_le_of_lt ht htarget)
  simp only [MapEntry.covers, Bool.and_eq_true, decide_eq_true_eq, UInt64.le_iff_toNat_le,
    UInt64.lt_iff_toNat_lt, htoStart, htoStop] at hcovers
  have hstart : (MapEntry.ofBlock block).toStart ≤ offset := by
    rw [UInt64.le_iff_toNat_le]
    omega
  have hshift := UInt64.toNat_sub_of_le _ _ hstart
  rw [htoStart] at hshift
  refine ⟨hcovers.1, hcovers.2, ?_⟩
  simp only [MapEntry.interpolate, hwidth, if_true]
  rw [toNat_add_of_lt (by omega), hfromStart, hshift]

theorem recover {registry : Registry} {settings : Settings} {node : NodeId}
    {parent record : Record} {source target : Text} (hparent : Faithful registry parent source)
    (hrecord : (Record.recover settings node parent source target).value = .ok record) :
    Faithful registry record target := by
  unfold Record.recover at hrecord
  rw [if_neg (fun hne => hne hparent.length_eq.symm), Traced.value_bind] at hrecord
  cases hblocks : (commonBlocks settings source.bytes target.bytes).value with
  | error fault => simp [hblocks] at hrecord
  | ok blocks =>
    rw [hblocks, Traced.value_pure, Record.transformed_eq_ok_iff] at hrecord
    obtain ⟨-, rfl⟩ := hrecord
    refine ⟨Range.length_ofLength _, fun {settings offset file place} hoffset hlanding => ?_⟩
    obtain ⟨entry, hentry, hcovers, hinner⟩ := Record.landing_transformed_strict hlanding
    obtain ⟨block, hblock, rfl⟩ := List.mem_map.1 hentry
    have hshared := shared_of_mem_commonBlocks hblocks block hblock
    obtain ⟨hstart, hstop, hplace⟩ :=
      interpolate_ofBlock hshared source.length_lt target.length_lt hcovers
    have hle := hshared.source_le
    obtain ⟨content, hcontent, hbyte⟩ := hparent.byte_eq (by omega) hinner
    refine ⟨content, hcontent, ?_⟩
    rw [hbyte, hplace, hshared.getElem?_eq (by omega), Nat.add_sub_cancel' hstart]

theorem trim {registry : Registry} {record : Record} {text : Text}
    (h : Faithful registry record text) (node : NodeId) (leading trailing : Bool) :
    Faithful registry (record.trim node text leading trailing) (text.trim leading trailing) := by
  rcases Record.trim_cases node leading trailing h.length_eq with
    ⟨hrecord, htext⟩ | ⟨start, stop, hslice, htext⟩
  · rw [hrecord, htext]
    exact h
  · exact h.substring hslice htext

end Faithful

theorem Describes.faithful {registry : Registry} {record : Record} {text : Text}
    (h : Describes registry record text) : Faithful registry record text := by
  induction h with
  | leaf hcontent hvalid hstop htext => exact .leaf hcontent hvalid hstop htext
  | substring _ hrecord htext hparent => exact hparent.substring hrecord htext
  | concat _ hrecord htext hcontributions => exact .concat hcontributions hrecord htext
  | trim node leading trailing _ hrecord => exact hrecord.trim node leading trailing
  | recover _ hrecord hparent => exact hparent.recover hrecord

/-- Where a strict resolution of an offset below the length of a record succeeds, the file holds the
byte of the record's text. -/
theorem Record.resolve_byte {registry : Registry} {record : Record} {text : Text}
    (h : Describes registry record text) (settings : Settings) {offset : Word}
    (hoffset : offset < record.length) {location : Location}
    (hresolve : (record.resolve registry settings .strict offset).value = some location) :
    ∃ content byte, registry.content? location.file = some content ∧
      content.bytes[location.position.offset.toNat]? = some byte ∧
      text.bytes[offset.toNat]? = some byte := by
  have hfaithful := h.faithful
  rw [hfaithful.length_eq, UInt64.lt_iff_toNat_lt, text.toNat_size] at hoffset
  rw [value_resolve] at hresolve
  obtain ⟨⟨file, place⟩, hlanding, hplace⟩ := Option.bind_eq_some_iff.1 hresolve
  obtain ⟨content, hcontent, hbyte⟩ := hfaithful.byte_eq hoffset hlanding
  obtain ⟨hfile, hposition⟩ := Registry.place?_strict hplace
  refine ⟨content, text.bytes[offset.toNat], ?_, ?_, List.getElem?_eq_getElem hoffset⟩
  · rw [hfile, hcontent]
  · rw [hposition, hbyte, List.getElem?_eq_getElem hoffset]

/-! A file that holds `to be`, whose bytes are stuttered, moved by a space and trimmed again. -/

namespace Stutter

def source : Text := ⟨ascii "to be", by decide⟩

def given : Text := ⟨ascii "to to be", by decide⟩

def returned : Text := ⟨ascii " toto be", by decide⟩

def files : Registry :=
  (Registry.empty.add (ascii "play") (Backing.ofText source)).value.2

def line : Record := Record.leaf ⟨0⟩ ⟨0⟩ ⟨Position.zero, ⟨5, 0, 5⟩⟩

def stuttered : Record :=
  .mk ⟨1⟩ (Range.ofLength 8) (.concat [⟨line, 0, 3⟩, ⟨line, 3, 5⟩])

def moved : Record :=
  .mk ⟨2⟩ (Range.ofLength 8) (.transformed stuttered [⟨0, 2, 1, 3⟩, ⟨3, 8, 3, 8⟩])

def word : Record :=
  .mk ⟨4⟩ (Range.ofLength 4) (.substring (moved.trim ⟨3⟩ returned true true) 1)

theorem describes_line : Describes files line source :=
  have hcontent : files.content? ⟨0⟩ = some source := rfl
  .leaf hcontent (by decide) (by decide) rfl

theorem describes_stuttered : Describes files stuttered given := by
  have hcontributions : ∀ c ∈ [Contribution.mk line source 3, ⟨line, source, 5⟩],
      Describes files c.record c.text := by
    simp [describes_line]
  have hrecord : Record.concat ⟨1⟩ [(line, 3), (line, 5)] = .ok stuttered := rfl
  exact .concat hcontributions hrecord rfl

theorem recover_moved :
    (Record.recover {} ⟨2⟩ stuttered given returned).value = .ok moved := by
  with_unfolding_all rfl

theorem describes_word : Describes files word ⟨ascii "oto ", by decide⟩ :=
  have hrecord : (moved.trim ⟨3⟩ returned true true).substring ⟨4⟩ 1 5 = .ok word := rfl
  .substring (.trim ⟨3⟩ true true (.recover describes_stuttered recover_moved)) hrecord
    (by decide)

end Stutter

theorem Record.resolve_byte_stutter :
    Describes Stutter.files Stutter.word ⟨ascii "oto ", by decide⟩ ∧ 3 < Stutter.word.length ∧
      (Stutter.word.resolve Stutter.files {} .strict 3).value = some ⟨⟨0⟩, 2, 0, 2⟩ ∧
      ∃ content byte, Stutter.files.content? ⟨0⟩ = some content ∧
        content.bytes[2]? = some byte ∧ (ascii "oto ")[3]? = some byte :=
  have hresolve : (Stutter.word.resolve Stutter.files {} .strict 3).value =
      some ⟨⟨0⟩, 2, 0, 2⟩ := by
    decide +kernel
  ⟨Stutter.describes_word, by decide, hresolve,
    Record.resolve_byte Stutter.describes_word {} (by decide) hresolve⟩

end TextOrigin

import TextOrigin.Proofs.Record.Descent

/-!
Byte origins. A plain record is made by slicing and joining slices of files, so each of its bytes
stands at one place of a file. Laid out flat, these places say what a descent through slices and
pieces comes to: every offset below the length of a plain record resolves, in either mode and with
either search for pieces, to the place at its position in the list. Main statement:
`resolve_origin`.
-/

namespace TextOrigin

structure Origin where
  file : FileId
  offset : Word
deriving DecidableEq, Repr

namespace Record

mutual

/-- The places of the bytes of a record, in order. A transformed text has none: its bytes may have
been inserted. -/
def origins : Record → List Origin
  | mk _ range link => linkOrigins range link

def linkOrigins (range : Range) : Link Record → List Origin
  | .leaf file =>
    (List.range range.length.toNat).map fun i => ⟨file, range.start.offset + UInt64.ofNat i⟩
  | .substring parent offset => (parent.origins.drop offset.toNat).take range.length.toNat
  | .concat pieces => piecesOrigins pieces
  | .transformed _ _ => []

def piecesOrigins : List (Piece Record) → List Origin
  | [] => []
  | ⟨source, _, length⟩ :: rest => source.origins.take length.toNat ++ piecesOrigins rest

end

def contributed : List (Record × Word) → Nat
  | [] => 0
  | (_, length) :: rest => length.toNat + contributed rest

theorem contributed_map (pieces : List (Piece Record)) :
    contributed (pieces.map fun piece => (piece.source, piece.length)) =
      Piece.totalLength pieces := by
  induction pieces with
  | nil => rfl
  | cons piece rest ih => rw [List.map_cons, contributed, ih, Piece.totalLength]

theorem piecesOrigins_append (first second : List (Piece Record)) :
    piecesOrigins (first ++ second) = piecesOrigins first ++ piecesOrigins second := by
  induction first with
  | nil => rfl
  | cons piece rest ih => rw [List.cons_append, piecesOrigins, piecesOrigins, ih, List.append_assoc]

theorem mem_piecesOrigins {pieces : List (Piece Record)} {origin : Origin} :
    origin ∈ piecesOrigins pieces ↔
      ∃ piece ∈ pieces, origin ∈ piece.source.origins.take piece.length.toNat := by
  induction pieces with
  | nil => simp [piecesOrigins]
  | cons piece rest ih => simp [piecesOrigins, ih]

theorem exists_of_mem_origins_leaf {node : NodeId} {file : FileId} {range : Range}
    {origin : Origin} (h : origin ∈ (Record.leaf node file range).origins) :
    ∃ inside, inside < range.length ∧ origin = ⟨file, range.start.offset + inside⟩ := by
  rw [Record.leaf, origins, linkOrigins] at h
  obtain ⟨i, hi, rfl⟩ := List.mem_map.1 h
  rw [List.mem_range] at hi
  have hsize := range.length.toNat_lt_size
  refine ⟨UInt64.ofNat i, ?_, rfl⟩
  rwa [UInt64.lt_iff_toNat_lt, UInt64.toNat_ofNat_of_lt' (by omega)]

/-- Records that the builders make out of slices of files with line tables, without
transformations. The total of a concatenation fits a word. -/
inductive Plain (registry : Registry) : Record → Prop where
  | leaf {node : NodeId} {file : FileId} {range : Range} {lines : LineTable}
      (hlines : registry.lines? file = some lines) (hvalid : range.Valid)
      (hstop : range.stop.offset ≤ lines.total) : Plain registry (Record.leaf node file range)
  | substring {node : NodeId} {parent record : Record} {start stop : Word}
      (hparent : Plain registry parent)
      (hrecord : Record.substring node parent start stop = .ok record) : Plain registry record
  | concat {node : NodeId} {contributions : List (Record × Word)} {record : Record}
      (hsources : ∀ contribution ∈ contributions, Plain registry contribution.1)
      (htotal : contributed contributions < UInt64.size)
      (hrecord : Record.concat node contributions = .ok record) : Plain registry record

/-- A record whose origins are as many as its bytes, and of which every offset lands, in either
mode, at its origin: a place in a file that has a position. -/
structure Located (registry : Registry) (record : Record) : Prop where
  length_eq : record.origins.length = record.length.toNat
  landing_eq {settings : Settings} {mode : Mode} {offset : Word} {origin : Origin}
    (h : record.origins[offset.toNat]? = some origin) :
    (record.descend settings mode offset).landing = some (origin.file, origin.offset)
  known : ∀ origin ∈ record.origins,
    ∃ position, registry.positionAt? origin.file origin.offset = some position

namespace Located

theorem leaf {registry : Registry} {node : NodeId} {file : FileId} {range : Range}
    {lines : LineTable} (hlines : registry.lines? file = some lines) (hvalid : range.Valid)
    (hstop : range.stop.offset ≤ lines.total) :
    Located registry (Record.leaf node file range) := by
  refine ⟨?_, fun {settings mode offset origin} horigin => ?_, fun origin horigin => ?_⟩
  · rw [Record.leaf, origins, linkOrigins, List.length_map, List.length_range]
    rfl
  · rw [Record.leaf, origins, linkOrigins, List.getElem?_map] at horigin
    obtain ⟨i, hi, rfl⟩ := Option.map_eq_some_iff.1 horigin
    obtain ⟨hlt, rfl⟩ := List.getElem?_eq_some_iff.1 hi
    rw [List.length_range] at hlt
    have hin : offset ≤ range.length := UInt64.le_iff_toNat_le.2 (Nat.le_of_lt hlt)
    rw [landing_descend, Record.leaf, step_leaf_of_le hin, List.getElem_range, UInt64.ofNat_toNat]
  · obtain ⟨inside, hinside, rfl⟩ := exists_of_mem_origins_leaf horigin
    have hplace := (Range.start_add_mem hvalid (UInt64.le_of_lt hinside)).2
    exact Registry.exists_positionAt? hlines (UInt64.le_trans hplace hstop)

theorem substring {registry : Registry} {node : NodeId} {parent record : Record}
    {start stop : Word} (hparent : Located registry parent)
    (hrecord : Record.substring node parent start stop = .ok record) :
    Located registry record := by
  obtain ⟨hstart, hstop, rfl⟩ := substring_eq_ok_iff.1 hrecord
  have hlength := UInt64.toNat_sub_of_le _ _ hstart
  rw [UInt64.le_iff_toNat_le] at hstart hstop
  have hparentLength := hparent.length_eq
  refine ⟨?_, fun {settings mode offset origin} horigin => ?_, fun origin horigin => ?_⟩
  · rw [origins, linkOrigins, List.length_take, List.length_drop, length_mk_ofLength,
      Range.length_ofLength]
    omega
  · rw [origins, linkOrigins, Range.length_ofLength, List.getElem?_take] at horigin
    split at horigin
    · next hlt =>
      rw [List.getElem?_drop] at horigin
      have hin : offset ≤ (Range.ofLength (stop - start)).length := by
        rw [Range.length_ofLength, UInt64.le_iff_toNat_le]
        omega
      have hinner : (offset + start).toNat = start.toNat + offset.toNat := by
        have := stop.toNat_lt_size
        rw [toNat_add_of_lt (by omega), Nat.add_comm]
      rw [landing_descend, step_substring_of_le hin]
      exact hparent.landing_eq (by rw [hinner, horigin])
    · contradiction
  · rw [origins, linkOrigins] at horigin
    exact hparent.known origin (List.mem_of_mem_drop (List.mem_of_mem_take horigin))

theorem length_take_origins {registry : Registry} {piece : Piece Record}
    (h : Located registry piece.source) (hfit : piece.length ≤ piece.source.length) :
    (piece.source.origins.take piece.length.toNat).length = piece.length.toNat := by
  rw [UInt64.le_iff_toNat_le] at hfit
  rw [List.length_take, h.length_eq, Nat.min_eq_left hfit]

theorem length_piecesOrigins {registry : Registry} {pieces : List (Piece Record)}
    (h : ∀ piece ∈ pieces, Located registry piece.source)
    (hfit : ∀ piece ∈ pieces, piece.length ≤ piece.source.length) :
    (piecesOrigins pieces).length = Piece.totalLength pieces := by
  induction pieces with
  | nil => rfl
  | cons piece rest ih =>
    obtain ⟨hpiece, hrest⟩ := List.forall_mem_cons.1 h
    obtain ⟨hle, hfitRest⟩ := List.forall_mem_cons.1 hfit
    rw [piecesOrigins, List.length_append, length_take_origins hpiece hle, ih hrest hfitRest,
      Piece.totalLength]

theorem getElem?_piecesOrigins {registry : Registry} {before after : List (Piece Record)}
    {piece : Piece Record} {total offset : Word}
    (hback : Piece.BackToBack 0 (before ++ piece :: after) total)
    (htotal : Piece.totalLength (before ++ piece :: after) < UInt64.size)
    (h : ∀ p ∈ before ++ piece :: after, Located registry p.source)
    (hfit : ∀ p ∈ before ++ piece :: after, p.length ≤ p.source.length)
    (hcontains : piece.contains offset = true) :
    (piecesOrigins (before ++ piece :: after))[offset.toNat]? =
      piece.source.origins[(offset - piece.offset).toNat]? := by
  rw [Piece.totalLength_append, Piece.totalLength] at htotal
  have hstart := hback.toNat_offset (by rw [UInt64.toNat_zero]; omega)
  rw [UInt64.toNat_zero, Nat.zero_add] at hstart
  obtain ⟨hinner, hfirst, hlast⟩ := Piece.toNat_sub_of_contains hcontains
  have hbefore : (piecesOrigins before).length = piece.offset.toNat := by
    rw [length_piecesOrigins (fun p hp => h p (by simp [hp])) (fun p hp => hfit p (by simp [hp])),
      hstart]
  have hown := length_take_origins (h piece (by simp)) (hfit piece (by simp))
  rw [piecesOrigins_append, piecesOrigins, List.getElem?_append_right (by omega), hbefore,
    ← hinner, List.getElem?_append_left (by omega), List.getElem?_take, if_pos (by omega)]

theorem concat {registry : Registry} {node : NodeId} {contributions : List (Record × Word)}
    {record : Record} (hsources : ∀ contribution ∈ contributions, Located registry contribution.1)
    (htotal : contributed contributions < UInt64.size)
    (hrecord : Record.concat node contributions = .ok record) : Located registry record := by
  obtain ⟨pieces, total, rfl, hback, hfit, rfl⟩ := concat_eq_ok_iff.1 hrecord
  rw [contributed_map] at htotal
  have hpieces : ∀ piece ∈ pieces, Located registry piece.source := fun piece hpiece =>
    hsources _ (List.mem_map_of_mem hpiece)
  have hlength := length_piecesOrigins hpieces hfit
  have hstop := hback.toNat_stop (by rwa [UInt64.toNat_zero, Nat.zero_add])
  rw [UInt64.toNat_zero, Nat.zero_add] at hstop
  refine ⟨?_, fun {settings mode offset origin} horigin => ?_, fun origin horigin => ?_⟩
  · rw [origins, linkOrigins, hlength, length_mk_ofLength, hstop]
  · rw [origins, linkOrigins] at horigin
    obtain ⟨hlt, -⟩ := List.getElem?_eq_some_iff.1 horigin
    have hoffset : offset < total := by
      rw [UInt64.lt_iff_toNat_lt]
      omega
    obtain ⟨piece, hpiece, hcontains⟩ := hback.exists_contains UInt64.zero_le hoffset
    have hpairwise := hback.pairwise (by rwa [UInt64.toNat_zero, Nat.zero_add])
    have hat : Piece.at? settings pieces offset = some piece :=
      (Piece.at?_eq_some_iff hpairwise).2 ⟨hpiece, hcontains⟩
    rw [landing_descend]
    simp only [step, link, concatStep, hat]
    obtain ⟨before, after, rfl⟩ := List.append_of_mem hpiece
    rw [getElem?_piecesOrigins hback htotal hpieces hfit hcontains] at horigin
    exact (hpieces piece hpiece).landing_eq horigin
  · rw [origins, linkOrigins] at horigin
    obtain ⟨piece, hpiece, horigin⟩ := mem_piecesOrigins.1 horigin
    exact (hpieces piece hpiece).known origin (List.mem_of_mem_take horigin)

end Located

theorem Plain.located {registry : Registry} {record : Record} (h : Plain registry record) :
    Located registry record := by
  induction h with
  | leaf hlines hvalid hstop => exact .leaf hlines hvalid hstop
  | substring _ hrecord hparent => exact hparent.substring hrecord
  | concat _ htotal hrecord hsources => exact .concat hsources htotal hrecord

/-- Every byte of a plain record has an origin, and its offset resolves to the position of that
origin. -/
theorem resolve_origin {registry : Registry} {record : Record} (h : Plain registry record) :
    record.origins.length = record.length.toNat ∧
      ∀ (settings : Settings) (mode : Mode) (offset : Word), offset < record.length →
        ∃ origin position, record.origins[offset.toNat]? = some origin ∧
          registry.positionAt? origin.file origin.offset = some position ∧
          (record.resolve registry settings mode offset).value =
            some ⟨origin.file, position⟩ := by
  have hlocated := h.located
  refine ⟨hlocated.length_eq, fun settings mode offset hoffset => ?_⟩
  rw [UInt64.lt_iff_toNat_lt, ← hlocated.length_eq] at hoffset
  have horigin := List.getElem?_eq_getElem hoffset
  obtain ⟨position, hposition⟩ := hlocated.known _ (List.getElem_mem hoffset)
  refine ⟨record.origins[offset.toNat], position, horigin, hposition, ?_⟩
  rw [value_resolve, hlocated.landing_eq horigin, Option.bind_some,
    Registry.place?_of_positionAt? hposition]

end Record

/-! The end of one file and the start of another, joined with nothing between them and cut. -/

namespace Patchwork

def left : Text := ⟨ascii "we be", by decide⟩

def right : Text := ⟨ascii "x\nor", by decide⟩

def files : Registry :=
  ((Registry.empty.add (ascii "left") (Backing.ofText left)).value.2.add (ascii "right")
    (Backing.ofText right)).value.2

def verb : Record := Record.leaf ⟨0⟩ ⟨0⟩ ⟨⟨3, 0, 3⟩, ⟨5, 0, 5⟩⟩

def word : Record := Record.leaf ⟨1⟩ ⟨1⟩ ⟨⟨1, 0, 1⟩, ⟨4, 1, 2⟩⟩

def joined : Record :=
  .mk ⟨2⟩ (Range.ofLength 4) (.concat [⟨verb, 0, 2⟩, ⟨word, 2, 0⟩, ⟨word, 2, 2⟩])

def patch : Record := .mk ⟨3⟩ (Range.ofLength 3) (.substring joined 1)

theorem plain_joined : Record.Plain files joined := by
  have hverb : Record.Plain files verb :=
    have hlines : files.lines? ⟨0⟩ = some (LineTable.ofText left) := rfl
    .leaf hlines (by decide) (by decide)
  have hword : Record.Plain files word :=
    have hlines : files.lines? ⟨1⟩ = some (LineTable.ofText right) := rfl
    .leaf hlines (by decide) (by decide)
  have hjoined : Record.concat ⟨2⟩ [(verb, 2), (word, 0), (word, 2)] = .ok joined := rfl
  exact .concat (by simp [hverb, hword]) (by decide) hjoined

theorem plain_patch : Record.Plain files patch :=
  have hpatch : joined.substring ⟨3⟩ 1 4 = .ok patch := rfl
  .substring plain_joined hpatch

end Patchwork

theorem Record.resolve_origin_patch :
    Plain Patchwork.files Patchwork.patch ∧
      Patchwork.patch.origins = [⟨⟨0⟩, 4⟩, ⟨⟨1⟩, 1⟩, ⟨⟨1⟩, 2⟩] ∧
      (Patchwork.patch.resolve Patchwork.files { scanLimit := 0 } .closest 2).value =
        some ⟨⟨1⟩, 2, 1, 0⟩ := by
  have horigins : Patchwork.patch.origins = [⟨⟨0⟩, 4⟩, ⟨⟨1⟩, 1⟩, ⟨⟨1⟩, 2⟩] := by decide
  obtain ⟨-, hresolve⟩ := resolve_origin Patchwork.plain_patch
  obtain ⟨origin, position, horigin, hposition, hvalue⟩ :=
    hresolve { scanLimit := 0 } .closest 2 (by decide)
  obtain rfl : ⟨⟨1⟩, 2⟩ = origin := by simpa [horigins] using horigin
  have hplace : Patchwork.files.positionAt? ⟨1⟩ 2 = some ⟨2, 1, 0⟩ := by decide +kernel
  rw [hplace] at hposition
  rw [hvalue, ← Option.some.inj hposition]
  exact ⟨Patchwork.plain_patch, horigins, rfl⟩

end TextOrigin

import TextOrigin.Record.PieceSearch

/-!
The descent of an offset through a record graph. One step looks at the link of one record: it
misses, lands in a file, or enters a record of lesser height at an offset of that record. A descent
repeats the step and keeps every visit, in order, and the place where it lands.
-/

namespace TextOrigin

inductive Step where
  | miss
  | land (file : FileId) (offset : Word)
  | enter (child : Record) (offset : Word)

namespace Record

/-- Leaves and substrings take offsets up to and including their length, so that the ends of
ranges resolve. -/
def clamp? (mode : Mode) (record : Record) (offset : Word) : Option Word :=
  if offset ≤ record.length then some offset
  else
    match mode with
    | .strict => none
    | .closest => some record.length

/-- An offset of a concatenation continues in the piece that holds it. Past all pieces a closest
resolution goes to the end of the last one that is not empty. -/
def concatStep (settings : Settings) (mode : Mode) (pieces : List (Piece Record))
    (offset : Word) : Step :=
  match Piece.at? settings pieces offset with
  | some piece => .enter piece.source (offset - piece.offset)
  | none =>
    match mode with
    | .strict => .miss
    | .closest =>
      match Piece.lastFilled? pieces with
      | some piece => .enter piece.source piece.length
      | none => .miss

def transformedStep (mode : Mode) (parent : Record) (mapping : Mapping) (offset : Word) : Step :=
  match mapping.carry? offset with
  | some inner => .enter parent inner
  | none =>
    match mode with
    | .strict => .miss
    | .closest => .enter parent (mapping.nearest parent.length offset)

def step (settings : Settings) (mode : Mode) (record : Record) (offset : Word) : Step :=
  match record.link with
  | .leaf file =>
    match record.clamp? mode offset with
    | some inside => .land file (record.range.start.offset + inside)
    | none => .miss
  | .substring parent start =>
    match record.clamp? mode offset with
    | some inside => .enter parent (inside + start)
    | none => .miss
  | .concat pieces => concatStep settings mode pieces offset
  | .transformed parent mapping => transformedStep mode parent mapping offset

theorem mem_sources_of_concatStep {settings : Settings} {mode : Mode}
    {pieces : List (Piece Record)} {offset inner : Word} {child : Record}
    (h : concatStep settings mode pieces offset = .enter child inner) :
    child ∈ pieces.map (·.source) := by
  unfold concatStep at h
  split at h
  · next piece hpiece =>
    obtain ⟨rfl, -⟩ := Step.enter.inj h
    exact List.mem_map_of_mem (Piece.mem_of_at? hpiece)
  · split at h
    · contradiction
    · split at h
      · next piece hpiece =>
        obtain ⟨rfl, -⟩ := Step.enter.inj h
        exact List.mem_map_of_mem (Piece.mem_of_lastFilled? hpiece)
      · contradiction

theorem eq_parent_of_transformedStep {mode : Mode} {parent child : Record} {mapping : Mapping}
    {offset inner : Word} (h : transformedStep mode parent mapping offset = .enter child inner) :
    child = parent := by
  unfold transformedStep at h
  split at h
  · exact (Step.enter.inj h).1.symm
  · split at h
    · contradiction
    · exact (Step.enter.inj h).1.symm

theorem mem_refs_of_step {settings : Settings} {mode : Mode} {record child : Record}
    {offset inner : Word} (h : record.step settings mode offset = .enter child inner) :
    child ∈ record.link.refs := by
  unfold step at h
  split at h
  · split at h <;> contradiction
  · next parent start hlink =>
    split at h
    · simp [hlink, Link.refs, (Step.enter.inj h).1]
    · contradiction
  · next pieces hlink =>
    rw [hlink]
    exact mem_sources_of_concatStep h
  · next parent mapping hlink =>
    simp [hlink, Link.refs, eq_parent_of_transformedStep h]

end Record

structure Visit where
  record : Record
  offset : Word

namespace Visit

/-- Two spaces for each level of depth. The depth is a word of 32 bits, and so is its double. -/
def line (depth : Nat) (visit : Visit) : Bytes :=
  ascii "[lineage] " ++ List.replicate (2 * UInt32.ofNat depth).toNat Bytes.space ++
    ascii "resolve " ++ visit.record.link.kind.name ++ ascii " local=" ++ decimal visit.offset.toNat

end Visit

structure Descent where
  visits : List Visit
  landing : Option (FileId × Word)

namespace Descent

def lines (descent : Descent) : List Bytes :=
  descent.visits.mapIdx Visit.line

end Descent

def Record.descend (settings : Settings) (mode : Mode) (record : Record) (offset : Word) :
    Descent :=
  match _h : record.step settings mode offset with
  | .miss => ⟨[⟨record, offset⟩], none⟩
  | .land file place => ⟨[⟨record, offset⟩], some (file, place)⟩
  | .enter child inner =>
    let below := child.descend settings mode inner
    ⟨⟨record, offset⟩ :: below.visits, below.landing⟩
termination_by record.height
decreasing_by exact Record.height_lt_of_mem_refs (Record.mem_refs_of_step ‹_›)

end TextOrigin

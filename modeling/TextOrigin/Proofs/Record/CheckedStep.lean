import TextOrigin.Proofs.Record.Interpolation

/-!
Steps of a descent with checked arithmetic. `Checked.step` is the step of a descent with every sum and
every difference of words replaced by one that fails where it wraps; only the product of an
interpolation stays as it is. Each operation has one lemma, which names the bounds under which it does
not fail and gives what the unchecked operation gives. Main statement: `step_of_fits`.
-/

namespace TextOrigin.Checked

def add (a b : Word) : Option Word :=
  if a.toNat + b.toNat < UInt64.size then some (a + b) else none

def sub (a b : Word) : Option Word :=
  if b ≤ a then some (a - b) else none

theorem add_eq_some_iff {a b c : Word} : add a b = some c ↔ a.toNat + b.toNat = c.toNat := by
  have hc := c.toNat_lt_size
  rw [add]
  split
  · next hlt => rw [Option.some_inj, ← UInt64.toNat_inj, toNat_add_of_lt hlt]
  · next hwrap => exact iff_of_false (by simp) (by omega)

theorem sub_eq_some_iff {a b c : Word} : sub a b = some c ↔ a.toNat = b.toNat + c.toNat := by
  rw [sub]
  split
  · next hle =>
    have hdiff := UInt64.toNat_sub_of_le _ _ hle
    rw [UInt64.le_iff_toNat_le] at hle
    rw [Option.some_inj, ← UInt64.toNat_inj, hdiff]
    omega
  · next hlt =>
    rw [UInt64.le_iff_toNat_le] at hlt
    exact iff_of_false (by simp) (by omega)

theorem add_of_le {a b : Word} (h : a ≤ a + b) : add a b = some (a + b) := by
  rw [add_eq_some_iff, toNat_add_of_lt]
  refine Nat.lt_of_not_le fun hwrap => ?_
  rw [UInt64.le_iff_toNat_le, toNat_add_of_le hwrap] at h
  have hb := b.toNat_lt_size
  omega

theorem sub_of_le {a b : Word} (h : b ≤ a) : sub a b = some (a - b) := by
  rw [sub_eq_some_iff, UInt64.toNat_sub_of_le _ _ h]
  rw [UInt64.le_iff_toNat_le] at h
  omega

theorem add_comm (a b : Word) : add a b = add b a := by
  rw [add, add, Nat.add_comm, UInt64.add_comm]

def length (range : Range) : Option Word :=
  sub range.stop.offset range.start.offset

theorem length_of_valid {range : Range} (h : range.Valid) : length range = some range.length :=
  sub_of_le h

section Pieces

variable {ρ : Type}

/-- The end of a piece is computed only for an offset that is not before its start. -/
def contains (piece : Piece ρ) (offset : Word) : Option Bool :=
  if piece.offset ≤ offset then do return offset < (← add piece.offset piece.length)
  else some false

theorem contains_of_le {piece : Piece ρ} (h : piece.offset ≤ piece.stop) (offset : Word) :
    contains piece offset = some (piece.contains offset) := by
  rw [contains, add_of_le h, Piece.contains]
  split
  · next hstart =>
    rw [decide_eq_true hstart, Bool.true_and]
    rfl
  · next hstart => rw [decide_eq_false hstart, Bool.false_and]

theorem findM?_of_eq_some {α : Type} {xs : List α} {checked : α → Option Bool} {plain : α → Bool}
    (h : ∀ x ∈ xs, checked x = some (plain x)) : xs.findM? checked = some (xs.find? plain) := by
  induction xs with
  | nil => rfl
  | cons x rest ih =>
    obtain ⟨hx, hrest⟩ := List.forall_mem_cons.1 h
    rw [List.findM?, hx, Option.bind_eq_bind, Option.bind_some, List.find?_cons, ih hrest]
    cases plain x <;> rfl

/-- What the search for an offset finds, unless the end of a piece that it looks at wraps. -/
def at? (settings : Settings) (pieces : List (Piece ρ)) (offset : Word) :
    Option (Option (Piece ρ)) :=
  if pieces.length ≤ settings.scanLimit.toNat then pieces.findM? (contains · offset)
  else
    match partitionPoint (fun piece => piece.offset ≤ offset) pieces with
    | 0 => some none
    | last + 1 =>
      match pieces[last]? with
      | some piece => do return if ← contains piece offset then some piece else none
      | none => some none

theorem at?_of_le {pieces : List (Piece ρ)} (h : ∀ piece ∈ pieces, piece.offset ≤ piece.stop)
    (settings : Settings) (offset : Word) :
    at? settings pieces offset = some (Piece.at? settings pieces offset) := by
  have hcontains := fun piece hpiece => contains_of_le (h piece hpiece) offset
  rw [at?, Piece.at?, Piece.index?]
  split
  · rw [findM?_of_eq_some hcontains, Piece.scan?, List.find?_eq_bind_findIdx?_getElem?]
  · rw [Piece.bisect?]
    cases partitionPoint (fun piece : Piece ρ => decide (piece.offset ≤ offset)) pieces with
    | zero => rfl
    | succ last =>
      dsimp only
      cases hlast : pieces[last]? with
      | none => rfl
      | some piece =>
        have hpiece := List.mem_of_getElem? hlast
        simp only [hcontains piece hpiece, Option.any_some, Option.bind_eq_bind, Option.bind_some]
        split
        · exact congrArg some hlast.symm
        · rfl

end Pieces

def interpolate (entry : MapEntry) (offset : Word) : Option Word := do
  let toLength ← sub entry.toStop entry.toStart
  let fromLength ← sub entry.fromStop entry.fromStart
  let inset ← sub offset entry.toStart
  if toLength = fromLength then add entry.fromStart inset
  else add entry.fromStart (inset * fromLength / toLength)

theorem interpolate_of_covers {entry : MapEntry} {offset : Word}
    (hfrom : entry.fromStart ≤ entry.fromStop) (h : entry.covers offset = true) :
    interpolate entry offset = some (entry.interpolate offset) := by
  obtain ⟨hstart, hstop⟩ := MapEntry.covers_iff.1 h
  have hle := MapEntry.le_interpolate hfrom h
  have hto := UInt64.le_trans hstart (UInt64.le_of_lt hstop)
  rw [interpolate, sub_of_le hto, sub_of_le hfrom, sub_of_le hstart]
  rw [MapEntry.interpolate] at hle ⊢
  simp only [Option.bind_eq_bind, Option.bind_some]
  split
  · next hsame =>
    rw [if_pos hsame] at hle
    exact add_of_le hle
  · next hdiffer =>
    rw [if_neg hdiffer] at hle
    exact add_of_le hle

section Mappings

variable {mapping : Mapping} {offset : Word}

def carry? (mapping : Mapping) (offset : Word) : Option (Option Word) :=
  match (mapping.around offset).1 with
  | some entry =>
    if offset < entry.toStop then do return some (← interpolate entry offset) else some none
  | none => some none

theorem carry?_of_ordered (h : mapping.Ordered)
    (hfrom : ∀ entry ∈ mapping, entry.fromStart ≤ entry.fromStop) :
    carry? mapping offset = some (mapping.carry? offset) := by
  rw [carry?, Mapping.carry?]
  cases hprevious : (mapping.around offset).1 with
  | none => rfl
  | some entry =>
    obtain ⟨hentry, hstart⟩ := h.of_around_fst hprevious
    dsimp only
    split
    · next hstop =>
      rw [interpolate_of_covers (hfrom entry hentry) (MapEntry.covers_iff.2 ⟨hstart, hstop⟩)]
      rfl
    · rfl

def nearest (mapping : Mapping) (source : Range) (offset : Word) : Option Word :=
  match mapping.around offset with
  | (none, none) => do return min offset (← length source)
  | (none, some next) => some next.fromStart
  | (some previous, none) => some previous.fromStop
  | (some previous, some next) => do
    let toPrevious ← sub offset previous.toStop
    let toNext ← sub next.toStart offset
    return if toPrevious < toNext then previous.fromStop else next.fromStart

theorem nearest_of_ordered (h : mapping.Ordered) {source : Range} (hsource : source.Valid)
    (hnone : mapping.carry? offset = none) :
    nearest mapping source offset = some (mapping.nearest source.length offset) := by
  rw [nearest, Mapping.nearest]
  rcases haround : mapping.around offset with ⟨_ | previous, _ | next⟩
  · simp only [length_of_valid hsource]
    rfl
  · rfl
  · rfl
  · have hprevious : (mapping.around offset).1 = some previous := by rw [haround]
    have hnext : (mapping.around offset).2 = some next := by rw [haround]
    have hended := Mapping.stop_le_of_carry?_eq_none hnone hprevious
    obtain ⟨-, hahead⟩ := h.of_around_snd hnext
    simp only [sub_of_le hended, sub_of_le (UInt64.le_of_lt hahead)]
    rfl

end Mappings

def clamp? (mode : Mode) (record : Record) (offset : Word) : Option (Option Word) := do
  let length ← length record.range
  if offset ≤ length then return some offset
  else
    match mode with
    | .strict => return none
    | .closest => return some length

theorem clamp?_of_valid {record : Record} (h : record.range.Valid) (mode : Mode) (offset : Word) :
    clamp? mode record offset = some (record.clamp? mode offset) := by
  rw [clamp?, length_of_valid h]
  unfold Record.clamp? Record.length
  simp only [Option.bind_eq_bind, Option.bind_some]
  split
  · rfl
  · cases mode <;> rfl

def concatStep (settings : Settings) (mode : Mode) (pieces : List (Piece Record)) (offset : Word) :
    Option Step := do
  match ← at? settings pieces offset with
  | some piece => return .enter piece.source (← sub offset piece.offset)
  | none =>
    match mode with
    | .strict => return .miss
    | .closest =>
      match Piece.lastFilled? pieces with
      | some piece => return .enter piece.source piece.length
      | none => return .miss

theorem concatStep_of_le {pieces : List (Piece Record)}
    (h : ∀ piece ∈ pieces, piece.offset ≤ piece.stop) (settings : Settings) (mode : Mode)
    (offset : Word) :
    concatStep settings mode pieces offset =
      some (Record.concatStep settings mode pieces offset) := by
  unfold concatStep Record.concatStep
  rw [at?_of_le h]
  cases hat : Piece.at? settings pieces offset with
  | some piece =>
    have hcontains := Piece.contains_of_at? hat
    simp only [Piece.contains, Bool.and_eq_true, decide_eq_true_eq] at hcontains
    simp only [Option.bind_eq_bind, Option.bind_some, sub_of_le hcontains.1]
    rfl
  | none =>
    cases mode with
    | strict => rfl
    | closest => cases Piece.lastFilled? pieces <;> rfl

def transformedStep (mode : Mode) (parent : Record) (mapping : Mapping) (offset : Word) :
    Option Step := do
  match ← carry? mapping offset with
  | some inner => return .enter parent inner
  | none =>
    match mode with
    | .strict => return .miss
    | .closest => return .enter parent (← nearest mapping parent.range offset)

theorem transformedStep_of_within {parent : Record} {mapping : Mapping} (h : mapping.Ordered)
    (hfrom : ∀ entry ∈ mapping, entry.fromStart ≤ entry.fromStop) (hparent : parent.range.Valid)
    (mode : Mode) (offset : Word) :
    transformedStep mode parent mapping offset =
      some (Record.transformedStep mode parent mapping offset) := by
  unfold transformedStep Record.transformedStep
  rw [carry?_of_ordered h hfrom]
  cases hcarry : mapping.carry? offset with
  | some inner => rfl
  | none =>
    cases mode with
    | strict => rfl
    | closest =>
      simp only [Option.bind_eq_bind, Option.bind_some, nearest_of_ordered h hparent hcarry]
      rfl

def step (settings : Settings) (mode : Mode) (record : Record) (offset : Word) : Option Step :=
  match record.link with
  | .leaf file => do
    match ← clamp? mode record offset with
    | some inside => return .land file (← add record.range.start.offset inside)
    | none => return .miss
  | .substring parent start => do
    match ← clamp? mode record offset with
    | some inside => return .enter parent (← add inside start)
    | none => return .miss
  | .concat pieces => concatStep settings mode pieces offset
  | .transformed parent mapping => transformedStep mode parent mapping offset

/-- Nothing wraps in a step at a record whose link keeps its bounds, whatever the offset. -/
theorem step_of_fits {record : Record} (hvalid : record.range.Valid)
    (hrefs : ∀ child ∈ record.link.refs, child.range.Valid)
    (hfits : record.link.Fits Record.length record.length)
    (htotal : ∀ pieces, record.link = .concat pieces → Piece.totalLength pieces < UInt64.size)
    (settings : Settings) (mode : Mode) (offset : Word) :
    step settings mode record offset = some (record.step settings mode offset) := by
  rw [step, Record.step]
  cases hlink : record.link with
  | leaf file =>
    simp only [clamp?_of_valid hvalid, Option.bind_eq_bind, Option.bind_some]
    cases hclamp : record.clamp? mode offset with
    | none => rfl
    | some inside =>
      have hplace := Range.start_add_mem hvalid (Record.le_length_of_clamp? hclamp)
      simp only [add_of_le hplace.1]
      rfl
  | substring parent start =>
    rw [hlink] at hfits
    simp only [clamp?_of_valid hvalid, Option.bind_eq_bind, Option.bind_some]
    cases hclamp : record.clamp? mode offset with
    | none => rfl
    | some inside =>
      have hinside := UInt64.le_trans (Record.le_length_of_clamp? hclamp) hfits.2
      have hplace := Record.slice_bounds_iff.2 ⟨hfits.1, hinside⟩
      simp only [add_comm inside, add_of_le hplace.1, UInt64.add_comm inside]
      rfl
  | concat pieces =>
    rw [hlink] at hfits
    have hlt := htotal pieces hlink
    exact concatStep_of_le (fun piece hpiece =>
      hfits.1.offset_le_stop (by rwa [UInt64.toNat_zero, Nat.zero_add]) hpiece) settings mode offset
  | transformed parent mapping =>
    rw [hlink] at hfits hrefs
    exact transformedStep_of_within (Mapping.ordered_of_firstFault? hfits)
      (fun entry hentry => (Mapping.within_of_faultFrom? hfits entry hentry).from_le)
      (hrefs parent (List.mem_singleton_self parent)) mode offset

/-- An inverted leaf has no length that does not wrap. -/
example : step {} .strict (Record.leaf ⟨0⟩ ⟨0⟩ ⟨⟨2, 0, 2⟩, ⟨1, 0, 1⟩⟩) 0 = none := rfl

end TextOrigin.Checked

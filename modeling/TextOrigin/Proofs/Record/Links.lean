import TextOrigin.Proofs.Record.Pieces

/-!
Links whose references are replaced. Replacing references one by one keeps everything else of a
link, so what a link says of the lengths it refers to is said of the new references as well.
-/

namespace TextOrigin

def Piece.map {ρ σ : Type} (f : ρ → σ) (piece : Piece ρ) : Piece σ :=
  ⟨f piece.source, piece.offset, piece.length⟩

namespace Link

def map {ρ σ : Type} (f : ρ → σ) : Link ρ → Link σ
  | leaf file => leaf file
  | substring parent offset => substring (f parent) offset
  | concat pieces => concat (pieces.map (Piece.map f))
  | transformed parent mapping => transformed (f parent) mapping

@[simp] theorem refs_map {ρ σ : Type} (f : ρ → σ) (link : Link ρ) :
    (link.map f).refs = link.refs.map f := by
  cases link with
  | concat pieces => simp [map, refs, Piece.map, Function.comp_def]
  | _ => rfl

@[simp] theorem kind_map {ρ σ : Type} (f : ρ → σ) (link : Link ρ) :
    (link.map f).kind = link.kind := by
  cases link <;> rfl

theorem map_map {ρ σ τ : Type} (f : ρ → σ) (g : σ → τ) (link : Link ρ) :
    (link.map f).map g = link.map (g ∘ f) := by
  cases link with
  | concat pieces => simp [map, Piece.map, Function.comp_def]
  | _ => rfl

theorem map_congr {ρ σ : Type} {f g : ρ → σ} {link : Link ρ}
    (h : ∀ target ∈ link.refs, f target = g target) : link.map f = link.map g := by
  cases link with
  | leaf file => rfl
  | substring parent offset => simp [map, h parent (by simp [refs])]
  | concat pieces =>
    refine congrArg concat (List.map_congr_left fun piece hpiece => ?_)
    rw [Piece.map, Piece.map, h piece.source (List.mem_map_of_mem hpiece)]
  | transformed parent mapping => simp [map, h parent (by simp [refs])]

theorem map_id {ρ : Type} {f : ρ → ρ} {link : Link ρ}
    (h : ∀ target ∈ link.refs, f target = target) : link.map f = link := by
  rw [map_congr (g := id) h]
  cases link with
  | concat pieces => exact congrArg concat (List.map_id pieces)
  | _ => rfl

theorem mapM_eq_ok {ε ρ σ : Type} {f : ρ → Except ε σ} {g : ρ → σ} {link : Link ρ}
    (h : ∀ target ∈ link.refs, f target = .ok (g target)) :
    link.mapM f = .ok (link.map g) := by
  cases link with
  | leaf file => rfl
  | substring parent offset =>
    rw [mapM, h parent (by simp [refs])]
    rfl
  | concat pieces =>
    have hpieces : pieces.mapM (fun piece => do
        return ({ source := ← f piece.source, offset := piece.offset, length := piece.length } :
          Piece σ)) = Except.ok (pieces.map (Piece.map g)) := by
      induction pieces with
      | nil => rfl
      | cons piece rest ih =>
        have hrest := ih fun target htarget => h target (List.mem_cons_of_mem _ htarget)
        rw [List.mapM_cons, hrest, h piece.source (by simp [refs])]
        rfl
    rw [mapM, hpieces]
    rfl
  | transformed parent mapping =>
    rw [mapM, h parent (by simp [refs])]
    rfl

/-- The bounds that the builders check, for references of given lengths. -/
def Fits {ρ : Type} (lengthOf : ρ → Word) (length : Word) : Link ρ → Prop
  | leaf _ => True
  | substring parent offset => offset ≤ lengthOf parent ∧ length ≤ lengthOf parent - offset
  | concat pieces => Piece.BackToBack 0 pieces length ∧
      ∀ piece ∈ pieces, piece.length ≤ lengthOf piece.source
  | transformed parent mapping => mapping.firstFault? (lengthOf parent) length = none

end Link

theorem Piece.backToBack_map {ρ σ : Type} (f : ρ → σ) {start stop : Word}
    {pieces : List (Piece ρ)} :
    BackToBack start (pieces.map (Piece.map f)) stop ↔ BackToBack start pieces stop := by
  induction pieces generalizing start with
  | nil => rfl
  | cons piece rest ih => exact and_congr_right fun _ => ih

theorem Link.fits_map {ρ σ : Type} (f : ρ → σ) {lengthOf : σ → Word} {length : Word}
    {link : Link ρ} : (link.map f).Fits lengthOf length ↔ link.Fits (lengthOf ∘ f) length := by
  cases link with
  | concat pieces => simp [map, Fits, Piece.backToBack_map, Piece.map]
  | _ => rfl

theorem Link.fits_congr {ρ : Type} {lengthOf lengthOf' : ρ → Word} {length : Word} {link : Link ρ}
    (h : ∀ target ∈ link.refs, lengthOf target = lengthOf' target) :
    link.Fits lengthOf length ↔ link.Fits lengthOf' length := by
  cases link with
  | leaf file => rfl
  | substring parent offset => rw [Fits, Fits, h parent (by simp [refs])]
  | concat pieces =>
    refine and_congr_right fun _ => forall₂_congr fun piece hpiece => ?_
    rw [h piece.source (List.mem_map_of_mem hpiece)]
  | transformed parent mapping => rw [Fits, Fits, h parent (by simp [refs])]

theorem Link.fits_of_lengths_eq {ρ σ : Type} {lengthOf : ρ → Word} {lengthOf' : σ → Word}
    {first : Link ρ} {second : Link σ} (h : first.map lengthOf = second.map lengthOf')
    (length : Word) : first.Fits lengthOf length ↔ second.Fits lengthOf' length := by
  have hfirst : (first.map lengthOf).Fits id length ↔ first.Fits lengthOf length :=
    fits_map lengthOf
  have hsecond : (second.map lengthOf').Fits id length ↔ second.Fits lengthOf' length :=
    fits_map lengthOf'
  rw [← hfirst, h, hsecond]

/-- The bounds of an entry in the texts that it relates. -/
structure MapEntry.Within (entry : MapEntry) (sourceLength targetLength : Word) : Prop where
  from_le : entry.fromStart ≤ entry.fromStop
  to_le : entry.toStart ≤ entry.toStop
  source_le : entry.fromStop ≤ sourceLength
  target_le : entry.toStop ≤ targetLength

theorem MapEntry.fault?_eq_none_iff {entry : MapEntry} {sourceLength targetLength previous : Word} :
    entry.fault? sourceLength targetLength previous = none ↔
      entry.Within sourceLength targetLength ∧ previous ≤ entry.toStart := by
  unfold fault?
  constructor
  · intro h
    split at h
    · contradiction
    · next hordered =>
      rw [not_or, UInt64.not_lt, UInt64.not_lt] at hordered
      split at h
      · contradiction
      · next hsource =>
        split at h
        · contradiction
        · next htarget =>
          split at h
          · contradiction
          · next hprevious =>
            exact ⟨⟨hordered.1, hordered.2, UInt64.not_lt.1 hsource, UInt64.not_lt.1 htarget⟩,
              UInt64.not_lt.1 hprevious⟩
  · rintro ⟨hwithin, hprevious⟩
    have hordered : ¬ (entry.fromStop < entry.fromStart ∨ entry.toStop < entry.toStart) := by
      rw [not_or, UInt64.not_lt, UInt64.not_lt]
      exact ⟨hwithin.from_le, hwithin.to_le⟩
    rw [if_neg hordered, if_neg (UInt64.not_lt.2 hwithin.source_le),
      if_neg (UInt64.not_lt.2 hwithin.target_le), if_neg (UInt64.not_lt.2 hprevious)]

theorem Mapping.within_of_faultFrom? {sourceLength targetLength previous : Word} {index : Nat}
    {mapping : Mapping} (h : mapping.faultFrom? sourceLength targetLength previous index = none) :
    ∀ entry ∈ mapping, entry.Within sourceLength targetLength := by
  induction mapping generalizing previous index with
  | nil => simp
  | cons entry rest ih =>
    rw [faultFrom?] at h
    split at h
    · contradiction
    · next hfault =>
      exact List.forall_mem_cons.2 ⟨(MapEntry.fault?_eq_none_iff.1 hfault).1, ih h⟩

end TextOrigin

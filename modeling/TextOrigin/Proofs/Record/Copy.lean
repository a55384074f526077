import TextOrigin.Proofs.Record.Descent
import TextOrigin.Proofs.Record.Links

/-!
Copies of records: the same ranges and links on other nodes, with copies of what the links refer
to. A copy equals its original in content. Resolving an offset does not even tell apart records
that resemble each other, where only leaves need the same ranges and all other records the same
lengths: a descent never looks at nodes, nor at where a range lies in a text without a file.
-/

namespace TextOrigin

namespace Piece

theorem at?_map {ρ σ : Type} (f : ρ → σ) (settings : Settings) (pieces : List (Piece ρ))
    (offset : Word) :
    at? settings (pieces.map (map f)) offset = (at? settings pieces offset).map (map f) := by
  have hscan : scan? (pieces.map (map f)) offset = scan? pieces offset := by
    rw [scan?, List.findIdx?_map]
    rfl
  have hbisect : bisect? (pieces.map (map f)) offset = bisect? pieces offset := by
    rw [bisect?, partitionPoint_map, bisect?]
    simp only [List.getElem?_map, Option.any_map]
    rfl
  have hindex : index? settings (pieces.map (map f)) offset = index? settings pieces offset := by
    rw [index?, index?, List.length_map, hscan, hbisect]
  rw [at?, at?, hindex]
  cases index? settings pieces offset with
  | none => rfl
  | some i => simp

theorem lastFilled?_map {ρ σ : Type} (f : ρ → σ) (pieces : List (Piece ρ)) :
    lastFilled? (pieces.map (map f)) = (lastFilled? pieces).map (map f) := by
  have hfind : (pieces.map (map f)).reverse.find? (fun piece => 0 < piece.length) =
      (pieces.reverse.find? (fun piece => 0 < piece.length)).map (map f) := by
    rw [← List.map_reverse, List.find?_map]
    rfl
  rw [lastFilled?, hfind, lastFilled?]
  cases pieces.reverse.find? (fun piece => 0 < piece.length) with
  | none => simp
  | some piece => rfl

end Piece

def Step.map (f : Record → Record) : Step → Step
  | miss => miss
  | land file offset => land file offset
  | enter child offset => enter (f child) offset

namespace Record

/-- A record of the same content on nodes that need not be the same. -/
inductive Copy : Record → Record → Prop where
  | mk {node node' : NodeId} {range : Range} {link : Link Record} {f : Record → Record}
      (hrefs : ∀ child ∈ link.refs, Copy child (f child)) :
      Copy (.mk node range link) (.mk node' range (link.map f))

theorem Copy.range_eq {record copy : Record} (h : Copy record copy) :
    copy.range = record.range := by
  cases h
  rfl

theorem alikeLinks_map {link : Link Record} {f : Record → Record}
    (h : ∀ child ∈ link.refs, (f child).alike child = true) :
    alikeLinks (link.map f) link = true := by
  cases link with
  | leaf file => simp [Link.map, alikeLinks]
  | substring parent offset => simp [Link.map, alikeLinks, h parent (by simp [Link.refs])]
  | concat pieces =>
    have hpieces : alikePieces (pieces.map (Piece.map f)) pieces = true := by
      induction pieces with
      | nil => rfl
      | cons piece rest ih =>
        have hsource := h piece.source (by simp [Link.refs])
        have hrest := ih fun child hchild => h child (List.mem_cons_of_mem _ hchild)
        simp [Piece.map, alikePieces, hsource, hrest]
    simp [Link.map, alikeLinks, hpieces]
  | transformed parent mapping => simp [Link.map, alikeLinks, h parent (by simp [Link.refs])]

theorem Copy.alike {record copy : Record} (h : Copy record copy) : copy.alike record = true := by
  induction h with
  | mk hrefs ih =>
    rw [Record.alike, Record.range, Record.link, alikeLinks_map ih]
    simp

/-- A record of the same links and the same length, with the same range where it is a leaf, whose
node and whose range elsewhere need not be the same. -/
inductive Resembles : Record → Record → Prop where
  | mk {node node' : NodeId} {range range' : Range} {link : Link Record} {f : Record → Record}
      (hlength : range'.length = range.length) (hleaf : link.kind = .leaf → range' = range)
      (hrefs : ∀ child ∈ link.refs, Resembles child (f child)) :
      Resembles (.mk node range link) (.mk node' range' (link.map f))

theorem Copy.resembles {record copy : Record} (h : Copy record copy) : Resembles record copy := by
  induction h with
  | mk hrefs ih => exact .mk rfl (fun _ => rfl) ih

theorem Resembles.length_eq {record other : Record} (h : Resembles record other) :
    other.length = record.length := by
  cases h
  assumption

theorem step_map (node node' : NodeId) {range range' : Range} {link : Link Record}
    {f : Record → Record} (hlength : range'.length = range.length)
    (hleaf : link.kind = .leaf → range' = range)
    (h : ∀ child ∈ link.refs, (f child).length = child.length) (settings : Settings)
    (mode : Mode) (offset : Word) :
    (mk node' range' (link.map f)).step settings mode offset =
      ((mk node range link).step settings mode offset).map f := by
  have hclamp : (mk node' range' (link.map f)).clamp? mode offset =
      (mk node range link).clamp? mode offset := by
    have hsame : (mk node' range' (link.map f)).length = (mk node range link).length := hlength
    unfold clamp?
    rw [hsame]
  cases link with
  | leaf file =>
    obtain rfl := hleaf rfl
    simp only [step, Record.link, Link.map] at hclamp ⊢
    rw [hclamp]
    split <;> rfl
  | substring parent start =>
    simp only [step, Record.link, Link.map] at hclamp ⊢
    rw [hclamp]
    split <;> rfl
  | concat pieces =>
    simp only [step, Record.link, Link.map, concatStep, Piece.at?_map, Piece.lastFilled?_map]
    cases Piece.at? settings pieces offset with
    | some piece => rfl
    | none =>
      cases mode with
      | strict => rfl
      | closest => cases Piece.lastFilled? pieces <;> rfl
  | transformed parent mapping =>
    simp only [step, Record.link, Link.map, transformedStep, h parent (by simp [Link.refs])]
    cases mapping.carry? offset with
    | some inner => rfl
    | none => cases mode <;> rfl

end Record

def Visit.key (visit : Visit) : Kind × Word := (visit.record.link.kind, visit.offset)

theorem Visit.line_congr {first second : Visit} (h : first.key = second.key) (depth : Nat) :
    first.line depth = second.line depth := by
  obtain ⟨hkind, hoffset⟩ := Prod.mk.inj h
  rw [line, line, hkind, hoffset]

theorem Descent.lines_congr {first second : Descent}
    (h : first.visits.map Visit.key = second.visits.map Visit.key) :
    first.lines = second.lines := by
  refine List.ext_getElem? fun i => ?_
  have hi := congrArg (·[i]?) h
  simp only [List.getElem?_map] at hi
  rw [Descent.lines, Descent.lines, List.getElem?_mapIdx, List.getElem?_mapIdx]
  cases hfirst : first.visits[i]? with
  | none =>
    rw [hfirst] at hi
    rw [Option.map_eq_none_iff.1 hi.symm]
  | some visit =>
    rw [hfirst] at hi
    obtain ⟨other, hother, hkey⟩ := Option.map_eq_some_iff.1 hi.symm
    rw [hother]
    exact congrArg some (Visit.line_congr hkey.symm i)

namespace Record

theorem Resembles.descend {record other : Record} (h : Resembles record other)
    (settings : Settings) (mode : Mode) (offset : Word) :
    (other.descend settings mode offset).landing = (record.descend settings mode offset).landing ∧
      (other.descend settings mode offset).visits.map Visit.key =
        (record.descend settings mode offset).visits.map Visit.key := by
  induction h generalizing offset with
  | @mk node node' range range' link f hlength hleaf hrefs ih =>
    have hstep := step_map node node' hlength hleaf
      (fun child hchild => (hrefs child hchild).length_eq) settings mode offset
    rw [landing_descend, landing_descend, visits_descend, visits_descend, hstep]
    cases hrecord : (Record.mk node range link).step settings mode offset with
    | miss => simp [Step.map, Visit.key, Record.link]
    | land file place => simp [Step.map, Visit.key, Record.link]
    | enter child inner =>
      have hchild := ih child (mem_refs_of_step hrecord) inner
      simp [Step.map, Visit.key, Record.link, hchild]

theorem Resembles.resolve {record other : Record} (h : Resembles record other)
    (registry : Registry) (settings : Settings) (mode : Mode) (offset : Word) :
    other.resolve registry settings mode offset = record.resolve registry settings mode offset := by
  obtain ⟨hlanding, hvisits⟩ := h.descend settings mode offset
  simp only [Record.resolve, hlanding, Descent.lines_congr hvisits]

theorem Copy.resolve {record copy : Record} (h : Copy record copy) (registry : Registry)
    (settings : Settings) (mode : Mode) (offset : Word) :
    copy.resolve registry settings mode offset = record.resolve registry settings mode offset :=
  h.resembles.resolve registry settings mode offset

end Record

end TextOrigin

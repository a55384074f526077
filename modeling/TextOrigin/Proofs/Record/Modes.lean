import TextOrigin.Proofs.Record.RangeEnds

/-!
Strict and closest resolution. The two part only where a strict step misses. Where it lands or goes
on, a closest step does the same, so a strict descent that lands is the closest descent too, visit by
visit. What a strict resolution gives for an offset or for a range, a closest one therefore gives
with the same reported lines, and this asks nothing of how the record was made. Main statement:
`closest_extends_strict`.
-/

namespace TextOrigin

theorem Registry.place?_closest_of_strict {registry : Registry} {file : FileId} {offset : Word}
    {location : Location} (h : registry.place? .strict file offset = some location) :
    registry.place? .closest file offset = some location := by
  cases hexact : registry.positionAt? file offset with
  | none => simp [place?, hexact] at h
  | some position =>
    rw [place?_of_positionAt? hexact] at h ⊢
    exact h

namespace Record

theorem clamp?_closest_of_strict {record : Record} {offset inside : Word}
    (h : record.clamp? .strict offset = some inside) :
    record.clamp? .closest offset = some inside := by
  obtain ⟨hle, rfl⟩ := clamp?_strict_eq_some_iff.1 h
  exact clamp?_of_le .closest record hle

theorem step_closest_of_strict {settings : Settings} {record : Record} {offset : Word}
    (h : record.step settings .strict offset ≠ .miss) :
    record.step settings .closest offset = record.step settings .strict offset := by
  unfold step at h ⊢
  cases hlink : record.link with
  | leaf file =>
    cases hclamp : record.clamp? .strict offset with
    | none => simp [hlink, hclamp] at h
    | some inside => simp only [clamp?_closest_of_strict hclamp]
  | substring parent start =>
    cases hclamp : record.clamp? .strict offset with
    | none => simp [hlink, hclamp] at h
    | some inside => simp only [clamp?_closest_of_strict hclamp]
  | concat pieces =>
    cases hat : Piece.at? settings pieces offset with
    | none => simp [hlink, concatStep, hat] at h
    | some piece => simp only [concatStep, hat]
  | transformed parent mapping =>
    cases hcarry : mapping.carry? offset with
    | none => simp [hlink, transformedStep, hcarry] at h
    | some inner => simp only [transformedStep, hcarry]

theorem descend_closest_of_strict {settings : Settings} {record : Record} {offset : Word}
    {landing : FileId × Word}
    (h : (record.descend settings .strict offset).landing = some landing) :
    record.descend settings .closest offset = record.descend settings .strict offset := by
  rw [landing_descend] at h
  have hstep : record.step settings .strict offset ≠ .miss := fun hmiss => by simp [hmiss] at h
  rw [descend_eq, descend_eq, step_closest_of_strict hstep]
  cases hstrict : record.step settings .strict offset with
  | miss => exact absurd hstrict hstep
  | land file place => rfl
  | enter child inner =>
    simp only [hstrict] at h
    have hchild := mem_refs_of_step hstrict
    simp only [descend_closest_of_strict h]
termination_by record.height
decreasing_by exact height_lt_of_mem_refs hchild

theorem resolve_closest_of_strict {registry : Registry} {settings : Settings} {record : Record}
    {offset : Word} {location : Location}
    (h : (record.resolve registry settings .strict offset).value = some location) :
    record.resolve registry settings .closest offset =
      record.resolve registry settings .strict offset := by
  rw [value_resolve] at h
  obtain ⟨landing, hlanding, hplace⟩ := Option.bind_eq_some_iff.1 h
  simp only [resolve, descend_closest_of_strict hlanding, hlanding, Option.bind_some, hplace,
    Registry.place?_closest_of_strict hplace]

/-- Whatever a strict resolution gives for an offset or a range, a closest one gives too, and
reports the same lines for it. -/
theorem closest_extends_strict (registry : Registry) (settings : Settings) (record : Record) :
    (∀ offset location,
        (record.resolve registry settings .strict offset).value = some location →
        record.resolve registry settings .closest offset =
          record.resolve registry settings .strict offset) ∧
      ∀ start stop locations,
        (record.resolveRange registry settings .strict start stop).value = some locations →
        record.resolveRange registry settings .closest start stop =
          record.resolveRange registry settings .strict start stop := by
  refine ⟨fun offset location h => resolve_closest_of_strict h, fun start stop locations h => ?_⟩
  obtain ⟨first, second⟩ := locations
  obtain ⟨hfirst, hsecond⟩ := resolveRange_eq_some_iff.1 h
  have hstart := resolve_closest_of_strict hfirst
  rcases hsecond with ⟨rfl, -⟩ | ⟨-, last, hlast, -⟩
  · simp only [resolveRange, hstart, if_true]
  · have hstop := resolve_closest_of_strict hlast
    simp only [resolveRange, hstart, hstop]

end Record

/-! The framed text without its last byte, joined with nothing, and cut where the file begins. -/

namespace Framed

def joined : Record := .mk ⟨2⟩ (Range.ofLength 9) (.concat [⟨framed, 0, 9⟩, ⟨whole, 9, 0⟩])

def excerpt : Record := .mk ⟨3⟩ (Range.ofLength 7) (.substring joined 2)

end Framed

theorem Record.closest_extends_strict_excerpt :
    (Framed.excerpt.resolve Framed.files { trace := true } .strict 6).value =
        some ⟨⟨0⟩, 6, 1, 2⟩ ∧
      (Framed.excerpt.resolve Framed.files { trace := true } .closest 6).lines =
        [ascii "[lineage] resolve substring local=6", ascii "[lineage]   resolve concat local=8",
          ascii "[lineage]     resolve transformed local=8",
          ascii "[lineage]       resolve original local=6"] ∧
      (Framed.excerpt.resolveRange Framed.files {} .closest 3 7).value =
        some (⟨⟨0⟩, 3, 0, 3⟩, ⟨⟨0⟩, 7, 1, 3⟩) := by
  have hstrict : (Framed.excerpt.resolve Framed.files { trace := true } .strict 6).value =
      some ⟨⟨0⟩, 6, 1, 2⟩ := by
    decide +kernel
  have hrange : (Framed.excerpt.resolveRange Framed.files {} .strict 3 7).value =
      some (⟨⟨0⟩, 3, 0, 3⟩, ⟨⟨0⟩, 7, 1, 3⟩) := by
    decide +kernel
  refine ⟨hstrict, ?_, ?_⟩
  · rw [(Record.closest_extends_strict Framed.files { trace := true } Framed.excerpt).1 6 _ hstrict]
    decide +kernel
  · rw [(Record.closest_extends_strict Framed.files {} Framed.excerpt).2 3 7 _ hrange]
    exact hrange

end TextOrigin

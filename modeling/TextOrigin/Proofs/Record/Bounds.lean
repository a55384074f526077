import TextOrigin.Proofs.Record.CheckedStep

/-!
Bounds of a descent. Below the record at which it starts, a descent stays inside every record that it
enters: a slice and its offset end inside the parent, an offset that a piece holds is inside the piece
and so inside its source, and a mapping carries every offset into the parent. Only the first record can
be entered past its end, and at no record does a sum or a difference of offsets wrap. Main statement:
`descend_inside`.
-/

namespace TextOrigin

theorem Mapping.Ordered.nearest_le {mapping : Mapping} (h : mapping.Ordered)
    {sourceLength targetLength : Word}
    (hwithin : ∀ entry ∈ mapping, entry.Within sourceLength targetLength) (offset : Word) :
    mapping.nearest sourceLength offset ≤ sourceLength := by
  have hstop : ∀ entry, (mapping.around offset).1 = some entry → entry.fromStop ≤ sourceLength :=
    fun entry hprevious => (hwithin entry (h.of_around_fst hprevious).1).source_le
  have hstart : ∀ entry, (mapping.around offset).2 = some entry →
      entry.fromStart ≤ sourceLength := by
    intro entry hnext
    have hentry := hwithin entry (h.of_around_snd hnext).1
    exact UInt64.le_trans hentry.from_le hentry.source_le
  rw [nearest]
  rcases haround : mapping.around offset with ⟨_ | previous, _ | next⟩
  · rw [UInt64.le_iff_toNat_le, UInt64.toNat_min]
    exact Nat.min_le_right _ _
  · exact hstart next (by rw [haround])
  · exact hstop previous (by rw [haround])
  · dsimp only
    split
    · exact hstop previous (by rw [haround])
    · exact hstart next (by rw [haround])

namespace Record

/-- Records that arise, with no inverted leaf and no concatenation of more bytes than a word counts
below. -/
structure Bounded (record : Record) : Prop where
  arises : record.Arises
  leavesValid : record.LeavesValid
  totalsFit : record.TotalsFit

variable {settings : Settings} {mode : Mode} {record child : Record} {offset inner : Word}

namespace Bounded

theorem of_mem_refs (h : record.Bounded) (hchild : child ∈ record.link.refs) : child.Bounded where
  arises := h.arises.of_mem_refs hchild
  leavesValid := (leavesValid_iff.1 h.leavesValid).2 child hchild
  totalsFit := h.totalsFit.of_mem_refs hchild

theorem of_refs (harises : record.Arises) (hvalid : record.range.Valid)
    (htotal : ∀ pieces, record.link = .concat pieces → Piece.totalLength pieces < UInt64.size)
    (hrefs : ∀ child ∈ record.link.refs, child.Bounded) : record.Bounded where
  arises := harises
  leavesValid := leavesValid_iff.2 ⟨fun _ _ => hvalid, fun child hchild =>
    (hrefs child hchild).leavesValid⟩
  totalsFit := totalsFit_iff.2 ⟨htotal, fun child hchild => (hrefs child hchild).totalsFit⟩

theorem valid_range (h : record.Bounded) : record.range.Valid :=
  h.arises.valid_range (leavesValid_iff.1 h.leavesValid).1

theorem checked_step (h : record.Bounded) (settings : Settings) (mode : Mode) (offset : Word) :
    Checked.step settings mode record offset = some (record.step settings mode offset) :=
  Checked.step_of_fits h.valid_range (fun _ hchild => (h.of_mem_refs hchild).valid_range)
    h.arises.fits (totalsFit_iff.1 h.totalsFit).1 settings mode offset

end Bounded

theorem inner_le_of_concatStep {pieces : List (Piece Record)}
    (hsource : ∀ piece ∈ pieces, piece.length ≤ piece.source.length)
    (h : concatStep settings mode pieces offset = .enter child inner) : inner ≤ child.length := by
  unfold concatStep at h
  split at h
  · next piece hat =>
    obtain ⟨rfl, rfl⟩ := Step.enter.inj h
    have hlt := Piece.sub_lt_of_contains (Piece.contains_of_at? hat)
    exact UInt64.le_trans (UInt64.le_of_lt hlt) (hsource piece (Piece.mem_of_at? hat))
  · split at h
    · contradiction
    · split at h
      · next piece hlast =>
        obtain ⟨rfl, rfl⟩ := Step.enter.inj h
        exact hsource piece (Piece.mem_of_lastFilled? hlast)
      · contradiction

theorem inner_le_of_transformedStep {parent : Record} {mapping : Mapping} {length : Word}
    (hfault : mapping.firstFault? parent.length length = none)
    (h : transformedStep mode parent mapping offset = .enter child inner) : inner ≤ child.length := by
  have hwithin := Mapping.within_of_faultFrom? hfault
  unfold transformedStep at h
  split at h
  · next carried hcarry =>
    obtain ⟨rfl, rfl⟩ := Step.enter.inj h
    obtain ⟨entry, hentry, hcovers, rfl⟩ := Mapping.covers_of_carry? hcarry
    have hplace := MapEntry.interpolate_le (hwithin entry hentry).from_le hcovers
    exact UInt64.le_trans hplace (hwithin entry hentry).source_le
  · split at h
    · contradiction
    · obtain ⟨rfl, rfl⟩ := Step.enter.inj h
      exact (Mapping.ordered_of_firstFault? hfault).nearest_le hwithin offset

theorem inner_le_of_step (hfits : record.link.Fits Record.length record.length)
    (h : record.step settings mode offset = .enter child inner) : inner ≤ child.length := by
  unfold step at h
  split at h
  · split at h <;> contradiction
  · next parent start hlink =>
    rw [hlink] at hfits
    split at h
    · next inside hclamp =>
      obtain ⟨rfl, rfl⟩ := Step.enter.inj h
      have hinside := UInt64.le_trans (le_length_of_clamp? hclamp) hfits.2
      rw [UInt64.add_comm]
      exact (slice_bounds_iff.2 ⟨hfits.1, hinside⟩).2
    · contradiction
  · next pieces hlink =>
    rw [hlink] at hfits
    exact inner_le_of_concatStep hfits.2 h
  · next parent mapping hlink =>
    rw [hlink] at hfits
    exact inner_le_of_transformedStep hfits h

/-- What a step hands on from a record and its offset to those that it enters holds at every visit of
a descent. -/
theorem forall_mem_visits {P : Record → Word → Prop}
    (hstep : ∀ record offset child inner, P record offset →
      record.step settings mode offset = .enter child inner → P child inner)
    (record : Record) (offset : Word) (h : P record offset) :
    ∀ visit ∈ (record.descend settings mode offset).visits, P visit.record visit.offset := by
  rw [visits_descend]
  cases hnext : record.step settings mode offset with
  | miss => exact List.forall_mem_singleton.2 h
  | land file place => exact List.forall_mem_singleton.2 h
  | enter child inner =>
    -- by induction on the height: a step enters lower records only
    have hbelow := forall_mem_visits hstep child inner (hstep record offset child inner h hnext)
    exact List.forall_mem_cons.2 ⟨h, hbelow⟩
termination_by record.height
decreasing_by exact height_lt_of_mem_refs (mem_refs_of_step hnext)

theorem Bounded.of_mem_visits (h : record.Bounded) (settings : Settings) (mode : Mode)
    (offset : Word) :
    ∀ visit ∈ (record.descend settings mode offset).visits, visit.record.Bounded :=
  forall_mem_visits (P := fun record _ => record.Bounded)
    (fun _ _ _ _ h hstep => h.of_mem_refs (mem_refs_of_step hstep)) record offset h

theorem Bounded.le_of_mem_visits (h : record.Bounded) (hoffset : offset ≤ record.length) :
    ∀ visit ∈ (record.descend settings mode offset).visits,
      visit.record.Bounded ∧ visit.offset ≤ visit.record.length :=
  forall_mem_visits (P := fun record offset => record.Bounded ∧ offset ≤ record.length)
    (fun _ _ _ _ h hstep => ⟨h.1.of_mem_refs (mem_refs_of_step hstep),
      inner_le_of_step h.1.arises.fits hstep⟩) record offset ⟨h, hoffset⟩

theorem Bounded.le_of_mem_tail_visits (h : record.Bounded) (settings : Settings) (mode : Mode)
    (offset : Word) :
    ∀ visit ∈ (record.descend settings mode offset).visits.tail,
      visit.offset ≤ visit.record.length := by
  rw [visits_descend, List.tail_cons]
  cases hstep : record.step settings mode offset with
  | miss => simp
  | land file place => simp
  | enter child inner =>
    have hchild := h.of_mem_refs (mem_refs_of_step hstep)
    have hinner := inner_le_of_step h.arises.fits hstep
    exact fun visit hvisit => (hchild.le_of_mem_visits hinner visit hvisit).2

theorem lines_resolve (registry : Registry) (settings : Settings) (mode : Mode) (record : Record)
    (offset : Word) :
    (record.resolve registry settings mode offset).lines =
      if settings.trace then (record.descend settings mode offset).lines else [] := by
  unfold resolve
  cases settings.trace
  · rfl
  · exact List.append_nil _

/-- A descent from any offset of a bounded record, in either mode. Each visit below the first is at an
offset up to the length of the record visited, which no clamp changes. At every visit, the first
included, the step is the one with checked arithmetic: nothing on the way wraps. The reported lines are
those of these visits. -/
theorem descend_inside (h : record.Bounded) (registry : Registry) (settings : Settings) (mode : Mode)
    (offset : Word) :
    ∃ below, (record.descend settings mode offset).visits = ⟨record, offset⟩ :: below ∧
      (∀ visit ∈ below, visit.offset ≤ visit.record.length ∧
        ∀ mode', visit.record.clamp? mode' visit.offset = some visit.offset) ∧
      (∀ visit ∈ (⟨record, offset⟩ :: below : List Visit),
        Checked.step settings mode visit.record visit.offset =
          some (visit.record.step settings mode visit.offset)) ∧
      (record.resolve registry settings mode offset).lines =
        if settings.trace then (⟨record, offset⟩ :: below : List Visit).mapIdx Visit.line else [] := by
  obtain ⟨below, hvisits⟩ : ∃ below,
      (record.descend settings mode offset).visits = ⟨record, offset⟩ :: below :=
    ⟨_, visits_descend settings mode record offset⟩
  have hinside := h.le_of_mem_tail_visits settings mode offset
  have hbounded := h.of_mem_visits settings mode offset
  have hlines := lines_resolve registry settings mode record offset
  rw [hvisits, List.tail_cons] at hinside
  rw [hvisits] at hbounded
  rw [Descent.lines, hvisits] at hlines
  refine ⟨below, hvisits, fun visit hvisit => ?_, fun visit hvisit => ?_, hlines⟩
  · have hle := hinside visit hvisit
    exact ⟨hle, fun mode' => clamp?_of_le mode' visit.record hle⟩
  · exact (hbounded visit hvisit).checked_step settings mode visit.offset

end Record

/-! A slice of a text that came back at half its length and was joined with the start of the whole. -/

namespace Quoted

def pool : Pool := #[
  Entry.ofLink ⟨⟨0, 0, 0⟩, ⟨8589934592, 0, 8589934592⟩⟩ (.leaf ⟨0⟩),
  Entry.ofLink (Range.ofLength 4294967296) (.transformed 0 [Halved.entry]),
  Entry.ofLink (Range.ofLength 4294967303) (.concat [⟨1, 0, 4294967296⟩, ⟨0, 4294967296, 7⟩]),
  Entry.ofLink (Range.ofLength 2147483648) (.substring 2 1)]

def pieces : List (Piece Record) :=
  [⟨Halved.text, 0, 4294967296⟩, ⟨Halved.whole, 4294967296, 7⟩]

def joined : Record := .mk ⟨2⟩ (Range.ofLength 4294967303) (.concat pieces)

def excerpt : Record := .mk ⟨3⟩ (Range.ofLength 2147483648) (.substring joined 1)

theorem decode_pool :
    pool.decode none ⟨0⟩ = .ok (#[Halved.whole, Halved.text, joined, excerpt], ⟨4⟩) := rfl

theorem bounded_excerpt : excerpt.Bounded := by
  have harises : ∀ record ∈ [Halved.whole, Halved.text, joined, excerpt], record.Arises :=
    fun record => .rebuilt decode_pool
  have hwhole : Halved.whole.Bounded :=
    .of_refs (harises _ (by simp)) (by decide) (fun _ hlink => nomatch hlink)
      (fun _ hchild => nomatch hchild)
  have htext : Halved.text.Bounded :=
    .of_refs (harises _ (by simp)) (by decide) (fun _ hlink => nomatch hlink)
      (List.forall_mem_singleton.2 hwhole)
  have hjoined : joined.Bounded := by
    refine .of_refs (harises _ (by simp)) (by decide) (fun other hlink => ?_)
      (List.forall_mem_cons.2 ⟨htext, List.forall_mem_singleton.2 hwhole⟩)
    obtain rfl : pieces = other := Link.concat.inj hlink
    decide
  exact .of_refs (harises _ (by simp)) (by decide) (fun _ hlink => nomatch hlink)
    (List.forall_mem_singleton.2 hjoined)

theorem visits_excerpt :
    (excerpt.descend { trace := true } .closest 18446744073709551615).visits =
      [⟨excerpt, 18446744073709551615⟩, ⟨joined, 2147483649⟩, ⟨Halved.text, 2147483649⟩,
        ⟨Halved.whole, 2⟩] := by
  have hexcerpt : Record.GoesOn { trace := true } .closest excerpt 18446744073709551615 joined
      2147483649 := Record.goesOn_of_step rfl
  have hjoined : Record.GoesOn { trace := true } .closest joined 2147483649 Halved.text
      2147483649 := Record.goesOn_of_step rfl
  have htext : Record.GoesOn { trace := true } .closest Halved.text 2147483649 Halved.whole 2 :=
    Record.goesOn_of_covers (Halved.arises_text.mapping_ordered rfl) rfl
      (List.mem_singleton_self Halved.entry) (by decide) _ _
  rw [hexcerpt.visits_eq, hjoined.visits_eq, htext.visits_eq, Record.visits_descend]
  rfl

end Quoted

theorem Record.descend_inside_quoted :
    Quoted.excerpt.Bounded ∧ ¬ Halved.entry.Exact 2147483649 ∧
      2147483649 ≤ Quoted.joined.length ∧ 2147483649 ≤ Halved.text.length ∧
      2 ≤ Halved.whole.length ∧
      Checked.step { trace := true } .closest Quoted.excerpt 18446744073709551615 =
        some (.enter Quoted.joined 2147483649) ∧
      (Quoted.excerpt.resolve Registry.empty { trace := true } .closest
          18446744073709551615).lines =
        [ascii "[lineage] resolve substring local=18446744073709551615",
          ascii "[lineage]   resolve concat local=2147483649",
          ascii "[lineage]     resolve transformed local=2147483649",
          ascii "[lineage]       resolve original local=2"] := by
  obtain ⟨below, hvisits, hinside, hchecked, hlines⟩ := Record.descend_inside Quoted.bounded_excerpt
    Registry.empty { trace := true } .closest 18446744073709551615
  obtain rfl := (List.cons.inj (Quoted.visits_excerpt.symm.trans hvisits)).2
  have hexact : ¬ Halved.entry.Exact 2147483649 := by
    simp only [MapEntry.Exact]
    decide
  exact ⟨Quoted.bounded_excerpt, hexact, (hinside ⟨Quoted.joined, _⟩ (by simp)).1,
    (hinside ⟨Halved.text, _⟩ (by simp)).1, (hinside ⟨Halved.whole, _⟩ (by simp)).1,
    hchecked ⟨Quoted.excerpt, _⟩ (by simp), hlines.trans (by decide +kernel)⟩

end TextOrigin

import TextOrigin.Proofs.Record.Arising
import TextOrigin.Proofs.Record.Descent

/-!
Where an offset of a transformed text goes on. Entries that break no rule are in order, so no two of
them cover one offset, and the entry at which a search by halving stops covers the offset if any entry
does. An offset that no entry covers lies between the last entry that ended by then and the first one
that starts later. Every other entry on either side is further away, so the choice between these two
is a choice among all entries. Main statement: `transformed_lookup`.
-/

namespace TextOrigin

namespace MapEntry

theorem covers_iff {entry : MapEntry} {offset : Word} :
    entry.covers offset = true ↔ entry.toStart ≤ offset ∧ offset < entry.toStop := by
  rw [covers, Bool.and_eq_true, decide_eq_true_eq, decide_eq_true_eq]

/-- How far an offset that the entry does not cover is from it in the transformed text: from its end,
if it ended by then, and else from its start. -/
def distance (entry : MapEntry) (offset : Word) : Nat :=
  if entry.toStop ≤ offset then offset.toNat - entry.toStop.toNat
  else entry.toStart.toNat - offset.toNat

/-- The source offset at the side of the entry that faces the offset. -/
def boundary (entry : MapEntry) (offset : Word) : Word :=
  if entry.toStop ≤ offset then entry.fromStop else entry.fromStart

theorem distance_of_ended {entry : MapEntry} {offset : Word} (h : entry.toStop ≤ offset) :
    entry.distance offset = offset.toNat - entry.toStop.toNat :=
  if_pos h

theorem boundary_of_ended {entry : MapEntry} {offset : Word} (h : entry.toStop ≤ offset) :
    entry.boundary offset = entry.fromStop :=
  if_pos h

theorem not_ended {entry : MapEntry} {offset : Word} (hle : entry.toStart ≤ entry.toStop)
    (h : offset < entry.toStart) : ¬ entry.toStop ≤ offset :=
  UInt64.not_le.2 (UInt64.lt_of_lt_of_le h hle)

theorem distance_of_ahead {entry : MapEntry} {offset : Word} (hle : entry.toStart ≤ entry.toStop)
    (h : offset < entry.toStart) :
    entry.distance offset = entry.toStart.toNat - offset.toNat :=
  if_neg (not_ended hle h)

theorem boundary_of_ahead {entry : MapEntry} {offset : Word} (hle : entry.toStart ≤ entry.toStop)
    (h : offset < entry.toStart) : entry.boundary offset = entry.fromStart :=
  if_neg (not_ended hle h)

theorem sub_lt_sub_iff {previous next : MapEntry} {offset : Word} (hended : previous.toStop ≤ offset)
    (hle : next.toStart ≤ next.toStop) (hahead : offset < next.toStart) :
    offset - previous.toStop < next.toStart - offset ↔
      previous.distance offset < next.distance offset := by
  rw [distance_of_ended hended, distance_of_ahead hle hahead, UInt64.lt_iff_toNat_lt,
    UInt64.toNat_sub_of_le _ _ hended, UInt64.toNat_sub_of_le _ _ (UInt64.le_of_lt hahead)]

theorem ended_of_not_covers {entry : MapEntry} {offset : Word} (hstart : entry.toStart ≤ offset)
    (h : entry.covers offset = false) : entry.toStop ≤ offset := by
  refine UInt64.not_lt.1 fun hlt => ?_
  rw [covers_iff.2 ⟨hstart, hlt⟩] at h
  contradiction

end MapEntry

namespace Mapping

/-- The entry at an index is the nearest one to an offset that no entry covers. Among entries as
near as it, one that starts later wins over one that ended before, the first of those that start
later wins, and the last of those that ended. -/
structure Nearest (mapping : Mapping) (offset : Word) (i : Nat) (entry : MapEntry) : Prop where
  getElem?_eq : mapping[i]? = some entry
  least : ∀ other ∈ mapping, entry.distance offset ≤ other.distance offset
  ahead : ∀ other ∈ mapping, other.distance offset = entry.distance offset →
    offset < other.toStart → offset < entry.toStart
  first : ∀ j other, mapping[j]? = some other → other.distance offset = entry.distance offset →
    offset < entry.toStart → offset < other.toStart → i ≤ j
  last : ∀ j other, mapping[j]? = some other → other.distance offset = entry.distance offset →
    entry.toStop ≤ offset → other.toStop ≤ offset → j ≤ i

/-- Entries that end, without being inverted, by where the next one starts. -/
structure Ordered (mapping : Mapping) : Prop where
  to_le : ∀ entry ∈ mapping, entry.toStart ≤ entry.toStop
  pairwise : mapping.Pairwise fun entry next => entry.toStop ≤ next.toStart

theorem le_of_faultFrom? {sourceLength targetLength previous : Word} {index : Nat}
    {mapping : Mapping} (h : mapping.faultFrom? sourceLength targetLength previous index = none) :
    (∀ entry ∈ mapping, previous ≤ entry.toStart) ∧
      mapping.Pairwise fun entry next => entry.toStop ≤ next.toStart := by
  induction mapping generalizing previous index with
  | nil => exact ⟨by simp, List.Pairwise.nil⟩
  | cons entry rest ih =>
    rw [faultFrom?] at h
    split at h
    · contradiction
    · next hfault =>
      obtain ⟨hwithin, hprevious⟩ := MapEntry.fault?_eq_none_iff.1 hfault
      obtain ⟨hstart, hpairwise⟩ := ih h
      refine ⟨List.forall_mem_cons.2 ⟨hprevious, fun later hlater => ?_⟩,
        List.Pairwise.cons hstart hpairwise⟩
      exact UInt64.le_trans hprevious (UInt64.le_trans hwithin.to_le (hstart later hlater))

theorem ordered_of_firstFault? {sourceLength targetLength : Word} {mapping : Mapping}
    (h : mapping.firstFault? sourceLength targetLength = none) : mapping.Ordered where
  to_le entry hentry := (within_of_faultFrom? h entry hentry).to_le
  pairwise := (le_of_faultFrom? h).2

theorem around_append {before after : Mapping} {offset : Word}
    (hbefore : ∀ entry ∈ before, entry.toStart ≤ offset)
    (hafter : ∀ entry ∈ after, offset < entry.toStart) :
    around (before ++ after) offset = (before.getLast?, after.head?) := by
  have hcount := partitionPoint_append (fun entry : MapEntry => decide (entry.toStart ≤ offset))
    before after (fun entry hentry => decide_eq_true (hbefore entry hentry))
    (fun entry hentry => decide_eq_false (UInt64.not_le.2 (hafter entry hentry)))
  have hnext : (before ++ after)[before.length]? = after.head? := by
    rw [List.getElem?_append_right (Nat.le_refl _), Nat.sub_self, List.head?_eq_getElem?]
  rw [around, hcount, hnext]
  refine congrArg (·, after.head?) ?_
  rcases List.eq_nil_or_concat before with rfl | ⟨init, last, rfl⟩
  · rfl
  · simp

namespace Ordered

variable {mapping before after : Mapping} {entry : MapEntry} {offset : Word}

theorem sides (h : Ordered (before ++ entry :: after)) :
    (∀ other ∈ before, other.toStart ≤ other.toStop ∧ other.toStop ≤ entry.toStart) ∧
      entry.toStart ≤ entry.toStop ∧
      ∀ other ∈ after, entry.toStop ≤ other.toStart ∧ other.toStart ≤ other.toStop := by
  obtain ⟨-, hfrom, hbefore⟩ := List.pairwise_append.1 h.pairwise
  exact ⟨fun other hother => ⟨h.to_le other (by simp [hother]),
      hbefore other hother entry List.mem_cons_self⟩,
    h.to_le entry (by simp),
    fun other hother => ⟨List.rel_of_pairwise_cons hfrom hother, h.to_le other (by simp [hother])⟩⟩

theorem carry?_of_covers (h : mapping.Ordered) (hentry : entry ∈ mapping)
    (hcovers : entry.covers offset = true) :
    mapping.carry? offset = some (entry.interpolate offset) := by
  obtain ⟨before, after, rfl⟩ := List.append_of_mem hentry
  obtain ⟨hbefore, -, hafter⟩ := h.sides
  obtain ⟨hstart, hstop⟩ := MapEntry.covers_iff.1 hcovers
  have haround : around ((before ++ [entry]) ++ after) offset =
      ((before ++ [entry]).getLast?, after.head?) := by
    refine around_append (fun other hother => ?_)
      (fun other hother => UInt64.lt_of_lt_of_le hstop (hafter other hother).1)
    rcases List.mem_append.1 hother with hother | hother
    · obtain ⟨hle, hnext⟩ := hbefore other hother
      exact UInt64.le_trans hle (UInt64.le_trans hnext hstart)
    · rwa [List.mem_singleton.1 hother]
  rw [List.append_assoc, List.singleton_append, List.getLast?_concat] at haround
  rw [carry?, haround]
  exact if_pos hstop

theorem eq_of_covers (h : mapping.Ordered) {i j : Nat} {first second : MapEntry}
    (hi : mapping[i]? = some first) (hj : mapping[j]? = some second)
    (hfirst : first.covers offset = true) (hsecond : second.covers offset = true) : i = j := by
  refine eq_of_pairwise_not (P := fun entry => entry.covers offset = true) h.pairwise
    (fun entry next hle hentry hnext => ?_) hi hj hfirst hsecond
  have hstop := UInt64.le_trans hle (MapEntry.covers_iff.1 hnext).1
  exact UInt64.not_lt.2 hstop (MapEntry.covers_iff.1 hentry).2

theorem exists_split (h : mapping.Ordered) (offset : Word) :
    ∃ before after, mapping = before ++ after ∧ (∀ entry ∈ before, entry.toStart ≤ offset) ∧
      ∀ entry ∈ after, offset < entry.toStart := by
  have hcut : mapping.Pairwise fun entry next =>
      decide (next.toStart ≤ offset) = true → decide (entry.toStart ≤ offset) = true := by
    refine h.pairwise.imp_of_mem fun {entry next} hentry _ hle hnext => decide_eq_true ?_
    exact UInt64.le_trans (UInt64.le_trans (h.to_le entry hentry) hle) (of_decide_eq_true hnext)
  obtain ⟨before, after, hmapping, hbefore, hafter⟩ := exists_cut hcut
  exact ⟨before, after, hmapping, fun entry hentry => of_decide_eq_true (hbefore entry hentry),
    fun entry hentry => UInt64.not_le.1 (of_decide_eq_false (hafter entry hentry))⟩

theorem of_around_fst (h : mapping.Ordered) (hprevious : (mapping.around offset).1 = some entry) :
    entry ∈ mapping ∧ entry.toStart ≤ offset := by
  obtain ⟨before, after, rfl, hbefore, hafter⟩ := h.exists_split offset
  rw [around_append hbefore hafter] at hprevious
  have hentry := List.mem_of_getLast? hprevious
  exact ⟨List.mem_append_left after hentry, hbefore entry hentry⟩

theorem of_around_snd (h : mapping.Ordered) (hnext : (mapping.around offset).2 = some entry) :
    entry ∈ mapping ∧ offset < entry.toStart := by
  obtain ⟨before, after, rfl, hbefore, hafter⟩ := h.exists_split offset
  rw [around_append hbefore hafter] at hnext
  have hentry := List.mem_of_head? hnext
  exact ⟨List.mem_append_right before hentry, hafter entry hentry⟩

theorem distance_last_le (h : Ordered (before ++ entry :: after)) (hended : entry.toStop ≤ offset)
    {other : MapEntry} (hother : other ∈ before) :
    other.toStop ≤ offset ∧ entry.distance offset ≤ other.distance offset := by
  obtain ⟨hbefore, hle, -⟩ := h.sides
  have hstop := UInt64.le_trans (hbefore other hother).2 hle
  have hotherEnded := UInt64.le_trans hstop hended
  refine ⟨hotherEnded, ?_⟩
  rw [MapEntry.distance_of_ended hended, MapEntry.distance_of_ended hotherEnded]
  rw [UInt64.le_iff_toNat_le] at hstop
  omega

theorem distance_first_le (h : Ordered (before ++ entry :: after)) (hahead : offset < entry.toStart)
    {other : MapEntry} (hother : other ∈ after) :
    offset < other.toStart ∧ entry.distance offset ≤ other.distance offset := by
  obtain ⟨-, hle, hafter⟩ := h.sides
  have hstart := UInt64.le_trans hle (hafter other hother).1
  have hotherAhead := UInt64.lt_of_lt_of_le hahead hstart
  refine ⟨hotherAhead, ?_⟩
  rw [MapEntry.distance_of_ahead hle hahead,
    MapEntry.distance_of_ahead (hafter other hother).2 hotherAhead]
  rw [UInt64.le_iff_toNat_le] at hstart
  omega

theorem nearest_last (h : Ordered (before ++ entry :: after)) (hended : entry.toStop ≤ offset)
    (hfar : ∀ other ∈ after,
      offset < other.toStart ∧ entry.distance offset < other.distance offset) :
    Nearest (before ++ entry :: after) offset before.length entry where
  getElem?_eq := by simp
  least other hother := by
    rcases List.mem_append.1 hother with hother | hother
    · exact (h.distance_last_le hended hother).2
    · rcases List.mem_cons.1 hother with rfl | hother
      · exact Nat.le_refl _
      · exact Nat.le_of_lt (hfar other hother).2
  ahead other hother heq hlt := by
    rcases List.mem_append.1 hother with hother | hother
    · have hstop := (h.distance_last_le hended hother).1
      exact absurd hstop (MapEntry.not_ended (h.sides.1 other hother).1 hlt)
    · rcases List.mem_cons.1 hother with rfl | hother
      · exact hlt
      · exact absurd heq (Nat.ne_of_gt (hfar other hother).2)
  first j other hj heq hlt _ := absurd hended (MapEntry.not_ended h.sides.2.1 hlt)
  last j other hj heq _ hstop := by
    refine Nat.le_of_not_lt fun hlt => ?_
    have hother : other ∈ after := by
      rw [← List.singleton_append, ← List.append_assoc, List.getElem?_append_right] at hj
      · exact List.mem_of_getElem? hj
      · rw [List.length_append, List.length_singleton]
        exact hlt
    exact MapEntry.not_ended (h.sides.2.2 other hother).2 (hfar other hother).1 hstop

theorem nearest_first (h : Ordered (before ++ entry :: after)) (hahead : offset < entry.toStart)
    (hfar : ∀ other ∈ before,
      other.toStop ≤ offset ∧ entry.distance offset ≤ other.distance offset) :
    Nearest (before ++ entry :: after) offset before.length entry where
  getElem?_eq := by simp
  least other hother := by
    rcases List.mem_append.1 hother with hother | hother
    · exact (hfar other hother).2
    · rcases List.mem_cons.1 hother with rfl | hother
      · exact Nat.le_refl _
      · exact (h.distance_first_le hahead hother).2
  ahead _ _ _ _ := hahead
  first j other hj heq _ hlt := by
    refine Nat.le_of_not_lt fun hjlt => ?_
    rw [List.getElem?_append_left hjlt] at hj
    have hother := List.mem_of_getElem? hj
    exact MapEntry.not_ended (h.sides.1 other hother).1 hlt (hfar other hother).1
  last j other hj heq hstop _ := absurd hstop (MapEntry.not_ended h.sides.2.1 hahead)

/-- Where no entry covers an offset, the boundary to go on at is that of the nearest entry. -/
theorem exists_nearest (h : mapping.Ordered) (hmapping : mapping ≠ [])
    (hnone : ∀ entry ∈ mapping, entry.covers offset = false) (sourceLength : Word) :
    ∃ i entry, mapping.Nearest offset i entry ∧
      mapping.nearest sourceLength offset = entry.boundary offset := by
  obtain ⟨before, after, rfl, hbefore, hafter⟩ := h.exists_split offset
  have hended : ∀ entry ∈ before, entry.toStop ≤ offset := fun entry hentry =>
    MapEntry.ended_of_not_covers (hbefore entry hentry)
      (hnone entry (List.mem_append_left after hentry))
  rw [nearest, around_append hbefore hafter]
  cases hprevious : before.getLast? with
  | none =>
    obtain rfl := List.getLast?_eq_none_iff.1 hprevious
    cases after with
    | nil => exact absurd rfl hmapping
    | cons next rest =>
      have hahead := hafter next List.mem_cons_self
      refine ⟨_, next, h.nearest_first hahead (by simp), ?_⟩
      exact (MapEntry.boundary_of_ahead h.sides.2.1 hahead).symm
  | some previous =>
    obtain ⟨init, rfl⟩ := List.getLast?_eq_some_iff.1 hprevious
    have hstop : previous.toStop ≤ offset := hended previous (by simp)
    have hlast : Ordered (init ++ previous :: after) := by simpa using h
    cases after with
    | nil =>
      rw [List.append_assoc, List.singleton_append]
      refine ⟨_, previous, hlast.nearest_last hstop (by simp), ?_⟩
      exact (MapEntry.boundary_of_ended hstop).symm
    | cons next rest =>
      have hahead := hafter next List.mem_cons_self
      have hle := h.sides.2.1
      dsimp only [List.head?_cons]
      split
      · next hcloser =>
        rw [MapEntry.sub_lt_sub_iff hstop hle hahead] at hcloser
        rw [List.append_assoc, List.singleton_append]
        refine ⟨_, previous, hlast.nearest_last hstop (List.forall_mem_cons.2
          ⟨⟨hahead, hcloser⟩, fun other hother => ?_⟩), (MapEntry.boundary_of_ended hstop).symm⟩
        obtain ⟨hotherAhead, hfar⟩ := h.distance_first_le hahead hother
        exact ⟨hotherAhead, Nat.lt_of_lt_of_le hcloser hfar⟩
      · next hcloser =>
        rw [MapEntry.sub_lt_sub_iff hstop hle hahead, Nat.not_lt] at hcloser
        refine ⟨_, next, h.nearest_first hahead fun other hother => ?_,
          (MapEntry.boundary_of_ahead hle hahead).symm⟩
        rcases List.mem_append.1 hother with hother | hother
        · obtain ⟨hotherEnded, hfar⟩ := hlast.distance_last_le hstop hother
          exact ⟨hotherEnded, Nat.le_trans hcloser hfar⟩
        · rw [List.mem_singleton.1 hother]
          exact ⟨hstop, hcloser⟩

end Ordered

theorem Nearest.unique {mapping : Mapping} {offset : Word}
    (hnone : ∀ entry ∈ mapping, entry.covers offset = false) {i j : Nat} {first second : MapEntry}
    (hfirst : mapping.Nearest offset i first) (hsecond : mapping.Nearest offset j second) :
    i = j := by
  have hi := List.mem_of_getElem? hfirst.getElem?_eq
  have hj := List.mem_of_getElem? hsecond.getElem?_eq
  have heq := Nat.le_antisymm (hfirst.least second hj) (hsecond.least first hi)
  by_cases hahead : offset < first.toStart
  · have hahead' := hsecond.ahead first hi heq hahead
    exact Nat.le_antisymm (hfirst.first j second hsecond.getElem?_eq heq.symm hahead hahead')
      (hsecond.first i first hfirst.getElem?_eq heq hahead' hahead)
  · have hstop := MapEntry.ended_of_not_covers (UInt64.not_lt.1 hahead) (hnone first hi)
    have hahead' : ¬ offset < second.toStart := fun hlt =>
      hahead (hfirst.ahead second hj heq.symm hlt)
    have hstop' := MapEntry.ended_of_not_covers (UInt64.not_lt.1 hahead') (hnone second hj)
    exact Nat.le_antisymm (hsecond.last i first hfirst.getElem?_eq heq hstop' hstop)
      (hfirst.last j second hsecond.getElem?_eq heq.symm hstop hstop')

theorem stop_le_of_carry?_eq_none {mapping : Mapping} {offset : Word} {entry : MapEntry}
    (hnone : mapping.carry? offset = none)
    (hprevious : (mapping.around offset).1 = some entry) : entry.toStop ≤ offset := by
  refine UInt64.not_lt.1 fun hlt => ?_
  simp [carry?, hprevious, hlt] at hnone

theorem carry?_eq_none {mapping : Mapping} {offset : Word}
    (hnone : ∀ entry ∈ mapping, entry.covers offset = false) : mapping.carry? offset = none := by
  refine Option.eq_none_iff_forall_ne_some.2 fun inner hcarry => ?_
  obtain ⟨entry, hentry, hcovers, -⟩ := covers_of_carry? hcarry
  rw [hnone entry hentry] at hcovers
  contradiction

end Mapping

namespace Record

/-- An offset of a record goes on at an offset of a record that it refers to: the descent visits
the record and then all that it visits from there, and the offset resolves to what the other one
resolves to. -/
structure GoesOn (settings : Settings) (mode : Mode) (record : Record) (offset : Word)
    (child : Record) (inner : Word) : Prop where
  visits_eq : (record.descend settings mode offset).visits =
    ⟨record, offset⟩ :: (child.descend settings mode inner).visits
  value_eq : ∀ registry, (record.resolve registry settings mode offset).value =
    (child.resolve registry settings mode inner).value

theorem goesOn_of_step {settings : Settings} {mode : Mode} {record child : Record}
    {offset inner : Word} (h : record.step settings mode offset = .enter child inner) :
    GoesOn settings mode record offset child inner where
  visits_eq := by rw [visits_descend, h]
  value_eq registry := by rw [value_resolve, landing_descend, h, value_resolve]

structure Misses (settings : Settings) (mode : Mode) (record : Record) (offset : Word) :
    Prop where
  visits_eq : (record.descend settings mode offset).visits = [⟨record, offset⟩]
  value_eq : ∀ registry, (record.resolve registry settings mode offset).value = none

theorem misses_of_step {settings : Settings} {mode : Mode} {record : Record} {offset : Word}
    (h : record.step settings mode offset = .miss) : Misses settings mode record offset where
  visits_eq := by rw [visits_descend, h]
  value_eq registry := by
    rw [value_resolve, landing_descend, h]
    rfl

theorem step_of_link_transformed {record parent : Record} {mapping : Mapping}
    (hlink : record.link = .transformed parent mapping) (settings : Settings) (mode : Mode)
    (offset : Word) :
    record.step settings mode offset = transformedStep mode parent mapping offset := by
  simp only [step, hlink]

theorem Arises.mapping_ordered {record parent : Record} {mapping : Mapping} (h : record.Arises)
    (hlink : record.link = .transformed parent mapping) : mapping.Ordered := by
  have hfits := h.fits
  rw [hlink] at hfits
  exact Mapping.ordered_of_firstFault? hfits

theorem goesOn_of_covers {record parent : Record} {mapping : Mapping} (hordered : mapping.Ordered)
    (hlink : record.link = .transformed parent mapping) {entry : MapEntry}
    (hentry : entry ∈ mapping) {offset : Word} (hcovers : entry.covers offset = true)
    (settings : Settings) (mode : Mode) :
    GoesOn settings mode record offset parent (entry.interpolate offset) := by
  refine goesOn_of_step ?_
  simp only [step_of_link_transformed hlink, transformedStep,
    hordered.carry?_of_covers hentry hcovers]

/-- No two entries of a transformed record cover one offset. An offset that an entry covers goes on
in the parent at the place that the entry gives, in either mode. Any other offset is a strict miss,
and a closest resolution goes on at the side of the entry that is nearest among all. -/
theorem transformed_lookup {record parent : Record} {mapping : Mapping} (h : record.Arises)
    (hlink : record.link = .transformed parent mapping) (hmapping : mapping ≠ [])
    (settings : Settings) (offset : Word) :
    (∀ (i j : Nat) (first second : MapEntry), mapping[i]? = some first →
        mapping[j]? = some second → first.covers offset = true → second.covers offset = true →
        i = j) ∧
      (∀ entry ∈ mapping, entry.covers offset = true →
        ∀ mode, GoesOn settings mode record offset parent (entry.interpolate offset)) ∧
      ((∀ entry ∈ mapping, entry.covers offset = false) →
        Misses settings .strict record offset ∧
          ∃ i entry, mapping.Nearest offset i entry ∧
            (∀ j other, mapping.Nearest offset j other → j = i) ∧
            GoesOn settings .closest record offset parent (entry.boundary offset)) := by
  have hordered := h.mapping_ordered hlink
  have hstep := step_of_link_transformed hlink settings
  refine ⟨fun i j first second hi hj => hordered.eq_of_covers hi hj,
    fun entry hentry hcovers => goesOn_of_covers hordered hlink hentry hcovers settings,
    fun hnone => ⟨misses_of_step ?_, ?_⟩⟩
  · simp only [hstep, transformedStep, Mapping.carry?_eq_none hnone]
  · obtain ⟨i, entry, hnearest, hboundary⟩ := hordered.exists_nearest hmapping hnone parent.length
    refine ⟨i, entry, hnearest, fun j other hother => hother.unique hnone hnearest,
      goesOn_of_step ?_⟩
    simp only [hstep, transformedStep, Mapping.carry?_eq_none hnone, hboundary]

end Record

/-! Entries without a width, where one entry ends and another one starts. -/

namespace Notched

def line : Record := Record.leaf ⟨0⟩ ⟨0⟩ ⟨⟨0, 0, 0⟩, ⟨9, 0, 9⟩⟩

def mapping : Mapping := [⟨0, 2, 1, 3⟩, ⟨2, 3, 3, 3⟩, ⟨5, 6, 7, 7⟩, ⟨6, 9, 7, 10⟩]

def text : Record := .mk ⟨1⟩ (Range.ofLength 12) (.transformed line mapping)

theorem arises_text : text.Arises := by
  have hnone : ∀ other ∈ ([] : List Record), other.Arises := by simp
  have hbuilt : line.transformed ⟨1⟩ mapping 12 = .ok text := rfl
  exact .built (List.forall_mem_singleton.2 (.built hnone (.leaf _ _)))
    (.transformed (List.mem_singleton_self line) hbuilt)

end Notched

theorem Record.transformed_lookup_notched :
    Notched.text.Arises ∧ Notched.mapping ≠ [] ∧
      Record.GoesOn {} .strict Notched.text 8 Notched.line 7 ∧
      Record.Misses {} .strict Notched.text 5 ∧
      Notched.mapping.Nearest 5 2 ⟨5, 6, 7, 7⟩ ∧
      Record.GoesOn {} .closest Notched.text 5 Notched.line 5 := by
  have hmapping : Notched.mapping ≠ [] := by simp [Notched.mapping]
  have hnone : ∀ entry ∈ Notched.mapping, entry.covers 5 = false := by
    simp [Notched.mapping, MapEntry.covers]
  have hlookup := Record.transformed_lookup Notched.arises_text rfl hmapping {}
  obtain ⟨hmiss, i, entry, hnearest, -, hgoes⟩ := (hlookup 5).2.2 hnone
  have hentry := hnearest.getElem?_eq
  have hahead := hnearest.ahead ⟨5, 6, 7, 7⟩ (by simp [Notched.mapping])
  rcases i with _ | _ | _ | _ | i
  · obtain rfl := Option.some.inj hentry
    exact absurd (hahead (by decide) (by decide)) (by decide)
  · obtain rfl := Option.some.inj hentry
    exact absurd (hahead (by decide) (by decide)) (by decide)
  · obtain rfl := Option.some.inj hentry
    exact ⟨Notched.arises_text, hmapping,
      (hlookup 8).2.1 ⟨6, 9, 7, 10⟩ (by simp [Notched.mapping]) (by decide) .strict, hmiss,
      hnearest, hgoes⟩
  · obtain rfl := Option.some.inj hentry
    exact absurd (hnearest.first 2 ⟨5, 6, 7, 7⟩ rfl (by decide) (by decide) (by decide)) (by decide)
  · simp [Notched.mapping] at hentry

end TextOrigin

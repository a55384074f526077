import TextOrigin.Proofs.Alignment.Minimal

/-!
The searches of an alignment. An alignment searches what lies between the common ends of its texts.
Where that is cut, both parts are aligned and searched in turn. Texts that differ at both ends are
at least two edits apart, so every one of these searches keeps to its frontiers and its texts, and
the parts that it leaves are smaller than what it searched. Hence no alignment ends in a fault.
-/

namespace TextOrigin

/-- `Searches limit first second limit' first' second'` says that aligning `first` and `second`
under `limit` takes a search of `first'` and `second'` under `limit'`. -/
inductive Alignment.Searches : Word → Bytes → Bytes → Word → Bytes → Bytes → Prop
  | middle {limit : Word} {first second : Bytes}
      (hfirst : (CommonEnds.ofTexts first second).middle first ≠ [])
      (hsecond : (CommonEnds.ofTexts first second).middle second ≠ []) :
      Searches limit first second limit ((CommonEnds.ofTexts first second).middle first)
        ((CommonEnds.ofTexts first second).middle second)
  | left {limit limit' : Word} {first second first' second' : Bytes}
      {point : Cut _ _}
      (hfirst : (CommonEnds.ofTexts first second).middle first ≠ [])
      (hsecond : (CommonEnds.ofTexts first second).middle second ≠ [])
      (hcut : (EditGrid.ofTexts ((CommonEnds.ofTexts first second).middle first)
        ((CommonEnds.ofTexts first second).middle second)).search limit = .ok (.cut point))
      (h : Searches 0 (((CommonEnds.ofTexts first second).middle first).take point.x)
        (((CommonEnds.ofTexts first second).middle second).take point.y) limit' first' second') :
      Searches limit first second limit' first' second'
  | right {limit limit' : Word} {first second first' second' : Bytes}
      {point : Cut _ _}
      (hfirst : (CommonEnds.ofTexts first second).middle first ≠ [])
      (hsecond : (CommonEnds.ofTexts first second).middle second ≠ [])
      (hcut : (EditGrid.ofTexts ((CommonEnds.ofTexts first second).middle first)
        ((CommonEnds.ofTexts first second).middle second)).search limit = .ok (.cut point))
      (h : Searches 0 (((CommonEnds.ofTexts first second).middle first).drop point.x)
        (((CommonEnds.ofTexts first second).middle second).drop point.y) limit' first' second') :
      Searches limit first second limit' first' second'

namespace Alignment

section

variable {limit limit' : Word} {first second first' second' : Bytes}

theorem Searches.ne_nil (h : Searches limit first second limit' first' second') :
    first' ≠ [] ∧ second' ≠ [] := by
  induction h with
  | middle hfirst hsecond => exact ⟨hfirst, hsecond⟩
  | left _ _ _ _ ih => exact ih
  | right _ _ _ _ ih => exact ih

theorem Searches.two_le_editDistance (h : Searches limit first second limit' first' second') :
    2 ≤ editDistance first' second' := by
  induction h with
  | middle hfirst hsecond => exact CommonEnds.two_le_editDistance_middle hfirst hsecond
  | left _ _ _ _ ih => exact ih
  | right _ _ _ _ ih => exact ih

end

theorem exists_ofParts_of_searches {limit : Word} {first second : Bytes} (i j : Nat)
    (h : ∀ limit' first' second', Searches limit first second limit' first' second' →
      ∃ meeting, (EditGrid.ofTexts first' second').search limit' = .ok meeting) :
    ∃ alignment, ofParts limit i j first second = .ok alignment := by
  by_cases hnil : (CommonEnds.ofTexts first second).middle first = [] ∨
      (CommonEnds.ofTexts first second).middle second = []
  · exact ⟨_, ofParts_of_nil i j hnil⟩
  · obtain ⟨hfirst, hsecond⟩ := not_or.1 hnil
    obtain ⟨meeting, hsearch⟩ := h _ _ _ (.middle hfirst hsecond)
    cases meeting with
    | apart => exact ⟨_, ofParts_of_apart i j hnil hsearch⟩
    | overLimit => exact ⟨_, ofParts_of_overLimit i j hnil hsearch⟩
    | cut point =>
      obtain ⟨left, hleft⟩ := exists_ofParts_of_searches
        (i + (CommonEnds.ofTexts first second).before)
        (j + (CommonEnds.ofTexts first second).before)
        fun _ _ _ hpart => h _ _ _ (.left hfirst hsecond hsearch hpart)
      obtain ⟨right, hright⟩ := exists_ofParts_of_searches
        (i + (CommonEnds.ofTexts first second).before + point.x)
        (j + (CommonEnds.ofTexts first second).before + point.y)
        fun _ _ _ hpart => h _ _ _ (.right hfirst hsecond hsearch hpart)
      exact ⟨_, ofParts_of_cut i j hnil hsearch hleft hright⟩
termination_by first.length + second.length
decreasing_by
  · exact (CommonEnds.length_middle_parts_lt point).1
  · exact (CommonEnds.length_middle_parts_lt point).2

theorem exists_ofParts_eq_ok (limit : Word) (i j : Nat) (first second : Bytes) :
    ∃ alignment, ofParts limit i j first second = .ok alignment :=
  exists_ofParts_of_searches i j fun _ _ _ hsearches =>
    EditGrid.exists_search_eq_ok hsearches.two_le_editDistance _

end Alignment

/-- A point inside the grid of two texts, and at neither of the two corners where one part would be
both texts again. -/
structure Cut.Divides {width depth : Nat} (point : Cut width depth) (first second : Bytes) :
    Prop where
  x_le : point.x ≤ first.length
  y_le : point.y ≤ second.length
  ne_start : (point.x, point.y) ≠ (0, 0)
  ne_stop : (point.x, point.y) ≠ (first.length, second.length)
  before_lt : (first.take point.x).length + (second.take point.y).length <
    first.length + second.length
  after_lt : (first.drop point.x).length + (second.drop point.y).length <
    first.length + second.length

theorem EditGrid.divides {first second : Bytes}
    (point : Cut (ofTexts first second).first.size (ofTexts first second).second.size) :
    point.Divides first second := by
  have hparts := length_parts_lt point (Nat.le_refl _) (Nat.le_refl _)
  obtain ⟨x, y, hx, hy, hpos, hlt⟩ := point
  simp only [ofTexts, List.size_toArray] at hx hy hlt
  refine ⟨hx, hy, ?_, ?_, hparts.1, hparts.2⟩
  · intro heq
    obtain ⟨rfl, rfl⟩ := Prod.mk.inj heq
    exact Nat.lt_irrefl 0 hpos
  · intro heq
    obtain ⟨rfl, rfl⟩ := Prod.mk.inj heq
    exact Nat.lt_irrefl _ hlt

/-- Under any settings the alignment of two texts ends without a fault. Reading or writing beside a
frontier, reading beside a text, and a cut beside the grid or at one of its corners would be faults.
Each search on the way ends without one as well, and where it cuts, both parts are smaller than what
it searched. -/
theorem commonBlocks_faultless (settings : Settings) (source target : Bytes) :
    (∃ blocks, (commonBlocks settings source target).value = .ok blocks) ∧
      ∀ limit first second,
        Alignment.Searches settings.editLimit source target limit first second →
          first ≠ [] ∧ second ≠ [] ∧
            ∃ meeting, (EditGrid.ofTexts first second).search limit = .ok meeting ∧
              ∀ point, meeting = .cut point → point.Divides first second := by
  constructor
  · obtain ⟨alignment, halign⟩ :=
      Alignment.exists_ofParts_eq_ok settings.editLimit 0 0 source target
    refine ⟨Block.coalesce alignment.blocks, ?_⟩
    rw [value_commonBlocks, halign]
    rfl
  · intro limit first second h
    obtain ⟨meeting, hsearch⟩ := EditGrid.exists_search_eq_ok h.two_le_editDistance limit
    exact ⟨h.ne_nil.1, h.ne_nil.2, meeting, hsearch, fun point _ => EditGrid.divides point⟩

theorem commonBlocks_faultless_second_half :
    Alignment.Searches 5 (ascii "xaybz") (ascii "uavbw") 0 (ascii "bz") (ascii "vbw") ∧
      ∃ meeting, (EditGrid.ofTexts (ascii "bz") (ascii "vbw")).search 0 = .ok meeting ∧
        ∀ point, meeting = .cut point → point.Divides (ascii "bz") (ascii "vbw") := by
  have hsearches : Alignment.Searches 5 (ascii "xaybz") (ascii "uavbw") 0 (ascii "bz")
      (ascii "vbw") := by
    have hcut : (EditGrid.ofTexts (ascii "xaybz") (ascii "uavbw")).search 5 =
        .ok (.cut ⟨3, 2, by decide, by decide, by decide, by decide⟩) := by
      with_unfolding_all rfl
    have hhalf : Alignment.Searches 0 (ascii "bz") (ascii "vbw") 0 (ascii "bz") (ascii "vbw") :=
      .middle (by decide) (by decide)
    exact .right (by decide) (by decide) hcut hhalf
  have hfaultless := (commonBlocks_faultless { editLimit := 5 } (ascii "xaybz") (ascii "uavbw")).2
  exact ⟨hsearches, (hfaultless _ _ _ hsearches).2.2⟩

end TextOrigin

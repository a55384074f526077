import TextOrigin.Proofs.Alignment.Minimal

/-!
The limit on edits. A limit bounds the search through what lies between the common ends of two
texts. If it admits their edit distance it changes nothing, otherwise the common ends are all that
an alignment keeps. It admits every distance up to itself, and an even one that is one more.
-/

namespace TextOrigin

namespace Alignment

theorem ofParts_stopped {limit : Word} {first second : Bytes} (i j : Nat)
    (hlimit : ¬ EditGrid.Admits limit (editDistance first second)) :
    ∃ alignment, ofParts limit i j first second = .ok alignment ∧
      alignment.blocks = (CommonEnds.ofTexts first second).frame i j first second [] := by
  by_cases hnil : (CommonEnds.ofTexts first second).middle first = [] ∨
      (CommonEnds.ofTexts first second).middle second = []
  · exact ⟨_, ofParts_of_nil i j hnil, rfl⟩
  · obtain ⟨hfirst, hsecond⟩ := not_or.1 hnil
    rw [CommonEnds.editDistance_eq] at hlimit
    rcases EditGrid.search_stopped (CommonEnds.two_le_editDistance_middle hfirst hsecond) hlimit
      with hsearch | hsearch
    · exact ⟨_, ofParts_of_overLimit i j hnil hsearch, rfl⟩
    · exact ⟨_, ofParts_of_apart i j hnil hsearch, rfl⟩

end Alignment

/-- The blocks of the common beginning and the common end of two texts, as far as they are not
empty, and merged if they adjoin. -/
def CommonEnds.blocks (source target : Bytes) : List Block :=
  Block.coalesce ((ofTexts source target).frame 0 0 source target [])

/-- Under a limit on edits the blocks are those found without one as long as the edit distance, or
for an even distance the number before it, is within the limit. Beyond that they are the common
ends. -/
theorem commonBlocks_editLimit (settings : Settings) (hlimit : settings.editLimit ≠ 0)
    (source target : Bytes) :
    (commonBlocks settings source target).value =
      if editDistance source target + editDistance source target % 2 ≤
          settings.editLimit.toNat + 1 then
        (commonBlocks { settings with editLimit := 0 } source target).value
      else .ok (CommonEnds.blocks source target) := by
  rw [value_commonBlocks, value_commonBlocks]
  split
  · next hadmits =>
    obtain ⟨alignment, -, halign⟩ := Alignment.ofParts_admitted 0 0 source target
    rw [halign _ (.inr hadmits), halign 0 (.inl rfl)]
  · next hexceeds =>
    obtain ⟨alignment, halign, hblocks⟩ :=
      Alignment.ofParts_stopped 0 0 (not_or.2 ⟨hlimit, hexceeds⟩)
    rw [halign, Except.map, hblocks, CommonEnds.blocks]

theorem commonBlocks_editLimit_replaced :
    editDistance (ascii "a-b-c") (ascii "a+b+c") = 4 ∧
      (commonBlocks { editLimit := 2 } (ascii "a-b-c") (ascii "a+b+c")).value =
        .ok [⟨0, 0, 1⟩, ⟨4, 4, 1⟩] ∧
      (commonBlocks { editLimit := 3 } (ascii "a-b-c") (ascii "a+b+c")).value =
        (commonBlocks {} (ascii "a-b-c") (ascii "a+b+c")).value := by
  have hdistance : editDistance (ascii "a-b-c") (ascii "a+b+c") = 4 := by decide +kernel
  have hends : CommonEnds.blocks (ascii "a-b-c") (ascii "a+b+c") = [⟨0, 0, 1⟩, ⟨4, 4, 1⟩] := by
    decide +kernel
  have hstopped := commonBlocks_editLimit { editLimit := 2 } (by decide)
    (ascii "a-b-c") (ascii "a+b+c")
  have hadmitted := commonBlocks_editLimit { editLimit := 3 } (by decide)
    (ascii "a-b-c") (ascii "a+b+c")
  rw [hdistance] at hstopped hadmitted
  rw [if_neg (by decide), hends] at hstopped
  rw [if_pos (by decide)] at hadmitted
  exact ⟨hdistance, hstopped, hadmitted⟩

/-- Two edits under a limit of one: the shared byte between the ends is found all the same. -/
theorem commonBlocks_over_editLimit :
    editDistance (ascii "ab") (ascii "bc") = 2 ∧ CommonEnds.blocks (ascii "ab") (ascii "bc") = [] ∧
      (commonBlocks { editLimit := 1 } (ascii "ab") (ascii "bc")).value = .ok [⟨1, 0, 1⟩] := by
  refine ⟨by decide +kernel, by decide +kernel, ?_⟩
  with_unfolding_all rfl

end TextOrigin

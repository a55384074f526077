import TextOrigin.Proofs.Alignment.Search
import TextOrigin.Proofs.Alignment.Shared

/-!
Alignments cover as many bytes as a longest common subsequence has. The common ends belong to one,
what lies between them differs at both ends and is therefore at least two edits apart, and cutting
it on a shortest path cuts a longest common subsequence.
-/

namespace TextOrigin

theorem not_matchLength_eq {first second : Bytes} {b : UInt8}
    (hfirst : first[matchLength first second]? = some b) :
    second[matchLength first second]? ≠ some b := by
  fun_induction matchLength first second with
  | case1 c first second ih =>
    rw [List.getElem?_cons_succ] at hfirst ⊢
    exact ih hfirst
  | case2 c first c' second hne =>
    rw [List.getElem?_cons_zero] at hfirst ⊢
    rintro heq
    exact hne ((Option.some.inj hfirst).trans (Option.some.inj heq).symm)
  | case3 first second hcons =>
    cases first with
    | nil => simp at hfirst
    | cons c first =>
      cases second with
      | nil => simp
      | cons c' second => exact absurd rfl (hcons c first c' second rfl)

theorem ne_of_length_eq_matchLength {first second start rest rest' : Bytes} {b c : UInt8}
    (hfirst : start ++ b :: rest = first) (hsecond : start ++ c :: rest' = second)
    (hlength : start.length = matchLength first second) : b ≠ c := by
  have hbyte : first[matchLength first second]? = some b := by
    rw [← hlength, ← hfirst]
    simp
  have hbyte' : second[matchLength first second]? = some c := by
    rw [← hlength, ← hsecond]
    simp
  intro heq
  exact not_matchLength_eq hbyte (by rw [hbyte', heq])

theorem not_sublist_of_ends {first second f s f' s' : Bytes} {b c b' c' : UInt8}
    (hfirst : first = b :: f) (hsecond : second = c :: s) (hne : b ≠ c)
    (hfirst' : first = f' ++ [b']) (hsecond' : second = s' ++ [c']) (hne' : b' ≠ c')
    (hlength : first.length ≤ second.length + 1) : ¬ second.Sublist first := by
  intro hsub
  rw [hfirst, hsecond] at hsub
  rcases List.sublist_cons_iff.1 hsub with hskip | ⟨rest, heq, -⟩
  · have hsame : c :: s = f := hskip.eq_of_length_le (by simp_all)
    rw [← hsecond, hsecond'] at hsame
    rw [hfirst', ← hsame, ← List.cons_append] at hfirst
    exact hne' (List.singleton_inj.1 (List.append_inj' hfirst rfl).2)
  · exact hne (List.cons.inj heq).1.symm

theorem sublist_of_length_le_lcsLength {first second : Bytes}
    (h : second.length ≤ lcsLength first second) : second.Sublist first := by
  obtain ⟨common, hfirst, hsecond, hlength⟩ := exists_sublist_lcsLength first second
  rwa [← hsecond.eq_of_length_le (by omega)]

theorem two_le_editDistance {first second f s f' s' : Bytes} {b c b' c' : UInt8}
    (hfirst : first = b :: f) (hsecond : second = c :: s) (hne : b ≠ c)
    (hfirst' : first = f' ++ [b']) (hsecond' : second = s' ++ [c']) (hne' : b' ≠ c') :
    2 ≤ editDistance first second := by
  have hadd := editDistance_add first second
  refine Decidable.byContradiction fun hlt => ?_
  by_cases hcovers : second.length ≤ lcsLength first second
  · have hle := lcsLength_le_right first second
    exact not_sublist_of_ends hfirst hsecond hne hfirst' hsecond' hne' (by omega)
      (sublist_of_length_le_lcsLength hcovers)
  · have hle := lcsLength_le_left first second
    have hcovers' : first.length ≤ lcsLength second first := by
      rw [lcsLength_comm]
      omega
    exact not_sublist_of_ends hsecond hfirst hne.symm hsecond' hfirst' hne'.symm (by omega)
      (sublist_of_length_le_lcsLength hcovers')

namespace CommonEnds

theorem append_middle {ends : CommonEnds} {text : Bytes}
    (h : ends.before + ends.after ≤ text.length) :
    text.take ends.before ++ (ends.middle text ++ text.drop (text.length - ends.after)) = text := by
  have hdrop : text.drop (text.length - ends.after) =
      (text.drop ends.before).drop (text.length - ends.before - ends.after) := by
    rw [List.drop_drop]
    congr 1
    omega
  rw [hdrop, middle, List.take_append_drop, List.take_append_drop]

theorem exists_append (first second : Bytes) :
    ∃ start stop : Bytes, start.length = (ofTexts first second).before ∧
      stop.length = (ofTexts first second).after ∧
      start ++ ((ofTexts first second).middle first ++ stop) = first ∧
      start ++ ((ofTexts first second).middle second ++ stop) = second := by
  have hends := before_add_after_le first second
  refine ⟨first.take (ofTexts first second).before,
    first.drop (first.length - (ofTexts first second).after), ?_, ?_, ?_, ?_⟩
  · rw [List.length_take]
    omega
  · rw [List.length_drop]
    omega
  · exact append_middle (by omega)
  · rw [take_before_eq, drop_after_eq]
    exact append_middle (by omega)

theorem lcsLength_eq (first second : Bytes) :
    lcsLength first second = (ofTexts first second).before +
      lcsLength ((ofTexts first second).middle first) ((ofTexts first second).middle second) +
      (ofTexts first second).after := by
  obtain ⟨start, stop, hstart, hstop, hfirst, hsecond⟩ := exists_append first second
  have hends := lcsLength_append_left start ((ofTexts first second).middle first ++ stop)
    ((ofTexts first second).middle second ++ stop)
  rw [hfirst, hsecond, lcsLength_append_right, hstart, hstop] at hends
  omega

theorem editDistance_eq (first second : Bytes) :
    editDistance first second = editDistance ((ofTexts first second).middle first)
      ((ofTexts first second).middle second) := by
  obtain ⟨start, stop, hstart, hstop, hfirst, hsecond⟩ := exists_append first second
  have hlcs := lcsLength_eq first second
  have hwhole := editDistance_add first second
  have hmiddle := editDistance_add ((ofTexts first second).middle first)
    ((ofTexts first second).middle second)
  have hlength := congrArg List.length hfirst
  have hlength' := congrArg List.length hsecond
  simp only [List.length_append] at hlength hlength'
  omega

theorem two_le_editDistance_middle {first second : Bytes}
    (hfirst : (ofTexts first second).middle first ≠ [])
    (hsecond : (ofTexts first second).middle second ≠ []) :
    2 ≤ editDistance ((ofTexts first second).middle first)
      ((ofTexts first second).middle second) := by
  obtain ⟨start, stop, hstart, hstop, happend, happend'⟩ := exists_append first second
  obtain ⟨b, f, hhead⟩ := List.exists_cons_of_ne_nil hfirst
  obtain ⟨c, s, hhead'⟩ := List.exists_cons_of_ne_nil hsecond
  obtain ⟨f', b', hlast⟩ := (List.eq_nil_or_concat _).resolve_left hfirst
  obtain ⟨s', c', hlast'⟩ := (List.eq_nil_or_concat _).resolve_left hsecond
  rw [List.concat_eq_append] at hlast hlast'
  have hlength := congrArg List.length happend
  have hlength' := congrArg List.length happend'
  have hpos := List.length_pos_iff.2 hfirst
  have hpos' := List.length_pos_iff.2 hsecond
  simp only [List.length_append] at hlength hlength'
  -- the bound on the common end is not reached, so the end is as long as it can be
  have hafter : stop.reverse.length = matchLength first.reverse second.reverse := by
    have hmin : (ofTexts first second).after = min (matchLength first.reverse second.reverse)
      (min first.length second.length - (ofTexts first second).before) := rfl
    rw [List.length_reverse]
    omega
  refine two_le_editDistance hhead hhead' ?_ hlast hlast' ?_
  · rw [hhead] at happend
    rw [hhead'] at happend'
    exact ne_of_length_eq_matchLength happend happend' hstart
  · have hreverse : stop.reverse ++ b' :: (f'.reverse ++ start.reverse) = first.reverse := by
      rw [← happend, hlast]
      simp
    have hreverse' : stop.reverse ++ c' :: (s'.reverse ++ start.reverse) = second.reverse := by
      rw [← happend', hlast']
      simp
    exact ne_of_length_eq_matchLength hreverse hreverse' hafter

end CommonEnds

theorem CommonEnds.totalLength_frame (ends : CommonEnds) (i j : Nat) (first second : Bytes)
    (inner : List Block) :
    Block.totalLength (ends.frame i j first second inner) =
      ends.before + Block.totalLength inner + ends.after := by
  simp only [frame, Block.totalLength_append, Block.totalLength, Nat.add_zero]

namespace Alignment

section Parts

variable {limit : Word} (i j : Nat) {first second : Bytes}

theorem ofParts_of_nil
    (hnil : (CommonEnds.ofTexts first second).middle first = [] ∨
      (CommonEnds.ofTexts first second).middle second = []) :
    ofParts limit i j first second =
      .ok ⟨(CommonEnds.ofTexts first second).frame i j first second [], false⟩ := by
  rw [ofParts, if_pos hnil]
  rfl

variable (hnil : ¬ ((CommonEnds.ofTexts first second).middle first = [] ∨
  (CommonEnds.ofTexts first second).middle second = []))

include hnil

theorem ofParts_of_apart
    (hsearch : (EditGrid.ofTexts ((CommonEnds.ofTexts first second).middle first)
      ((CommonEnds.ofTexts first second).middle second)).search limit = .ok .apart) :
    ofParts limit i j first second =
      .ok ⟨(CommonEnds.ofTexts first second).frame i j first second [], false⟩ := by
  rw [ofParts, if_neg hnil, hsearch]
  rfl

theorem ofParts_of_overLimit
    (hsearch : (EditGrid.ofTexts ((CommonEnds.ofTexts first second).middle first)
      ((CommonEnds.ofTexts first second).middle second)).search limit = .ok .overLimit) :
    ofParts limit i j first second =
      .ok ⟨(CommonEnds.ofTexts first second).frame i j first second [], true⟩ := by
  rw [ofParts, if_neg hnil, hsearch]
  rfl

theorem ofParts_of_cut {left right : Alignment}
    {point : Cut (EditGrid.ofTexts ((CommonEnds.ofTexts first second).middle first)
        ((CommonEnds.ofTexts first second).middle second)).first.size
      (EditGrid.ofTexts ((CommonEnds.ofTexts first second).middle first)
        ((CommonEnds.ofTexts first second).middle second)).second.size}
    (hsearch : (EditGrid.ofTexts ((CommonEnds.ofTexts first second).middle first)
      ((CommonEnds.ofTexts first second).middle second)).search limit = .ok (.cut point))
    (hleft : ofParts 0 (i + (CommonEnds.ofTexts first second).before)
      (j + (CommonEnds.ofTexts first second).before)
      (((CommonEnds.ofTexts first second).middle first).take point.x)
      (((CommonEnds.ofTexts first second).middle second).take point.y) = .ok left)
    (hright : ofParts 0 (i + (CommonEnds.ofTexts first second).before + point.x)
      (j + (CommonEnds.ofTexts first second).before + point.y)
      (((CommonEnds.ofTexts first second).middle first).drop point.x)
      (((CommonEnds.ofTexts first second).middle second).drop point.y) = .ok right) :
    ofParts limit i j first second =
      .ok ⟨(CommonEnds.ofTexts first second).frame i j first second
        (left.blocks ++ right.blocks), false⟩ := by
  rw [ofParts, if_neg hnil, hsearch]
  simp only [bind, Except.bind, hleft, hright]
  rfl

end Parts

theorem ofParts_admitted (i j : Nat) (first second : Bytes) :
    ∃ alignment, Block.totalLength alignment.blocks = lcsLength first second ∧
      ∀ limit : Word, EditGrid.Admits limit (editDistance first second) →
        ofParts limit i j first second = .ok alignment := by
  have hlcs := CommonEnds.lcsLength_eq first second
  have hdistance := CommonEnds.editDistance_eq first second
  have hframe := fun inner =>
    (CommonEnds.ofTexts first second).totalLength_frame i j first second inner
  by_cases hnil : (CommonEnds.ofTexts first second).middle first = [] ∨
      (CommonEnds.ofTexts first second).middle second = []
  · refine ⟨_, ?_, fun limit _ => ofParts_of_nil i j hnil⟩
    have hzero : lcsLength ((CommonEnds.ofTexts first second).middle first)
        ((CommonEnds.ofTexts first second).middle second) = 0 := by
      rcases hnil with hfirst | hsecond
      · rw [hfirst, lcsLength_nil_left]
      · rw [hsecond, lcsLength_nil_right]
    rw [hframe, hlcs, hzero]
    rfl
  · obtain ⟨hfirst, hsecond⟩ := not_or.1 hnil
    obtain ⟨meeting, hminimal, hsearch⟩ :=
      EditGrid.search_minimal (CommonEnds.two_le_editDistance_middle hfirst hsecond)
    rw [← hdistance] at hsearch
    cases meeting with
    | overLimit => exact hminimal.elim
    | apart =>
      refine ⟨_, ?_, fun limit hlimit => ofParts_of_apart i j hnil (hsearch limit hlimit)⟩
      rw [hframe, hlcs, show lcsLength _ _ = 0 from hminimal]
      rfl
    | cut point =>
      have hadd := OnPath.lcsLength_add hminimal
      rw [Int.toNat_natCast, Int.toNat_natCast] at hadd
      obtain ⟨left, hsum, hleft⟩ := ofParts_admitted (i + (CommonEnds.ofTexts first second).before)
        (j + (CommonEnds.ofTexts first second).before)
        (((CommonEnds.ofTexts first second).middle first).take point.x)
        (((CommonEnds.ofTexts first second).middle second).take point.y)
      obtain ⟨right, hsum', hright⟩ :=
        ofParts_admitted (i + (CommonEnds.ofTexts first second).before + point.x)
          (j + (CommonEnds.ofTexts first second).before + point.y)
          (((CommonEnds.ofTexts first second).middle first).drop point.x)
          (((CommonEnds.ofTexts first second).middle second).drop point.y)
      refine ⟨_, ?_, fun limit hlimit =>
        ofParts_of_cut i j hnil (hsearch limit hlimit) (hleft 0 (.inl rfl)) (hright 0 (.inl rfl))⟩
      rw [hframe, Block.totalLength_append, hsum, hsum', hadd, hlcs]
termination_by first.length + second.length
decreasing_by
  · exact (CommonEnds.length_middle_parts_lt point).1
  · exact (CommonEnds.length_middle_parts_lt point).2

theorem ofParts_minimal (i j : Nat) (first second : Bytes) :
    ∃ alignment, Block.totalLength alignment.blocks = lcsLength first second ∧
      ∀ limit : Word, limit = 0 ∨ editDistance first second ≤ limit.toNat →
        ofParts limit i j first second = .ok alignment := by
  obtain ⟨alignment, hsum, halign⟩ := ofParts_admitted i j first second
  exact ⟨alignment, hsum, fun limit hlimit => halign limit (EditGrid.admits_of_le hlimit)⟩

end Alignment

/-- The common blocks of two texts cover as many bytes as a longest common subsequence has, unless
the bound on the edits is less than their distance. A bound that is not less changes nothing. -/
theorem commonBlocks_minimal (settings : Settings) (source target : Bytes)
    (hlimit : settings.editLimit = 0 ∨
      editDistance source target ≤ settings.editLimit.toNat) :
    ∃ blocks, (commonBlocks settings source target).value = .ok blocks ∧
      Block.totalLength blocks = lcsLength source target ∧
      (commonBlocks { settings with editLimit := 0 } source target).value = .ok blocks := by
  obtain ⟨alignment, hsum, halign⟩ := Alignment.ofParts_minimal 0 0 source target
  refine ⟨Block.coalesce alignment.blocks, ?_, ?_, ?_⟩
  · rw [value_commonBlocks, halign _ hlimit]
    rfl
  · rw [Block.totalLength_coalesce, hsum]
  · rw [value_commonBlocks, halign 0 (.inl rfl)]
    rfl

theorem commonBlocks_minimal_within_limit :
    editDistance (ascii "abcabba") (ascii "cbabac") = 5 ∧
      ∃ blocks, (commonBlocks { editLimit := 5 } (ascii "abcabba") (ascii "cbabac")).value =
        .ok blocks ∧ Block.totalLength blocks = 4 := by
  have hdistance : editDistance (ascii "abcabba") (ascii "cbabac") = 5 := by decide +kernel
  have hlcs : lcsLength (ascii "abcabba") (ascii "cbabac") = 4 := by decide +kernel
  obtain ⟨blocks, hblocks, hsum, -⟩ :=
    commonBlocks_minimal { editLimit := 5 } (ascii "abcabba") (ascii "cbabac")
      (.inr (Nat.le_of_eq hdistance))
  exact ⟨hdistance, blocks, hblocks, hsum.trans hlcs⟩

end TextOrigin

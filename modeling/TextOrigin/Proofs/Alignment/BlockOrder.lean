import TextOrigin.Proofs.Alignment.Searches

/-!
The order of common blocks. An alignment lists its blocks from one end of both texts to the other:
those of the common beginning, of the parts before a cut, of the parts after it, and of the common
end lie in stretches that follow each other. Coalescing keeps the order, drops what is empty and
leaves no two blocks that adjoin in both texts.
-/

namespace TextOrigin

namespace Block

/-- Blocks that follow each other in both texts, from `i` and `j` on up to `i'` and `j'`. -/
def InOrder (i j : Nat) (blocks : List Block) (i' j' : Nat) : Prop :=
  match blocks with
  | [] => i ≤ i' ∧ j ≤ j'
  | block :: rest => i ≤ block.sourceStart ∧ j ≤ block.targetStart ∧
      InOrder (block.sourceStart + block.length) (block.targetStart + block.length) rest i' j'

structure Before (block next : Block) : Prop where
  source_le : block.sourceStart + block.length ≤ next.sourceStart
  target_le : block.targetStart + block.length ≤ next.targetStart

theorem adjoins_eq_false_iff {block next : Block} :
    block.adjoins next = false ↔ ¬ (block.sourceStart + block.length = next.sourceStart ∧
      block.targetStart + block.length = next.targetStart) := by
  rw [← Bool.not_eq_true, adjoins, Bool.and_eq_true, beq_iff_eq, beq_iff_eq]

namespace InOrder

variable {i j i' j' : Nat} {block : Block} {blocks : List Block}

theorem mono {k l : Nat} (h : InOrder i j blocks i' j') (hk : k ≤ i) (hl : l ≤ j) :
    InOrder k l blocks i' j' := by
  cases blocks with
  | nil => exact ⟨Nat.le_trans hk h.1, Nat.le_trans hl h.2⟩
  | cons block rest => exact ⟨Nat.le_trans hk h.1, Nat.le_trans hl h.2.1, h.2.2⟩

theorem append {second : List Block} {i'' j'' : Nat} (h : InOrder i j blocks i' j')
    (hsecond : InOrder i' j' second i'' j'') : InOrder i j (blocks ++ second) i'' j'' := by
  induction blocks generalizing i j with
  | nil => exact hsecond.mono h.1 h.2
  | cons block rest ih => exact ⟨h.1, h.2.1, ih h.2.2⟩

theorem singleton (i j n : Nat) : InOrder i j [⟨i, j, n⟩] (i + n) (j + n) :=
  ⟨Nat.le_refl i, Nat.le_refl j, Nat.le_refl _, Nat.le_refl _⟩

theorem le (h : InOrder i j blocks i' j') : i ≤ i' ∧ j ≤ j' := by
  induction blocks generalizing i j with
  | nil => exact h
  | cons block rest ih =>
    have hrest := ih h.2.2
    have hi := h.1
    have hj := h.2.1
    omega

theorem start_le (h : InOrder i j blocks i' j') {b : Block} (hb : b ∈ blocks) :
    i ≤ b.sourceStart ∧ j ≤ b.targetStart := by
  induction blocks generalizing i j with
  | nil => simp at hb
  | cons block rest ih =>
    obtain ⟨hi, hj, hrest⟩ := h
    rcases List.mem_cons.1 hb with rfl | hmem
    · exact ⟨hi, hj⟩
    · have hstart := ih hrest hmem
      omega

theorem stop_le (h : InOrder i j blocks i' j') {b : Block} (hb : b ∈ blocks) :
    b.sourceStart + b.length ≤ i' ∧ b.targetStart + b.length ≤ j' := by
  induction blocks generalizing i j with
  | nil => simp at hb
  | cons block rest ih =>
    rcases List.mem_cons.1 hb with rfl | hmem
    · exact h.2.2.le
    · exact ih h.2.2 hmem

theorem before (h : InOrder i j (block :: blocks) i' j') {b : Block} (hb : b ∈ blocks) :
    block.Before b :=
  have hstart := h.2.2.start_le hb
  ⟨hstart.1, hstart.2⟩

theorem pairwise (h : InOrder i j blocks i' j') : blocks.Pairwise Before := by
  induction blocks generalizing i j with
  | nil => exact List.Pairwise.nil
  | cons block rest ih => exact List.Pairwise.cons (fun b hb => h.before hb) (ih h.2.2)

theorem merge (h : InOrder i j (block :: blocks) i' j') :
    InOrder i j (Block.merge block blocks) i' j' := by
  obtain ⟨hi, hj, hrest⟩ := h
  unfold Block.merge
  split
  · next hempty => exact hrest.mono (by omega) (by omega)
  · split
    · exact ⟨hi, hj, hrest⟩
    · next next rest =>
      split
      · next hadj =>
        simp only [adjoins, Bool.and_eq_true, beq_iff_eq] at hadj
        obtain ⟨hsource, htarget⟩ := hadj
        refine ⟨hi, hj, ?_⟩
        simp only [← Nat.add_assoc, hsource, htarget]
        exact hrest.2.2
      · exact ⟨hi, hj, hrest⟩

theorem coalesce (h : InOrder i j blocks i' j') :
    InOrder i j (Block.coalesce blocks) i' j' := by
  induction blocks generalizing i j with
  | nil => exact h
  | cons block rest ih =>
    have hrest : InOrder i j (block :: Block.coalesce rest) i' j' := ⟨h.1, h.2.1, ih h.2.2⟩
    exact hrest.merge

end InOrder

theorem apart_merge {i j i' j' : Nat} {block : Block} {blocks : List Block}
    (h : InOrder i j (block :: blocks) i' j') (hfilled : ∀ b ∈ blocks, 0 < b.length)
    (hapart : blocks.Pairwise fun b c => b.adjoins c = false) :
    (merge block blocks).Pairwise fun b c => b.adjoins c = false := by
  unfold merge
  split
  · exact hapart
  · split
    · exact List.pairwise_singleton _ _
    · next next rest =>
      obtain ⟨hnext, hrest⟩ := List.pairwise_cons.1 hapart
      split
      · next hadj =>
        -- The merged block ends where the first of the others did, and that one does not adjoin those
        -- behind it.
        simp only [adjoins, Bool.and_eq_true, beq_iff_eq] at hadj
        refine List.Pairwise.cons (fun b hb => ?_) hrest
        have hb' := hnext b hb
        rw [adjoins_eq_false_iff] at hb' ⊢
        simp only
        omega
      · next hadj =>
        refine List.Pairwise.cons (fun b hb => ?_) hapart
        rcases List.mem_cons.1 hb with rfl | hmem
        · exact Bool.eq_false_iff.2 hadj
        · have hbefore := h.before (b := next) (by simp)
          have hafter := h.2.2.before hmem
          have hpos := hfilled next (by simp)
          have hsource := hbefore.source_le
          have hsource' := hafter.source_le
          rw [adjoins_eq_false_iff]
          omega

theorem apart_coalesce {i j i' j' : Nat} {blocks : List Block} (h : InOrder i j blocks i' j') :
    (coalesce blocks).Pairwise fun b c => b.adjoins c = false := by
  induction blocks generalizing i j with
  | nil => exact List.Pairwise.nil
  | cons block rest ih =>
    have hrest : InOrder i j (block :: coalesce rest) i' j' := ⟨h.1, h.2.1, h.2.2.coalesce⟩
    exact apart_merge hrest (fun b hb => length_pos_of_mem_coalesce hb) (ih h.2.2)

/-- Blocks that two texts have in common: none is empty, each covers equal bytes of both, and they
are in order in both and do not adjoin in both at once. -/
structure WellFormed (source target : Bytes) (blocks : List Block) : Prop where
  filled : ∀ block ∈ blocks, 0 < block.length
  shared : ∀ block ∈ blocks, block.Shared source target
  ordered : InOrder 0 0 blocks source.length target.length
  apart : blocks.Pairwise fun block next => block.adjoins next = false

end Block

theorem CommonEnds.length_middle {ends : CommonEnds} {text : Bytes}
    (h : ends.before + ends.after ≤ text.length) :
    (ends.middle text).length = text.length - ends.before - ends.after := by
  rw [middle, List.length_take, List.length_drop]
  omega

theorem CommonEnds.inOrder_frame {i j : Nat} {first second : Bytes} {inner : List Block}
    (hinner : Block.InOrder (i + (ofTexts first second).before)
      (j + (ofTexts first second).before) inner
      (i + (ofTexts first second).before + ((ofTexts first second).middle first).length)
      (j + (ofTexts first second).before + ((ofTexts first second).middle second).length)) :
    Block.InOrder i j ((ofTexts first second).frame i j first second inner)
      (i + first.length) (j + second.length) := by
  have hends := before_add_after_le first second
  have hlast := Block.InOrder.singleton (i + first.length - (ofTexts first second).after)
    (j + second.length - (ofTexts first second).after) (ofTexts first second).after
  rw [Nat.sub_add_cancel (by omega), Nat.sub_add_cancel (by omega)] at hlast
  rw [length_middle (by omega), length_middle (by omega)] at hinner
  exact ((Block.InOrder.singleton i j (ofTexts first second).before).append hinner).append
    (hlast.mono (by omega) (by omega))

namespace Alignment

theorem inOrder_ofParts {limit : Word} {i j : Nat} {first second : Bytes} {alignment : Alignment}
    (h : ofParts limit i j first second = .ok alignment) :
    Block.InOrder i j alignment.blocks (i + first.length) (j + second.length) := by
  rcases ofParts_cases h with hblocks | ⟨point, left, right, -, hleft, hright, hblocks⟩
  · rw [hblocks]
    exact CommonEnds.inOrder_frame ⟨Nat.le_add_right _ _, Nat.le_add_right _ _⟩
  · have hbefore := inOrder_ofParts hleft
    have hafter := inOrder_ofParts hright
    have hx := point.x_le
    have hy := point.y_le
    simp only [EditGrid.ofTexts, List.size_toArray] at hx hy
    rw [List.length_take_of_le hx, List.length_take_of_le hy] at hbefore
    rw [List.length_drop, List.length_drop, Nat.add_assoc _ point.x, Nat.add_assoc _ point.y,
      Nat.add_sub_cancel' hx, Nat.add_sub_cancel' hy] at hafter
    rw [hblocks]
    exact CommonEnds.inOrder_frame (hbefore.append hafter)
termination_by first.length + second.length
decreasing_by
  · exact (CommonEnds.length_middle_parts_lt point).1
  · exact (CommonEnds.length_middle_parts_lt point).2

end Alignment

theorem exists_commonBlocks_wellFormed (settings : Settings) (source target : Bytes) :
    ∃ blocks, (commonBlocks settings source target).value = .ok blocks ∧
      Block.WellFormed source target blocks := by
  obtain ⟨alignment, halign⟩ :=
    Alignment.exists_ofParts_eq_ok settings.editLimit 0 0 source target
  have hvalue : (commonBlocks settings source target).value =
      .ok (Block.coalesce alignment.blocks) := by
    rw [value_commonBlocks, halign]
    rfl
  have horder := Alignment.inOrder_ofParts halign
  rw [Nat.zero_add, Nat.zero_add] at horder
  refine ⟨_, hvalue, ?_, shared_of_mem_commonBlocks hvalue, horder.coalesce,
    Block.apart_coalesce horder⟩
  exact fun block hblock => Block.length_pos_of_mem_coalesce hblock

end TextOrigin

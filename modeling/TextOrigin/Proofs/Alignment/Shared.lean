import TextOrigin.Alignment

/-!
Every block of an alignment covers equal bytes of both texts. The common ends are shared by their
choice, cutting hands each part a stretch of the text it came from, and merging two blocks that
adjoin in both texts keeps them shared. None of this depends on where the cuts are made.
-/

namespace TextOrigin

/-- A block that lies in both texts and covers equal bytes of them. -/
structure Block.Shared (source target : Bytes) (block : Block) : Prop where
  source_le : block.sourceStart + block.length ≤ source.length
  target_le : block.targetStart + block.length ≤ target.length
  slice_eq : (source.drop block.sourceStart).take block.length =
    (target.drop block.targetStart).take block.length

namespace Block

theorem Shared.getElem?_eq {source target : Bytes} {block : Block}
    (h : block.Shared source target) {i : Nat} (hi : i < block.length) :
    source[block.sourceStart + i]? = target[block.targetStart + i]? := by
  have heq := congrArg (·[i]?) h.slice_eq
  simpa only [List.getElem?_take, List.getElem?_drop, hi, if_true] using heq

theorem Shared.join {source target : Bytes} {block next : Block}
    (h : block.Shared source target) (hnext : next.Shared source target)
    (hadj : block.adjoins next = true) :
    Block.Shared source target { block with length := block.length + next.length } := by
  simp only [adjoins, Bool.and_eq_true, beq_iff_eq] at hadj
  obtain ⟨hs, ht⟩ := hadj
  refine ⟨?_, ?_, ?_⟩
  · have := hnext.source_le
    simp only
    omega
  · have := hnext.target_le
    simp only
    omega
  · have heq := hnext.slice_eq
    rw [← hs, ← ht] at heq
    simp only [List.take_add, List.drop_drop, h.slice_eq, heq]

theorem shared_of_mem_merge {source target : Bytes} {block b : Block} {blocks : List Block}
    (hblock : block.Shared source target) (hblocks : ∀ c ∈ blocks, c.Shared source target)
    (h : b ∈ merge block blocks) : b.Shared source target := by
  unfold merge at h
  split at h
  · exact hblocks b h
  · split at h
    · rw [List.mem_singleton.1 h]
      exact hblock
    · next c rest =>
      split at h
      · next hadj =>
        rcases List.mem_cons.1 h with rfl | hb
        · exact hblock.join (hblocks c (by simp)) hadj
        · exact hblocks b (List.mem_cons_of_mem c hb)
      · rcases List.mem_cons.1 h with rfl | hb
        · exact hblock
        · exact hblocks b hb

theorem shared_of_mem_coalesce {source target : Bytes} {b : Block} {blocks : List Block}
    (hblocks : ∀ c ∈ blocks, c.Shared source target) (h : b ∈ coalesce blocks) :
    b.Shared source target := by
  induction blocks generalizing b with
  | nil => simp [coalesce] at h
  | cons block rest ih =>
    refine shared_of_mem_merge (hblocks block (by simp)) (fun c hc => ?_) h
    exact ih (fun d hd => hblocks d (List.mem_cons_of_mem block hd)) hc

end Block

def Bytes.OccursAt (text : Bytes) (i : Nat) (part : Bytes) : Prop :=
  i ≤ text.length ∧ part <+: text.drop i

namespace Bytes.OccursAt

theorem self (text : Bytes) : text.OccursAt 0 text :=
  ⟨Nat.zero_le _, List.prefix_rfl⟩

theorem add_length_le {text part : Bytes} {i : Nat} (h : text.OccursAt i part) :
    i + part.length ≤ text.length := by
  have hle := h.2.length_le
  rw [List.length_drop] at hle
  have := h.1
  omega

theorem take {text part : Bytes} {i : Nat} (h : text.OccursAt i part) (k : Nat) :
    text.OccursAt i (part.take k) :=
  ⟨h.1, (List.take_prefix k part).trans h.2⟩

theorem drop {text part : Bytes} {i k : Nat} (h : text.OccursAt i part) (hk : k ≤ part.length) :
    text.OccursAt (i + k) (part.drop k) := by
  refine ⟨?_, ?_⟩
  · have := h.add_length_le
    omega
  · obtain ⟨rest, hrest⟩ := h.2
    rw [← List.drop_drop, ← hrest, List.drop_append_of_le_length hk]
    exact List.prefix_append _ _

theorem slice_eq {text part : Bytes} {i k n : Nat} (h : text.OccursAt i part)
    (hk : k + n ≤ part.length) : (text.drop (i + k)).take n = (part.drop k).take n := by
  obtain ⟨rest, hrest⟩ := h.2
  rw [← List.drop_drop, ← hrest, List.drop_append_of_le_length (by omega),
    List.take_append_of_le_length (by rw [List.length_drop]; omega)]

theorem middle {text part : Bytes} {i : Nat} (h : text.OccursAt i part) {ends : CommonEnds}
    (hends : ends.before ≤ part.length) : text.OccursAt (i + ends.before) (ends.middle part) :=
  (h.drop hends).take _

end Bytes.OccursAt

theorem Block.shared_of_parts {source target first second : Bytes} {i j : Nat}
    (hfirst : source.OccursAt i first) (hsecond : target.OccursAt j second) {s t n : Nat}
    (hs : s + n ≤ first.length) (ht : t + n ≤ second.length)
    (heq : (first.drop s).take n = (second.drop t).take n) :
    Block.Shared source target ⟨i + s, j + t, n⟩ := by
  have hsource := hfirst.add_length_le
  have htarget := hsecond.add_length_le
  refine ⟨?_, ?_, ?_⟩
  · simp only
    omega
  · simp only
    omega
  · rw [hfirst.slice_eq hs, hsecond.slice_eq ht, heq]

namespace CommonEnds

theorem before_le_left (first second : Bytes) : (ofTexts first second).before ≤ first.length :=
  matchLength_le_left first second

theorem before_le_right (first second : Bytes) : (ofTexts first second).before ≤ second.length :=
  matchLength_le_right first second

theorem take_before_eq (first second : Bytes) :
    first.take (ofTexts first second).before = second.take (ofTexts first second).before :=
  take_matchLength first second

theorem drop_after_eq (first second : Bytes) :
    first.drop (first.length - (ofTexts first second).after) =
      second.drop (second.length - (ofTexts first second).after) := by
  have hle : (ofTexts first second).after ≤ matchLength first.reverse second.reverse :=
    Nat.min_le_left _ _
  have htake := congrArg (List.take (ofTexts first second).after)
    (take_matchLength first.reverse second.reverse)
  rw [List.take_take, List.take_take, Nat.min_eq_left hle] at htake
  have hrev := congrArg List.reverse htake
  simpa only [List.reverse_take, List.reverse_reverse, List.length_reverse] using hrev

theorem length_middle_parts_lt {ends : CommonEnds} {first second : Bytes}
    (point : Cut (EditGrid.ofTexts (ends.middle first) (ends.middle second)).first.size
      (EditGrid.ofTexts (ends.middle first) (ends.middle second)).second.size) :
    ((ends.middle first).take point.x).length + ((ends.middle second).take point.y).length <
        first.length + second.length ∧
      ((ends.middle first).drop point.x).length + ((ends.middle second).drop point.y).length <
        first.length + second.length :=
  length_parts_lt point (ends.length_middle_le first) (ends.length_middle_le second)

end CommonEnds

def CommonEnds.frame (ends : CommonEnds) (i j : Nat) (first second : Bytes)
    (inner : List Block) : List Block :=
  ⟨i, j, ends.before⟩ :: inner ++
    [⟨i + first.length - ends.after, j + second.length - ends.after, ends.after⟩]

namespace Alignment

theorem ofParts_cases {limit : Word} {i j : Nat} {first second : Bytes} {alignment : Alignment}
    (h : ofParts limit i j first second = .ok alignment) :
    let ends := CommonEnds.ofTexts first second
    alignment.blocks = ends.frame i j first second [] ∨
    ∃ point left right,
      (EditGrid.ofTexts (ends.middle first) (ends.middle second)).search limit =
        .ok (.cut point) ∧
      ofParts 0 (i + ends.before) (j + ends.before) ((ends.middle first).take point.x)
        ((ends.middle second).take point.y) = .ok left ∧
      ofParts 0 (i + ends.before + point.x) (j + ends.before + point.y)
        ((ends.middle first).drop point.x) ((ends.middle second).drop point.y) = .ok right ∧
      alignment.blocks = ends.frame i j first second (left.blocks ++ right.blocks) := by
  intro ends
  rw [ofParts] at h
  split at h
  · cases h
    exact .inl rfl
  · cases hsearch : (EditGrid.ofTexts (ends.middle first) (ends.middle second)).search limit with
    | error fault => simp [ends, hsearch, bind, Except.bind] at h
    | ok meeting =>
      simp only [ends, hsearch, bind, Except.bind, pure, Except.pure] at h
      cases meeting with
      | apart =>
        cases h
        exact .inl rfl
      | overLimit =>
        cases h
        exact .inl rfl
      | cut point =>
        simp only at h
        split at h
        · contradiction
        · next left hleft =>
          split at h
          · contradiction
          · next right hright =>
            cases h
            exact .inr ⟨point, left, right, rfl, hleft, hright, rfl⟩

theorem shared_of_mem_frame {source target : Bytes} {i j : Nat} {first second : Bytes}
    {inner : List Block} (hfirst : source.OccursAt i first) (hsecond : target.OccursAt j second)
    (hinner : ∀ block ∈ inner, block.Shared source target) :
    ∀ block ∈ (CommonEnds.ofTexts first second).frame i j first second inner,
      block.Shared source target := by
  have hends := CommonEnds.before_add_after_le first second
  intro block hblock
  simp only [CommonEnds.frame, List.cons_append, List.mem_cons, List.mem_append,
    List.not_mem_nil, or_false] at hblock
  rcases hblock with rfl | hmem | rfl
  · have hbefore := CommonEnds.take_before_eq first second
    exact Block.shared_of_parts (s := 0) (t := 0) hfirst hsecond (by omega) (by omega)
      (by simpa only [List.drop_zero] using hbefore)
  · exact hinner block hmem
  · have hafter := CommonEnds.drop_after_eq first second
    rw [Nat.add_sub_assoc (by omega), Nat.add_sub_assoc (by omega)]
    exact Block.shared_of_parts hfirst hsecond (by omega) (by omega) (by rw [hafter])

theorem shared_of_mem_ofParts {source target : Bytes} {limit : Word} {i j : Nat}
    {first second : Bytes} {alignment : Alignment}
    (h : ofParts limit i j first second = .ok alignment)
    (hfirst : source.OccursAt i first) (hsecond : target.OccursAt j second) :
    ∀ block ∈ alignment.blocks, block.Shared source target := by
  rcases ofParts_cases h with hblocks | ⟨point, left, right, -, hleft, hright, hblocks⟩
  · rw [hblocks]
    exact shared_of_mem_frame hfirst hsecond (by simp)
  · have hmidfirst := hfirst.middle (CommonEnds.before_le_left first second)
    have hmidsecond := hsecond.middle (CommonEnds.before_le_right first second)
    have hx := point.x_le
    have hy := point.y_le
    simp only [EditGrid.ofTexts, List.size_toArray] at hx hy
    have hblocksleft := shared_of_mem_ofParts hleft (hmidfirst.take _) (hmidsecond.take _)
    have hblocksright := shared_of_mem_ofParts hright (hmidfirst.drop hx) (hmidsecond.drop hy)
    rw [hblocks]
    refine shared_of_mem_frame hfirst hsecond fun block hblock => ?_
    rcases List.mem_append.1 hblock with hmem | hmem
    · exact hblocksleft block hmem
    · exact hblocksright block hmem
termination_by first.length + second.length
decreasing_by
  · exact (CommonEnds.length_middle_parts_lt point).1
  · exact (CommonEnds.length_middle_parts_lt point).2

end Alignment

theorem value_commonBlocks (settings : Settings) (source target : Bytes) :
    (commonBlocks settings source target).value =
      (Alignment.ofParts settings.editLimit 0 0 source target).map
        fun alignment => Block.coalesce alignment.blocks := by
  unfold commonBlocks
  cases Alignment.ofParts settings.editLimit 0 0 source target with
  | error fault => rfl
  | ok alignment =>
    simp only [Except.map]
    split <;> rfl

theorem shared_of_mem_commonBlocks {settings : Settings} {source target : Bytes}
    {blocks : List Block} (h : (commonBlocks settings source target).value = .ok blocks) :
    ∀ block ∈ blocks, block.Shared source target := by
  rw [value_commonBlocks] at h
  cases halign : Alignment.ofParts settings.editLimit 0 0 source target with
  | error fault => simp [halign, Except.map] at h
  | ok alignment =>
    have hblocks := Alignment.shared_of_mem_ofParts halign (.self source) (.self target)
    simp only [halign, Except.map, Except.ok.injEq] at h
    subst h
    exact fun block hblock => Block.shared_of_mem_coalesce hblocks hblock

end TextOrigin

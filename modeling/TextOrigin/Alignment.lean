import TextOrigin.Alignment.Search
import TextOrigin.Bytes.Decimal
import TextOrigin.Settings
import TextOrigin.Traced

/-!
Alignment of two texts by the runs of bytes that they share. The common ends are set aside. What
lies between them is cut at a point of a shortest path and both parts are aligned again, until a
part is empty or shares nothing. The blocks found are in order in both texts, none is empty, and no
two adjoin in both texts at once.
-/

namespace TextOrigin

structure Block where
  sourceStart : Nat
  targetStart : Nat
  length : Nat
deriving DecidableEq, Repr

namespace Block

def adjoins (block next : Block) : Bool :=
  block.sourceStart + block.length == next.sourceStart &&
    block.targetStart + block.length == next.targetStart

/-- Puts a block in front of others: an empty one vanishes, and one that adjoins the first of them
is merged with it. -/
def merge (block : Block) (blocks : List Block) : List Block :=
  if block.length = 0 then blocks
  else
    match blocks with
    | [] => [block]
    | next :: rest =>
      if block.adjoins next then { block with length := block.length + next.length } :: rest
      else block :: next :: rest

def coalesce (blocks : List Block) : List Block := blocks.foldr merge []

def totalLength (blocks : List Block) : Nat :=
  match blocks with
  | [] => 0
  | block :: rest => block.length + totalLength rest

theorem totalLength_append (first second : List Block) :
    totalLength (first ++ second) = totalLength first + totalLength second := by
  induction first with
  | nil => exact (Nat.zero_add _).symm
  | cons block rest ih =>
    rw [List.cons_append, totalLength, totalLength, ih, Nat.add_assoc]

theorem totalLength_merge (block : Block) (blocks : List Block) :
    totalLength (merge block blocks) = block.length + totalLength blocks := by
  unfold merge
  split
  · next h => rw [h, Nat.zero_add]
  · split
    · rfl
    · split
      · exact Nat.add_assoc ..
      · rfl

theorem totalLength_coalesce (blocks : List Block) :
    totalLength (coalesce blocks) = totalLength blocks := by
  induction blocks with
  | nil => rfl
  | cons block rest ih =>
    rw [coalesce, List.foldr_cons, totalLength_merge, totalLength]
    exact congrArg (block.length + ·) ih

theorem length_pos_of_mem_merge {block b : Block} {blocks : List Block}
    (hblocks : ∀ c ∈ blocks, 0 < c.length) (h : b ∈ merge block blocks) : 0 < b.length := by
  unfold merge at h
  split at h
  · exact hblocks b h
  · next hne =>
    split at h
    · rw [List.mem_singleton.1 h]
      omega
    · next c rest =>
      split at h
      · rcases List.mem_cons.1 h with rfl | hb
        · exact Nat.add_pos_left (Nat.pos_of_ne_zero hne) _
        · exact hblocks b (List.mem_cons_of_mem c hb)
      · rcases List.mem_cons.1 h with rfl | hb
        · omega
        · exact hblocks b hb

theorem length_pos_of_mem_coalesce {b : Block} {blocks : List Block} (h : b ∈ coalesce blocks) :
    0 < b.length := by
  induction blocks generalizing b with
  | nil => simp [coalesce] at h
  | cons block rest ih => exact length_pos_of_mem_merge (fun c hc => ih hc) h

end Block

def matchLength : Bytes → Bytes → Nat
  | b :: first, c :: second => if b = c then matchLength first second + 1 else 0
  | _, _ => 0

theorem matchLength_le_left (first second : Bytes) :
    matchLength first second ≤ first.length := by
  fun_induction matchLength first second with
  | case1 b first second ih => simpa using ih
  | case2 => simp
  | case3 => simp

theorem matchLength_le_right (first second : Bytes) :
    matchLength first second ≤ second.length := by
  fun_induction matchLength first second with
  | case1 b first second ih => simpa using ih
  | case2 => simp
  | case3 => simp

theorem take_matchLength (first second : Bytes) :
    first.take (matchLength first second) = second.take (matchLength first second) := by
  fun_induction matchLength first second with
  | case1 b first second ih => simp [ih]
  | case2 => simp
  | case3 => simp

/-- Lengths of the ends that two texts share. The end does not reach into the beginning. -/
structure CommonEnds where
  before : Nat
  after : Nat

namespace CommonEnds

def ofTexts (first second : Bytes) : CommonEnds :=
  let before := matchLength first second
  ⟨before, min (matchLength first.reverse second.reverse)
    (min first.length second.length - before)⟩

theorem before_add_after_le (first second : Bytes) :
    (ofTexts first second).before + (ofTexts first second).after ≤
      min first.length second.length := by
  have hfirst := matchLength_le_left first second
  have hsecond := matchLength_le_right first second
  simp only [ofTexts]
  omega

def middle (ends : CommonEnds) (text : Bytes) : Bytes :=
  (text.drop ends.before).take (text.length - ends.before - ends.after)

theorem length_middle_le (ends : CommonEnds) (text : Bytes) :
    (ends.middle text).length ≤ text.length := by
  rw [middle, List.length_take, List.length_drop]
  omega

end CommonEnds

theorem length_parts_lt {first second : Bytes}
    (point : Cut (EditGrid.ofTexts first second).first.size
      (EditGrid.ofTexts first second).second.size)
    {n m : Nat} (hn : first.length ≤ n) (hm : second.length ≤ m) :
    (first.take point.x).length + (second.take point.y).length < n + m ∧
      (first.drop point.x).length + (second.drop point.y).length < n + m := by
  obtain ⟨x, y, hx, hy, hpos, hlt⟩ := point
  simp only [EditGrid.ofTexts, List.size_toArray] at hx hy hlt
  simp only [List.length_take, List.length_drop]
  omega

/-- Common blocks in order, perhaps empty or adjoining, and whether the bound on the edits cut the
search short. -/
structure Alignment where
  blocks : List Block
  limited : Bool

/-- Aligns parts of two texts that start at `i` and `j`. The bound holds for the first search alone:
the parts that it leaves share its edits between them. -/
def Alignment.ofParts (limit : Word) (i j : Nat) (first second : Bytes) :
    Except AlignmentFault Alignment := do
  let ends := CommonEnds.ofTexts first second
  let frame (inner : List Block) : List Block :=
    ⟨i, j, ends.before⟩ :: inner ++
      [⟨i + first.length - ends.after, j + second.length - ends.after, ends.after⟩]
  if ends.middle first = [] ∨ ends.middle second = [] then
    return ⟨frame [], false⟩
  match ← (EditGrid.ofTexts (ends.middle first) (ends.middle second)).search limit with
  | .apart => return ⟨frame [], false⟩
  | .overLimit => return ⟨frame [], true⟩
  | .cut point =>
    let left ← ofParts 0 (i + ends.before) (j + ends.before)
      ((ends.middle first).take point.x) ((ends.middle second).take point.y)
    let right ← ofParts 0 (i + ends.before + point.x) (j + ends.before + point.y)
      ((ends.middle first).drop point.x) ((ends.middle second).drop point.y)
    return ⟨frame (left.blocks ++ right.blocks), false⟩
termination_by first.length + second.length
decreasing_by
  · exact (length_parts_lt point (ends.length_middle_le first) (ends.length_middle_le second)).1
  · exact (length_parts_lt point (ends.length_middle_le first) (ends.length_middle_le second)).2

def Alignment.lines (settings : Settings) (source target : Bytes) (limited : Bool)
    (count : Nat) : List Bytes :=
  let ends := CommonEnds.ofTexts source target
  let stopped :=
    ascii "[lineage] diff: edit limit " ++ decimal settings.editLimit.toNat ++
      ascii " exceeded, keeping prefix " ++ decimal ends.before ++ ascii " and suffix " ++
      decimal ends.after
  let found :=
    ascii "[lineage] diff: " ++ decimal source.length ++ ascii " -> " ++
      decimal target.length ++ ascii " bytes, " ++ decimal count ++ ascii " common block(s)"
  if limited then [stopped, found] else [found]

/-- The common blocks of two texts. Without a bound on the edits, or within it, they cover as many
bytes as a longest common subsequence has. -/
def commonBlocks (settings : Settings) (source target : Bytes) :
    Traced (Except AlignmentFault (List Block)) :=
  match Alignment.ofParts settings.editLimit 0 0 source target with
  | .error fault => pure (.error fault)
  | .ok alignment => do
    let blocks := Block.coalesce alignment.blocks
    if settings.trace then
      Traced.report (Alignment.lines settings source target alignment.limited blocks.length)
    return .ok blocks

end TextOrigin

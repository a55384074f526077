import TextOrigin.Alignment.Frontier
import TextOrigin.Proofs.Alignment.ShortestPath

/-!
Frontiers as functions from diagonals to what was reached there. Within its room a frontier is read
and written without faults, one more move arrives at the furthest of what its neighbours allow, and
following a diagonal ends where the texts differ, at no greater distance.
-/

namespace TextOrigin

namespace Frontier

def cell (frontier : Frontier) (k : Int) : Int :=
  match frontier.index? k with
  | some i => frontier.cells.getD i (-1)
  | none => -1

def put (frontier : Frontier) (k x : Int) : Frontier :=
  { frontier with cells := frontier.cells.setIfInBounds (frontier.origin + k).toNat x }

def arrival (frontier : Frontier) (depth : Nat) (k : Int) : Int :=
  if k = -depth then frontier.cell (k + 1)
  else if k = depth then frontier.cell (k - 1) + 1
  else max (frontier.cell (k - 1) + 1) (frontier.cell (k + 1))

/-- Room for the diagonals that `reach` moves can visit and for their neighbours. -/
structure Spans (frontier : Frontier) (reach : Nat) : Prop where
  origin_eq : frontier.origin = reach + 1
  size_eq : frontier.cells.size = 2 * reach + 3

theorem cell_eq_getElem? (frontier : Frontier) (k : Int) :
    frontier.cell k = if 0 ≤ frontier.origin + k then
      frontier.cells[(frontier.origin + k).toNat]?.getD (-1) else -1 := by
  rw [cell, index?]
  by_cases hpos : 0 ≤ frontier.origin + k
  · by_cases hlt : (frontier.origin + k).toNat < frontier.cells.size
    · simp [hpos, hlt]
    · simp [hpos, hlt]
  · simp [hpos]

theorem cell_trim (frontier : Frontier) (low high : Nat) :
    Frontier.cell { frontier with low := low, high := high } = frontier.cell := by
  funext k
  rw [cell_eq_getElem?, cell_eq_getElem?]

theorem spans_start (reach : Nat) : (start reach).Spans reach :=
  ⟨rfl, by simp [start]⟩

theorem cell_start (reach : Nat) (k : Int) :
    (start reach).cell k = if k = 1 then 0 else -1 := by
  rw [cell_eq_getElem?]
  simp only [start, Array.getElem?_setIfInBounds, Array.size_replicate, Array.getElem?_replicate]
  grind

theorem reached?_eq (frontier : Frontier) (k : Int) :
    frontier.reached? k = if frontier.cell k = -1 then none else some (frontier.cell k) := by
  cases h : frontier.index? k with
  | none => simp [reached?, cell, h]
  | some i => simp [reached?, cell, h]

namespace Spans

variable {frontier : Frontier} {reach : Nat} {k : Int}

theorem exists_index (h : frontier.Spans reach) (hlow : -(reach + 1 : Int) ≤ k)
    (hhigh : k ≤ reach + 1) :
    ∃ i, frontier.index? k = some i ∧ i.1 = (frontier.origin + k).toNat := by
  obtain ⟨horigin, hsize⟩ := h
  rw [index?]
  have hin : 0 ≤ (frontier.origin : Int) + k ∧
      ((frontier.origin : Int) + k).toNat < frontier.cells.size := by
    omega
  exact ⟨_, dif_pos hin, rfl⟩

theorem read (h : frontier.Spans reach) (hlow : -(reach + 1 : Int) ≤ k) (hhigh : k ≤ reach + 1) :
    frontier.read k = .ok (frontier.cell k) := by
  obtain ⟨i, hi, -⟩ := h.exists_index hlow hhigh
  simp [Frontier.read, cell, hi]

theorem write (h : frontier.Spans reach) (hlow : -(reach + 1 : Int) ≤ k) (hhigh : k ≤ reach + 1)
    (x : Int) : frontier.write k x = .ok (frontier.put k x) := by
  obtain ⟨i, hi, hvalue⟩ := h.exists_index hlow hhigh
  rw [write_of_index? hi, put, ← hvalue, Array.setIfInBounds, dif_pos i.2]

theorem put (h : frontier.Spans reach) (k x : Int) : (frontier.put k x).Spans reach :=
  ⟨h.origin_eq, by rw [Frontier.put, Array.size_setIfInBounds, h.size_eq]⟩

theorem cell_put (h : frontier.Spans reach) (hlow : -(reach + 1 : Int) ≤ k)
    (hhigh : k ≤ reach + 1) (x j : Int) :
    (frontier.put k x).cell j = if j = k then x else frontier.cell j := by
  obtain ⟨horigin, hsize⟩ := h
  rw [cell_eq_getElem?, cell_eq_getElem?]
  simp only [Frontier.put, Array.getElem?_setIfInBounds]
  grind

theorem advance (h : frontier.Spans reach) {depth : Nat} (hdepth : depth ≤ reach)
    (hlow : -(depth : Int) ≤ k) (hhigh : k ≤ depth) :
    frontier.advance depth k = .ok (frontier.arrival depth k) := by
  rw [Frontier.advance, arrival]
  by_cases hfirst : k = -depth
  · rw [if_pos hfirst, if_pos hfirst, h.read (by omega) (by omega)]
  · rw [if_neg hfirst, if_neg hfirst, h.read (by omega) (by omega)]
    dsimp only [bind, Except.bind]
    by_cases hlast : k = depth
    · rw [if_pos hlast, if_pos hlast]
      rfl
    · rw [if_neg hlast, if_neg hlast, h.read (by omega) (by omega)]
      rfl

end Spans

end Frontier

theorem exists_followRun (first second : Bytes) (x y : Nat) :
    ∃ t : Nat, followRun first.toArray second.toArray x y = x + t ∧
      distanceTo first second (x + t : Nat) (y + t : Nat) = distanceTo first second x y ∧
      ¬ Agree first second (x + t : Nat) (y + t : Nat) := by
  fun_induction followRun first.toArray second.toArray x y with
  | case1 x y h heq ih =>
    obtain ⟨t, hrun, hdistance, hend⟩ := ih
    have hx : x < first.length := by simpa using h.1
    have hy : y < second.length := by simpa using h.2
    have hagree : Agree first second x y := by
      refine ⟨first[x], ?_, ?_⟩
      · rw [Int.toNat_natCast, List.getElem?_eq_getElem]
      · rw [Int.toNat_natCast, List.getElem?_eq_getElem hy]
        simpa using heq.symm
    have hstep := distanceTo_of_agree (by omega) (by omega) hagree
    refine ⟨t + 1, by omega, ?_, ?_⟩
    · rw [← hstep, ← Int.natCast_succ, ← Int.natCast_succ, ← hdistance]
      congr 1 <;> omega
    · have hx : x + (t + 1) = x + 1 + t := by omega
      have hy : y + (t + 1) = y + 1 + t := by omega
      rw [hx, hy]
      exact hend
  | case2 x y h hne =>
    refine ⟨0, rfl, rfl, ?_⟩
    rintro ⟨b, hfirst, hsecond⟩
    rw [Int.toNat_natCast] at hfirst hsecond
    obtain ⟨hx, hfirst⟩ := List.getElem?_eq_some_iff.1 hfirst
    obtain ⟨hy, hsecond⟩ := List.getElem?_eq_some_iff.1 hsecond
    exact hne (by simp only [List.getElem_toArray]; exact hfirst.trans hsecond.symm)
  | case3 x y h =>
    refine ⟨0, rfl, rfl, ?_⟩
    rintro ⟨b, hfirst, hsecond⟩
    rw [Int.toNat_natCast] at hfirst hsecond
    obtain ⟨hx, -⟩ := List.getElem?_eq_some_iff.1 hfirst
    obtain ⟨hy, -⟩ := List.getElem?_eq_some_iff.1 hsecond
    exact h ⟨by simpa using hx, by simpa using hy⟩

theorem exists_slide (first second : Bytes) {x y : Int} (hx : 0 ≤ x) (hy : 0 ≤ y) :
    ∃ x', slide first.toArray second.toArray x y = .ok x' ∧ x ≤ x' ∧
      distanceTo first second x' (x' - (x - y)) ≤ distanceTo first second x y ∧
      ¬ Agree first second x' (x' - (x - y)) := by
  rw [slide]
  split
  · obtain ⟨x, rfl⟩ := Int.eq_ofNat_of_zero_le hx
    obtain ⟨y, rfl⟩ := Int.eq_ofNat_of_zero_le hy
    obtain ⟨t, hrun, hdistance, hend⟩ := exists_followRun first second x y
    have hy' : ((x + t : Nat) : Int) - (x - y) = (y + t : Nat) := by omega
    refine ⟨(x + t : Nat), ?_, by omega, ?_, ?_⟩
    · rw [if_pos ⟨hx, hy⟩, Int.toNat_natCast, Int.toNat_natCast, hrun]
    · exact Int.le_of_eq (by rw [hy', hdistance])
    · rw [hy']
      exact hend
  · next h =>
    refine ⟨x, rfl, Int.le_refl x, ?_, ?_⟩
    · exact Int.le_of_eq (by rw [Int.sub_sub_self])
    · rw [Int.sub_sub_self]
      rintro ⟨b, hfirst, hsecond⟩
      obtain ⟨hlt, -⟩ := List.getElem?_eq_some_iff.1 hfirst
      obtain ⟨hlt', -⟩ := List.getElem?_eq_some_iff.1 hsecond
      rw [List.size_toArray, List.size_toArray] at h
      omega

end TextOrigin

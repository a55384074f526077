import TextOrigin.Proofs.Alignment.EditDistance

/-!
Points on shortest paths. Going back along a shortest path leads to the corner through points at
every distance. The diagonals of these points are bounded by how soon the sides of the grid are
reached, which is why a search may leave out the diagonals of paths that left the grid.
-/

namespace TextOrigin

/-- A point on a shortest path from corner to corner. -/
structure OnPath (first second : Bytes) (x y : Int) : Prop where
  x_nonneg : 0 ≤ x
  y_nonneg : 0 ≤ y
  x_le : x ≤ first.length
  y_le : y ≤ second.length
  add_le : distanceTo first second x y + distanceFrom first second x y ≤ editDistance first second

variable {first second : Bytes} {x y : Int}

theorem distanceFrom_eq (hx : 0 ≤ x) (hy : 0 ≤ y) (hx' : x ≤ first.length)
    (hy' : y ≤ second.length) :
    distanceFrom first second x y = first.length - x + (second.length - y) -
      2 * lcsLength (first.drop x.toNat) (second.drop y.toNat) := by
  have hfirst : first.reverse.take (first.length - x).toNat = (first.drop x.toNat).reverse := by
    rw [List.take_reverse]
    congr 2
    omega
  have hsecond : second.reverse.take (second.length - y).toNat = (second.drop y.toNat).reverse := by
    rw [List.take_reverse]
    congr 2
    omega
  rw [distanceFrom, distanceTo, hfirst, hsecond, lcsLength_reverse]

theorem editDistance_le_add (hx : 0 ≤ x) (hy : 0 ≤ y) (hx' : x ≤ first.length)
    (hy' : y ≤ second.length) :
    (editDistance first second : Int) ≤
      distanceTo first second x y + distanceFrom first second x y := by
  have hsplit := add_lcsLength_le (first.take x.toNat) (first.drop x.toNat)
    (second.take y.toNat) (second.drop y.toNat)
  rw [List.take_append_drop, List.take_append_drop] at hsplit
  have hadd := editDistance_add first second
  rw [distanceFrom_eq hx hy hx' hy', distanceTo]
  omega

theorem agree_reverse (hx : 0 ≤ x) (hy : 0 ≤ y) (h : Agree first second x y) :
    Agree first.reverse second.reverse (first.length - (x + 1)) (second.length - (y + 1)) := by
  obtain ⟨b, hfirst, hsecond⟩ := h
  obtain ⟨hltx, -⟩ := List.getElem?_eq_some_iff.1 hfirst
  obtain ⟨hlty, -⟩ := List.getElem?_eq_some_iff.1 hsecond
  have hindexx : first.length - 1 - (first.length - (x + 1)).toNat = x.toNat := by omega
  have hindexy : second.length - 1 - (second.length - (y + 1)).toNat = y.toNat := by omega
  refine ⟨b, ?_, ?_⟩
  · rw [List.getElem?_reverse (by omega), hindexx, hfirst]
  · rw [List.getElem?_reverse (by omega), hindexy, hsecond]

namespace OnPath

theorem add_eq (h : OnPath first second x y) :
    distanceTo first second x y + distanceFrom first second x y = editDistance first second :=
  Int.le_antisymm h.add_le (editDistance_le_add h.x_nonneg h.y_nonneg h.x_le h.y_le)

theorem lcsLength_add (h : OnPath first second x y) :
    lcsLength (first.take x.toNat) (second.take y.toNat) +
      lcsLength (first.drop x.toNat) (second.drop y.toNat) = lcsLength first second := by
  have hadd := h.add_eq
  have htotal := editDistance_add first second
  rw [distanceFrom_eq h.x_nonneg h.y_nonneg h.x_le h.y_le, distanceTo] at hadd
  omega

theorem corner (first second : Bytes) : OnPath first second first.length second.length where
  x_nonneg := by omega
  y_nonneg := by omega
  x_le := Int.le_refl _
  y_le := Int.le_refl _
  add_le := by
    rw [distanceTo_corner, distanceFrom, Int.sub_self, Int.sub_self, distanceTo_zero_left]
    omega

theorem swap (h : OnPath first second x y) : OnPath second first y x where
  x_nonneg := h.y_nonneg
  y_nonneg := h.x_nonneg
  x_le := h.y_le
  y_le := h.x_le
  add_le := by
    have hle := h.add_le
    rw [distanceFrom] at hle ⊢
    rwa [distanceTo_comm, distanceTo_comm second.reverse, editDistance_comm]

theorem reverse (h : OnPath first second x y) :
    OnPath first.reverse second.reverse (first.length - x) (second.length - y) := by
  obtain ⟨hx, hy, hx', hy', hle⟩ := h
  refine ⟨by omega, by omega, ?_, ?_, ?_⟩
  · rw [List.length_reverse]
    omega
  · rw [List.length_reverse]
    omega
  · rw [distanceFrom, List.length_reverse, List.length_reverse, List.reverse_reverse,
      List.reverse_reverse, editDistance_reverse, Int.sub_sub_self, Int.sub_sub_self]
    rw [distanceFrom] at hle
    omega

theorem pred (h : OnPath first second x y) :
    (x = 0 ∧ y = 0) ∨
    (OnPath first second (x - 1) (y - 1) ∧ Agree first second (x - 1) (y - 1) ∧
      distanceTo first second (x - 1) (y - 1) = distanceTo first second x y) ∨
    (OnPath first second (x - 1) y ∧
      distanceTo first second (x - 1) y + 1 = distanceTo first second x y) ∨
    (OnPath first second x (y - 1) ∧
      distanceTo first second x (y - 1) + 1 = distanceTo first second x y) := by
  obtain ⟨hx, hy, hx', hy', hle⟩ := h
  rw [distanceFrom] at hle
  rcases distanceTo_pred hx hy hx' hy' with hzero | ⟨hposx, hposy, hagree, hsame⟩ |
    ⟨hpos, hless⟩ | ⟨hpos, hless⟩
  · exact .inl hzero
  · refine .inr (.inl ⟨⟨by omega, by omega, by omega, by omega, ?_⟩, hagree, hsame⟩)
    have hback := distanceTo_of_agree (by omega) (by omega)
      (agree_reverse (by omega) (by omega) hagree)
    have hcastx : (first.length : Int) - (x - 1 + 1) + 1 = first.length - (x - 1) := by omega
    have hcasty : (second.length : Int) - (y - 1 + 1) + 1 = second.length - (y - 1) := by omega
    rw [hcastx, hcasty, Int.sub_add_cancel, Int.sub_add_cancel] at hback
    rw [distanceFrom, hback, hsame]
    exact hle
  · refine .inr (.inr (.inl ⟨⟨by omega, hy, by omega, hy', ?_⟩, hless⟩))
    have hback := distanceTo_le_add first.reverse second.reverse
      (by omega : (first.length : Int) - x ≤ first.length - (x - 1))
      (Int.le_refl (second.length - y))
    rw [distanceFrom]
    omega
  · refine .inr (.inr (.inr ⟨⟨hx, by omega, hx', by omega, ?_⟩, hless⟩))
    have hback := distanceTo_le_add first.reverse second.reverse
      (Int.le_refl (first.length - x))
      (by omega : (second.length : Int) - y ≤ second.length - (y - 1))
    rw [distanceFrom]
    omega

theorem exists_of_le {first second : Bytes} {x y d : Int} (h : OnPath first second x y) (hd : 0 ≤ d)
    (hle : d ≤ distanceTo first second x y) :
    ∃ x' y', OnPath first second x' y' ∧ distanceTo first second x' y' = d := by
  by_cases heq : distanceTo first second x y = d
  · exact ⟨x, y, h, heq⟩
  · rcases h.pred with ⟨rfl, rfl⟩ | ⟨hprev, -, hsame⟩ | ⟨hprev, hless⟩ | ⟨hprev, hless⟩
    · rw [distanceTo_zero_left] at hle heq
      omega
    · exact hprev.exists_of_le hd (by omega)
    · exact hprev.exists_of_le hd (by omega)
    · exact hprev.exists_of_le hd (by omega)
termination_by (x + y).toNat
decreasing_by
  all_goals
    have := hprev.x_nonneg
    have := hprev.y_nonneg
    omega

theorem exists_distanceTo_eq (first second : Bytes) {d : Int} (hd : 0 ≤ d)
    (hle : d ≤ editDistance first second) :
    ∃ x y, OnPath first second x y ∧ distanceTo first second x y = d :=
  (corner first second).exists_of_le hd (by rwa [distanceTo_corner])

theorem distanceTo_le (h : OnPath first second x y) :
    distanceTo first second x y ≤ editDistance first second := by
  have hfrom := distanceTo_nonneg first.reverse second.reverse
    (Int.sub_nonneg_of_le h.x_le) (Int.sub_nonneg_of_le h.y_le)
  have hadd := h.add_eq
  rw [distanceFrom] at hadd
  omega

theorem diagonal_lt (h : OnPath first second x y) {x' y' : Int} (hx : first.length < x')
    (hle : distanceTo first second x' y' ≤ distanceTo first second x y) : x - y < x' - y' := by
  have hbeyond := distanceTo_beyond_right first second y' (by omega : first.length ≤ x')
  have hadd := h.add_eq
  have hback := sub_le_distanceTo' first.reverse second.reverse
    (y := second.length - y) (Int.sub_nonneg_of_le h.x_le)
  rw [distanceFrom] at hadd
  by_cases hy : y' ≤ second.length
  · have hdown := distanceTo_le_add first second (Int.le_refl first.length) hy
    rw [distanceTo_corner] at hdown
    omega
  · have hcorner := distanceTo_beyond_bottom first second first.length
      (by omega : second.length ≤ y')
    have htotal := h.distanceTo_le
    rw [distanceTo_corner] at hcorner
    omega

theorem lt_diagonal (h : OnPath first second x y) {x' y' : Int} (hy : second.length < y')
    (hle : distanceTo first second x' y' ≤ distanceTo first second x y) : x' - y' < x - y := by
  rw [distanceTo_comm, distanceTo_comm first] at hle
  have hlt := h.swap.diagonal_lt hy hle
  omega

theorem onGrid (h : OnPath first second x y) {x' y' : Int} (hsame : x' - y' = x - y)
    (hle : distanceTo first second x' y' ≤ distanceTo first second x y) :
    x' ≤ first.length ∧ y' ≤ second.length := by
  refine ⟨Int.not_lt.1 fun hx => ?_, Int.not_lt.1 fun hy => ?_⟩
  · have hlt := h.diagonal_lt hx hle
    omega
  · have hlt := h.lt_diagonal hy hle
    omega

end OnPath

end TextOrigin

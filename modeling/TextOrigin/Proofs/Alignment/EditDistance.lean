import TextOrigin.Proofs.Alignment.Subsequence

/-!
Distances in the edit grid of two texts. A point is as far from the corner as the beginnings that it
stands for need deletions and insertions. Moving right or down changes the distance by one, moving
along a diagonal never lessens it and keeps it where the texts agree. Beyond the grid every move
counts. A point lies on a shortest path if its distances from both corners add up to the distance of
the texts.
-/

namespace TextOrigin

/-- Number of bytes that are deleted or inserted, at the least, to turn one text into another. -/
def editDistance (first second : Bytes) : Nat :=
  first.length + second.length - 2 * lcsLength first second

theorem editDistance_add (first second : Bytes) :
    editDistance first second + 2 * lcsLength first second = first.length + second.length := by
  have hleft := lcsLength_le_left first second
  have hright := lcsLength_le_right first second
  rw [editDistance]
  omega

theorem editDistance_comm (first second : Bytes) :
    editDistance first second = editDistance second first := by
  rw [editDistance, editDistance, lcsLength_comm, Nat.add_comm]

theorem editDistance_reverse (first second : Bytes) :
    editDistance first.reverse second.reverse = editDistance first second := by
  rw [editDistance, lcsLength_reverse, List.length_reverse, List.length_reverse, editDistance]

theorem lcsLength_take_succ_left_le (first second : Bytes) (x : Nat) :
    lcsLength (first.take (x + 1)) second ≤ lcsLength (first.take x) second + 1 := by
  rw [List.take_add_one]
  cases first[x]? with
  | none => simp
  | some b => exact lcsLength_snoc_le _ _ b

theorem lcsLength_take_succ_right_le (first second : Bytes) (y : Nat) :
    lcsLength first (second.take (y + 1)) ≤ lcsLength first (second.take y) + 1 := by
  rw [lcsLength_comm, lcsLength_comm first (second.take y)]
  exact lcsLength_take_succ_left_le second first y

theorem lcsLength_take_succ_succ_le (first second : Bytes) (x y : Nat) :
    lcsLength (first.take (x + 1)) (second.take (y + 1)) ≤
      lcsLength (first.take x) (second.take y) + 1 := by
  cases hx : first[x]? with
  | none =>
    rw [List.take_add_one, hx, Option.toList_none, List.append_nil]
    exact lcsLength_take_succ_right_le _ _ _
  | some b =>
    cases hy : second[y]? with
    | none =>
      rw [List.take_add_one (l := second), hy, Option.toList_none, List.append_nil]
      exact lcsLength_take_succ_left_le _ _ _
    | some c =>
      rw [List.take_add_one, List.take_add_one, hx, hy]
      exact lcsLength_snoc_snoc_le _ _ b c

theorem lcsLength_take_mono (first second : Bytes) {x x' y y' : Nat} (hx : x ≤ x') (hy : y ≤ y') :
    lcsLength (first.take x) (second.take y) ≤ lcsLength (first.take x') (second.take y') :=
  lcsLength_mono (List.take_sublist_take_left hx) (List.take_sublist_take_left hy)

def Agree (first second : Bytes) (x y : Int) : Prop :=
  ∃ b, first[x.toNat]? = some b ∧ second[y.toNat]? = some b

/-- Moves from the corner to a point. -/
def distanceTo (first second : Bytes) (x y : Int) : Int :=
  x + y - 2 * lcsLength (first.take x.toNat) (second.take y.toNat)

def distanceFrom (first second : Bytes) (x y : Int) : Int :=
  distanceTo first.reverse second.reverse (first.length - x) (second.length - y)

section Distance

variable (first second : Bytes) {x y u v : Int}

theorem distanceTo_comm (x y : Int) :
    distanceTo first second x y = distanceTo second first y x := by
  rw [distanceTo, distanceTo, lcsLength_comm, Int.add_comm]

theorem distanceTo_corner :
    distanceTo first second first.length second.length = editDistance first second := by
  have hadd := editDistance_add first second
  rw [distanceTo, Int.toNat_natCast, Int.toNat_natCast, List.take_length, List.take_length]
  omega

theorem distanceTo_emod_two : (distanceTo first second x y - (x + y)) % 2 = 0 := by
  rw [distanceTo]
  omega

theorem sub_le_distanceTo (hy : 0 ≤ y) : x - y ≤ distanceTo first second x y := by
  have hle := lcsLength_le_right (first.take x.toNat) (second.take y.toNat)
  rw [List.length_take] at hle
  rw [distanceTo]
  omega

theorem sub_le_distanceTo' (hx : 0 ≤ x) : y - x ≤ distanceTo first second x y := by
  rw [distanceTo_comm]
  exact sub_le_distanceTo second first hx

theorem distanceTo_nonneg (hx : 0 ≤ x) (hy : 0 ≤ y) : 0 ≤ distanceTo first second x y := by
  have hle := @sub_le_distanceTo first second x y hy
  have hle' := @sub_le_distanceTo' first second x y hx
  omega

theorem distanceTo_zero_left (y : Int) : distanceTo first second 0 y = y := by
  rw [distanceTo, Int.toNat_zero, List.take_zero, lcsLength_nil_left]
  omega

theorem distanceTo_zero_right (x : Int) : distanceTo first second x 0 = x := by
  rw [distanceTo_comm, distanceTo_zero_left]

theorem distanceTo_le_add (hx : x ≤ u) (hy : y ≤ v) :
    distanceTo first second u v ≤ distanceTo first second x y + (u - x) + (v - y) := by
  have hle := lcsLength_take_mono first second (Int.toNat_le_toNat hx) (Int.toNat_le_toNat hy)
  rw [distanceTo, distanceTo]
  omega

theorem distanceTo_le_succ (hx : 0 ≤ x) (hy : 0 ≤ y) :
    distanceTo first second x y ≤ distanceTo first second (x + 1) (y + 1) := by
  have hle := lcsLength_take_succ_succ_le first second x.toNat y.toNat
  rw [distanceTo, distanceTo, Int.toNat_add hx Int.one_nonneg, Int.toNat_add hy Int.one_nonneg]
  simp only [Int.toNat_one]
  omega

theorem distanceTo_le_diagonal (hx : 0 ≤ x) (hy : 0 ≤ y) (hle : x ≤ u) (hsame : u - v = x - y) :
    distanceTo first second x y ≤ distanceTo first second u v := by
  obtain ⟨t, rfl⟩ : ∃ t : Nat, u = x + t := ⟨(u - x).toNat, by omega⟩
  obtain rfl : v = y + t := by omega
  induction t with
  | zero => simp
  | succ t ih =>
    have hstep := distanceTo_le_succ first second (x := x + t) (y := y + t) (by omega) (by omega)
    have hprev := ih (by omega) (by omega)
    rw [Int.add_assoc, Int.add_assoc] at hstep
    exact Int.le_trans hprev hstep

theorem distanceTo_beyond_right (y : Int) (hx : first.length ≤ x) :
    distanceTo first second x y = distanceTo first second first.length y + (x - first.length) := by
  rw [distanceTo, distanceTo, Int.toNat_natCast, List.take_length,
    List.take_of_length_le (by omega : first.length ≤ x.toNat)]
  omega

theorem distanceTo_beyond_bottom (x : Int) (hy : second.length ≤ y) :
    distanceTo first second x y =
      distanceTo first second x second.length + (y - second.length) := by
  rw [distanceTo_comm, distanceTo_beyond_right second first x hy, distanceTo_comm]

variable {first second}

theorem distanceTo_of_agree (hx : 0 ≤ x) (hy : 0 ≤ y) (h : Agree first second x y) :
    distanceTo first second (x + 1) (y + 1) = distanceTo first second x y := by
  obtain ⟨b, hfirst, hsecond⟩ := h
  have hself := lcsLength_snoc_self (first.take x.toNat) (second.take y.toNat) b
  rw [distanceTo, distanceTo, Int.toNat_add hx Int.one_nonneg, Int.toNat_add hy Int.one_nonneg]
  simp only [Int.toNat_one]
  rw [List.take_add_one, List.take_add_one, hfirst, hsecond, Option.toList_some, hself]
  omega

theorem distanceTo_pred (hx : 0 ≤ x) (hy : 0 ≤ y) (hx' : x ≤ first.length)
    (hy' : y ≤ second.length) :
    (x = 0 ∧ y = 0) ∨
    (0 < x ∧ 0 < y ∧ Agree first second (x - 1) (y - 1) ∧
      distanceTo first second (x - 1) (y - 1) = distanceTo first second x y) ∨
    (0 < x ∧ distanceTo first second (x - 1) y + 1 = distanceTo first second x y) ∨
    (0 < y ∧ distanceTo first second x (y - 1) + 1 = distanceTo first second x y) := by
  obtain ⟨x, rfl⟩ := Int.eq_ofNat_of_zero_le hx
  obtain ⟨y, rfl⟩ := Int.eq_ofNat_of_zero_le hy
  cases x with
  | zero =>
    cases y with
    | zero => exact .inl ⟨rfl, rfl⟩
    | succ y =>
      have hprev := distanceTo_zero_left first second ((y + 1 : Nat) - 1)
      have hlast := distanceTo_zero_left first second (y + 1 : Nat)
      exact .inr (.inr (.inr ⟨by omega, by simp only [Int.natCast_zero] at *; omega⟩))
  | succ x =>
    cases y with
    | zero =>
      have hprev := distanceTo_zero_right first second ((x + 1 : Nat) - 1)
      have hlast := distanceTo_zero_right first second (x + 1 : Nat)
      exact .inr (.inr (.inl ⟨by omega, by simp only [Int.natCast_zero] at *; omega⟩))
    | succ y =>
      right
      have hfirst : first[x]? = some first[x] := List.getElem?_eq_getElem (by omega)
      have hsecond : second[y]? = some second[y] := List.getElem?_eq_getElem (by omega)
      have hcastx : ((x + 1 : Nat) : Int) - 1 = x := by omega
      have hcasty : ((y + 1 : Nat) : Int) - 1 = y := by omega
      rw [hcastx, hcasty]
      by_cases hagree : first[x] = second[y]
      · have hmatch : Agree first second x y := ⟨first[x], hfirst, by rw [hagree]; exact hsecond⟩
        exact .inl ⟨by omega, by omega, hmatch,
          (distanceTo_of_agree (by omega) (by omega) hmatch).symm⟩
      · right
        have hmax := lcsLength_snoc_of_ne (first.take x) (second.take y) _ _ hagree
        have hsnocx : first.take x ++ [first[x]] = first.take (x + 1) := by
          rw [List.take_add_one, hfirst, Option.toList_some]
        have hsnocy : second.take y ++ [second[y]] = second.take (y + 1) := by
          rw [List.take_add_one, hsecond, Option.toList_some]
        rw [hsnocx, hsnocy] at hmax
        simp only [distanceTo, Int.toNat_natCast, hmax]
        omega

end Distance

end TextOrigin

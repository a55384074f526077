/-!
Binary search for a boundary. `partitionPoint p xs` halves the list until one element is left and
counts the elements before the first one that fails `p`. It is exact whenever the elements that
satisfy `p` come before all others, and stays within the list in any case.
-/

namespace TextOrigin

/-- Position of the first element that fails `p`, found by halving: the middle element decides
which half is searched next. -/
def partitionPoint {α : Type} (p : α → Bool) (xs : List α) : Nat :=
  match h : xs.drop (xs.length / 2) with
  | [] => 0
  | x :: right =>
    if p x then xs.length / 2 + 1 + partitionPoint p right
    else partitionPoint p (xs.take (xs.length / 2))
termination_by xs.length
decreasing_by
  all_goals
    have hlen := congrArg List.length h
    simp only [List.length_drop, List.length_cons] at hlen
    try rw [List.length_take]
    omega

theorem partitionPoint_le_length {α : Type} (p : α → Bool) (xs : List α) :
    partitionPoint p xs ≤ xs.length := by
  fun_induction partitionPoint p xs with
  | case1 xs h => omega
  | case2 xs x right h hx ih =>
    have hlen := congrArg List.length h
    simp only [List.length_drop, List.length_cons] at hlen
    omega
  | case3 xs x right h hx ih =>
    rw [List.length_take] at ih
    omega

theorem partitionPoint_eq {α : Type} (p : α → Bool) (xs : List α) :
    partitionPoint p xs =
      match xs.drop (xs.length / 2) with
      | [] => 0
      | x :: right =>
        if p x then xs.length / 2 + 1 + partitionPoint p right
        else partitionPoint p (xs.take (xs.length / 2)) := by
  rw [partitionPoint]
  split <;> simp [*]

theorem partitionPoint_map {α β : Type} (p : β → Bool) (f : α → β) (xs : List α) :
    partitionPoint p (xs.map f) = partitionPoint (fun x => p (f x)) xs := by
  fun_induction partitionPoint (fun x => p (f x)) xs with
  | case1 xs hdrop =>
    rw [partitionPoint_eq, List.length_map, ← List.map_drop, hdrop, List.map_nil]
  | case2 xs x right hdrop hx ih =>
    rw [partitionPoint_eq, List.length_map, ← List.map_drop, hdrop, List.map_cons]
    simp only [hx, if_true, ih]
  | case3 xs x right hdrop hx ih =>
    rw [partitionPoint_eq, List.length_map, ← List.map_drop, hdrop, List.map_cons,
      ← List.map_take]
    exact (if_neg hx).trans ih

theorem partitionPoint_eq_succ {α : Type} {p : α → Bool} {xs : List α} {n : Nat}
    (h : partitionPoint p xs = n + 1) : ∃ x, xs[n]? = some x ∧ p x = true := by
  fun_induction partitionPoint p xs generalizing n with
  | case1 xs hdrop => omega
  | case2 xs x right hdrop hx ih =>
    have hright : ∀ k, xs[xs.length / 2 + k]? = (x :: right)[k]? := fun k => by
      rw [← hdrop, List.getElem?_drop]
    cases hcount : partitionPoint p right with
    | zero =>
      obtain rfl : n = xs.length / 2 := by omega
      exact ⟨x, hright 0, hx⟩
    | succ k =>
      obtain ⟨y, hy, hpy⟩ := ih hcount
      obtain rfl : n = xs.length / 2 + (k + 1) := by omega
      exact ⟨y, (hright (k + 1)).trans hy, hpy⟩
  | case3 xs x right hdrop hx ih =>
    obtain ⟨y, hy, hpy⟩ := ih h
    rw [List.getElem?_take] at hy
    split at hy
    · exact ⟨y, hy, hpy⟩
    · contradiction

theorem partitionPoint_append {α : Type} (p : α → Bool) (xs ys : List α)
    (hxs : ∀ x ∈ xs, p x = true) (hys : ∀ y ∈ ys, p y = false) :
    partitionPoint p (xs ++ ys) = xs.length := by
  generalize hzs : xs ++ ys = zs
  fun_induction partitionPoint p zs generalizing xs ys with
  | case1 zs h =>
    have hlen := congrArg List.length h
    have hlen' := congrArg List.length hzs
    simp only [List.length_drop, List.length_nil, List.length_append] at hlen hlen'
    omega
  | case2 zs x right h hx ih =>
    have hmid : zs[zs.length / 2]? = some x := by
      rw [← List.head?_drop, h, List.head?_cons]
    have hlt : zs.length / 2 < xs.length := by
      refine Nat.lt_of_not_le fun hle => ?_
      rw [← hzs, List.getElem?_append_right (by rw [hzs]; exact hle)] at hmid
      exact absurd hx (by simp [hys x (List.mem_of_getElem? hmid)])
    have hright : right = xs.drop (zs.length / 2 + 1) ++ ys := by
      have h' := congrArg List.tail h
      rw [List.tail_drop, List.tail_cons] at h'
      rw [← h', ← hzs, List.drop_append_of_le_length (by rw [hzs]; omega)]
    have hcount := ih (xs.drop (zs.length / 2 + 1)) ys
      (fun z hz => hxs z (List.mem_of_mem_drop hz)) hys hright.symm
    rw [hcount, List.length_drop]
    omega
  | case3 zs x right h hx ih =>
    have hmid : zs[zs.length / 2]? = some x := by
      rw [← List.head?_drop, h, List.head?_cons]
    have hle : xs.length ≤ zs.length / 2 := by
      refine Nat.le_of_not_lt fun hlt => hx ?_
      rw [← hzs, List.getElem?_append_left (by rw [hzs]; exact hlt)] at hmid
      exact hxs x (List.mem_of_getElem? hmid)
    refine ih xs (ys.take (zs.length / 2 - xs.length)) hxs
      (fun z hz => hys z (List.mem_of_mem_take hz)) ?_
    have htake : ∀ k, xs.length ≤ k → (xs ++ ys).take k = xs ++ ys.take (k - xs.length) :=
      fun k hk => by rw [List.take_append, List.take_of_length_le hk]
    rw [hzs] at htake
    exact (htake _ hle).symm

theorem exists_cut {α : Type} {p : α → Bool} {xs : List α}
    (h : xs.Pairwise fun x y => p y = true → p x = true) :
    ∃ before after, xs = before ++ after ∧ (∀ x ∈ before, p x = true) ∧
      ∀ y ∈ after, p y = false := by
  induction xs with
  | nil => exact ⟨[], [], rfl, by simp, by simp⟩
  | cons x rest ih =>
    cases hx : p x with
    | true =>
      obtain ⟨before, after, rfl, hbefore, hafter⟩ := ih h.of_cons
      exact ⟨x :: before, after, rfl, List.forall_mem_cons.2 ⟨hx, hbefore⟩, hafter⟩
    | false =>
      have hrest : ∀ y ∈ rest, p y = false := by
        intro y hy
        apply Bool.eq_false_iff.2
        intro hpy
        simp [List.rel_of_pairwise_cons h hy hpy] at hx
      exact ⟨[], x :: rest, rfl, by simp, List.forall_mem_cons.2 ⟨hx, hrest⟩⟩

/-- The position found separates what satisfies `p` from what does not. -/
theorem lt_partitionPoint_iff {α : Type} {p : α → Bool} {xs : List α}
    (h : xs.Pairwise fun x y => p y = true → p x = true) {i : Nat} {x : α}
    (hx : xs[i]? = some x) : i < partitionPoint p xs ↔ p x = true := by
  obtain ⟨before, after, rfl, hbefore, hafter⟩ := exists_cut h
  rw [partitionPoint_append p before after hbefore hafter]
  by_cases hi : i < before.length
  · rw [List.getElem?_append_left hi] at hx
    exact iff_of_true hi (hbefore x (List.mem_of_getElem? hx))
  · rw [List.getElem?_append_right (Nat.le_of_not_lt hi)] at hx
    simp [hi, hafter x (List.mem_of_getElem? hx)]

end TextOrigin

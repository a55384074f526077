import TextOrigin.Bytes

/-!
Longest common subsequences. Their length is defined by recursion from the front of both texts. It
is the greatest length of a common subsequence, so it does not depend on the end from which it is
counted, and it grows by at most one with every byte of either text.
-/

namespace TextOrigin

/-- Length of a longest common subsequence. -/
def lcsLength : Bytes → Bytes → Nat
  | [], _ => 0
  | _ :: _, [] => 0
  | b :: first, c :: second =>
    if b = c then lcsLength first second + 1
    else max (lcsLength first (c :: second)) (lcsLength (b :: first) second)
termination_by first second => first.length + second.length

theorem exists_sublist_lcsLength (first second : Bytes) :
    ∃ common : Bytes, common.Sublist first ∧ common.Sublist second ∧
      common.length = lcsLength first second := by
  fun_induction lcsLength first second with
  | case1 second => exact ⟨[], List.nil_sublist _, List.nil_sublist _, rfl⟩
  | case2 b first => exact ⟨[], List.nil_sublist _, List.nil_sublist _, rfl⟩
  | case3 first b second ih =>
    obtain ⟨common, hfirst, hsecond, hlength⟩ := ih
    exact ⟨b :: common, hfirst.cons_cons b, hsecond.cons_cons b, by rw [List.length_cons, hlength]⟩
  | case4 b first c second hne ihfirst ihsecond =>
    rcases Nat.le_total (lcsLength first (c :: second)) (lcsLength (b :: first) second) with h | h
    · obtain ⟨common, hfirst, hsecond, hlength⟩ := ihsecond
      exact ⟨common, hfirst, hsecond.cons c, by rw [hlength, Nat.max_eq_right h]⟩
    · obtain ⟨common, hfirst, hsecond, hlength⟩ := ihfirst
      exact ⟨common, hfirst.cons b, hsecond, by rw [hlength, Nat.max_eq_left h]⟩

theorem length_le_lcsLength {first second common : Bytes} (hfirst : common.Sublist first)
    (hsecond : common.Sublist second) : common.length ≤ lcsLength first second := by
  fun_induction lcsLength first second generalizing common with
  | case1 second => simp [List.sublist_nil.1 hfirst]
  | case2 b first => simp [List.sublist_nil.1 hsecond]
  | case3 first b second ih =>
    have htail := ih hfirst.tail hsecond.tail
    rw [List.length_tail] at htail
    omega
  | case4 b first c second hne ihfirst ihsecond =>
    -- a common subsequence leaves out one of two different heads
    rcases List.sublist_cons_iff.1 hfirst with hskip | ⟨rest, rfl, -⟩
    · exact Nat.le_trans (ihfirst hskip hsecond) (Nat.le_max_left _ _)
    · rcases List.sublist_cons_iff.1 hsecond with hskip | ⟨rest', heq, -⟩
      · exact Nat.le_trans (ihsecond hfirst hskip) (Nat.le_max_right _ _)
      · exact absurd (List.cons.inj heq).1 hne

theorem lcsLength_le {first second : Bytes} {n : Nat}
    (h : ∀ common : Bytes, common.Sublist first → common.Sublist second → common.length ≤ n) :
    lcsLength first second ≤ n := by
  obtain ⟨common, hfirst, hsecond, hlength⟩ := exists_sublist_lcsLength first second
  exact hlength ▸ h common hfirst hsecond

theorem lcsLength_mono {first first' second second' : Bytes} (hfirst : first.Sublist first')
    (hsecond : second.Sublist second') : lcsLength first second ≤ lcsLength first' second' :=
  lcsLength_le fun _ h h' => length_le_lcsLength (h.trans hfirst) (h'.trans hsecond)

theorem lcsLength_comm (first second : Bytes) :
    lcsLength first second = lcsLength second first :=
  Nat.le_antisymm (lcsLength_le fun _ h h' => length_le_lcsLength h' h)
    (lcsLength_le fun _ h h' => length_le_lcsLength h' h)

theorem lcsLength_le_left (first second : Bytes) : lcsLength first second ≤ first.length :=
  lcsLength_le fun _ h _ => h.length_le

theorem lcsLength_le_right (first second : Bytes) : lcsLength first second ≤ second.length :=
  lcsLength_le fun _ _ h => h.length_le

theorem lcsLength_nil_left (second : Bytes) : lcsLength [] second = 0 :=
  Nat.le_zero.1 (lcsLength_le_left [] second)

theorem lcsLength_nil_right (first : Bytes) : lcsLength first [] = 0 :=
  Nat.le_zero.1 (lcsLength_le_right first [])

theorem lcsLength_reverse (first second : Bytes) :
    lcsLength first.reverse second.reverse = lcsLength first second := by
  refine Nat.le_antisymm (lcsLength_le fun common h h' => ?_) (lcsLength_le fun common h h' => ?_)
  · have hle := length_le_lcsLength (List.reverse_reverse first ▸ h.reverse)
      (List.reverse_reverse second ▸ h'.reverse)
    rwa [List.length_reverse] at hle
  · have hle := length_le_lcsLength h.reverse h'.reverse
    rwa [List.length_reverse] at hle

theorem add_lcsLength_le (first first' second second' : Bytes) :
    lcsLength first second + lcsLength first' second' ≤
      lcsLength (first ++ first') (second ++ second') := by
  obtain ⟨common, h, h', hlength⟩ := exists_sublist_lcsLength first second
  obtain ⟨common', k, k', hlength'⟩ := exists_sublist_lcsLength first' second'
  have hle := length_le_lcsLength (h.append k) (h'.append k')
  rwa [List.length_append, hlength, hlength'] at hle

theorem lcsLength_append_left (common first second : Bytes) :
    lcsLength (common ++ first) (common ++ second) = common.length + lcsLength first second := by
  induction common with
  | nil => simp
  | cons b rest ih =>
    rw [List.cons_append, List.cons_append, lcsLength, if_pos rfl, ih, List.length_cons]
    omega

theorem lcsLength_append_right (common first second : Bytes) :
    lcsLength (first ++ common) (second ++ common) = common.length + lcsLength first second := by
  rw [← lcsLength_reverse, List.reverse_append, List.reverse_append, lcsLength_append_left,
    lcsLength_reverse, List.length_reverse]

theorem lcsLength_cons_le (b : UInt8) (first second : Bytes) :
    lcsLength (b :: first) second ≤ lcsLength first second + 1 := by
  refine lcsLength_le fun common h h' => ?_
  have hle := length_le_lcsLength h.tail ((List.tail_sublist common).trans h')
  rw [List.length_tail, List.tail_cons] at hle
  omega

theorem lcsLength_cons_cons_le (b c : UInt8) (first second : Bytes) :
    lcsLength (b :: first) (c :: second) ≤ lcsLength first second + 1 := by
  refine lcsLength_le fun common h h' => ?_
  have hle := length_le_lcsLength h.tail h'.tail
  rw [List.length_tail, List.tail_cons, List.tail_cons] at hle
  omega

section Snoc

variable (first second : Bytes) (b c : UInt8)

theorem lcsLength_snoc_le : lcsLength (first ++ [b]) second ≤ lcsLength first second + 1 := by
  have hle := lcsLength_cons_le b first.reverse second.reverse
  rwa [lcsLength_reverse, ← List.reverse_concat, lcsLength_reverse] at hle

theorem lcsLength_snoc_snoc_le :
    lcsLength (first ++ [b]) (second ++ [c]) ≤ lcsLength first second + 1 := by
  have hle := lcsLength_cons_cons_le b c first.reverse second.reverse
  rwa [lcsLength_reverse, ← List.reverse_concat, ← List.reverse_concat, lcsLength_reverse] at hle

theorem lcsLength_snoc_self :
    lcsLength (first ++ [b]) (second ++ [b]) = lcsLength first second + 1 := by
  rw [lcsLength_append_right, List.length_singleton, Nat.add_comm]

theorem lcsLength_snoc_of_ne (h : b ≠ c) :
    lcsLength (first ++ [b]) (second ++ [c]) =
      max (lcsLength first (second ++ [c])) (lcsLength (first ++ [b]) second) := by
  have hcons : lcsLength (b :: first.reverse) (c :: second.reverse) =
      max (lcsLength first.reverse (c :: second.reverse))
        (lcsLength (b :: first.reverse) second.reverse) := by
    rw [lcsLength, if_neg h]
  rwa [← List.reverse_concat, ← List.reverse_concat, lcsLength_reverse, lcsLength_reverse,
    lcsLength_reverse] at hcons

end Snoc

end TextOrigin

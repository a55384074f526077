import TextOrigin.Proofs.Alignment.Sweep

/-!
What a search finds. While the frontiers have not met, the texts are more edits apart than both
have moved. They meet as soon as the moves of both add up to the edit distance, at a point halfway
on a shortest path. A limit does not change this unless it is less than the distance. It is looked
at after a round only, when the second frontier has moved as well, so an even distance that is one
more than the limit is still found.
-/

namespace TextOrigin

namespace Meets

variable {first second : Bytes} {d : Nat} {opposite : Frontier} {k own other : Int}

theorem other_ge (h : Meets first second d opposite k own other) (hge : ∀ j, -1 ≤ opposite.cell j) :
    0 ≤ other ∧ first.length - second.length - k ≤ other := by
  have hcell := hge (first.length - second.length - k)
  rw [h.other_eq] at hcell
  have hne := h.other_ne
  have hoverlap := h.overlap
  have hle := h.own_sub_le
  omega

variable {e : Nat} (h : Meets first second d opposite k own other)
  (htracks : Tracks first.reverse second.reverse e opposite)

include h htracks

theorem distanceTo_other_lt :
    distanceTo first.reverse second.reverse other
      (other - (first.length - second.length - k)) < e := by
  obtain ⟨hpos, hle⟩ := h.other_ge htracks.cell_ge
  have hsound := htracks.sound (first.length - second.length - k)
  rw [h.other_eq] at hsound
  exact hsound hpos hle

theorem distanceFrom_own_lt : distanceFrom first second own (own - k) < e := by
  -- Both frontiers are on one diagonal, and each got past where the other one is.
  have hown := h.own_le
  have hown' := h.own_sub_le
  have hoverlap := h.overlap
  have hlt := h.distanceTo_other_lt htracks
  have hdiagonal := distanceTo_le_diagonal first.reverse second.reverse
    (x := first.length - own) (y := second.length - (own - k)) (u := other)
    (v := other - (first.length - second.length - k)) (by omega) (by omega) (by omega) (by omega)
  rw [distanceFrom]
  omega

theorem onPath (hlow : d + e ≤ editDistance first second + 1) :
    OnPath first second own (own - k) ∧ distanceTo first second own (own - k) = d ∧
      d + e = editDistance first second + 1 := by
  have hto := h.distance_le
  have hfrom := h.distanceFrom_own_lt htracks
  have htotal := editDistance_le_add h.own_nonneg h.own_sub_nonneg h.own_le h.own_sub_le
  exact ⟨⟨h.own_nonneg, h.own_sub_nonneg, h.own_le, h.own_sub_le, by omega⟩, by omega, by omega⟩

theorem onPath_other (hlow : d + e ≤ editDistance first second + 1) :
    OnPath first.reverse second.reverse other (other - (first.length - second.length - k)) ∧
      distanceTo first.reverse second.reverse other
        (other - (first.length - second.length - k)) + 1 = e := by
  obtain ⟨hpath, hdist, htotal⟩ := h.onPath htracks hlow
  obtain ⟨hpos, hle⟩ := h.other_ge htracks.cell_ge
  have hlt := h.distanceTo_other_lt htracks
  have hoverlap := h.overlap
  have hadd := hpath.add_eq
  rw [distanceFrom] at hadd
  have hgrid := hpath.reverse.onGrid
    (by omega : other - (other - (first.length - second.length - k)) =
      first.length - own - (second.length - (own - k))) (by omega)
  rw [List.length_reverse, List.length_reverse] at hgrid
  have hdiagonal := distanceTo_le_diagonal first second
    (x := first.length - other) (y := second.length - (other - (first.length - second.length - k)))
    (u := own) (v := own - k) (by omega) (by omega) (by omega) (by omega)
  have hback : distanceFrom first.reverse second.reverse other
      (other - (first.length - second.length - k)) ≤ d := by
    rw [distanceFrom, List.reverse_reverse, List.reverse_reverse, List.length_reverse,
      List.length_reverse]
    omega
  have hreverse := editDistance_reverse first second
  have hother : OnPath first.reverse second.reverse other
      (other - (first.length - second.length - k)) := by
    refine ⟨hpos, by omega, ?_, ?_, by omega⟩ <;> rw [List.length_reverse] <;> omega
  have hother_add := hother.add_eq
  exact ⟨hother, by omega⟩

end Meets

theorem Apart.ne {first second : Bytes} {d e : Nat} {opposite : Frontier}
    (h : Apart first second d opposite)
    (htracks : Tracks first.reverse second.reverse e opposite)
    (hd : d ≤ editDistance first second) : editDistance first second + 1 ≠ d + e := by
  intro htotal
  obtain ⟨x, y, hpath, hdist⟩ :=
    OnPath.exists_distanceTo_eq first second (d := d) (by omega) (by omega)
  have hadd := hpath.add_eq
  rw [distanceFrom] at hadd
  have hcomplete := htracks.complete hpath.reverse (by omega)
  have hlt := h x y hpath hdist
  rw [show (first.length : Int) - x - (second.length - y) =
    first.length - second.length - (x - y) by omega] at hcomplete
  omega

namespace EditGrid

theorem cut_eq_ok {first second : Bytes} {x y : Int} (h : OnPath first second x y)
    (hpos : 0 < distanceTo first second x y)
    (hlt : distanceTo first second x y < editDistance first second) :
    ∃ point, (ofTexts first second).cut x y = .ok (.cut point) ∧ (point.x : Int) = x ∧
      (point.y : Int) = y := by
  obtain ⟨hx, hy, hx', hy', -⟩ := h
  have hstart : 0 < x + y := by
    refine Decidable.byContradiction fun hle => ?_
    obtain rfl : x = 0 := by omega
    obtain rfl : y = 0 := by omega
    rw [distanceTo_zero_left] at hpos
    omega
  have hend : x + y < first.length + second.length := by
    refine Decidable.byContradiction fun hle => ?_
    obtain rfl : x = first.length := by omega
    obtain rfl : y = second.length := by omega
    rw [distanceTo_corner] at hlt
    omega
  refine ⟨⟨x.toNat, y.toNat, ?_, ?_, ?_, ?_⟩, ?_, ?_, ?_⟩
  · simp only [ofTexts, List.size_toArray]
    omega
  · simp only [ofTexts, List.size_toArray]
    omega
  · omega
  · simp only [ofTexts, List.size_toArray]
    omega
  · rw [EditGrid.cut, Cut.ofPoint, dif_pos (by simp only [ofTexts, List.size_toArray]; omega)]
  · exact Int.toNat_of_nonneg hx
  · exact Int.toNat_of_nonneg hy

end EditGrid

/-- The frontiers after `d` rounds that found no meeting. -/
structure Searching (first second : Bytes) (d : Nat) (forward backward : Frontier) : Prop where
  forward_tracks : Tracks first second d forward
  backward_tracks : Tracks first.reverse second.reverse d backward
  forward_spans : forward.Spans (EditGrid.ofTexts first second).reach
  backward_spans : backward.Spans (EditGrid.ofTexts first second).reach
  low : 2 * d ≤ editDistance first second + 1

theorem searching_start (first second : Bytes) :
    Searching first second 0 (Frontier.start (EditGrid.ofTexts first second).reach)
      (Frontier.start (EditGrid.ofTexts first second).reach) :=
  ⟨tracks_start _ _ _, tracks_start _ _ _, Frontier.spans_start _, Frontier.spans_start _,
    Nat.zero_le _⟩

section Round

variable {first second : Bytes} {d : Nat} {forward backward : Frontier}

/-- What a round comes to: a point on a shortest path, when the moves of both frontiers are as many
as it takes, or frontiers for the next round. -/
def EditGrid.Advances (first second : Bytes) (d : Nat) (forward backward : Frontier) : Prop :=
  (∃ point, OnPath first second point.x point.y ∧ editDistance first second ≤ 2 * d ∧ ∀ limit,
    (ofTexts first second).searchFrom limit d forward backward = .ok (.cut point)) ∨
  ∃ forward' backward', Searching first second (d + 1) forward' backward' ∧ ∀ limit,
    (ofTexts first second).searchFrom limit d forward backward =
      if limit ≠ 0 ∧ limit.toNat < 2 * d + 1 then .ok .overLimit
      else (ofTexts first second).searchFrom limit (d + 1) forward' backward'

theorem EditGrid.skew_ofTexts (first second : Bytes) :
    (ofTexts first second).skew = first.length - second.length := by
  simp [skew, ofTexts]

variable (h : Searching first second d forward backward)
  (hd : d < (EditGrid.ofTexts first second).reach) (hdist : 2 ≤ editDistance first second)

include h hd hdist

theorem Searching.advances_of_odd (hodd : (EditGrid.ofTexts first second).skew % 2 ≠ 0) :
    EditGrid.Advances first second d forward backward := by
  have hlow := h.low
  have htotal := editDistance_add first second
  have hskew := EditGrid.skew_ofTexts first second
  rcases h.forward_tracks.sweep h.forward_spans (Nat.le_of_lt hd) (by omega) (some backward) with
    ⟨opp, k, own, other, hopp, hmeets, hsweep⟩ | ⟨forward', htracks, hspans, hapart, hsweep⟩
  all_goals
    change TextOrigin.sweep (EditGrid.ofTexts first second).first
      (EditGrid.ofTexts first second).second _ d forward = _ at hsweep
  · obtain rfl := Option.some.inj hopp
    obtain ⟨hpath, hto, hsum⟩ := hmeets.onPath h.backward_tracks (by omega)
    obtain ⟨point, hcut, hx, hy⟩ := EditGrid.cut_eq_ok hpath (by omega) (by omega)
    refine .inl ⟨point, by rw [hx, hy]; exact hpath, by omega, fun limit => ?_⟩
    rw [EditGrid.searchFrom, if_pos hd]
    simp only [if_pos hodd, hsweep]
    exact hcut
  · have hne := (hapart backward rfl).ne h.backward_tracks (by omega)
    rcases h.backward_tracks.sweep h.backward_spans (Nat.le_of_lt hd)
      (by rw [editDistance_reverse]; omega) none with
      ⟨opp, k, own, other, hopp, -, -⟩ | ⟨backward', htracks', hspans', -, hsweep'⟩
    · contradiction
    · change TextOrigin.sweep (EditGrid.ofTexts first second).firstReversed
        (EditGrid.ofTexts first second).secondReversed _ d backward = _ at hsweep'
      refine .inr ⟨forward', backward', ⟨htracks, htracks', hspans, hspans', by omega⟩,
        fun limit => ?_⟩
      rw [EditGrid.searchFrom, if_pos hd]
      simp only [if_pos hodd, hsweep, hsweep']

theorem Searching.advances_of_even (heven : ¬ (EditGrid.ofTexts first second).skew % 2 ≠ 0) :
    EditGrid.Advances first second d forward backward := by
  have hlow := h.low
  have htotal := editDistance_add first second
  have hreverse := editDistance_reverse first second
  have hskew := EditGrid.skew_ofTexts first second
  rcases h.forward_tracks.sweep h.forward_spans (Nat.le_of_lt hd) (by omega) none with
    ⟨opp, k, own, other, hopp, -, -⟩ | ⟨forward', htracks, hspans, -, hsweep⟩
  · contradiction
  change TextOrigin.sweep (EditGrid.ofTexts first second).first
    (EditGrid.ofTexts first second).second _ d forward = _ at hsweep
  have hback : Tracks first.reverse.reverse second.reverse.reverse (d + 1) forward' := by
    rwa [List.reverse_reverse, List.reverse_reverse]
  rcases h.backward_tracks.sweep h.backward_spans (Nat.le_of_lt hd) (by omega) (some forward') with
    ⟨opp, k, own, other, hopp, hmeets, hsweep'⟩ | ⟨backward', htracks', hspans', hapart, hsweep'⟩
  all_goals
    change TextOrigin.sweep (EditGrid.ofTexts first second).firstReversed
      (EditGrid.ofTexts first second).secondReversed _ d backward = _ at hsweep'
  · obtain rfl := Option.some.inj hopp
    obtain ⟨-, -, hsum⟩ := hmeets.onPath hback (by omega)
    obtain ⟨hpath, hto⟩ := hmeets.onPath_other hback (by omega)
    rw [List.reverse_reverse, List.reverse_reverse, List.length_reverse, List.length_reverse]
      at hpath hto
    obtain ⟨point, hcut, hx, hy⟩ := EditGrid.cut_eq_ok hpath (by omega) (by omega)
    refine .inl ⟨point, by rw [hx, hy]; exact hpath, by omega, fun limit => ?_⟩
    rw [← hskew] at hcut
    rw [EditGrid.searchFrom, if_pos hd]
    simp only [if_neg heven, hsweep, hsweep']
    exact hcut
  · have hne := (hapart forward' rfl).ne hback (by omega)
    refine .inr ⟨forward', backward', ⟨htracks, htracks', hspans, hspans', by omega⟩,
      fun limit => ?_⟩
    rw [EditGrid.searchFrom, if_pos hd]
    simp only [if_neg heven, hsweep, hsweep']

theorem Searching.advances : EditGrid.Advances first second d forward backward := by
  by_cases hodd : (EditGrid.ofTexts first second).skew % 2 ≠ 0
  · exact h.advances_of_odd hd hdist hodd
  · exact h.advances_of_even hd hdist hodd

end Round

namespace EditGrid

/-- The distances that a search under a limit still covers. Distances are found round by round, an
odd one in the first sweep of its round and an even one in the second. -/
def Admits (limit : Word) (distance : Nat) : Prop :=
  limit = 0 ∨ distance + distance % 2 ≤ limit.toNat + 1

theorem admits_of_le {limit : Word} {distance : Nat}
    (h : limit = 0 ∨ distance ≤ limit.toNat) : Admits limit distance :=
  h.imp_right fun hle => by omega

def Meeting.Minimal {first second : Bytes} : (ofTexts first second).Meeting → Prop
  | .cut point => OnPath first second point.x point.y
  | .apart => lcsLength first second = 0
  | .overLimit => False

theorem searchFrom_minimal {first second : Bytes} {d : Nat} {forward backward : Frontier}
    (h : Searching first second d forward backward) (hdist : 2 ≤ editDistance first second) :
    ∃ meeting, Meeting.Minimal meeting ∧
      ∀ limit : Word, Admits limit (editDistance first second) →
        (ofTexts first second).searchFrom limit d forward backward = .ok meeting := by
  by_cases hd : d < (ofTexts first second).reach
  · rcases h.advances hd hdist with
      ⟨point, hpath, -, hsearch⟩ | ⟨forward', backward', hnext, hsearch⟩
    · exact ⟨.cut point, hpath, fun limit _ => hsearch limit⟩
    · obtain ⟨meeting, hminimal, hmeeting⟩ := searchFrom_minimal hnext hdist
      refine ⟨meeting, hminimal, fun limit hlimit => ?_⟩
      have hlow := hnext.low
      have hwithin : ¬ (limit ≠ 0 ∧ limit.toNat < 2 * d + 1) := by
        rintro ⟨hne, hlt⟩
        have hle := hlimit.resolve_left hne
        omega
      rw [hsearch limit, if_neg hwithin]
      exact hmeeting limit hlimit
  · refine ⟨.apart, ?_, fun limit _ => ?_⟩
    · have hlow := h.low
      have htotal := editDistance_add first second
      simp only [reach, ofTexts, List.size_toArray] at hd
      change lcsLength first second = 0
      omega
    · rw [searchFrom, if_neg hd]
termination_by (ofTexts first second).reach - d

/-- A search finds a point on a shortest path unless the texts share nothing, and what it finds does
not depend on a limit that admits the edit distance. -/
theorem search_minimal {first second : Bytes} (hdist : 2 ≤ editDistance first second) :
    ∃ meeting, Meeting.Minimal meeting ∧
      ∀ limit : Word, Admits limit (editDistance first second) →
        (ofTexts first second).search limit = .ok meeting :=
  searchFrom_minimal (searching_start first second) hdist

theorem searchFrom_stopped {first second : Bytes} {d : Nat} {forward backward : Frontier}
    (h : Searching first second d forward backward) (hdist : 2 ≤ editDistance first second)
    {limit : Word} (hlimit : ¬ Admits limit (editDistance first second))
    (hd : 2 * d ≤ limit.toNat + 1) :
    (ofTexts first second).searchFrom limit d forward backward = .ok .overLimit ∨
      (ofTexts first second).searchFrom limit d forward backward = .ok .apart := by
  obtain ⟨hne, hlt⟩ := not_or.1 hlimit
  by_cases hreach : d < (ofTexts first second).reach
  · rcases h.advances hreach hdist with
      ⟨point, -, hle, -⟩ | ⟨forward', backward', hnext, hsearch⟩
    · omega
    · rw [hsearch limit]
      by_cases hover : limit.toNat < 2 * d + 1
      · exact .inl (if_pos ⟨hne, hover⟩)
      · rw [if_neg fun hboth => hover hboth.2]
        exact searchFrom_stopped hnext hdist hlimit (by omega)
  · right
    rw [searchFrom, if_neg hreach]
termination_by (ofTexts first second).reach - d

theorem search_stopped {first second : Bytes} (hdist : 2 ≤ editDistance first second)
    {limit : Word} (hlimit : ¬ Admits limit (editDistance first second)) :
    (ofTexts first second).search limit = .ok .overLimit ∨
      (ofTexts first second).search limit = .ok .apart :=
  searchFrom_stopped (searching_start first second) hdist hlimit (by omega)

theorem exists_search_eq_ok {first second : Bytes} (hdist : 2 ≤ editDistance first second)
    (limit : Word) : ∃ meeting, (ofTexts first second).search limit = .ok meeting := by
  by_cases hlimit : Admits limit (editDistance first second)
  · obtain ⟨meeting, -, hsearch⟩ := search_minimal hdist
    exact ⟨meeting, hsearch limit hlimit⟩
  · rcases search_stopped hdist hlimit with hsearch | hsearch
    · exact ⟨.overLimit, hsearch⟩
    · exact ⟨.apart, hsearch⟩

end EditGrid

end TextOrigin

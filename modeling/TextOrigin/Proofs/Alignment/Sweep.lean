import TextOrigin.Alignment.Search
import TextOrigin.Proofs.Alignment.Frontier

/-!
What a sweep does. Before it, a frontier holds what paths with fewer moves have reached: its cells
are no further than such paths get, at least as far as the shortest paths are, and the diagonals
that it leaves out have no shortest path on them. Advancing one diagonal keeps this for the
diagonals that were swept, so a whole sweep keeps it for one more move.
-/

namespace TextOrigin

/-- A frontier after `d` sweeps. -/
structure Tracks (first second : Bytes) (d : Nat) (frontier : Frontier) : Prop where
  even_low : frontier.low % 2 = 0
  even_high : frontier.high % 2 = 0
  cell_ge : ∀ k, -1 ≤ frontier.cell k
  sound : ∀ k, 0 ≤ frontier.cell k → k ≤ frontier.cell k →
    distanceTo first second (frontier.cell k) (frontier.cell k - k) < d
  complete : ∀ {x y : Int}, OnPath first second x y → distanceTo first second x y + 1 = d →
    x ≤ frontier.cell (x - y)
  low_le : ∀ {x y : Int}, OnPath first second x y → d ≤ distanceTo first second x y →
    frontier.low = 0 ∨ frontier.low - d ≤ x - y
  le_high : ∀ {x y : Int}, OnPath first second x y → d ≤ distanceTo first second x y →
    frontier.high = 0 ∨ x - y ≤ d - frontier.high
  edge : frontier.low = 0 → 0 ≤ frontier.cell (1 - d)
  climbed : ∀ k : Int, 0 ≤ k → k + frontier.high + 1 ≤ d → k ≤ frontier.cell k

theorem tracks_start (first second : Bytes) (reach : Nat) :
    Tracks first second 0 (Frontier.start reach) where
  even_low := rfl
  even_high := rfl
  cell_ge k := by
    rw [Frontier.cell_start]
    split <;> omega
  sound k hpos hle := by
    rw [Frontier.cell_start] at hpos hle
    split at hpos <;> omega
  complete h hd := by
    have hnonneg := distanceTo_nonneg first second h.x_nonneg h.y_nonneg
    omega
  low_le _ _ := .inl rfl
  le_high _ _ := .inl rfl
  edge _ := Int.le_of_eq (by rw [Frontier.cell_start, if_pos (by omega)])
  climbed k hk hle := by omega

/-- A point on a diagonal that `d` moves reach and that shortest paths do not get past with them. -/
structure Furthest (first second : Bytes) (d : Nat) (k far : Int) : Prop where
  nonneg : 0 ≤ far
  le : k ≤ far
  sound : distanceTo first second far (far - k) ≤ d
  complete : ∀ {x y : Int}, OnPath first second x y → distanceTo first second x y = d →
    x - y = k → x ≤ far

section Arrival

variable {first second : Bytes} {d : Nat} {start : Frontier} {k far : Int}

theorem Frontier.arrival_cases (frontier : Frontier) (d : Nat) (k : Int) :
    (k ≠ -d ∧ frontier.arrival d k = frontier.cell (k - 1) + 1) ∨
      frontier.arrival d k = frontier.cell (k + 1) := by
  rw [arrival]
  split
  · exact .inr rfl
  · next hfirst =>
    split
    · exact .inl ⟨hfirst, rfl⟩
    · rcases Int.le_total (frontier.cell (k - 1) + 1) (frontier.cell (k + 1)) with h | h
      · exact .inr (Int.max_eq_right h)
      · exact .inl ⟨hfirst, Int.max_eq_left h⟩

theorem Frontier.right_le_arrival (frontier : Frontier) {d : Nat} {k : Int} (h : k ≠ -d) :
    frontier.cell (k - 1) + 1 ≤ frontier.arrival d k := by
  rw [arrival, if_neg h]
  split
  · exact Int.le_refl _
  · exact Int.le_max_left _ _

theorem Frontier.down_le_arrival (frontier : Frontier) {d : Nat} {k : Int} (h : k < d) :
    frontier.cell (k + 1) ≤ frontier.arrival d k := by
  rw [arrival]
  split
  · exact Int.le_refl _
  · rw [if_neg (by omega)]
    exact Int.le_max_right _ _

theorem Tracks.arrival_ge (h : Tracks first second d start) (hlow : start.low - d ≤ k)
    (hhigh : k ≤ d - start.high) : 0 ≤ start.arrival d k ∧ k ≤ start.arrival d k := by
  by_cases hfirst : k = -d
  · have hedge := h.edge (by omega)
    rw [Frontier.arrival, if_pos hfirst]
    rw [show k + 1 = 1 - d by omega]
    omega
  · have hright := start.right_le_arrival hfirst
    have hge := h.cell_ge (k - 1)
    refine ⟨by omega, ?_⟩
    by_cases hpos : 1 ≤ k
    · have hclimbed := h.climbed (k - 1) (by omega) (by omega)
      omega
    · omega

theorem Tracks.distanceTo_arrival_le (h : Tracks first second d start)
    (hk : -(d : Int) ≤ k) (hk' : k ≤ d) (hpos : 0 ≤ start.arrival d k)
    (hle : k ≤ start.arrival d k) :
    distanceTo first second (start.arrival d k) (start.arrival d k - k) ≤ d := by
  rcases start.arrival_cases d k with ⟨-, harrival⟩ | harrival
  · rw [harrival] at hpos hle ⊢
    have hge := h.cell_ge (k - 1)
    have hcast : start.cell (k - 1) + 1 - k = start.cell (k - 1) - (k - 1) := by omega
    rw [hcast]
    by_cases hreached : 0 ≤ start.cell (k - 1)
    · have hsound := h.sound (k - 1) hreached (by omega)
      have hmove := distanceTo_le_add first second
        (by omega : start.cell (k - 1) ≤ start.cell (k - 1) + 1)
        (Int.le_refl (start.cell (k - 1) - (k - 1)))
      omega
    · have hzero : start.cell (k - 1) + 1 = 0 := by omega
      rw [hzero, distanceTo_zero_left]
      omega
  · rw [harrival] at hpos hle ⊢
    by_cases hinside : k + 1 ≤ start.cell (k + 1)
    · have hsound := h.sound (k + 1) hpos hinside
      have hmove := distanceTo_le_add first second (Int.le_refl (start.cell (k + 1)))
        (by omega : start.cell (k + 1) - (k + 1) ≤ start.cell (k + 1) - k)
      omega
    · have hzero : start.cell (k + 1) - k = 0 := by omega
      rw [hzero, distanceTo_zero_right]
      omega

theorem Tracks.le_of_arrival_le (h : Tracks first second d start) {x y : Int}
    (harrival : start.arrival d (x - y) ≤ far) (hpos : 0 ≤ far)
    (hend : ¬ Agree first second far (far - (x - y))) (hpath : OnPath first second x y)
    (hd : distanceTo first second x y = d) : x ≤ far := by
  rcases hpath.pred with ⟨rfl, rfl⟩ | ⟨hprev, hagree, hsame⟩ | ⟨hprev, hless⟩ | ⟨hprev, hless⟩
  · exact hpos
  · have hdiagonal : x - 1 - (y - 1) = x - y := by omega
    have hle := h.le_of_arrival_le (x := x - 1) (y := y - 1) (by rwa [hdiagonal]) hpos
      (by rwa [hdiagonal]) hprev (by omega)
    by_cases heq : far = x - 1
    · rw [heq, show x - 1 - (x - y) = y - 1 by omega] at hend
      exact absurd hagree hend
    · omega
  · have hcomplete := h.complete hprev (by omega)
    have hfirst := sub_le_distanceTo' first second (y := y) hprev.x_nonneg
    have hright := start.right_le_arrival (d := d) (k := x - y) (by omega)
    rw [show x - 1 - y = x - y - 1 by omega] at hcomplete
    omega
  · have hcomplete := h.complete hprev (by omega)
    have hlast := sub_le_distanceTo first second (x := x) hprev.y_nonneg
    have hdown := start.down_le_arrival (d := d) (k := x - y) (by omega)
    rw [show x - (y - 1) = x - y + 1 by omega] at hcomplete
    omega
termination_by x.toNat
decreasing_by
  have := hprev.x_nonneg
  omega

theorem Tracks.exists_furthest (h : Tracks first second d start) (hlow : start.low - d ≤ k)
    (hhigh : k ≤ d - start.high) :
    ∃ far, slide first.toArray second.toArray (start.arrival d k) (start.arrival d k - k) =
      .ok far ∧ Furthest first second d k far := by
  obtain ⟨hpos, hle⟩ := h.arrival_ge hlow hhigh
  have hdistance := h.distanceTo_arrival_le (by omega) (by omega) hpos hle
  obtain ⟨far, hslide, hfar, hsound, hend⟩ :=
    exists_slide first second hpos (by omega : 0 ≤ start.arrival d k - k)
  rw [Int.sub_sub_self] at hsound hend
  refine ⟨far, hslide, by omega, by omega, Int.le_trans hsound hdistance, ?_⟩
  intro x y hpath hd heq
  exact h.le_of_arrival_le (by rwa [heq]) (by omega) (by rwa [heq]) hpath hd

theorem Furthest.lt_of_beyond_right (h : Furthest first second d k far)
    (hright : first.length < far) {x y : Int} (hpath : OnPath first second x y)
    (hd : d ≤ distanceTo first second x y) : x - y < k := by
  have hlt := hpath.diagonal_lt hright (Int.le_trans h.sound hd)
  omega

theorem Furthest.lt_of_beyond_bottom (h : Furthest first second d k far)
    (hbottom : second.length < far - k) {x y : Int} (hpath : OnPath first second x y)
    (hd : d ≤ distanceTo first second x y) : k < x - y := by
  have hlt := hpath.lt_diagonal hbottom (Int.le_trans h.sound hd)
  omega

end Arrival

/-- The low end of a frontier in the middle of sweep `d`: `before` diagonals were left out when it
started, and `low` are now that all diagonals below `k` are swept. -/
structure LowEnd (first second : Bytes) (d before : Nat) (k : Int) (low : Nat) : Prop where
  even : low % 2 = 0
  mono : before ≤ low
  sub_le : low - d ≤ k
  le : ∀ {x y : Int}, OnPath first second x y → d ≤ distanceTo first second x y →
    low = 0 ∨ low - (d + 1) ≤ x - y

structure HighEnd (first second : Bytes) (d before high : Nat) : Prop where
  even : high % 2 = 0
  mono : before ≤ high
  le : ∀ {x y : Int}, OnPath first second x y → d ≤ distanceTo first second x y →
    high = 0 ∨ x - y ≤ d + 1 - high

/-- What the cells hold in the middle of sweep `d`, which `start` was before it, with all diagonals
below `k` swept. -/
structure SweptCells (first second : Bytes) (d : Nat) (start : Frontier) (k : Int)
    (cell : Int → Int) : Prop where
  unswept : ∀ j : Int, (j - d) % 2 ≠ 0 → cell j = start.cell j
  ge : ∀ j, -1 ≤ cell j
  sound : ∀ j, 0 ≤ cell j → j ≤ cell j → distanceTo first second (cell j) (cell j - j) ≤ d
  complete : ∀ {x y : Int}, OnPath first second x y → distanceTo first second x y = d →
    x - y < k → x ≤ cell (x - y)
  inside : ∀ j : Int, start.low - d ≤ j → j < k → (j - d) % 2 = 0 → 0 ≤ cell j ∧ j ≤ cell j
  climbed : ∀ j : Int, 0 ≤ j → j + start.high + 1 ≤ d → j ≤ cell j

def ApartOn (first second : Bytes) (d : Nat) (opposite : Option Frontier) (k : Int) : Prop :=
  ∀ opp x y, opposite = some opp → OnPath first second x y → distanceTo first second x y = d →
    x - y = k → opp.cell (first.length - second.length - k) < first.length - x

/-- A frontier in the middle of sweep `d`, which `start` was before it, with all diagonals below `k`
swept and not found to meet the opposite frontier. -/
structure Sweeping (first second : Bytes) (reach d : Nat) (opposite : Option Frontier)
    (start : Frontier) (k : Int) (frontier : Frontier) : Prop where
  spans : frontier.Spans reach
  parity : (k - d) % 2 = 0
  low : LowEnd first second d start.low k frontier.low
  high : HighEnd first second d start.high frontier.high
  cells : SweptCells first second d start k frontier.cell
  apart : ∀ j < k, ApartOn first second d opposite j

def Apart (first second : Bytes) (d : Nat) (opposite : Frontier) : Prop :=
  ∀ x y : Int, OnPath first second x y → distanceTo first second x y = d →
    opposite.cell (first.length - second.length - (x - y)) < first.length - x

structure Meets (first second : Bytes) (d : Nat) (opposite : Frontier) (k own other : Int) :
    Prop where
  own_nonneg : 0 ≤ own
  own_sub_nonneg : 0 ≤ own - k
  own_le : own ≤ first.length
  own_sub_le : own - k ≤ second.length
  distance_le : distanceTo first second own (own - k) ≤ d
  other_eq : opposite.cell (first.length - second.length - k) = other
  other_ne : other ≠ -1
  overlap : first.length ≤ own + other

section Sweep

variable {first second : Bytes} {reach d : Nat} {opposite : Option Frontier}
  {start frontier : Frontier} {k far : Int}

theorem LowEnd.next {before low : Nat} (h : LowEnd first second d before k low) :
    LowEnd first second d before (k + 2) low where
  even := h.even
  mono := h.mono
  sub_le := Int.le_trans h.sub_le (by omega)
  le := h.le

theorem LowEnd.raise {before low : Nat} (h : LowEnd first second d before k low)
    (hbeyond : ∀ {x y : Int}, OnPath first second x y → d ≤ distanceTo first second x y →
      k < x - y) : LowEnd first second d before (k + 2) (low + 2) where
  even := by
    rw [Nat.add_mod_right]
    exact h.even
  mono := Nat.le_trans h.mono (Nat.le_add_right _ _)
  sub_le := by
    have hsub := h.sub_le
    omega
  le := by
    intro x y hpath hd
    have hsub := h.sub_le
    have hlt := hbeyond hpath hd
    omega

theorem HighEnd.raise {before high : Nat} (h : HighEnd first second d before high)
    (hk : k ≤ d - high)
    (hbeyond : ∀ {x y : Int}, OnPath first second x y → d ≤ distanceTo first second x y →
      x - y < k) : HighEnd first second d before (high + 2) where
  even := by
    rw [Nat.add_mod_right]
    exact h.even
  mono := Nat.le_trans h.mono (Nat.le_add_right _ _)
  le := by
    intro x y hpath hd
    have hlt := hbeyond hpath hd
    omega

theorem lt_or_eq_of_distanceTo_eq {x y : Int} (hparity : (k - d) % 2 = 0)
    (hd : distanceTo first second x y = d) (hlt : x - y < k + 2) : x - y < k ∨ x - y = k := by
  -- points at distance `d` lie on diagonals of the parity of `d`
  have hmod := @distanceTo_emod_two first second x y
  omega

theorem SweptCells.next {cell next : Int → Int} (h : SweptCells first second d start k cell)
    (hparity : (k - d) % 2 = 0) (hfar : Furthest first second d k far)
    (hnext : ∀ j, next j = if j = k then far else cell j) :
    SweptCells first second d start (k + 2) next where
  unswept j hj := by
    rw [hnext, if_neg (by omega), h.unswept j hj]
  ge j := by
    have hge := h.ge j
    have hpos := hfar.nonneg
    rw [hnext]
    split <;> omega
  sound j hj hj' := by
    rw [hnext] at hj hj' ⊢
    split
    · next heq =>
      rw [heq]
      exact hfar.sound
    · next hne =>
      rw [if_neg hne] at hj hj'
      exact h.sound j hj hj'
  complete hpath hd hlt := by
    rw [hnext]
    rcases lt_or_eq_of_distanceTo_eq hparity hd hlt with hlt | heq
    · rw [if_neg (by omega)]
      exact h.complete hpath hd hlt
    · rw [if_pos heq]
      exact hfar.complete hpath hd heq
  inside j hj hlt hmod := by
    rw [hnext]
    split
    · next heq =>
      rw [heq]
      exact ⟨hfar.nonneg, hfar.le⟩
    · exact h.inside j hj (by omega) hmod
  climbed j hj hj' := by
    rw [hnext]
    split
    · next heq =>
      rw [heq]
      exact hfar.le
    · exact h.climbed j hj hj'

theorem Furthest.apartOn (h : Furthest first second d k far)
    (hshort : ∀ opp, opposite = some opp →
      opp.cell (first.length - second.length - k) = -1 ∨
        far + opp.cell (first.length - second.length - k) < first.length) :
    ApartOn first second d opposite k := by
  intro opp x y hopp hpath hd heq
  rcases hshort opp hopp with hnone | hlt
  · have hle := hpath.x_le
    omega
  · have hle := h.complete hpath hd heq
    omega

theorem sweeping_start (h : Tracks first second d start) (hspans : start.Spans reach) :
    Sweeping first second reach d opposite start (start.low - d) start := by
  have hswept : ∀ {x y : Int}, OnPath first second x y → distanceTo first second x y = d →
      start.low - d ≤ x - y := by
    intro x y hpath hd
    have hedge := sub_le_distanceTo' first second (y := y) hpath.x_nonneg
    rcases h.low_le hpath (by omega) with hlow | hlow <;> omega
  have heven := h.even_low
  have hlow : LowEnd first second d start.low (start.low - d) start.low := {
    even := heven
    mono := Nat.le_refl _
    sub_le := Int.le_refl _
    le := by
      intro x y hpath hd
      rcases h.low_le hpath hd with hlow | hlow <;> omega }
  have hhigh : HighEnd first second d start.high start.high := {
    even := h.even_high
    mono := Nat.le_refl _
    le := by
      intro x y hpath hd
      rcases h.le_high hpath hd with hhigh | hhigh <;> omega }
  have hcells : SweptCells first second d start (start.low - d) start.cell := {
    unswept := fun _ _ => rfl
    ge := h.cell_ge
    sound := fun j hpos hle => Int.le_of_lt (h.sound j hpos hle)
    complete := fun hpath hd hlt => absurd (hswept hpath hd) (Int.not_le.2 hlt)
    inside := fun j hle hlt => absurd hle (Int.not_le.2 hlt)
    climbed := h.climbed }
  refine ⟨hspans, by omega, hlow, hhigh, hcells, ?_⟩
  intro j hj opp x y hopp hpath hd heq
  have hle := hswept hpath hd
  omega

/-- How a step ends that put `x` on diagonal `k`. -/
def Sweep.ofMove (width depth : Nat) (opposite : Option Frontier) (k x : Int) (moved : Frontier) :
    Sweep :=
  if width < x then .swept { moved with high := moved.high + 2 }
  else if depth < x - k then .swept { moved with low := moved.low + 2 }
  else (opposite.bind fun opp => opp.reached? (width - depth - k)).elim (.swept moved) fun other =>
    if width ≤ x + other then .met k x other else .swept moved

theorem advanceDiagonal_eq {left above : Array UInt8} {arrival x : Int} {moved : Frontier}
    (harrival : frontier.advance d k = .ok arrival)
    (hslide : slide left above arrival (arrival - k) = .ok x)
    (hmoved : frontier.write k x = .ok moved) :
    advanceDiagonal left above opposite d k frontier =
      .ok (.ofMove left.size above.size opposite k x moved) := by
  rw [advanceDiagonal, Sweep.ofMove]
  simp only [bind, Except.bind, harrival, hslide, hmoved]
  split
  · rfl
  · split
    · rfl
    · cases opposite.bind fun opp => opp.reached? (left.size - above.size - k) with
      | none => rfl
      | some other => rfl

namespace Sweeping

section Step

variable (h : Sweeping first second reach d opposite start k frontier) (hreach : d ≤ reach)
  (hk : k ≤ d - frontier.high) (hfar : Furthest first second d k far)

include h hreach hk hfar

theorem next (hapart : ApartOn first second d opposite k) {low high : Nat}
    (hlow : LowEnd first second d start.low (k + 2) low)
    (hhigh : HighEnd first second d start.high high) :
    Sweeping first second reach d opposite start (k + 2)
      { frontier.put k far with low := low, high := high } where
  spans := ⟨(h.spans.put k far).origin_eq, (h.spans.put k far).size_eq⟩
  parity := by
    have hparity := h.parity
    omega
  low := hlow
  high := hhigh
  cells := by
    have hsub := h.low.sub_le
    rw [Frontier.cell_trim]
    exact h.cells.next h.parity hfar (h.spans.cell_put (by omega) (by omega) far)
  apart := by
    intro j hj opp x y hopp hpath hd heq
    rcases lt_or_eq_of_distanceTo_eq h.parity hd (by omega) with hlt | hsame
    · exact h.apart j (by omega) opp x y hopp hpath hd heq
    · rw [← heq, hsame]
      exact hapart opp x y hopp hpath hd hsame

theorem right (hright : first.length < far) :
    Sweeping first second reach d opposite start (k + 2)
      { frontier.put k far with high := frontier.high + 2 } := by
  have hbeyond {x y : Int} (hpath : OnPath first second x y) (hd : d ≤ distanceTo first second x y) :
      x - y < k := hfar.lt_of_beyond_right hright hpath hd
  have hapart : ApartOn first second d opposite k := by
    intro opp x y hopp hpath hd heq
    have hlt := hbeyond hpath (by omega)
    omega
  exact h.next hreach hk hfar hapart h.low.next (h.high.raise hk hbeyond)

theorem bottom (hbottom : second.length < far - k) :
    Sweeping first second reach d opposite start (k + 2)
      { frontier.put k far with low := frontier.low + 2 } := by
  have hbeyond {x y : Int} (hpath : OnPath first second x y) (hd : d ≤ distanceTo first second x y) :
      k < x - y := hfar.lt_of_beyond_bottom hbottom hpath hd
  have hapart : ApartOn first second d opposite k := by
    intro opp x y hopp hpath hd heq
    have hlt := hbeyond hpath (by omega)
    omega
  exact h.next hreach hk hfar hapart (h.low.raise hbeyond) h.high

theorem inside (hright : ¬ first.length < far) (hbottom : ¬ second.length < far - k) :
    (∃ opp own other, opposite = some opp ∧ Meets first second d opp k own other ∧
      Sweep.ofMove first.length second.length opposite k far (frontier.put k far) =
        .met k own other) ∨
    (Sweeping first second reach d opposite start (k + 2) (frontier.put k far) ∧
      Sweep.ofMove first.length second.length opposite k far (frontier.put k far) =
        .swept (frontier.put k far)) := by
  have hswept (hshort : ∀ opp, opposite = some opp →
      opp.cell (first.length - second.length - k) = -1 ∨
        far + opp.cell (first.length - second.length - k) < first.length) :
      Sweeping first second reach d opposite start (k + 2) (frontier.put k far) :=
    h.next hreach hk hfar (hfar.apartOn hshort) h.low.next h.high
  rw [Sweep.ofMove, if_neg hright, if_neg hbottom]
  cases opposite with
  | none => exact .inr ⟨hswept fun opp hopp => by contradiction, rfl⟩
  | some opp =>
    rw [Option.bind_some, Frontier.reached?_eq]
    by_cases hreached : opp.cell (first.length - second.length - k) = -1
    · rw [if_pos hreached]
      exact .inr ⟨hswept fun _ hopp => .inl (Option.some.inj hopp ▸ hreached), rfl⟩
    · rw [if_neg hreached, Option.elim_some]
      by_cases hmeets : first.length ≤ far + opp.cell (first.length - second.length - k)
      · have hpos := hfar.nonneg
        have hle := hfar.le
        rw [if_pos hmeets]
        exact .inl ⟨opp, far, _, rfl, ⟨hpos, by omega, by omega, by omega, hfar.sound, rfl, hreached,
          hmeets⟩, rfl⟩
      · rw [if_neg hmeets]
        exact .inr ⟨hswept fun _ hopp => .inr (Option.some.inj hopp ▸ Int.not_le.1 hmeets), rfl⟩

end Step

theorem advanceDiagonal (htracks : Tracks first second d start)
    (h : Sweeping first second reach d opposite start k frontier) (hreach : d ≤ reach)
    (hk : k ≤ d - frontier.high) :
    (∃ opp own other, opposite = some opp ∧ Meets first second d opp k own other ∧
      TextOrigin.advanceDiagonal first.toArray second.toArray opposite d k frontier =
        .ok (.met k own other)) ∨
    ∃ next, Sweeping first second reach d opposite start (k + 2) next ∧
      TextOrigin.advanceDiagonal first.toArray second.toArray opposite d k frontier =
        .ok (.swept next) := by
  have hparity := h.parity
  have hlow_mono := h.low.mono
  have hhigh_mono := h.high.mono
  have hsub := h.low.sub_le
  have harrival : frontier.arrival d k = start.arrival d k := by
    rw [Frontier.arrival, Frontier.arrival, h.cells.unswept (k - 1) (by omega),
      h.cells.unswept (k + 1) (by omega)]
  obtain ⟨far, hslide, hfar⟩ := htracks.exists_furthest (k := k) (by omega) (by omega)
  rw [← harrival] at hslide
  rw [advanceDiagonal_eq (h.spans.advance hreach (by omega) (by omega)) hslide
    (h.spans.write (by omega) (by omega) far), List.size_toArray, List.size_toArray]
  by_cases hright : first.length < far
  · refine .inr ⟨_, h.right hreach hk hfar hright, ?_⟩
    rw [Sweep.ofMove, if_pos hright]
    rfl
  by_cases hbottom : second.length < far - k
  · refine .inr ⟨_, h.bottom hreach hk hfar hbottom, ?_⟩
    rw [Sweep.ofMove, if_neg hright, if_pos hbottom]
    rfl
  rcases h.inside hreach hk hfar hright hbottom with
    ⟨opp, own, other, hopp, hmeets, hmet⟩ | ⟨hnext, hswept⟩
  · exact .inl ⟨opp, own, other, hopp, hmeets, by rw [hmet]⟩
  · exact .inr ⟨_, hnext, by rw [hswept]⟩

theorem diagonal_le (h : Sweeping first second reach d opposite start k frontier) {x y : Int}
    (hpath : OnPath first second x y) (hd : distanceTo first second x y = d) :
    x - y ≤ d - frontier.high := by
  have heven := h.high.even
  have hmod := @distanceTo_emod_two first second x y
  have hlast := sub_le_distanceTo first second (x := x) hpath.y_nonneg
  rcases h.high.le hpath (by omega) with hhigh | hhigh <;> omega

theorem exists_swept (h : Sweeping first second reach d opposite start k frontier)
    (hd : d ≤ editDistance first second) :
    ∃ x y, OnPath first second x y ∧ distanceTo first second x y = d ∧ -d ≤ x - y ∧
      x - y ≤ d - frontier.high := by
  obtain ⟨x, y, hpath, hdist⟩ :=
    OnPath.exists_distanceTo_eq first second (d := d) (by omega) (by omega)
  have hedge := sub_le_distanceTo' first second (y := y) hpath.x_nonneg
  exact ⟨x, y, hpath, hdist, by omega, h.diagonal_le hpath hdist⟩

theorem climbed (h : Sweeping first second reach d opposite start k frontier)
    (hd : d ≤ editDistance first second) (hk : d - frontier.high < k) {j : Int} (hj : 0 ≤ j)
    (hle : j + frontier.high + 1 ≤ (d + 1 : Nat)) : j ≤ frontier.cell j := by
  -- The sweep was not beyond all shortest paths, so it passed the diagonals that count for the
  -- next one.
  have heven_low := h.low.even
  have heven_high := h.high.even
  have hlow_mono := h.low.mono
  have hhigh_mono := h.high.mono
  obtain ⟨x, y, hpath, hdist, hfirst, hlast⟩ := h.exists_swept hd
  have hmod_path := @distanceTo_emod_two first second x y
  by_cases hmod : (j - d) % 2 = 0
  · by_cases hlow : start.low - d ≤ j
    · exact (h.cells.inside j hlow (by omega) hmod).2
    · refine h.cells.climbed j hj ?_
      rcases h.low.le hpath (by omega) with hlow₀ | hlow₀ <;> omega
  · exact h.cells.climbed j hj (by omega)

theorem tracks (h : Sweeping first second reach d opposite start k frontier)
    (hd : d ≤ editDistance first second) (hk : d - frontier.high < k) :
    Tracks first second (d + 1) frontier where
  even_low := h.low.even
  even_high := h.high.even
  cell_ge := h.cells.ge
  sound j hpos hle := by
    have hsound := h.cells.sound j hpos hle
    omega
  complete hpath hdist := by
    have hle := h.diagonal_le hpath (by omega)
    exact h.cells.complete hpath (by omega) (by omega)
  low_le hpath hdist := by
    rcases h.low.le hpath (by omega) with hlow | hlow <;> omega
  le_high hpath hdist := by
    rcases h.high.le hpath (by omega) with hhigh | hhigh <;> omega
  edge hlow := by
    obtain ⟨x, y, -, -, hfirst, hlast⟩ := h.exists_swept hd
    have hmono := h.low.mono
    rw [show 1 - ((d + 1 : Nat) : Int) = -d by omega]
    exact (h.cells.inside (-d) (by omega) (by omega) (by omega)).1
  climbed j hj hle := h.climbed hd hk hj hle

theorem apart_some {opp : Frontier}
    (h : Sweeping first second reach d (some opp) start k frontier)
    (hk : d - frontier.high < k) : Apart first second d opp := by
  intro x y hpath hdist
  have hle := h.diagonal_le hpath hdist
  exact h.apart (x - y) (by omega) opp x y rfl hpath hdist rfl

theorem sweepFrom {first second : Bytes} {reach d : Nat} {opposite : Option Frontier}
    {start frontier : Frontier} {k : Int} (htracks : Tracks first second d start)
    (h : Sweeping first second reach d opposite start k frontier) (hreach : d ≤ reach)
    (hd : d ≤ editDistance first second) :
    (∃ opp j own other, opposite = some opp ∧ Meets first second d opp j own other ∧
      TextOrigin.sweepFrom first.toArray second.toArray opposite d k frontier =
        .ok (.met j own other)) ∨
    ∃ next, Tracks first second (d + 1) next ∧ next.Spans reach ∧
      (∀ opp, opposite = some opp → Apart first second d opp) ∧
      TextOrigin.sweepFrom first.toArray second.toArray opposite d k frontier =
        .ok (.swept next) := by
  rw [TextOrigin.sweepFrom]
  by_cases hk : k ≤ d - frontier.high
  · rw [if_pos hk]
    rcases h.advanceDiagonal htracks hreach hk with
      ⟨opp, own, other, hopp, hmeets, hstep⟩ | ⟨next, hnext, hstep⟩
    · rw [hstep]
      exact .inl ⟨opp, k, own, other, hopp, hmeets, rfl⟩
    · rw [hstep]
      exact hnext.sweepFrom htracks hreach hd
  · rw [if_neg hk]
    refine .inr ⟨frontier, h.tracks hd (by omega), h.spans, ?_, rfl⟩
    rintro opp rfl
    exact h.apart_some (by omega)
termination_by (d + 1 - k).toNat
decreasing_by omega

end Sweeping

/-- A sweep meets the opposite frontier, or it keeps what frontiers hold for one more move. -/
theorem Tracks.sweep (h : Tracks first second d start) (hspans : start.Spans reach)
    (hreach : d ≤ reach) (hd : d ≤ editDistance first second) (opposite : Option Frontier) :
    (∃ opp j own other, opposite = some opp ∧ Meets first second d opp j own other ∧
      TextOrigin.sweep first.toArray second.toArray opposite d start = .ok (.met j own other)) ∨
    ∃ next, Tracks first second (d + 1) next ∧ next.Spans reach ∧
      (∀ opp, opposite = some opp → Apart first second d opp) ∧
      TextOrigin.sweep first.toArray second.toArray opposite d start = .ok (.swept next) :=
  (sweeping_start h hspans).sweepFrom h hreach hd

end Sweep

end TextOrigin

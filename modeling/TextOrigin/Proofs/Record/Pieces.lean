import TextOrigin.Record.Build
import TextOrigin.Record.PieceSearch

/-!
Pieces that lie back to back. Laying out contributions is the same as finding pieces of the given
sources and lengths that follow each other from the first offset on. While the lengths do not add
up beyond a word, each piece starts where the lengths before it end, one of them holds every offset
below the total, and either search finds the piece of an offset exactly. The builders of records
succeed exactly under the bounds that they check, where a slice is bounded by its end or, all the
same, by what is left after its offset.
-/

namespace TextOrigin

theorem eq_of_pairwise_not {α : Type} {R : α → α → Prop} {P : α → Prop} {xs : List α}
    (h : xs.Pairwise R) (hR : ∀ x y, R x y → P x → ¬ P y) {i j : Nat} {x y : α}
    (hi : xs[i]? = some x) (hj : xs[j]? = some y) (hx : P x) (hy : P y) : i = j := by
  have hnot : ∀ {i j : Nat} {x y : α}, xs[i]? = some x → xs[j]? = some y → P x → P y →
      ¬ i < j := by
    intro i j x y hi hj hx hy hlt
    obtain ⟨hilt, rfl⟩ := List.getElem?_eq_some_iff.1 hi
    obtain ⟨hjlt, rfl⟩ := List.getElem?_eq_some_iff.1 hj
    exact hR _ _ (List.pairwise_iff_getElem.1 h i j hilt hjlt hlt) hx hy
  have hij := hnot hi hj hx hy
  have hji := hnot hj hi hy hx
  omega

namespace Piece

/-- Pieces that follow each other without gaps from `start` to `stop`. -/
def BackToBack {ρ : Type} (start : Word) (pieces : List (Piece ρ)) (stop : Word) : Prop :=
  match pieces with
  | [] => start = stop
  | piece :: rest => piece.offset = start ∧ BackToBack (start + piece.length) rest stop

def totalLength {ρ : Type} (pieces : List (Piece ρ)) : Nat :=
  match pieces with
  | [] => 0
  | piece :: rest => piece.length.toNat + totalLength rest

theorem totalLength_append {ρ : Type} (first second : List (Piece ρ)) :
    totalLength (first ++ second) = totalLength first + totalLength second := by
  induction first with
  | nil => exact (Nat.zero_add _).symm
  | cons piece rest ih =>
    rw [List.cons_append, totalLength, totalLength, ih, Nat.add_assoc]

theorem BackToBack.toNat_stop {ρ : Type} {start stop : Word} {pieces : List (Piece ρ)}
    (h : BackToBack start pieces stop) (hlt : start.toNat + totalLength pieces < UInt64.size) :
    stop.toNat = start.toNat + totalLength pieces := by
  induction pieces generalizing start with
  | nil => simp [← h.symm, totalLength]
  | cons piece rest ih =>
    rw [totalLength] at hlt ⊢
    have hstart : (start + piece.length).toNat = start.toNat + piece.length.toNat := by
      rw [toNat_add_of_lt (by omega)]
    rw [ih h.2 (by omega), hstart, Nat.add_assoc]

theorem BackToBack.toNat_offset {ρ : Type} {start stop : Word} {before after : List (Piece ρ)}
    {piece : Piece ρ} (h : BackToBack start (before ++ piece :: after) stop)
    (hlt : start.toNat + totalLength before < UInt64.size) :
    piece.offset.toNat = start.toNat + totalLength before := by
  induction before generalizing start with
  | nil => simp [h.1, totalLength]
  | cons first rest ih =>
    rw [totalLength] at hlt ⊢
    have hstart : (start + first.length).toNat = start.toNat + first.length.toNat := by
      rw [toNat_add_of_lt (by omega)]
    rw [ih h.2 (by omega), hstart, Nat.add_assoc]

theorem contains_of_scan? {ρ : Type} {pieces : List (Piece ρ)} {offset : Word} {i : Nat}
    (h : scan? pieces offset = some i) :
    ∃ piece, pieces[i]? = some piece ∧ piece.contains offset = true := by
  obtain ⟨hi, hcontains, -⟩ := List.findIdx?_eq_some_iff_getElem.1 h
  exact ⟨pieces[i], List.getElem?_eq_getElem hi, hcontains⟩

theorem contains_of_bisect? {ρ : Type} {pieces : List (Piece ρ)} {offset : Word} {i : Nat}
    (h : bisect? pieces offset = some i) :
    ∃ piece, pieces[i]? = some piece ∧ piece.contains offset = true := by
  unfold bisect? at h
  split at h
  · contradiction
  · split at h
    · next last _ hany =>
      obtain rfl := Option.some.inj h
      exact (Option.any_eq_true _ _).1 hany
    · contradiction

theorem contains_of_index? {ρ : Type} {settings : Settings} {pieces : List (Piece ρ)}
    {offset : Word} {i : Nat} (h : index? settings pieces offset = some i) :
    ∃ piece, pieces[i]? = some piece ∧ piece.contains offset = true := by
  unfold index? at h
  split at h
  · exact contains_of_scan? h
  · exact contains_of_bisect? h

theorem contains_of_at? {ρ : Type} {settings : Settings} {pieces : List (Piece ρ)} {offset : Word}
    {piece : Piece ρ} (h : at? settings pieces offset = some piece) :
    piece.contains offset = true := by
  obtain ⟨i, hindex, hi⟩ := Option.bind_eq_some_iff.1 h
  obtain ⟨found, hfound, hcontains⟩ := contains_of_index? hindex
  obtain rfl := Option.some.inj (hfound.symm.trans hi)
  exact hcontains

theorem toNat_sub_of_contains {ρ : Type} {piece : Piece ρ} {offset : Word}
    (h : piece.contains offset = true) :
    (offset - piece.offset).toNat = offset.toNat - piece.offset.toNat ∧
      piece.offset.toNat ≤ offset.toNat ∧
      offset.toNat < piece.offset.toNat + piece.length.toNat := by
  simp only [contains, Bool.and_eq_true, decide_eq_true_eq] at h
  obtain ⟨hstart, hstop⟩ := h
  rw [stop, UInt64.lt_iff_toNat_lt, UInt64.toNat_add] at hstop
  exact ⟨UInt64.toNat_sub_of_le _ _ hstart, UInt64.le_iff_toNat_le.1 hstart,
    Nat.lt_of_lt_of_le hstop (Nat.mod_le _ _)⟩

theorem sub_lt_of_contains {ρ : Type} {piece : Piece ρ} {offset : Word}
    (h : piece.contains offset = true) : offset - piece.offset < piece.length := by
  obtain ⟨hinner, hstart, hstop⟩ := toNat_sub_of_contains h
  rw [UInt64.lt_iff_toNat_lt, hinner]
  omega

/-- A piece ends, without wrapping, by where another one starts. -/
def Precedes {ρ : Type} (first second : Piece ρ) : Prop :=
  first.offset ≤ first.stop ∧ first.stop ≤ second.offset

theorem BackToBack.start_le {ρ : Type} {start stop : Word} {pieces : List (Piece ρ)}
    (h : BackToBack start pieces stop) (hlt : start.toNat + totalLength pieces < UInt64.size)
    {piece : Piece ρ} (hpiece : piece ∈ pieces) : start ≤ piece.offset := by
  obtain ⟨before, after, rfl⟩ := List.append_of_mem hpiece
  rw [totalLength_append] at hlt
  rw [UInt64.le_iff_toNat_le, h.toNat_offset (by omega)]
  exact Nat.le_add_right _ _

theorem BackToBack.pairwise {ρ : Type} {start stop : Word} {pieces : List (Piece ρ)}
    (h : BackToBack start pieces stop) (hlt : start.toNat + totalLength pieces < UInt64.size) :
    pieces.Pairwise Precedes := by
  induction pieces generalizing start with
  | nil => exact List.Pairwise.nil
  | cons piece rest ih =>
    obtain ⟨rfl, hrest⟩ := h
    rw [totalLength] at hlt
    have hstop : piece.stop.toNat = piece.offset.toNat + piece.length.toNat := by
      rw [Piece.stop, toNat_add_of_lt (by omega)]
    have hlt' : piece.stop.toNat + totalLength rest < UInt64.size := by omega
    refine List.Pairwise.cons (fun later hlater => ⟨?_, hrest.start_le hlt' hlater⟩)
      (ih hrest hlt')
    rw [UInt64.le_iff_toNat_le, hstop]
    exact Nat.le_add_right _ _

theorem BackToBack.exists_contains {ρ : Type} {start stop offset : Word} {pieces : List (Piece ρ)}
    (h : BackToBack start pieces stop) (hstart : start ≤ offset) (hstop : offset < stop) :
    ∃ piece ∈ pieces, piece.contains offset = true := by
  induction pieces generalizing start with
  | nil =>
    obtain rfl : start = stop := h
    exact absurd hstop (UInt64.not_lt.2 hstart)
  | cons piece rest ih =>
    obtain ⟨rfl, hrest⟩ := h
    by_cases hin : offset < piece.offset + piece.length
    · exact ⟨piece, by simp, by simp [contains, Piece.stop, hstart, hin]⟩
    · obtain ⟨later, hlater, hcontains⟩ := ih hrest (UInt64.not_lt.1 hin)
      exact ⟨later, List.mem_cons_of_mem _ hlater, hcontains⟩

section Ordered

variable {ρ : Type} {before after : List (Piece ρ)} {piece : Piece ρ} {offset : Word}

theorem stop_le_of_contains (h : (before ++ piece :: after).Pairwise Precedes)
    (hcontains : piece.contains offset = true) :
    ∀ p ∈ before, p.offset ≤ p.stop ∧ p.stop ≤ offset := by
  obtain ⟨-, -, hbefore⟩ := List.pairwise_append.1 h
  simp only [contains, Bool.and_eq_true, decide_eq_true_eq] at hcontains
  intro p hp
  have hprecedes := hbefore p hp piece (by simp)
  exact ⟨hprecedes.1, UInt64.le_trans hprecedes.2 hcontains.1⟩

theorem lt_offset_of_contains (h : (before ++ piece :: after).Pairwise Precedes)
    (hcontains : piece.contains offset = true) : ∀ p ∈ after, offset < p.offset := by
  obtain ⟨-, hafter, -⟩ := List.pairwise_append.1 h
  simp only [contains, Bool.and_eq_true, decide_eq_true_eq] at hcontains
  exact fun p hp => UInt64.lt_of_lt_of_le hcontains.2 (List.rel_of_pairwise_cons hafter hp).2

theorem scan?_of_contains (h : (before ++ piece :: after).Pairwise Precedes)
    (hcontains : piece.contains offset = true) :
    scan? (before ++ piece :: after) offset = some before.length := by
  -- the pieces before the one that holds the offset have all ended
  have hnone : ∀ p ∈ before, p.contains offset = false := fun p hp => by
    simp [contains, UInt64.not_lt.2 (stop_le_of_contains h hcontains p hp).2]
  rw [scan?, List.findIdx?_append, List.findIdx?_eq_none_iff.2 hnone]
  simp [List.findIdx?_cons, hcontains]

theorem bisect?_of_contains (h : (before ++ piece :: after).Pairwise Precedes)
    (hcontains : piece.contains offset = true) :
    bisect? (before ++ piece :: after) offset = some before.length := by
  have hstart : piece.offset ≤ offset := by
    simp only [contains, Bool.and_eq_true, decide_eq_true_eq] at hcontains
    exact hcontains.1
  -- empty pieces may start where this one does, but only before it
  have hcount : partitionPoint (fun p : Piece ρ => decide (p.offset ≤ offset))
      (before ++ piece :: after) = before.length + 1 := by
    have hsplit := partitionPoint_append (fun p : Piece ρ => decide (p.offset ≤ offset))
      (before ++ [piece]) after
    rw [List.append_assoc, List.singleton_append, List.length_append] at hsplit
    refine hsplit (fun p hp => ?_)
      (fun p hp => by simpa using lt_offset_of_contains h hcontains p hp)
    rcases List.mem_append.1 hp with hp | hp
    · have hended := stop_le_of_contains h hcontains p hp
      exact decide_eq_true (UInt64.le_trans hended.1 hended.2)
    · rw [List.mem_singleton.1 hp]
      exact decide_eq_true hstart
  simp [bisect?, hcount, hcontains]

theorem index?_of_contains (h : (before ++ piece :: after).Pairwise Precedes)
    (hcontains : piece.contains offset = true) (settings : Settings) :
    index? settings (before ++ piece :: after) offset = some before.length := by
  rw [index?]
  split
  · exact scan?_of_contains h hcontains
  · exact bisect?_of_contains h hcontains

end Ordered

/-- On pieces in order, a scan and halving give one answer, also where no piece holds the offset. -/
theorem scan?_eq_bisect? {ρ : Type} {pieces : List (Piece ρ)} (h : pieces.Pairwise Precedes)
    (offset : Word) : scan? pieces offset = bisect? pieces offset := by
  by_cases hheld : ∃ piece ∈ pieces, piece.contains offset = true
  · obtain ⟨piece, hpiece, hcontains⟩ := hheld
    obtain ⟨before, after, rfl⟩ := List.append_of_mem hpiece
    rw [scan?_of_contains h hcontains, bisect?_of_contains h hcontains]
  · have hmiss : ∀ {i : Nat} {piece : Piece ρ}, pieces[i]? = some piece →
        piece.contains offset ≠ true := fun hi hcontains =>
      hheld ⟨_, List.mem_of_getElem? hi, hcontains⟩
    have hscan : scan? pieces offset = none := Option.eq_none_iff_forall_ne_some.2 fun i hi => by
      obtain ⟨piece, hpiece, hcontains⟩ := contains_of_scan? hi
      exact hmiss hpiece hcontains
    have hbisect : bisect? pieces offset = none :=
      Option.eq_none_iff_forall_ne_some.2 fun i hi => by
        obtain ⟨piece, hpiece, hcontains⟩ := contains_of_bisect? hi
        exact hmiss hpiece hcontains
    rw [hscan, hbisect]

theorem at?_eq_some_iff {ρ : Type} {settings : Settings} {pieces : List (Piece ρ)} {offset : Word}
    {piece : Piece ρ} (h : pieces.Pairwise Precedes) :
    at? settings pieces offset = some piece ↔
      piece ∈ pieces ∧ piece.contains offset = true := by
  constructor
  · exact fun hat => ⟨mem_of_at? hat, contains_of_at? hat⟩
  · rintro ⟨hpiece, hcontains⟩
    obtain ⟨before, after, rfl⟩ := List.append_of_mem hpiece
    rw [at?, index?_of_contains h hcontains]
    simp

theorem BackToBack.toNat_piece_stop {ρ : Type} {start stop : Word} {pieces : List (Piece ρ)}
    (h : BackToBack start pieces stop) (hlt : start.toNat + totalLength pieces < UInt64.size)
    {piece : Piece ρ} (hpiece : piece ∈ pieces) :
    piece.stop.toNat = piece.offset.toNat + piece.length.toNat := by
  obtain ⟨before, after, rfl⟩ := List.append_of_mem hpiece
  rw [totalLength_append, totalLength] at hlt
  have hoffset := h.toNat_offset (by omega)
  exact toNat_add_of_lt (by omega)

theorem BackToBack.offset_le_stop {ρ : Type} {start stop : Word} {pieces : List (Piece ρ)}
    (h : BackToBack start pieces stop) (hlt : start.toNat + totalLength pieces < UInt64.size)
    {piece : Piece ρ} (hpiece : piece ∈ pieces) : piece.offset ≤ piece.stop := by
  rw [UInt64.le_iff_toNat_le, h.toNat_piece_stop hlt hpiece]
  exact Nat.le_add_right _ _

theorem BackToBack.stop_le {ρ : Type} {start stop : Word} {pieces : List (Piece ρ)}
    (h : BackToBack start pieces stop) (hlt : start.toNat + totalLength pieces < UInt64.size)
    {piece : Piece ρ} (hpiece : piece ∈ pieces) : piece.stop ≤ stop := by
  rw [UInt64.le_iff_toNat_le, h.toNat_stop hlt, h.toNat_piece_stop hlt hpiece]
  obtain ⟨before, after, rfl⟩ := List.append_of_mem hpiece
  rw [totalLength_append, totalLength] at hlt ⊢
  rw [h.toNat_offset (by omega)]
  omega

theorem BackToBack.at?_eq_none {ρ : Type} {start stop offset : Word} {pieces : List (Piece ρ)}
    (h : BackToBack start pieces stop) (hlt : start.toNat + totalLength pieces < UInt64.size)
    (hoffset : stop ≤ offset) (settings : Settings) : at? settings pieces offset = none := by
  refine Option.eq_none_iff_forall_ne_some.2 fun piece hat => ?_
  have hcontains := contains_of_at? hat
  simp only [contains, Bool.and_eq_true, decide_eq_true_eq] at hcontains
  have hle := UInt64.le_trans (h.stop_le hlt (mem_of_at? hat)) hoffset
  exact UInt64.not_lt.2 hle hcontains.2

theorem exists_filled {ρ : Type} {pieces : List (Piece ρ)} (h : 0 < totalLength pieces) :
    ∃ piece ∈ pieces, 0 < piece.length := by
  induction pieces with
  | nil => exact absurd h (Nat.lt_irrefl 0)
  | cons piece rest ih =>
    rw [totalLength] at h
    by_cases hrest : 0 < totalLength rest
    · obtain ⟨later, hlater, hfilled⟩ := ih hrest
      exact ⟨later, List.mem_cons_of_mem _ hlater, hfilled⟩
    · refine ⟨piece, List.mem_cons_self, ?_⟩
      rw [UInt64.lt_iff_toNat_lt, UInt64.toNat_zero]
      omega

theorem exists_lastFilled?_append {ρ : Type} {pieces : List (Piece ρ)}
    (h : 0 < totalLength pieces) :
    ∃ before piece after, pieces = before ++ piece :: after ∧ 0 < piece.length ∧
      (∀ p ∈ after, ¬ 0 < p.length) ∧ lastFilled? pieces = some piece := by
  obtain ⟨filled, hmem, hfilled⟩ := exists_filled h
  have hsome : (pieces.reverse.find? fun p => decide (0 < p.length)).isSome := by
    rw [List.find?_isSome]
    exact ⟨filled, List.mem_reverse.2 hmem, decide_eq_true hfilled⟩
  obtain ⟨piece, hpiece⟩ := Option.isSome_iff_exists.1 hsome
  obtain ⟨hlast, after, before, hsplit, hafter⟩ := List.find?_eq_some_iff_append.1 hpiece
  refine ⟨before.reverse, piece, after.reverse, ?_, of_decide_eq_true hlast, fun p hp => ?_, ?_⟩
  · rw [← List.reverse_reverse pieces, hsplit]
    simp
  · simpa using hafter p (List.mem_reverse.1 hp)
  · rw [lastFilled?, hpiece]

end Piece

namespace Record

@[simp] theorem length_mk_ofLength (node : NodeId) (length : Word) (link : Link Record) :
    (mk node (Range.ofLength length) link).length = length :=
  Range.length_ofLength length

theorem layOut_eq_ok_iff {index : Nat} {start stop : Word} {contributions : List (Record × Word)}
    {pieces : List (Piece Record)} :
    layOut index start contributions = .ok (pieces, stop) ↔
      pieces.map (fun piece => (piece.source, piece.length)) = contributions ∧
        Piece.BackToBack start pieces stop ∧
        ∀ piece ∈ pieces, piece.length ≤ piece.source.length := by
  induction contributions generalizing index start pieces with
  | nil =>
    cases pieces with
    | nil => simp [layOut, Piece.BackToBack]
    | cons piece rest => simp [layOut]
  | cons contribution contributions ih =>
    obtain ⟨source, length⟩ := contribution
    cases pieces with
    | nil =>
      simp only [layOut, List.map_nil, List.nil_eq, reduceCtorEq, false_and, iff_false]
      split
      · simp
      · split <;> simp
    | cons piece rest =>
      obtain ⟨source', offset', length'⟩ := piece
      simp only [layOut, List.map_cons, List.cons.injEq, Prod.mk.injEq, Piece.BackToBack,
        List.forall_mem_cons]
      have hrest := @ih (index + 1) (start + length) rest
      constructor
      · intro h
        split at h
        · contradiction
        · next hle =>
          split at h
          · next laid total hlaid =>
            cases h
            obtain ⟨hmap, hback, hall⟩ := hrest.1 hlaid
            exact ⟨⟨⟨rfl, rfl⟩, hmap⟩, ⟨rfl, hback⟩, UInt64.not_lt.1 hle, hall⟩
          · contradiction
      · rintro ⟨⟨⟨rfl, rfl⟩, hmap⟩, ⟨rfl, hback⟩, hle, hall⟩
        rw [if_neg (UInt64.not_lt.2 hle), hrest.2 ⟨hmap, hback, hall⟩]

theorem slice_bounds_iff {offset length total : Word} :
    (offset ≤ offset + length ∧ offset + length ≤ total) ↔
      (offset ≤ total ∧ length ≤ total - offset) := by
  constructor
  · rintro ⟨hstart, hstop⟩
    have hle := UInt64.le_trans hstart hstop
    have hlength := UInt64.toNat_sub_of_le _ _ hstart
    rw [UInt64.add_comm, UInt64.add_sub_cancel] at hlength
    refine ⟨hle, ?_⟩
    rw [UInt64.le_iff_toNat_le] at hstop ⊢
    rw [UInt64.toNat_sub_of_le _ _ hle, hlength, UInt64.add_comm]
    omega
  · rintro ⟨hle, hlength⟩
    rw [UInt64.le_iff_toNat_le, UInt64.toNat_sub_of_le _ _ hle] at hlength
    rw [UInt64.le_iff_toNat_le] at hle
    have htotal := total.toNat_lt_size
    have hstop : (offset + length).toNat = offset.toNat + length.toNat :=
      toNat_add_of_lt (by omega)
    rw [UInt64.le_iff_toNat_le, UInt64.le_iff_toNat_le, hstop]
    omega

theorem substring_eq_ok_iff {node : NodeId} {parent record : Record} {start stop : Word} :
    substring node parent start stop = .ok record ↔
      start ≤ stop ∧ stop ≤ parent.length ∧
        record = mk node (Range.ofLength (stop - start)) (.substring parent start) := by
  unfold substring
  constructor
  · intro h
    split at h
    · contradiction
    · next hbounds =>
      rw [not_or, UInt64.not_lt, UInt64.not_lt] at hbounds
      cases h
      exact ⟨hbounds.1, hbounds.2, rfl⟩
  · rintro ⟨hstart, hstop, rfl⟩
    rw [if_neg (by rw [not_or, UInt64.not_lt, UInt64.not_lt]; exact ⟨hstart, hstop⟩)]

theorem concat_eq_ok_iff {node : NodeId} {contributions : List (Record × Word)}
    {record : Record} :
    concat node contributions = .ok record ↔
      ∃ pieces total, pieces.map (fun piece => (piece.source, piece.length)) = contributions ∧
        Piece.BackToBack 0 pieces total ∧
        (∀ piece ∈ pieces, piece.length ≤ piece.source.length) ∧
        record = mk node (Range.ofLength total) (.concat pieces) := by
  unfold concat
  constructor
  · intro h
    split at h
    · next pieces total hlaid =>
      cases h
      obtain ⟨hmap, hback, hall⟩ := layOut_eq_ok_iff.1 hlaid
      exact ⟨pieces, total, hmap, hback, hall, rfl⟩
    · contradiction
  · rintro ⟨pieces, total, hmap, hback, hall, rfl⟩
    rw [layOut_eq_ok_iff.2 ⟨hmap, hback, hall⟩]

theorem transformed_eq_ok_iff {node : NodeId} {parent record : Record} {mapping : Mapping}
    {length : Word} :
    transformed node parent mapping length = .ok record ↔
      mapping.firstFault? parent.length length = none ∧
        record = mk node (Range.ofLength length) (.transformed parent mapping) := by
  unfold transformed
  split
  · next index entry fault hfault => simp [hfault]
  · next hfault => simp [hfault, eq_comm]

end Record

end TextOrigin

import TextOrigin.LineTable

/-!
Rows of a line table. The row of an offset is the number of newlines before it. It starts at or before
the offset and ends at or behind it, ends included, and it is the only row that does. Later offsets
are in later rows, or further right in the same row. All of this holds of every table, also of one
that was given from outside, and with it no word that the search computes wraps. Main statement:
`locate?_eq_some_iff`.
-/

namespace TextOrigin

def Position.Before (first second : Position) : Prop :=
  first.row < second.row ∨ first.row = second.row ∧ first.column < second.column

namespace LineTable

variable {table : LineTable} {offset later row start stop : Word}

def rowOf (table : LineTable) (offset : Word) : Nat :=
  partitionPoint (· < offset) table.breaks

theorem lt_rowOf_iff {i : Nat} {b : Word} (h : table.breaks[i]? = some b) :
    i < table.rowOf offset ↔ b < offset := by
  have hcut : table.breaks.Pairwise
      fun x y => decide (y < offset) = true → decide (x < offset) = true := by
    refine table.increasing.imp fun {x y} hlt hy => ?_
    exact decide_eq_true (UInt64.lt_trans hlt (of_decide_eq_true hy))
  have hpoint := lt_partitionPoint_iff hcut h
  rwa [decide_eq_true_eq] at hpoint

theorem rowOf_le (table : LineTable) (offset : Word) :
    table.rowOf offset ≤ table.breaks.length :=
  partitionPoint_le_length _ _

theorem break_lt_break {i : Nat} {b c : Word} (hb : table.breaks[i]? = some b)
    (hc : table.breaks[i + 1]? = some c) : b < c := by
  obtain ⟨hi, rfl⟩ := List.getElem?_eq_some_iff.1 hb
  obtain ⟨hnext, rfl⟩ := List.getElem?_eq_some_iff.1 hc
  exact List.pairwise_iff_getElem.1 table.increasing i (i + 1) hi hnext (Nat.lt_succ_self i)

theorem index_le_break {i : Nat} {b : Word} (h : table.breaks[i]? = some b) : i ≤ b.toNat := by
  induction i generalizing b with
  | zero => exact Nat.zero_le _
  | succ i ih =>
    obtain ⟨hi, -⟩ := List.getElem?_eq_some_iff.1 h
    have hprevious : table.breaks[i]? = some table.breaks[i] :=
      List.getElem?_eq_getElem (Nat.lt_of_succ_lt hi)
    have hlt := break_lt_break hprevious h
    exact Nat.lt_of_le_of_lt (ih hprevious) (UInt64.lt_iff_toNat_lt.1 hlt)

theorem length_breaks_le (table : LineTable) : table.breaks.length ≤ table.total.toNat := by
  cases hlength : table.breaks.length with
  | zero => exact Nat.zero_le _
  | succ n =>
    obtain ⟨b, hb⟩ : ∃ b, table.breaks[n]? = some b :=
      ⟨_, List.getElem?_eq_getElem (by rw [hlength]; exact Nat.lt_succ_self n)⟩
    have hbelow := table.below b (List.mem_of_getElem? hb)
    exact Nat.lt_of_le_of_lt (index_le_break hb) (UInt64.lt_iff_toNat_lt.1 hbelow)

theorem toNat_ofNat_row (table : LineTable) {n : Nat} (h : n ≤ table.breaks.length) :
    (UInt64.ofNat n).toNat = n :=
  UInt64.toNat_ofNat_of_lt'
    (Nat.lt_of_le_of_lt (Nat.le_trans h table.length_breaks_le) table.total.toNat_lt_size)

theorem toNat_break_add_one {b : Word} (h : b ∈ table.breaks) :
    (b + 1).toNat = b.toNat + 1 ∧ b + 1 ≤ table.total :=
  ⟨toNat_add_one (table.below b h), add_one_le (table.below b h)⟩

theorem break_lt_iff {b : Word} (h : b ∈ table.breaks) : b + 1 ≤ offset ↔ b < offset := by
  rw [UInt64.le_iff_toNat_le, (toNat_break_add_one h).1, UInt64.lt_iff_toNat_lt]
  exact Nat.succ_le_iff

theorem start_le_iff (h : table.lineStart? row = some start) :
    start ≤ offset ↔ row.toNat ≤ table.rowOf offset := by
  unfold lineStart? at h
  cases hrow : row.toNat with
  | zero =>
    rw [hrow] at h
    obtain rfl : 0 = start := Option.some.inj h
    exact iff_of_true UInt64.zero_le (Nat.zero_le _)
  | succ i =>
    rw [hrow] at h
    obtain ⟨b, hb, rfl⟩ := Option.map_eq_some_iff.1 h
    rw [break_lt_iff (List.mem_of_getElem? hb), Nat.succ_le_iff, lt_rowOf_iff hb]

theorem le_stop_iff (h : table.lineEnd? row = some stop) :
    offset ≤ stop ↔ offset ≤ table.total ∧ table.rowOf offset ≤ row.toNat := by
  unfold lineEnd? at h
  split at h
  · next hlast =>
    obtain rfl : table.total = stop := Option.some.inj h
    have hle := table.rowOf_le offset
    rw [hlast]
    exact (and_iff_left hle).symm
  · have hstop := table.below stop (List.mem_of_getElem? h)
    rw [← Nat.not_lt, lt_rowOf_iff h, UInt64.not_lt]
    exact (and_iff_right_of_imp fun hle => UInt64.le_trans hle (UInt64.le_of_lt hstop)).symm

theorem row_le_of_lineStart? (h : table.lineStart? row = some start) :
    row.toNat ≤ table.breaks.length := by
  unfold lineStart? at h
  cases hrow : row.toNat with
  | zero => exact Nat.zero_le _
  | succ i =>
    rw [hrow] at h
    obtain ⟨b, hb, -⟩ := Option.map_eq_some_iff.1 h
    exact (List.getElem?_eq_some_iff.1 hb).1

theorem exists_lineStart? (h : row.toNat ≤ table.breaks.length) :
    ∃ start, table.lineStart? row = some start := by
  unfold lineStart?
  cases hrow : row.toNat with
  | zero => exact ⟨0, rfl⟩
  | succ i =>
    rw [hrow] at h
    exact ⟨table.breaks[i] + 1, by simp [rowStart?, List.getElem?_eq_getElem h]⟩

theorem exists_lineEnd? (h : row.toNat ≤ table.breaks.length) :
    ∃ stop, table.lineEnd? row = some stop := by
  unfold lineEnd?
  split
  · exact ⟨table.total, rfl⟩
  · next hne => exact ⟨_, List.getElem?_eq_getElem (Nat.lt_of_le_of_ne h hne)⟩

theorem lineEnd?_cases (h : table.lineEnd? row = some stop) :
    stop = table.total ∨ stop ∈ table.breaks := by
  unfold lineEnd? at h
  split at h
  · exact .inl (Option.some.inj h).symm
  · exact .inr (List.mem_of_getElem? h)

theorem start_le_stop (hstart : table.lineStart? row = some start)
    (hstop : table.lineEnd? row = some stop) : start ≤ stop := by
  unfold lineStart? at hstart
  cases hrow : row.toNat with
  | zero =>
    rw [hrow] at hstart
    obtain rfl : 0 = start := Option.some.inj hstart
    exact UInt64.zero_le
  | succ i =>
    rw [hrow] at hstart
    obtain ⟨b, hb, rfl⟩ := Option.map_eq_some_iff.1 hstart
    unfold lineEnd? at hstop
    split at hstop
    · obtain rfl : table.total = stop := Option.some.inj hstop
      exact (toNat_break_add_one (List.mem_of_getElem? hb)).2
    · rw [hrow] at hstop
      exact add_one_le (break_lt_break hb hstop)

theorem stop_le_total (h : table.lineEnd? row = some stop) : stop ≤ table.total :=
  ((le_stop_iff h).1 (UInt64.le_refl stop)).1

theorem start_le_total (h : table.lineStart? row = some start) : start ≤ table.total := by
  obtain ⟨stop, hstop⟩ := exists_lineEnd? (row_le_of_lineStart? h)
  exact UInt64.le_trans (start_le_stop h hstop) (stop_le_total hstop)

theorem notMem_breaks_of_between (hstart : table.lineStart? row = some start)
    (hstop : table.lineEnd? row = some stop) (hle : start ≤ offset) (hlt : offset < stop) :
    offset ∉ table.breaks := by
  intro hmem
  obtain ⟨i, hi⟩ := List.mem_iff_getElem?.1 hmem
  have hnext : offset < offset + 1 := by
    rw [UInt64.lt_iff_toNat_lt, toNat_add_one hlt]
    exact Nat.lt_succ_self _
  have hfrom : row.toNat ≤ table.rowOf offset := (start_le_iff hstart).1 hle
  have hupto : table.rowOf (offset + 1) ≤ row.toNat := ((le_stop_iff hstop).1 (add_one_le hlt)).2
  have hbefore : i < table.rowOf (offset + 1) := (lt_rowOf_iff hi).2 hnext
  have hself : i < table.rowOf offset := by omega
  exact absurd ((lt_rowOf_iff hi).1 hself) (UInt64.lt_irrefl offset)

/-- An offset lies in a row, from its first byte to the newline or the end of the text behind it. -/
def Spans (table : LineTable) (row offset : Word) : Prop :=
  ∃ start stop, table.lineStart? row = some start ∧ table.lineEnd? row = some stop ∧
    start ≤ offset ∧ offset ≤ stop

theorem spans_iff : table.Spans row offset ↔
    offset ≤ table.total ∧ row.toNat = table.rowOf offset := by
  constructor
  · rintro ⟨start, stop, hstart, hstop, hle, hge⟩
    have hrow := (start_le_iff hstart).1 hle
    obtain ⟨htotal, hrow'⟩ := (le_stop_iff hstop).1 hge
    exact ⟨htotal, Nat.le_antisymm hrow hrow'⟩
  · rintro ⟨htotal, hrow⟩
    have hle : row.toNat ≤ table.breaks.length := by
      rw [hrow]
      exact table.rowOf_le offset
    obtain ⟨start, hstart⟩ := exists_lineStart? hle
    obtain ⟨stop, hstop⟩ := exists_lineEnd? hle
    exact ⟨start, stop, hstart, hstop, (start_le_iff hstart).2 (Nat.le_of_eq hrow),
      (le_stop_iff hstop).2 ⟨htotal, Nat.le_of_eq hrow.symm⟩⟩

/-- An offset of the text is found in its row, as far from the first byte of the row as the column
says. The sum is one of numbers, so the column was subtracted without a wrap. -/
theorem locate?_eq_some_iff {position : Position} :
    table.locate? offset = some position ↔
      offset ≤ table.total ∧ position.offset = offset ∧
        position.row.toNat = table.rowOf offset ∧
        ∃ start, table.lineStart? position.row = some start ∧
          start.toNat + position.column.toNat = offset.toNat := by
  have hword := table.toNat_ofNat_row (table.rowOf_le offset)
  constructor
  · intro h
    obtain ⟨htotal, hoffset⟩ := offset_of_locate? h
    rw [locate?, if_neg (UInt64.not_lt.2 htotal)] at h
    obtain ⟨start, hstart, rfl⟩ := Option.map_eq_some_iff.1 h
    have hline : table.lineStart? (UInt64.ofNat (table.rowOf offset)) = some start := by
      rw [lineStart?, hword]
      exact hstart
    have hle : start ≤ offset := (start_le_iff hline).2 (Nat.le_of_eq hword)
    refine ⟨htotal, hoffset, hword, start, hline, ?_⟩
    rw [UInt64.toNat_sub_of_le _ _ hle]
    exact Nat.add_sub_cancel' (UInt64.le_iff_toNat_le.1 hle)
  · obtain ⟨place, row, column⟩ := position
    rintro ⟨htotal, rfl, hrow, start, hstart, hsum⟩
    have hle : start ≤ place := (start_le_iff hstart).2 (Nat.le_of_eq hrow)
    have hcolumn : place - start = column := by
      apply UInt64.toNat_inj.1
      rw [UInt64.toNat_sub_of_le _ _ hle, ← hsum, Nat.add_sub_cancel_left]
    rw [lineStart?, hrow] at hstart
    rw [locate?, if_neg (UInt64.not_lt.2 htotal)]
    change (table.rowStart? (table.rowOf place)).map _ = some _
    rw [hstart, Option.map_some, hcolumn]
    change some (Position.mk place (UInt64.ofNat (table.rowOf place)) column) = _
    rw [← hrow, UInt64.ofNat_toNat]

theorem rowOf_mono (h : offset ≤ later) : table.rowOf offset ≤ table.rowOf later := by
  have hword := table.toNat_ofNat_row (table.rowOf_le offset)
  obtain ⟨start, hstart⟩ := exists_lineStart? (Nat.le_trans (Nat.le_of_eq hword) (table.rowOf_le offset))
  have hle : start ≤ offset := (start_le_iff hstart).2 (Nat.le_of_eq hword)
  rw [← hword]
  exact (start_le_iff hstart).1 (UInt64.le_trans hle h)

theorem before_of_lt {position next : Position} (hlt : offset < later)
    (h : table.locate? offset = some position) (hnext : table.locate? later = some next) :
    position.Before next := by
  obtain ⟨-, -, hrow, start, hstart, hsum⟩ := locate?_eq_some_iff.1 h
  obtain ⟨-, -, hrowNext, startNext, hstartNext, hsumNext⟩ := locate?_eq_some_iff.1 hnext
  have hmono := table.rowOf_mono (UInt64.le_of_lt hlt)
  rw [← hrow, ← hrowNext, ← UInt64.le_iff_toNat_le] at hmono
  by_cases heq : position.row = next.row
  · rw [heq, hstartNext] at hstart
    obtain rfl : startNext = start := Option.some.inj hstart
    rw [UInt64.lt_iff_toNat_lt] at hlt
    refine .inr ⟨heq, UInt64.lt_iff_toNat_lt.2 ?_⟩
    omega
  · exact .inl (UInt64.lt_of_le_of_ne hmono heq)

end LineTable

end TextOrigin

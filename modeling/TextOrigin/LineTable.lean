import TextOrigin.Text
import TextOrigin.Bisection
import TextOrigin.Position

/-!
Line tables: the offsets of all newlines of a text and its length. They turn offsets into rows and
columns without the text. A newline belongs to the line that it ends. The offsets increase and stay
below the length, and `ofBreaks?` accepts a table given from outside only if they do.
-/

namespace TextOrigin

def newlineOffsets (start : Nat) : Bytes → List Nat
  | [] => []
  | b :: rest =>
    if b = Bytes.newline then start :: newlineOffsets (start + 1) rest
    else newlineOffsets (start + 1) rest

structure LineTable where
  breaks : List Word
  total : Word
  increasing : breaks.Pairwise (· < ·)
  below : ∀ b ∈ breaks, b < total

namespace LineTable

def ascends (total : Word) : List Word → Bool
  | [] => true
  | [b] => b < total
  | b :: c :: rest => b < total && b < c && ascends total (c :: rest)

theorem ascends_iff {total : Word} {breaks : List Word} :
    ascends total breaks = true ↔ breaks.Pairwise (· < ·) ∧ ∀ b ∈ breaks, b < total := by
  fun_induction ascends total breaks with
  | case1 => simp
  | case2 b => simp
  | case3 b c rest ih =>
    rw [Bool.and_eq_true, Bool.and_eq_true, decide_eq_true_eq, decide_eq_true_eq, ih]
    constructor
    · rintro ⟨⟨hb, hbc⟩, hpair, hall⟩
      refine ⟨List.Pairwise.cons (fun d hd => ?_) hpair, fun d hd => ?_⟩
      · rcases List.mem_cons.1 hd with rfl | hd'
        · exact hbc
        · exact UInt64.lt_trans hbc (List.rel_of_pairwise_cons hpair hd')
      · rcases List.mem_cons.1 hd with rfl | hd'
        · exact hb
        · exact hall d hd'
    · rintro ⟨hpair, hall⟩
      exact ⟨⟨hall b (by simp), List.rel_of_pairwise_cons hpair (by simp)⟩, hpair.of_cons,
        fun d hd => hall d (List.mem_cons_of_mem b hd)⟩

def ofBreaks? (breaks : List Word) (total : Word) : Option LineTable :=
  if h : ascends total breaks = true then
    some ⟨breaks, total, (ascends_iff.1 h).1, (ascends_iff.1 h).2⟩
  else none

theorem newlineOffsets_bounds {start : Nat} {bytes : Bytes} {n : Nat}
    (h : n ∈ newlineOffsets start bytes) : start ≤ n ∧ n < start + bytes.length := by
  induction bytes generalizing start with
  | nil => simp [newlineOffsets] at h
  | cons b rest ih =>
    have later : n ∈ newlineOffsets (start + 1) rest →
        start ≤ n ∧ n < start + (b :: rest).length := fun hn => by
      have := ih hn
      rw [List.length_cons]
      omega
    rw [newlineOffsets] at h
    split at h
    · rcases List.mem_cons.1 h with rfl | hn
      · rw [List.length_cons]; omega
      · exact later hn
    · exact later h

theorem newlineOffsets_pairwise (start : Nat) (bytes : Bytes) :
    (newlineOffsets start bytes).Pairwise (· < ·) := by
  induction bytes generalizing start with
  | nil => exact List.Pairwise.nil
  | cons b rest ih =>
    rw [newlineOffsets]
    split
    · exact List.Pairwise.cons (fun n hn => (newlineOffsets_bounds hn).1) (ih _)
    · exact ih _

def ofText (text : Text) : LineTable where
  breaks := (newlineOffsets 0 text.bytes).map UInt64.ofNat
  total := text.size
  increasing := by
    rw [List.pairwise_map]
    refine (newlineOffsets_pairwise 0 text.bytes).imp_of_mem fun {a b} ha hb hab => ?_
    have hb' := (newlineOffsets_bounds hb).2
    have := text.length_lt
    rw [UInt64.lt_iff_toNat_lt, UInt64.toNat_ofNat_of_lt' (by omega), UInt64.toNat_ofNat_of_lt' (by omega)]
    exact hab
  below := by
    intro w hw
    obtain ⟨n, hn, rfl⟩ := List.mem_map.1 hw
    have hn' := (newlineOffsets_bounds hn).2
    have := text.length_lt
    rw [UInt64.lt_iff_toNat_lt, UInt64.toNat_ofNat_of_lt' (by omega), text.toNat_size]
    omega

def lineCount (table : LineTable) : Nat := table.breaks.length + 1

def rowStart? (table : LineTable) : Nat → Option Word
  | 0 => some 0
  | row + 1 => table.breaks[row]?.map (· + 1)

/-- Row and column of an offset up to the end of the text. The row is the number of newlines before
the offset, so an offset on a newline stays on the line that the newline ends. -/
def locate? (table : LineTable) (offset : Word) : Option Position :=
  if table.total < offset then none
  else
    let row := partitionPoint (· < offset) table.breaks
    (table.rowStart? row).map fun start => ⟨offset, UInt64.ofNat row, offset - start⟩

theorem exists_locate? {table : LineTable} {offset : Word} (h : offset ≤ table.total) :
    ∃ position, table.locate? offset = some position := by
  rw [locate?, if_neg (UInt64.not_lt.2 h)]
  cases hcount : partitionPoint (fun b => decide (b < offset)) table.breaks with
  | zero => exact ⟨_, rfl⟩
  | succ row =>
    obtain ⟨b, hb, -⟩ := partitionPoint_eq_succ hcount
    simp [rowStart?, hb]

theorem offset_of_locate? {table : LineTable} {offset : Word} {position : Position}
    (h : table.locate? offset = some position) :
    offset ≤ table.total ∧ position.offset = offset := by
  unfold locate? at h
  split at h
  · contradiction
  · next hle =>
    obtain ⟨start, -, rfl⟩ := Option.map_eq_some_iff.1 h
    exact ⟨UInt64.not_lt.1 hle, rfl⟩

theorem partitionPoint_break {before after : List Word} {offset : Word}
    (h : (before ++ offset :: after).Pairwise (· < ·))
    (hnext : (offset + 1).toNat = offset.toNat + 1) :
    partitionPoint (· < offset) (before ++ offset :: after) = before.length ∧
      partitionPoint (· < offset + 1) (before ++ offset :: after) = before.length + 1 := by
  obtain ⟨-, hfrom, hbefore⟩ := List.pairwise_append.1 h
  have hless : ∀ b ∈ before, b.toNat < offset.toNat := fun b hb =>
    UInt64.lt_iff_toNat_lt.1 (hbefore b hb offset List.mem_cons_self)
  have hmore : ∀ b ∈ after, offset.toNat < b.toNat := fun b hb =>
    UInt64.lt_iff_toNat_lt.1 (List.rel_of_pairwise_cons hfrom hb)
  constructor
  · refine partitionPoint_append _ before _ (fun b hb => ?_) (fun b hb => ?_)
    · rw [decide_eq_true_eq, UInt64.lt_iff_toNat_lt]
      exact hless b hb
    · rw [decide_eq_false_iff_not, UInt64.lt_iff_toNat_lt]
      rcases List.mem_cons.1 hb with rfl | hb
      · exact Nat.lt_irrefl _
      · exact Nat.not_lt.2 (Nat.le_of_lt (hmore b hb))
  · have hsplit := partitionPoint_append (fun b : Word => decide (b < offset + 1))
      (before ++ [offset]) after
    rw [List.append_assoc, List.singleton_append, List.length_append] at hsplit
    refine hsplit (fun b hb => ?_) (fun b hb => ?_)
    · rw [decide_eq_true_eq, UInt64.lt_iff_toNat_lt, hnext]
      rcases List.mem_append.1 hb with hb | hb
      · exact Nat.lt_succ_of_lt (hless b hb)
      · rw [List.mem_singleton.1 hb]
        exact Nat.lt_succ_self _
    · rw [decide_eq_false_iff_not, UInt64.lt_iff_toNat_lt, hnext]
      exact Nat.not_lt.2 (hmore b hb)

theorem locate?_after_break {table : LineTable} {offset : Word} {position : Position}
    (hbreak : offset ∈ table.breaks) (h : table.locate? offset = some position) :
    table.locate? (offset + 1) = some ⟨offset + 1, position.row + 1, 0⟩ := by
  have hbelow := table.below offset hbreak
  have hinside : ¬ table.total < offset := UInt64.not_lt.2 (UInt64.le_of_lt hbelow)
  have hinsideNext : ¬ table.total < offset + 1 := UInt64.not_lt.2 (add_one_le hbelow)
  obtain ⟨before, after, hbreaks⟩ := List.append_of_mem hbreak
  have hincreasing := table.increasing
  rw [hbreaks] at hincreasing
  obtain ⟨hrow, hrowNext⟩ := partitionPoint_break hincreasing (toNat_add_one hbelow)
  rw [locate?, if_neg hinside, hbreaks, hrow] at h
  obtain ⟨start, -, rfl⟩ := Option.map_eq_some_iff.1 h
  rw [locate?, if_neg hinsideNext, hbreaks, hrowNext]
  simp [rowStart?, hbreaks]

def lineStart? (table : LineTable) (row : Word) : Option Word :=
  table.rowStart? row.toNat

/-- Offset of the newline that ends a row; the last row ends with the text. -/
def lineEnd? (table : LineTable) (row : Word) : Option Word :=
  if row.toNat = table.breaks.length then some table.total
  else table.breaks[row.toNat]?

end LineTable

end TextOrigin

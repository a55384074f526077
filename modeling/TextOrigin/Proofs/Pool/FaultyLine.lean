import TextOrigin.Pool.Parser
import TextOrigin.Proofs.Bytes.Separators

/-!
Where reading stops. A text that is not read as a pool is at fault in one of its lines. The lines
before that one are read on their own, or lack the header only, and the lines up to it fail in the
same way as the whole text. The empty text has no line and is at fault in line zero. Main statement:
`parse_error_line`.
-/

namespace TextOrigin.Pool

namespace Parser

theorem zipIdx_take (lines : List Bytes) (start n : Nat) :
    (lines.take n).zipIdx start = (lines.zipIdx start).filter (fun line => line.2 < start + n) := by
  induction lines generalizing start n with
  | nil => rw [List.take_nil, List.zipIdx_nil, List.filter_nil]
  | cons line rest ih =>
    cases n with
    | zero =>
      symm
      rw [List.take_zero, List.zipIdx_nil, List.filter_eq_nil_iff]
      intro later hlater
      have hle := List.le_snd_of_mem_zipIdx hlater
      simpa using hle
    | succ n =>
      have hself : start < start + (n + 1) := by omega
      rw [List.take_succ_cons, List.zipIdx_cons, List.zipIdx_cons, ih, List.filter_cons]
      simp only [hself, decide_true, if_true, Nat.add_assoc, Nat.add_comm 1 n]

theorem contentLines_firstLines (text : Bytes) (n : Nat) :
    contentLines (text.firstLines n) = (contentLines text).filter (fun line => line.2 ≤ n) := by
  rw [contentLines, contentLines, Bytes.lines_firstLines, zipIdx_take]
  simp only [List.filter_map, List.filter_filter]
  congr 1
  apply List.filter_congr
  intro line _
  have hbound : decide (line.2 < 1 + n) = decide (line.2 ≤ n) := by
    rw [decide_eq_decide]
    omega
  simp only [Function.comp_apply, hbound]
  exact Bool.and_comm _ _

theorem numbers_sublist (text : Bytes) :
    ((contentLines text).map Prod.snd).Sublist (List.range' 1 (Bytes.lines text).length) := by
  rw [← List.zipIdx_map_snd 1 (Bytes.lines text), contentLines]
  apply (List.filter_sublist.map Prod.snd).trans
  rw [List.map_map]
  exact List.Sublist.refl _

theorem filter_number_le {before after : List (Bytes × Nat)} {n : Nat}
    (hbefore : ∀ line ∈ before, line.2 ≤ n) (hafter : ∀ line ∈ after, n < line.2) :
    (before ++ after).filter (fun line => line.2 ≤ n) = before := by
  have hkept : before.filter (fun line => line.2 ≤ n) = before :=
    List.filter_eq_self.2 fun line hline => decide_eq_true (hbefore line hline)
  have hdropped : after.filter (fun line => line.2 ≤ n) = [] :=
    List.filter_eq_nil_iff.2 fun line hline => by simpa using hafter line hline
  rw [List.filter_append, hkept, hdropped, List.append_nil]

theorem entriesFrom_stops {pool : Pool} {lines : List (Bytes × Nat)} {error : ParseError}
    (h : entriesFrom pool lines = .error error) :
    ∃ before line index after, lines = before ++ (line, index) :: after ∧
      error.line = lineNumber index ∧ (∃ read, entriesFrom pool before = .ok read) ∧
      entriesFrom pool (before ++ [(line, index)]) = .error error := by
  induction lines generalizing pool with
  | nil => contradiction
  | cons line rest ih =>
    obtain ⟨line, index⟩ := line
    rw [entriesFrom] at h
    cases hread : (entry pool.size).run (Bytes.tokens line) with
    | error fault =>
      simp only [hread, Except.error.injEq] at h
      subst h
      refine ⟨[], line, index, rest, rfl, rfl, ⟨pool, rfl⟩, ?_⟩
      simp only [List.nil_append, entriesFrom, hread]
    | ok read =>
      simp only [hread] at h
      obtain ⟨before, last, faulty, after, rfl, hline, ⟨result, hbefore⟩, hlast⟩ := ih h
      refine ⟨(line, index) :: before, last, faulty, after, rfl, hline, ⟨result, ?_⟩, ?_⟩
      · simp only [entriesFrom, hread, hbefore]
      · simp only [List.cons_append, entriesFrom, hread, hlast]

theorem contentLines_cut {text : Bytes} {before after : List (Bytes × Nat)} {line : Bytes × Nat}
    (h : contentLines text = before ++ line :: after) :
    (1 ≤ line.2 ∧ line.2 ≤ (Bytes.lines text).length) ∧
      contentLines (text.firstLines (line.2 - 1)) = before ∧
      contentLines (text.firstLines line.2) = before ++ [line] := by
  -- Empty lines and comments leave gaps in the numbers, but the order of the lines is theirs too.
  have hnumbers := numbers_sublist text
  rw [h, List.map_append, List.map_cons] at hnumbers
  have hmem := List.mem_range'_1.1 (hnumbers.subset (List.mem_append_right _ List.mem_cons_self))
  have hincreasing := List.Pairwise.sublist hnumbers List.pairwise_lt_range'
  obtain ⟨-, hfrom, hupto⟩ := List.pairwise_append.1 hincreasing
  have hbefore : ∀ other ∈ before, other.2 < line.2 := fun other hother =>
    hupto other.2 (List.mem_map_of_mem hother) line.2 List.mem_cons_self
  have hafter : ∀ other ∈ after, line.2 < other.2 := fun other hother =>
    List.rel_of_pairwise_cons hfrom (List.mem_map_of_mem hother)
  refine ⟨by omega, ?_, ?_⟩
  · rw [contentLines_firstLines, h]
    apply filter_number_le
    · intro other hother
      exact Nat.le_sub_one_of_lt (hbefore other hother)
    · intro other hother
      rcases List.mem_cons.1 hother with rfl | hother
      · omega
      · have hlt := hafter other hother
        omega
  · rw [contentLines_firstLines, h, List.append_cons]
    apply filter_number_le
    · intro other hother
      rcases List.mem_append.1 hother with hother | hother
      · exact Nat.le_of_lt (hbefore other hother)
      · exact Nat.le_of_eq (congrArg Prod.snd (List.mem_singleton.1 hother))
    · exact hafter

end Parser

open Pool.Parser

theorem toNat_lineNumber (index : Nat) : (lineNumber index).toNat = index % UInt32.size :=
  UInt32.toNat_ofNat'

/-- A text that is read as a pool, or that lacks the header only. -/
def Unspoiled (text : Bytes) : Prop :=
  (∃ pool, parse text = .ok pool) ∨ ∃ number, parse text = .error ⟨number, .noHeader⟩

theorem parse_of_contentLines_eq_nil {text : Bytes} (h : contentLines text = []) :
    parse text = .error ⟨lineNumber (Bytes.lines text).length, .noHeader⟩ := by
  rw [parse, h]

theorem parse_stops {text : Bytes} {error : ParseError} (h : parse text = .error error)
    (hne : contentLines text ≠ []) :
    ∃ before line index after, contentLines text = before ++ (line, index) :: after ∧
      error.line = lineNumber index ∧ (∀ short, contentLines short = before → Unspoiled short) ∧
      ∀ short, contentLines short = before ++ [(line, index)] → parse short = .error error := by
  cases hlines : contentLines text with
  | nil => exact absurd hlines hne
  | cons first rest =>
    obtain ⟨line, index⟩ := first
    rw [parse, hlines] at h
    by_cases hheader : line = header
    · -- The fault lies in an entry: what is before it is a pool.
      simp only [hheader, if_true] at h
      obtain ⟨before, last, faulty, after, rfl, hline, ⟨read, hbefore⟩, hlast⟩ :=
        entriesFrom_stops h
      refine ⟨(line, index) :: before, last, faulty, after, rfl, hline, fun short hshort => ?_,
        fun short hshort => ?_⟩
      · refine .inl ⟨read, ?_⟩
        rw [parse, hshort]
        simp only [hheader, if_true, hbefore]
      · rw [parse, hshort, List.cons_append]
        simp only [hheader, if_true, hlast]
    · -- The first line that counts is no header: what is before it has none either.
      simp only [hheader, if_false, Except.error.injEq] at h
      subst h
      refine ⟨[], line, index, rest, rfl, rfl,
        fun short hshort => .inr ⟨_, parse_of_contentLines_eq_nil hshort⟩, fun short hshort => ?_⟩
      rw [parse, hshort, List.nil_append]
      simp only [hheader, if_false]

/-- An error names a line of the text by its number, counted in a word of 32 bits, unless the text
is empty. The lines before it are read on their own or lack the header only, and the lines up to it
fail alike. -/
theorem parse_error_line {text : Bytes} {error : ParseError} (h : parse text = .error error) :
    ∃ number ≤ (Bytes.lines text).length,
      error.message =
        ascii "Line " ++ decimal error.line.toNat ++ ascii ": " ++ error.fault.message ∧
      error.line.toNat = number % UInt32.size ∧
      ((Bytes.lines text).length < UInt32.size → error.line.toNat = number) ∧
      (1 ≤ number ↔ text ≠ []) ∧ Unspoiled (text.firstLines (number - 1)) ∧
      parse (text.firstLines number) = .error error := by
  have hnamed {number : Nat} (hline : error.line = lineNumber number)
      (hle : number ≤ (Bytes.lines text).length) :
      error.line.toNat = number % UInt32.size ∧
        ((Bytes.lines text).length < UInt32.size → error.line.toNat = number) := by
    rw [hline, toNat_lineNumber]
    exact ⟨rfl, fun hlt => Nat.mod_eq_of_lt (Nat.lt_of_le_of_lt hle hlt)⟩
  cases hlines : contentLines text with
  | nil =>
    have hfirst : ∀ n, contentLines (text.firstLines n) = [] := by
      intro n
      rw [contentLines_firstLines, hlines, List.filter_nil]
    obtain rfl := Except.error.inj ((parse_of_contentLines_eq_nil hlines).symm.trans h)
    have hnonempty : 1 ≤ (Bytes.lines text).length ↔ text ≠ [] := by
      rw [Nat.one_le_iff_ne_zero, ne_eq, List.length_eq_zero_iff, Bytes.lines_eq_nil_iff]
    have hall : parse (text.firstLines (Bytes.lines text).length) =
        .error ⟨lineNumber (Bytes.lines text).length, .noHeader⟩ := by
      rw [parse_of_contentLines_eq_nil (hfirst _), Bytes.lines_firstLines, List.take_length]
    obtain ⟨hnumber, hshort⟩ := hnamed rfl (Nat.le_refl _)
    exact ⟨_, Nat.le_refl _, rfl, hnumber, hshort, hnonempty,
      .inr ⟨_, parse_of_contentLines_eq_nil (hfirst _)⟩, hall⟩
  | cons first rest =>
    obtain ⟨before, line, index, after, hcut, hline, hbefore, hupto⟩ :=
      parse_stops h (hlines ▸ List.cons_ne_nil first rest)
    obtain ⟨⟨hone, hlength⟩, hfirst, hlast⟩ := contentLines_cut hcut
    obtain ⟨hnumber, hshort⟩ := hnamed hline hlength
    refine ⟨index, hlength, rfl, hnumber, hshort, iff_of_true hone ?_, hbefore _ hfirst,
      hupto _ hlast⟩
    rintro rfl
    contradiction

def draft : Bytes :=
  ascii "# list\n\nlineage-pool 1\n0 original 0 0 0 3 0 3 file 0\n \n2 original 0 0 0 3 0 3 file 0"

theorem parse_error_line_draft :
    parse draft = .error ⟨6, .otherId 1 2⟩ ∧ ∃ number ≤ (Bytes.lines draft).length,
      (ParseError.mk 6 (.otherId 1 2)).message =
        ascii "Line " ++ decimal 6 ++ ascii ": " ++ (LineFault.otherId 1 2).message ∧
      6 = number % UInt32.size ∧ ((Bytes.lines draft).length < UInt32.size → 6 = number) ∧
      (1 ≤ number ↔ draft ≠ []) ∧ Unspoiled (draft.firstLines (number - 1)) ∧
      parse (draft.firstLines number) = .error ⟨6, .otherId 1 2⟩ :=
  have hparse : parse draft = .error ⟨6, .otherId 1 2⟩ := by with_unfolding_all rfl
  ⟨hparse, parse_error_line hparse⟩

/-- Without a line there is no line to name. -/
theorem parse_empty :
    parse [] = .error ⟨0, .noHeader⟩ ∧ ¬ 1 ≤ (ParseError.mk 0 .noHeader).line ∧
      (ParseError.mk 0 .noHeader).message = ascii "Line 0: missing 'lineage-pool 1' header" :=
  ⟨rfl, by decide, by decide +kernel⟩

end TextOrigin.Pool

import TextOrigin.Bytes

/-!
Blanks at the ends of texts. `Trimming` says without a procedure how a text is cut: the longest runs
of blanks at the ends that are asked for, and what is kept between them. Every text is cut in one
way, and the functions that trim texts give what is kept.
-/

namespace TextOrigin

namespace Bytes

def trim (text : Bytes) (leading trailing : Bool) : Bytes :=
  let rest := if leading then text.dropWhile isBlank else text
  if trailing then dropTrailingBlanks rest else rest

theorem dropWhile_isBlank (text : Bytes) :
    text.dropWhile isBlank = text.drop (leadingBlanks text) := by
  have happ := List.takeWhile_append_dropWhile (p := isBlank) (l := text)
  calc text.dropWhile isBlank
      = (text.takeWhile isBlank ++ text.dropWhile isBlank).drop (leadingBlanks text) :=
        (List.drop_left).symm
    _ = text.drop (leadingBlanks text) := by rw [happ]

theorem dropTrailingBlanks_eq (text : Bytes) :
    dropTrailingBlanks text = text.take (text.length - trailingBlanks text) := by
  rw [dropTrailingBlanks, dropWhile_isBlank, List.reverse_drop, List.reverse_reverse,
    List.length_reverse, trailingBlanks]

theorem leadingBlanks_append {run rest : Bytes} (hrun : ∀ b ∈ run, isBlank b = true)
    (hrest : ∀ b ∈ rest.head?, isBlank b = false) : leadingBlanks (run ++ rest) = run.length := by
  have hnone : rest.takeWhile isBlank = [] := by
    cases rest with
    | nil => rfl
    | cons b rest => simp [hrest b (by simp)]
  rw [leadingBlanks, List.takeWhile_append_of_pos hrun, hnone, List.append_nil]

theorem trailingBlanks_append {run rest : Bytes} (hrun : ∀ b ∈ run, isBlank b = true)
    (hrest : ∀ b ∈ rest.getLast?, isBlank b = false) :
    trailingBlanks (rest ++ run) = run.length := by
  have hreverse : ∀ b ∈ run.reverse, isBlank b = true := fun b hb =>
    hrun b (List.mem_reverse.1 hb)
  rw [trailingBlanks, List.reverse_append,
    leadingBlanks_append hreverse (by rwa [List.head?_reverse]), List.length_reverse]

theorem exists_run (text : Bytes) :
    ∃ run rest, run ++ rest = text ∧ (∀ b ∈ run, isBlank b = true) ∧
      ∀ b ∈ rest.head?, isBlank b = false := by
  induction text with
  | nil => exact ⟨[], [], rfl, by simp, by simp⟩
  | cons b text ih =>
    cases hb : isBlank b with
    | false => exact ⟨[], b :: text, rfl, by simp, by simpa using hb⟩
    | true =>
      obtain ⟨run, rest, rfl, hrun, hrest⟩ := ih
      exact ⟨b :: run, rest, rfl, List.forall_mem_cons.2 ⟨hb, hrun⟩, hrest⟩

/-- A text cut into the longest run of blanks in front, where `leading` asks for it, the longest run
of blanks at the end of the rest, where `trailing` asks for it, and what is kept between them. -/
structure Trimming (text : Bytes) (leading trailing : Bool) (front kept back : Bytes) : Prop where
  parts : front ++ (kept ++ back) = text
  front_blank : ∀ b ∈ front, isBlank b = true
  back_blank : ∀ b ∈ back, isBlank b = true
  front_longest : leading = true → ∀ b ∈ (kept ++ back).head?, isBlank b = false
  front_nil : leading = false → front = []
  back_longest : trailing = true → ∀ b ∈ kept.getLast?, isBlank b = false
  back_nil : trailing = false → back = []

theorem exists_trimming (text : Bytes) (leading trailing : Bool) :
    ∃ front kept back, text.Trimming leading trailing front kept back := by
  obtain ⟨front, rest, rfl, hfront, hlongest, hnil⟩ : ∃ front rest, front ++ rest = text ∧
      (∀ b ∈ front, isBlank b = true) ∧ (leading = true → ∀ b ∈ rest.head?, isBlank b = false) ∧
      (leading = false → front = []) := by
    cases leading with
    | false => exact ⟨[], text, rfl, by simp, by simp, by simp⟩
    | true =>
      obtain ⟨run, rest, hparts, hrun, hrest⟩ := exists_run text
      exact ⟨run, rest, hparts, hrun, fun _ => hrest, by simp⟩
  cases trailing with
  | false =>
    exact ⟨front, rest, [], by simp, hfront, by simp, by simpa using hlongest, hnil, by simp, by simp⟩
  | true =>
    obtain ⟨run, kept, hparts, hrun, hkept⟩ := exists_run rest.reverse
    obtain rfl : kept.reverse ++ run.reverse = rest := by
      rw [← List.reverse_append, hparts, List.reverse_reverse]
    refine ⟨front, kept.reverse, run.reverse, rfl, hfront, ?_, hlongest, hnil, fun _ => ?_, by simp⟩
    · exact fun b hb => hrun b (List.mem_reverse.1 hb)
    · rwa [List.getLast?_reverse]

namespace Trimming

variable {text front kept back : Bytes} {leading trailing : Bool}

theorem length_eq (h : text.Trimming leading trailing front kept back) :
    front.length + (kept.length + back.length) = text.length := by
  rw [← h.parts, List.length_append, List.length_append]

theorem leading_eq (h : text.Trimming leading trailing front kept back) :
    (if leading then leadingBlanks text else 0) = front.length := by
  cases leading with
  | false => rw [h.front_nil rfl]; rfl
  | true =>
    rw [← h.parts]
    exact leadingBlanks_append h.front_blank (h.front_longest rfl)

theorem drop_front (h : text.Trimming leading trailing front kept back) :
    text.drop front.length = kept ++ back := by
  rw [← h.parts, List.drop_left]

theorem trailing_eq (h : text.Trimming leading trailing front kept back) :
    (if trailing then trailingBlanks (text.drop front.length) else 0) = back.length := by
  cases trailing with
  | false => rw [h.back_nil rfl]; rfl
  | true =>
    rw [h.drop_front]
    exact trailingBlanks_append h.back_blank (h.back_longest rfl)

theorem trim_eq (h : text.Trimming leading trailing front kept back) :
    text.trim leading trailing = kept := by
  have hrest : (if leading then text.dropWhile isBlank else text) = kept ++ back := by
    rw [← h.drop_front, ← h.leading_eq]
    cases leading with
    | false => rfl
    | true => exact dropWhile_isBlank text
  have hback := h.trailing_eq
  rw [h.drop_front] at hback
  rw [trim, hrest]
  cases trailing with
  | false => simp [h.back_nil rfl]
  | true =>
    have hlength : (kept ++ back).length - back.length = kept.length := by
      rw [List.length_append, Nat.add_sub_cancel]
    rw [if_pos rfl] at hback
    rw [if_pos rfl, dropTrailingBlanks_eq, hback, hlength, List.take_left]

theorem again (h : text.Trimming leading trailing front kept back) :
    kept.Trimming leading trailing [] kept [] where
  parts := by simp
  front_blank := by simp
  back_blank := by simp
  front_longest hleading := by
    cases kept with
    | nil => simp
    | cons b kept => exact h.front_longest hleading
  front_nil _ := rfl
  back_longest := h.back_longest
  back_nil _ := rfl

end Trimming

theorem Trimming.trimBlanks_eq {text front kept back : Bytes}
    (h : text.Trimming true true front kept back) : trimBlanks text = kept :=
  h.trim_eq

theorem trimming_of_blank {text : Bytes} (h : ∀ b ∈ text, isBlank b = true) :
    text.Trimming true true text [] [] where
  parts := by simp
  front_blank := h
  back_blank := by simp
  front_longest := by simp
  front_nil := by simp
  back_longest := by simp
  back_nil := by simp

theorem exists_trimming_of_solid {lead : Bytes} {b : UInt8} (hlead : ∀ c ∈ lead, isBlank c = true)
    (hb : isBlank b = false) (rest : Bytes) :
    ∃ kept back, (lead ++ b :: rest).Trimming true true lead (b :: kept) back := by
  obtain ⟨front, kept, back, h⟩ := rest.exists_trimming false true
  refine ⟨kept, back, ?_, hlead, h.back_blank, ?_, by simp, fun _ c hc => ?_, by simp⟩
  · rw [← h.parts, h.front_nil rfl, List.nil_append, List.cons_append]
  · simpa using hb
  · cases kept with
    | nil =>
      obtain rfl : b = c := by simpa using hc
      exact hb
    | cons d kept => exact h.back_longest rfl c (by simpa using hc)

theorem trim_eq_slice (text : Bytes) (leading trailing : Bool) :
    let start := if leading then leadingBlanks text else 0
    let dropped := if trailing then trailingBlanks (text.drop start) else 0
    start + dropped ≤ text.length ∧
      text.trim leading trailing = (text.drop start).take (text.length - dropped - start) := by
  intro start dropped
  obtain ⟨front, kept, back, h⟩ := text.exists_trimming leading trailing
  have hstart : start = front.length := h.leading_eq
  have hdropped : dropped = back.length := by
    simp only [dropped, hstart]
    exact h.trailing_eq
  have hlength := h.length_eq
  have hkept : text.length - back.length - front.length = kept.length := by omega
  rw [hstart, hdropped, h.trim_eq, h.drop_front, hkept, List.take_left]
  exact ⟨by omega, rfl⟩

end Bytes

end TextOrigin

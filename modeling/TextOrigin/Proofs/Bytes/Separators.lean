import TextOrigin.Bytes

/-!
Texts cut at separators. Joining parts that hold no separator and cutting again gives the parts
back. `Spaced` says without a procedure what it is for a text to consist of tokens with blanks
between and around them; every text does so in exactly one way, which `tokens` finds.
-/

namespace TextOrigin.Bytes

theorem split_cons (isSeparator : UInt8 → Bool) (b : UInt8) (rest : Bytes) :
    split isSeparator (b :: rest) =
      if isSeparator b then [] :: split isSeparator rest
      else (split isSeparator rest).modifyHead (b :: ·) := by
  have hrest := split_ne_nil isSeparator rest
  unfold split at hrest ⊢
  rw [List.foldr_cons]
  split
  · rfl
  · split
    · contradiction
    · next hparts => rw [hparts, List.modifyHead_cons]

theorem split_append {isSeparator : UInt8 → Bool} {part : Bytes}
    (h : ∀ b ∈ part, isSeparator b = false) (rest : Bytes) :
    split isSeparator (part ++ rest) = (split isSeparator rest).modifyHead (part ++ ·) := by
  induction part with
  | nil =>
    rw [List.nil_append]
    cases split isSeparator rest <;> rfl
  | cons b part ih =>
    obtain ⟨hb, hpart⟩ := List.forall_mem_cons.1 h
    rw [List.cons_append, split_cons, hb, ih hpart]
    cases split isSeparator rest <;> rfl

theorem split_of_forall {isSeparator : UInt8 → Bool} {part : Bytes}
    (h : ∀ b ∈ part, isSeparator b = false) : split isSeparator part = [part] := by
  simpa [split] using split_append h []

theorem split_append_cons {isSeparator : UInt8 → Bool} {part : Bytes}
    (h : ∀ b ∈ part, isSeparator b = false) {b : UInt8} (hb : isSeparator b = true)
    (rest : Bytes) :
    split isSeparator (part ++ b :: rest) = part :: split isSeparator rest := by
  rw [split_append h, split_cons, hb, if_pos rfl, List.modifyHead_cons, List.append_nil]

theorem notMem_of_mem_split {separator : UInt8} {text part : Bytes}
    (h : part ∈ split (· == separator) text) : separator ∉ part := by
  induction text generalizing part with
  | nil =>
    obtain rfl : part = [] := List.mem_singleton.1 h
    exact List.not_mem_nil
  | cons b rest ih =>
    rw [split_cons] at h
    split at h
    · rcases List.mem_cons.1 h with rfl | h
      · exact List.not_mem_nil
      · exact ih h
    · next hb =>
      cases hrest : split (· == separator) rest with
      | nil => exact absurd hrest (split_ne_nil _ rest)
      | cons first others =>
        rw [hrest, List.modifyHead_cons] at h
        rw [hrest] at ih
        rcases List.mem_cons.1 h with rfl | h
        · rw [List.mem_cons, not_or]
          exact ⟨fun heq => hb (beq_iff_eq.2 heq.symm), ih List.mem_cons_self⟩
        · exact ih (List.mem_cons_of_mem first h)

theorem join_cons {separator : UInt8} (part : Bytes) {rest : List Bytes} (h : rest ≠ []) :
    join separator (part :: rest) = part ++ separator :: join separator rest := by
  cases rest with
  | nil => exact absurd rfl h
  | cons next rest => rfl

theorem mem_join {separator b : UInt8} {parts : List Bytes} (h : b ∈ join separator parts) :
    b = separator ∨ ∃ part ∈ parts, b ∈ part := by
  induction parts with
  | nil => simp [join] at h
  | cons part rest ih =>
    cases rest with
    | nil => exact .inr ⟨part, by simp, h⟩
    | cons next rest =>
      rw [join_cons part (List.cons_ne_nil next rest), List.mem_append, List.mem_cons] at h
      obtain hpart | rfl | hrest := h
      · exact .inr ⟨part, by simp, hpart⟩
      · exact .inl rfl
      · obtain rfl | ⟨found, hfound, hb⟩ := ih hrest
        · exact .inl rfl
        · exact .inr ⟨found, List.mem_cons_of_mem part hfound, hb⟩

theorem beq_eq_false_of_notMem {separator : UInt8} {part : Bytes} (h : separator ∉ part) :
    ∀ b ∈ part, (b == separator) = false := by
  intro b hb
  rw [beq_eq_false_iff_ne]
  rintro rfl
  exact h hb

theorem split_join {separator : UInt8} {parts : List Bytes} (hne : parts ≠ [])
    (h : ∀ part ∈ parts, separator ∉ part) :
    split (· == separator) (join separator parts) = parts := by
  induction parts with
  | nil => exact absurd rfl hne
  | cons part rest ih =>
    obtain ⟨hpart, hrest⟩ := List.forall_mem_cons.1 h
    have hpart := beq_eq_false_of_notMem hpart
    cases rest with
    | nil => exact split_of_forall hpart
    | cons next rest =>
      have hnext := List.cons_ne_nil next rest
      rw [join_cons part hnext, split_append_cons hpart (beq_self_eq_true separator),
        ih hnext hrest]

/-- The parts of a text between its separators. -/
structure CutAt (separator : UInt8) (text : Bytes) (parts : List Bytes) : Prop where
  ne_nil : parts ≠ []
  join_eq : join separator parts = text
  notMem : ∀ part ∈ parts, separator ∉ part

theorem split_eq_iff {separator : UInt8} {text : Bytes} {parts : List Bytes} :
    split (· == separator) text = parts ↔ CutAt separator text parts := by
  constructor
  · rintro rfl
    exact ⟨split_ne_nil _ text, join_split separator text, fun _ => notMem_of_mem_split⟩
  · intro h
    rw [← h.join_eq, split_join h.ne_nil h.notMem]

theorem length_split (separator : UInt8) (text : Bytes) :
    (split (· == separator) text).length = text.count separator + 1 := by
  induction text with
  | nil => rfl
  | cons b rest ih =>
    rw [split_cons, List.count_cons]
    split
    · rw [List.length_cons, ih]
    · rw [List.length_modifyHead, ih, Nat.add_zero]

theorem split_flatMap {separator : UInt8} {lines : List Bytes}
    (h : ∀ line ∈ lines, separator ∉ line) :
    split (· == separator) (lines.flatMap (· ++ [separator])) = lines ++ [[]] := by
  induction lines with
  | nil => rfl
  | cons line rest ih =>
    obtain ⟨hline, hrest⟩ := List.forall_mem_cons.1 h
    rw [List.flatMap_cons, List.append_assoc, List.singleton_append,
      split_append_cons (beq_eq_false_of_notMem hline) (beq_self_eq_true separator), ih hrest,
      List.cons_append]

theorem lines_eq_nil_iff {text : Bytes} : lines text = [] ↔ text = [] := by
  constructor
  · intro h
    have hne := split_ne_nil (· == newline) text
    rw [lines] at h
    split at h
    · next hlast =>
      have hparts := List.dropLast_concat_getLast hne
      rw [List.getLast?_eq_some_getLast hne, Option.some.injEq] at hlast
      rw [h, hlast] at hparts
      rw [← join_split newline text, ← hparts]
      rfl
    · contradiction
  · intro h
    rw [h]
    rfl

theorem notMem_of_mem_lines {text line : Bytes} (h : line ∈ lines text) : newline ∉ line := by
  rw [lines] at h
  split at h
  · exact notMem_of_mem_split (List.dropLast_subset _ h)
  · exact notMem_of_mem_split h

def firstLines (text : Bytes) (n : Nat) : Bytes :=
  ((lines text).take n).flatMap (· ++ [newline])

theorem lines_firstLines (text : Bytes) (n : Nat) :
    lines (text.firstLines n) = (lines text).take n := by
  have hparts : ∀ line ∈ (lines text).take n, newline ∉ line :=
    fun line hline => notMem_of_mem_lines (List.mem_of_mem_take hline)
  rw [lines, firstLines, split_flatMap hparts, List.getLast?_concat, if_pos rfl,
    List.dropLast_concat]

/-- One or more bytes, none of them blank. -/
structure IsToken (text : Bytes) : Prop where
  ne_nil : text ≠ []
  solid : ∀ b ∈ text, isBlank b = false

instance (text : Bytes) : Decidable (IsToken text) :=
  decidable_of_iff (text ≠ [] ∧ text.all (fun b => !isBlank b) = true)
    ⟨fun h => ⟨h.1, by simpa using h.2⟩, fun h => ⟨h.ne_nil, by simpa using h.solid⟩⟩

theorem not_isBlank_of_le {b : UInt8} (h : 48 ≤ b) : isBlank b = false := by
  have hle := UInt8.le_iff_toNat_le.1 h
  change 48 ≤ b.toNat at hle
  simp only [isBlank, space, Bool.or_eq_false_iff, Bool.and_eq_false_iff, beq_eq_false_iff_ne,
    decide_eq_false_iff_not, ne_eq, ← UInt8.toNat_inj, UInt8.le_iff_toNat_le]
  change ¬ b.toNat = 32 ∧ (¬ 9 ≤ b.toNat ∨ ¬ b.toNat ≤ 13)
  omega

theorem isToken_of_le {text : Bytes} (hne : text ≠ []) (h : ∀ b ∈ text, 48 ≤ b) : IsToken text :=
  ⟨hne, fun b hb => not_isBlank_of_le (h b hb)⟩

/-- A text of tokens with blanks between them. Blanks may also stand in front and at the end. -/
inductive Spaced : List Bytes → Bytes → Prop where
  | blanks {text : Bytes} (h : ∀ b ∈ text, isBlank b = true) : Spaced [] text
  | token {lead token rest : Bytes} {tokens : List Bytes} (hlead : ∀ b ∈ lead, isBlank b = true)
      (htoken : IsToken token) (hstop : ∀ b ∈ rest.head?, isBlank b = true)
      (hrest : Spaced tokens rest) : Spaced (token :: tokens) (lead ++ token ++ rest)

theorem tokens_append_of_blank {lead : Bytes} (h : ∀ b ∈ lead, isBlank b = true) (rest : Bytes) :
    tokens (lead ++ rest) = tokens rest := by
  induction lead with
  | nil => rfl
  | cons b lead ih =>
    obtain ⟨hb, hlead⟩ := List.forall_mem_cons.1 h
    rw [List.cons_append, tokens, split_cons, hb, if_pos rfl, List.filter_cons]
    exact ih hlead

theorem exists_tokens_cons {b : UInt8} (hb : isBlank b = false) (rest : Bytes) :
    ∃ token others, tokens (b :: rest) = (b :: token) :: others := by
  rw [tokens, split_cons, hb, if_neg Bool.false_ne_true]
  cases hrest : split isBlank rest with
  | nil => exact absurd hrest (split_ne_nil isBlank rest)
  | cons token others =>
    exact ⟨token, others.filter (· ≠ []), by rw [List.modifyHead_cons, List.filter_cons]; simp⟩

theorem tokens_append_of_isToken {token rest : Bytes} (h : IsToken token)
    (hstop : ∀ b ∈ rest.head?, isBlank b = true) :
    tokens (token ++ rest) = token :: tokens rest := by
  cases rest with
  | nil =>
    rw [List.append_nil, tokens, split_of_forall h.solid]
    simp [h.ne_nil, tokens, split]
  | cons b rest =>
    have hb := hstop b (by simp)
    rw [tokens, split_append_cons h.solid hb, tokens, split_cons, hb, if_pos rfl]
    simp [h.ne_nil]

theorem Spaced.tokens_eq {tokens : List Bytes} {text : Bytes} (h : Spaced tokens text) :
    Bytes.tokens text = tokens := by
  induction h with
  | @blanks text h =>
    have hnil := tokens_append_of_blank h []
    rw [List.append_nil] at hnil
    rw [hnil]
    rfl
  | token hlead htoken hstop _ ih =>
    rw [List.append_assoc, tokens_append_of_blank hlead, tokens_append_of_isToken htoken hstop, ih]

theorem Spaced.cons_blank {tokens : List Bytes} {text : Bytes} (h : Spaced tokens text) {b : UInt8}
    (hb : isBlank b = true) : Spaced tokens (b :: text) := by
  cases h with
  | blanks h => exact .blanks (List.forall_mem_cons.2 ⟨hb, h⟩)
  | @token lead token rest tokens hlead htoken hstop hrest =>
    have hlead' : ∀ c ∈ b :: lead, isBlank c = true := List.forall_mem_cons.2 ⟨hb, hlead⟩
    exact .token hlead' htoken hstop hrest

theorem Spaced.cons {tokens : List Bytes} {text : Bytes} (h : Spaced tokens text) (b : UInt8) :
    ∃ tokens', Spaced tokens' (b :: text) := by
  -- The byte belongs to the blanks in front, to the first token, or to a token of its own.
  cases hb : isBlank b with
  | true => exact ⟨tokens, h.cons_blank hb⟩
  | false =>
    have hsingle : IsToken [b] := ⟨List.cons_ne_nil b [], by simpa using hb⟩
    have hnone : ∀ c ∈ ([] : Bytes), isBlank c = true := by simp
    cases h with
    | blanks h =>
      have hstop : ∀ c ∈ text.head?, isBlank c = true := fun c hc => h c (List.mem_of_head? hc)
      exact ⟨_, .token hnone hsingle hstop (.blanks h)⟩
    | @token lead token rest tokens hlead htoken hstop hrest =>
      cases lead with
      | nil =>
        have hlonger : IsToken (b :: token) :=
          ⟨List.cons_ne_nil b token, List.forall_mem_cons.2 ⟨hb, htoken.solid⟩⟩
        exact ⟨_, .token hnone hlonger hstop hrest⟩
      | cons a lead =>
        have hbreak : ∀ c ∈ (a :: lead ++ token ++ rest).head?, isBlank c = true := by
          simpa using hlead a (by simp)
        exact ⟨_, .token hnone hsingle hbreak (.token hlead htoken hstop hrest)⟩

theorem Spaced.append_blank {tokens : List Bytes} {text trail : Bytes} (h : Spaced tokens text)
    (htrail : ∀ b ∈ trail, isBlank b = true) : Spaced tokens (text ++ trail) := by
  induction h with
  | blanks h => exact .blanks (List.forall_mem_append.2 ⟨h, htrail⟩)
  | @token lead token rest tokens hlead htoken hstop hrest ih =>
    rw [List.append_assoc]
    refine .token hlead htoken ?_ ih
    cases rest with
    | nil => exact fun b hb => htrail b (List.mem_of_head? hb)
    | cons b rest => exact hstop

/-- Every text consists of tokens in one way. -/
theorem tokens_eq_iff {tokens : List Bytes} {text : Bytes} :
    Bytes.tokens text = tokens ↔ Spaced tokens text := by
  have hexists : ∃ tokens', Spaced tokens' text := by
    induction text with
    | nil => exact ⟨[], .blanks (by simp)⟩
    | cons b text ih =>
      obtain ⟨tokens', h⟩ := ih
      exact h.cons b
  obtain ⟨tokens', h⟩ := hexists
  constructor
  · rintro rfl
    rwa [h.tokens_eq]
  · exact Spaced.tokens_eq

theorem isToken_join {separator : UInt8} (hseparator : isBlank separator = false)
    {parts : List Bytes} (hne : parts ≠ []) (h : ∀ part ∈ parts, IsToken part) :
    IsToken (join separator parts) := by
  constructor
  · intro hnil
    cases parts with
    | nil => exact hne rfl
    | cons part rest =>
      obtain ⟨b, tail, rfl⟩ := List.exists_cons_of_ne_nil (h part (by simp)).ne_nil
      rw [join_cons_cons] at hnil
      contradiction
  · intro b hb
    obtain rfl | ⟨part, hpart, hb⟩ := mem_join hb
    · exact hseparator
    · exact (h part hpart).solid b hb

theorem spaced_join {tokens : List Bytes} (h : ∀ token ∈ tokens, IsToken token) :
    Spaced tokens (join space tokens) := by
  induction tokens with
  | nil => exact .blanks (by simp [join])
  | cons token rest ih =>
    obtain ⟨htoken, hrest⟩ := List.forall_mem_cons.1 h
    have hnone : ∀ b ∈ ([] : Bytes), isBlank b = true := by simp
    cases rest with
    | nil =>
      have hsingle := Spaced.token hnone htoken (by simp) (.blanks hnone)
      rwa [List.nil_append, List.append_nil] at hsingle
    | cons next rest =>
      have hstop : ∀ b ∈ (space :: join space (next :: rest)).head?, isBlank b = true := by
        simp [isBlank]
      exact .token hnone htoken hstop ((ih hrest).cons_blank (by simp [isBlank]))

end TextOrigin.Bytes

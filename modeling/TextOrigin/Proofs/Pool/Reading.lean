import TextOrigin.Proofs.Pool.Grammar
import TextOrigin.Proofs.Bytes.Trimming

/-!
What reading accepts. Each reader succeeds exactly on the tokens that the grammar relates to what it
returns, so a text is read as a pool exactly if it writes this pool: `parse_eq_ok_iff`.
-/

namespace TextOrigin

theorem Kind.ofName?_eq_some_iff {name : Bytes} {kind : Kind} :
    ofName? name = some kind ↔ name = kind.name := by
  constructor
  · intro h
    have hfound := List.find?_some (p := fun kind : Kind => kind.name == name) h
    exact (eq_of_beq hfound).symm
  · rintro rfl
    exact ofName?_name kind

namespace Pool.Parser

theorem mapM_readWord?_eq_some_iff {parts : List Bytes} {fields : List Word} :
    parts.mapM readWord? = some fields ↔ Numerals parts fields := by
  induction parts generalizing fields with
  | nil => cases fields <;> simp [Numerals]
  | cons part rest ih =>
    simp only [List.mapM_cons, Option.bind_eq_bind, Option.bind_eq_some_iff, Option.pure_def,
      Option.some.injEq, readWord?_eq_some_iff, ih]
    constructor
    · rintro ⟨word, hword, words, hwords, rfl⟩
      exact .cons hword hwords
    · rintro (_ | ⟨hword, hwords⟩)
      exact ⟨_, hword, _, hwords, rfl⟩

theorem readGroup?_eq_some_iff {text : Bytes} {fields : List Word} (hne : fields ≠ []) :
    readGroup? text = some fields ↔ Group text fields := by
  rw [readGroup?, mapM_readWord?_eq_some_iff]
  constructor
  · exact fun h => ⟨_, (Bytes.join_split Bytes.colon text).symm, h⟩
  · rintro ⟨parts, rfl, hparts⟩
    -- numerals hold no colon, so cutting the group gives them back
    have hnot : ∀ part ∈ parts, Bytes.colon ∉ part := hparts.forall_mem Numeral.colon_notMem
    rwa [Bytes.split_join (hparts.ne_nil hne) hnot]

section Reader

variable {α β : Type} {tokens rest : List Bytes}

theorem pure_eq_ok_iff {a b : α} :
    (pure a : Reader α) tokens = .ok (b, rest) ↔ a = b ∧ tokens = rest := by
  change (Except.ok (a, tokens) : Except LineFault _) = .ok (b, rest) ↔ _
  simp

theorem bind_eq_ok_iff {x : Reader α} {f : α → Reader β} {b : β} :
    (x >>= f) tokens = .ok (b, rest) ↔
      ∃ a middle, x tokens = .ok (a, middle) ∧ f a middle = .ok (b, rest) := by
  change (x tokens >>= fun read => f read.1 read.2) = _ ↔ _
  cases x tokens with
  | error fault => simp [bind, Except.bind]
  | ok read =>
    constructor
    · exact fun h => ⟨read.1, read.2, rfl, h⟩
    · rintro ⟨a, middle, hread, h⟩
      cases hread
      exact h

theorem throw_ne_ok {fault : LineFault} {a : α} :
    (throw fault : Reader α) tokens ≠ .ok (a, rest) := by
  intro h
  contradiction

theorem get_eq_ok_iff {a : List Bytes} :
    (get : Reader (List Bytes)) tokens = .ok (a, rest) ↔ tokens = a ∧ tokens = rest := by
  change (Except.ok (tokens, tokens) : Except LineFault _) = .ok (a, rest) ↔ _
  simp

theorem check_eq_ok_iff {p : Prop} [Decidable p] {fault : LineFault} {next : Reader α} {a : α} :
    (if p then do throw fault; next else next) tokens = .ok (a, rest) ↔
      ¬ p ∧ next tokens = .ok (a, rest) := by
  split
  · next hp =>
    rw [bind_eq_ok_iff]
    simp only [throw_ne_ok, false_and, exists_false, hp, not_true_eq_false]
  · next hp => simp only [hp, not_false_eq_true, true_and]

theorem set_eq_ok_iff {left : List Bytes} {u : Unit} :
    (set left : Reader Unit) tokens = .ok (u, rest) ↔ left = rest := by
  change (Except.ok ((), left) : Except LineFault _) = .ok (u, rest) ↔ _
  simp

theorem liftM_eq_ok_iff {x : Except LineFault α} {a : α} :
    (liftM x : Reader α) tokens = .ok (a, rest) ↔ x = .ok a ∧ tokens = rest := by
  change (x >>= fun a => Except.ok (a, tokens)) = _ ↔ _
  cases x <;> simp [bind, Except.bind]

theorem token_eq_ok_iff {item : Item} {text : Bytes} :
    token item tokens = .ok (text, rest) ↔ tokens = text :: rest := by
  cases tokens <;> simp [token]

theorem value_eq_ok_iff {item : Item} {read? : Bytes → Option α} {a : α} :
    value item read? tokens = .ok (a, rest) ↔
      ∃ text, tokens = text :: rest ∧ read? text = some a := by
  simp only [value, bind_eq_ok_iff, token_eq_ok_iff]
  constructor
  · rintro ⟨text, middle, rfl, h⟩
    cases hread : read? text with
    | none => exact absurd (hread ▸ h) throw_ne_ok
    | some b =>
      obtain ⟨rfl, rfl⟩ := pure_eq_ok_iff.1 (hread ▸ h)
      exact ⟨text, rfl, hread⟩
  · rintro ⟨text, rfl, hread⟩
    exact ⟨text, rest, rfl, by rw [hread]; exact pure_eq_ok_iff.2 ⟨rfl, rfl⟩⟩

theorem keyword_eq_ok_iff {word : Bytes} {u : Unit} :
    keyword word tokens = .ok (u, rest) ↔ tokens = word :: rest := by
  simp only [keyword, bind_eq_ok_iff, token_eq_ok_iff]
  constructor
  · rintro ⟨text, middle, rfl, h⟩
    split at h
    · exact absurd h throw_ne_ok
    · next heq =>
      obtain ⟨-, rfl⟩ := pure_eq_ok_iff.1 h
      rw [Decidable.not_not.1 heq]
  · rintro rfl
    exact ⟨word, rest, rfl, by rw [if_neg (fun hne => hne rfl)]; exact pure_eq_ok_iff.2 ⟨rfl, rfl⟩⟩

theorem position_eq_ok_iff {read : Position} :
    position tokens = .ok (read, rest) ↔
      ∃ numbers, tokens = numbers ++ rest ∧ Numerals numbers (positionFields read) := by
  simp only [position, bind_eq_ok_iff, value_eq_ok_iff, pure_eq_ok_iff, readWord?_eq_some_iff]
  constructor
  · rintro ⟨offset, _, ⟨first, rfl, hfirst⟩, row, _, ⟨second, rfl, hsecond⟩, column, _,
      ⟨third, rfl, hthird⟩, rfl, rfl⟩
    exact ⟨[first, second, third], rfl, .cons hfirst (.cons hsecond (.cons hthird .nil))⟩
  · rintro ⟨numbers, rfl, hnumbers⟩
    obtain _ | ⟨hfirst, _ | ⟨hsecond, _ | ⟨hthird, _ | _⟩⟩⟩ := hnumbers
    exact ⟨_, _, ⟨_, rfl, hfirst⟩, _, _, ⟨_, rfl, hsecond⟩, _, _, ⟨_, rfl, hthird⟩, rfl, rfl⟩

theorem mapM_eq_ok_iff {read : Bytes → Except LineFault α} {texts : List Bytes} {items : List α} :
    (texts.mapM fun text => (liftM (read text) : Reader α)) tokens = .ok (items, rest) ↔
      tokens = rest ∧ List.Forall₂ (fun text item => read text = .ok item) texts items := by
  induction texts generalizing tokens rest items with
  | nil =>
    rw [List.mapM_nil, pure_eq_ok_iff]
    cases items <;> simp
  | cons text texts ih =>
    simp only [List.mapM_cons, bind_eq_ok_iff, liftM_eq_ok_iff, pure_eq_ok_iff, ih]
    constructor
    · rintro ⟨item, _, ⟨hitem, rfl⟩, items, _, ⟨rfl, hitems⟩, rfl, rfl⟩
      exact ⟨rfl, .cons hitem hitems⟩
    · rintro ⟨rfl, _ | ⟨hitem, hitems⟩⟩
      exact ⟨_, _, ⟨hitem, rfl⟩, _, _, ⟨rfl, hitems⟩, rfl, rfl⟩

theorem listed_eq_ok_iff {item : Item} {fault : Word → Nat → LineFault}
    {read : Bytes → Except LineFault α} {fields : α → List Word}
    (hread : ∀ text a, read text = .ok a ↔ Group text (fields a)) {items : List α} :
    listed item fault read tokens = .ok (items, rest) ↔
      rest = [] ∧ Listing fields tokens items := by
  simp only [listed, bind_eq_ok_iff, value_eq_ok_iff, get_eq_ok_iff, readWord?_eq_some_iff,
    check_eq_ok_iff, set_eq_ok_iff, mapM_eq_ok_iff, hread]
  constructor
  · rintro ⟨count, _, ⟨text, rfl, hcount⟩, groups, _, ⟨rfl, rfl⟩, hlength, _, _, rfl, rfl, hgroups⟩
    have hlength := Decidable.not_not.1 hlength
    exact ⟨rfl, .mk (hlength ▸ hcount) (hlength ▸ count.toNat_lt) hgroups⟩
  · rintro ⟨rfl, ⟨hcount, hlt, hgroups⟩⟩
    have hlength := UInt64.toNat_ofNat_of_lt' hlt
    exact ⟨_, _, ⟨_, rfl, hlength.symm ▸ hcount⟩, _, _, ⟨rfl, rfl⟩, fun hne => hne hlength, (), [],
      rfl, rfl, hgroups⟩

end Reader

theorem piece_eq_ok_iff {text : Bytes} {read : Piece EntryId} :
    piece text = .ok read ↔ Group text (pieceFields read) := by
  rw [pieceFields, ← readGroup?_eq_some_iff (List.cons_ne_nil _ _), piece]
  constructor
  · intro h
    split at h
    · next id offset length hfields =>
      split at h
      · next hlt =>
        have hid : id.toUInt32.toUInt64 = id := by
          rw [← UInt64.toNat_inj, UInt32.toNat_toUInt64, UInt64.toNat_toUInt32,
            Nat.mod_eq_of_lt hlt]
        rw [hfields, ← Except.ok.inj h, hid]
      · contradiction
    · contradiction
  · intro h
    have hlt : read.source.toUInt64.toNat < UInt32.size := by
      rw [UInt32.toNat_toUInt64]
      exact read.source.toNat_lt
    rw [h]
    simp only [if_pos hlt, UInt32.toUInt32_toUInt64]

theorem mapEntry_eq_ok_iff {text : Bytes} {read : MapEntry} :
    mapEntry text = .ok read ↔ Group text (mapFields read) := by
  rw [mapFields, ← readGroup?_eq_some_iff (List.cons_ne_nil _ _), mapEntry]
  constructor
  · intro h
    split at h
    · next hfields => rw [hfields, ← Except.ok.inj h]
    · contradiction
  · intro h
    rw [h]

theorem link_eq_ok_iff {kind : Kind} {tokens : List Bytes} {read : Link EntryId} :
    link kind tokens = .ok (read, []) ↔ read.kind = kind ∧ LinkTokens tokens read := by
  cases kind with
  | leaf =>
    simp only [link, bind_eq_ok_iff, keyword_eq_ok_iff, value_eq_ok_iff, pure_eq_ok_iff,
      readWord32?_eq_some_iff]
    constructor
    · rintro ⟨-, _, rfl, file, _, ⟨text, rfl, hfile⟩, rfl, rfl⟩
      exact ⟨rfl, .leaf hfile⟩
    · rintro ⟨hkind, hlink⟩
      cases hlink with
      | leaf hfile => exact ⟨(), _, rfl, _, _, ⟨_, rfl, hfile⟩, rfl, rfl⟩
      | _ => contradiction
  | substring =>
    simp only [link, bind_eq_ok_iff, keyword_eq_ok_iff, value_eq_ok_iff, pure_eq_ok_iff,
      readWord32?_eq_some_iff, readWord?_eq_some_iff]
    constructor
    · rintro ⟨-, _, rfl, parent, _, ⟨text, rfl, hparent⟩, -, _, rfl, offset, _,
        ⟨text', rfl, hoffset⟩, rfl, rfl⟩
      exact ⟨rfl, .substring hparent hoffset⟩
    · rintro ⟨hkind, hlink⟩
      cases hlink with
      | substring hparent hoffset =>
        exact ⟨(), _, rfl, _, _, ⟨_, rfl, hparent⟩, (), _, rfl, _, _, ⟨_, rfl, hoffset⟩, rfl, rfl⟩
      | _ => contradiction
  | concat =>
    simp only [link, bind_eq_ok_iff, keyword_eq_ok_iff, pure_eq_ok_iff,
      listed_eq_ok_iff fun text read => piece_eq_ok_iff]
    constructor
    · rintro ⟨-, _, rfl, pieces, _, ⟨rfl, hpieces⟩, rfl, -⟩
      exact ⟨rfl, .concat hpieces⟩
    · rintro ⟨hkind, hlink⟩
      cases hlink with
      | concat hpieces => exact ⟨(), _, rfl, _, _, ⟨rfl, hpieces⟩, rfl, rfl⟩
      | _ => contradiction
  | transformed =>
    simp only [link, bind_eq_ok_iff, keyword_eq_ok_iff, value_eq_ok_iff, pure_eq_ok_iff,
      readWord32?_eq_some_iff, listed_eq_ok_iff fun text read => mapEntry_eq_ok_iff]
    constructor
    · rintro ⟨-, _, rfl, parent, _, ⟨text, rfl, hparent⟩, -, _, rfl, mapping, _, ⟨rfl, hmapping⟩,
        rfl, -⟩
      exact ⟨rfl, .transformed hparent hmapping⟩
    · rintro ⟨hkind, hlink⟩
      cases hlink with
      | transformed hparent hmapping =>
        exact ⟨(), _, rfl, _, _, ⟨_, rfl, hparent⟩, (), _, rfl, _, _, ⟨rfl, hmapping⟩, rfl, rfl⟩
      | _ => contradiction

theorem entry_eq_ok_iff {id : Nat} {tokens rest : List Bytes} {read : Entry} :
    entry id tokens = .ok (read, rest) ↔ rest = [] ∧ EntryTokens id tokens read := by
  simp only [entry, bind_eq_ok_iff, value_eq_ok_iff, readWord32?_eq_some_iff, check_eq_ok_iff,
    token_eq_ok_iff, Decidable.not_not]
  constructor
  · rintro ⟨number, _, ⟨text, rfl, hid⟩, rfl, name, _, rfl, h⟩
    cases hname : Kind.ofName? name with
    | none => exact absurd (hname ▸ h) throw_ne_ok
    | some kind =>
      simp only [hname, bind_eq_ok_iff, position_eq_ok_iff, get_eq_ok_iff] at h
      obtain ⟨start, _, ⟨first, rfl, hstart⟩, stop, _, ⟨second, rfl, hstop⟩, flat, left, hlink,
        _, _, ⟨rfl, rfl⟩, h⟩ := h
      cases left with
      | cons text left => exact absurd h throw_ne_ok
      | nil =>
        obtain ⟨rfl, rfl⟩ := pure_eq_ok_iff.1 h
        obtain ⟨rfl, hflat⟩ := link_eq_ok_iff.1 hlink
        rw [Kind.ofName?_eq_some_iff.1 hname]
        exact ⟨rfl, .mk hid number.toNat_lt hstart hstop hflat⟩
  · rintro ⟨rfl, hentry⟩
    obtain @⟨number, first, second, link, ⟨start, stop⟩, flat, hid, hlt, hstart, hstop, hlink⟩ :=
      hentry
    have hnumber := UInt32.toNat_ofNat_of_lt' hlt
    refine ⟨UInt32.ofNat id, _, ⟨number, rfl, hnumber.symm ▸ hid⟩, hnumber, _, _, rfl, ?_⟩
    simp only [Kind.ofName?_name, bind_eq_ok_iff, position_eq_ok_iff, get_eq_ok_iff]
    exact ⟨start, _, ⟨first, rfl, hstart⟩, stop, _, ⟨second, rfl, hstop⟩, flat, [],
      link_eq_ok_iff.2 ⟨rfl, hlink⟩, [], [], ⟨rfl, rfl⟩, pure_eq_ok_iff.2 ⟨rfl, rfl⟩⟩

theorem run_entry_eq_ok_iff {id : Nat} {line : Bytes} {rest : List Bytes} {read : Entry} :
    (entry id).run (Bytes.tokens line) = .ok (read, rest) ↔ rest = [] ∧ EntryLine id line read := by
  rw [StateT.run, entry_eq_ok_iff]
  simp only [EntryLine, ← Bytes.tokens_eq_iff, exists_eq_left']

theorem entriesFrom_eq_ok_iff {pool result : Pool} {lines : List (Bytes × Nat)} :
    entriesFrom pool lines = .ok result ↔
      ∃ entries, result.toList = pool.toList ++ entries ∧
        List.Forall₂ (fun line entry => EntryLine line.2 line.1 entry)
          ((lines.map Prod.fst).zipIdx pool.size) entries := by
  -- What was read so far varies: its size is the index that the next line must have.
  induction lines generalizing pool with
  | nil =>
    simp [entriesFrom, Array.toList_inj, eq_comm]
  | cons line rest ih =>
    obtain ⟨line, number⟩ := line
    rw [entriesFrom, List.map_cons, List.zipIdx_cons]
    constructor
    · intro h
      cases hread : (entry pool.size).run (Bytes.tokens line) with
      | error fault => simp [hread] at h
      | ok read =>
        obtain ⟨read, left⟩ := read
        obtain ⟨-, hline⟩ := run_entry_eq_ok_iff.1 hread
        simp only [hread, ih, Array.toList_push, Array.size_push] at h
        obtain ⟨entries, hresult, hentries⟩ := h
        exact ⟨read :: entries, by rw [hresult, List.append_assoc, List.singleton_append],
          .cons hline hentries⟩
    · rintro ⟨_, hresult, _ | ⟨hline, hentries⟩⟩
      rw [run_entry_eq_ok_iff.2 ⟨rfl, hline⟩]
      simp only [ih, Array.toList_push, Array.size_push]
      exact ⟨_, by rw [hresult, List.append_assoc, List.singleton_append], hentries⟩

section Content

variable {line : Bytes} {lines bares : List Bytes} {entries : List Entry} {id : Nat}

theorem isContent_trimBlanks_eq_false_iff :
    isContent (Bytes.trimBlanks line) = false ↔ IdleLine line := by
  constructor
  · obtain ⟨front, kept, back, h⟩ := line.exists_trimming true true
    rw [h.trimBlanks_eq, ← h.parts]
    intro hcontent
    cases kept with
    | nil => exact .blank (List.forall_mem_append.2 ⟨h.front_blank, h.back_blank⟩)
    | cons b kept =>
      obtain rfl : b = 35 := by simpa [isContent] using hcontent
      exact .comment h.front_blank
  · intro hidle
    cases hidle with
    | blank hblank => rw [(Bytes.trimming_of_blank hblank).trimBlanks_eq, isContent]
    | comment hlead =>
      have hmark : Bytes.isBlank 35 = false := by decide
      obtain ⟨kept, back, h⟩ := Bytes.exists_trimming_of_solid hlead hmark _
      rw [h.trimBlanks_eq]
      rfl

theorem trimBlanks_eq_header_iff : Bytes.trimBlanks line = header ↔ HeaderLine line := by
  constructor
  · obtain ⟨front, kept, back, h⟩ := line.exists_trimming true true
    rw [h.trimBlanks_eq, ← h.parts]
    rintro rfl
    exact .mk h.front_blank h.back_blank
  · rintro ⟨hlead, htrail⟩
    have hfirst : ∀ b ∈ (some 108 : Option UInt8), Bytes.isBlank b = false := by
      simp [Bytes.isBlank, Bytes.space]
    have hlast : ∀ b ∈ (some 49 : Option UInt8), Bytes.isBlank b = false := by
      simp [Bytes.isBlank, Bytes.space]
    exact Bytes.Trimming.trimBlanks_eq {
      parts := rfl
      front_blank := hlead
      back_blank := htrail
      front_longest := fun _ => hfirst
      front_nil := by simp
      back_longest := fun _ => hlast
      back_nil := by simp }

theorem tokens_trimBlanks (line : Bytes) :
    Bytes.tokens (Bytes.trimBlanks line) = Bytes.tokens line := by
  obtain ⟨front, kept, back, h⟩ := line.exists_trimming true true
  have hspaced := Bytes.tokens_eq_iff.1 (rfl : Bytes.tokens kept = _)
  rw [h.trimBlanks_eq, ← h.parts, Bytes.tokens_append_of_blank h.front_blank,
    (hspaced.append_blank h.back_blank).tokens_eq]

theorem entryLine_trimBlanks_iff {entry : Entry} :
    EntryLine id (Bytes.trimBlanks line) entry ↔ EntryLine id line entry := by
  simp only [EntryLine, ← Bytes.tokens_eq_iff, tokens_trimBlanks]

theorem not_idleLine_of_entryLine {entry : Entry} (h : EntryLine id line entry) :
    ¬ IdleLine line := by
  obtain ⟨tokens, hspaced, htokens⟩ := h
  obtain @⟨number, _, _, _, _, _, hid, -⟩ := htokens
  intro hidle
  have hfound := hspaced.tokens_eq
  cases hidle with
  | blank hblank =>
    rw [(Bytes.Spaced.blanks hblank).tokens_eq] at hfound
    contradiction
  | comment hlead =>
    have hmark : Bytes.isBlank 35 = false := by decide
    obtain ⟨first, others, hcomment⟩ := Bytes.exists_tokens_cons hmark _
    rw [Bytes.tokens_append_of_blank hlead, hcomment] at hfound
    -- a numeral starts with a digit
    obtain rfl := (List.cons.inj hfound).1
    exact absurd (hid.le_of_mem 35 List.mem_cons_self) (by decide)

def significant (lines : List Bytes) : List Bytes :=
  (lines.map Bytes.trimBlanks).filter isContent

theorem significant_cons_of_idle (h : IdleLine line) (lines : List Bytes) :
    significant (line :: lines) = significant lines := by
  rw [significant, List.map_cons, List.filter_cons, isContent_trimBlanks_eq_false_iff.2 h]
  rfl

theorem significant_cons_of_not_idle (h : ¬ IdleLine line) (lines : List Bytes) :
    significant (line :: lines) = Bytes.trimBlanks line :: significant lines := by
  rw [← isContent_trimBlanks_eq_false_iff, Bool.not_eq_false] at h
  rw [significant, List.map_cons, List.filter_cons, h]
  rfl

theorem entryLines_iff :
    EntryLines id lines entries ↔
      List.Forall₂ (fun line entry => EntryLine line.2 line.1 entry)
        ((significant lines).zipIdx id) entries := by
  induction lines generalizing id entries with
  | nil =>
    constructor
    · rintro ⟨⟩
      exact .nil
    · rintro ⟨⟩
      exact .nil
  | cons line rest ih =>
    by_cases hidle : IdleLine line
    · rw [significant_cons_of_idle hidle, ← ih]
      constructor
      · intro h
        cases h with
        | idle _ hlines => exact hlines
        | entry hline => exact absurd hidle (not_idleLine_of_entryLine hline)
      · exact .idle hidle
    · rw [significant_cons_of_not_idle hidle, List.zipIdx_cons]
      constructor
      · intro h
        cases h with
        | idle hline => exact absurd hline hidle
        | entry hline hlines => exact .cons (entryLine_trimBlanks_iff.2 hline) (ih.1 hlines)
      · rintro (_ | ⟨hline, hlines⟩)
        exact .entry (entryLine_trimBlanks_iff.1 hline) (ih.2 hlines)

theorem not_idleLine_of_headerLine (h : HeaderLine line) : ¬ IdleLine line := by
  rw [← isContent_trimBlanks_eq_false_iff, trimBlanks_eq_header_iff.2 h]
  decide

theorem poolLines_iff :
    PoolLines lines entries ↔
      ∃ rest, significant lines = header :: rest ∧
        List.Forall₂ (fun line entry => EntryLine line.2 line.1 entry) rest.zipIdx entries := by
  induction lines with
  | nil =>
    constructor
    · rintro ⟨⟩
    · rintro ⟨rest, hnil, -⟩
      contradiction
  | cons line lines ih =>
    by_cases hidle : IdleLine line
    · rw [significant_cons_of_idle hidle, ← ih]
      constructor
      · intro h
        cases h with
        | idle _ hlines => exact hlines
        | header hline => exact absurd hidle (not_idleLine_of_headerLine hline)
      · exact .idle hidle
    · rw [significant_cons_of_not_idle hidle]
      simp only [List.cons.injEq]
      constructor
      · intro h
        cases h with
        | idle hline => exact absurd hline hidle
        | header hline hlines =>
          exact ⟨_, ⟨trimBlanks_eq_header_iff.2 hline, rfl⟩, entryLines_iff.1 hlines⟩
      · rintro ⟨rest, ⟨hline, rfl⟩, hrest⟩
        exact .header (trimBlanks_eq_header_iff.1 hline) (entryLines_iff.2 hrest)

end Content

section Marks

theorem dropMark_eq_iff {line bare : Bytes} : dropMark line = bare ↔ Unmarked line bare := by
  rw [dropMark]
  split
  · next hmark =>
    obtain ⟨rest, rfl⟩ := List.isPrefixOf_iff_prefix.1 hmark
    constructor
    · rintro rfl
      exact .mark _
    · intro h
      cases h with
      | mark => rfl
      | bare hnone => exact absurd (List.prefix_append _ _) hnone
  · next hmark =>
    rw [List.isPrefixOf_iff_prefix] at hmark
    constructor
    · rintro rfl
      exact .bare hmark
    · intro h
      cases h with
      | mark => exact absurd (List.prefix_append byteOrderMark _) hmark
      | bare => rfl

theorem lineNumber_add_one (index : Nat) : lineNumber (index + 1) = lineNumber index + 1 :=
  UInt32.ofNat_add index 1

theorem unmark_eq_iff {line bare : Bytes} {index : Nat} :
    unmark line index = bare ↔
      (lineNumber index = 1 → Unmarked line bare) ∧ (lineNumber index ≠ 1 → line = bare) := by
  rw [unmark]
  split
  · next hone => simp [dropMark_eq_iff, hone]
  · next hother => simp [hother]

theorem unmarkedFrom_iff {index : Nat} {lines bares : List Bytes} :
    UnmarkedFrom (lineNumber index) lines bares ↔
      (lines.zipIdx index).map (fun line => unmark line.1 line.2) = bares := by
  induction lines generalizing index bares with
  | nil =>
    constructor
    · rintro ⟨⟩
      rfl
    · rintro rfl
      exact .nil
  | cons line lines ih =>
    rw [List.zipIdx_cons, List.map_cons]
    have hnext := lineNumber_add_one index
    constructor
    · rintro (_ | ⟨hone, hother, hlines⟩)
      rw [← hnext] at hlines
      rw [unmark_eq_iff.2 ⟨hone, hother⟩, ih.1 hlines]
    · rintro rfl
      obtain ⟨hone, hother⟩ := unmark_eq_iff.1 (rfl : unmark line index = _)
      exact .cons hone hother (hnext ▸ ih.2 rfl)

theorem lineNumber_ne_one {index : Nat} (hlow : 1 < index) (hhigh : index ≤ UInt32.size) :
    lineNumber index ≠ 1 := by
  intro hone
  rcases Nat.lt_or_eq_of_le hhigh with hlt | rfl
  · have hnumber : (lineNumber index).toNat = index := UInt32.toNat_ofNat_of_lt' hlt
    rw [hone, UInt32.toNat_one] at hnumber
    omega
  · contradiction

theorem unmarkedFrom_iff_eq {index : Nat} {lines bares : List Bytes} (hindex : 1 < index)
    (hsize : index + lines.length ≤ UInt32.size + 1) :
    UnmarkedFrom (lineNumber index) lines bares ↔ lines = bares := by
  have hsame : (lines.zipIdx index).map (fun line => unmark line.1 line.2) = lines := by
    conv_rhs => rw [← List.zipIdx_map_fst index lines]
    apply List.map_congr_left
    rintro ⟨line, later⟩ hmem
    have hlow := List.le_snd_of_mem_zipIdx hmem
    have hhigh := List.snd_lt_add_of_mem_zipIdx hmem
    exact if_neg (lineNumber_ne_one (by omega) (by omega))
  rw [unmarkedFrom_iff, hsame]

end Marks

theorem significant_concat_idle {line : Bytes} (h : IdleLine line) (lines : List Bytes) :
    significant (lines ++ [line]) = significant lines := by
  rw [significant, List.map_append, List.filter_append, ← significant, ← significant,
    significant_cons_of_idle h]
  exact List.append_nil _

theorem map_fst_contentLines (text : Bytes) :
    (contentLines text).map Prod.fst =
      significant (((Bytes.split (· == Bytes.newline) text).zipIdx 1).map fun line =>
        unmark line.1 line.2) := by
  have hlines : (contentLines text).map Prod.fst =
      significant (((Bytes.lines text).zipIdx 1).map fun line => unmark line.1 line.2) := by
    rw [contentLines, significant, List.map_map]
    change List.map Prod.fst (List.filter (isContent ∘ Prod.fst) _) = _
    rw [← List.filter_map, List.map_map]
    rfl
  rw [hlines, Bytes.lines]
  split
  · next hlast =>
    have hidle : ∀ index, IdleLine (unmark [] index) := by
      intro index
      have hempty : unmark [] index = [] := ite_self _
      rw [hempty]
      exact .blank (by simp)
    conv_rhs => rw [← List.dropLast_append_getLast? [] hlast]
    rw [List.zipIdx_append, List.map_append]
    exact (significant_concat_idle (hidle _) _).symm
  · rfl

end Pool.Parser

/-- The texts that are read as a pool are those that write it. -/
theorem Pool.parse_eq_ok_iff {text : Bytes} {pool : Pool} :
    parse text = .ok pool ↔ Written text pool := by
  have hwritten : Written text pool ↔ ∃ rest,
      (Parser.contentLines text).map Prod.fst = header :: rest ∧
        List.Forall₂ (fun line entry => EntryLine line.2 line.1 entry) rest.zipIdx pool.toList := by
    rw [Parser.map_fst_contentLines, ← Parser.poolLines_iff]
    constructor
    · rintro ⟨lines, bares, hcut, hbares, hpool⟩
      rwa [Bytes.split_eq_iff.2 hcut, Parser.unmarkedFrom_iff.1 hbares]
    · intro hpool
      exact ⟨_, _, Bytes.split_eq_iff.1 rfl, Parser.unmarkedFrom_iff.2 rfl, hpool⟩
  rw [hwritten, parse]
  cases Parser.contentLines text with
  | nil => simp
  | cons line rest =>
    obtain ⟨first, index⟩ := line
    simp only [List.map_cons, List.cons.injEq]
    by_cases hfirst : first = header
    · simp [hfirst, Parser.entriesFrom_eq_ok_iff]
    · simp [hfirst]

end TextOrigin

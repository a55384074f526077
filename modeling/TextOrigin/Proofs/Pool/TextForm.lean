import TextOrigin.Proofs.Pool.Reading

/-!
The text form of pools. The pools that have one are the regular ones: their entries use the fields
of their kinds only, and their indices and counts fit their words. What is printed for such a pool
writes it, and a text that writes a pool writes a regular one.
-/

namespace TextOrigin

/-- An entry of known kind that leaves the fields of other kinds at their defaults. Its lists have
lengths that a word can hold. -/
structure Entry.Regular (entry : Entry) : Prop where
  exists_link : ∃ range link, entry = Entry.ofLink range link
  pieces_lt : entry.pieces.length < UInt64.size
  mapping_lt : entry.mapping.length < UInt64.size

structure Pool.Regular (pool : Pool) : Prop where
  size_le : pool.size ≤ UInt32.size
  entries : ∀ entry ∈ pool.toList, entry.Regular

namespace Pool

section Tokens

/-! Every token of an entry's line is one or more bytes without a blank. -/

variable {α : Type} {tokens : List Bytes}

theorem Group.isToken {text : Bytes} {fields : List Word} (h : Group text fields)
    (hne : fields ≠ []) : Bytes.IsToken text := by
  obtain ⟨parts, rfl, hparts⟩ := h
  exact Bytes.isToken_join (by decide) (hparts.ne_nil hne) (hparts.forall_mem Numeral.isToken)

theorem Listing.isToken {fields : α → List Word} (hne : ∀ a, fields a ≠ []) {items : List α}
    (h : Listing fields tokens items) : ∀ token ∈ tokens, Bytes.IsToken token := by
  obtain @⟨count, groups, items, hcount, -, hgroups⟩ := h
  have hboth := hgroups.imp fun _ item hgroup => And.intro (hgroup.isToken (hne item)) hgroup
  exact List.forall_mem_cons.2 ⟨hcount.isToken, ((List.forall₂_and_left groups items).1 hboth).1⟩

theorem LinkTokens.isToken {link : Link EntryId} (h : LinkTokens tokens link) :
    ∀ token ∈ tokens, Bytes.IsToken token := by
  have hfile : Bytes.IsToken (ascii "file") := by decide
  have hparentWord : Bytes.IsToken (ascii "parent") := by decide
  have hoffsetWord : Bytes.IsToken (ascii "offset") := by decide
  have hpiecesWord : Bytes.IsToken (ascii "pieces") := by decide
  have hmapWord : Bytes.IsToken (ascii "map") := by decide
  cases h with
  | leaf hnumber => simp [hfile, hnumber.isToken]
  | substring hparent hoffset =>
    simp [hparentWord, hoffsetWord, hparent.isToken, hoffset.isToken]
  | concat hpieces =>
    exact List.forall_mem_cons.2 ⟨hpiecesWord, hpieces.isToken fun _ => List.cons_ne_nil _ _⟩
  | transformed hparent hmapping =>
    simp only [List.forall_mem_cons]
    exact ⟨hparentWord, hparent.isToken, hmapWord, hmapping.isToken fun _ => List.cons_ne_nil _ _⟩

theorem EntryTokens.isToken {id : Nat} {entry : Entry} (h : EntryTokens id tokens entry) :
    ∀ token ∈ tokens, Bytes.IsToken token := by
  obtain @⟨number, start, stop, link, range, flat, hid, -, hstart, hstop, hlink⟩ := h
  have hname : Bytes.IsToken flat.kind.name := by
    cases flat.kind <;> decide
  simp only [List.forall_mem_cons, List.forall_mem_append]
  exact ⟨hid.isToken, hname, hstart.forall_mem Numeral.isToken, hstop.forall_mem Numeral.isToken,
    hlink.isToken⟩

end Tokens

structure Clean (line : Bytes) : Prop where
  one_line : Bytes.newline ∉ line
  no_mark : ¬ [0xEF, 0xBB, 0xBF] <+: line

theorem clean_nil : Clean [] :=
  ⟨by decide, by decide⟩

theorem clean_header : Clean header :=
  ⟨by decide, by decide⟩

theorem headerLine_header : HeaderLine header :=
  @HeaderLine.mk [] [] (by simp) (by simp)

theorem EntryTokens.clean {tokens : List Bytes} {id : Nat} {entry : Entry}
    (h : EntryTokens id tokens entry) : Clean (Bytes.join Bytes.space tokens) := by
  -- Newlines are blanks, and a line that starts with a digit does not start with a mark.
  constructor
  · intro hmem
    obtain hspace | ⟨token, htoken, hmem⟩ := Bytes.mem_join hmem
    · contradiction
    · exact absurd ((h.isToken token htoken).solid _ hmem) (by decide)
  · obtain @⟨number, start, stop, link, range, flat, hid, -, -, -, -⟩ := h
    obtain ⟨b, digits, rfl⟩ := List.exists_cons_of_ne_nil hid.ne_nil
    obtain ⟨-, hle⟩ := hid.digits b List.mem_cons_self
    rw [Bytes.join_cons_cons, List.cons_prefix_cons]
    rintro ⟨rfl, -⟩
    contradiction

theorem unmarkedFrom_of_clean {lines : List Bytes} (h : ∀ line ∈ lines, Clean line)
    (number : UInt32) : UnmarkedFrom number lines lines := by
  induction lines generalizing number with
  | nil => exact .nil
  | cons line rest ih =>
    obtain ⟨hline, hrest⟩ := List.forall_mem_cons.1 h
    exact .cons (fun _ => .bare hline.no_mark) (fun _ => rfl) (ih hrest _)

theorem written_flatMap {lines : List Bytes} {pool : Pool} (hclean : ∀ line ∈ lines, Clean line)
    (h : PoolLines (lines ++ [[]]) pool.toList) :
    Written (lines.flatMap (· ++ [Bytes.newline])) pool := by
  -- the newline of the last line opens an empty one
  have hall : ∀ line ∈ lines ++ [[]], Clean line :=
    List.forall_mem_append.2 ⟨hclean, List.forall_mem_singleton.2 clean_nil⟩
  have hcut := Bytes.split_flatMap fun line hline => (hclean line hline).one_line
  exact ⟨_, _, Bytes.split_eq_iff.1 hcut, unmarkedFrom_of_clean hall 1, h⟩

section Printed

theorem numerals_map_number (fields : List Word) : Numerals (fields.map Printer.number) fields := by
  rw [Numerals, List.forall₂_map_left_iff, List.forall₂_same]
  exact fun word _ => numeral_decimal word.toNat

theorem group_printed (fields : List Word) : Group (Printer.group fields) fields :=
  ⟨fields.map Printer.number, rfl, numerals_map_number fields⟩

theorem listing_printed {α : Type} (fields : α → List Word) {items : List α}
    (h : items.length < UInt64.size) :
    Listing fields (decimal items.length :: items.map fun item => Printer.group (fields item))
      items := by
  refine .mk ?_ ?_ ?_
  · rw [List.length_map]
    exact numeral_decimal items.length
  · rwa [List.length_map]
  · rw [List.forall₂_map_left_iff, List.forall₂_same]
    exact fun item _ => group_printed (fields item)

theorem linkTokens_printed {range : Range} {link : Link EntryId}
    (h : (Entry.ofLink range link).Regular) : LinkTokens (Printer.linkTokens link) link := by
  cases link with
  | leaf file => exact .leaf (numeral_decimal file.value.toNat)
  | substring parent offset =>
    exact .substring (numeral_decimal parent.toNat) (numeral_decimal offset.toNat)
  | concat pieces => exact .concat (listing_printed pieceFields h.pieces_lt)
  | transformed parent mapping =>
    exact .transformed (numeral_decimal parent.toNat) (listing_printed mapFields h.mapping_lt)

theorem entryTokens_ofLink (id : EntryId) (range : Range) (link : Link EntryId) :
    Printer.entryTokens id (Entry.ofLink range link) =
      decimal id.toNat :: link.kind.name ::
        (Printer.positionTokens range.start ++
          (Printer.positionTokens range.stop ++ Printer.linkTokens link)) := by
  cases link <;> rfl

theorem entryTokens_printed {id : Nat} (hid : id < UInt32.size) {entry : Entry}
    (h : entry.Regular) : EntryTokens id (Printer.entryTokens (UInt32.ofNat id) entry) entry := by
  obtain ⟨range, link, rfl⟩ := h.exists_link
  rw [entryTokens_ofLink, UInt32.toNat_ofNat_of_lt' hid]
  exact .mk (numeral_decimal id) hid (numerals_map_number (positionFields range.start))
    (numerals_map_number (positionFields range.stop)) (linkTokens_printed h)

theorem entryLines_printed {entries : List Entry} {start : Nat}
    (hsize : start + entries.length ≤ UInt32.size) (h : ∀ entry ∈ entries, entry.Regular) :
    EntryLines start
      ((entries.zipIdx start).map (fun (entry, id) =>
        Printer.entryLine (UInt32.ofNat id) entry) ++ [[]]) entries := by
  induction entries generalizing start with
  | nil => exact .idle (.blank (by simp)) .nil
  | cons entry rest ih =>
    obtain ⟨hentry, hrest⟩ := List.forall_mem_cons.1 h
    rw [List.length_cons] at hsize
    have hstart : start < UInt32.size := by omega
    have htokens := entryTokens_printed hstart hentry
    exact .entry ⟨_, Bytes.spaced_join htokens.isToken, htokens⟩ (ih (by omega) hrest)

end Printed

theorem written_print {pool : Pool} (h : pool.Regular) : Written pool.print pool := by
  apply written_flatMap
  · rw [List.forall_mem_cons, List.forall_mem_map]
    refine ⟨clean_header, ?_⟩
    rintro ⟨entry, id⟩ hmem
    have hid := Nat.lt_of_lt_of_le (List.snd_lt_of_mem_zipIdx hmem) h.size_le
    have hentry := h.entries entry (List.fst_mem_of_mem_zipIdx hmem)
    exact (entryTokens_printed hid hentry).clean
  · have hsize : 0 + pool.toList.length ≤ UInt32.size := by
      rw [Nat.zero_add]
      exact h.size_le
    exact .header headerLine_header (entryLines_printed hsize h.entries)

theorem Listing.length_lt {α : Type} {fields : α → List Word} {tokens : List Bytes} {items : List α}
    (h : Listing fields tokens items) : items.length < UInt64.size := by
  obtain ⟨-, hlt, hgroups⟩ := h
  rwa [← hgroups.length_eq]

theorem EntryTokens.id_lt {tokens : List Bytes} {id : Nat} {entry : Entry}
    (h : EntryTokens id tokens entry) : id < UInt32.size := by
  obtain ⟨-, hlt, -⟩ := h
  exact hlt

theorem EntryTokens.regular {tokens : List Bytes} {id : Nat} {entry : Entry}
    (h : EntryTokens id tokens entry) : entry.Regular := by
  obtain @⟨number, start, stop, link, range, flat, -, -, -, -, hlink⟩ := h
  have hnil : ([] : Bytes).length < UInt64.size := by decide
  cases hlink with
  | leaf => exact ⟨⟨_, _, rfl⟩, hnil, hnil⟩
  | substring => exact ⟨⟨_, _, rfl⟩, hnil, hnil⟩
  | concat hpieces => exact ⟨⟨_, _, rfl⟩, hpieces.length_lt, hnil⟩
  | transformed _ hmapping => exact ⟨⟨_, _, rfl⟩, hnil, hmapping.length_lt⟩

theorem EntryLines.regular {lines : List Bytes} {id : Nat} {entries : List Entry}
    (h : EntryLines id lines entries) (hid : id ≤ UInt32.size) :
    id + entries.length ≤ UInt32.size ∧ ∀ entry ∈ entries, entry.Regular := by
  induction h with
  | nil => exact ⟨hid, by simp⟩
  | idle _ _ ih => exact ih hid
  | entry hline _ ih =>
    -- The index of an entry is a word, so one more at most is not.
    obtain ⟨tokens, -, htokens⟩ := hline
    obtain ⟨hsize, hrest⟩ := ih htokens.id_lt
    rw [List.length_cons]
    exact ⟨by omega, List.forall_mem_cons.2 ⟨htokens.regular, hrest⟩⟩

theorem PoolLines.regular {lines : List Bytes} {pool : Pool} (h : PoolLines lines pool.toList) :
    pool.Regular := by
  generalize hentries : pool.toList = entries at h
  induction h with
  | idle _ _ ih => exact ih hentries
  | header _ hlines =>
    subst hentries
    obtain ⟨hsize, hregular⟩ := hlines.regular (Nat.zero_le _)
    rw [Nat.zero_add] at hsize
    exact ⟨hsize, hregular⟩

theorem Written.regular {text : Bytes} {pool : Pool} (h : Written text pool) : pool.Regular := by
  obtain ⟨lines, bares, -, -, hlines⟩ := h
  exact hlines.regular

/-- A regular pool comes back from its text, even if its references and ranges are wrong. So
different regular pools have different texts. -/
theorem parse_print {pool : Pool} (h : pool.Regular) :
    parse pool.print = .ok pool ∧
      ∀ other : Pool, other.Regular → other.print = pool.print → other = pool := by
  have hparse := parse_eq_ok_iff.2 (written_print h)
  refine ⟨hparse, fun other hother hprint => ?_⟩
  have hparse' := parse_eq_ok_iff.2 (written_print hother)
  rw [hprint, hparse] at hparse'
  exact (Except.ok.inj hparse').symm

namespace Quartet

def range : Range := ⟨⟨7, 1, 2⟩, ⟨3, 0, 3⟩⟩

def pool : Pool :=
  #[Entry.ofLink range (.leaf ⟨3⟩), Entry.ofLink range (.substring 2 1),
    Entry.ofLink range (.concat [⟨0, 0, 4⟩, ⟨9, 5, 18446744073709551615⟩]),
    Entry.ofLink range (.transformed 3 [⟨0, 2, 1, 5⟩])]

def front : Pool := #[Entry.ofLink range (.leaf ⟨3⟩)]

theorem regular_front : front.Regular := by
  refine ⟨by decide, ?_⟩
  simp only [front, List.forall_mem_cons]
  exact ⟨⟨⟨_, _, rfl⟩, by decide, by decide⟩, by simp⟩

theorem regular_pool : pool.Regular := by
  refine ⟨by decide, ?_⟩
  simp only [pool, List.forall_mem_cons]
  exact ⟨⟨⟨_, _, rfl⟩, by decide, by decide⟩, ⟨⟨_, _, rfl⟩, by decide, by decide⟩,
    ⟨⟨_, _, rfl⟩, by decide, by decide⟩, ⟨⟨_, _, rfl⟩, by decide, by decide⟩, by simp⟩

end Quartet

theorem parse_print_quartet :
    parse (print Quartet.pool) = .ok Quartet.pool ∧
      print Quartet.front ≠ print Quartet.pool := by
  obtain ⟨hparse, hunique⟩ := parse_print Quartet.regular_pool
  refine ⟨hparse, fun hprint => ?_⟩
  have hsame := hunique Quartet.front Quartet.regular_front hprint
  exact absurd (congrArg Array.size hsame) (by decide)

theorem written_iff_first {text : Bytes} {pool : Pool}
    (hcount : text.count Bytes.newline < UInt32.size) :
    Written text pool ↔ ∃ first bare rest, Bytes.CutAt Bytes.newline text (first :: rest) ∧
      Unmarked first bare ∧ PoolLines (bare :: rest) pool.toList := by
  have hrest {first : Bytes} {rest bares : List Bytes}
      (hcut : Bytes.CutAt Bytes.newline text (first :: rest)) :
      UnmarkedFrom (1 + 1) rest bares ↔ rest = bares := by
    have hlength := Bytes.length_split Bytes.newline text
    rw [Bytes.split_eq_iff.2 hcut, List.length_cons] at hlength
    exact @Parser.unmarkedFrom_iff_eq 2 _ _ (by omega) (by omega)
  constructor
  · rintro ⟨lines, bares, hcut, hbares, hpool⟩
    cases hbares with
    | nil => exact absurd rfl hcut.ne_nil
    | cons hone _ hlater =>
      obtain rfl := (hrest hcut).1 hlater
      exact ⟨_, _, _, hcut, hone rfl, hpool⟩
  · rintro ⟨first, bare, rest, hcut, hfirst, hpool⟩
    exact ⟨_, _, hcut, .cons (fun _ => hfirst) (fun hne => absurd rfl hne) ((hrest hcut).2 rfl),
      hpool⟩

/-- A text is read as a pool exactly if it writes this pool, and what is printed for the pool is
read as the same pool again. Only the first of up to `UInt32.size` lines may have a mark. -/
theorem parse_iff_written (text : Bytes) :
    (∀ pool, parse text = .ok pool ↔ Written text pool) ∧
      (text.count Bytes.newline < UInt32.size → ∀ pool, parse text = .ok pool ↔
        ∃ first bare rest, Bytes.CutAt Bytes.newline text (first :: rest) ∧
          Unmarked first bare ∧ PoolLines (bare :: rest) pool.toList) ∧
      (parse text >>= fun pool => parse pool.print) = parse text := by
  refine ⟨fun pool => parse_eq_ok_iff, fun hcount pool => ?_, ?_⟩
  · rw [parse_eq_ok_iff, written_iff_first hcount]
  · cases htext : parse text with
    | error error => rfl
    | ok pool => exact parse_eq_ok_iff.2 (written_print (parse_eq_ok_iff.1 htext).regular)

namespace Loose

def text : Bytes :=
  0xEF :: 0xBB :: 0xBF :: ascii "# cached\r\n lineage-pool 1\r\n\n" ++
    ascii "00\toriginal 0 0 0  3 0 03 file 7 \r\n" ++
    ascii "1 substring 0 0 0 2 0 2 parent 0 offset 1\n \t# once more\n" ++
    ascii "\x0b2 concat 0 0 0 2 0 2 pieces 1 01:0:2\x0c\n" ++
    ascii "3 transformed 0 0 0 4 0 4 parent 2 map 2 0:1:0:1 1:2:03:4"

def pool : Pool :=
  #[Entry.ofLink ⟨⟨0, 0, 0⟩, ⟨3, 0, 3⟩⟩ (.leaf ⟨7⟩),
    Entry.ofLink ⟨⟨0, 0, 0⟩, ⟨2, 0, 2⟩⟩ (.substring 0 1),
    Entry.ofLink ⟨⟨0, 0, 0⟩, ⟨2, 0, 2⟩⟩ (.concat [⟨1, 0, 2⟩]),
    Entry.ofLink ⟨⟨0, 0, 0⟩, ⟨4, 0, 4⟩⟩ (.transformed 2 [⟨0, 1, 0, 1⟩, ⟨1, 2, 3, 4⟩])]

end Loose

theorem parse_iff_written_loose :
    Loose.text.count Bytes.newline < UInt32.size ∧ ∃ first bare rest,
      Bytes.CutAt Bytes.newline Loose.text (first :: rest) ∧ Unmarked first bare ∧
        PoolLines (bare :: rest) Loose.pool.toList :=
  have hcount : Loose.text.count Bytes.newline < UInt32.size := by decide +kernel
  have hparse : parse Loose.text = .ok Loose.pool := by decide +kernel
  ⟨hcount, ((parse_iff_written Loose.text).2.1 hcount Loose.pool).1 hparse⟩

end Pool

end TextOrigin

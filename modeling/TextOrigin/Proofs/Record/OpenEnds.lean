import TextOrigin.Proofs.Record.Arising
import TextOrigin.Proofs.Record.Modes
import TextOrigin.Proofs.Record.PastEnd
import TextOrigin.Proofs.Record.Ranges

/-!
Strict ranges past the end of a record. A strict resolution lands nowhere past the end of a record,
but it may land at the end: a leaf takes its end for an offset, and a slice takes its end for one
where its parent does. A range that reaches one byte further has such an end for its last offset, so
an open-ended record resolves it, and no other record does. Main statement:
`resolveRange_strict_stop`.
-/

namespace TextOrigin

namespace Record

/-- Whether a strict resolution may take the end of a record for an offset: the end of a leaf is a
place of its file, and the end of a slice is an offset of the parent, before the parent's end or at
it. Pieces and mappings have their bytes alone. -/
def openEnded : Record → Bool
  | mk _ _ (.leaf _) => true
  | mk _ range (.substring parent start) =>
    decide (range.length + start < parent.length) || parent.openEnded
  | mk _ _ _ => false

theorem lt_or_openEnded_of_landing {record : Record} (h : record.Arises)
    (htotals : record.TotalsFit) {settings : Settings} {offset : Word} {landing : FileId × Word}
    (hlanding : (record.descend settings .strict offset).landing = some landing) :
    offset < record.length ∨ offset = record.length ∧ record.openEnded = true := by
  have hfits := h.fits
  have htotal := (totalsFit_iff.1 htotals).1
  have hbelow : ∀ child ∈ record.link.refs, ∀ inner,
      (child.descend settings .strict inner).landing = some landing →
        inner < child.length ∨ inner = child.length ∧ child.openEnded = true :=
    fun child hchild inner hinner =>
      lt_or_openEnded_of_landing (h.of_mem_refs hchild) (htotals.of_mem_refs hchild) hinner
  obtain ⟨node, range, link⟩ := record
  cases link with
  | leaf file =>
    rcases UInt64.lt_or_eq_of_le (landing_leaf_strict hlanding) with hlt | heq
    · exact .inl hlt
    · exact .inr ⟨heq, rfl⟩
  | substring parent start =>
    obtain ⟨hle, hinner⟩ := landing_substring_strict hlanding
    rcases UInt64.lt_or_eq_of_le hle with hlt | rfl
    · exact .inl hlt
    · have hinside := hbelow parent (List.mem_singleton_self parent) _ hinner
      refine .inr ⟨rfl, ?_⟩
      rw [openEnded, Bool.or_eq_true, decide_eq_true_eq]
      exact hinside.imp_right And.right
  | concat pieces =>
    obtain ⟨piece, hpiece, hcontains, -⟩ := landing_concat_strict hlanding
    simp only [Piece.contains, Bool.and_eq_true, decide_eq_true_eq] at hcontains
    have hlt : (0 : Word).toNat + Piece.totalLength pieces < UInt64.size := by
      rw [UInt64.toNat_zero, Nat.zero_add]
      exact htotal pieces rfl
    exact .inl (UInt64.lt_of_lt_of_le hcontains.2 (hfits.1.stop_le hlt hpiece))
  | transformed parent mapping =>
    obtain ⟨entry, hentry, hcovers, -⟩ := landing_transformed_strict hlanding
    simp only [MapEntry.covers, Bool.and_eq_true, decide_eq_true_eq] at hcovers
    have hwithin := Mapping.within_of_faultFrom? hfits entry hentry
    exact .inl (UInt64.lt_of_lt_of_le hcovers.2 hwithin.target_le)
termination_by record.height
decreasing_by exact height_lt_of_mem_refs hchild

theorem Plain.landing_end {registry : Registry} {record : Record} (h : Plain registry record)
    (hopen : record.openEnded = true) :
    ∃ file place position, registry.positionAt? file place = some position ∧
      ∀ settings mode,
        (record.descend settings mode record.length).landing = some (file, place) := by
  induction h with
  | @leaf node file range lines hlines hvalid hstop =>
    have hle := (Range.start_add_mem hvalid (UInt64.le_refl range.length)).2
    obtain ⟨position, hposition⟩ := Registry.exists_positionAt? hlines (UInt64.le_trans hle hstop)
    refine ⟨file, range.start.offset + range.length, position, hposition, fun settings mode => ?_⟩
    change ((mk node range (.leaf file)).descend settings mode range.length).landing = _
    rw [landing_descend, step_leaf_of_le (UInt64.le_refl range.length)]
  | @substring node parent record start stop hplain hrecord hparent =>
    obtain ⟨hstart, hstop, rfl⟩ := substring_eq_ok_iff.1 hrecord
    rw [openEnded, Range.length_ofLength, UInt64.sub_add_cancel, Bool.or_eq_true,
      decide_eq_true_eq] at hopen
    -- the end of the slice is the offset `stop` of its parent
    have hlanding : ∀ settings mode,
        ((mk node (Range.ofLength (stop - start)) (.substring parent start)).descend settings mode
          (stop - start)).landing = (parent.descend settings mode stop).landing :=
      fun settings mode => by
        have hle : stop - start ≤ (Range.ofLength (stop - start)).length := by
          rw [Range.length_ofLength]
          exact UInt64.le_refl _
        rw [landing_descend, step_substring_of_le hle, UInt64.sub_add_cancel]
    simp only [length_mk_ofLength, hlanding]
    rcases UInt64.lt_or_eq_of_le hstop with hlt | rfl
    · obtain ⟨origin, position, -, hposition, hland⟩ := hplain.exists_landing hlt
      exact ⟨origin.file, origin.offset, position, hposition, hland⟩
    · exact hparent (hopen.resolve_left (UInt64.lt_irrefl _))
  | concat hplain htotal hrecord hsources =>
    obtain ⟨pieces, total, -, -, -, rfl⟩ := concat_eq_ok_iff.1 hrecord
    simp [openEnded] at hopen

theorem Plain.arises {registry : Registry} {record : Record} (h : Plain registry record) :
    record.Arises := by
  induction h with
  | @leaf node file range lines hlines hvalid hstop =>
    have hnone : ∀ other ∈ ([] : List Record), other.Arises := by simp
    exact .built hnone (.leaf file range)
  | substring hplain hrecord hparent =>
    exact .built (List.forall_mem_singleton.2 hparent)
      (.substring (List.mem_singleton_self _) hrecord)
  | concat hplain htotal hrecord hsources =>
    exact .built (List.forall_mem_map.2 hsources)
      (.concat (fun contribution hmem => List.mem_map_of_mem hmem) hrecord)

theorem Plain.totalsFit {registry : Registry} {record : Record} (h : Plain registry record) :
    record.TotalsFit := by
  induction h with
  | @leaf node file range lines hlines hvalid hstop =>
    exact totalsFit_iff.2 ⟨by simp [Record.leaf, link], by simp [Record.leaf, link, Link.refs]⟩
  | substring hplain hrecord hparent =>
    obtain ⟨-, -, rfl⟩ := substring_eq_ok_iff.1 hrecord
    exact totalsFit_iff.2 ⟨by simp [link], by simpa [link, Link.refs] using hparent⟩
  | concat hplain htotal hrecord hsources =>
    obtain ⟨pieces, total, rfl, -, -, rfl⟩ := concat_eq_ok_iff.1 hrecord
    rw [contributed_map] at htotal
    refine totalsFit_iff.2 ⟨fun other hlink => ?_, fun child hchild => ?_⟩
    · rwa [← Link.concat.inj hlink]
    · obtain ⟨piece, hpiece, rfl⟩ := List.mem_map.1 hchild
      exact hsources _ (List.mem_map_of_mem hpiece)

theorem Plain.exists_resolve_le {registry : Registry} {record : Record} (h : Plain registry record)
    (hopen : record.openEnded = true) (settings : Settings) {offset : Word}
    (hle : offset ≤ record.length) :
    ∃ location, (record.resolve registry settings .strict offset).value = some location := by
  rcases UInt64.lt_or_eq_of_le hle with hlt | rfl
  · obtain ⟨origin, position, -, hposition, hlanding⟩ := h.exists_landing hlt
    exact ⟨_, resolve_of_landing (hlanding settings .strict) hposition⟩
  · obtain ⟨file, place, position, hposition, hlanding⟩ := h.landing_end hopen
    exact ⟨_, resolve_of_landing (hlanding settings .strict) hposition⟩

/-- A strict range that is not empty resolves only if it ends inside the record, or one byte past
the end of an open-ended record. On plain records it resolves exactly then. -/
theorem resolveRange_strict_stop {record : Record} (h : record.Arises) (htotals : record.TotalsFit)
    (registry : Registry) (settings : Settings) {start stop : Word} (hlt : start < stop) :
    ((record.resolveRange registry settings .strict start stop).value.isSome →
        stop ≤ record.length ∨ stop - 1 = record.length ∧ record.openEnded = true) ∧
      (Plain registry record →
        stop ≤ record.length ∨ stop - 1 = record.length ∧ record.openEnded = true →
        (record.resolveRange registry settings .strict start stop).value.isSome) := by
  constructor
  · intro hsome
    obtain ⟨⟨first, second⟩, hrange⟩ := Option.isSome_iff_exists.1 hsome
    rcases (resolveRange_eq_some_iff.1 hrange).2 with ⟨heq, -⟩ | ⟨-, last, hlast, -⟩
    · exact absurd heq (UInt64.ne_of_lt hlt)
    rw [value_resolve] at hlast
    obtain ⟨landing, hlanding, -⟩ := Option.bind_eq_some_iff.1 hlast
    refine (lt_or_openEnded_of_landing h htotals hlanding).imp_left fun hinside => ?_
    have hle := add_one_le hinside
    rwa [UInt64.sub_add_cancel] at hle
  · rintro hplain (hstop | ⟨hend, hopen⟩)
    · obtain ⟨head, tail, first, last, -, -, -, -, hresolve⟩ := hplain.exists_resolveRange hlt hstop
      rw [(hresolve settings .strict).2]
      rfl
    · have hle := le_sub_one hlt
      rw [hend] at hle
      obtain ⟨first, hfirst⟩ := hplain.exists_resolve_le hopen settings hle
      obtain ⟨last, hlast⟩ := hplain.exists_resolve_le hopen settings (UInt64.le_of_eq hend)
      rw [resolveRange_eq_some_iff.2 ⟨hfirst, .inr ⟨hlt, last, hlast, rfl⟩⟩]
      rfl

end Record

theorem Record.resolveRange_strict_stop_stem :
    Plain Patchwork.files Patchwork.stem ∧ Patchwork.stem.Arises ∧ Patchwork.stem.TotalsFit ∧
      Patchwork.stem.length = 2 ∧ Patchwork.stem.openEnded = true ∧
      (Patchwork.stem.resolveRange Patchwork.files {} .strict 1 3).value.isSome ∧
      Patchwork.patch.length = 3 ∧ Patchwork.patch.openEnded = false ∧
      ¬ (Patchwork.patch.resolveRange Patchwork.files {} .strict 1 4).value.isSome := by
  have hplain := Patchwork.plain_stem
  have hstem := (Record.resolveRange_strict_stop hplain.arises hplain.totalsFit Patchwork.files {}
    (by decide : (1 : Word) < 3)).2
  have hpatch := (Record.resolveRange_strict_stop Patchwork.plain_patch.arises
    Patchwork.plain_patch.totalsFit Patchwork.files {} (by decide : (1 : Word) < 4)).1
  exact ⟨hplain, hplain.arises, hplain.totalsFit, by decide, by decide,
    hstem hplain (.inr (by decide)), by decide, by decide,
    fun hsome => absurd (hpatch hsome) (by decide)⟩

namespace Framed

def alone : Record := .mk ⟨4⟩ (Range.ofLength 7) (.concat [⟨whole, 0, 7⟩])

end Framed

theorem Record.resolveRange_strict_past_end :
    Framed.whole.length = 7 ∧
      (Framed.whole.resolveRange Framed.files {} .strict 4 8).value =
        some (⟨⟨0⟩, 4, 1, 0⟩, ⟨⟨0⟩, 8, 1, 4⟩) ∧
      Framed.files.positionAt? ⟨0⟩ 8 = none ∧
      Record.concat ⟨4⟩ [(Framed.whole, 7)] = .ok Framed.alone ∧
      (Framed.alone.resolveRange Framed.files {} .strict 4 8).value = none :=
  ⟨by decide, by decide +kernel, by decide +kernel, rfl, by decide +kernel⟩

end TextOrigin

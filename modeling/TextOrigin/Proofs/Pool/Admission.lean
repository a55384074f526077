import TextOrigin.Proofs.Pool.Rules

/-!
The rules of pools and the builders of records ask for the same. An entry is judged from the lengths
of the entries that it refers to, a builder from the lengths of records, and each bound is written
twice: a slice by where it ends or by what is left after its offset, pieces by offsets that are
computed or only compared. Both come to the bounds of `Link.Fits`, in words that wrap, so an entry
passes exactly if the builder of its kind succeeds on its payload and makes that payload again.
-/

namespace TextOrigin

namespace Record

/-- What the builder of a link's kind makes of the payload of the link and a length. The offsets of
pieces are not handed on: the builder lays the pieces out itself. -/
def build (node : NodeId) (length : Word) : Link Record → Except BuildError Record
  | .leaf file => .ok (leaf node file (Range.ofLength length))
  | .substring parent offset => substring node parent offset (offset + length)
  | .concat pieces => concat node (pieces.map fun piece => (piece.source, piece.length))
  | .transformed parent mapping => transformed node parent mapping length

theorem build_eq_ok_iff {node : NodeId} {length : Word} {link : Link Record} :
    (∃ record, build node length link = .ok record ∧ record.length = length ∧
      record.link = link) ↔ link.Fits Record.length length := by
  cases link with
  | leaf file =>
    exact iff_of_true ⟨_, rfl, Range.length_ofLength length, rfl⟩ trivial
  | substring parent offset =>
    simp only [build, substring_eq_ok_iff, Link.Fits, ← slice_bounds_iff]
    constructor
    · rintro ⟨record, ⟨hstart, hstop, -⟩, -⟩
      exact ⟨hstart, hstop⟩
    · rintro ⟨hstart, hstop⟩
      refine ⟨_, ⟨hstart, hstop, rfl⟩, ?_, rfl⟩
      rw [length_mk_ofLength, UInt64.add_comm, UInt64.add_sub_cancel]
  | concat pieces =>
    simp only [build, concat_eq_ok_iff, Link.Fits]
    constructor
    · rintro ⟨record, ⟨laid, total, -, hback, hfit, rfl⟩, hlength, hlink⟩
      obtain rfl : laid = pieces := Link.concat.inj hlink
      rw [length_mk_ofLength] at hlength
      exact ⟨hlength ▸ hback, hfit⟩
    · rintro ⟨hback, hfit⟩
      exact ⟨_, ⟨pieces, length, rfl, hback, hfit, rfl⟩, length_mk_ofLength _ _ _, rfl⟩
  | transformed parent mapping =>
    simp only [build, transformed_eq_ok_iff, Link.Fits]
    constructor
    · rintro ⟨record, ⟨hfault, -⟩, -⟩
      exact hfault
    · intro hfault
      exact ⟨_, ⟨hfault, rfl⟩, length_mk_ofLength _ _ _, rfl⟩

end Record

namespace Pool

theorem entryFault?_of_link? {pool : Pool} {files? : Option Registry} {id : Nat} {entry : Entry}
    {link : Link EntryId} (hvalid : entry.range.Valid) (hstray : entry.strayField? = none)
    (hlink : entry.link? = some link) :
    pool.entryFault? files? id entry = pool.linkFault? files? id entry.length link := by
  rw [entryFault?, if_neg (Decidable.not_not.2 hvalid), hstray, hlink]

/-- Take an entry that derives its text, with a range that is not inverted, no stray field and
references to earlier entries, and take its link with some record of the right length for each
reference. No rule is broken exactly if the builder of the kind succeeds and makes a record of this
link and of the entry's length. -/
theorem entryFault?_eq_none_iff_build {pool : Pool} {files? : Option Registry} {id : Nat}
    {entry : Entry} {link : Link EntryId} (hentry : pool[id]? = some entry)
    (hvalid : entry.range.Valid) (hstray : entry.strayField? = none)
    (hlink : entry.link? = some link) (hkind : link.kind ≠ .leaf)
    (hrefs : ∀ target ∈ link.refs, target.toNat < id) (node : NodeId) {given : Link Record}
    (hgiven : given.map Record.length = link.map pool.lengthAt) :
    pool.entryFault? files? id entry = none ↔
      ∃ record, Record.build node entry.length given = .ok record ∧
        record.length = entry.length ∧ record.link = given := by
  obtain ⟨hid, -⟩ := Array.getElem?_eq_some_iff.1 hentry
  have hfiles : FilesKnown files? link := by
    rintro file rfl
    exact absurd rfl hkind
  have hbefore : ∀ target ∈ link.refs, target.toNat < id ∧ target.toNat < pool.size :=
    fun target htarget => ⟨hrefs target htarget, Nat.lt_trans (hrefs target htarget) hid⟩
  calc pool.entryFault? files? id entry = none
      ↔ link.Fits pool.lengthAt entry.length := by
        rw [entryFault?_of_link? hvalid hstray hlink, linkFault?_eq_none_iff]
        exact ⟨fun h => h.2.2, fun h => ⟨hfiles, hbefore, h⟩⟩
    _ ↔ given.Fits Record.length entry.length := Link.fits_of_lengths_eq hgiven.symm entry.length
    _ ↔ _ := Record.build_eq_ok_iff.symm

/-! A line that is taken twice in full and once not at all. -/

namespace Refrain

def pool : Pool := #[
  Entry.ofLink ⟨⟨3, 0, 3⟩, ⟨9, 1, 2⟩⟩ (.leaf ⟨0⟩),
  Entry.ofLink (Range.ofLength 12) (.concat [⟨0, 0, 6⟩, ⟨0, 6, 0⟩, ⟨0, 6, 6⟩])]

def line : Record := Record.leaf ⟨0⟩ ⟨5⟩ (Range.ofLength 6)

def pieces : List (Piece Record) := [⟨line, 0, 6⟩, ⟨line, 6, 0⟩, ⟨line, 6, 6⟩]

end Refrain

theorem entryFault?_eq_none_iff_build_refrain :
    ∃ entry record, Refrain.pool[1]? = some entry ∧ Refrain.pool.entryFault? none 1 entry = none ∧
      Record.concat ⟨1⟩ [(Refrain.line, 6), (Refrain.line, 0), (Refrain.line, 6)] = .ok record ∧
      record.length = 12 ∧ record.link = .concat Refrain.pieces := by
  have hentry : Refrain.pool[1]? = some (Entry.ofLink (Range.ofLength 12)
      (.concat [⟨0, 0, 6⟩, ⟨0, 6, 0⟩, ⟨0, 6, 6⟩])) := rfl
  have hfault : Refrain.pool.entryFault? none 1 (Entry.ofLink (Range.ofLength 12)
      (.concat [⟨0, 0, 6⟩, ⟨0, 6, 0⟩, ⟨0, 6, 6⟩])) = none := by decide
  obtain ⟨record, hbuild, hlength, hlink⟩ :=
    (entryFault?_eq_none_iff_build hentry (by decide) (Entry.strayField?_ofLink _ _)
      (Entry.link?_ofLink _ _) (by decide) (by simp [Link.refs]) ⟨1⟩
      (show (Link.concat Refrain.pieces).map Record.length = _ from rfl)).1 hfault
  exact ⟨_, record, hentry, hfault, hbuild, hlength, hlink⟩

end Pool

end TextOrigin

import TextOrigin.Pool.Check
import TextOrigin.Proofs.Record.Links

/-!
What the rules of pools come to. An entry keeps them exactly if its range is not inverted, it is the
flat form of a link, every reference of this link points to an earlier entry, and the link fits the
lengths of what it refers to and of its own range.
-/

namespace TextOrigin

theorem Kind.eq_code_of_ofCode? {code : UInt8} {kind : Kind} (h : ofCode? code = some kind) :
    code = kind.code := by
  unfold ofCode? at h
  split at h <;> cases h <;> rfl

theorem FileId.isKnown_eq_false_iff {file : FileId} :
    file.isKnown = false ↔ file = FileId.unknown := by
  simp [FileId.isKnown]

namespace Entry

theorem range_ofLink (range : Range) (link : Link EntryId) : (ofLink range link).range = range := by
  cases link <;> rfl

theorem strayField?_eq_none_iff {entry : Entry} :
    entry.strayField? = none ↔
      (entry.kind ≠ Kind.leaf.code → entry.file = FileId.unknown) ∧
      (entry.kind ≠ Kind.substring.code → entry.kind ≠ Kind.transformed.code → entry.parent = 0) ∧
      (entry.kind ≠ Kind.substring.code → entry.offset = 0) ∧
      (entry.kind ≠ Kind.concat.code → entry.pieces = []) ∧
      (entry.kind ≠ Kind.transformed.code → entry.mapping = []) := by
  have hstep {p : Bool} {field : EntryField} {rest : Option EntryField} :
      (if p then some field else rest) = none ↔ p = false ∧ rest = none := by
    cases p <;> simp
  simp only [strayField?, hstep]
  simp [FileId.isKnown_eq_false_iff]

theorem strayField?_ofLink (range : Range) (link : Link EntryId) :
    (ofLink range link).strayField? = none := by
  rw [strayField?_eq_none_iff]
  cases link <;> simp [ofLink, Link.kind, Kind.code]

theorem eq_ofLink {entry : Entry} {link : Link EntryId} (hstray : entry.strayField? = none)
    (hlink : entry.link? = some link) : entry = ofLink entry.range link := by
  obtain ⟨range, code, file, parent, offset, pieces, mapping⟩ := entry
  obtain ⟨kind, hkind, rfl⟩ := Option.map_eq_some_iff.1 hlink
  obtain rfl : code = kind.code := Kind.eq_code_of_ofCode? hkind
  obtain ⟨hfile, hparent, hoffset, hpieces, hmapping⟩ := strayField?_eq_none_iff.1 hstray
  cases kind <;> simp_all [Kind.code, ofLink, Link.kind]

theorem eq_ofLink_iff {entry : Entry} {link : Link EntryId} :
    entry = ofLink entry.range link ↔ entry.strayField? = none ∧ entry.link? = some link := by
  refine ⟨fun h => ?_, fun ⟨hstray, hlink⟩ => eq_ofLink hstray hlink⟩
  rw [h]
  exact ⟨strayField?_ofLink _ _, link?_ofLink _ _⟩

end Entry

namespace Pool

def lengthAt (pool : Pool) (id : EntryId) : Word :=
  match pool[id.toNat]? with
  | none => 0
  | some entry => entry.length

theorem refLength_eq_ok_iff {pool : Pool} {id : Nat} {target : EntryId} {covered : Word} :
    pool.refLength id target = .ok covered ↔
      target.toNat < id ∧ target.toNat < pool.size ∧ pool.lengthAt target = covered := by
  unfold refLength lengthAt
  cases hentry : pool[target.toNat]? with
  | none =>
    have hsize := Array.getElem?_eq_none_iff.1 hentry
    simp only [reduceCtorEq, false_iff]
    omega
  | some entry =>
    obtain ⟨hsize, -⟩ := Array.getElem?_eq_some_iff.1 hentry
    by_cases hlt : target.toNat < id <;> simp [hlt, hsize]

theorem refLength_of_lt {pool : Pool} {id : Nat} {target : EntryId} (hlt : target.toNat < id)
    (hsize : target.toNat < pool.size) : pool.refLength id target = .ok (pool.lengthAt target) :=
  refLength_eq_ok_iff.2 ⟨hlt, hsize, rfl⟩

theorem exists_refLength_eq_error {pool : Pool} {id : Nat} {target : EntryId}
    (h : ¬ (target.toNat < id ∧ target.toNat < pool.size)) :
    ∃ fault, pool.refLength id target = .error fault := by
  cases hlength : pool.refLength id target with
  | error fault => exact ⟨fault, rfl⟩
  | ok covered =>
    obtain ⟨hlt, hsize, -⟩ := refLength_eq_ok_iff.1 hlength
    exact absurd ⟨hlt, hsize⟩ h

theorem pieceFault?_eq_none_iff {pool : Pool} {id index : Nat} {length expected : Word}
    {pieces : List (Piece EntryId)} :
    pool.pieceFault? id length index expected pieces = none ↔
      (∀ piece ∈ pieces, piece.source.toNat < id ∧ piece.source.toNat < pool.size) ∧
        Piece.BackToBack expected pieces length ∧
        ∀ piece ∈ pieces, piece.length ≤ pool.lengthAt piece.source := by
  induction pieces generalizing index expected with
  | nil => simp [pieceFault?, Piece.BackToBack]
  | cons piece rest ih =>
    rw [pieceFault?, Piece.BackToBack, List.forall_mem_cons, List.forall_mem_cons]
    by_cases hbefore : piece.source.toNat < id ∧ piece.source.toNat < pool.size
    · rw [refLength_of_lt hbefore.1 hbefore.2]
      dsimp only
      split
      · next hoffset => simp [hoffset]
      · next hoffset =>
        rw [Decidable.not_not] at hoffset
        split
        · next hlong => simp [UInt64.not_le.2 hlong]
        · next hfit =>
          rw [ih]
          simp [hbefore, hoffset, UInt64.not_lt.1 hfit]
    · obtain ⟨fault, hfault⟩ := exists_refLength_eq_error hbefore
      rw [hfault]
      simp [hbefore]

/-- With a registry, leaves name files that it knows. -/
def FilesKnown (files? : Option Registry) {ρ : Type} (link : Link ρ) : Prop :=
  ∀ file, link = .leaf file → ∀ registry, files? = some registry →
    (registry.file? file).isSome = true

theorem linkFault?_eq_none_iff {pool : Pool} {files? : Option Registry} {id : Nat} {length : Word}
    {link : Link EntryId} :
    pool.linkFault? files? id length link = none ↔
      FilesKnown files? link ∧
        (∀ target ∈ link.refs, target.toNat < id ∧ target.toNat < pool.size) ∧
        link.Fits pool.lengthAt length := by
  cases link with
  | leaf file =>
    cases files? with
    | none => simp [linkFault?, FilesKnown, Link.refs, Link.Fits]
    | some registry =>
      simp [linkFault?, FilesKnown, Link.refs, Link.Fits, Option.isSome_iff_ne_none]
  | substring parent offset =>
    have hfiles : FilesKnown files? (.substring parent offset) := by simp [FilesKnown]
    by_cases hbefore : parent.toNat < id ∧ parent.toNat < pool.size
    · rw [linkFault?, refLength_of_lt hbefore.1 hbefore.2]
      simp [hfiles, hbefore, Link.refs, Link.Fits]
    · obtain ⟨fault, hfault⟩ := exists_refLength_eq_error hbefore
      rw [linkFault?, hfault]
      simp [hbefore, Link.refs]
  | concat pieces =>
    have hfiles : FilesKnown files? (.concat pieces) := by simp [FilesKnown]
    rw [linkFault?, pieceFault?_eq_none_iff]
    simp [hfiles, Link.refs, Link.Fits]
  | transformed parent mapping =>
    have hfiles : FilesKnown files? (.transformed parent mapping) := by simp [FilesKnown]
    by_cases hbefore : parent.toNat < id ∧ parent.toNat < pool.size
    · rw [linkFault?, refLength_of_lt hbefore.1 hbefore.2]
      simp [hfiles, hbefore, Link.refs, Link.Fits]
    · obtain ⟨fault, hfault⟩ := exists_refLength_eq_error hbefore
      rw [linkFault?, hfault]
      simp [hbefore, Link.refs]

theorem entryFault?_eq_none_iff {pool : Pool} {files? : Option Registry} {id : Nat}
    {entry : Entry} :
    pool.entryFault? files? id entry = none ↔
      entry.range.Valid ∧ ∃ link, entry = Entry.ofLink entry.range link ∧
        FilesKnown files? link ∧
        (∀ target ∈ link.refs, target.toNat < id ∧ target.toNat < pool.size) ∧
        link.Fits pool.lengthAt entry.length := by
  unfold entryFault?
  constructor
  · intro h
    split at h
    · contradiction
    · next hvalid =>
      split at h
      · contradiction
      · next hstray =>
        split at h
        · contradiction
        · next link hlink =>
          exact ⟨Decidable.not_not.1 hvalid, link, Entry.eq_ofLink hstray hlink,
            linkFault?_eq_none_iff.1 h⟩
  · rintro ⟨hvalid, link, hentry, hrules⟩
    obtain ⟨hstray, hlink⟩ := Entry.eq_ofLink_iff.1 hentry
    rw [if_neg (Decidable.not_not.2 hvalid), hstray, hlink]
    exact linkFault?_eq_none_iff.2 hrules

theorem fault?_eq_none_iff {pool : Pool} {files? : Option Registry} :
    pool.fault? files? = none ↔
      ∀ id entry, pool[id]? = some entry → pool.entryFault? files? id entry = none := by
  rw [fault?, List.findSome?_eq_none_iff]
  constructor
  · intro h id entry hentry
    have hmem : (entry, id) ∈ pool.toList.zipIdx :=
      List.mk_mem_zipIdx_iff_getElem?.2 (by rwa [Array.getElem?_toList])
    exact Option.map_eq_none_iff.1 (h _ hmem)
  · rintro h ⟨entry, id⟩ hmem
    have hentry := List.mk_mem_zipIdx_iff_getElem?.1 hmem
    rw [Array.getElem?_toList] at hentry
    exact Option.map_eq_none_iff.2 (h id entry hentry)

theorem exists_link?_of_fault?_eq_none {pool : Pool} {files? : Option Registry}
    (hfault : pool.fault? files? = none) {id : Nat} {entry : Entry}
    (hentry : pool[id]? = some entry) :
    ∃ link, entry.link? = some link ∧ (∀ target ∈ link.refs, target.toNat < id) ∧
      link.Fits pool.lengthAt entry.length := by
  obtain ⟨-, link, hflat, -, hrefs, hfits⟩ :=
    entryFault?_eq_none_iff.1 (fault?_eq_none_iff.1 hfault id entry hentry)
  exact ⟨link, (Entry.eq_ofLink_iff.1 hflat).2, fun target htarget => (hrefs target htarget).1,
    hfits⟩

end Pool

end TextOrigin

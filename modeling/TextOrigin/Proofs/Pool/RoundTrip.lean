import Mathlib.Data.List.Forall2
import TextOrigin.Proofs.Pool.Rebuilding
import TextOrigin.Proofs.Pool.Writing
import TextOrigin.Proofs.Record.Relocation

/-!
Round trips of pools. A pool that the rules accept comes back from its records unchanged. A record
graph comes back from its pool as a copy that resolves every offset alike and shares the same nodes.
-/

namespace TextOrigin.Pool

section Accepted

variable {pool : Pool} {supply : NodeSupply} {records : Array Record}

theorem Rebuilt.idIn_recordAt (h : Rebuilt pool supply records) {id : EntryId}
    (hid : id.toNat < records.size) : Record.idIn records.toList (recordAt records id) = id := by
  have hget := getElem?_recordAt hid
  rw [← Array.getElem?_toList] at hget
  rw [Record.idIn, h.ordered.position_eq hget, UInt32.ofNat_toNat]

theorem Rebuilt.ofRecord_eq (h : Rebuilt pool supply records) {i : Nat} {entry : Entry}
    {link : Link EntryId} (hflat : entry = Entry.ofLink entry.range link)
    (hentry : pool[i]? = some entry) (hi : i < records.size) :
    ∃ record, records[i]? = some record ∧ Entry.ofRecord records.toList record = entry := by
  obtain ⟨link', hlink', hrefs, hrecord⟩ := h.record i entry hi hentry
  rw [hflat, Entry.link?_ofLink] at hlink'
  obtain rfl := Option.some.inj hlink'
  refine ⟨_, hrecord, ?_⟩
  have hids : ∀ target ∈ link.refs,
      (Record.idIn records.toList ∘ recordAt records) target = target := by
    intro target htarget
    have hlt := hrefs target htarget
    exact h.idIn_recordAt (by omega)
  rw [Entry.ofRecord, Record.link, Record.range, Link.map_map, Link.map_id hids, ← hflat]

theorem Rebuilt.map_ofRecord {files? : Option Registry} (h : Rebuilt pool supply records)
    (hfault : pool.fault? files? = none) (hcount : records.size = pool.size) :
    (records.toList.map (Entry.ofRecord records.toList)).toArray = pool := by
  refine Array.ext_getElem? fun i => ?_
  rw [List.getElem?_toArray, List.getElem?_map, Array.getElem?_toList]
  cases hentry : pool[i]? with
  | none =>
    have hle := Array.getElem?_eq_none_iff.1 hentry
    rw [Array.getElem?_eq_none (by omega)]
    rfl
  | some entry =>
    obtain ⟨hlt, -⟩ := Array.getElem?_eq_some_iff.1 hentry
    obtain ⟨-, link, hflat, -⟩ :=
      entryFault?_eq_none_iff.1 (fault?_eq_none_iff.1 hfault i entry hentry)
    obtain ⟨record, hrecord, hback⟩ := h.ofRecord_eq hflat hentry (by omega)
    rw [hrecord, Option.map_some, hback]

theorem Rebuilt.recordOf_extract (h : Rebuilt pool supply records)
    (hcount : records.size = pool.size) {i : Nat} {entry : Entry}
    (hentry : pool[i]? = some entry) :
    ∃ link record, entry.link? = some link ∧ (∀ target ∈ link.refs, target.toNat < i) ∧
      recordOf (records.extract 0 i) ⟨supply.next + i⟩ entry = .ok record ∧
      records[i]? = some record := by
  obtain ⟨hlt, -⟩ := Array.getElem?_eq_some_iff.1 hentry
  obtain ⟨link, hlink, hrefs, hrecord⟩ := h.record i entry (by omega) hentry
  have hsize : (records.extract 0 i).size = i := by
    rw [Array.size_extract]
    omega
  have hearlier : ∀ target ∈ link.refs, target.toNat < (records.extract 0 i).size := by
    rwa [hsize]
  refine ⟨link, _, hlink, hrefs, ?_, hrecord⟩
  rw [recordOf_eq_ok hlink hearlier]
  refine congrArg (Except.ok ∘ Record.mk _ _) (Link.map_congr fun target htarget => ?_)
  have hget : (records.extract 0 i)[target.toNat]? = records[target.toNat]? := by
    have hbefore := hrefs target htarget
    rw [Array.getElem?_extract, if_pos (by omega), Nat.zero_add]
  rw [recordAt, recordAt, Array.getD_eq_getD_getElem?, Array.getD_eq_getD_getElem?, hget]

end Accepted

/-- A pool that is not refused by its rules gives one record for each entry, built from records that
are there already, and the records written in order give the pool back. -/
theorem encode_decoded {pool : Pool} (files? : Option Registry) (supply : NodeSupply)
    (hsize : pool.size < UInt32.size) :
    (∃ fault, pool.fault? files? = some fault ∧ pool.decode files? supply = .error fault) ∨
      ∃ records supply', pool.decode files? supply = .ok (records, supply') ∧
        records.size = pool.size ∧
        (∀ i entry, pool[i]? = some entry → ∃ link record, entry.link? = some link ∧
          (∀ target ∈ link.refs, target.toNat < i) ∧
          recordOf (records.extract 0 i) ⟨supply.next + i⟩ entry = .ok record ∧
          records[i]? = some record) ∧
        (encode records.toList).1 = pool ∧
        (encode records.toList).2.map UInt32.toNat = List.range pool.size := by
  cases hfault : pool.fault? files? with
  | some fault => exact .inl ⟨fault, rfl, by rw [decode, hfault]⟩
  | none =>
    obtain ⟨records, hdecode, hcount, hrebuilt⟩ := decode_of_fault?_eq_none supply hfault
    have hlength : records.toList.length = pool.size := by
      rw [Array.length_toList, hcount]
    have hids : (records.toList.map (Record.idIn records.toList)).map UInt32.toNat =
        List.range pool.size := by
      rw [List.map_map, ← hlength, ← hrebuilt.ordered.map_position]
      exact List.map_congr_left fun record hmem => Record.toNat_idIn (by omega) hmem
    refine .inr ⟨records, _, hdecode, hcount, ?_, ?_, ?_⟩
    · exact fun i entry hentry => hrebuilt.recordOf_extract hcount hentry
    · rw [encode_ordered hrebuilt.ordered, hrebuilt.map_ofRecord hfault hcount]
    · rw [encode_ordered hrebuilt.ordered, hids]

def sliced : Pool := #[
  Entry.ofLink ⟨⟨3, 0, 3⟩, ⟨9, 1, 2⟩⟩ (.leaf ⟨0⟩),
  Entry.ofLink (Range.ofLength 2) (.substring 0 4)]

theorem encode_decoded_sliced :
    sliced.size < UInt32.size ∧
      ∃ records supply', sliced.decode none ⟨7⟩ = .ok (records, supply') ∧
        records.size = 2 ∧ (encode records.toList).1 = sliced := by
  have hsize : sliced.size < UInt32.size := by decide
  have hfault : sliced.fault? none = none := by decide
  refine ⟨hsize, ?_⟩
  rcases encode_decoded none ⟨7⟩ hsize with ⟨fault, hsome, -⟩ | ⟨records, supply', h⟩
  · rw [hfault] at hsome
    contradiction
  · exact ⟨records, supply', h.1, h.2.1, h.2.2.2.1⟩

section Written

variable {sources : List Record}

theorem lengthAt_idIn (hordered : Record.Ordered sources) (hlt : sources.length < UInt32.size)
    {record : Record} (hmem : record ∈ sources) :
    lengthAt (sources.map (Entry.ofRecord sources)).toArray (Record.idIn sources record) =
      record.length := by
  have hget : (sources.map (Entry.ofRecord sources)).toArray[
      (Record.idIn sources record).toNat]? = some (Entry.ofRecord sources record) := by
    rw [Record.toNat_idIn hlt hmem, List.getElem?_toArray, List.getElem?_map,
      hordered.getElem?_position hmem, Option.map_some]
  rw [lengthAt, hget]
  exact congrArg Range.length (Entry.range_ofLink _ _)

theorem fault?_ofRecord (hordered : Record.Ordered sources) (hlt : sources.length < UInt32.size)
    {files? : Option Registry} (hvalid : ∀ record ∈ sources, record.range.Valid)
    (hfits : ∀ record ∈ sources, record.link.Fits Record.length record.length)
    (hfiles : ∀ record ∈ sources, FilesKnown files? record.link) :
    fault? (sources.map (Entry.ofRecord sources)).toArray files? = none := by
  refine fault?_eq_none_iff.2 fun i entry hentry => entryFault?_eq_none_iff.2 ?_
  rw [List.getElem?_toArray, List.getElem?_map] at hentry
  obtain ⟨record, hi, rfl⟩ := Option.map_eq_some_iff.1 hentry
  have hmem := List.mem_of_getElem? hi
  have hrange : (Entry.ofRecord sources record).range = record.range := Entry.range_ofLink _ _
  rw [Entry.length, hrange]
  refine ⟨hvalid record hmem, _, rfl, ?_, ?_, ?_⟩
  · intro file hfile
    refine hfiles record hmem file ?_
    cases hlink : record.link <;> simp_all [Link.map]
  · intro target htarget
    rw [Link.refs_map] at htarget
    obtain ⟨child, hchild, rfl⟩ := List.mem_map.1 htarget
    have hbefore := hordered.position_lt_of_mem_refs hi hchild
    obtain ⟨hlength, -⟩ := List.getElem?_eq_some_iff.1 hi
    rw [Record.toNat_idIn hlt (hordered.mem_of_mem_refs hmem hchild), List.size_toArray,
      List.length_map]
    omega
  · refine (Link.fits_map _).2 ((Link.fits_congr fun child hchild => ?_).2 (hfits record hmem))
    exact lengthAt_idIn hordered hlt (hordered.mem_of_mem_refs hmem hchild)

theorem getElem?_idIn {records : Array Record} (hlt : sources.length < UInt32.size)
    (hcount : records.size = sources.length) {record : Record} (hmem : record ∈ sources) :
    records[(Record.idIn sources record).toNat]? =
      some (recordAt records (Record.idIn sources record)) := by
  have hposition := Record.position_lt hmem
  have hid := Record.toNat_idIn hlt hmem
  exact getElem?_recordAt (by omega)

theorem Rebuilt.relocates {supply : NodeSupply} {records : Array Record}
    (hordered : Record.Ordered sources) (hlt : sources.length < UInt32.size)
    (h : Rebuilt (sources.map (Entry.ofRecord sources)).toArray supply records)
    (hcount : records.size = sources.length) :
    Record.Relocates (recordAt records ∘ Record.idIn sources) sources supply.next := by
  intro record hmem
  have hget := hordered.getElem?_position hmem
  have hposition := Record.position_lt hmem
  obtain ⟨link, hlink, -, hrecord⟩ := h.record (record.position sources)
    (Entry.ofRecord sources record) (by omega) (by simp [hget])
  rw [Entry.ofRecord, Entry.link?_ofLink] at hlink
  obtain rfl := Option.some.inj hlink
  have hat := getElem?_idIn hlt hcount hmem
  rw [Record.toNat_idIn hlt hmem, hrecord, Link.map_map, Entry.ofRecord, Entry.range_ofLink] at hat
  exact (Option.some.inj hat).symm

theorem toList_eq_map_recordAt {records : Array Record} (hordered : Record.Ordered sources)
    (hlt : sources.length < UInt32.size) (hcount : records.size = sources.length) :
    records.toList = sources.map (recordAt records ∘ Record.idIn sources) := by
  refine List.ext_getElem? fun i => ?_
  rw [Array.getElem?_toList, List.getElem?_map]
  cases hi : sources[i]? with
  | none =>
    have hle := List.getElem?_eq_none_iff.1 hi
    rw [Array.getElem?_eq_none (by omega)]
    rfl
  | some record =>
    have hmem := List.mem_of_getElem? hi
    have hat := getElem?_idIn hlt hcount hmem
    rw [Record.toNat_idIn hlt hmem, hordered.position_eq hi] at hat
    exact hat

end Written

theorem encode_made {made roots : List Record} (hmade : Record.Made made) (hroots : roots ⊆ made)
    {files? : Option Registry}
    (hvalid : ∀ root ∈ roots, ∀ record ∈ root.subrecords, ∀ file,
      record.link = .leaf file → record.range.Valid)
    (hfiles : ∀ root ∈ roots, ∀ record ∈ root.subrecords, FilesKnown files? record.link)
    (hcount : (Record.reachableNodes roots).length < UInt32.size) :
    ∃ sources, Record.Ordered sources ∧
      (∀ record, record ∈ sources ↔ ∃ root ∈ roots, record ∈ root.subrecords) ∧
      sources.length = (Record.reachableNodes roots).length ∧
      encode roots =
        ((sources.map (Entry.ofRecord sources)).toArray, roots.map (Record.idIn sources)) ∧
      fault? (sources.map (Entry.ofRecord sources)).toArray files? = none := by
  have hreversed : roots ⊆ made.reverse := fun root hroot => List.mem_reverse.2 (hroots hroot)
  obtain ⟨sources, hordered, hmem, hencode⟩ := encode_eq hmade.ordered hreversed
  have hlength := hordered.length_eq hmem
  have hbuilt : ∀ record ∈ sources, ∃ earlier node, Record.BuiltFrom earlier node record := by
    intro record hrecord
    obtain ⟨root, hroot, hsub⟩ := (hmem record).1 hrecord
    have hmade' := hmade.ordered.subrecords_subset (hreversed hroot) hsub
    exact hmade.exists_builtFrom (List.mem_reverse.1 hmade')
  refine ⟨sources, hordered, hmem, hlength, hencode, ?_⟩
  refine fault?_ofRecord hordered (by omega) ?_ ?_ ?_
  · intro record hrecord
    obtain ⟨root, hroot, hsub⟩ := (hmem record).1 hrecord
    obtain ⟨earlier, node, hfrom⟩ := hbuilt record hrecord
    exact hfrom.valid_range fun file => hvalid root hroot record hsub file
  · intro record hrecord
    obtain ⟨earlier, node, hfrom⟩ := hbuilt record hrecord
    exact hfrom.fits
  · intro record hrecord
    obtain ⟨root, hroot, hsub⟩ := (hmem record).1 hrecord
    exact hfiles root hroot record hsub

/-- A record graph whose leaves have valid ranges in known files comes back from its pool: there is
one record for each node, the record at the id of a root equals the root and resolves alike, and
references share a node exactly if they did. -/
theorem decode_encode {made roots : List Record} (hmade : Record.Made made)
    (hroots : roots ⊆ made) (files? : Option Registry) (supply : NodeSupply)
    (hvalid : ∀ root ∈ roots, ∀ record ∈ root.subrecords, ∀ file,
      record.link = .leaf file → record.range.Valid)
    (hfiles : ∀ root ∈ roots, ∀ record ∈ root.subrecords, FilesKnown files? record.link)
    (hcount : (Record.reachableNodes roots).length < UInt32.size) :
    (encode roots).1.fault? files? = none ∧
      ∃ records supply' copies, (encode roots).1.decode files? supply = .ok (records, supply') ∧
        records.size = (Record.reachableNodes roots).length ∧
        (records.toList.map Record.node).Perm (Record.reachableNodes copies) ∧
        (encode roots).2.map (fun id => records[id.toNat]?) = copies.map some ∧
        List.Forall₂ (fun copy root : Record => (copy == root) = true ∧
          ∀ registry settings mode offset, copy.resolve registry settings mode offset =
            root.resolve registry settings mode offset) copies roots ∧
        Record.SameSharing copies roots := by
  obtain ⟨sources, hordered, hmem, hlength, hencode, hfault⟩ :=
    encode_made hmade hroots hvalid hfiles hcount
  have hlt : sources.length < UInt32.size := by omega
  have hsources : roots ⊆ sources := fun root hroot =>
    (hmem root).2 ⟨root, hroot, Record.mem_subrecords.2 (.inl rfl)⟩
  obtain ⟨records, hdecode, hcount', hrebuilt⟩ := decode_of_fault?_eq_none supply hfault
  have hsize : records.size = sources.length := by
    rw [hcount', List.size_toArray, List.length_map]
  have hreloc := hrebuilt.relocates hordered hlt hsize
  have hlist := toList_eq_map_recordAt hordered hlt hsize
  rw [hencode]
  refine ⟨hfault, records, _, roots.map (recordAt records ∘ Record.idIn sources), hdecode,
    hsize.trans hlength, ?_, ?_, ?_, hreloc.sameSharing hordered hsources⟩
  · refine hrebuilt.ordered.perm_reachableNodes fun record => ?_
    rw [hlist]
    exact hreloc.mem_map_iff hordered hmem record
  · rw [List.map_map, List.map_map]
    exact List.map_congr_left fun root hroot => getElem?_idIn hlt hsize (hsources hroot)
  · refine List.forall₂_map_left_iff.2 (List.forall₂_same.2 fun root hroot => ?_)
    have hcopy := hreloc.copy hordered (hsources hroot)
    exact ⟨hcopy.alike, hcopy.resolve⟩

/-! A line that is used twice in a concatenation, and a slice of the latter. -/

namespace Doubled

def files : Registry := (Registry.empty.add (ascii "a") .nothing).value.2

def line : Record := Record.leaf ⟨0⟩ ⟨0⟩ ⟨⟨2, 0, 2⟩, ⟨5, 0, 5⟩⟩

def doubled : Record := .mk ⟨1⟩ (Range.ofLength 4) (.concat [⟨line, 0, 3⟩, ⟨line, 3, 1⟩])

def cut : Record := .mk ⟨2⟩ (Range.ofLength 2) (.substring doubled 1)

theorem made : Record.Made [cut, doubled, line] := by
  have hdoubled : Record.concat ⟨1⟩ [(line, 3), (line, 1)] = .ok doubled := rfl
  have hcut : Record.substring ⟨2⟩ doubled 1 3 = .ok cut := rfl
  have hline : Record.Made [line] := .cons .nil (by simp) (.leaf _ _)
  have hboth : Record.Made [doubled, line] :=
    hline.cons (by simp [line, Record.leaf, Record.node]) (.concat (by simp) hdoubled)
  exact hboth.cons (by simp [line, doubled, Record.leaf, Record.node])
    (.substring (by simp) hcut)

def roots : List Record := [cut, line, cut]

theorem roots_subset : roots ⊆ [cut, doubled, line] := by
  simp [roots]

theorem leaf_line {root record : Record} (hroot : root ∈ roots) (hrecord : record ∈ root.subrecords)
    {file : FileId} (hfile : record.link = .leaf file) : record = line := by
  have hmem := made.ordered.subrecords_subset (List.mem_reverse.2 (roots_subset hroot)) hrecord
  rw [List.mem_reverse] at hmem
  simp only [List.mem_cons, List.not_mem_nil, or_false] at hmem
  rcases hmem with rfl | rfl | rfl
  · simp [cut, Record.link] at hfile
  · simp [doubled, Record.link] at hfile
  · rfl

end Doubled

theorem decode_encode_doubled :
    ∃ records supply' copies,
      (encode Doubled.roots).1.decode (some Doubled.files) ⟨9⟩ = .ok (records, supply') ∧
      records.size = 3 ∧ Record.SameSharing copies Doubled.roots := by
  have hcount : (Record.reachableNodes Doubled.roots).length = 3 := by decide +kernel
  have hvalid : ∀ root ∈ Doubled.roots, ∀ record ∈ root.subrecords, ∀ file,
      record.link = .leaf file → record.range.Valid := by
    intro root hroot record hrecord file hfile
    rw [Doubled.leaf_line hroot hrecord hfile]
    decide
  have hfiles : ∀ root ∈ Doubled.roots, ∀ record ∈ root.subrecords,
      FilesKnown (some Doubled.files) record.link := by
    intro root hroot record hrecord file hfile registry hregistry
    obtain rfl := Option.some.inj hregistry
    rw [Doubled.leaf_line hroot hrecord hfile] at hfile
    cases hfile
    rfl
  obtain ⟨-, records, supply', copies, hdecode, hsize, -, -, -, hsharing⟩ :=
    decode_encode Doubled.made Doubled.roots_subset (some Doubled.files) ⟨9⟩ hvalid hfiles
      (by rw [hcount]; decide)
  exact ⟨records, supply', copies, hdecode, hsize.trans hcount, hsharing⟩

end TextOrigin.Pool

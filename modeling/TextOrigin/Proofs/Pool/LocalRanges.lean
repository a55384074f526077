import Mathlib.Data.List.Forall2
import TextOrigin.Proofs.Pool.Admission
import TextOrigin.Proofs.Pool.Rebuilding
import TextOrigin.Proofs.Record.Copy

/-!
Where the ranges of derived entries start. The builders give a derived record the range of its
length from zero on. The rules of pools ask of a range that it is not inverted, and of a derived
entry they use the length alone, so they take a range that starts anywhere, and the record that is
rebuilt has it. Moving these ranges back to zero turns what is rebuilt into records of the builders,
and no offset resolves otherwise. Main statement: `decode_localized`.
-/

namespace TextOrigin

theorem forall_mem_toList_iff {α : Type} {items : Array α} {P : α → Prop} :
    (∀ item ∈ items.toList, P item) ↔
      ∀ (i : Nat) (item : α), items[i]? = some item → P item := by
  simp only [Array.mem_toList_iff, Array.mem_iff_getElem?]
  exact ⟨fun h i item hitem => h item ⟨i, hitem⟩, fun h item ⟨i, hitem⟩ => h i item hitem⟩

namespace Record

/-- A derived record covers the range of its length from zero on. -/
def IsLocal (record : Record) : Prop :=
  record.link.kind ≠ .leaf → record.range = Range.ofLength record.length

theorem isLocal_mk_ofLength (node : NodeId) (length : Word) (link : Link Record) :
    (mk node (Range.ofLength length) link).IsLocal := fun _ => by
  rw [length_mk_ofLength, range]

namespace BuiltFrom

theorem isLocal {made : List Record} {node : NodeId} {record : Record}
    (h : BuiltFrom made node record) : record.IsLocal := by
  cases h with
  | leaf file range => exact fun hkind => absurd rfl hkind
  | substring hparent hbuilt =>
    obtain ⟨-, -, rfl⟩ := substring_eq_ok_iff.1 hbuilt
    exact isLocal_mk_ofLength _ _ _
  | concat hsources hbuilt =>
    obtain ⟨pieces, total, -, -, -, rfl⟩ := concat_eq_ok_iff.1 hbuilt
    exact isLocal_mk_ofLength _ _ _
  | transformed hparent hbuilt =>
    obtain ⟨-, rfl⟩ := transformed_eq_ok_iff.1 hbuilt
    exact isLocal_mk_ofLength _ _ _

theorem of_build {made : List Record} {node : NodeId} {length : Word} {link : Link Record}
    {record : Record} (hrefs : ∀ child ∈ link.refs, child ∈ made)
    (hbuilt : build node length link = .ok record) : BuiltFrom made node record := by
  cases link with
  | leaf file =>
    rw [← Except.ok.inj hbuilt]
    exact .leaf file _
  | substring parent offset => exact .substring (hrefs parent (by simp [Link.refs])) hbuilt
  | concat pieces =>
    refine .concat (fun contribution hcontribution => ?_) hbuilt
    obtain ⟨piece, hpiece, rfl⟩ := List.mem_map.1 hcontribution
    exact hrefs piece.source (List.mem_map_of_mem hpiece)
  | transformed parent mapping => exact .transformed (hrefs parent (by simp [Link.refs])) hbuilt

theorem of_isLocal {made : List Record} {record : Record}
    (hrefs : ∀ child ∈ record.link.refs, child ∈ made)
    (hfits : record.link.Fits Record.length record.length) (hlocal : record.IsLocal) :
    BuiltFrom made record.node record := by
  obtain ⟨node, range, link⟩ := record
  by_cases hkind : link.kind = .leaf
  · obtain ⟨file, rfl⟩ : ∃ file, link = .leaf file := by
      cases link <;> simp_all [Link.kind]
    exact .leaf file range
  · obtain ⟨⟨node', range', link'⟩, hbuilt, hlength, hlink⟩ := build_eq_ok_iff.2 hfits
    have hmade := of_build hrefs hbuilt
    obtain rfl : link' = link := hlink
    obtain rfl : node' = node := hmade.node_eq
    have hrange : range' = Range.ofLength (Record.mk node' range' link').length :=
      hmade.isLocal hkind
    obtain rfl : range' = range := by
      rw [hrange, hlength]
      exact (hlocal hkind).symm
    exact hmade

end BuiltFrom

theorem Ordered.made_iff {records : List Record} (h : Ordered records)
    (hfits : ∀ record ∈ records, record.link.Fits Record.length record.length) :
    Made records.reverse ↔ ∀ record ∈ records, record.IsLocal := by
  constructor
  · intro hmade record hrecord
    obtain ⟨_, _, hbuilt⟩ := hmade.exists_builtFrom (List.mem_reverse.2 hrecord)
    exact hbuilt.isLocal
  · intro hlocal
    induction h with
    | nil => exact .nil
    | @snoc records last h hrefs hfresh ih =>
      rw [List.forall_mem_append, List.forall_mem_singleton] at hfits hlocal
      have hbuilt : BuiltFrom records.reverse last.node last :=
        .of_isLocal (fun child hchild => List.mem_reverse.2 (hrefs child hchild)) hfits.2 hlocal.2
      rw [List.reverse_append, List.reverse_singleton, List.singleton_append]
      exact .cons (ih hfits.1 hlocal.1)
        (fun other hother => hfresh other (List.mem_reverse.1 hother)) hbuilt

end Record

namespace Entry

/-- The entry, with its range moved back to zero if it is derived. -/
def localized (entry : Entry) : Entry :=
  { entry with
    range := if entry.kind = Kind.leaf.code then entry.range else Range.ofLength entry.length }

theorem localized_eq_ofLink_iff {entry : Entry} {link : Link EntryId} :
    entry.localized = ofLink entry.localized.range link ↔ entry = ofLink entry.range link := by
  rw [eq_ofLink_iff, eq_ofLink_iff]
  rfl

theorem range_localized {entry : Entry} {link : Link EntryId} (hlink : entry.link? = some link) :
    entry.localized.range =
      if link.kind = .leaf then entry.range else Range.ofLength entry.length := by
  obtain ⟨kind, hkind, rfl⟩ := Option.map_eq_some_iff.1 hlink
  rw [localized, Kind.eq_code_of_ofCode? hkind]
  cases kind <;> rfl

theorem length_localized (entry : Entry) : entry.localized.length = entry.length := by
  simp only [localized, length]
  split
  · rfl
  · exact Range.length_ofLength _

theorem valid_localized {entry : Entry} (h : entry.range.Valid) : entry.localized.range.Valid := by
  simp only [localized]
  split
  · exact h
  · exact Range.valid_ofLength _

theorem localized_eq_iff {entry : Entry} {link : Link EntryId} (hlink : entry.link? = some link) :
    entry.localized = entry ↔ (link.kind ≠ .leaf → entry.range = Range.ofLength entry.length) := by
  have hsame : entry.localized = entry ↔ entry.localized.range = entry.range :=
    ⟨congrArg Entry.range, congrArg fun range => { entry with range }⟩
  rw [hsame, range_localized hlink]
  by_cases hkind : link.kind = .leaf <;> simp [hkind, eq_comm]

theorem localized_localized (entry : Entry) : entry.localized.localized = entry.localized := by
  have hlength := entry.length_localized
  rw [localized, hlength]
  simp only [localized]
  split <;> rfl

end Entry

namespace Pool

def localized (pool : Pool) : Pool := pool.map Entry.localized

theorem size_localized (pool : Pool) : pool.localized.size = pool.size := Array.size_map

theorem getElem?_localized (pool : Pool) (id : Nat) :
    pool.localized[id]? = pool[id]?.map Entry.localized := Array.getElem?_map

theorem lengthAt_localized (pool : Pool) : pool.localized.lengthAt = pool.lengthAt := by
  funext id
  simp only [lengthAt, getElem?_localized]
  cases pool[id.toNat]? with
  | none => rfl
  | some entry => exact entry.length_localized

theorem localized_eq_self_iff {pool : Pool} :
    pool.localized = pool ↔
      ∀ (id : Nat) (entry : Entry), pool[id]? = some entry → entry.localized = entry := by
  constructor
  · intro h id entry hentry
    have hlocalized := pool.getElem?_localized id
    rw [h, hentry] at hlocalized
    exact (Option.some.inj hlocalized).symm
  · intro h
    refine Array.ext_getElem? fun id => ?_
    rw [getElem?_localized]
    cases hentry : pool[id]? with
    | none => rfl
    | some entry => rw [Option.map_some, h id entry hentry]

theorem localized_localized (pool : Pool) : pool.localized.localized = pool.localized := by
  refine localized_eq_self_iff.2 fun id entry hentry => ?_
  rw [getElem?_localized] at hentry
  obtain ⟨original, -, rfl⟩ := Option.map_eq_some_iff.1 hentry
  exact original.localized_localized

theorem entryFault?_localized_iff {pool : Pool} {files? : Option Registry} {id : Nat}
    {entry : Entry} :
    pool.entryFault? files? id entry = none ↔
      entry.range.Valid ∧ pool.localized.entryFault? files? id entry.localized = none := by
  -- Of its range the rules ask only that it is not inverted and how long it is.
  simp only [entryFault?_eq_none_iff, lengthAt_localized, size_localized, Entry.length_localized,
    Entry.localized_eq_ofLink_iff]
  exact ⟨fun ⟨hvalid, hrules⟩ => ⟨hvalid, Entry.valid_localized hvalid, hrules⟩,
    fun ⟨hvalid, _, hrules⟩ => ⟨hvalid, hrules⟩⟩

theorem fault?_localized_iff {pool : Pool} {files? : Option Registry} :
    pool.fault? files? = none ↔
      (∀ entry ∈ pool.toList, entry.range.Valid) ∧ pool.localized.fault? files? = none := by
  simp only [fault?_eq_none_iff, forall_mem_toList_iff, getElem?_localized,
    Option.map_eq_some_iff]
  constructor
  · intro h
    refine ⟨fun id entry hentry => (entryFault?_localized_iff.1 (h id entry hentry)).1, ?_⟩
    rintro id _ ⟨entry, hentry, rfl⟩
    exact (entryFault?_localized_iff.1 (h id entry hentry)).2
  · rintro ⟨hvalid, hlocal⟩ id entry hentry
    exact entryFault?_localized_iff.2
      ⟨hvalid id entry hentry, hlocal id entry.localized ⟨entry, hentry, rfl⟩⟩

def recordOn (supply : NodeSupply) (built : Array Record) (node : NodeId) : Record :=
  built.getD (node.index - supply.next) (Record.unknown ⟨0⟩)

theorem Rebuilt.recordOn_node {pool : Pool} {supply : NodeSupply} {records : Array Record}
    (h : Rebuilt pool supply records) {id : EntryId} (hid : id.toNat < records.size)
    (built : Array Record) :
    recordOn supply built (recordAt records id).node = recordAt built id := by
  rw [h.node_eq (getElem?_recordAt hid), recordOn, recordAt, Nat.add_sub_cancel_left]

theorem Rebuilt.resembles {pool : Pool} {supply : NodeSupply} {records locals : Array Record}
    (h : Rebuilt pool supply records) (hlocal : Rebuilt pool.localized supply locals)
    (hsize : locals.size = records.size) {i : Nat} {record other : Record}
    (hrecord : records[i]? = some record) (hother : locals[i]? = some other) :
    Record.Resembles record other := by
  obtain ⟨hlt, -⟩ := Array.getElem?_eq_some_iff.1 hrecord
  obtain ⟨entry, hentry⟩ : ∃ entry, pool[i]? = some entry :=
    ⟨_, Array.getElem?_eq_getElem (Nat.lt_of_lt_of_le hlt h.size_le)⟩
  have hlocalized : pool.localized[i]? = some entry.localized := by
    rw [getElem?_localized, hentry, Option.map_some]
  obtain ⟨link, hlink, hrefs, hget⟩ := h.record i _ hlt hentry
  obtain ⟨link', hlink', -, hget'⟩ := hlocal.record i _ (hsize ▸ hlt) hlocalized
  obtain rfl : link' = link := Option.some.inj (hlink'.symm.trans hlink)
  obtain rfl := Option.some.inj (hrecord.symm.trans hget)
  obtain rfl := Option.some.inj (hother.symm.trans hget')
  -- Both records of an entry stand on one node, so a child's node names the child's counterpart.
  have hmap : link'.map (recordAt locals) =
      (link'.map (recordAt records)).map fun child => recordOn supply locals child.node := by
    rw [Link.map_map]
    exact Link.map_congr fun target htarget =>
      (h.recordOn_node (Nat.lt_trans (hrefs target htarget) hlt) locals).symm
  rw [hmap]
  refine .mk entry.length_localized (fun hkind => ?_) fun child hchild => ?_
  · rw [Link.kind_map] at hkind
    rw [Entry.range_localized hlink, if_pos hkind]
  · rw [Link.refs_map] at hchild
    obtain ⟨target, htarget, rfl⟩ := List.mem_map.1 hchild
    have hbefore := Nat.lt_trans (hrefs target htarget) hlt
    rw [h.recordOn_node hbefore]
    exact h.resembles hlocal hsize (getElem?_recordAt hbefore)
      (getElem?_recordAt (hsize ▸ hbefore))
termination_by i
decreasing_by exact hrefs target htarget

theorem Rebuilt.isLocal_iff {pool : Pool} {supply : NodeSupply} {records : Array Record}
    (h : Rebuilt pool supply records) {i : Nat} {entry : Entry} {record : Record}
    (hentry : pool[i]? = some entry) (hrecord : records[i]? = some record) :
    record.IsLocal ↔ entry.localized = entry := by
  obtain ⟨hlt, -⟩ := Array.getElem?_eq_some_iff.1 hrecord
  obtain ⟨link, hlink, -, hget⟩ := h.record i entry hlt hentry
  obtain rfl := Option.some.inj (hrecord.symm.trans hget)
  rw [Entry.localized_eq_iff hlink, Record.IsLocal, Record.link, Link.kind_map]
  rfl

theorem Rebuilt.forall_isLocal_iff {pool : Pool} {supply : NodeSupply} {records : Array Record}
    (h : Rebuilt pool supply records) (hsize : records.size = pool.size) :
    (∀ record ∈ records.toList, record.IsLocal) ↔ pool.localized = pool := by
  rw [forall_mem_toList_iff, localized_eq_self_iff]
  constructor
  · intro hlocal id entry hentry
    obtain ⟨hlt, -⟩ := Array.getElem?_eq_some_iff.1 hentry
    have hrecord := Array.getElem?_eq_getElem (hsize ▸ hlt : id < records.size)
    exact (h.isLocal_iff hentry hrecord).1 (hlocal id _ hrecord)
  · intro hpool id record hrecord
    obtain ⟨hlt, -⟩ := Array.getElem?_eq_some_iff.1 hrecord
    have hentry := Array.getElem?_eq_getElem (hsize ▸ hlt : id < pool.size)
    exact (h.isLocal_iff hentry hrecord).2 (hpool id _ hentry)

/-- The rules take a pool exactly if no range is inverted and they take the localized pool. What is
rebuilt then has local ranges, and can come from the builders, exactly if the pool is localized. The
localized pool always gives records that the builders make, and every offset resolves in them as in
what is rebuilt from the pool itself. -/
theorem decode_localized (pool : Pool) (files? : Option Registry) :
    (pool.fault? files? = none ↔
        (∀ entry ∈ pool.toList, entry.range.Valid) ∧ pool.localized.fault? files? = none) ∧
      ∀ (supply supply' : NodeSupply) (records : Array Record),
        pool.decode files? supply = .ok (records, supply') →
        ((∀ record ∈ records.toList, record.IsLocal) ↔ pool.localized = pool) ∧
          (Record.Made records.toList.reverse ↔ pool.localized = pool) ∧
          ∃ locals, pool.localized.decode files? supply = .ok (locals, supply') ∧
            Record.Made locals.toList.reverse ∧
            List.Forall₂ (fun record other : Record => ∀ registry settings mode offset,
              other.resolve registry settings mode offset =
                record.resolve registry settings mode offset) records.toList locals.toList := by
  refine ⟨fault?_localized_iff, fun supply supply' records hdecode => ?_⟩
  obtain ⟨hfault, -⟩ := rebuilt_of_decode hdecode
  obtain ⟨_, hsame, hsize, hrebuilt⟩ := decode_of_fault?_eq_none supply hfault
  obtain ⟨rfl, rfl⟩ := Prod.mk.inj (Except.ok.inj (hdecode.symm.trans hsame))
  have hfault' := (fault?_localized_iff.1 hfault).2
  obtain ⟨locals, hdecode', hsize', hrebuilt'⟩ := decode_of_fault?_eq_none supply hfault'
  have hlocal := hrebuilt.forall_isLocal_iff hsize
  have hmade := hrebuilt.ordered.made_iff fun record hrecord => hrebuilt.fits hfault hrecord
  have hmade' := hrebuilt'.ordered.made_iff fun record hrecord => hrebuilt'.fits hfault' hrecord
  have hlocal' := (hrebuilt'.forall_isLocal_iff hsize').2 pool.localized_localized
  refine ⟨hlocal, hmade.trans hlocal, locals, ?_, hmade'.2 hlocal', ?_⟩
  · rw [hdecode', size_localized]
  · rw [size_localized] at hsize'
    refine List.forall₂_iff_get.2 ⟨by simp [hsize, hsize'], fun i hi hi' => ?_⟩
    have hresembles := hrebuilt.resembles hrebuilt' (hsize'.trans hsize.symm)
      (Array.getElem?_eq_getElem hi) (Array.getElem?_eq_getElem hi')
    exact hresembles.resolve

/-! A file with a slice of it, a concatenation and a transformation, none of them at zero. -/

namespace Displaced

def pool : Pool := #[
  Entry.ofLink ⟨Position.zero, ⟨7, 0, 7⟩⟩ (.leaf ⟨0⟩),
  Entry.ofLink ⟨⟨3, 0, 0⟩, ⟨5, 0, 0⟩⟩ (.substring 0 1),
  Entry.ofLink ⟨⟨6, 0, 0⟩, ⟨13, 0, 0⟩⟩ (.concat [⟨1, 0, 2⟩, ⟨0, 2, 5⟩]),
  Entry.ofLink ⟨⟨1, 0, 0⟩, ⟨4, 0, 0⟩⟩ (.transformed 2 [⟨0, 3, 0, 3⟩])]

def whole : Record := Record.leaf ⟨0⟩ ⟨0⟩ ⟨Position.zero, ⟨7, 0, 7⟩⟩

def slice : Record := .mk ⟨1⟩ ⟨⟨3, 0, 0⟩, ⟨5, 0, 0⟩⟩ (.substring whole 1)

def joined : Record :=
  .mk ⟨2⟩ ⟨⟨6, 0, 0⟩, ⟨13, 0, 0⟩⟩ (.concat [⟨slice, 0, 2⟩, ⟨whole, 2, 5⟩])

def changed : Record := .mk ⟨3⟩ ⟨⟨1, 0, 0⟩, ⟨4, 0, 0⟩⟩ (.transformed joined [⟨0, 3, 0, 3⟩])

def records : Array Record := #[whole, slice, joined, changed]

theorem decode_pool : pool.decode none ⟨0⟩ = .ok (records, ⟨4⟩) := rfl

end Displaced

theorem decode_localized_displaced :
    Displaced.pool.decode none ⟨0⟩ = .ok (Displaced.records, ⟨4⟩) ∧
      Displaced.pool.localized ≠ Displaced.pool ∧
      ¬ Record.Made Displaced.records.toList.reverse ∧
      ∃ locals, Displaced.pool.localized.decode none ⟨0⟩ = .ok (locals, ⟨4⟩) ∧
        Record.Made locals.toList.reverse ∧
        List.Forall₂ (fun record other : Record => ∀ registry settings mode offset,
          other.resolve registry settings mode offset =
            record.resolve registry settings mode offset)
          Displaced.records.toList locals.toList := by
  obtain ⟨-, hmade, hlocals⟩ :=
    (decode_localized Displaced.pool none).2 ⟨0⟩ ⟨4⟩ Displaced.records Displaced.decode_pool
  have hdisplaced : Displaced.pool.localized ≠ Displaced.pool := fun h =>
    absurd (localized_eq_self_iff.1 h 1 _ rfl) (by decide)
  exact ⟨Displaced.decode_pool, hdisplaced, mt hmade.1 hdisplaced, hlocals⟩

/-- The rules take a pool whose derived entries start anywhere, and it is rebuilt to records that are
not local and that no sequence of builders makes. -/
theorem decode_displaced :
    Displaced.pool.fault? none = none ∧
      Displaced.pool.decode none ⟨0⟩ = .ok (Displaced.records, ⟨4⟩) ∧
      (Displaced.records.toList.map fun record => record.range.start.offset) = [0, 3, 6, 1] ∧
      ∀ record ∈ [Displaced.slice, Displaced.joined, Displaced.changed],
        ¬ record.IsLocal ∧ ∀ made, Record.Made made → record ∉ made := by
  have hlocal : ∀ record ∈ [Displaced.slice, Displaced.joined, Displaced.changed],
      ¬ record.IsLocal := by
    simp [Record.IsLocal, Displaced.slice, Displaced.joined, Displaced.changed, Record.link,
      Link.kind, Record.range, Range.ofLength, Position.zero]
  refine ⟨by decide, Displaced.decode_pool, rfl, fun record hrecord => ?_⟩
  refine ⟨hlocal record hrecord, fun made hmade hmem => ?_⟩
  obtain ⟨_, _, hbuilt⟩ := hmade.exists_builtFrom hmem
  exact hlocal record hrecord hbuilt.isLocal

end Pool

end TextOrigin

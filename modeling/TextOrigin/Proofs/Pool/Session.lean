import TextOrigin.Proofs.Pool.Writing

/-!
Sessions of a writer. Records of a graph are interned in any order, again and again, and the pool is
taken out in between as often as one likes. At every moment the writer has one entry for each node
that was reached since the pool was last taken, references point backwards, and the ids that it has
given stay what they are.
-/

namespace TextOrigin

namespace Writer

/-- The states that a writer comes to when records of a graph are interned and pools are taken, each
with the records that were interned since the last pool was taken. -/
inductive Session (made : List Record) : List Record → Writer → Prop where
  | start : Session made [] empty
  | intern {interned : List Record} {writer : Writer} {record : Record}
      (h : Session made interned writer) (hrecord : record ∈ made) :
      Session made (interned ++ [record]) (writer.intern record).2
  | take {interned : List Record} {writer : Writer} (h : Session made interned writer) :
      Session made [] writer.take.2

/-- The record has the entry `id`, with its range and its link, in which each reference became the
id of what it refers to. Interning the record once more gives `id` and adds nothing. -/
structure Names (writer : Writer) (record : Record) (id : EntryId) : Prop where
  intern_eq : writer.intern record = (id, writer)
  entry_eq : writer.entries[id.toNat]? =
    some (Entry.ofLink record.range (record.link.map fun child => (writer.intern child).1))

/-- The entries are those of the nodes that the roots refer to, one for each. -/
structure Lists (writer : Writer) (roots : List Record) : Prop where
  count : writer.entries.size = (Record.reachableNodes roots).length
  backwards : ∀ (i : Nat) (entry : Entry), writer.entries[i]? = some entry →
    ∃ link, entry.link? = some link ∧ ∀ target ∈ link.refs, target.toNat < i
  named : ∀ record ∈ roots.flatMap Record.subrecords,
    writer.Names record (writer.intern record).1
  covered : ∀ i < writer.entries.size, ∃ record ∈ roots.flatMap Record.subrecords,
    (writer.intern record).1.toNat = i
  distinct : ∀ first ∈ roots.flatMap Record.subrecords,
    ∀ second ∈ roots.flatMap Record.subrecords,
      (writer.intern first).1 = (writer.intern second).1 ↔ first.node = second.node

section Holding

variable {writer : Writer} {records : List Record}

theorem Holds.size_eq (h : writer.Holds records) : writer.entries.size = records.length := by
  rw [← Array.length_toList, h.entries, List.length_map]

theorem Holds.getElem?_entries (h : writer.Holds records) (i : Nat) :
    writer.entries[i]? = records[i]?.map (Entry.ofRecord records) := by
  rw [← Array.getElem?_toList, h.entries, List.getElem?_map]

theorem Holds.intern_eq (h : writer.Holds records) {record : Record} (hmem : record ∈ records) :
    writer.intern record = (Record.idIn records record, writer) :=
  intern_of_known (h.known record hmem)

theorem Holds.names (h : writer.Holds records) (hlt : records.length < UInt32.size)
    {record : Record} (hmem : record ∈ records) :
    writer.Names record (Record.idIn records record) where
  intern_eq := h.intern_eq hmem
  entry_eq := by
    have hrefs : record.link.map (Record.idIn records) =
        record.link.map fun child => (writer.intern child).1 :=
      Link.map_congr fun child hchild => by
        rw [h.intern_eq (h.ordered.mem_of_mem_refs hmem hchild)]
    rw [h.getElem?_entries, Record.toNat_idIn hlt hmem, h.ordered.getElem?_position hmem,
      Option.map_some, Entry.ofRecord, hrefs]

theorem Holds.entries_prefix (h : writer.Holds records) {after : Writer} {more : List Record}
    (h' : after.Holds (records ++ more)) : writer.entries.toList <+: after.entries.toList := by
  have hold : records.map (Entry.ofRecord (records ++ more)) =
      records.map (Entry.ofRecord records) :=
    List.map_congr_left fun record hmem => Entry.ofRecord_append
      (fun child hchild => h.ordered.mem_of_mem_refs hmem hchild) more
  rw [h.entries, h'.entries, List.map_append, hold]
  exact List.prefix_append _ _

theorem Holds.intern_stable (h : writer.Holds records) {after : Writer} {more : List Record}
    (h' : after.Holds (records ++ more)) {record : Record} (hmem : record ∈ records) :
    after.intern record = ((writer.intern record).1, after) := by
  rw [h'.intern_eq (List.mem_append_left _ hmem), h.intern_eq hmem, Record.idIn_append hmem]

theorem Holds.intern_eq_iff (h : writer.Holds records) (hlt : records.length < UInt32.size)
    {first second : Record} (hfirst : first ∈ records) (hsecond : second ∈ records) :
    (writer.intern first).1 = (writer.intern second).1 ↔ first.node = second.node := by
  rw [h.intern_eq hfirst, h.intern_eq hsecond]
  constructor
  · intro hid
    have hposition := congrArg UInt32.toNat hid
    rw [Record.toNat_idIn hlt hfirst, Record.toNat_idIn hlt hsecond] at hposition
    have hget := h.ordered.getElem?_position hfirst
    rw [hposition, h.ordered.getElem?_position hsecond] at hget
    rw [Option.some.inj hget]
  · intro hnode
    rw [h.ordered.eq_of_node_eq hfirst hsecond hnode]

theorem Holds.lists (h : writer.Holds records) {roots : List Record}
    (hmem : ∀ record, record ∈ records ↔ ∃ root ∈ roots, record ∈ root.subrecords)
    (hcount : (Record.reachableNodes roots).length < UInt32.size) : writer.Lists roots := by
  have hlength := h.ordered.length_eq hmem
  have hlt : records.length < UInt32.size := by omega
  have hbelow : ∀ record, record ∈ roots.flatMap Record.subrecords ↔ record ∈ records :=
    fun record => List.mem_flatMap.trans (hmem record).symm
  refine ⟨h.size_eq.trans hlength, fun i entry hentry => ?_, fun record hrecord => ?_,
    fun i hi => ?_, fun first hfirst second hsecond => ?_⟩
  · rw [h.getElem?_entries] at hentry
    obtain ⟨record, hrecord, rfl⟩ := Option.map_eq_some_iff.1 hentry
    refine ⟨_, Entry.link?_ofLink _ _, fun target htarget => ?_⟩
    rw [Link.refs_map] at htarget
    obtain ⟨child, hchild, rfl⟩ := List.mem_map.1 htarget
    have hsource := h.ordered.mem_of_mem_refs (List.mem_of_getElem? hrecord) hchild
    rw [Record.toNat_idIn hlt hsource]
    exact h.ordered.position_lt_of_mem_refs hrecord hchild
  · have hknown := (hbelow record).1 hrecord
    rw [h.intern_eq hknown]
    exact h.names hlt hknown
  · rw [h.size_eq] at hi
    have hget := List.getElem?_eq_getElem hi
    have hknown := List.getElem_mem hi
    refine ⟨records[i], (hbelow _).2 hknown, ?_⟩
    rw [h.intern_eq hknown, Record.toNat_idIn hlt hknown, h.ordered.position_eq hget]
  · exact h.intern_eq_iff hlt ((hbelow first).1 hfirst) ((hbelow second).1 hsecond)

end Holding

section Sessions

variable {made interned : List Record} {writer : Writer}

/-- In a session the writer holds what the records interned since the last pool refer to. -/
theorem Session.exists_holds (hmade : Record.Made made) (h : Session made interned writer) :
    ∃ records, writer.Holds records ∧ records ⊆ made.reverse ∧
      ∀ record, record ∈ records ↔ ∃ root ∈ interned, record ∈ root.subrecords := by
  induction h with
  | start => exact ⟨[], holds_empty, List.nil_subset _, by simp⟩
  | @intern interned writer record h hrecord ih =>
    obtain ⟨records, hholds, hsubset, hmem⟩ := ih
    have hgraph := hmade.ordered
    have hrecord' : record ∈ made.reverse := List.mem_reverse.2 hrecord
    obtain ⟨more, hadds, -⟩ := intern_adds hgraph hrecord' hholds hsubset
    exact ⟨records ++ more, hadds.holds, hadds.subset hgraph hsubset (by simpa using hrecord),
      hadds.mem_iff hmem⟩
  | take h ih => exact ⟨[], holds_empty, List.nil_subset _, by simp⟩

/-- At every moment of a session the entries are those of the nodes that were reached since the last
pool was taken. The next record interned is named by the id that this gives, later ones change
neither entries nor ids, and taking the pool hands out all entries and leaves a writer as it was at
the start. -/
theorem Session.lists_interned (hmade : Record.Made made) (h : Session made interned writer)
    (hcount : (Record.reachableNodes interned).length < UInt32.size) :
    writer.Lists interned ∧
      (∀ record ∈ made, (Record.reachableNodes (interned ++ [record])).length < UInt32.size →
        (writer.intern record).2.Names record (writer.intern record).1) ∧
      (∀ later, later ⊆ made →
        writer.entries.toList <+: (writer.internAll later).2.entries.toList ∧
        ∀ record ∈ interned.flatMap Record.subrecords,
          (writer.internAll later).2.intern record =
            ((writer.intern record).1, (writer.internAll later).2)) ∧
      writer.take = (writer.entries, empty) := by
  obtain ⟨records, hholds, hsubset, hmem⟩ := h.exists_holds hmade
  have hgraph := hmade.ordered
  refine ⟨hholds.lists hmem hcount, fun record hrecord hnext => ?_, fun later hlater => ?_, rfl⟩
  · obtain ⟨more, hadds, hid⟩ :=
      intern_adds hgraph (List.mem_reverse.2 hrecord) hholds hsubset
    have hlength := hadds.holds.ordered.length_eq (hadds.mem_iff hmem)
    rw [hid]
    exact hadds.holds.names (by omega) (hadds.targets_mem record (by simp))
  · have hlater' : later ⊆ made.reverse := fun record hrecord =>
      List.mem_reverse.2 (hlater hrecord)
    obtain ⟨more, hadds, -⟩ := internAll_adds hgraph hholds hsubset hlater'
    refine ⟨hholds.entries_prefix hadds.holds, fun record hrecord => ?_⟩
    exact hholds.intern_stable hadds.holds ((hmem record).2 (List.mem_flatMap.1 hrecord))

end Sessions

/-! Two leaves of equal content, joined, and a session that takes a pool before it is done. -/

namespace Twins

def left : Record := Record.leaf ⟨0⟩ ⟨0⟩ ⟨⟨2, 0, 2⟩, ⟨5, 0, 5⟩⟩

def right : Record := Record.leaf ⟨1⟩ ⟨0⟩ ⟨⟨2, 0, 2⟩, ⟨5, 0, 5⟩⟩

def joined : Record :=
  .mk ⟨2⟩ (Range.ofLength 7) (.concat [⟨left, 0, 3⟩, ⟨right, 3, 1⟩, ⟨left, 4, 3⟩])

theorem made : Record.Made [joined, right, left] := by
  have hjoined : Record.concat ⟨2⟩ [(left, 3), (right, 1), (left, 3)] = .ok joined := rfl
  have hleft : Record.Made [left] := .cons .nil (by simp) (.leaf _ _)
  have hboth : Record.Made [right, left] :=
    hleft.cons (by simp [left, Record.leaf, Record.node]) (.leaf _ _)
  exact hboth.cons (by simp [left, right, Record.leaf, Record.node]) (.concat (by simp) hjoined)

def writer : Writer := (((empty.intern left).2.take.2.intern right).2.intern joined).2

theorem session : Session [joined, right, left] [right, joined] writer := by
  have hleft : Session [joined, right, left] [left] (empty.intern left).2 :=
    Session.start.intern (by simp)
  have hright : Session [joined, right, left] [right]
      ((empty.intern left).2.take.2.intern right).2 :=
    hleft.take.intern (by simp)
  exact hright.intern (by simp)

end Twins

theorem Session.lists_interned_twins :
    Twins.writer.Lists [Twins.right, Twins.joined] ∧ Twins.writer.entries.size = 3 ∧
      (Twins.left == Twins.right) = true ∧
      (Twins.writer.intern Twins.left).1 ≠ (Twins.writer.intern Twins.right).1 ∧
      Twins.writer.entries.toList <+: (Twins.writer.internAll [Twins.left]).2.entries.toList := by
  have hcount : (Record.reachableNodes [Twins.right, Twins.joined]).length = 3 := by
    decide +kernel
  obtain ⟨hlists, -, hlater, -⟩ :=
    Session.lists_interned Twins.made Twins.session (by rw [hcount]; decide)
  have hleft : Twins.left ∈ [Twins.right, Twins.joined].flatMap Record.subrecords :=
    List.mem_flatMap.2 ⟨Twins.joined, by simp, Record.mem_subrecords_of_mem_refs
      (by simp [Twins.joined, Record.link, Link.refs]) Twins.left.self_mem_subrecords⟩
  have hright : Twins.right ∈ [Twins.right, Twins.joined].flatMap Record.subrecords :=
    List.mem_flatMap.2 ⟨Twins.right, by simp, Twins.right.self_mem_subrecords⟩
  refine ⟨hlists, hlists.count.trans hcount, by decide, fun hid => ?_, (hlater _ (by simp)).1⟩
  exact absurd ((hlists.distinct _ hleft _ hright).1 hid) (by decide)

end Writer

end TextOrigin

import Mathlib.Data.List.Dedup
import TextOrigin.Proofs.Record.Links
import TextOrigin.Proofs.Record.Trim
import TextOrigin.Record.Recover

/-!
Record graphs. The records that the builders make, each on a node of its own, form a graph without
cycles: ordered by the time they were made, every record comes after all that it refers to. In such
an order a node names one record, and its position says where the record stands.
-/

namespace TextOrigin.Record

/-- A record and everything that it refers to through any number of links. -/
def subrecords (record : Record) : List Record :=
  record :: record.link.refs.attach.flatMap fun child => child.1.subrecords
termination_by record.height
decreasing_by exact height_lt_of_mem_refs child.2

theorem mem_subrecords {record other : Record} :
    other ∈ record.subrecords ↔
      other = record ∨ ∃ child ∈ record.link.refs, other ∈ child.subrecords := by
  rw [subrecords]
  simp

theorem self_mem_subrecords (record : Record) : record ∈ record.subrecords :=
  mem_subrecords.2 (.inl rfl)

theorem mem_subrecords_of_mem_refs {record child other : Record}
    (hchild : child ∈ record.link.refs) (hother : other ∈ child.subrecords) :
    other ∈ record.subrecords :=
  mem_subrecords.2 (.inr ⟨child, hchild, hother⟩)

theorem forall_subrecords {record : Record} {P : Record → Prop} :
    (∀ other ∈ record.subrecords, P other) ↔
      P record ∧ ∀ child ∈ record.link.refs, ∀ other ∈ child.subrecords, P other := by
  constructor
  · intro h
    exact ⟨h record record.self_mem_subrecords,
      fun child hchild other hother => h other (mem_subrecords_of_mem_refs hchild hother)⟩
  · rintro ⟨hrecord, hbelow⟩ other hother
    rcases mem_subrecords.1 hother with rfl | ⟨child, hchild, hsub⟩
    · exact hrecord
    · exact hbelow child hchild other hsub

theorem height_le_of_mem_subrecords {record other : Record} (h : other ∈ record.subrecords) :
    other.height ≤ record.height := by
  rcases mem_subrecords.1 h with rfl | ⟨child, hchild, hother⟩
  · exact Nat.le_refl _
  · have hlt := height_lt_of_mem_refs hchild
    have hle := height_le_of_mem_subrecords hother
    omega
termination_by record.height
decreasing_by exact height_lt_of_mem_refs hchild

def reachableNodes (roots : List Record) : List NodeId :=
  ((roots.flatMap subrecords).map node).dedup

theorem mem_reachableNodes {roots : List Record} {target : NodeId} :
    target ∈ reachableNodes roots ↔
      ∃ root ∈ roots, ∃ record ∈ root.subrecords, record.node = target := by
  simp only [reachableNodes, List.mem_dedup, List.mem_map, List.mem_flatMap]
  constructor
  · rintro ⟨record, ⟨root, hroot, hrecord⟩, hnode⟩
    exact ⟨root, hroot, record, hrecord, hnode⟩
  · rintro ⟨root, hroot, record, hrecord, hnode⟩
    exact ⟨record, ⟨root, hroot, hrecord⟩, hnode⟩

theorem nodup_reachableNodes (roots : List Record) : (reachableNodes roots).Nodup :=
  List.nodup_dedup _

/-- The record at the end of a path that starts at root `i` and goes on by positions of
references. -/
def follow? (roots : List Record) (i : Nat) : List Nat → Option Record
  | [] => roots[i]?
  | j :: path => roots[i]?.bind fun root => follow? root.link.refs j path

def position (records : List Record) (record : Record) : Nat :=
  records.findIdx fun other => other.node == record.node

/-- Records on different nodes, each after everything that it refers to. -/
inductive Ordered : List Record → Prop where
  | nil : Ordered []
  | snoc {records : List Record} {record : Record} (h : Ordered records)
      (hrefs : ∀ child ∈ record.link.refs, child ∈ records)
      (hfresh : ∀ other ∈ records, other.node ≠ record.node) : Ordered (records ++ [record])

theorem position_lt {records : List Record} {record : Record} (h : record ∈ records) :
    position records record < records.length :=
  List.findIdx_lt_length_of_exists ⟨record, h, beq_self_eq_true _⟩

theorem position_append {records : List Record} {record : Record} (h : record ∈ records)
    (more : List Record) : position (records ++ more) record = position records record := by
  have hlt := position_lt h
  rw [position] at hlt ⊢
  rw [List.findIdx_append, if_pos hlt, position]

theorem position_snoc {records : List Record} {record : Record}
    (hfresh : ∀ other ∈ records, other.node ≠ record.node) :
    position (records ++ [record]) record = records.length := by
  have hnone : records.findIdx (fun other => other.node == record.node) = records.length :=
    List.findIdx_eq_length.2 fun other hother => by simpa using hfresh other hother
  rw [position, List.findIdx_append, hnone]
  simp [List.findIdx_cons]

theorem getElem?_snoc {records : List Record} {last record : Record} {i : Nat}
    (h : (records ++ [last])[i]? = some record) :
    records[i]? = some record ∨ i = records.length ∧ record = last := by
  rw [List.getElem?_append] at h
  split at h
  · exact .inl h
  · rw [List.getElem?_singleton] at h
    split at h
    · exact .inr ⟨by omega, (Option.some.inj h).symm⟩
    · contradiction

namespace Ordered

theorem mem_of_mem_refs {records : List Record} (h : Ordered records) {record child : Record}
    (hmem : record ∈ records) (hchild : child ∈ record.link.refs) : child ∈ records := by
  induction h with
  | nil => simp at hmem
  | snoc h hrefs hfresh ih =>
    rcases List.mem_append.1 hmem with hmem | hmem
    · exact List.mem_append_left _ (ih hmem)
    · obtain rfl := List.mem_singleton.1 hmem
      exact List.mem_append_left _ (hrefs child hchild)

theorem subrecords_subset {records : List Record} (h : Ordered records) {record : Record}
    (hmem : record ∈ records) : record.subrecords ⊆ records := by
  intro other hother
  rcases mem_subrecords.1 hother with rfl | ⟨child, hchild, hother⟩
  · exact hmem
  · exact h.subrecords_subset (h.mem_of_mem_refs hmem hchild) hother
termination_by record.height
decreasing_by exact height_lt_of_mem_refs hchild

theorem eq_of_node_eq {records : List Record} (h : Ordered records) {first second : Record}
    (hfirst : first ∈ records) (hsecond : second ∈ records) (hnode : first.node = second.node) :
    first = second := by
  induction h with
  | nil => simp at hfirst
  | @snoc records last h hrefs hfresh ih =>
    rw [List.mem_append, List.mem_singleton] at hfirst hsecond
    rcases hfirst with hfirst | rfl <;> rcases hsecond with hsecond | rfl
    · exact ih hfirst hsecond
    · exact absurd hnode (hfresh first hfirst)
    · exact absurd hnode.symm (hfresh second hsecond)
    · rfl

theorem nodup_nodes {records : List Record} (h : Ordered records) :
    (records.map node).Nodup := by
  induction h with
  | nil => simp
  | @snoc records record h hrefs hfresh ih =>
    rw [List.map_append, List.nodup_append]
    refine ⟨ih, by simp, ?_⟩
    intro first hfirst second hsecond
    obtain ⟨other, hother, rfl⟩ := List.mem_map.1 hfirst
    rw [List.mem_singleton.1 hsecond]
    exact hfresh other hother

theorem perm_reachableNodes {records roots : List Record} (h : Ordered records)
    (hmem : ∀ record, record ∈ records ↔ ∃ root ∈ roots, record ∈ root.subrecords) :
    (records.map node).Perm (reachableNodes roots) := by
  refine (List.perm_ext_iff_of_nodup h.nodup_nodes (nodup_reachableNodes roots)).2 fun target => ?_
  rw [mem_reachableNodes, List.mem_map]
  constructor
  · rintro ⟨record, hrecord, hnode⟩
    obtain ⟨root, hroot, hsub⟩ := (hmem record).1 hrecord
    exact ⟨root, hroot, record, hsub, hnode⟩
  · rintro ⟨root, hroot, record, hsub, hnode⟩
    exact ⟨record, (hmem record).2 ⟨root, hroot, hsub⟩, hnode⟩

theorem length_eq {records roots : List Record} (h : Ordered records)
    (hmem : ∀ record, record ∈ records ↔ ∃ root ∈ roots, record ∈ root.subrecords) :
    records.length = (reachableNodes roots).length := by
  rw [← List.length_map node, (h.perm_reachableNodes hmem).length_eq]

theorem position_eq {records : List Record} (h : Ordered records) {i : Nat} {record : Record}
    (hi : records[i]? = some record) : position records record = i := by
  induction h generalizing i with
  | nil => simp at hi
  | @snoc records last h hrefs hfresh ih =>
    rcases getElem?_snoc hi with hi | ⟨rfl, rfl⟩
    · rw [position_append (List.mem_of_getElem? hi), ih hi]
    · exact position_snoc hfresh

theorem getElem?_position {records : List Record} (h : Ordered records) {record : Record}
    (hmem : record ∈ records) : records[position records record]? = some record := by
  obtain ⟨i, hi⟩ := List.mem_iff_getElem?.1 hmem
  rw [h.position_eq hi, hi]

theorem map_position {records : List Record} (h : Ordered records) :
    records.map (position records) = List.range records.length := by
  refine List.ext_getElem (by simp) fun i hi _ => ?_
  rw [List.length_map] at hi
  rw [List.getElem_map, List.getElem_range]
  exact h.position_eq (List.getElem?_eq_getElem hi)

theorem position_lt_of_mem_refs {records : List Record} (h : Ordered records) {i : Nat}
    {record child : Record} (hi : records[i]? = some record) (hchild : child ∈ record.link.refs) :
    position records child < i := by
  induction h generalizing i with
  | nil => simp at hi
  | @snoc records last h hrefs hfresh ih =>
    rcases getElem?_snoc hi with hi | ⟨rfl, rfl⟩
    · rw [position_append (h.mem_of_mem_refs (List.mem_of_getElem? hi) hchild)]
      exact ih hi
    · rw [position_append (hrefs child hchild)]
      exact position_lt (hrefs child hchild)

end Ordered

/-- A record that a builder makes on a node, from records that were made before. -/
inductive BuiltFrom (made : List Record) (node : NodeId) : Record → Prop where
  | leaf (file : FileId) (range : Range) : BuiltFrom made node (.leaf node file range)
  | substring {parent record : Record} {start stop : Word} (hparent : parent ∈ made)
      (hbuilt : Record.substring node parent start stop = .ok record) : BuiltFrom made node record
  | concat {contributions : List (Record × Word)} {record : Record}
      (hsources : ∀ contribution ∈ contributions, contribution.1 ∈ made)
      (hbuilt : Record.concat node contributions = .ok record) : BuiltFrom made node record
  | transformed {parent record : Record} {mapping : Mapping} {length : Word}
      (hparent : parent ∈ made)
      (hbuilt : Record.transformed node parent mapping length = .ok record) :
      BuiltFrom made node record

namespace BuiltFrom

theorem trim {made : List Record} {record : Record} (hrecord : record ∈ made) (node : NodeId)
    (text : Text) (leading trailing : Bool) :
    record.trim node text leading trailing = record ∨
      BuiltFrom made node (record.trim node text leading trailing) := by
  by_cases hlength : record.length = text.size
  · rcases trim_cases node leading trailing hlength with
      ⟨hsame, -⟩ | ⟨start, stop, hbuilt, -⟩
    · exact .inl hsame
    · exact .inr (.substring hrecord hbuilt)
  · left
    rw [Record.trim, if_pos (Ne.symm hlength)]

theorem recover {made : List Record} {node : NodeId} {parent record : Record}
    (hparent : parent ∈ made) {settings : Settings} {source target : Text}
    (hbuilt : (Record.recover settings node parent source target).value = .ok record) :
    BuiltFrom made node record := by
  unfold Record.recover at hbuilt
  split at hbuilt
  · contradiction
  · rw [Traced.value_bind] at hbuilt
    split at hbuilt
    · contradiction
    · exact .transformed hparent hbuilt

theorem node_eq {made : List Record} {node : NodeId} {record : Record}
    (h : BuiltFrom made node record) : record.node = node := by
  cases h with
  | leaf file range => rfl
  | substring hparent hbuilt =>
    obtain ⟨-, -, rfl⟩ := substring_eq_ok_iff.1 hbuilt
    rfl
  | concat hsources hbuilt =>
    obtain ⟨pieces, total, -, -, -, rfl⟩ := concat_eq_ok_iff.1 hbuilt
    rfl
  | transformed hparent hbuilt =>
    obtain ⟨-, rfl⟩ := transformed_eq_ok_iff.1 hbuilt
    rfl

theorem refs_mem {made : List Record} {node : NodeId} {record : Record}
    (h : BuiltFrom made node record) : ∀ child ∈ record.link.refs, child ∈ made := by
  cases h with
  | leaf file range => simp [Record.leaf, Record.link, Link.refs]
  | substring hparent hbuilt =>
    obtain ⟨-, -, rfl⟩ := substring_eq_ok_iff.1 hbuilt
    simpa [Record.link, Link.refs] using hparent
  | concat hsources hbuilt =>
    obtain ⟨pieces, total, rfl, -, -, rfl⟩ := concat_eq_ok_iff.1 hbuilt
    simpa [Record.link, Link.refs] using hsources
  | transformed hparent hbuilt =>
    obtain ⟨-, rfl⟩ := transformed_eq_ok_iff.1 hbuilt
    simpa [Record.link, Link.refs] using hparent

theorem valid_range {made : List Record} {node : NodeId} {record : Record}
    (h : BuiltFrom made node record)
    (hleaf : ∀ file, record.link = .leaf file → record.range.Valid) : record.range.Valid := by
  cases h with
  | leaf file range => exact hleaf file rfl
  | substring hparent hbuilt =>
    obtain ⟨-, -, rfl⟩ := substring_eq_ok_iff.1 hbuilt
    exact Range.valid_ofLength _
  | concat hsources hbuilt =>
    obtain ⟨pieces, total, -, -, -, rfl⟩ := concat_eq_ok_iff.1 hbuilt
    exact Range.valid_ofLength _
  | transformed hparent hbuilt =>
    obtain ⟨-, rfl⟩ := transformed_eq_ok_iff.1 hbuilt
    exact Range.valid_ofLength _

theorem fits {made : List Record} {node : NodeId} {record : Record}
    (h : BuiltFrom made node record) : record.link.Fits Record.length record.length := by
  cases h with
  | leaf file range => trivial
  | @substring parent record start stop hparent hbuilt =>
    obtain ⟨hstart, hstop, rfl⟩ := substring_eq_ok_iff.1 hbuilt
    have hsum : start + (stop - start) = stop := by
      rw [UInt64.add_comm, UInt64.sub_add_cancel]
    rw [length_mk_ofLength]
    exact slice_bounds_iff.1 (by rw [hsum]; exact ⟨hstart, hstop⟩)
  | concat hsources hbuilt =>
    obtain ⟨pieces, total, -, hback, hle, rfl⟩ := concat_eq_ok_iff.1 hbuilt
    refine ⟨?_, hle⟩
    rwa [length_mk_ofLength]
  | transformed hparent hbuilt =>
    obtain ⟨hfault, rfl⟩ := transformed_eq_ok_iff.1 hbuilt
    rwa [length_mk_ofLength]

end BuiltFrom

/-- Records that the builders made one after another, the last one first, each on a fresh node. -/
inductive Made : List Record → Prop where
  | nil : Made []
  | cons {made : List Record} {node : NodeId} {record : Record} (h : Made made)
      (hfresh : ∀ other ∈ made, other.node ≠ node) (hbuilt : BuiltFrom made node record) :
      Made (record :: made)

namespace Made

theorem ordered {made : List Record} (h : Made made) : Ordered made.reverse := by
  induction h with
  | nil => exact .nil
  | cons h hfresh hbuilt ih =>
    rw [List.reverse_cons]
    refine ih.snoc (fun child hchild => List.mem_reverse.2 (hbuilt.refs_mem child hchild)) ?_
    intro other hother
    rw [hbuilt.node_eq]
    exact hfresh other (List.mem_reverse.1 hother)

theorem exists_builtFrom {made : List Record} (h : Made made) {record : Record}
    (hmem : record ∈ made) : ∃ earlier node, BuiltFrom earlier node record := by
  induction h with
  | nil => simp at hmem
  | cons h hfresh hbuilt ih =>
    rcases List.mem_cons.1 hmem with rfl | hmem
    · exact ⟨_, _, hbuilt⟩
    · exact ih hmem

end Made

end TextOrigin.Record

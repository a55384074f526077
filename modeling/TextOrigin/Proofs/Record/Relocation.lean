import TextOrigin.Proofs.Record.Copy
import TextOrigin.Proofs.Record.Graph

/-!
Copies of whole graphs. Moving the records of a graph to new nodes, each to one of its own, copies
every record and keeps which references meet in one node.
-/

namespace TextOrigin.Record

/-- What paths tell of sharing: the same paths lead somewhere, and two of them lead to one node in
the first graph exactly if they do so in the second. -/
structure SameSharing (first second : List Record) : Prop where
  reaches : ∀ i path, (follow? first i path).isSome = (follow? second i path).isSome
  meets : ∀ i path j path',
    (follow? first i path).map node = (follow? first j path').map node ↔
      (follow? second i path).map node = (follow? second j path').map node

/-- `f` takes the records to copies on the nodes from `start` on. -/
def Relocates (f : Record → Record) (records : List Record) (start : Nat) : Prop :=
  ∀ record ∈ records, f record =
    mk ⟨start + position records record⟩ record.range (record.link.map f)

theorem mem_of_follow? {records roots : List Record} (h : Ordered records)
    (hroots : roots ⊆ records) {i : Nat} {path : List Nat} {record : Record}
    (hfollow : follow? roots i path = some record) : record ∈ records := by
  induction path generalizing roots i with
  | nil => exact hroots (List.mem_of_getElem? hfollow)
  | cons j path ih =>
    obtain ⟨root, hroot, hrest⟩ := Option.bind_eq_some_iff.1 hfollow
    have hmem := hroots (List.mem_of_getElem? hroot)
    exact ih (fun child hchild => h.mem_of_mem_refs hmem hchild) hrest

namespace Relocates

variable {f : Record → Record} {records : List Record} {start : Nat}

theorem refs_eq (hf : Relocates f records start) {record : Record} (hmem : record ∈ records) :
    (f record).link.refs = record.link.refs.map f := by
  rw [hf record hmem, link, Link.refs_map]

theorem copy (hf : Relocates f records start) (h : Ordered records) {record : Record}
    (hmem : record ∈ records) : Copy record (f record) := by
  have hchildren : ∀ child ∈ record.link.refs, Copy child (f child) :=
    fun child hchild => hf.copy h (h.mem_of_mem_refs hmem hchild)
  rw [hf record hmem]
  obtain ⟨node, range, link⟩ := record
  exact .mk hchildren
termination_by record.height
decreasing_by exact height_lt_of_mem_refs hchild

theorem node_eq_iff (hf : Relocates f records start) (h : Ordered records) {first second : Record}
    (hfirst : first ∈ records) (hsecond : second ∈ records) :
    (f first).node = (f second).node ↔ first.node = second.node := by
  constructor
  · intro hnode
    rw [hf first hfirst, hf second hsecond, node, node, NodeId.mk.injEq,
      Nat.add_left_cancel_iff] at hnode
    have hget := h.getElem?_position hfirst
    rw [hnode, h.getElem?_position hsecond] at hget
    rw [Option.some.inj hget]
  · intro hnode
    rw [h.eq_of_node_eq hfirst hsecond hnode]

theorem follow?_map (hf : Relocates f records start) (h : Ordered records) {roots : List Record}
    (hroots : roots ⊆ records) (i : Nat) (path : List Nat) :
    follow? (roots.map f) i path = (follow? roots i path).map f := by
  induction path generalizing roots i with
  | nil => simp [follow?]
  | cons j path ih =>
    rw [follow?, follow?, List.getElem?_map]
    cases hroot : roots[i]? with
    | none => rfl
    | some root =>
      have hmem := hroots (List.mem_of_getElem? hroot)
      rw [Option.map_some, Option.bind_some, Option.bind_some, hf.refs_eq hmem]
      exact ih (fun child hchild => h.mem_of_mem_refs hmem hchild) j

theorem sameSharing (hf : Relocates f records start) (h : Ordered records) {roots : List Record}
    (hroots : roots ⊆ records) : SameSharing (roots.map f) roots where
  reaches i path := by rw [hf.follow?_map h hroots, Option.isSome_map]
  meets i path j path' := by
    rw [hf.follow?_map h hroots, hf.follow?_map h hroots]
    cases hfirst : follow? roots i path with
    | none => cases follow? roots j path' <;> simp
    | some first =>
      cases hsecond : follow? roots j path' with
      | none => simp
      | some second =>
        have hiff := hf.node_eq_iff h (mem_of_follow? h hroots hfirst)
          (mem_of_follow? h hroots hsecond)
        simpa using hiff

theorem mem_subrecords_iff (hf : Relocates f records start) (h : Ordered records) {record : Record}
    (hmem : record ∈ records) {other : Record} :
    other ∈ (f record).subrecords ↔ ∃ source ∈ record.subrecords, f source = other := by
  rw [mem_subrecords, hf.refs_eq hmem]
  constructor
  · rintro (rfl | ⟨child, hchild, hother⟩)
    · exact ⟨record, mem_subrecords.2 (.inl rfl), rfl⟩
    · obtain ⟨source, hsource, rfl⟩ := List.mem_map.1 hchild
      obtain ⟨below, hbelow, rfl⟩ :=
        (hf.mem_subrecords_iff h (h.mem_of_mem_refs hmem hsource)).1 hother
      exact ⟨below, mem_subrecords.2 (.inr ⟨source, hsource, hbelow⟩), rfl⟩
  · rintro ⟨source, hsource, rfl⟩
    rcases mem_subrecords.1 hsource with rfl | ⟨child, hchild, hbelow⟩
    · exact .inl rfl
    · exact .inr ⟨f child, List.mem_map_of_mem hchild,
        (hf.mem_subrecords_iff h (h.mem_of_mem_refs hmem hchild)).2 ⟨source, hbelow, rfl⟩⟩
termination_by record.height
decreasing_by all_goals exact height_lt_of_mem_refs ‹_›

theorem mem_map_iff (hf : Relocates f records start) (h : Ordered records) {roots : List Record}
    (hmem : ∀ record, record ∈ records ↔ ∃ root ∈ roots, record ∈ root.subrecords)
    (record : Record) :
    record ∈ records.map f ↔ ∃ root ∈ roots.map f, record ∈ root.subrecords := by
  have hroots : ∀ root ∈ roots, root ∈ records := fun root hroot =>
    (hmem root).2 ⟨root, hroot, root.self_mem_subrecords⟩
  constructor
  · intro hrecord
    obtain ⟨source, hsource, rfl⟩ := List.mem_map.1 hrecord
    obtain ⟨root, hroot, hsub⟩ := (hmem source).1 hsource
    exact ⟨f root, List.mem_map_of_mem hroot,
      (hf.mem_subrecords_iff h (hroots root hroot)).2 ⟨source, hsub, rfl⟩⟩
  · rintro ⟨copy, hcopy, hsub⟩
    obtain ⟨root, hroot, rfl⟩ := List.mem_map.1 hcopy
    obtain ⟨source, hsource, rfl⟩ := (hf.mem_subrecords_iff h (hroots root hroot)).1 hsub
    exact List.mem_map_of_mem ((hmem source).2 ⟨root, hroot, hsource⟩)

end Relocates

end TextOrigin.Record

import TextOrigin.Proofs.Pool.RoundTrip

/-!
Writing copies. A writer tells nodes apart and looks at nothing else of them, so it does to the
relocated records of a graph what it does to the records themselves: it gives the same ids and
appends the same entries in the same order. The pool of a graph is therefore written again from the
records that were rebuilt at its roots.
-/

namespace TextOrigin

namespace Writer

/-- The second writer stands to the images of the records of a graph as the first one does to the
records. -/
structure Mirrors (f : Record → Record) (graph : List Record) (first second : Writer) : Prop where
  entries_eq : second.entries = first.entries
  ids_eq : ∀ record ∈ graph, second.ids[(f record).node]? = first.ids[record.node]?

theorem mirrors_empty (f : Record → Record) (graph : List Record) :
    Mirrors f graph empty empty where
  entries_eq := rfl
  ids_eq record _ := by simp [empty]

def InternsAlike (f : Record → Record) (graph : List Record) (record : Record) : Prop :=
  ∀ {first second : Writer}, Mirrors f graph first second →
    (second.intern (f record)).1 = (first.intern record).1 ∧
      Mirrors f graph (first.intern record).2 (second.intern (f record)).2

section Relocated

variable {f : Record → Record} {graph : List Record} {start : Nat}

theorem Mirrors.append (hgraph : Record.Ordered graph) (hf : Record.Relocates f graph start)
    {first second : Writer} (h : Mirrors f graph first second) {record : Record}
    (hrecord : record ∈ graph) (entry : Entry) :
    (second.append (f record).node entry).1 = (first.append record.node entry).1 ∧
      Mirrors f graph (first.append record.node entry).2
        (second.append (f record).node entry).2 := by
  have hid : UInt32.ofNat second.entries.size = UInt32.ofNat first.entries.size := by
    rw [h.entries_eq]
  refine ⟨hid, ?_, fun other hother => ?_⟩
  · simp only [Writer.append, h.entries_eq]
  · simp only [Writer.append, hid, Std.HashMap.getElem?_insert, beq_iff_eq]
    by_cases hnode : record.node = other.node
    · rw [if_pos hnode, if_pos ((hf.node_eq_iff hgraph hrecord hother).2 hnode)]
    · rw [if_neg hnode, if_neg fun h => hnode ((hf.node_eq_iff hgraph hrecord hother).1 h),
        h.ids_eq other hother]

theorem Mirrors.internPieces {first second : Writer} (h : Mirrors f graph first second)
    {pieces : List (Piece Record)} (hpieces : ∀ piece ∈ pieces, InternsAlike f graph piece.source) :
    (second.internPieces (pieces.map (Piece.map f))).1 = (first.internPieces pieces).1 ∧
      Mirrors f graph (first.internPieces pieces).2
        (second.internPieces (pieces.map (Piece.map f))).2 := by
  induction pieces generalizing first second with
  | nil => exact ⟨rfl, h⟩
  | cons piece rest ih =>
    obtain ⟨hpiece, hrest⟩ := List.forall_mem_cons.1 hpieces
    obtain ⟨hid, hnext⟩ := hpiece h
    obtain ⟨hflat, hlast⟩ := ih hnext hrest
    simp only [List.map_cons, Piece.map, Writer.internPieces, hid] at hflat hlast ⊢
    exact ⟨congrArg _ hflat, hlast⟩

theorem Mirrors.internLink {first second : Writer} (h : Mirrors f graph first second)
    {link : Link Record} (hrefs : ∀ child ∈ link.refs, InternsAlike f graph child) :
    (second.internLink (link.map f)).1 = (first.internLink link).1 ∧
      Mirrors f graph (first.internLink link).2 (second.internLink (link.map f)).2 := by
  cases link with
  | leaf file => exact ⟨rfl, h⟩
  | substring parent offset =>
    obtain ⟨hid, hnext⟩ := hrefs parent (by simp [Link.refs]) h
    exact ⟨congrArg (Link.substring · offset) hid, hnext⟩
  | concat pieces =>
    obtain ⟨hflat, hnext⟩ := h.internPieces fun piece hpiece =>
      hrefs piece.source (List.mem_map_of_mem hpiece)
    exact ⟨congrArg Link.concat hflat, hnext⟩
  | transformed parent mapping =>
    obtain ⟨hid, hnext⟩ := hrefs parent (by simp [Link.refs]) h
    exact ⟨congrArg (Link.transformed · mapping) hid, hnext⟩

theorem internsAlike (hgraph : Record.Ordered graph) (hf : Record.Relocates f graph start)
    {record : Record} (hrecord : record ∈ graph) : InternsAlike f graph record := by
  intro first second h
  have hids := h.ids_eq record hrecord
  cases hknown : first.ids[record.node]? with
  | some id =>
    rw [intern_of_known hknown, intern_of_known (hids.trans hknown)]
    exact ⟨rfl, h⟩
  | none =>
    have hchildren : ∀ child ∈ record.link.refs, InternsAlike f graph child :=
      fun child hchild => internsAlike hgraph hf (hgraph.mem_of_mem_refs hrecord hchild)
    obtain ⟨hflat, hnext⟩ := h.internLink hchildren
    have hrange : (f record).range = record.range := (hf.copy hgraph hrecord).range_eq
    have hlink : (f record).link = record.link.map f := by
      rw [hf record hrecord, Record.link]
    rw [intern_of_unknown hknown, intern_of_unknown (hids.trans hknown), hrange, hlink, hflat]
    exact hnext.append hgraph hf hrecord _
termination_by record.height
decreasing_by exact Record.height_lt_of_mem_refs hchild

theorem Mirrors.internAll (hgraph : Record.Ordered graph) (hf : Record.Relocates f graph start)
    {first second : Writer} (h : Mirrors f graph first second) {roots : List Record}
    (hroots : roots ⊆ graph) :
    (second.internAll (roots.map f)).1 = (first.internAll roots).1 ∧
      Mirrors f graph (first.internAll roots).2 (second.internAll (roots.map f)).2 := by
  induction roots generalizing first second with
  | nil => exact ⟨rfl, h⟩
  | cons root rest ih =>
    obtain ⟨hroot, hrest⟩ := List.cons_subset.1 hroots
    obtain ⟨hid, hnext⟩ := internsAlike hgraph hf hroot h
    obtain ⟨hids, hlast⟩ := ih hnext hrest
    simp only [List.map_cons, Writer.internAll]
    exact ⟨congrArg₂ List.cons hid hids, hlast⟩

end Relocated

end Writer

namespace Pool

theorem encode_map {f : Record → Record} {graph roots : List Record} {start : Nat}
    (hgraph : Record.Ordered graph) (hf : Record.Relocates f graph start)
    (hroots : roots ⊆ graph) : encode (roots.map f) = encode roots := by
  obtain ⟨hids, hwritten⟩ := (Writer.mirrors_empty f graph).internAll hgraph hf hroots
  exact Prod.ext hwritten.entries_eq hids

/-- The records that are rebuilt at the ids of the roots have the pool and the ids of the roots
again. -/
theorem encode_rebuilt_roots {made roots : List Record} (hmade : Record.Made made)
    (hroots : roots ⊆ made) (supply : NodeSupply)
    (hvalid : ∀ root ∈ roots, ∀ record ∈ root.subrecords, ∀ file,
      record.link = .leaf file → record.range.Valid)
    (hcount : (Record.reachableNodes roots).length < UInt32.size) :
    ∃ records supply' copies, (encode roots).1.decode none supply = .ok (records, supply') ∧
      (encode roots).2.map (fun id => records[id.toNat]?) = copies.map some ∧
      encode copies = encode roots := by
  have hfiles : ∀ root ∈ roots, ∀ record ∈ root.subrecords, FilesKnown none record.link := by
    simp [FilesKnown]
  obtain ⟨sources, hordered, hmem, hlength, hencode, hfault⟩ :=
    encode_made hmade hroots hvalid hfiles hcount
  have hlt : sources.length < UInt32.size := by omega
  have hsources : roots ⊆ sources := fun root hroot =>
    (hmem root).2 ⟨root, hroot, Record.mem_subrecords.2 (.inl rfl)⟩
  obtain ⟨records, hdecode, hcount', hrebuilt⟩ := decode_of_fault?_eq_none supply hfault
  have hsize : records.size = sources.length := by
    rw [hcount', List.size_toArray, List.length_map]
  have hreloc := hrebuilt.relocates hordered hlt hsize
  have hwritten := encode_map hordered hreloc hsources
  rw [hencode] at hwritten ⊢
  refine ⟨records, _, roots.map (recordAt records ∘ Record.idIn sources), hdecode, ?_, hwritten⟩
  rw [List.map_map, List.map_map]
  exact List.map_congr_left fun root hroot => getElem?_idIn hlt hsize (hsources hroot)

theorem encode_rebuilt_roots_doubled :
    ∃ records supply' copies,
      (encode Doubled.roots).1.decode none ⟨9⟩ = .ok (records, supply') ∧
      (encode Doubled.roots).2.map (fun id => records[id.toNat]?) = copies.map some ∧
      encode copies = encode Doubled.roots :=
  have hvalid : ∀ root ∈ Doubled.roots, ∀ record ∈ root.subrecords, ∀ file,
      record.link = .leaf file → record.range.Valid := by
    intro root hroot record hrecord file hfile
    rw [Doubled.leaf_line hroot hrecord hfile]
    decide
  have hcount : (Record.reachableNodes Doubled.roots).length < UInt32.size := by
    decide +kernel
  encode_rebuilt_roots Doubled.made Doubled.roots_subset ⟨9⟩ hvalid hcount

end Pool

end TextOrigin

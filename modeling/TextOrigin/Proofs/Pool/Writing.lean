import TextOrigin.Pool.Writer
import TextOrigin.Proofs.Record.Graph

/-!
What a writer holds. At every moment its entries are those of some records in order, each after
everything that it refers to, and its index knows exactly the nodes of these records. Interning a
record appends what is missing below it and then the record itself.
-/

namespace TextOrigin

def Record.idIn (records : List Record) (record : Record) : EntryId :=
  UInt32.ofNat (record.position records)

theorem Record.idIn_append {records : List Record} {record : Record} (h : record ∈ records)
    (more : List Record) : idIn (records ++ more) record = idIn records record := by
  rw [idIn, position_append h, idIn]

theorem Record.toNat_idIn {records : List Record} (hlt : records.length < UInt32.size)
    {record : Record} (h : record ∈ records) :
    (idIn records record).toNat = record.position records :=
  UInt32.toNat_ofNat_of_lt' (Nat.lt_trans (position_lt h) hlt)

def Entry.ofRecord (records : List Record) (record : Record) : Entry :=
  ofLink record.range (record.link.map (Record.idIn records))

theorem Entry.ofRecord_append {records : List Record} {record : Record}
    (h : ∀ child ∈ record.link.refs, child ∈ records) (more : List Record) :
    ofRecord (records ++ more) record = ofRecord records record :=
  congrArg _ (Link.map_congr fun child hchild => Record.idIn_append (h child hchild) more)

namespace Writer

theorem intern_of_known {writer : Writer} {record : Record} {id : EntryId}
    (h : writer.ids[record.node]? = some id) : writer.intern record = (id, writer) := by
  obtain ⟨node, range, link⟩ := record
  rw [intern]
  simp only [Record.node] at h
  rw [h]

theorem intern_of_unknown {writer : Writer} {record : Record}
    (h : writer.ids[record.node]? = none) :
    writer.intern record = (writer.internLink record.link).2.append record.node
      (Entry.ofLink record.range (writer.internLink record.link).1) := by
  obtain ⟨node, range, link⟩ := record
  rw [intern]
  simp only [Record.node] at h
  rw [h]
  rfl

structure Holds (writer : Writer) (records : List Record) : Prop where
  ordered : Record.Ordered records
  entries : writer.entries.toList = records.map (Entry.ofRecord records)
  known : ∀ record ∈ records, writer.ids[record.node]? = some (Record.idIn records record)
  unknown : ∀ node, (∀ record ∈ records, record.node ≠ node) → writer.ids[node]? = none

theorem holds_empty : empty.Holds [] where
  ordered := .nil
  entries := rfl
  known := by simp
  unknown := by simp [empty]

theorem Holds.append {writer : Writer} {records : List Record} (h : writer.Holds records)
    {record : Record} (hrefs : ∀ child ∈ record.link.refs, child ∈ records)
    (hfresh : ∀ other ∈ records, other.node ≠ record.node) :
    (writer.append record.node (Entry.ofRecord records record)).1 =
        Record.idIn (records ++ [record]) record ∧
      (writer.append record.node (Entry.ofRecord records record)).2.Holds
        (records ++ [record]) := by
  have hsize : writer.entries.size = records.length := by
    rw [← Array.length_toList, h.entries, List.length_map]
  have hid : UInt32.ofNat writer.entries.size = Record.idIn (records ++ [record]) record := by
    rw [Record.idIn, Record.position_snoc hfresh, hsize]
  refine ⟨hid, h.ordered.snoc hrefs hfresh, ?_, ?_, ?_⟩
  · rw [Writer.append, Array.toList_push, h.entries, List.map_append, List.map_singleton,
      Entry.ofRecord_append hrefs]
    congr 1
    refine List.map_congr_left fun other hother => ?_
    rw [Entry.ofRecord_append fun child hchild => h.ordered.mem_of_mem_refs hother hchild]
  · intro other hother
    rw [Writer.append, Std.HashMap.getElem?_insert]
    rcases List.mem_append.1 hother with hother | hother
    · rw [if_neg (by simpa using (hfresh other hother).symm), h.known other hother,
        Record.idIn_append hother]
    · rw [List.mem_singleton.1 hother, if_pos (beq_self_eq_true _), ← hid]
  · intro node hnode
    have hlast := hnode record (by simp)
    rw [Writer.append, Std.HashMap.getElem?_insert, if_neg (by simpa using hlast)]
    exact h.unknown node fun other hother => hnode other (List.mem_append_left _ hother)

theorem Holds.internPieces {writer : Writer} {records : List Record} (h : writer.Holds records)
    {pieces : List (Piece Record)} (hrefs : ∀ piece ∈ pieces, piece.source ∈ records) :
    writer.internPieces pieces = (pieces.map (Piece.map (Record.idIn records)), writer) := by
  induction pieces with
  | nil => rfl
  | cons piece rest ih =>
    obtain ⟨hmem, hrest⟩ := List.forall_mem_cons.1 hrefs
    rw [Writer.internPieces, intern_of_known (h.known piece.source hmem)]
    simp only [ih hrest]
    rfl

theorem Holds.internLink {writer : Writer} {records : List Record} (h : writer.Holds records)
    {link : Link Record} (hrefs : ∀ child ∈ link.refs, child ∈ records) :
    writer.internLink link = (link.map (Record.idIn records), writer) := by
  cases link with
  | leaf file => rfl
  | substring parent offset =>
    rw [Writer.internLink, intern_of_known (h.known parent (hrefs parent (by simp [Link.refs])))]
    rfl
  | concat pieces =>
    rw [Writer.internLink,
      h.internPieces fun piece hpiece => hrefs piece.source (List.mem_map_of_mem hpiece)]
    rfl
  | transformed parent mapping =>
    rw [Writer.internLink, intern_of_known (h.known parent (hrefs parent (by simp [Link.refs])))]
    rfl

theorem Holds.intern {writer : Writer} {records : List Record} (h : writer.Holds records)
    {record : Record} (hrefs : ∀ child ∈ record.link.refs, child ∈ records)
    (hfresh : ∀ other ∈ records, other.node ≠ record.node) :
    (writer.intern record).1 = Record.idIn (records ++ [record]) record ∧
      (writer.intern record).2.Holds (records ++ [record]) := by
  rw [intern_of_unknown (h.unknown record.node hfresh), h.internLink hrefs]
  exact h.append hrefs hfresh

/-- The writer holds `more` records than before: those that `targets` need, these included. -/
structure Adds (writer : Writer) (records targets more : List Record) : Prop where
  holds : writer.Holds (records ++ more)
  targets_mem : ∀ target ∈ targets, target ∈ records ++ more
  needed : ∀ record ∈ more, ∃ target ∈ targets, record ∈ target.subrecords

theorem Adds.subset {writer : Writer} {graph records targets more : List Record}
    (h : writer.Adds records targets more) (hgraph : Record.Ordered graph)
    (hrecords : records ⊆ graph) (htargets : targets ⊆ graph) : records ++ more ⊆ graph := by
  intro record hmem
  rcases List.mem_append.1 hmem with hmem | hmem
  · exact hrecords hmem
  · obtain ⟨target, htarget, hrecord⟩ := h.needed record hmem
    exact hgraph.subrecords_subset (htargets htarget) hrecord

theorem Adds.trans {first second : Writer} {records targets targets' more more' : List Record}
    (h : first.Adds records targets more) (h' : second.Adds (records ++ more) targets' more') :
    second.Adds records (targets ++ targets') (more ++ more') where
  holds := by
    rw [← List.append_assoc]
    exact h'.holds
  targets_mem target htarget := by
    rw [← List.append_assoc]
    rcases List.mem_append.1 htarget with htarget | htarget
    · exact List.mem_append_left _ (h.targets_mem target htarget)
    · exact h'.targets_mem target htarget
  needed record hrecord := by
    rcases List.mem_append.1 hrecord with hrecord | hrecord
    · obtain ⟨target, htarget, hsub⟩ := h.needed record hrecord
      exact ⟨target, List.mem_append_left _ htarget, hsub⟩
    · obtain ⟨target, htarget, hsub⟩ := h'.needed record hrecord
      exact ⟨target, List.mem_append_right _ htarget, hsub⟩

theorem Adds.mem_iff {writer : Writer} {records targets more roots : List Record}
    (h : writer.Adds records targets more)
    (hmem : ∀ record, record ∈ records ↔ ∃ root ∈ roots, record ∈ root.subrecords)
    (record : Record) :
    record ∈ records ++ more ↔ ∃ root ∈ roots ++ targets, record ∈ root.subrecords := by
  constructor
  · intro hrecord
    rcases List.mem_append.1 hrecord with hold | hnew
    · obtain ⟨root, hroot, hsub⟩ := (hmem record).1 hold
      exact ⟨root, List.mem_append_left _ hroot, hsub⟩
    · obtain ⟨target, htarget, hsub⟩ := h.needed record hnew
      exact ⟨target, List.mem_append_right _ htarget, hsub⟩
  · rintro ⟨root, hroot, hsub⟩
    rcases List.mem_append.1 hroot with hroot | htarget
    · exact List.mem_append_left _ ((hmem record).2 ⟨root, hroot, hsub⟩)
    · exact h.holds.ordered.subrecords_subset (h.targets_mem root htarget) hsub

/-- Interning the record, with any records of the graph written before, adds what it needs and
gives its id. -/
def Interns (graph : List Record) (record : Record) : Prop :=
  ∀ {writer : Writer} {records : List Record}, writer.Holds records → records ⊆ graph →
    ∃ more, (writer.intern record).2.Adds records [record] more ∧
      (writer.intern record).1 = Record.idIn (records ++ more) record

section Graph

variable {graph : List Record} (hgraph : Record.Ordered graph)

include hgraph

theorem internPieces_adds {writer : Writer} {records : List Record} (h : writer.Holds records)
    (hrecords : records ⊆ graph) {pieces : List (Piece Record)}
    (hrefs : ∀ piece ∈ pieces, piece.source ∈ graph ∧ Interns graph piece.source) :
    ∃ more, (writer.internPieces pieces).2.Adds records (pieces.map (·.source)) more ∧
      (writer.internPieces pieces).1 = pieces.map (Piece.map (Record.idIn (records ++ more))) := by
  induction pieces generalizing writer records with
  | nil => exact ⟨[], ⟨by rwa [List.append_nil], by simp, by simp⟩, rfl⟩
  | cons piece rest ih =>
    obtain ⟨⟨hmem, hsource⟩, hrest⟩ := List.forall_mem_cons.1 hrefs
    obtain ⟨more, hadds, hid⟩ := hsource h hrecords
    have hrecords' := hadds.subset hgraph hrecords (by simpa using hmem)
    obtain ⟨more', hadds', hflat⟩ := ih hadds.holds hrecords' hrest
    refine ⟨more ++ more', hadds.trans hadds', ?_⟩
    rw [← List.append_assoc, List.map_cons, ← hflat, Piece.map,
      Record.idIn_append (hadds.targets_mem piece.source (by simp)), ← hid]
    rfl

theorem internLink_adds {writer : Writer} {records : List Record} (h : writer.Holds records)
    (hrecords : records ⊆ graph) {link : Link Record}
    (hrefs : ∀ child ∈ link.refs, child ∈ graph ∧ Interns graph child) :
    ∃ more, (writer.internLink link).2.Adds records link.refs more ∧
      (writer.internLink link).1 = link.map (Record.idIn (records ++ more)) := by
  cases link with
  | leaf file => exact ⟨[], ⟨by rwa [List.append_nil], by simp [Link.refs], by simp⟩, rfl⟩
  | substring parent offset =>
    obtain ⟨more, hadds, hid⟩ := (hrefs parent (by simp [Link.refs])).2 h hrecords
    exact ⟨more, hadds, congrArg (Link.substring · offset) hid⟩
  | concat pieces =>
    obtain ⟨more, hadds, hflat⟩ := internPieces_adds hgraph h hrecords
      fun piece hpiece => hrefs piece.source (List.mem_map_of_mem hpiece)
    exact ⟨more, hadds, congrArg Link.concat hflat⟩
  | transformed parent mapping =>
    obtain ⟨more, hadds, hid⟩ := (hrefs parent (by simp [Link.refs])).2 h hrecords
    exact ⟨more, hadds, congrArg (Link.transformed · mapping) hid⟩

theorem node_ne_of_needed {record child other : Record} (hrecord : record ∈ graph)
    (hchild : child ∈ record.link.refs) (hother : other ∈ child.subrecords) :
    other.node ≠ record.node := by
  intro hnode
  have hmem := hgraph.subrecords_subset (hgraph.mem_of_mem_refs hrecord hchild) hother
  have hsame := hgraph.eq_of_node_eq hmem hrecord hnode
  have hle := Record.height_le_of_mem_subrecords hother
  have hlt := Record.height_lt_of_mem_refs hchild
  rw [hsame] at hle
  omega

theorem intern_adds {record : Record} (hrecord : record ∈ graph) : Interns graph record := by
  intro writer records h hrecords
  by_cases hmem : record ∈ records
  · rw [intern_of_known (h.known record hmem)]
    refine ⟨[], ⟨?_, by simpa using hmem, by simp⟩, ?_⟩ <;> rw [List.append_nil]
    exact h
  · have hfresh : ∀ other ∈ records, other.node ≠ record.node := fun other hother hnode =>
      hmem (hgraph.eq_of_node_eq (hrecords hother) hrecord hnode ▸ hother)
    have hchildren : ∀ child ∈ record.link.refs, child ∈ graph ∧ Interns graph child :=
      fun child hchild =>
        have hmem := hgraph.mem_of_mem_refs hrecord hchild
        ⟨hmem, intern_adds hmem⟩
    obtain ⟨more, hadds, hlink⟩ := internLink_adds hgraph h hrecords hchildren
    have hfresh' : ∀ other ∈ records ++ more, other.node ≠ record.node := by
      intro other hother
      rcases List.mem_append.1 hother with hold | hnew
      · exact hfresh other hold
      · obtain ⟨child, hchild, hsub⟩ := hadds.needed other hnew
        exact node_ne_of_needed hgraph hrecord hchild hsub
    obtain ⟨hid, hholds⟩ := hadds.holds.append hadds.targets_mem hfresh'
    rw [intern_of_unknown (h.unknown record.node hfresh), hlink]
    rw [List.append_assoc] at hid hholds
    refine ⟨more ++ [record], ⟨hholds, by simp, ?_⟩, hid⟩
    intro other hother
    refine ⟨record, by simp, Record.mem_subrecords.2 ?_⟩
    rcases List.mem_append.1 hother with hother | hother
    · exact .inr (hadds.needed other hother)
    · exact .inl (List.mem_singleton.1 hother)
termination_by record.height
decreasing_by exact Record.height_lt_of_mem_refs hchild

theorem internAll_adds {writer : Writer} {records : List Record} (h : writer.Holds records)
    (hrecords : records ⊆ graph) {roots : List Record} (hroots : roots ⊆ graph) :
    ∃ more, (writer.internAll roots).2.Adds records roots more ∧
      (writer.internAll roots).1 = roots.map (Record.idIn (records ++ more)) := by
  induction roots generalizing writer records with
  | nil => exact ⟨[], ⟨by rwa [List.append_nil], by simp, by simp⟩, rfl⟩
  | cons root rest ih =>
    obtain ⟨hroot, hrest⟩ := List.cons_subset.1 hroots
    obtain ⟨more, hadds, hid⟩ := intern_adds hgraph hroot h hrecords
    have hrecords' := hadds.subset hgraph hrecords (by simpa using hroot)
    obtain ⟨more', hadds', hids⟩ := ih hadds.holds hrecords' hrest
    refine ⟨more ++ more', hadds.trans hadds', ?_⟩
    rw [← List.append_assoc, List.map_cons, ← hids,
      Record.idIn_append (hadds.targets_mem root (by simp)), ← hid]
    rfl

end Graph

theorem internAll_snoc (writer : Writer) (roots : List Record) (root : Record) :
    writer.internAll (roots ++ [root]) =
      ((writer.internAll roots).1 ++ [((writer.internAll roots).2.intern root).1],
        ((writer.internAll roots).2.intern root).2) := by
  induction roots generalizing writer with
  | nil => rfl
  | cons first rest ih =>
    simp only [List.cons_append, internAll, ih]

theorem internAll_ordered {records : List Record} (h : Record.Ordered records) :
    (empty.internAll records).2.Holds records ∧
      (empty.internAll records).1 = records.map (Record.idIn records) := by
  induction h with
  | nil => exact ⟨holds_empty, rfl⟩
  | @snoc records record h hrefs hfresh ih =>
    obtain ⟨hholds, hids⟩ := ih
    obtain ⟨hid, hnext⟩ := hholds.intern hrefs hfresh
    have hold : records.map (Record.idIn (records ++ [record])) =
        records.map (Record.idIn records) :=
      List.map_congr_left fun other hother => Record.idIn_append hother [record]
    rw [internAll_snoc, List.map_append, List.map_singleton, hold, ← hids, ← hid]
    exact ⟨hnext, rfl⟩

end Writer

/-- A pool of roots has an entry for each record that they need, and each after what it refers
to. -/
theorem Pool.encode_eq {graph roots : List Record} (hgraph : Record.Ordered graph)
    (hroots : roots ⊆ graph) :
    ∃ records, Record.Ordered records ∧
      (∀ record, record ∈ records ↔ ∃ root ∈ roots, record ∈ root.subrecords) ∧
      Pool.encode roots =
        ((records.map (Entry.ofRecord records)).toArray, roots.map (Record.idIn records)) := by
  obtain ⟨records, hadds, hids⟩ :=
    Writer.internAll_adds hgraph Writer.holds_empty (List.nil_subset _) hroots
  have hnone : ∀ record : Record,
      record ∈ [] ↔ ∃ root ∈ ([] : List Record), record ∈ root.subrecords := by simp
  have hmem := hadds.mem_iff hnone
  have hholds := hadds.holds
  rw [List.nil_append] at hids hmem hholds
  exact ⟨records, hholds.ordered, hmem, Prod.ext (Array.toList_inj.1 hholds.entries) hids⟩

theorem Pool.encode_ordered {records : List Record} (h : Record.Ordered records) :
    Pool.encode records =
      ((records.map (Entry.ofRecord records)).toArray, records.map (Record.idIn records)) := by
  obtain ⟨hholds, hids⟩ := Writer.internAll_ordered h
  exact Prod.ext (Array.toList_inj.1 hholds.entries) hids

end TextOrigin

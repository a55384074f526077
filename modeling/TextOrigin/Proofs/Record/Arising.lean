import TextOrigin.Proofs.Pool.Rebuilding

/-!
Where records come from. A record arises when a builder makes it out of records that arose before,
or when a pool is rebuilt. Both ways check one set of bounds, so whatever arises keeps them at every
link: slices end inside their parents, pieces lie back to back and inside their sources, and
mappings have no fault.
-/

namespace TextOrigin.Record

/-- Records that builders make, from one another and from what pools are rebuilt to. Nothing is
said of the nodes: two builders may use one node, and what an offset resolves to does not depend on
it. -/
inductive Arises : Record → Prop where
  | built {made : List Record} {node : NodeId} {record : Record}
      (hmade : ∀ other ∈ made, Arises other) (hbuilt : BuiltFrom made node record) : Arises record
  | rebuilt {pool : Pool} {files? : Option Registry} {supply supply' : NodeSupply}
      {records : Array Record} {record : Record}
      (hdecode : pool.decode files? supply = .ok (records, supply'))
      (hmem : record ∈ records.toList) : Arises record

theorem Made.arises {made : List Record} (h : Made made) : ∀ record ∈ made, Arises record := by
  induction h with
  | nil => simp
  | cons h hfresh hbuilt ih => exact List.forall_mem_cons.2 ⟨.built ih hbuilt, ih⟩

namespace Arises

theorem trim {record : Record} (h : record.Arises) (node : NodeId) (text : Text)
    (leading trailing : Bool) : (record.trim node text leading trailing).Arises := by
  rcases BuiltFrom.trim (List.mem_singleton_self record) node text leading trailing with
    hsame | hbuilt
  · rwa [hsame]
  · exact .built (by simpa using h) hbuilt

theorem recover {parent record : Record} (h : parent.Arises) {settings : Settings}
    {node : NodeId} {source target : Text}
    (hbuilt : (Record.recover settings node parent source target).value = .ok record) :
    record.Arises :=
  .built (by simpa using h) (.recover (List.mem_singleton_self parent) hbuilt)

theorem of_mem_refs {record child : Record} (h : record.Arises)
    (hchild : child ∈ record.link.refs) : child.Arises := by
  cases h with
  | built hmade hbuilt => exact hmade child (hbuilt.refs_mem child hchild)
  | rebuilt hdecode hmem =>
    obtain ⟨-, -, hrebuilt⟩ := Pool.rebuilt_of_decode hdecode
    exact .rebuilt hdecode (hrebuilt.ordered.mem_of_mem_refs hmem hchild)

theorem fits {record : Record} (h : record.Arises) :
    record.link.Fits Record.length record.length := by
  cases h with
  | built hmade hbuilt => exact hbuilt.fits
  | rebuilt hdecode hmem =>
    obtain ⟨hfault, -, hrebuilt⟩ := Pool.rebuilt_of_decode hdecode
    exact hrebuilt.fits hfault hmem

theorem valid_range {record : Record} (h : record.Arises)
    (hleaf : ∀ file, record.link = .leaf file → record.range.Valid) : record.range.Valid := by
  cases h with
  | built hmade hbuilt => exact hbuilt.valid_range hleaf
  | rebuilt hdecode hmem =>
    obtain ⟨hfault, -, hrebuilt⟩ := Pool.rebuilt_of_decode hdecode
    exact hrebuilt.valid_range hfault hmem

end Arises

def LeavesValid (record : Record) : Prop :=
  ∀ other ∈ record.subrecords, ∀ file, other.link = .leaf file → other.range.Valid

theorem leavesValid_iff {record : Record} :
    record.LeavesValid ↔
      (∀ file, record.link = .leaf file → record.range.Valid) ∧
        ∀ child ∈ record.link.refs, child.LeavesValid :=
  forall_subrecords

/-- No concatenation below contributes more bytes than a word counts. -/
def TotalsFit (record : Record) : Prop :=
  ∀ other ∈ record.subrecords, ∀ pieces, other.link = .concat pieces →
    Piece.totalLength pieces < UInt64.size

theorem totalsFit_iff {record : Record} :
    record.TotalsFit ↔
      (∀ pieces, record.link = .concat pieces → Piece.totalLength pieces < UInt64.size) ∧
        ∀ child ∈ record.link.refs, child.TotalsFit :=
  forall_subrecords

theorem TotalsFit.of_mem_refs {record child : Record} (h : record.TotalsFit)
    (hchild : child ∈ record.link.refs) : child.TotalsFit :=
  (totalsFit_iff.1 h).2 child hchild

theorem Arises.pieces_ordered {record : Record} (h : record.Arises) (htotals : record.TotalsFit)
    {pieces : List (Piece Record)} (hlink : record.link = .concat pieces) :
    pieces.Pairwise Piece.Precedes := by
  have hfits := h.fits
  rw [hlink] at hfits
  have htotal := (totalsFit_iff.1 htotals).1 pieces hlink
  exact hfits.1.pairwise (by rwa [UInt64.toNat_zero, Nat.zero_add])

end TextOrigin.Record

import TextOrigin.Proofs.Alignment.BlockOrder
import TextOrigin.Proofs.Record.Pieces
import TextOrigin.Record.Recover

/-!
Recovery always makes a record. The blocks that two texts have in common are in order in both and
lie inside them, which is what the rules of mappings ask for. So a text that comes back from outside
gets a record whenever the text that was given out is as long as its own record.
-/

namespace TextOrigin

/-- A mapping whose entries each shift a run of bytes, in order in both texts. -/
structure Mapping.Shifts (mapping : Mapping) : Prop where
  width_eq : ∀ entry ∈ mapping, entry.fromStart ≤ entry.fromStop ∧ entry.toStart ≤ entry.toStop ∧
    entry.fromStop - entry.fromStart = entry.toStop - entry.toStart
  from_ordered : mapping.Pairwise fun entry next => entry.fromStop ≤ next.fromStart
  to_ordered : mapping.Pairwise fun entry next => entry.toStop ≤ next.toStart

namespace Block.InOrder

variable {i j n m : Nat} {blocks : List Block}

theorem faultFrom?_ofBlock (h : InOrder i j blocks n m) {sourceLength targetLength previous : Word}
    (hn : n ≤ sourceLength.toNat) (hm : m ≤ targetLength.toNat) (hj : previous.toNat ≤ j)
    (index : Nat) :
    Mapping.faultFrom? sourceLength targetLength previous index
      (blocks.map MapEntry.ofBlock) = none := by
  induction blocks generalizing i j previous index with
  | nil => rfl
  | cons block rest ih =>
    obtain ⟨-, htarget, hrest⟩ := h
    have hstop := hrest.le
    have hsourceSize := sourceLength.toNat_lt_size
    have htargetSize := targetLength.toNat_lt_size
    have hsource : block.sourceStart + block.length < UInt64.size := by omega
    obtain ⟨hfromStart, hfromStop, htoStart, htoStop⟩ :=
      MapEntry.toNat_ofBlock hsource (by omega)
    have hfault : (MapEntry.ofBlock block).fault? sourceLength targetLength previous = none := by
      rw [MapEntry.fault?, if_neg, if_neg, if_neg, if_neg]
      all_goals
        simp only [UInt64.lt_iff_toNat_lt]
        omega
    rw [List.map_cons, Mapping.faultFrom?, hfault]
    exact ih hrest (by omega) (index + 1)

theorem shifts_ofBlock (h : InOrder i j blocks n m) (hn : n < UInt64.size)
    (hm : m < UInt64.size) : Mapping.Shifts (blocks.map MapEntry.ofBlock) := by
  have hbounds := fun (block : Block) (hblock : block ∈ blocks) =>
    have hstop := h.stop_le hblock
    And.intro (Nat.lt_of_le_of_lt hstop.1 hn) (Nat.lt_of_le_of_lt hstop.2 hm)
  have hnat := fun (block : Block) (hblock : block ∈ blocks) =>
    MapEntry.toNat_ofBlock (hbounds block hblock).1 (hbounds block hblock).2
  refine ⟨fun entry hentry => ?_, ?_, ?_⟩
  · obtain ⟨block, hblock, rfl⟩ := List.mem_map.1 hentry
    exact MapEntry.width_ofBlock (hbounds block hblock).1 (hbounds block hblock).2
  · refine List.pairwise_map.2 (h.pairwise.imp_of_mem fun {block next} hblock hnext hbefore => ?_)
    have hle := hbefore.source_le
    rw [UInt64.le_iff_toNat_le, (hnat block hblock).2.1, (hnat next hnext).1]
    exact hle
  · refine List.pairwise_map.2 (h.pairwise.imp_of_mem fun {block next} hblock hnext hbefore => ?_)
    have hle := hbefore.target_le
    rw [UInt64.le_iff_toNat_le, (hnat block hblock).2.2.2, (hnat next hnext).2.2.1]
    exact hle

end Block.InOrder

/-- Any two texts have common blocks in order, under any settings. A text given out with a record of
its length, and one that came back for it, therefore always make a record, as long as the latter and
with an entry for each of the blocks. -/
theorem Record.recover_wellFormed (settings : Settings) :
    (∀ source target : Bytes, ∃ blocks, (commonBlocks settings source target).value = .ok blocks ∧
      Block.WellFormed source target blocks) ∧
    ∀ (node : NodeId) (parent : Record) (source target : Text), source.size = parent.length →
      ∃ blocks record, (commonBlocks settings source.bytes target.bytes).value = .ok blocks ∧
        (recover settings node parent source target).value = .ok record ∧
        record.length = target.size ∧
        record.link = .transformed parent (blocks.map MapEntry.ofBlock) ∧
        Mapping.Shifts (blocks.map MapEntry.ofBlock) := by
  refine ⟨exists_commonBlocks_wellFormed settings, fun node parent source target hsize => ?_⟩
  obtain ⟨blocks, hblocks, hformed⟩ :=
    exists_commonBlocks_wellFormed settings source.bytes target.bytes
  have hfault : Mapping.firstFault? (blocks.map MapEntry.ofBlock) parent.length target.size =
      none := by
    rw [← hsize]
    exact hformed.ordered.faultFrom?_ofBlock (Nat.le_of_eq source.toNat_size.symm)
      (Nat.le_of_eq target.toNat_size.symm) (Nat.le_of_eq UInt64.toNat_zero) 0
  refine ⟨blocks, mk node (Range.ofLength target.size)
    (.transformed parent (blocks.map MapEntry.ofBlock)), hblocks, ?_, length_mk_ofLength .., rfl,
    hformed.ordered.shifts_ofBlock source.length_lt target.length_lt⟩
  rw [recover, if_neg (fun hne => hne hsize), Traced.value_bind, hblocks, Traced.value_pure]
  exact transformed_eq_ok_iff.2 ⟨hfault, rfl⟩

/-! Two separators replaced under a limit of one edit, which leaves the common ends. -/

namespace Separators

def source : Text := ⟨ascii "a-b-c", by decide⟩

def target : Text := ⟨ascii "a+b+c", by decide⟩

def line : Record := Record.leaf ⟨0⟩ ⟨0⟩ ⟨Position.zero, ⟨5, 0, 5⟩⟩

end Separators

theorem Record.recover_wellFormed_separators :
    Separators.source.size = Separators.line.length ∧
      ∃ record, (recover { editLimit := 1 } ⟨1⟩ Separators.line Separators.source
          Separators.target).value = .ok record ∧ record.length = 5 ∧
        record.link = .transformed Separators.line [⟨0, 1, 0, 1⟩, ⟨4, 5, 4, 5⟩] ∧
        Mapping.Shifts [⟨0, 1, 0, 1⟩, ⟨4, 5, 4, 5⟩] := by
  have hsize : Separators.source.size = Separators.line.length := by decide
  have hvalue : (commonBlocks { editLimit := 1 } Separators.source.bytes
      Separators.target.bytes).value = .ok [⟨0, 0, 1⟩, ⟨4, 4, 1⟩] := by
    with_unfolding_all rfl
  obtain ⟨blocks, record, hblocks, hrecord, hlength, hlink, hshifts⟩ :=
    (recover_wellFormed { editLimit := 1 }).2 ⟨1⟩ Separators.line Separators.source
      Separators.target hsize
  obtain rfl : [⟨0, 0, 1⟩, ⟨4, 4, 1⟩] = blocks := Except.ok.inj (hvalue.symm.trans hblocks)
  exact ⟨hsize, record, hrecord, hlength, hlink, hshifts⟩

end TextOrigin

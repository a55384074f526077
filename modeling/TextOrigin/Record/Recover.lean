import TextOrigin.Alignment
import TextOrigin.Record.Build
import TextOrigin.Text

/-!
Recovery of the provenance of a text that came back from outside. Runs of bytes that the text shares
with the one that was given out map to their places there. All other bytes were inserted and stay
unmapped.
-/

namespace TextOrigin

def MapEntry.ofBlock (block : Block) : MapEntry where
  fromStart := UInt64.ofNat block.sourceStart
  fromStop := UInt64.ofNat (block.sourceStart + block.length)
  toStart := UInt64.ofNat block.targetStart
  toStop := UInt64.ofNat (block.targetStart + block.length)

theorem MapEntry.toNat_ofBlock {block : Block}
    (hsource : block.sourceStart + block.length < UInt64.size)
    (htarget : block.targetStart + block.length < UInt64.size) :
    (ofBlock block).fromStart.toNat = block.sourceStart ∧
      (ofBlock block).fromStop.toNat = block.sourceStart + block.length ∧
      (ofBlock block).toStart.toNat = block.targetStart ∧
      (ofBlock block).toStop.toNat = block.targetStart + block.length :=
  ⟨UInt64.toNat_ofNat_of_lt' (by omega), UInt64.toNat_ofNat_of_lt' hsource,
    UInt64.toNat_ofNat_of_lt' (by omega), UInt64.toNat_ofNat_of_lt' htarget⟩

theorem MapEntry.width_ofBlock {block : Block}
    (hsource : block.sourceStart + block.length < UInt64.size)
    (htarget : block.targetStart + block.length < UInt64.size) :
    (ofBlock block).fromStart ≤ (ofBlock block).fromStop ∧
      (ofBlock block).toStart ≤ (ofBlock block).toStop ∧
      (ofBlock block).fromStop - (ofBlock block).fromStart =
        (ofBlock block).toStop - (ofBlock block).toStart := by
  obtain ⟨hfromStart, hfromStop, htoStart, htoStop⟩ := toNat_ofBlock hsource htarget
  have hfrom : (ofBlock block).fromStart ≤ (ofBlock block).fromStop := by
    rw [UInt64.le_iff_toNat_le]
    omega
  have hto : (ofBlock block).toStart ≤ (ofBlock block).toStop := by
    rw [UInt64.le_iff_toNat_le]
    omega
  refine ⟨hfrom, hto, ?_⟩
  rw [← UInt64.toNat_inj, UInt64.toNat_sub_of_le _ _ hfrom, UInt64.toNat_sub_of_le _ _ hto]
  omega

/-- The record of `target`, made from the text `source` of a parent. -/
def Record.recover (settings : Settings) (node : NodeId) (parent : Record)
    (source target : Text) : Traced (Except BuildError Record) :=
  if source.size ≠ parent.length then
    pure (.error (.textLength source.size parent.length))
  else do
    match ← commonBlocks settings source.bytes target.bytes with
    | .error fault => return .error (.alignment fault)
    | .ok blocks =>
      return Record.transformed node parent (blocks.map MapEntry.ofBlock) target.size

end TextOrigin

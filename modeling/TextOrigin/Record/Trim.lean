import TextOrigin.Record.Build
import TextOrigin.Text

/-!
Trimming a record to the part of its text without blank ends. A record with nothing to trim stays
the same node.
-/

namespace TextOrigin.Record

/-- The record of `text` without leading or trailing blanks, as the flags ask. A text that is not
as long as the record changes nothing. -/
def trim (node : NodeId) (record : Record) (text : Text) (leading trailing : Bool) : Record :=
  if text.size ≠ record.length then record
  else
    let start := if leading then Bytes.leadingBlanks text.bytes else 0
    let dropped := if trailing then Bytes.trailingBlanks (text.bytes.drop start) else 0
    if start = 0 ∧ dropped = 0 then record
    else
      match record.substring node (UInt64.ofNat start)
        (UInt64.ofNat (text.bytes.length - dropped)) with
      | .ok slice => slice
      | .error _ => record

end TextOrigin.Record

import TextOrigin.Diagnostic.Journal
import TextOrigin.Pool.Decode
import TextOrigin.Pool.Parser
import TextOrigin.Pool.Writer
import TextOrigin.Proofs.Alignment.Minimal
import TextOrigin.Proofs.Pool.RoundTrip
import TextOrigin.Proofs.Record.Copy
import TextOrigin.Proofs.Record.Faithful
import TextOrigin.Record.Recover
import TextOrigin.Record.Trim
import TextOrigin.Resolution
import TextOrigin.Proofs.Record.Origins
import TextOrigin.Proofs.Bytes.Numeral
import TextOrigin.Proofs.Pool.Reencoding
import TextOrigin.Proofs.Pool.Grammar
import TextOrigin.Proofs.Pool.Reading
import TextOrigin.Proofs.Pool.TextForm
import TextOrigin.Proofs.Record.Arising
import TextOrigin.Proofs.Record.SearchChoice
import TextOrigin.Proofs.Record.Closest
import TextOrigin.Proofs.Pool.Admission
import TextOrigin.Proofs.Pool.Session
import TextOrigin.Proofs.Alignment.EditLimit
import TextOrigin.Proofs.Alignment.BlockOrder
import TextOrigin.Proofs.Record.Recovery
import TextOrigin.Proofs.Record.PastEnd
import TextOrigin.Proofs.Record.RangeEnds
import TextOrigin.Proofs.Record.Modes
import TextOrigin.Proofs.Record.Ranges
import TextOrigin.Proofs.Record.OpenEnds
import TextOrigin.Proofs.Record.Proportion
import TextOrigin.Proofs.Pool.Totals
import TextOrigin.Proofs.Pool.LocalRanges
import TextOrigin.Proofs.LineTable.Rows
import TextOrigin.Proofs.LineTable.Newlines
import TextOrigin.Proofs.LineTable.Realised
import TextOrigin.Proofs.Registry.Runs
import TextOrigin.Proofs.Registry.Contentless
import TextOrigin.Proofs.LineTable.Lines
import TextOrigin.Proofs.Registry.Lines
import TextOrigin.Proofs.Registry.DisplayColumns
import TextOrigin.Proofs.Diagnostic.Snippet
import TextOrigin.Proofs.Pool.FaultyLine
import TextOrigin.Proofs.Record.Interpolation
import TextOrigin.Proofs.Record.Trimming
import TextOrigin.Proofs.Record.CheckedStep
import TextOrigin.Proofs.Record.Bounds

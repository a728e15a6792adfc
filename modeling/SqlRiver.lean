import SqlRiver.Main
import SqlRiver.Layout.RoundTrip
import SqlRiver.Query.Edit
import SqlRiver.Proofs.Text.Blank
import SqlRiver.Proofs.Bracket
import SqlRiver.Proofs.Keyword.Absence
import SqlRiver.Proofs.Split
import SqlRiver.Proofs.Reading.Laid
import SqlRiver.Proofs.Reading.Clauses
import SqlRiver.Proofs.Reading.Sources
import SqlRiver.Proofs.Reading.Joins
import SqlRiver.Proofs.Reading.Tokens
import SqlRiver.Proofs.Reading.Order
import SqlRiver.Proofs.Literal.Scan
import SqlRiver.Proofs.Literal.Mask
import SqlRiver.Proofs.Literal.Segments
import SqlRiver.Proofs.Layout.Weave
import SqlRiver.Proofs.Layout.Chunks
import SqlRiver.Proofs.Layout.Pieces
import SqlRiver.Proofs.Reading.Nested
import SqlRiver.Proofs.Literal.Spans
import SqlRiver.Proofs.Literal.Restored
import SqlRiver.Proofs.Literal.Preserved
import SqlRiver.Proofs.Line.Clear
import SqlRiver.Proofs.Keyword.Count
import SqlRiver.Proofs.Line.Lists
import SqlRiver.Proofs.Line.Clauses
import SqlRiver.Proofs.Line.Sources
import SqlRiver.Proofs.Line.Joins
import SqlRiver.Proofs.Literal.Recovered
import SqlRiver.Proofs.Literal.Framed
import SqlRiver.Proofs.Reading.Orderly
import SqlRiver.Proofs.Reading.Aliased
import SqlRiver.Proofs.Reading.Sound
import SqlRiver.Proofs.Reading.Deeper
import SqlRiver.Proofs.Reading.Wrapped
import SqlRiver.Proofs.Fold.Scan
import SqlRiver.Proofs.Fold.Read
import SqlRiver.Proofs.Fold.Format
import SqlRiver.Proofs.Line.Query
import SqlRiver.Proofs.Line.Plain
import SqlRiver.Proofs.Layout.Reread
import SqlRiver.Proofs.Reading.Without
import SqlRiver.Proofs.Reading.Divided
import SqlRiver.Proofs.Reading.Clean
import SqlRiver.Proofs.Literal.Remask
import SqlRiver.Proofs.Layout.Stable
import SqlRiver.Proofs.Layout.Recast
import SqlRiver.Proofs.Literal.Runs
import SqlRiver.Proofs.Keyword.Marks
import SqlRiver.Proofs.Reading.Owned
import SqlRiver.Proofs.Spread.Basic
import SqlRiver.Proofs.Spread.Search
import SqlRiver.Proofs.Spread.Clauses
import SqlRiver.Proofs.Spread.Joins
import SqlRiver.Proofs.Spread.Query
import SqlRiver.Proofs.Comma.Overt
import SqlRiver.Proofs.Comma.Clauses
import SqlRiver.Proofs.Comma.Sources
import SqlRiver.Proofs.Comma.Joins
import SqlRiver.Proofs.Comma.Query
import SqlRiver.Proofs.Reading.Refused
import SqlRiver.Proofs.Layout.Shifted
import SqlRiver.Proofs.Layout.Width
import SqlRiver.Proofs.Closing.Parted
import SqlRiver.Proofs.Closing.Held
import SqlRiver.Proofs.Closing.Clauses
import SqlRiver.Proofs.Closing.Sources
import SqlRiver.Proofs.Closing.Joins
import SqlRiver.Proofs.Closing.Query
import SqlRiver.Proofs.Literal.Idempotent
import SqlRiver.Proofs.Literal.Unclosed
import SqlRiver.Proofs.Layout.Lines
import SqlRiver.Proofs.Layout.Aligned
import SqlRiver.Proofs.Text.Bytes
import SqlRiver.Proofs.Bracket.Partners
import SqlRiver.Proofs.Keyword.Offsets
import SqlRiver.Proofs.Split.Cuts
import SqlRiver.Proofs.Split.Partition
import SqlRiver.Proofs.Keyword.Boundaries
import SqlRiver.Proofs.Literal.Distributed
import SqlRiver.Proofs.Layout.Written
import SqlRiver.Proofs.Reading.Narrowed
import SqlRiver.Proofs.Reading.Grounded
import SqlRiver.Proofs.Literal.Placeholders

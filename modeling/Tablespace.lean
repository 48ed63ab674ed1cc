import Tablespace.Bytes.Cursor
import Tablespace.Text.Blank
import Tablespace.Text.Hex
import Tablespace.Binary.Shortest
import Tablespace.Binary.Numeral
import Tablespace.Json.Parser
import Tablespace.Json.Field
import Tablespace.Error
import Tablespace.Table.Layout
import Tablespace.Table.Definition
import Tablespace.Options
import Tablespace.Value.Order
import Tablespace.Value.Decode
import Tablespace.Value.Literal
import Tablespace.Page.Body
import Tablespace.Image
import Tablespace.Record.Chain
import Tablespace.Tree.Range
import Tablespace.Tree.Fill
import Tablespace.Main
import Tablespace.Proofs.KeyOrder
import Tablespace.Proofs.Loading
import Tablespace.Proofs.CursorPrograms
import Tablespace.Proofs.Reads
import Tablespace.Proofs.Decoding
import Tablespace.Proofs.Links
import Tablespace.Proofs.Chain
import Tablespace.Proofs.Tree
import Tablespace.Proofs.Walk
import Tablespace.Proofs.Lookup
import Tablespace.Proofs.Range
import Tablespace.Proofs.Encoding
import Tablespace.Proofs.Found
import Tablespace.Proofs.PageSearch
import Tablespace.Proofs.ChainWalk
import Tablespace.Proofs.ChainEnd
import Tablespace.Proofs.DigitOrder
import Tablespace.Proofs.Meaning
import Tablespace.Proofs.Guarded
import Tablespace.Proofs.InRange
import Tablespace.Proofs.QueriesInRange
import Tablespace.Proofs.ByteOrder
import Tablespace.Proofs.Civil
import Tablespace.Proofs.Packed
import Tablespace.Proofs.TemporalOrder
import Tablespace.Proofs.TimeOrder
import Tablespace.Proofs.StorageOrder
import Tablespace.Proofs.Runs
import Tablespace.Proofs.Iteration
import Tablespace.Proofs.Paths
import Tablespace.Proofs.Strictness
import Tablespace.Proofs.Deleted
import Tablespace.Proofs.ValueOrder
import Tablespace.Proofs.ElementOrder
import Tablespace.Proofs.Failures
import Tablespace.Proofs.Blame
import Tablespace.Proofs.KeyColumns
import Tablespace.Proofs.RowCommands
import Tablespace.Proofs.Overflow
import Tablespace.Proofs.PackedDigits
import Tablespace.Proofs.TimeText
import Tablespace.Proofs.Calendar
import Tablespace.Proofs.TypeText
import Tablespace.Proofs.FieldOrder
import Tablespace.Proofs.DecodedKinds
import Tablespace.Proofs.PrintedLiterals
import Tablespace.Proofs.HexLiterals
import Tablespace.Proofs.ByteChange
import Tablespace.Proofs.Directory
import Tablespace.Proofs.FillTotals
import Tablespace.Proofs.FixedWidth
import Tablespace.Proofs.PageErrors
import Tablespace.Proofs.Slots
import Tablespace.Proofs.RootSearch
import Tablespace.Proofs.Depths
import Tablespace.Proofs.SortedKeys
import Tablespace.Proofs.CursorRuns
import Tablespace.Proofs.CursorWords

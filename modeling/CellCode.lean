import CellCode.Bits.Basic
import CellCode.Bits.Hex
import CellCode.Cell.Basic
import CellCode.Cell.Builder
import CellCode.Cell.Dump
import CellCode.Cell.Error
import CellCode.Cell.Order
import CellCode.Cell.Slice
import CellCode.Checksum
import CellCode.Code.Decode
import CellCode.Code.JumpIdiom
import CellCode.Code.Loader
import CellCode.Code.Store
import CellCode.CommandLine.Command
import CellCode.CommandLine.Files
import CellCode.CommandLine.Option
import CellCode.CommandLine.Run
import CellCode.Container.Error
import CellCode.Container.Reader
import CellCode.Container.Writer
import CellCode.Debug.Draft
import CellCode.Debug.Map
import CellCode.Debug.Node
import CellCode.Decimal.Nearest
import CellCode.Decimal.Shortest
import CellCode.Dictionary.Build
import CellCode.Dictionary.Label
import CellCode.Dictionary.Search
import CellCode.Digest
import CellCode.Json.Basic
import CellCode.Json.Parser
import CellCode.JumpTable
import CellCode.Listing.Assemble
import CellCode.Listing.Disassemble
import CellCode.Listing.Literal
import CellCode.Listing.Parser
import CellCode.Listing.Printer
import CellCode.Listing.Token
import CellCode.Listing.Tree
import CellCode.Main
import CellCode.Opcode.Field
import CellCode.Opcode.Operand
import CellCode.Opcode.Standard
import CellCode.Opcode.Table
import CellCode.Packing
import CellCode.Result
import CellCode.Settings
import CellCode.Text.Blank
import CellCode.Text.Digit
import CellCode.Text.Printable
import CellCode.Text.Quoted
import CellCode.Toml.Moment
import CellCode.Toml.Parser
import CellCode.Toml.Scalar
import CellCode.Toml.Value
import CellCode.Proofs.Bits.Hex
import CellCode.Proofs.Cell.ParentsFirst
import CellCode.Proofs.Cell.Reading
import CellCode.Proofs.Cell.Storing
import CellCode.Proofs.Cell.Cursor
import CellCode.Proofs.Cell.Workbench
import CellCode.Proofs.Cell.Isolation
import CellCode.Proofs.Container.Bytes
import CellCode.Proofs.Container.Reading
import CellCode.Proofs.Container.RoundTrip
import CellCode.Proofs.Debug.Covering
import CellCode.Proofs.Dictionary.Entries
import CellCode.Proofs.Dictionary.Labels
import CellCode.Proofs.Dictionary.Trees
import CellCode.Proofs.JumpTable
import CellCode.Proofs.JumpTable.Leaves
import CellCode.Proofs.JumpTable.Marking
import CellCode.Proofs.JumpTable.Collisions
import CellCode.Proofs.Listing.Acceptance
import CellCode.Proofs.Listing.Capacity
import CellCode.Proofs.Listing.Packing
import CellCode.Proofs.Listing.Printing
import CellCode.Proofs.Listing.Reassembling
import CellCode.Proofs.Listing.Rebuilding
import CellCode.Proofs.Listing.RoundTrip
import CellCode.Proofs.Opcode.Lookup
import CellCode.Proofs.Opcode.RoundTrip
import CellCode.Proofs.Opcode.Yields
import CellCode.Proofs.Packing.Capacity
import CellCode.Proofs.Program.Assembling
import CellCode.Proofs.Program.Recursive
import CellCode.Proofs.Program.Reloading
import CellCode.Proofs.Program.Windows
import CellCode.Proofs.Dictionary.Searching
import CellCode.Proofs.Container.Safety
import CellCode.Proofs.Listing.Parts
import CellCode.Proofs.Listing.InStep
import CellCode.Proofs.Listing.Errors
import CellCode.Proofs.Debug.Records
import CellCode.Proofs.Packing.Rows
import CellCode.Proofs.Opcode.Nesting
import CellCode.Proofs.Listing.Starts
import CellCode.Proofs.Cell.Identity
import CellCode.Proofs.Cell.Depth
import CellCode.Proofs.Program.Termination
import CellCode.Proofs.Opcode.Spelling
import CellCode.Proofs.Listing.Selection
import CellCode.Proofs.Cell.Traversal
import CellCode.Proofs.Container.Truncation
import CellCode.Proofs.Checksum
import CellCode.Proofs.Container.Corruption
import CellCode.Proofs.JumpTable.Recovering
import CellCode.Proofs.Dictionary.Iteration
import CellCode.Proofs.Dictionary.LabelForms
import CellCode.Proofs.Dictionary.Canonical
import CellCode.Proofs.Program.Visiting
import CellCode.Proofs.JumpTable.Locating
import CellCode.Proofs.Listing.Literals
import CellCode.Proofs.Listing.Lines
import CellCode.Proofs.Listing.Rows
import CellCode.Proofs.Program.Stored
import CellCode.Proofs.Listing.Expanding
import CellCode.Proofs.Listing.Collapsing
import CellCode.Proofs.Listing.Restoring
import CellCode.Proofs.Cell.Dumps
import CellCode.Proofs.Packing.Tightness
import CellCode.Proofs.Dictionary.OutOfRange
import CellCode.Proofs.Json.RoundTrip
import CellCode.Proofs.Debug.Persistence

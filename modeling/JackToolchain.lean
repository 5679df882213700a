import JackToolchain.Build
import JackToolchain.Cli.FileTree
import JackToolchain.Main
import JackToolchain.Proofs.Jack.Declarations
import JackToolchain.Proofs.Placement
import JackToolchain.Proofs.VM.Machine
import JackToolchain.Proofs.Jack.Code
import JackToolchain.Proofs.Jack.Generated
import JackToolchain.Proofs.Jack.Evaluation
import JackToolchain.Proofs.Jack.ExpressionCode
import JackToolchain.Proofs.Jack.Labels
import JackToolchain.Proofs.Jack.StatementCode
import JackToolchain.Proofs.Jack.Correctness
import JackToolchain.Proofs.Jack.Grammar
import JackToolchain.Proofs.Jack.Items
import JackToolchain.Proofs.Jack.StreamPosition
import JackToolchain.Proofs.Jack.Layout
import JackToolchain.Proofs.Jack.LayoutItems
import JackToolchain.Proofs.Jack.Tokenization
import JackToolchain.Proofs.Jack.Reads
import JackToolchain.Proofs.Jack.ParserReads
import JackToolchain.Proofs.Jack.Acceptance
import JackToolchain.Proofs.Hack.Cpu
import JackToolchain.Proofs.Hack.Execution
import JackToolchain.Proofs.Hack.Printing
import JackToolchain.Proofs.Hack.FirstPass
import JackToolchain.Proofs.Hack.Assembled
import JackToolchain.Proofs.VM.Blocks
import JackToolchain.Proofs.VM.Jumps
import JackToolchain.Proofs.VM.Listing
import JackToolchain.Proofs.VM.Simulation
import JackToolchain.Proofs.VM.Frames
import JackToolchain.Proofs.VM.ProgramText
import JackToolchain.Proofs.VM.UnitCode
import JackToolchain.Proofs.VM.LabelNames
import JackToolchain.Proofs.VM.TranslatedProgram
import JackToolchain.Proofs.VM.SymbolUses
import JackToolchain.Proofs.Jack.Spelling
import JackToolchain.Proofs.Jack.Emitted
import JackToolchain.Proofs.Jack.Operands
import JackToolchain.Proofs.Jack.Assembly
import JackToolchain.Proofs.Jack.SymbolHygiene
import JackToolchain.Proofs.Hack.Tiling
import JackToolchain.Proofs.Hack.Reference
import JackToolchain.Proofs.Hack.SourceLines
import JackToolchain.Proofs.Hack.LineReading
import JackToolchain.Proofs.Hack.Addresses
import JackToolchain.Proofs.Hack.Meaning
import JackToolchain.Proofs.Hack.AddressRange
import JackToolchain.Proofs.VM.StackDepth
import JackToolchain.Proofs.Jack.FunctionBlocks
import JackToolchain.Proofs.Jack.Translation
import JackToolchain.Proofs.Jack.FreshLabels
import JackToolchain.Proofs.Jack.Balance
import JackToolchain.Proofs.Jack.VariableBounds
import JackToolchain.Proofs.Jack.Unplaced
import JackToolchain.Proofs.Jack.Agreement
import JackToolchain.Proofs.Jack.Takes
import JackToolchain.Proofs.Jack.Keeping
import JackToolchain.Proofs.Jack.MarkupLines
import JackToolchain.Proofs.Jack.TreeOutput
import JackToolchain.Proofs.Jack.LayoutIndependence
import JackToolchain.Proofs.Cli.Paths
import JackToolchain.Proofs.Cli.Deliveries
import JackToolchain.Proofs.Cli.Effects
import JackToolchain.Proofs.Cli.Units
import JackToolchain.Proofs.Cli.Folders
import JackToolchain.Proofs.VM.Comparisons
import JackToolchain.Proofs.VM.Legality
import JackToolchain.Proofs.Jack.SymbolHistory
import JackToolchain.Proofs.Cli.Programs
import JackToolchain.Proofs.Jack.Demands
import JackToolchain.Proofs.Jack.Violations
import JackToolchain.Proofs.Jack.SinkBytes
import JackToolchain.Proofs.Jack.LimitedSinks
import JackToolchain.Proofs.VM.UnitOutcomes
import JackToolchain.Proofs.VM.OwnLabels
import JackToolchain.Proofs.Hack.Places
import JackToolchain.Proofs.Hack.SourceParts
import JackToolchain.Proofs.VM.Comments
import JackToolchain.Proofs.Jack.Positions
import JackToolchain.Proofs.Jack.SpacedLexemes
import JackToolchain.Proofs.Jack.TokenListing
import JackToolchain.Proofs.Hack.CitedLines
import JackToolchain.Proofs.Hack.ErrorPlaces
import JackToolchain.Proofs.Hack.Reader
import JackToolchain.Proofs.Hack.Mnemonics
import JackToolchain.Proofs.Hack.Scanner
import JackToolchain.Proofs.Hack.Tiles
import JackToolchain.Proofs.Jack.Recovery

import TapeChain.Operand
import TapeChain.Text.Classes
import TapeChain.Text.Printable
import TapeChain.Text.Quoted
import TapeChain.Text.Utf8
import TapeChain.Number.Integer
import TapeChain.Number.Binary64
import TapeChain.Number.Shortest
import TapeChain.Number.Decimal
import TapeChain.Program.Token
import TapeChain.Program.Basic
import TapeChain.Program.Reader
import TapeChain.Chain.Basic
import TapeChain.Chain.Measure
import TapeChain.Chain.Linked
import TapeChain.Chain.Spelling
import TapeChain.Machine.Tape
import TapeChain.Machine.Basic
import TapeChain.Machine.Walk
import TapeChain.Config
import TapeChain.Routine.Code
import TapeChain.Routine.Emit
import TapeChain.Routine.Text
import TapeChain.Datum
import TapeChain.Artifact.Value
import TapeChain.Artifact.Symbol
import TapeChain.Artifact.Lexeme
import TapeChain.Artifact.Term
import TapeChain.Artifact.Build
import TapeChain.Digest
import TapeChain.Executable
import TapeChain.Routine.Bundle
import TapeChain.Session
import TapeChain.Packing.Adler
import TapeChain.Packing.Inflate
import TapeChain.Packing.Pieces
import TapeChain.Packing.Huffman
import TapeChain.Packing.Deflate
import TapeChain.Store.Path
import TapeChain.Store.Files
import TapeChain.ProgramFile
import TapeChain.Bench
import TapeChain.CommandLine.Arguments
import TapeChain.CommandLine.Invocation
import TapeChain.CommandLine.Host
import TapeChain.CommandLine.World
import TapeChain.Main
import TapeChain.Proofs.Run
import TapeChain.Proofs.Machine
import TapeChain.Proofs.Measure
import TapeChain.Proofs.Sharing
import TapeChain.Proofs.Hoisting
import TapeChain.Proofs.Backend
import TapeChain.Proofs.Operand
import TapeChain.Proofs.Reading
import TapeChain.Proofs.Stepwise
import TapeChain.Proofs.Source
import TapeChain.Proofs.Numeral
import TapeChain.Proofs.Words
import TapeChain.Proofs.Artifact
import TapeChain.Proofs.RoundTrip
import TapeChain.Proofs.Frames
import TapeChain.Proofs.Safety
import TapeChain.Proofs.Relaxation
import TapeChain.Proofs.Helpers
import TapeChain.Proofs.Layout
import TapeChain.Proofs.Loading
import TapeChain.Proofs.Packing
import TapeChain.Proofs.Files
import TapeChain.Proofs.Persistence
import TapeChain.Proofs.Misreading
import TapeChain.Proofs.Build
import TapeChain.Proofs.Legibility
import TapeChain.Proofs.Numbering
import TapeChain.Proofs.Interning
import TapeChain.Proofs.OneText
import TapeChain.Proofs.Lockstep
import TapeChain.Proofs.Causality
import TapeChain.Proofs.WiderTape
import TapeChain.Proofs.Comments
import TapeChain.Proofs.Carriers
import TapeChain.Proofs.Brackets
import TapeChain.Proofs.Segments
import TapeChain.Proofs.Meaning
import TapeChain.Proofs.Nesting
import TapeChain.Proofs.Positions
import TapeChain.Proofs.IllFormed
import TapeChain.Proofs.FirstFault
import TapeChain.Proofs.Independence
import TapeChain.Proofs.Docstring
import TapeChain.Proofs.Residues
import TapeChain.Proofs.Trials
import TapeChain.Proofs.Indentation
import TapeChain.Proofs.Extent
import TapeChain.Proofs.Rounding
import TapeChain.Proofs.SquareRoot
import TapeChain.Proofs.Trimming

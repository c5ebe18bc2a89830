import ControlStore.Numbers
import ControlStore.Text
import ControlStore.Fault
import ControlStore.Bits
import ControlStore.Width
import ControlStore.ControlWord
import ControlStore.Collections
import ControlStore.NatMap
import ControlStore.Notice
import ControlStore.Diagnostic
import ControlStore.Flow
import ControlStore.Matrix
import ControlStore.Source.File
import ControlStore.Source.Attempts
import ControlStore.Source.Parser
import ControlStore.Source.Grammar
import ControlStore.Source.Lowering
import ControlStore.ValueWord
import ControlStore.Symbol.Table
import ControlStore.Symbol.Joint
import ControlStore.Symbol.Merging
import ControlStore.Design.Field
import ControlStore.Design.Report
import ControlStore.Design.Basic
import ControlStore.Names
import ControlStore.Decoder.Mode
import ControlStore.Decoder.Statement
import ControlStore.Decoder.Builder
import ControlStore.Decoder.Module
import ControlStore.Decoder.Render
import ControlStore.Decoder.Assembly
import ControlStore.Netlist
import ControlStore.Rom
import ControlStore.Program
import ControlStore.CommandLine.Options
import ControlStore.CommandLine.Files
import ControlStore.CommandLine.Session
import ControlStore.Main
import ControlStore.Proofs.Checked
import ControlStore.Proofs.Widths
import ControlStore.Proofs.WordFields
import ControlStore.Proofs.Interning
import ControlStore.Proofs.Maps
import ControlStore.Proofs.Tables
import ControlStore.Proofs.MergeTrees
import ControlStore.Proofs.JointWidths
import ControlStore.Proofs.Merging
import ControlStore.Proofs.Generations
import ControlStore.Proofs.Records
import ControlStore.Proofs.Saturation
import ControlStore.Proofs.Lanes
import ControlStore.Proofs.SafePacking
import ControlStore.Proofs.FirstFit
import ControlStore.Proofs.Layout
import ControlStore.Proofs.Partition
import ControlStore.Proofs.WidthBound
import ControlStore.Proofs.Behaviour
import ControlStore.Proofs.Decoding
import ControlStore.Proofs.Encoding
import ControlStore.Proofs.RoundTrip
import ControlStore.Proofs.CrossCheck
import ControlStore.Proofs.NeutralSymbol
import ControlStore.Proofs.Execution
import ControlStore.Proofs.CombDecoder
import ControlStore.Proofs.Blocking
import ControlStore.Proofs.Forwarding
import ControlStore.Proofs.Pipelines
import ControlStore.Proofs.StagedDecoder
import ControlStore.Proofs.SizedStatements
import ControlStore.Proofs.Nesting
import ControlStore.Proofs.Recording
import ControlStore.Proofs.Allocation
import ControlStore.Proofs.SizedDecoder
import ControlStore.Proofs.Netlists
import ControlStore.Proofs.Capacity
import ControlStore.Proofs.Reports
import ControlStore.Proofs.Compilation
import ControlStore.Proofs.HexText
import ControlStore.Proofs.Images
import ControlStore.Proofs.Logarithms
import ControlStore.Proofs.SourceTexts
import ControlStore.Proofs.FittingWords
import ControlStore.Proofs.Spelling
import ControlStore.Proofs.Scanning
import ControlStore.Proofs.Tokens
import ControlStore.Proofs.Reading
import ControlStore.Proofs.Complaints
import ControlStore.Proofs.Violations
import ControlStore.Proofs.Lowering
import ControlStore.Proofs.Meaning
import ControlStore.Proofs.Registers
import ControlStore.Proofs.Interfaces
import ControlStore.Proofs.Identifiers
import ControlStore.Proofs.Overwriting
import ControlStore.Proofs.ModuleTexts

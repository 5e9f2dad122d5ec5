import Msp430.Text.Basic
import Msp430.Text.Digits
import Msp430.Word
import Msp430.Numeral
import Msp430.Fault
import Msp430.Symbol.Name
import Msp430.Symbol.Peripheral
import Msp430.Symbol.Table
import Msp430.Value
import Msp430.Expr
import Msp430.Register
import Msp430.Operand
import Msp430.Mnemonic
import Msp430.Jump
import Msp430.Field
import Msp430.Instruction
import Msp430.Source.Scan
import Msp430.Source.Statement
import Msp430.Source.File
import Msp430.Data
import Msp430.Listing
import Msp430.ObjectFile
import Msp430.Program
import Msp430.Assembly.Layout
import Msp430.Assembly.Settlement
import Msp430.Assembly.Run
import Msp430.Command.Path
import Msp430.Command.Storage
import Msp430.Command.Options
import Msp430.Command.Session
import Msp430.Main
import Msp430.Proofs.SymbolGrowth
import Msp430.Proofs.Evaluation
import Msp430.Proofs.LayoutRun
import Msp430.Proofs.SettlementRun
import Msp430.Proofs.OnePass
import Msp430.Proofs.Addressing
import Msp430.Proofs.LeastSettlement
import Msp430.Proofs.PeripheralNames
import Msp430.Proofs.ExpressionGrammar
import Msp430.Proofs.InstructionBits
import Msp430.Proofs.ListingBytes
import Msp430.Proofs.ConstantValues
import Msp430.Proofs.StatementYield
import Msp430.Proofs.ConstantOrder
import Msp430.Proofs.DeferredReferences
import Msp430.Proofs.BoundedSums
import Msp430.Proofs.DefiningLines
import Msp430.Proofs.RecasedInstructions
import Msp430.Proofs.RecasedProgram
import Msp430.Proofs.RelocatedFields
import Msp430.Proofs.Relocation
import Msp430.Proofs.QuoteScan
import Msp430.Proofs.WrittenStatements
import Msp430.Proofs.CommentedSource
import Msp430.Proofs.Pieces
import Msp430.Proofs.ResultPaths
import Msp430.Proofs.DiskWrites
import Msp430.Proofs.DiskPaths
import Msp430.Proofs.FileAssembly
import Msp430.Proofs.SpelledOptions
import Msp430.Proofs.SeparateFiles
import Msp430.Proofs.ObjectReader
import Msp430.Proofs.InstructionShape
import Msp430.Proofs.JumpTargets
import Msp430.Proofs.FetchedWords
import Msp430.Proofs.EmulatedInstructions
import Msp430.Proofs.FaultyLines
import Msp430.Proofs.ExpressionEnds
import Msp430.Proofs.RegisterNames
import Msp430.Proofs.OperandForms
import Msp430.Proofs.WordLists
import Msp430.Proofs.ListParts
import Msp430.Proofs.ObjectHistory
import Msp430.Proofs.TableHistory
import Msp430.Proofs.ResultFiles

import Z80Effects.Arithmetic.Adjustment
import Z80Effects.Arithmetic.Rotation
import Z80Effects.Effect.Instruction
import Z80Effects.Effect.Operation
import Z80Effects.Effect.Phrase
import Z80Effects.Instruction
import Z80Effects.Machine.Run
import Z80Effects.Machine.State
import Z80Effects.Program.Expression
import Z80Effects.Program.Statement
import Z80Effects.Program.Template
import Z80Effects.Program.Text
import Z80Effects.Word
import Z80Effects.Proofs.AccessRecord
import Z80Effects.Proofs.AccumulatorOperations
import Z80Effects.Proofs.AssignedVariables
import Z80Effects.Proofs.BlockOutput
import Z80Effects.Proofs.BlockReading
import Z80Effects.Proofs.BlockRepetition
import Z80Effects.Proofs.BlockSearch
import Z80Effects.Proofs.BlockTransfer
import Z80Effects.Proofs.ByteOperands
import Z80Effects.Proofs.ByteOperations
import Z80Effects.Proofs.CarryArithmetic
import Z80Effects.Proofs.CarryResults
import Z80Effects.Proofs.ControlFlow
import Z80Effects.Proofs.DecimalArithmetic
import Z80Effects.Proofs.EffectForms
import Z80Effects.Proofs.Exchanges
import Z80Effects.Proofs.ExecutablePrograms
import Z80Effects.Proofs.FaultFreedom
import Z80Effects.Proofs.FilledPrograms
import Z80Effects.Proofs.FlagBits
import Z80Effects.Proofs.InstructionFrame
import Z80Effects.Proofs.InstructionRuns
import Z80Effects.Proofs.LiteralNotes
import Z80Effects.Proofs.LivePage
import Z80Effects.Proofs.LiveTemporaries
import Z80Effects.Proofs.LongArithmetic
import Z80Effects.Proofs.LongShifts
import Z80Effects.Proofs.MachineUpdates
import Z80Effects.Proofs.NeededOperands
import Z80Effects.Proofs.Outcome
import Z80Effects.Proofs.PairLoads
import Z80Effects.Proofs.PlaceAgreement
import Z80Effects.Proofs.PrimitiveCalls
import Z80Effects.Proofs.RegisterLimits
import Z80Effects.Proofs.RunAgreement
import Z80Effects.Proofs.SpecialRegisters
import Z80Effects.Proofs.StackNesting
import Z80Effects.Proofs.Stores
import Z80Effects.Proofs.VariableWidths
import Z80Effects.Proofs.WordCounters
import Z80Effects.Proofs.WordSums
import Z80Effects.Proofs.WrittenExpressions
import Z80Effects.Proofs.WrittenNumbers
import Z80Effects.Proofs.WrittenPrograms

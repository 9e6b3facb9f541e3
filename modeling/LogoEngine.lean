import LogoEngine.Arithmetic.Compare
import LogoEngine.Arithmetic.Random
import LogoEngine.Arithmetic.Routine
import LogoEngine.Decimal.Fixed
import LogoEngine.Failure.Code
import LogoEngine.Failure.Compile
import LogoEngine.Heap.Desk
import LogoEngine.Heap.Equality
import LogoEngine.Heap.Render
import LogoEngine.Heap.Sketch
import LogoEngine.Code.Check
import LogoEngine.Code.Linked
import LogoEngine.Lower.Unit
import LogoEngine.Settings
import LogoEngine.Eval.Data
import LogoEngine.Session
import LogoEngine.Proofs.Code.Typing
import LogoEngine.Proofs.Code.Linking
import LogoEngine.Proofs.Machine.Step
import LogoEngine.Proofs.Machine.Safety
import LogoEngine.Proofs.Emit.Growth
import LogoEngine.Proofs.Emit.Sound
import LogoEngine.Proofs.Emit.Plain
import LogoEngine.Proofs.Emit.Lifetimes
import LogoEngine.Proofs.Lower.Built
import LogoEngine.Proofs.Lower.Generators
import LogoEngine.Proofs.Lower.Nodes
import LogoEngine.Proofs.Lower.Routines
import LogoEngine.Proofs.Lower.Checked
import LogoEngine.Proofs.Heap.Changes
import LogoEngine.Proofs.Eval.Keeping
import LogoEngine.Proofs.Eval.Checking
import LogoEngine.Proofs.Heap.Liveness
import LogoEngine.Proofs.Eval.Compiling
import LogoEngine.Proofs.Eval.Changes
import LogoEngine.Proofs.Eval.Running
import LogoEngine.Proofs.Eval.Freshness
import LogoEngine.Proofs.Session.Freshness
import LogoEngine.Proofs.Machine.Drafts
import LogoEngine.Proofs.Expression.Meaning
import LogoEngine.Proofs.Expression.Checks
import LogoEngine.Proofs.Expression.Operators
import LogoEngine.Proofs.Expression.Lowering
import LogoEngine.Proofs.Expression.Correct
import LogoEngine.Proofs.Emit.Relocation
import LogoEngine.Proofs.Eval.Pins
import LogoEngine.Proofs.Lower.Relocation
import LogoEngine.Proofs.Lower.Statements
import LogoEngine.Proofs.Lower.Settling
import LogoEngine.Proofs.Lower.Execution
import LogoEngine.Proofs.Lower.Contents
import LogoEngine.Proofs.Machine.WaysOut
import LogoEngine.Proofs.Emit.WaysOut
import LogoEngine.Proofs.Lower.Endings
import LogoEngine.Proofs.Machine.Lockstep
import LogoEngine.Proofs.Machine.Stages
import LogoEngine.Proofs.Eval.Tokens
import LogoEngine.Proofs.Emit.Handing
import LogoEngine.Proofs.Lower.Handing
import LogoEngine.Proofs.Lower.Exits
import LogoEngine.Proofs.Eval.Fuel
import LogoEngine.Proofs.Eval.TailCalls
import LogoEngine.Proofs.Eval.Leaving
import LogoEngine.Proofs.Lower.Labels
import LogoEngine.Proofs.Eval.Handing
import LogoEngine.Proofs.Eval.Jumps
import LogoEngine.Proofs.Eval.Quiet
import LogoEngine.Proofs.Eval.Frames
import LogoEngine.Proofs.Eval.Moments
import LogoEngine.Proofs.Eval.Depth
import LogoEngine.Proofs.Machine.Assertions
import LogoEngine.Proofs.Emit.Assertions
import LogoEngine.Proofs.Lower.Assertions
import LogoEngine.Proofs.Lower.Loops
import LogoEngine.Proofs.Eval.Repetitions
import LogoEngine.Proofs.Eval.Tidy
import LogoEngine.Proofs.Eval.TidyRuns
import LogoEngine.Proofs.Session.DataOnly
import LogoEngine.Proofs.Eval.Catching
import LogoEngine.Proofs.Arithmetic.Domains
import LogoEngine.Proofs.Eval.Erract
import LogoEngine.Proofs.Lower.Domains
import LogoEngine.Proofs.Eval.Inputs
import LogoEngine.Proofs.Emit.Judging
import LogoEngine.Proofs.Emit.Repeating
import LogoEngine.Proofs.Lower.Choices
import LogoEngine.Proofs.Lower.Repeating
import LogoEngine.Proofs.Eval.Locals
import LogoEngine.Proofs.Eval.Mutation
import LogoEngine.Proofs.Heap.Cycles
import LogoEngine.Proofs.Eval.Cycles
import LogoEngine.Proofs.Eval.CatchTags
import LogoEngine.Proofs.Expression.Boxing
import LogoEngine.Proofs.Decimal.Doubles
import LogoEngine.Proofs.Arithmetic.Division
import LogoEngine.Proofs.Heap.Spines
import LogoEngine.Proofs.Eval.Members
import LogoEngine.Proofs.Eval.Selectors
import LogoEngine.Proofs.Decimal.Rounding
import LogoEngine.Proofs.Decimal.Scientific
import LogoEngine.Proofs.Decimal.Shortest
import LogoEngine.Proofs.Decimal.Grammar
import LogoEngine.Proofs.Decimal.Values
import LogoEngine.Proofs.Decimal.RoundTrip
import LogoEngine.Proofs.Decimal.Case
import LogoEngine.Proofs.Heap.Equality
import LogoEngine.Proofs.Arithmetic.Shifts
import LogoEngine.Proofs.Failure.Messages
import LogoEngine.Proofs.Decimal.Closest
import LogoEngine.Proofs.Decimal.Reading
import LogoEngine.Proofs.Decimal.Writing
import LogoEngine.Proofs.Eval.Scopes
import LogoEngine.Proofs.Heap.Ledger
import LogoEngine.Proofs.Lower.Operands
import LogoEngine.Proofs.Lower.Passing
import LogoEngine.Proofs.Eval.Operands

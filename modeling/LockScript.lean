import LockScript.Text.Bytes
import LockScript.Text.Utf8
import LockScript.Text.Blank
import LockScript.Text.Printable
import LockScript.Text.Hex
import LockScript.Text.Decimal
import LockScript.Text.Quoted
import LockScript.Digest.HashFunction
import LockScript.Key.Basic
import LockScript.Expression.Reader
import LockScript.Fragment.Text
import LockScript.Typing.Correctness
import LockScript.Typing.Malleability
import LockScript.Typing.Cost
import LockScript.Typing.Counting
import LockScript.Typing.Facts
import LockScript.Typing.Shorthand
import LockScript.Script.Opcode
import LockScript.Script.Element
import LockScript.Script.Token
import LockScript.Fragment.Checked
import LockScript.Fragment.Reader
import LockScript.Fragment.OfExpression
import LockScript.Fragment.Script
import LockScript.Fragment.Sanity
import LockScript.Fragment.Drawing
import LockScript.Fragment.Substitution
import LockScript.Script.Decoder
import LockScript.Spending.Transaction
import LockScript.Spending.Satisfier
import LockScript.Spending.Wallet
import LockScript.Policy.Condition
import LockScript.Policy.Basic
import LockScript.Policy.Normal
import LockScript.Policy.KeyCount
import LockScript.Policy.TimeLock
import LockScript.Policy.Lift
import LockScript.Policy.Concrete
import LockScript.Policy.Reader
import LockScript.Verification.Cache
import LockScript.Verification.Claimed
import LockScript.Verification.Basic
import LockScript.Verification.Memory
import LockScript.Verification.Error
import LockScript.Address.Bech32
import LockScript.Address.Network
import LockScript.Text.Integer
import LockScript.Text.Unquoted
import LockScript.Console.LogLevel
import LockScript.Console.Lines
import LockScript.Console.Session
import LockScript.Console.Arguments
import LockScript.Console.Run
import LockScript.Main
import LockScript.Proofs.Script.Lexing
import LockScript.Proofs.Typing.Inversion
import LockScript.Proofs.Fragment.Script
import LockScript.Proofs.Typing.Invariants
import LockScript.Proofs.Fragment.Regrouping
import LockScript.Proofs.Decoder.Steps
import LockScript.Proofs.Decoder.Runs
import LockScript.Proofs.Decoder.Completeness
import LockScript.Proofs.Decoder.Soundness
import LockScript.Proofs.Execution.Machine
import LockScript.Proofs.Execution.Evaluation
import LockScript.Proofs.Execution.Simulation
import LockScript.Proofs.Execution.Enforcement
import LockScript.Proofs.Text.Words
import LockScript.Proofs.Fragment.Legible
import LockScript.Proofs.Fragment.RoundTrip
import LockScript.Proofs.Fragment.Size
import LockScript.Proofs.Execution.Outcome
import LockScript.Proofs.Typing.Composition
import LockScript.Proofs.Policy.Evaluation
import LockScript.Proofs.Policy.KeyCount
import LockScript.Proofs.Policy.Lift
import LockScript.Proofs.Spending.Signatures
import LockScript.Proofs.Policy.Regrouping
import LockScript.Proofs.Text.Glyphs
import LockScript.Proofs.Fragment.Expression
import LockScript.Proofs.Execution.Standard
import LockScript.Proofs.Execution.Witness
import LockScript.Proofs.Execution.Satisfaction
import LockScript.Proofs.Policy.Underrun
import LockScript.Proofs.Typing.Context
import LockScript.Proofs.Typing.Subtype
import LockScript.Proofs.Typing.Selection
import LockScript.Proofs.Fragment.Operations
import LockScript.Proofs.Text.Nesting
import LockScript.Proofs.Fragment.Canonical
import LockScript.Proofs.Verification.Soundness
import LockScript.Proofs.Verification.Transparency
import LockScript.Proofs.Policy.TimeLock
import LockScript.Proofs.Spending.Satisfiability
import LockScript.Proofs.Execution.Dissatisfaction
import LockScript.Proofs.Decoder.Nesting
import LockScript.Proofs.Policy.NormalForm
import LockScript.Proofs.Decoder.Balance
import LockScript.Proofs.Console.Independence
import LockScript.Proofs.Policy.Decision
import LockScript.Proofs.Policy.LeastKeys
import LockScript.Proofs.Policy.MixedLocks
import LockScript.Proofs.Typing.Optimum
import LockScript.Proofs.Text.Trimming
import LockScript.Proofs.Expression.RoundTrip
import LockScript.Proofs.Policy.RoundTrip
import LockScript.Proofs.Policy.Sorting
import LockScript.Proofs.Fragment.Substitution
import LockScript.Proofs.Fragment.KeyOrder
import LockScript.Proofs.Fragment.Culprit
import LockScript.Proofs.Execution.LockTime
import LockScript.Proofs.Spending.Deposits
import LockScript.Fragment.Kind
import LockScript.Proofs.Fragment.Spelling
import LockScript.Proofs.Fragment.Location
import LockScript.Proofs.Fragment.VerifyForm
import LockScript.Proofs.Script.Tokens
import LockScript.Proofs.Script.NumberPush

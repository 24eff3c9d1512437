import Calculator.Binary64.Bits
import Calculator.Main
import Calculator.Proofs.Arguments
import Calculator.Proofs.Blanks
import Calculator.Proofs.Bytes
import Calculator.Proofs.Congruence
import Calculator.Proofs.Conservation
import Calculator.Proofs.Contracts
import Calculator.Proofs.Derivations
import Calculator.Proofs.Diagnosis
import Calculator.Proofs.ExactValue
import Calculator.Proofs.Inorder
import Calculator.Proofs.Invocation
import Calculator.Proofs.Lexing
import Calculator.Proofs.LongestPrefix
import Calculator.Proofs.Lookahead
import Calculator.Proofs.NormalForm
import Calculator.Proofs.Operations
import Calculator.Proofs.Parametricity
import Calculator.Proofs.Places
import Calculator.Proofs.Provenance
import Calculator.Proofs.RoundTrip
import Calculator.Proofs.Slices
import Calculator.Proofs.Succession
import Calculator.Proofs.Tokenizing
import Calculator.Proofs.TrailingBlanks
import Calculator.Proofs.ViablePrefix
import Calculator.Proofs.StackMachine
import Calculator.Proofs.Discipline
import Calculator.Proofs.Simulation
import Calculator.Proofs.Resumption
import Calculator.Proofs.Recovery
import Calculator.Proofs.UniqueReadability
import Calculator.Proofs.Calls
import Calculator.Proofs.Numerals
import Calculator.Proofs.Readback
import Calculator.Proofs.Division
import Calculator.Proofs.Progress

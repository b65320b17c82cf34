import Calculator.Accumulator
import Calculator.Main
import Calculator.Proofs.Scanning
import Calculator.Proofs.Grammar
import Calculator.Proofs.Tree
import Calculator.Proofs.Reading
import Calculator.Proofs.Strategies
import Calculator.Proofs.Spelling
import Calculator.Proofs.Following
import Calculator.Proofs.Grouping
import Calculator.Proofs.Evaluating
import Calculator.Proofs.Acceptance
import Calculator.Proofs.Viability
import Calculator.Proofs.Diagnosis
import Calculator.Proofs.Factorial
import Calculator.Proofs.Exactness
import Calculator.Proofs.Composition
import Calculator.Proofs.Standing
import Calculator.Proofs.Calls
import Calculator.Proofs.Recovery
import Calculator.Proofs.Encoding
import Calculator.Proofs.Rounding
import Calculator.Proofs.ShortestReading
import Calculator.Proofs.Literals
import Calculator.Proofs.RoundTrip
import Calculator.Proofs.Shapes
import Calculator.Proofs.LongestMatch
import Calculator.Proofs.Respacing
import Calculator.Proofs.Listings
import Calculator.Proofs.FirstFault
import Calculator.Proofs.NormalForm
import Calculator.Proofs.Safety
import Calculator.Proofs.Scaling
import Calculator.Proofs.Casting
import Calculator.Proofs.ExactScaling
import Calculator.Proofs.SignedNumbers
import Calculator.Proofs.Absorption
import Calculator.Proofs.EarlyExit
import Calculator.Proofs.DistinctLiterals
import Calculator.Proofs.UniqueReadability

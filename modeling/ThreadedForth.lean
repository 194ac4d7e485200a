import ThreadedForth.Host
import ThreadedForth.Main
import ThreadedForth.Proofs.Calls
import ThreadedForth.Proofs.CodeSteps
import ThreadedForth.Proofs.Context
import ThreadedForth.Proofs.ContextEffects
import ThreadedForth.Proofs.Definitions
import ThreadedForth.Proofs.Drafting
import ThreadedForth.Proofs.Evaluation
import ThreadedForth.Proofs.FrameDiscipline
import ThreadedForth.Proofs.HeapShape
import ThreadedForth.Proofs.Parsing
import ThreadedForth.Proofs.Runs
import ThreadedForth.Proofs.Secure
import ThreadedForth.Proofs.SecureValues
import ThreadedForth.Proofs.SecureWords
import ThreadedForth.Proofs.Session
import ThreadedForth.Proofs.Simulation
import ThreadedForth.Proofs.Structured
import ThreadedForth.Proofs.WellFormed
import ThreadedForth.Transcript
import ThreadedForth.Workbench
import ThreadedForth.Proofs.Liveness
import ThreadedForth.Proofs.Moves
import ThreadedForth.Proofs.MovesValues
import ThreadedForth.Proofs.MovesWords
import ThreadedForth.Proofs.Histories
import ThreadedForth.Proofs.Ledger
import ThreadedForth.Proofs.ReferenceCounts
import ThreadedForth.Proofs.FrozenCode
import ThreadedForth.Proofs.Answers
import ThreadedForth.Proofs.Callers
import ThreadedForth.Proofs.Locality
import ThreadedForth.Proofs.Likeness
import ThreadedForth.Proofs.LikenessValues
import ThreadedForth.Proofs.LikenessObjects
import ThreadedForth.Proofs.LikenessWords
import ThreadedForth.Proofs.LikenessRuns
import ThreadedForth.Proofs.Recovery
import ThreadedForth.Proofs.Overlays
import ThreadedForth.Proofs.EarlyBinding
import ThreadedForth.Proofs.Bindings
import ThreadedForth.Proofs.Emission
import ThreadedForth.Proofs.Hygiene
import ThreadedForth.Proofs.Bystanders
import ThreadedForth.Proofs.RoundTrip
import ThreadedForth.Proofs.Ownership
import ThreadedForth.Proofs.LineBreaks
import ThreadedForth.Proofs.Registry
import ThreadedForth.Proofs.LastBinding
import ThreadedForth.Proofs.Debugging
import ThreadedForth.Proofs.Uninterrupted
import ThreadedForth.Proofs.LineActions
import ThreadedForth.Proofs.Interrupts
import ThreadedForth.Proofs.Invariants
import ThreadedForth.Proofs.CountedLoops
import ThreadedForth.Proofs.Activations
import ThreadedForth.Proofs.SingleCalls
import ThreadedForth.Proofs.Postponing
import ThreadedForth.Proofs.Children
import ThreadedForth.Proofs.FullStacks
import ThreadedForth.Proofs.FirstSlots
import ThreadedForth.Proofs.DefinitionEnds
import ThreadedForth.Proofs.LoopTest
import ThreadedForth.Proofs.Operands
import ThreadedForth.Proofs.IntegerOperators
import ThreadedForth.Proofs.Addresses
import ThreadedForth.Proofs.Printing
import ThreadedForth.Proofs.Records
import ThreadedForth.Proofs.Comparisons
import ThreadedForth.Proofs.StoreSteps
import ThreadedForth.Proofs.Sequences
import ThreadedForth.Proofs.ElementSearch
import ThreadedForth.Proofs.NumberGrammar
import ThreadedForth.Proofs.Tokens
import ThreadedForth.Proofs.LowerCase
import ThreadedForth.Proofs.LoweredHeaps
import ThreadedForth.Proofs.LoweredMachines
import ThreadedForth.Proofs.LoweredWords
import ThreadedForth.Proofs.LoweredRuns
import ThreadedForth.Proofs.CaseInsensitivity

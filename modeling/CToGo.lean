import CToGo.LogLevel
import CToGo.Main
import CToGo.Proofs.Grammar.Outcome
import CToGo.Proofs.Grammar.Expressions
import CToGo.Proofs.Grammar.Statements
import CToGo.Proofs.Grammar.Programs
import CToGo.Proofs.Reading.Expressions
import CToGo.Proofs.Reading.RoundTrip
import CToGo.Proofs.Lowering.Image
import CToGo.Proofs.Lowering.Occurrence
import CToGo.Proofs.Grammar.Vocabulary
import CToGo.Proofs.Reading.Compiled
import CToGo.Proofs.Lowering.Imports
import CToGo.Proofs.Lowering.Acceptance
import CToGo.Proofs.Lowering.Translatable
import CToGo.Proofs.Meaning.Source
import CToGo.Proofs.Meaning.Target
import CToGo.Proofs.Meaning.Agreement
import CToGo.Proofs.Meaning.Simulation
import CToGo.Proofs.Lowering.Walk
import CToGo.Proofs.Scanning.Gaps
import CToGo.Proofs.Scanning.Lexemes
import CToGo.Proofs.Scanning.Tokens
import CToGo.Proofs.Locations.Parsing
import CToGo.Proofs.Locations.Compilation
import CToGo.Proofs.Nesting.Accounts
import CToGo.Proofs.Job.Kept
import CToGo.Proofs.Job.Resolution
import CToGo.Proofs.Nesting.Depth
import CToGo.Proofs.Locations.Forks
import CToGo.Proofs.Locations.Following
import CToGo.Proofs.Scanning.Joined
import CToGo.Proofs.Locations.Joined
import CToGo.Proofs.Reading.Statements
import CToGo.Proofs.Reading.Files
import CToGo.Proofs.Grammar.Unbraced
import CToGo.Proofs.Nesting.Pairs
import CToGo.Proofs.Nesting.Unbraced
import CToGo.Proofs.Files.Steps
import CToGo.Proofs.Locations.Endings
import CToGo.Proofs.Locations.Spans
import CToGo.Proofs.Locations.Nested
import CToGo.Proofs.Locations.Placed
import CToGo.Proofs.Locations.Ahead
import CToGo.Proofs.Files.Making
import CToGo.Proofs.Files.Untouched
import CToGo.Proofs.Files.Interleaving
import CToGo.Proofs.Job.Writes
import CToGo.Proofs.Job.Unaffected
import CToGo.Proofs.Job.Redelivery
import CToGo.Proofs.Lowering.Order
import CToGo.Proofs.Lowering.Renaming
import CToGo.Proofs.Scanning.Calls
import CToGo.Proofs.Lowering.Separation
import CToGo.Proofs.Scanning.Written
import CToGo.Proofs.Scanning.Constants
import CToGo.Proofs.Job.Settlement
import CToGo.Proofs.Job.Names
import CToGo.Proofs.Lowering.Shapes
import CToGo.Proofs.Reading.Groupings
import CToGo.Proofs.Reading.Parentheses
import CToGo.Proofs.Reading.Indentation
import CToGo.Proofs.Nesting.Addresses
import CToGo.Proofs.Locations.Visits
import CToGo.Proofs.Termination.Calls

import PixQuery.Alias
import PixQuery.CommandLine.Run
import PixQuery.Compile
import PixQuery.Fault
import PixQuery.Field.Names
import PixQuery.Flags
import PixQuery.Forecast.Ranking
import PixQuery.Grammar.Basic
import PixQuery.Grammar.TableText
import PixQuery.Grammar.Trace
import PixQuery.Json.Reader
import PixQuery.Json.Schema
import PixQuery.Json.Writer
import PixQuery.Main
import PixQuery.Meaning.Analysis
import PixQuery.Meaning.Codec
import PixQuery.Metadata.Codec
import PixQuery.Options.Codec
import PixQuery.Plan.Codec
import PixQuery.Plan.Query
import PixQuery.Plan.Schema
import PixQuery.Proofs.Compile.Ranges
import PixQuery.Proofs.Compile.Stages
import PixQuery.Proofs.Forecast.Context
import PixQuery.Proofs.Forecast.Names
import PixQuery.Proofs.Forecast.Ranking
import PixQuery.Proofs.Forecast.Walk
import PixQuery.Proofs.Grammar.Automaton
import PixQuery.Proofs.Grammar.Completeness
import PixQuery.Proofs.Grammar.Conflicts
import PixQuery.Proofs.Grammar.Definition
import PixQuery.Proofs.Grammar.Derivation
import PixQuery.Proofs.Grammar.Expected
import PixQuery.Proofs.Grammar.FirstFault
import PixQuery.Proofs.Grammar.FirstFollow
import PixQuery.Proofs.Grammar.Halting
import PixQuery.Proofs.Grammar.ItemSets
import PixQuery.Proofs.Grammar.Lookahead
import PixQuery.Proofs.Grammar.Machine
import PixQuery.Proofs.Grammar.Passes
import PixQuery.Proofs.Grammar.Ranges
import PixQuery.Proofs.Grammar.Recovery
import PixQuery.Proofs.Grammar.Saturation
import PixQuery.Proofs.Grammar.Soundness
import PixQuery.Proofs.Grammar.Steps
import PixQuery.Proofs.Grammar.Table
import PixQuery.Proofs.Grammar.TableText
import PixQuery.Proofs.Grammar.Termination
import PixQuery.Proofs.Grammar.Traps
import PixQuery.Proofs.Grammar.Trimming
import PixQuery.Proofs.Grammar.Viability
import PixQuery.Proofs.Json.Records
import PixQuery.Proofs.Json.RoundTrip
import PixQuery.Proofs.Json.Schema
import PixQuery.Proofs.Meaning.Between
import PixQuery.Proofs.Meaning.Clauses
import PixQuery.Proofs.Meaning.Codec
import PixQuery.Proofs.Meaning.Collections
import PixQuery.Proofs.Meaning.Comparisons
import PixQuery.Proofs.Meaning.Permutations
import PixQuery.Proofs.Meaning.Ranges
import PixQuery.Proofs.Meaning.Refusals
import PixQuery.Proofs.Meaning.Rereading
import PixQuery.Proofs.Meaning.Scopes
import PixQuery.Proofs.Meaning.Slices
import PixQuery.Proofs.Meaning.Spellings
import PixQuery.Proofs.Meaning.Typing
import PixQuery.Proofs.Meaning.Understood
import PixQuery.Proofs.Meaning.Unions
import PixQuery.Proofs.Meaning.WellTyped
import PixQuery.Proofs.Metadata.Addresses
import PixQuery.Proofs.Metadata.Ancestors
import PixQuery.Proofs.Metadata.Codec
import PixQuery.Proofs.Metadata.Entities
import PixQuery.Proofs.Metadata.Paths
import PixQuery.Proofs.Metadata.Prefixes
import PixQuery.Proofs.Plan.Codec
import PixQuery.Proofs.Plan.Conservation
import PixQuery.Proofs.Plan.Days
import PixQuery.Proofs.Plan.Groups
import PixQuery.Proofs.Plan.Items
import PixQuery.Proofs.Plan.Recompiling
import PixQuery.Proofs.Plan.Rereading
import PixQuery.Proofs.Plan.RoundTrip
import PixQuery.Proofs.Plan.Schema
import PixQuery.Proofs.Plan.Strings
import PixQuery.Proofs.Query.Expected
import PixQuery.Proofs.Query.FirstError
import PixQuery.Proofs.Query.Grammar
import PixQuery.Proofs.Query.Joined
import PixQuery.Proofs.Query.Lossless
import PixQuery.Proofs.Query.Members
import PixQuery.Proofs.Query.Parts
import PixQuery.Proofs.Query.Ranges
import PixQuery.Proofs.Query.Reading
import PixQuery.Proofs.Query.Script
import PixQuery.Proofs.Query.Subjects
import PixQuery.Proofs.Text.Lowercase
import PixQuery.Proofs.Text.Words
import PixQuery.Proofs.Token.AsciiForms
import PixQuery.Proofs.Token.Quoting
import PixQuery.Proofs.Token.Ranges
import PixQuery.Proofs.Token.Reflection
import PixQuery.Proofs.Token.Rereading
import PixQuery.Proofs.Token.Separators
import PixQuery.Proofs.Token.Settled
import PixQuery.Proofs.Token.Tiling
import PixQuery.Proofs.Token.Writing
import PixQuery.Proofs.Value.Binary64
import PixQuery.Proofs.Value.Days
import PixQuery.Proofs.Value.Decades
import PixQuery.Proofs.Value.FlagText
import PixQuery.Proofs.Value.Literals
import PixQuery.Proofs.Value.PartialDates
import PixQuery.Proofs.Value.Spans
import PixQuery.Query.Grammar
import PixQuery.Query.Lowering
import PixQuery.Text.Integer
import PixQuery.Token.Codec
import PixQuery.Token.Lexer
import PixQuery.Token.Quoted
import PixQuery.Toml
import PixQuery.Value.Cast

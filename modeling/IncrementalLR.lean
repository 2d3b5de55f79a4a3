import IncrementalLR.GrammarText.Reader
import IncrementalLR.Pattern.Automaton
import IncrementalLR.Text.Position
import IncrementalLR.Symbol
import IncrementalLR.Grammar.Load
import IncrementalLR.Grammar.Error
import IncrementalLR.Ttcn3.Scanner
import IncrementalLR.Text.Input
import IncrementalLR.Automaton.Lookahead
import IncrementalLR.Table.Compile
import IncrementalLR.Table.Decode
import IncrementalLR.Table.Listing
import IncrementalLR.Parse.Parser
import IncrementalLR.Tree.Cursor
import IncrementalLR.Tree.Navigation
import IncrementalLR.Tree.Outline
import IncrementalLR.Text.Utf8
import IncrementalLR.Main
import IncrementalLR.Proofs.Fold
import IncrementalLR.Proofs.Grammar.Derivation
import IncrementalLR.Proofs.Grammar.Terminals
import IncrementalLR.Proofs.Automaton.Closure
import IncrementalLR.Proofs.Automaton.Corners
import IncrementalLR.Proofs.Automaton.Lookahead
import IncrementalLR.Proofs.Automaton.Propagation
import IncrementalLR.Proofs.Automaton.Lalr
import IncrementalLR.Proofs.Automaton.Probes
import IncrementalLR.Proofs.Table.Acceptance
import IncrementalLR.Proofs.Language
import IncrementalLR.Proofs.Parse.Moves
import IncrementalLR.Proofs.Parse.Root
import IncrementalLR.Proofs.Parse.Run
import IncrementalLR.Proofs.Parse.Spanning
import IncrementalLR.Proofs.Parse.Reparse
import IncrementalLR.Proofs.Parse.Edited
import IncrementalLR.Proofs.Table.RoundTrip
import IncrementalLR.Proofs.Table.PrefixFree
import IncrementalLR.Proofs.Parse.Productions
import IncrementalLR.Proofs.Parse.Errors
import IncrementalLR.Proofs.Grammar.Meaning
import IncrementalLR.Proofs.Parse.Termination
import IncrementalLR.Proofs.Parse.InBounds
import IncrementalLR.Proofs.Grammar.Repetition
import IncrementalLR.Proofs.Grammar.Reachability
import IncrementalLR.Proofs.Automaton.Lookups
import IncrementalLR.Proofs.Parse.Forks
import IncrementalLR.Proofs.Parse.Weight
import IncrementalLR.Proofs.Parse.Best
import IncrementalLR.Proofs.Lexer.Lookahead
import IncrementalLR.Proofs.Pattern.Closure
import IncrementalLR.Proofs.Lexer.Words
import IncrementalLR.Proofs.Parse.Relexing
import IncrementalLR.Proofs.Parse.Taking
import IncrementalLR.Proofs.Parse.Pieces
import IncrementalLR.Text.Source
import IncrementalLR.Lexer.Streaming
import IncrementalLR.Proofs.Lexer.Streaming
import IncrementalLR.Proofs.Table.Records
import IncrementalLR.Proofs.Table.Transitions
import IncrementalLR.Proofs.Table.Accounting
import IncrementalLR.Proofs.Table.Policies
import IncrementalLR.Proofs.Table.Nonassociative
import IncrementalLR.Proofs.Parse.Progress
import IncrementalLR.Proofs.Parse.Insertion
import IncrementalLR.Proofs.Parse.Simulation
import IncrementalLR.Proofs.Parse.Frames
import IncrementalLR.Proofs.Parse.Breaking
import IncrementalLR.Proofs.Parse.Flattening
import IncrementalLR.Proofs.Parse.Navigating
import IncrementalLR.Proofs.GrammarText.Notation
import IncrementalLR.Proofs.GrammarText.Phrases
import IncrementalLR.Proofs.GrammarText.Layout
import IncrementalLR.Proofs.Parse.Prices
import IncrementalLR.Proofs.Parse.Precedence
import IncrementalLR.Proofs.Parse.Summaries
import IncrementalLR.Proofs.Ttcn3.CharacterStrings
import IncrementalLR.Proofs.Package.Names
import IncrementalLR.Proofs.Package.Comment
import IncrementalLR.Proofs.Automaton.FirstRounds
import IncrementalLR.Proofs.Automaton.Collection
import IncrementalLR.Proofs.Table.LexModes
import IncrementalLR.Proofs.Parse.Condensing
import IncrementalLR.Proofs.Parse.Reusing

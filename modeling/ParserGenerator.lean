import ParserGenerator.Grammar.Derivation
import ParserGenerator.Main
import ParserGenerator.Nfa.Path
import ParserGenerator.Proofs.Grammar.Stable
import ParserGenerator.Proofs.Grammar.WellFormed
import ParserGenerator.Proofs.Grammar.First
import ParserGenerator.Proofs.Grammar.Trees
import ParserGenerator.Proofs.Automaton.Closure
import ParserGenerator.Proofs.Grammar.Begins
import ParserGenerator.Proofs.Automaton.KnownClosures
import ParserGenerator.Proofs.Automaton.Canonical
import ParserGenerator.Proofs.Automaton.Path
import ParserGenerator.Proofs.Table.Writes
import ParserGenerator.Proofs.Table.Cells
import ParserGenerator.Proofs.Session.Takes
import ParserGenerator.Proofs.Table.Generated
import ParserGenerator.Proofs.Session.Represents
import ParserGenerator.Proofs.Session.Runs
import ParserGenerator.Proofs.Session.Prefixes
import ParserGenerator.Proofs.Session.Expected
import ParserGenerator.Proofs.Nfa.Reach
import ParserGenerator.Proofs.Nfa.Routes
import ParserGenerator.Proofs.Nfa.Construction
import ParserGenerator.Proofs.Nfa.Embedding
import ParserGenerator.Proofs.Regex.Language
import ParserGenerator.Proofs.Regex.Thompson
import ParserGenerator.Proofs.JointNfa.Rules
import ParserGenerator.Proofs.JointNfa.Subsets
import ParserGenerator.Proofs.Lexer.Munch
import ParserGenerator.Proofs.Naming
import ParserGenerator.Lexer.Cursor
import ParserGenerator.Proofs.Lexer.Declared
import ParserGenerator.Proofs.Lexer.Scan
import ParserGenerator.Proofs.Lexer.Cursor
import ParserGenerator.Proofs.Table.Alike
import ParserGenerator.Proofs.Text.Words
import ParserGenerator.Proofs.Table.Written
import ParserGenerator.Proofs.Table.ReadBack
import ParserGenerator.Proofs.Table.RoundTrip
import ParserGenerator.Proofs.Grammar.Following
import ParserGenerator.Proofs.Automaton.Collection
import ParserGenerator.Proofs.Description.Language
import ParserGenerator.Proofs.Session.Steps
import ParserGenerator.Proofs.Description.Phrases
import ParserGenerator.Proofs.Description.Expansion
import ParserGenerator.Proofs.Description.Semantics
import ParserGenerator.Proofs.Session.Leaves
import ParserGenerator.Proofs.Regex.Pattern
import ParserGenerator.Proofs.Description.Names
import ParserGenerator.Proofs.Build.Named
import ParserGenerator.Proofs.Table.Flags
import ParserGenerator.Proofs.Automaton.Labels
import ParserGenerator.Proofs.Table.Contents
import ParserGenerator.Proofs.Build.Reload
import ParserGenerator.Proofs.Grammar.Alike
import ParserGenerator.Proofs.Automaton.Alike
import ParserGenerator.Proofs.Table.Agree
import ParserGenerator.Proofs.Session.Alike
import ParserGenerator.Proofs.Build.Agree
import ParserGenerator.Proofs.Lexer.Loaded
import ParserGenerator.Proofs.CommandLine.Agreement
import ParserGenerator.Proofs.Automaton.LeastClosure
import ParserGenerator.Proofs.Table.CellWrites
import ParserGenerator.Proofs.Table.Contributions
import ParserGenerator.Proofs.Table.Layout
import ParserGenerator.Proofs.Grammar.Renaming
import ParserGenerator.Proofs.Automaton.Renaming
import ParserGenerator.Proofs.Table.Renaming
import ParserGenerator.Proofs.Lexer.Literals
import ParserGenerator.Proofs.Lexer.Policies
import ParserGenerator.Proofs.Session.Equal
import ParserGenerator.Proofs.Table.Accepted
import ParserGenerator.Grammar.Consultation
import ParserGenerator.Proofs.Exploration.Unlimited
import ParserGenerator.Proofs.Automaton.Termination
import ParserGenerator.Proofs.Automaton.Limit
import ParserGenerator.Proofs.Automaton.Lookaheads
import ParserGenerator.Proofs.Grammar.Consultation
import ParserGenerator.Proofs.Session.Stacks
import ParserGenerator.Proofs.Table.History
import ParserGenerator.Proofs.Grammar.Settled
import ParserGenerator.Proofs.Nfa.Worklist
import ParserGenerator.Proofs.JointNfa.States
import ParserGenerator.Proofs.Session.Failures
import ParserGenerator.Proofs.Session.Chains
import ParserGenerator.Proofs.Description.Quoted
import ParserGenerator.Proofs.GrammarFile.Layout
import ParserGenerator.Proofs.Naming.Growth
import ParserGenerator.Proofs.Lexer.Closing
import ParserGenerator.Queue.Pending
import ParserGenerator.Proofs.Queue.Pending
import ParserGenerator.Proofs.SyntaxTree.Traversal

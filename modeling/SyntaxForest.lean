import SyntaxForest.Main
import SyntaxForest.Session.Basic
import SyntaxForest.Tree.Build
import SyntaxForest.Tree.Walk
import SyntaxForest.Proofs.Document.Reading
import SyntaxForest.Proofs.Document.Written
import SyntaxForest.Proofs.Document.Forms
import SyntaxForest.Proofs.Document.Records
import SyntaxForest.Proofs.Document.Trees
import SyntaxForest.Proofs.Document.RoundTrip
import SyntaxForest.Proofs.Document.Nesting
import SyntaxForest.Proofs.Document.Skipping
import SyntaxForest.Proofs.Document.Layouts
import SyntaxForest.Proofs.Document.ForestLayouts
import SyntaxForest.Proofs.Document.Decimals
import SyntaxForest.Proofs.Document.Doubles
import SyntaxForest.Proofs.CommandLine.Dump
import SyntaxForest.Proofs.Source.Text
import SyntaxForest.Proofs.Source.Words
import SyntaxForest.Proofs.Source.Spine
import SyntaxForest.Proofs.Source.Expressions
import SyntaxForest.Proofs.Tree.Checked
import SyntaxForest.Proofs.Source.Statements
import SyntaxForest.Proofs.Source.Programs
import SyntaxForest.Proofs.Source.Branches
import SyntaxForest.Proofs.Source.Signs
import SyntaxForest.Proofs.Tree.Teardown
import SyntaxForest.Proofs.Numeric.Rounding
import SyntaxForest.Proofs.Numeric.Error
import SyntaxForest.Proofs.Numeric.Shortest
import SyntaxForest.Proofs.Numeric.Scientific
import SyntaxForest.Proofs.Tree.Construction
import SyntaxForest.Proofs.Source.Lines
import SyntaxForest.Proofs.Source.Contexts
import SyntaxForest.Proofs.Document.Lexing
import SyntaxForest.Proofs.Document.Strictness
import SyntaxForest.Proofs.Document.Truncation
import SyntaxForest.Proofs.Numeric.Fewest
import SyntaxForest.Proofs.Numeric.Narrowing
import SyntaxForest.Proofs.Source.Literals
import SyntaxForest.Proofs.Source.Sentinel
import SyntaxForest.Proofs.Document.Integers
import SyntaxForest.Proofs.Document.Constants
import SyntaxForest.Proofs.Tree.Traversal
import SyntaxForest.Proofs.Tree.Replacement
import SyntaxForest.Proofs.Tree.Equality
import SyntaxForest.Proofs.Tree.Violations
import SyntaxForest.Proofs.Session.Properties
import SyntaxForest.Proofs.Session.Runs

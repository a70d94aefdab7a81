import RoseLang.Text.Alphabetic
import RoseLang.Text.Numeric
import RoseLang.Text.Uppercase
import RoseLang.Text.Blank
import RoseLang.Text.Utf8
import RoseLang.Text.Lines
import RoseLang.Text.Quoted
import RoseLang.Text.Paint
import RoseLang.Text.Json
import RoseLang.Source.FileSet
import RoseLang.Token.Word
import RoseLang.Token.Basic
import RoseLang.Syntax.Sexp
import RoseLang.Token.Lexer
import RoseLang.Scope.Resolver
import RoseLang.Parse.File
import RoseLang.Diagnostic.OfError
import RoseLang.Diagnostic.Snippet
import RoseLang.Diagnostic.Report
import RoseLang.Main
import RoseLang.Proofs.Parse.Grouping
import RoseLang.Proofs.Syntax.Grammar
import RoseLang.Proofs.Scope.Declarations
import RoseLang.Proofs.Parse.Reading
import RoseLang.Proofs.Syntax.Tokens
import RoseLang.Proofs.Parse.RoundTrip
import RoseLang.Proofs.Parse.Truncation
import RoseLang.Proofs.Parse.Progress
import RoseLang.Proofs.Parse.Levels.File
import RoseLang.Proofs.Token.Extent
import RoseLang.Proofs.Token.Cover
import RoseLang.Proofs.Token.Terminators
import RoseLang.Proofs.Scope.Objects
import RoseLang.Proofs.Scope.Uses
import RoseLang.Proofs.Parse.Names.Lookup
import RoseLang.Proofs.Parse.Names.Expr
import RoseLang.Proofs.Parse.Names.Spec
import RoseLang.Proofs.Parse.Names.File
import RoseLang.Proofs.Scope.Order
import RoseLang.Proofs.Parse.Names.Resolution
import RoseLang.Proofs.Parse.Lines
import RoseLang.Proofs.Parse.Binding
import RoseLang.Proofs.Parse.Height
import RoseLang.Proofs.Parse.Spans.Stmt
import RoseLang.Proofs.Parse.Layout.Tokens
import RoseLang.Proofs.Parse.Layout.Base
import RoseLang.Proofs.Scope.Tables
import RoseLang.Proofs.Token.Rendering
import RoseLang.Proofs.Parse.Append.File
import RoseLang.Proofs.Parse.Names.Collected
import RoseLang.Proofs.Parse.Accounts.File
import RoseLang.Proofs.Token.Lines
import RoseLang.Proofs.Diagnostic.Message
import RoseLang.Proofs.Diagnostic.Lexical
import RoseLang.Proofs.Diagnostic.Place
import RoseLang.Proofs.Command.Verdict
import RoseLang.Proofs.Parse.Numbers
import RoseLang.Proofs.Token.Numeral
import RoseLang.Proofs.Token.Identifiers
import RoseLang.Proofs.Token.Blanked
import RoseLang.Proofs.Token.Quotation
import RoseLang.Proofs.Token.Stepwise
import RoseLang.Proofs.Token.Munch
import RoseLang.Proofs.Source.Lookup
import RoseLang.Proofs.Parse.Legible
import RoseLang.Proofs.Diagnostic.Colour
import RoseLang.Proofs.Diagnostic.Marks

import CPreprocessor.CharacterConstant.Value
import CPreprocessor.CommandLine.Options
import CPreprocessor.CommandLine.Run
import CPreprocessor.Directive
import CPreprocessor.Expression.Value
import CPreprocessor.File.Path
import CPreprocessor.File.System
import CPreprocessor.File.Tree
import CPreprocessor.Grammar.Chart
import CPreprocessor.Grammar.Table
import CPreprocessor.IntegerConstant
import CPreprocessor.Macro.Expansion
import CPreprocessor.Macro.Invocation
import CPreprocessor.Macro.Substitution
import CPreprocessor.Macro.Table
import CPreprocessor.Macro.Termination
import CPreprocessor.Main
import CPreprocessor.Output
import CPreprocessor.Phrase.Grammar
import CPreprocessor.Proofs.CharacterConstant.Decoder
import CPreprocessor.Proofs.CharacterConstant.Greedy
import CPreprocessor.Proofs.CharacterConstant.Language
import CPreprocessor.Proofs.CharacterConstant.Scan
import CPreprocessor.Proofs.CharacterConstant.Tree
import CPreprocessor.Proofs.CharacterConstant.Unambiguous
import CPreprocessor.Proofs.CharacterConstant.Value
import CPreprocessor.Proofs.Condition
import CPreprocessor.Proofs.Diagnostic
import CPreprocessor.Proofs.Directive
import CPreprocessor.Proofs.Expression.Arithmetic
import CPreprocessor.Proofs.Expression.Errors
import CPreprocessor.Proofs.Expression.Internal
import CPreprocessor.Proofs.Expression.Machine
import CPreprocessor.Proofs.Expression.Signedness
import CPreprocessor.Proofs.Expression.Tree
import CPreprocessor.Proofs.Expression.Unused
import CPreprocessor.Proofs.Grammar.Chart
import CPreprocessor.Proofs.Grammar.Closure
import CPreprocessor.Proofs.Grammar.Cover
import CPreprocessor.Proofs.Grammar.Language
import CPreprocessor.Proofs.Grammar.LeftCorner
import CPreprocessor.Proofs.Grammar.Recognition
import CPreprocessor.Proofs.Grammar.Tree
import CPreprocessor.Proofs.IntegerConstant
import CPreprocessor.Proofs.Lexeme.Adjacent
import CPreprocessor.Proofs.Lexeme.Append
import CPreprocessor.Proofs.Lexeme.Comments
import CPreprocessor.Proofs.Lexeme.Delimited
import CPreprocessor.Proofs.Lexeme.Directive
import CPreprocessor.Proofs.Lexeme.Growth
import CPreprocessor.Proofs.Lexeme.Language
import CPreprocessor.Proofs.Lexeme.Line
import CPreprocessor.Proofs.Lexeme.Locality
import CPreprocessor.Proofs.Lexeme.Munch
import CPreprocessor.Proofs.Lexeme.Partition
import CPreprocessor.Proofs.Lexeme.Pieces
import CPreprocessor.Proofs.Lexeme.Quoted
import CPreprocessor.Proofs.Lexeme.Quotient
import CPreprocessor.Proofs.Lexeme.Span
import CPreprocessor.Proofs.Lexeme.Words
import CPreprocessor.Proofs.Macro.Adequacy
import CPreprocessor.Proofs.Macro.Bounds
import CPreprocessor.Proofs.Macro.Characters
import CPreprocessor.Proofs.Macro.Congruence
import CPreprocessor.Proofs.Macro.Errors
import CPreprocessor.Proofs.Macro.Expansion
import CPreprocessor.Proofs.Macro.Invocation
import CPreprocessor.Proofs.Macro.Locality
import CPreprocessor.Proofs.Macro.Machine
import CPreprocessor.Proofs.Macro.Object
import CPreprocessor.Proofs.Macro.Parameters
import CPreprocessor.Proofs.Macro.Prosser
import CPreprocessor.Proofs.Macro.Provenance
import CPreprocessor.Proofs.Macro.Redefinition
import CPreprocessor.Proofs.Macro.Replacement
import CPreprocessor.Proofs.Macro.Scan
import CPreprocessor.Proofs.Macro.Stringize
import CPreprocessor.Proofs.Macro.Table
import CPreprocessor.Proofs.Macro.Tokens
import CPreprocessor.Proofs.Macro.WellFormed
import CPreprocessor.Proofs.Output
import CPreprocessor.Proofs.Phrase.Directive
import CPreprocessor.Proofs.Phrase.DirectiveTree
import CPreprocessor.Proofs.Phrase.Level
import CPreprocessor.Proofs.Phrase.Precedence
import CPreprocessor.Proofs.Phrase.TypeName
import CPreprocessor.Proofs.Phrase.Unambiguous
import CPreprocessor.Proofs.Session.Adequacy
import CPreprocessor.Proofs.Session.Causality
import CPreprocessor.Proofs.Session.Causes
import CPreprocessor.Proofs.Session.FileName
import CPreprocessor.Proofs.Session.History
import CPreprocessor.Proofs.Session.Inclusion
import CPreprocessor.Proofs.Session.LineNumbers
import CPreprocessor.Proofs.Session.LineRange
import CPreprocessor.Proofs.Session.Lines
import CPreprocessor.Proofs.Session.Local
import CPreprocessor.Proofs.Session.Machine
import CPreprocessor.Proofs.Session.Outline
import CPreprocessor.Proofs.Session.OutputLines
import CPreprocessor.Proofs.Session.Overflow
import CPreprocessor.Proofs.Session.Places
import CPreprocessor.Proofs.Session.Presets
import CPreprocessor.Proofs.Session.Reading
import CPreprocessor.Proofs.Session.Relation
import CPreprocessor.Proofs.Session.Selection
import CPreprocessor.Proofs.Session.SourceMap
import CPreprocessor.Proofs.Session.Stack
import CPreprocessor.Proofs.Session.Start
import CPreprocessor.Proofs.Session.Steps
import CPreprocessor.Proofs.Session.Tokens
import CPreprocessor.Proofs.Session.WellFormed
import CPreprocessor.Proofs.Source.Append
import CPreprocessor.Proofs.Source.Lines
import CPreprocessor.Proofs.Source.Spelling
import CPreprocessor.Proofs.Source.Splice
import CPreprocessor.Proofs.Text.Lossy
import CPreprocessor.Proofs.Text.Quoted
import CPreprocessor.Proofs.Text.Utf8
import CPreprocessor.Proofs.Token
import CPreprocessor.Proofs.Token.Append
import CPreprocessor.Proofs.Token.Joined
import CPreprocessor.Proofs.Token.Kind
import CPreprocessor.Proofs.Token.LineEnds
import CPreprocessor.Proofs.Token.Position
import CPreprocessor.Proofs.Token.Spelling
import CPreprocessor.Proofs.Token.UniversalName
import CPreprocessor.Session.Basic
import CPreprocessor.Session.Conditional
import CPreprocessor.Session.State
import CPreprocessor.Token
import CPreprocessor.Proofs.Session.FileName

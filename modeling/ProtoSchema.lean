import ProtoSchema.Documentation
import ProtoSchema.Json.Basic
import ProtoSchema.Json.Schema
import ProtoSchema.Number.Binary64
import ProtoSchema.Number.Layout
import ProtoSchema.Number.Shortest
import ProtoSchema.Parse
import ProtoSchema.Proofs.Grammar.Declaration
import ProtoSchema.Proofs.Grammar.Depth
import ProtoSchema.Proofs.Grammar.File
import ProtoSchema.Proofs.Grammar.Phrase
import ProtoSchema.Proofs.Grammar.Rearrangement
import ProtoSchema.Proofs.Grammar.Value
import ProtoSchema.Proofs.Grammar.Verdict
import ProtoSchema.Proofs.Json.Schema
import ProtoSchema.Proofs.Json.Text
import ProtoSchema.Proofs.Lexing.Cut
import ProtoSchema.Proofs.Lexing.Digits
import ProtoSchema.Proofs.Lexing.Documentation
import ProtoSchema.Proofs.Lexing.Exact
import ProtoSchema.Proofs.Lexing.Filler
import ProtoSchema.Proofs.Lexing.Integer
import ProtoSchema.Proofs.Lexing.Layout
import ProtoSchema.Proofs.Lexing.Lines
import ProtoSchema.Proofs.Lexing.Literal
import ProtoSchema.Proofs.Lexing.Lookahead
import ProtoSchema.Proofs.Lexing.Name
import ProtoSchema.Proofs.Lexing.Numeral
import ProtoSchema.Proofs.Lexing.Place
import ProtoSchema.Proofs.Lexing.Run
import ProtoSchema.Proofs.Lexing.Shape
import ProtoSchema.Proofs.Lexing.Spelling
import ProtoSchema.Proofs.Lexing.Tiling
import ProtoSchema.Proofs.Lexing.Words
import ProtoSchema.Proofs.Number.Rounding
import ProtoSchema.Proofs.Number.Shortest
import ProtoSchema.Proofs.Reading.Acceptance
import ProtoSchema.Proofs.Reading.Blame
import ProtoSchema.Proofs.Reading.Built
import ProtoSchema.Proofs.Reading.Clash
import ProtoSchema.Proofs.Reading.Completion
import ProtoSchema.Proofs.Reading.CountingCursor
import ProtoSchema.Proofs.Reading.Cursor
import ProtoSchema.Proofs.Reading.Declaration
import ProtoSchema.Proofs.Reading.File
import ProtoSchema.Proofs.Reading.Halting
import ProtoSchema.Proofs.Reading.Literal
import ProtoSchema.Proofs.Reading.Locality
import ProtoSchema.Proofs.Reading.Message
import ProtoSchema.Proofs.Reading.Mirror
import ProtoSchema.Proofs.Reading.Nesting
import ProtoSchema.Proofs.Reading.Parse
import ProtoSchema.Proofs.Reading.Place
import ProtoSchema.Proofs.Reading.Reader
import ProtoSchema.Proofs.Reading.Rearrangement
import ProtoSchema.Proofs.Reading.Rejection
import ProtoSchema.Proofs.Reading.Simulation
import ProtoSchema.Proofs.Reading.Spacing
import ProtoSchema.Proofs.Reading.Value
import ProtoSchema.Proofs.Reading.Verdict
import ProtoSchema.Proofs.Reading.Viability
import ProtoSchema.Proofs.RoundTrip.Declaration
import ProtoSchema.Proofs.RoundTrip.Documentation
import ProtoSchema.Proofs.RoundTrip.File
import ProtoSchema.Proofs.RoundTrip.InPlace
import ProtoSchema.Proofs.RoundTrip.Parsed
import ProtoSchema.Proofs.RoundTrip.Value
import ProtoSchema.Proofs.RoundTrip.Writable
import ProtoSchema.Proofs.RoundTrip.Written
import ProtoSchema.Proofs.Schema.Construction
import ProtoSchema.Proofs.Schema.Fault
import ProtoSchema.Proofs.Schema.FullName
import ProtoSchema.Proofs.Schema.Identifiers
import ProtoSchema.Proofs.Schema.MapDoc
import ProtoSchema.Proofs.Schema.Naming
import ProtoSchema.Proofs.Schema.Remaking
import ProtoSchema.Proofs.Schema.Validity
import ProtoSchema.Proofs.Schema.Walk
import ProtoSchema.Proofs.Text.Place
import ProtoSchema.Reading.Declaration
import ProtoSchema.Reading.Failure
import ProtoSchema.Reading.File
import ProtoSchema.Reading.Message
import ProtoSchema.Reading.Option
import ProtoSchema.Reading.Reader
import ProtoSchema.Reading.Unlimited
import ProtoSchema.Render.Declaration
import ProtoSchema.Render.File
import ProtoSchema.Render.Value
import ProtoSchema.Schema.Check
import ProtoSchema.Schema.Enum
import ProtoSchema.Schema.Field
import ProtoSchema.Schema.File
import ProtoSchema.Schema.Message
import ProtoSchema.Schema.Service
import ProtoSchema.Schema.Tag
import ProtoSchema.Schema.TypeWalk
import ProtoSchema.Schema.Value
import ProtoSchema.Schema.Violation
import ProtoSchema.Text.Blank
import ProtoSchema.Text.Lines
import ProtoSchema.Text.Position
import ProtoSchema.Text.Quoted
import ProtoSchema.Text.Utf8
import ProtoSchema.Token
import ProtoSchema.Token.Filler
import ProtoSchema.Token.Lexer
import ProtoSchema.Token.Literal
import ProtoSchema.Token.Numeral
import ProtoSchema.Token.Scan

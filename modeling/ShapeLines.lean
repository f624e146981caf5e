import ShapeLines.Text.Blank
import ShapeLines.Text.Split
import ShapeLines.KeyMap
import ShapeLines.Decimal.Binary64
import ShapeLines.Decimal.Shortest
import ShapeLines.Decimal.Notation
import ShapeLines.Json.Number
import ShapeLines.Json.Quoted
import ShapeLines.Json.Basic
import ShapeLines.Json.Member
import ShapeLines.Json.Token
import ShapeLines.Json.Text
import ShapeLines.Fullname.Basic
import ShapeLines.Fullname.Positional
import ShapeLines.Shape.Basic
import ShapeLines.Shape.Binding
import ShapeLines.Shape.Codec
import ShapeLines.Shape.Text
import ShapeLines.Line.Error
import ShapeLines.Line.Comma
import ShapeLines.Line.ListLiteral
import ShapeLines.Line.Pair
import ShapeLines.Line.Entry
import ShapeLines.Line.Block
import ShapeLines.Line.KeyOrder
import ShapeLines.Line.Writer
import ShapeLines.Schema.Error
import ShapeLines.Schema.Keyword
import ShapeLines.Schema.Attribute
import ShapeLines.Schema.Basic
import ShapeLines.Schema.Document
import ShapeLines.Schema.Flatten
import ShapeLines.Schema.Draft
import ShapeLines.Query.Coercion
import ShapeLines.Query.KeyTree
import ShapeLines.Query.Text
import ShapeLines.Step.Basic
import ShapeLines.Step.Plan
import ShapeLines.Step.Block
import ShapeLines.Step.Codec
import ShapeLines.Sample
import ShapeLines.Proofs.Arranged
import ShapeLines.Proofs.Text.Trimmed
import ShapeLines.Proofs.Text.Joined
import ShapeLines.Proofs.Line.Comma
import ShapeLines.Proofs.Json.QuotedText
import ShapeLines.Proofs.Json.Brackets
import ShapeLines.Proofs.Json.TextRoundTrip
import ShapeLines.Proofs.Json.Letters
import ShapeLines.Proofs.Line.ListLiteral
import ShapeLines.Proofs.KeyMap
import ShapeLines.Proofs.Line.Declared
import ShapeLines.Proofs.Line.PairOrder
import ShapeLines.Proofs.Shape.WrittenLine
import ShapeLines.Proofs.Line.Writer
import ShapeLines.Proofs.Shape.WrittenText
import ShapeLines.Proofs.Line.KeyOrder
import ShapeLines.Proofs.Shape.WrittenField
import ShapeLines.Proofs.Shape.TextRoundTrip
import ShapeLines.Proofs.Fullname.Plain
import ShapeLines.Proofs.Schema.Way
import ShapeLines.Proofs.Schema.Tree
import ShapeLines.Proofs.Schema.Growth
import ShapeLines.Proofs.Schema.Marks
import ShapeLines.Proofs.Schema.Declaration
import ShapeLines.Proofs.Schema.Declared
import ShapeLines.Proofs.Schema.Neat
import ShapeLines.Proofs.Schema.Written
import ShapeLines.Proofs.Schema.Read
import ShapeLines.Proofs.Schema.FieldDocument
import ShapeLines.Proofs.Schema.Keywords
import ShapeLines.Proofs.Schema.Taken
import ShapeLines.Proofs.Schema.AttributeRoundTrip
import ShapeLines.Proofs.Schema.Flattened
import ShapeLines.Proofs.Schema.Drafted
import ShapeLines.Proofs.Schema.FieldRoundTrip
import ShapeLines.Proofs.Schema.Declarable
import ShapeLines.Proofs.Json.Rearranged
import ShapeLines.Proofs.Schema.Alike
import ShapeLines.Proofs.Schema.Rebuilt
import ShapeLines.Proofs.Schema.DocumentRoundTrip
import ShapeLines.Proofs.Schema.ExamplesRoundTrip
import ShapeLines.Proofs.Schema.Merged
import ShapeLines.Proofs.Schema.Outline
import ShapeLines.Proofs.Schema.Agreement
import ShapeLines.Proofs.Schema.Reached
import ShapeLines.Proofs.Schema.ShownNodes
import ShapeLines.Proofs.Schema.RequiredPlacement
import ShapeLines.Proofs.Schema.OwnFlag
import ShapeLines.Proofs.Fullname.Enclosing
import ShapeLines.Proofs.Fullname.Ancestor
import ShapeLines.Proofs.Fullname.Encloses
import ShapeLines.Proofs.Fullname.Positional
import ShapeLines.Proofs.Fullname.Canonical
import ShapeLines.Proofs.Query.Groups
import ShapeLines.Proofs.Shape.Containers
import ShapeLines.Proofs.Step.Layout
import ShapeLines.Proofs.Step.Ancestors
import ShapeLines.Proofs.Results
import ShapeLines.Proofs.Text.Lines
import ShapeLines.Proofs.Text.Runs
import ShapeLines.Proofs.Shape.Blocks
import ShapeLines.Proofs.Query.Insertion
import ShapeLines.Proofs.Query.Content
import ShapeLines.Proofs.Query.Grouping
import ShapeLines.Proofs.Query.Reading
import ShapeLines.Proofs.Query.Namespace
import ShapeLines.Proofs.Line.Closing
import ShapeLines.Proofs.Line.Pairs
import ShapeLines.Proofs.Line.Pieces
import ShapeLines.Proofs.Line.Expansion
import ShapeLines.Proofs.Line.Tells
import ShapeLines.Proofs.Line.Relaid
import ShapeLines.Proofs.Line.Room
import ShapeLines.Proofs.Shape.Entries
import ShapeLines.Proofs.Shape.ReadField
import ShapeLines.Proofs.Shape.FieldLines
import ShapeLines.Proofs.Shape.Layout
import ShapeLines.Proofs.Shape.Reread
import ShapeLines.Proofs.Shape.LineCount
import ShapeLines.Proofs.Shape.KeptKeys
import ShapeLines.Proofs.Shape.Produced
import ShapeLines.Proofs.Line.Faults
import ShapeLines.Proofs.Shape.FirstFault
import ShapeLines.Proofs.Fullname.Inverse
import ShapeLines.Proofs.Sample
import ShapeLines.Proofs.Json.Record
import ShapeLines.Proofs.Shape.Codec
import ShapeLines.Proofs.Step.Codec

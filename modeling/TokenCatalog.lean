import TokenCatalog.Bytes.Base64
import TokenCatalog.Bytes.Number
import TokenCatalog.Bytes.Utf8
import TokenCatalog.Catalog.Document
import TokenCatalog.Catalog.Merge
import TokenCatalog.Catalog.Model
import TokenCatalog.Catalog.Shape
import TokenCatalog.Command.Arguments
import TokenCatalog.Command.Build
import TokenCatalog.Command.Problem
import TokenCatalog.Command.Program
import TokenCatalog.Command.Session
import TokenCatalog.Command.Show
import TokenCatalog.Command.Terminal
import TokenCatalog.Command.Usage
import TokenCatalog.Css.Color
import TokenCatalog.Css.ColorName
import TokenCatalog.Css.Component
import TokenCatalog.Css.Lexeme
import TokenCatalog.Css.Tree
import TokenCatalog.Css.Write
import TokenCatalog.Extraction.Fault
import TokenCatalog.Extraction.Parser
import TokenCatalog.Extraction.Registry
import TokenCatalog.Extraction.SourceDocument
import TokenCatalog.Icon.Parse
import TokenCatalog.Image.Format
import TokenCatalog.Image.Gif
import TokenCatalog.Image.Jpeg
import TokenCatalog.Image.Parse
import TokenCatalog.Image.Png
import TokenCatalog.Json.Basic
import TokenCatalog.Json.Display
import TokenCatalog.Json.Read
import TokenCatalog.Json.Write
import TokenCatalog.Log.Entry
import TokenCatalog.Log.Handler
import TokenCatalog.Log.Record
import TokenCatalog.Log.Template
import TokenCatalog.Log.Timestamp
import TokenCatalog.Main
import TokenCatalog.Number.Binary64
import TokenCatalog.Number.Decimal
import TokenCatalog.Number.Whole
import TokenCatalog.Project.Access
import TokenCatalog.Project.Braces
import TokenCatalog.Project.Discover
import TokenCatalog.Project.Disk
import TokenCatalog.Project.Glob
import TokenCatalog.Project.Host
import TokenCatalog.Project.Ignore
import TokenCatalog.Project.Load
import TokenCatalog.Project.Tree
import TokenCatalog.Project.Wildcard
import TokenCatalog.Proofs.Bytes.Base64
import TokenCatalog.Proofs.Bytes.Utf8
import TokenCatalog.Proofs.Bytes.WellFormed
import TokenCatalog.Proofs.Catalog.Described
import TokenCatalog.Proofs.Catalog.Document
import TokenCatalog.Proofs.Catalog.Foreseen
import TokenCatalog.Proofs.Catalog.Latest
import TokenCatalog.Proofs.Catalog.Merge
import TokenCatalog.Proofs.Catalog.Rearranged
import TokenCatalog.Proofs.Command.Run
import TokenCatalog.Proofs.Command.Show
import TokenCatalog.Proofs.Command.Table
import TokenCatalog.Proofs.Css.Alike
import TokenCatalog.Proofs.Css.CollapsedColor
import TokenCatalog.Proofs.Css.ColorRange
import TokenCatalog.Proofs.Css.Comment
import TokenCatalog.Proofs.Css.Edged
import TokenCatalog.Proofs.Css.Numeral
import TokenCatalog.Proofs.Css.Opening
import TokenCatalog.Proofs.Css.Padded
import TokenCatalog.Proofs.Css.Respaced
import TokenCatalog.Proofs.Css.Row
import TokenCatalog.Proofs.Css.Scanners
import TokenCatalog.Proofs.Css.Slice
import TokenCatalog.Proofs.Css.Snug
import TokenCatalog.Proofs.Css.Squeezed
import TokenCatalog.Proofs.Css.Stop
import TokenCatalog.Proofs.Css.Uniform
import TokenCatalog.Proofs.Css.Verbatim
import TokenCatalog.Proofs.Css.Within
import TokenCatalog.Proofs.Css.Word
import TokenCatalog.Proofs.Css.Written
import TokenCatalog.Proofs.Except
import TokenCatalog.Proofs.Extraction.Contents
import TokenCatalog.Proofs.Extraction.Extracted
import TokenCatalog.Proofs.Extraction.Incremental
import TokenCatalog.Proofs.Extraction.Isolation
import TokenCatalog.Proofs.Extraction.Keyframes
import TokenCatalog.Proofs.Extraction.Registered
import TokenCatalog.Proofs.Extraction.Routing
import TokenCatalog.Proofs.Extraction.SourceDocument
import TokenCatalog.Proofs.Icon.Fragment
import TokenCatalog.Proofs.Icon.InPlace
import TokenCatalog.Proofs.Icon.SelfContained
import TokenCatalog.Proofs.Image.Payload
import TokenCatalog.Proofs.Json.RoundTrip
import TokenCatalog.Proofs.Json.Scalars
import TokenCatalog.Proofs.Json.Table
import TokenCatalog.Proofs.Log.Entry
import TokenCatalog.Proofs.Number.Binary64
import TokenCatalog.Proofs.Number.Exact
import TokenCatalog.Proofs.Number.Nearest
import TokenCatalog.Proofs.Number.Shortest
import TokenCatalog.Proofs.Project.Discovery
import TokenCatalog.Proofs.Project.Loading
import TokenCatalog.Proofs.Project.Prefilter
import TokenCatalog.Proofs.Settings.Fields
import TokenCatalog.Proofs.Settings.Precedence
import TokenCatalog.Proofs.Settings.Validated
import TokenCatalog.Proofs.Stylesheet.Alias
import TokenCatalog.Proofs.Stylesheet.Annotation
import TokenCatalog.Proofs.Stylesheet.Keyframes
import TokenCatalog.Proofs.Stylesheet.LexicalScope
import TokenCatalog.Proofs.Stylesheet.Located
import TokenCatalog.Proofs.Stylesheet.Passages
import TokenCatalog.Proofs.Stylesheet.Placed
import TokenCatalog.Proofs.Stylesheet.Readable
import TokenCatalog.Proofs.Stylesheet.Reported
import TokenCatalog.Proofs.Stylesheet.Rewritten
import TokenCatalog.Proofs.Stylesheet.Settled
import TokenCatalog.Proofs.Stylesheet.Unmarked
import TokenCatalog.Proofs.Text.Digit
import TokenCatalog.Proofs.Text.Squeeze
import TokenCatalog.Proofs.Value.Agreement
import TokenCatalog.Proofs.Value.CollapsedForm
import TokenCatalog.Proofs.Value.FamilyForm
import TokenCatalog.Proofs.Value.Flag
import TokenCatalog.Proofs.Value.FunctionalColor
import TokenCatalog.Proofs.Value.HexColor
import TokenCatalog.Proofs.Value.Hint
import TokenCatalog.Proofs.Value.LengthForm
import TokenCatalog.Proofs.Value.Overflow
import TokenCatalog.Proofs.Value.Recognized
import TokenCatalog.Proofs.Xml.Grammar
import TokenCatalog.Proofs.Xml.Namespaces
import TokenCatalog.Proofs.Xml.Prefixes
import TokenCatalog.Proofs.Xml.Reread
import TokenCatalog.Proofs.Xml.Scans
import TokenCatalog.Proofs.Xml.Tidy
import TokenCatalog.Settings.Basic
import TokenCatalog.Settings.Check
import TokenCatalog.Settings.Load
import TokenCatalog.Source.File
import TokenCatalog.Source.Type
import TokenCatalog.Stylesheet.Dialect
import TokenCatalog.Stylesheet.LineComment
import TokenCatalog.Stylesheet.Marker
import TokenCatalog.Stylesheet.Parse
import TokenCatalog.Stylesheet.Scope
import TokenCatalog.Stylesheet.Statement
import TokenCatalog.Text.Blank
import TokenCatalog.Text.Digit
import TokenCatalog.Text.Lines
import TokenCatalog.Text.Lowercase
import TokenCatalog.Text.Printable
import TokenCatalog.Text.Ranges
import TokenCatalog.Text.Similarity
import TokenCatalog.Text.Uppercase
import TokenCatalog.Text.Word
import TokenCatalog.Value.Classify
import TokenCatalog.Value.Color
import TokenCatalog.Value.Flag
import TokenCatalog.Value.Kind
import TokenCatalog.Xml.Doctype
import TokenCatalog.Xml.Event
import TokenCatalog.Xml.Heading
import TokenCatalog.Xml.Name
import TokenCatalog.Xml.Passage
import TokenCatalog.Xml.Reference
import TokenCatalog.Xml.Scan
import TokenCatalog.Xml.Tag
import TokenCatalog.Xml.Tree
import TokenCatalog.Xml.Write

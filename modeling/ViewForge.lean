import ViewForge.Action.Call
import ViewForge.Application
import ViewForge.Code.Basic
import ViewForge.Code.Printer
import ViewForge.CommandLine.Arguments
import ViewForge.CommandLine.Options
import ViewForge.CommandLine.Run
import ViewForge.Component.Blocks
import ViewForge.Element.Basic
import ViewForge.Element.Reader
import ViewForge.Error
import ViewForge.Error.Reading
import ViewForge.Files.Basic
import ViewForge.Files.Path
import ViewForge.Layout.Condition
import ViewForge.Layout.Constraint
import ViewForge.Live.Basic
import ViewForge.Live.Session
import ViewForge.Main
import ViewForge.Markup.Event
import ViewForge.Markup.Node
import ViewForge.Markup.Reader
import ViewForge.Number.Decimal
import ViewForge.Number.Dyadic
import ViewForge.Ordered
import ViewForge.Platform
import ViewForge.Project.Compile
import ViewForge.Project.Output
import ViewForge.Project.Sink
import ViewForge.Proofs.Applied
import ViewForge.Proofs.Code
import ViewForge.Proofs.Code.Described
import ViewForge.Proofs.Code.Indentation
import ViewForge.Proofs.Code.Literal
import ViewForge.Proofs.Code.Shifted
import ViewForge.Proofs.Component.Blocks
import ViewForge.Proofs.Component.Joined
import ViewForge.Proofs.Component.Segments
import ViewForge.Proofs.Element.Actions
import ViewForge.Proofs.Element.Declared
import ViewForge.Proofs.Element.Ids
import ViewForge.Proofs.Element.Numbering
import ViewForge.Proofs.Element.Origin
import ViewForge.Proofs.Element.Preorder
import ViewForge.Proofs.Element.Reader
import ViewForge.Proofs.Element.Steps
import ViewForge.Proofs.Element.Tree
import ViewForge.Proofs.Element.Written
import ViewForge.Proofs.Files
import ViewForge.Proofs.Layout.Attribute
import ViewForge.Proofs.Layout.Clause
import ViewForge.Proofs.Layout.Grammar
import ViewForge.Proofs.Layout.Plan
import ViewForge.Proofs.Layout.Printed
import ViewForge.Proofs.Live.Layout
import ViewForge.Proofs.Live.Nesting
import ViewForge.Proofs.Live.Session
import ViewForge.Proofs.Live.Shown
import ViewForge.Proofs.Live.Walk
import ViewForge.Proofs.Markup
import ViewForge.Proofs.Number.Literal
import ViewForge.Proofs.Number.Rounding
import ViewForge.Proofs.Number.Shortest
import ViewForge.Proofs.Ordered
import ViewForge.Proofs.Project.Agreement
import ViewForge.Proofs.Project.Alike
import ViewForge.Proofs.Project.Delivered
import ViewForge.Proofs.Project.Directory
import ViewForge.Proofs.Project.Emission
import ViewForge.Proofs.Project.Order
import ViewForge.Proofs.Project.Reads
import ViewForge.Proofs.Project.Skipping
import ViewForge.Proofs.Property
import ViewForge.Proofs.Registry
import ViewForge.Proofs.Resolve.Action
import ViewForge.Proofs.Resolve.Applications
import ViewForge.Proofs.Resolve.Argument
import ViewForge.Proofs.Resolve.Cache
import ViewForge.Proofs.Resolve.Checked
import ViewForge.Proofs.Resolve.Component
import ViewForge.Proofs.Resolve.Cycle
import ViewForge.Proofs.Resolve.Derivation
import ViewForge.Proofs.Resolve.Inference
import ViewForge.Proofs.Resolve.Layers
import ViewForge.Proofs.Resolve.Properties
import ViewForge.Proofs.Resolve.Reordered
import ViewForge.Proofs.Resolve.State
import ViewForge.Proofs.Resolve.Tracking
import ViewForge.Proofs.Resolver
import ViewForge.Proofs.Source.Action
import ViewForge.Proofs.Source.Argument
import ViewForge.Proofs.Source.Bodies
import ViewForge.Proofs.Source.Component
import ViewForge.Proofs.Source.Declared
import ViewForge.Proofs.Source.Fields
import ViewForge.Proofs.Source.Independence
import ViewForge.Proofs.Source.Layout
import ViewForge.Proofs.Source.Mention
import ViewForge.Proofs.Source.Nested
import ViewForge.Proofs.Source.Reads
import ViewForge.Proofs.Source.Shared
import ViewForge.Proofs.Source.Strategies
import ViewForge.Proofs.Style.Calls
import ViewForge.Proofs.Style.Expansion
import ViewForge.Proofs.Style.Flatten
import ViewForge.Proofs.Style.Meaning
import ViewForge.Proofs.Style.Reads
import ViewForge.Proofs.Style.Scopes
import ViewForge.Proofs.Style.Shared
import ViewForge.Proofs.Style.Slots
import ViewForge.Proofs.Style.ThemeScope
import ViewForge.Proofs.Task
import ViewForge.Proofs.Theme
import ViewForge.Proofs.Theme.Chain
import ViewForge.Proofs.Theme.Resolution
import ViewForge.Proofs.Token.Blanks
import ViewForge.Proofs.Token.Separated
import ViewForge.Proofs.Trails
import ViewForge.Proofs.Value
import ViewForge.Proofs.Value.Dimension
import ViewForge.Proofs.Value.Naming
import ViewForge.Proofs.Value.Themed
import ViewForge.Proofs.Value.Typing
import ViewForge.Proofs.Within
import ViewForge.Property
import ViewForge.Registry
import ViewForge.Resolve.Action
import ViewForge.Resolve.Component
import ViewForge.Resolve.State
import ViewForge.Resolve.Types
import ViewForge.Settings.Basic
import ViewForge.Settings.Json
import ViewForge.Settings.Toml.Document
import ViewForge.Settings.Toml.Scalar
import ViewForge.Source.Action
import ViewForge.Source.Component
import ViewForge.Source.Configuration
import ViewForge.Source.Imports
import ViewForge.Source.Layout
import ViewForge.Source.State
import ViewForge.Source.Style
import ViewForge.Source.Theme
import ViewForge.Style.Basic
import ViewForge.Style.Flatten
import ViewForge.Task
import ViewForge.Text.Basic
import ViewForge.Text.Case
import ViewForge.Text.Classes
import ViewForge.Theme.Access
import ViewForge.Theme.Items
import ViewForge.Token.Basic
import ViewForge.Token.Cursor
import ViewForge.Token.Lexer
import ViewForge.Value.Basic
import ViewForge.Value.Color
import ViewForge.Value.Dimension
import ViewForge.Value.Font
import ViewForge.Value.Keyword
import ViewForge.Value.Live
import ViewForge.Value.Type
import ViewForge.Widget

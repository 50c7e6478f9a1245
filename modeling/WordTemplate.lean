import WordTemplate.CommandLine.Arguments
import WordTemplate.CommandLine.Run
import WordTemplate.Decimal.Double
import WordTemplate.Decimal.Shortest
import WordTemplate.Files.Host
import WordTemplate.Files.Path
import WordTemplate.Files.Tree
import WordTemplate.Filling.Firing
import WordTemplate.Filling.Inline
import WordTemplate.Filling.Lines
import WordTemplate.Filling.Lists
import WordTemplate.Filling.Passes
import WordTemplate.Filling.Rows
import WordTemplate.Filling.Singles
import WordTemplate.Formatter
import WordTemplate.Json.Basic
import WordTemplate.Json.Reader
import WordTemplate.Key
import WordTemplate.Main
import WordTemplate.Markup.Document
import WordTemplate.Markup.Escape
import WordTemplate.Markup.Reader
import WordTemplate.Markup.Token
import WordTemplate.Markup.Tree
import WordTemplate.Markup.Walk
import WordTemplate.Named
import WordTemplate.Package.Basic
import WordTemplate.Package.Directory
import WordTemplate.Package.Gallery
import WordTemplate.Package.Registry
import WordTemplate.Params.Basic
import WordTemplate.Params.Image
import WordTemplate.Params.Lookup
import WordTemplate.Placeholder
import WordTemplate.Proofs.Filling.Aims
import WordTemplate.Proofs.Filling.Commands
import WordTemplate.Proofs.Filling.Dressing
import WordTemplate.Proofs.Filling.Expansion
import WordTemplate.Proofs.Filling.Finish
import WordTemplate.Proofs.Filling.FreeRuns
import WordTemplate.Proofs.Filling.FreeTexts
import WordTemplate.Proofs.Filling.Idle
import WordTemplate.Proofs.Filling.Inert
import WordTemplate.Proofs.Filling.InlineNumbers
import WordTemplate.Proofs.Filling.Inserts
import WordTemplate.Proofs.Filling.LineFeeds
import WordTemplate.Proofs.Filling.LineParagraphs
import WordTemplate.Proofs.Filling.MaskedInline
import WordTemplate.Proofs.Filling.MaskedLines
import WordTemplate.Proofs.Filling.MaskedRows
import WordTemplate.Proofs.Filling.MaskedSingles
import WordTemplate.Proofs.Filling.MaskedStart
import WordTemplate.Proofs.Filling.NestedRows
import WordTemplate.Proofs.Filling.ParallelLists
import WordTemplate.Proofs.Filling.RecordRows
import WordTemplate.Proofs.Filling.Repairs
import WordTemplate.Proofs.Filling.Repeats
import WordTemplate.Proofs.Filling.RowCopies
import WordTemplate.Proofs.Filling.RowKeys
import WordTemplate.Proofs.Filling.RowPlaces
import WordTemplate.Proofs.Filling.RowRuns
import WordTemplate.Proofs.Filling.RowStores
import WordTemplate.Proofs.Filling.RowTrees
import WordTemplate.Proofs.Filling.Scopes
import WordTemplate.Proofs.Filling.Simultaneous
import WordTemplate.Proofs.Filling.SoleMarker
import WordTemplate.Proofs.Filling.SoundTrees
import WordTemplate.Proofs.Filling.Splices
import WordTemplate.Proofs.Filling.SplitParagraphs
import WordTemplate.Proofs.Filling.SplitRuns
import WordTemplate.Proofs.Filling.Substituting
import WordTemplate.Proofs.Filling.TriggerEffect
import WordTemplate.Proofs.Filling.TriggerPasses
import WordTemplate.Proofs.Filling.Triggering
import WordTemplate.Proofs.Filling.Unmatched
import WordTemplate.Proofs.Filling.UprightPasses
import WordTemplate.Proofs.Filling.Visits
import WordTemplate.Proofs.Key
import WordTemplate.Proofs.Markup.Covering
import WordTemplate.Proofs.Markup.DistinctKeys
import WordTemplate.Proofs.Markup.Edits
import WordTemplate.Proofs.Markup.Forest
import WordTemplate.Proofs.Markup.Growth
import WordTemplate.Proofs.Markup.Independence
import WordTemplate.Proofs.Markup.Layout
import WordTemplate.Proofs.Markup.Moves
import WordTemplate.Proofs.Markup.Outline
import WordTemplate.Proofs.Markup.Paths
import WordTemplate.Proofs.Markup.Reading
import WordTemplate.Proofs.Markup.Recode
import WordTemplate.Proofs.Markup.Removal
import WordTemplate.Proofs.Markup.Reread
import WordTemplate.Proofs.Markup.Rooted
import WordTemplate.Proofs.Markup.RoundTrip
import WordTemplate.Proofs.Markup.Severed
import WordTemplate.Proofs.Markup.Slots
import WordTemplate.Proofs.Markup.Store
import WordTemplate.Proofs.Markup.Surgery
import WordTemplate.Proofs.Markup.Tending
import WordTemplate.Proofs.Markup.Tours
import WordTemplate.Proofs.Markup.Trees
import WordTemplate.Proofs.Markup.Visible
import WordTemplate.Proofs.Markup.Walks
import WordTemplate.Proofs.Markup.WellFormed
import WordTemplate.Proofs.Package.Images
import WordTemplate.Proofs.Package.Parts
import WordTemplate.Proofs.Package.Requests
import WordTemplate.Proofs.Params.Addresses
import WordTemplate.Proofs.Params.Captures
import WordTemplate.Proofs.Params.CompactKeys
import WordTemplate.Proofs.Params.Foreign
import WordTemplate.Proofs.Params.Indexing
import WordTemplate.Proofs.Params.LookUps
import WordTemplate.Proofs.Params.Masking
import WordTemplate.Proofs.Params.Pending
import WordTemplate.Proofs.Params.Recode
import WordTemplate.Proofs.Params.Running
import WordTemplate.Proofs.Params.Trails
import WordTemplate.Proofs.Params.Values
import WordTemplate.Proofs.Placeholder.Apart
import WordTemplate.Proofs.Placeholder.Braceless
import WordTemplate.Proofs.Placeholder.Bridges
import WordTemplate.Proofs.Placeholder.Cutting
import WordTemplate.Proofs.Placeholder.Grammar
import WordTemplate.Proofs.Placeholder.Reading
import WordTemplate.Proofs.Placeholder.Rekeying
import WordTemplate.Proofs.Placeholder.Spans
import WordTemplate.Proofs.Placeholder.Tidy
import WordTemplate.Proofs.Placeholder.Writing
import WordTemplate.Proofs.Settings.Groups
import WordTemplate.Proofs.Template.Filled
import WordTemplate.Proofs.Template.Remaining
import WordTemplate.Proofs.Template.Unfilled
import WordTemplate.Proofs.Wordml.Absorbing
import WordTemplate.Proofs.Wordml.Fusing
import WordTemplate.Proofs.Wordml.Merging
import WordTemplate.Proofs.Wordml.Paragraphs
import WordTemplate.Proofs.Wordml.Remains
import WordTemplate.Proofs.Wordml.Repaired
import WordTemplate.Proofs.Wordml.Repairing
import WordTemplate.Proofs.Wordml.Upright
import WordTemplate.Settings.Basic
import WordTemplate.Settings.Expansion
import WordTemplate.Settings.Loading
import WordTemplate.Template
import WordTemplate.Text.Alphanumeric
import WordTemplate.Text.Blank
import WordTemplate.Text.LetterCase
import WordTemplate.Text.Numeral
import WordTemplate.Text.Pieces
import WordTemplate.Toml.Basic
import WordTemplate.Toml.Reader
import WordTemplate.Toml.Scalar
import WordTemplate.Toml.Text
import WordTemplate.Trigger
import WordTemplate.Wordml.Runs
import WordTemplate.Wordml.Vocabulary

import SymbolAtlas.Checked.Entity
import SymbolAtlas.Checked.Facts
import SymbolAtlas.Checked.Memory
import SymbolAtlas.Checked.Outline
import SymbolAtlas.Checked.Phrase
import SymbolAtlas.Checked.Program
import SymbolAtlas.Checked.Report
import SymbolAtlas.Checked.Stub
import SymbolAtlas.Checked.Toolchain
import SymbolAtlas.CommandLine.Bundle
import SymbolAtlas.CommandLine.Command
import SymbolAtlas.CommandLine.Flags
import SymbolAtlas.CommandLine.Listing
import SymbolAtlas.CommandLine.Run
import SymbolAtlas.Descriptor
import SymbolAtlas.Digest
import SymbolAtlas.Discovery
import SymbolAtlas.Disk
import SymbolAtlas.FileTree
import SymbolAtlas.FileTree.Report
import SymbolAtlas.Glob
import SymbolAtlas.Graph
import SymbolAtlas.Graph.Report
import SymbolAtlas.Json.Basic
import SymbolAtlas.Json.Printer
import SymbolAtlas.Json.Reader
import SymbolAtlas.Lsif.Line
import SymbolAtlas.Lsif.Numbering
import SymbolAtlas.Lsif.Writer
import SymbolAtlas.Main
import SymbolAtlas.Module.Escaped
import SymbolAtlas.Module.File
import SymbolAtlas.Moniker
import SymbolAtlas.Naming
import SymbolAtlas.Oracle
import SymbolAtlas.PackageClause
import SymbolAtlas.PathMapper
import SymbolAtlas.Proofs.Graph.WellFormed
import SymbolAtlas.Proofs.Naming.Collisions
import SymbolAtlas.Proofs.Naming.Rendering
import SymbolAtlas.Proofs.Session.Demand
import SymbolAtlas.Proofs.Session.Ledger
import SymbolAtlas.Proofs.Session.Occurrences
import SymbolAtlas.Proofs.Session.Operations
import SymbolAtlas.Proofs.Session.Outcome
import SymbolAtlas.Proofs.Session.Resolution
import SymbolAtlas.Proofs.Session.Schedule
import SymbolAtlas.Proofs.Session.Step
import SymbolAtlas.Proofs.Session.Stream
import SymbolAtlas.Proofs.Session.Termination
import SymbolAtlas.Proofs.Session.Visits
import SymbolAtlas.Repository.Basic
import SymbolAtlas.Repository.Digests
import SymbolAtlas.Repository.Update
import SymbolAtlas.Service.Arguments
import SymbolAtlas.Service.Navigation
import SymbolAtlas.Service.Projects
import SymbolAtlas.Service.Target
import SymbolAtlas.Session.Documents
import SymbolAtlas.Session.Run
import SymbolAtlas.Session.State
import SymbolAtlas.Session.Symbols
import SymbolAtlas.Settings
import SymbolAtlas.Sketch
import SymbolAtlas.Sketch.Script
import SymbolAtlas.Store.Basic
import SymbolAtlas.Store.Database
import SymbolAtlas.Store.GraphWriter
import SymbolAtlas.Store.Queries
import SymbolAtlas.Store.Report
import SymbolAtlas.Store.Summary
import SymbolAtlas.Syntax
import SymbolAtlas.Table
import SymbolAtlas.Text.Base64
import SymbolAtlas.Text.Blank
import SymbolAtlas.Text.Lines
import SymbolAtlas.Text.Path
import SymbolAtlas.Text.Printable
import SymbolAtlas.Text.Quoted
import SymbolAtlas.Text.Source
import SymbolAtlas.Text.Span
import SymbolAtlas.Text.Utf8
import SymbolAtlas.Variant
import SymbolAtlas.Watch
import SymbolAtlas.Yaml.Cursor
import SymbolAtlas.Yaml.Meaning
import SymbolAtlas.Yaml.Node
import SymbolAtlas.Yaml.Printer
import SymbolAtlas.Yaml.Scalar
import SymbolAtlas.Yaml.Token
import SymbolAtlas.Proofs.Graph.Order
import SymbolAtlas.Proofs.Session.Shelf
import SymbolAtlas.Proofs.Session.Lifecycle
import SymbolAtlas.Proofs.Session.Safety
import SymbolAtlas.Proofs.Session.Confinement
import SymbolAtlas.Proofs.Session.Founding
import SymbolAtlas.Proofs.Session.Anchors
import SymbolAtlas.Proofs.Session.Marks
import SymbolAtlas.Proofs.Session.Definitions
import SymbolAtlas.Proofs.Session.Ranges
import SymbolAtlas.Proofs.Session.Requests
import SymbolAtlas.Proofs.Session.Monikers
import SymbolAtlas.Proofs.Session.Publication
import SymbolAtlas.Proofs.Session.Refusal
import SymbolAtlas.Proofs.Session.Collected
import SymbolAtlas.Proofs.Store.Rows
import SymbolAtlas.Proofs.Store.Writing
import SymbolAtlas.Proofs.Store.Following
import SymbolAtlas.Proofs.Store.Answering
import SymbolAtlas.Proofs.Session.Charted
import SymbolAtlas.Proofs.Text.Paths
import SymbolAtlas.Proofs.Text.Places
import SymbolAtlas.Proofs.Module.Escaping
import SymbolAtlas.Proofs.Naming.Locations
import SymbolAtlas.Proofs.Session.Vertices
import SymbolAtlas.Proofs.Sketch.Drawn
import SymbolAtlas.Proofs.Store.Navigation
import SymbolAtlas.Proofs.Oracle.Portrait
import SymbolAtlas.Proofs.Naming.Titles
import SymbolAtlas.Proofs.Session.Portrayal
import SymbolAtlas.Proofs.Session.Accounts
import SymbolAtlas.Proofs.Session.Labels
import SymbolAtlas.Proofs.Session.Outliers
import SymbolAtlas.Proofs.Session.Uses
import SymbolAtlas.Proofs.Sketch.Likeness
import SymbolAtlas.Proofs.Session.Reordering
import SymbolAtlas.Proofs.Session.Tally
import SymbolAtlas.Proofs.Store.Acceptance
import SymbolAtlas.Proofs.Lsif.Lining
import SymbolAtlas.Proofs.Lsif.Spooling
import SymbolAtlas.Proofs.Lsif.Numbers
import SymbolAtlas.Proofs.Lsif.Following
import SymbolAtlas.Proofs.Store.Offsets
import SymbolAtlas.Proofs.Store.Parting
import SymbolAtlas.Proofs.Store.Owning
import SymbolAtlas.Proofs.Store.Placing
import SymbolAtlas.Proofs.Store.Hashes
import SymbolAtlas.Proofs.Store.Isolation
import SymbolAtlas.Proofs.Store.Listing
import SymbolAtlas.Proofs.Repository.Detection
import SymbolAtlas.Proofs.Repository.Commits
import SymbolAtlas.Proofs.Repository.Names
import SymbolAtlas.Proofs.Watch.Looks
import SymbolAtlas.Proofs.Watch.Rounds
import SymbolAtlas.Proofs.Naming.Decoding
import SymbolAtlas.Proofs.Session.Forwarding
import SymbolAtlas.Proofs.Session.Positions
import SymbolAtlas.Proofs.Store.Gathering
import SymbolAtlas.Proofs.Store.Sharing
import SymbolAtlas.Proofs.Checked.Memory
import SymbolAtlas.Proofs.Checked.Answers
import SymbolAtlas.Proofs.Checked.Mentions
import SymbolAtlas.Proofs.Checked.Outline
import SymbolAtlas.Proofs.Checked.Loaded
import SymbolAtlas.Proofs.Checked.Keys
import SymbolAtlas.Proofs.Text.Positions
import SymbolAtlas.Proofs.Session.Vouching
import SymbolAtlas.Proofs.Checked.References
import SymbolAtlas.Proofs.Naming.Identifiers
import SymbolAtlas.Proofs.Naming.Forest
import SymbolAtlas.Proofs.Naming.Locals
import SymbolAtlas.Proofs.Naming.Scopes
import SymbolAtlas.Proofs.Naming.Unnumbered
import SymbolAtlas.Proofs.Store.Innermost
import SymbolAtlas.Proofs.Store.Chains
import SymbolAtlas.Proofs.Store.Batching
import SymbolAtlas.Proofs.Watch.Pace
import SymbolAtlas.Proofs.Text.Nesting
import SymbolAtlas.Proofs.Naming.Relocation
import SymbolAtlas.Proofs.Service.Closest
import SymbolAtlas.Proofs.Checked.Embedding
import SymbolAtlas.Proofs.Discovery.Directories
import SymbolAtlas.Proofs.Discovery.Patterns
import SymbolAtlas.Proofs.Discovery.Sources
import SymbolAtlas.Proofs.Text.Columns
import SymbolAtlas.Proofs.Checked.Selection
import SymbolAtlas.Proofs.Checked.Identity
import SymbolAtlas.Proofs.Checked.Grammar
import SymbolAtlas.Proofs.Checked.Reading
import SymbolAtlas.Proofs.Checked.Planting
import SymbolAtlas.Proofs.Checked.Faithful
import SymbolAtlas.Proofs.Text.Excerpts

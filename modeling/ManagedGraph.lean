import ManagedGraph.Text.Blank
import ManagedGraph.Text.Search
import ManagedGraph.Version
import ManagedGraph.Coordinates
import ManagedGraph.Exclusion
import ManagedGraph.Exclusion.Table
import ManagedGraph.Report
import ManagedGraph.Path
import ManagedGraph.Files
import ManagedGraph.Configuration
import ManagedGraph.Graph
import ManagedGraph.Graph.Walk
import ManagedGraph.Xml.Item
import ManagedGraph.Xml.Event
import ManagedGraph.Xml.Entity
import ManagedGraph.Merge
import ManagedGraph.Pom.Document
import ManagedGraph.Pom.Fault
import ManagedGraph.Pom.Reading
import ManagedGraph.Pom.Interpolation
import ManagedGraph.Pom.Inheritance
import ManagedGraph.Pom.Model
import ManagedGraph.Pom.Service
import ManagedGraph.Pom.Repository
import ManagedGraph.Operation
import ManagedGraph.Scope
import ManagedGraph.Scope.Descriptor
import ManagedGraph.Scopes
import ManagedGraph.Request
import ManagedGraph.Dialogue
import ManagedGraph.Catalog
import ManagedGraph.Graph.Table
import ManagedGraph.Toml.Value
import ManagedGraph.Toml.Number
import ManagedGraph.Toml.Quoted
import ManagedGraph.Toml.Tree
import ManagedGraph.Toml.Document
import ManagedGraph.Settings
import ManagedGraph.Session
import ManagedGraph.Proofs.Graph.Reach
import ManagedGraph.Proofs.Walk.Entries
import ManagedGraph.Proofs.Walk.FlatRules
import ManagedGraph.Proofs.Walk.Paths
import ManagedGraph.Proofs.Walk.Agreement
import ManagedGraph.Proofs.Walk.Levels
import ManagedGraph.Proofs.Scope.Declarations
import ManagedGraph.Proofs.Scope.Imports
import ManagedGraph.Proofs.Scope.Lifecycle
import ManagedGraph.Proofs.Operation.Observation
import ManagedGraph.Proofs.Operation.Simulation
import ManagedGraph.Proofs.Scopes.Settling
import ManagedGraph.Proofs.Scopes.Declaring
import ManagedGraph.Proofs.Session.Settling
import ManagedGraph.Proofs.Session.Passes
import ManagedGraph.Proofs.Catalog.Lookup
import ManagedGraph.Proofs.Catalog.History
import ManagedGraph.Proofs.Session.Independence
import ManagedGraph.Proofs.Session.DirectVersions
import ManagedGraph.Proofs.Session.Decisions
import ManagedGraph.Proofs.Scopes.Hierarchy
import ManagedGraph.Proofs.Scopes.Selecting
import ManagedGraph.Proofs.Scope.Descriptor
import ManagedGraph.Proofs.Scope.Failure
import ManagedGraph.Proofs.Scopes.Outside
import ManagedGraph.Proofs.Pom.Lineage
import ManagedGraph.Proofs.Pom.Building
import ManagedGraph.Proofs.Pom.Chains
import ManagedGraph.Proofs.Pom.Managed
import ManagedGraph.Proofs.Pom.Precedence
import ManagedGraph.Proofs.Pom.OwnManagement
import ManagedGraph.Proofs.Xml.Written
import ManagedGraph.Proofs.Pom.Written
import ManagedGraph.Proofs.Pom.Gathered
import ManagedGraph.Proofs.Pom.ReadBack
import ManagedGraph.Proofs.Walk.Pruned
import ManagedGraph.Proofs.Walk.Unmatched
import ManagedGraph.Proofs.Scope.Overrides
import ManagedGraph.Proofs.Scope.Listing
import ManagedGraph.Proofs.Scopes.Blank
import ManagedGraph.Proofs.Session.Matching
import ManagedGraph.Proofs.Session.Describing
import ManagedGraph.Proofs.Graph.Growing
import ManagedGraph.Proofs.Walk.Outline
import ManagedGraph.Proofs.Walk.Loop
import ManagedGraph.Proofs.Scope.Gathering
import ManagedGraph.Proofs.Scopes.Deciding
import ManagedGraph.Proofs.Pom.References
import ManagedGraph.Proofs.Pom.Scanning
import ManagedGraph.Proofs.Pom.PlainValues
import ManagedGraph.Proofs.Pom.Interpolated
import ManagedGraph.Proofs.Pom.Ancestors
import ManagedGraph.Proofs.Xml.CharacterData
import ManagedGraph.Proofs.Xml.Pieces
import ManagedGraph.Proofs.Xml.Nesting
import ManagedGraph.Proofs.Xml.WellFormed
import ManagedGraph.Proofs.Pom.Accepted
import ManagedGraph.Proofs.Pom.Truncation
import ManagedGraph.Proofs.Pom.UnderWay
import ManagedGraph.Proofs.Pom.LiveText
import ManagedGraph.Proofs.Pom.Sections
import ManagedGraph.Proofs.Pom.Spellings
import ManagedGraph.Proofs.Session.Runs
import ManagedGraph.Proofs.Text.Parts
import ManagedGraph.Proofs.Coordinates.Grammar
import ManagedGraph.Proofs.Pom.Layout
import ManagedGraph.Proofs.Pom.Slots
import ManagedGraph.Proofs.Scopes.Merging
import ManagedGraph.Proofs.Text.Ranges
import ManagedGraph.Proofs.Pom.Offsets
import ManagedGraph.Proofs.Exclusion.Contributions
import ManagedGraph.Proofs.Graph.Builder

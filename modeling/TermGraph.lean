import TermGraph.Dialect.Registry
import TermGraph.Graph.Cursor
import TermGraph.Graph.Growth
import TermGraph.Print.Render
import TermGraph.Pass.History
import TermGraph.Workspace
import TermGraph.Proofs.Dialect.Additions
import TermGraph.Proofs.Dialect.Declared
import TermGraph.Proofs.Dialect.Family
import TermGraph.Proofs.Dialect.Refusal
import TermGraph.Proofs.Evaluation.Demands
import TermGraph.Proofs.Evaluation.Once
import TermGraph.Proofs.Evaluation.Recursive
import TermGraph.Proofs.Evaluation.Restriction
import TermGraph.Proofs.Fold.Agreement
import TermGraph.Proofs.Graph.Compact
import TermGraph.Proofs.Graph.Copy
import TermGraph.Proofs.Graph.Embedded
import TermGraph.Proofs.Graph.Mirror
import TermGraph.Proofs.Graph.Parents
import TermGraph.Proofs.Graph.Search
import TermGraph.Proofs.Graph.Stable
import TermGraph.Proofs.Pass.Identity
import TermGraph.Proofs.Pass.Lineage
import TermGraph.Proofs.Pass.Lookups
import TermGraph.Proofs.Pass.Once
import TermGraph.Proofs.Pass.Provenance
import TermGraph.Proofs.Pass.Replaced
import TermGraph.Proofs.Pass.Silent
import TermGraph.Proofs.Pass.Sound
import TermGraph.Proofs.Print.Indegrees
import TermGraph.Proofs.Print.Order
import TermGraph.Proofs.Print.Page
import TermGraph.Proofs.Print.Renamed
import TermGraph.Proofs.Print.Sharing
import TermGraph.Proofs.Session.Handles
import TermGraph.Proofs.Walk
import TermGraph.Proofs.Workspace.Plain
import TermGraph.Proofs.Atoms
import TermGraph.Proofs.Graph.Dump
import TermGraph.Proofs.Pass.Exchanges
import TermGraph.Proofs.Pass.Recent

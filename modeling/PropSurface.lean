import PropSurface.CommandLine
import PropSurface.Concrete.Sample
import PropSurface.Extraction
import PropSurface.Main
import PropSurface.Snapshot
import PropSurface.Proofs.FileSystem.Canonical
import PropSurface.Proofs.Cache.Faithful
import PropSurface.Proofs.Tree.Closure
import PropSurface.Proofs.Resolution.Answers
import PropSurface.Proofs.Resolution.Depth
import PropSurface.Proofs.Session.Transparency
import PropSurface.Proofs.Resolution.Termination
import PropSurface.Proofs.Resolution.ReferenceGraph
import PropSurface.Proofs.Resolution.Composition
import PropSurface.Proofs.Cache.Stability
import PropSurface.Proofs.Scan.Dealing
import PropSurface.Proofs.Tree.Levels
import PropSurface.Proofs.Tree.Rows
import PropSurface.Proofs.Element.Parts
import PropSurface.Proofs.Query.Chains
import PropSurface.Proofs.ParsedModule.NodeTable
import PropSurface.Proofs.Element.ClassHeader
import PropSurface.Proofs.Extraction.PropType
import PropSurface.Proofs.Element.Relocation
import PropSurface.Proofs.Element.Statements
import PropSurface.Proofs.Extraction.LocalExport
import PropSurface.Proofs.Binding.Forwarding
import PropSurface.Proofs.Extraction.OneHop
import PropSurface.Proofs.Declaration.AliasValue
import PropSurface.Proofs.Tree.Descendants
import PropSurface.Proofs.Tree.Pruning
import PropSurface.Proofs.Element.Origin
import PropSurface.Proofs.Tree.Rebounding
import PropSurface.Proofs.Declaration.InterfaceShape
import PropSurface.Proofs.Cache.Identity
import PropSurface.Proofs.Element.Trimming
import PropSurface.Proofs.ParsedModule.Rejection
import PropSurface.Proofs.Session.Comments
import PropSurface.Proofs.Element.Imports
import PropSurface.Proofs.Binding.Imports
import PropSurface.Proofs.Path.NormalForm
import PropSurface.Proofs.Path.Length
import PropSurface.Proofs.FileSystem.NormalPaths
import PropSurface.Proofs.Cache.NamedFile
import PropSurface.Proofs.FileSystem.Below
import PropSurface.Proofs.Scan.ReportPaths
import PropSurface.Proofs.ParsedModule.Writing
import PropSurface.Proofs.ParsedModule.Locality
import PropSurface.Proofs.ParsedModule.Navigation

import CallAtlas.Main
import CallAtlas.Proofs.Bitcode.Extents
import CallAtlas.Proofs.Bitcode.Overflow
import CallAtlas.Proofs.Compile.Flags
import CallAtlas.Proofs.Container.Complaints
import CallAtlas.Proofs.Container.Packed
import CallAtlas.Proofs.Debug.History
import CallAtlas.Proofs.Handle
import CallAtlas.Proofs.Ir.FunctionBodies
import CallAtlas.Proofs.Ir.Renaming
import CallAtlas.Proofs.Ir.Renumbering
import CallAtlas.Proofs.Link.Comdats
import CallAtlas.Proofs.Link.Fields
import CallAtlas.Proofs.Link.Labels
import CallAtlas.Proofs.Link.Order
import CallAtlas.Proofs.Link.Single
import CallAtlas.Proofs.Link.Traversal
import CallAtlas.Proofs.Loader.BuiltBinary
import CallAtlas.Proofs.Loader.Line
import CallAtlas.Proofs.Loader.Order
import CallAtlas.Proofs.Loader.Repeated
import CallAtlas.Proofs.Optimize.Removal
import CallAtlas.Proofs.Scan.Callees
import CallAtlas.Proofs.Scan.Iterators
import CallAtlas.Proofs.Work.Roots

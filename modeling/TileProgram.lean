import TileProgram.Format.Matmul
import TileProgram.Host.InMemory
import TileProgram.Format.Diagnostic
import TileProgram.Format.Trace
import TileProgram.Main
import TileProgram.Proofs.Effects
import TileProgram.Proofs.Staged.Asynchrony
import TileProgram.Proofs.Staged.Handshake
import TileProgram.Proofs.Products
import TileProgram.Proofs.Layout.MaximalRuns
import TileProgram.Proofs.Layout.Numbering
import TileProgram.Proofs.Widths
import TileProgram.Proofs.Stops.Compile
import TileProgram.Proofs.Format.Kernel
import TileProgram.Proofs.Staged.InPlace
import TileProgram.Proofs.CompiledMatmul
import TileProgram.Proofs.Listing.Names
import TileProgram.Proofs.Rasterization
import TileProgram.Proofs.Target.Described
import TileProgram.Proofs.Access.Phases
import TileProgram.Proofs.FallbackWidth
import TileProgram.Proofs.Access.Addressable
import TileProgram.Proofs.Annotation
import TileProgram.Proofs.Builder

import MiniC.Compile
import MiniC.Program.Snapshot
import MiniC.Proofs.Adequacy
import MiniC.Proofs.ArrayAssignment
import MiniC.Proofs.Capacity
import MiniC.Proofs.Comments
import MiniC.Proofs.Faults
import MiniC.Proofs.Generated
import MiniC.Proofs.Listing
import MiniC.Proofs.Obstacles
import MiniC.Proofs.Programs
import MiniC.Proofs.Resolution
import MiniC.Proofs.Rv32.Agreement
import MiniC.Proofs.Rv32.Emission
import MiniC.Proofs.Shadowing
import MiniC.Proofs.Spelling
import MiniC.Proofs.WellFormed
import MiniC.Proofs.Layout
import MiniC.Proofs.Addresses
import MiniC.Proofs.Histories
import MiniC.Proofs.Rejection
import MiniC.Proofs.Tiling
import MiniC.Proofs.Rescanning
import MiniC.Proofs.Sizes
import MiniC.Proofs.Bindings
import MiniC.Proofs.Annotated
import MiniC.Proofs.StringComparison
import MiniC.Proofs.Lvalues
import MiniC.Proofs.Progress
import MiniC.Proofs.Nesting

import OnePass.Command.Folder
import OnePass.Main
import OnePass.Proofs.Branches
import OnePass.Proofs.Distinctness
import OnePass.Proofs.Grammar
import OnePass.Proofs.Height
import OnePass.Proofs.Layout
import OnePass.Proofs.Legacy
import OnePass.Proofs.Legible
import OnePass.Proofs.Marks
import OnePass.Proofs.Nesting
import OnePass.Proofs.Numbering
import OnePass.Proofs.Parameters
import OnePass.Proofs.Registry
import OnePass.Proofs.Reports
import OnePass.Proofs.Separation
import OnePass.Proofs.Slots
import OnePass.Proofs.Stops
import OnePass.Proofs.Stray
import OnePass.Proofs.Termination
import OnePass.Proofs.Trailing

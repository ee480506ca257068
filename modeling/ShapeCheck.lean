import ShapeCheck.Main
import ShapeCheck.Proofs.CheckLoop
import ShapeCheck.Proofs.Protection
import ShapeCheck.Proofs.Garbage
import ShapeCheck.Proofs.Operations
import ShapeCheck.Proofs.IdleCall
import ShapeCheck.Proofs.Refolding
import ShapeCheck.Proofs.Requirements
import ShapeCheck.Proofs.VerifyAgreement
import ShapeCheck.Proofs.WellFormed
import ShapeCheck.Proofs.Effort
import ShapeCheck.Proofs.Termination
import ShapeCheck.Proofs.Duality
import ShapeCheck.Proofs.Register
import ShapeCheck.Proofs.Control
import ShapeCheck.Proofs.FormulaText
import ShapeCheck.Proofs.CacheKey
import ShapeCheck.Proofs.Archive
import ShapeCheck.Proofs.Distance

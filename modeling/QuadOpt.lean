import QuadOpt.Sparse.Checked
import QuadOpt.Sparse.Pattern
import QuadOpt.Sparse.Triplets
import QuadOpt.Decimal.Layout
import QuadOpt.Decimal.Nearest
import QuadOpt.Decimal.Duration
import QuadOpt.Ldl.Factorisation
import QuadOpt.Engine.Recorder
import QuadOpt.Admm.Engine
import QuadOpt.Expr.Operand
import QuadOpt.Json.Record
import QuadOpt.Model.Document
import QuadOpt.Model.Solve
import QuadOpt.Proofs.Admm.Accuracy
import QuadOpt.Proofs.Admm.Descent
import QuadOpt.Proofs.Model.Held
import QuadOpt.Proofs.Model.StandardForm
import QuadOpt.Proofs.Ldl.Solve
import QuadOpt.Proofs.Admm.FixedPoint
import QuadOpt.Proofs.Admm.Admission
import QuadOpt.Proofs.Admm.Steady
import QuadOpt.Proofs.Admm.UserData
import QuadOpt.Proofs.Admm.Renewal
import QuadOpt.Proofs.Admm.Verdict
import QuadOpt.Proofs.Admm.Infeasible
import QuadOpt.Proofs.Binary64
import QuadOpt.Proofs.Admm.Undefined
import QuadOpt.Proofs.Admm.Bounds
import QuadOpt.Proofs.Model.Repeat
import QuadOpt.Proofs.Model.Discard
import QuadOpt.Proofs.Model.Convex
import QuadOpt.Proofs.Admm.LastTest
import QuadOpt.Proofs.Model.Unanswered
import QuadOpt.Proofs.Admm.InfiniteBounds
import QuadOpt.Proofs.Admm.ActiveSet
import QuadOpt.Proofs.Admm.StartPoint
import QuadOpt.Proofs.Sparse.Reordering
import QuadOpt.Proofs.Expr.Formula
import QuadOpt.Proofs.Model.Enumeration
import QuadOpt.Proofs.Model.Reuse
import QuadOpt.Proofs.Model.Document
import QuadOpt.Proofs.Admm.Exchange
import QuadOpt.Proofs.Ldl.Minors
import QuadOpt.Proofs.Admm.Curvature
import QuadOpt.Proofs.Sparse.Products
import QuadOpt.Proofs.Admm.Report
import QuadOpt.Proofs.Admm.KktFill
import QuadOpt.Proofs.Ldl.Refactor
import QuadOpt.Proofs.Sparse.Canonical
import QuadOpt.Proofs.Model.Malformed
import QuadOpt.Proofs.Ldl.GivenOrder
import QuadOpt.Proofs.Engine.Choice
import QuadOpt.Proofs.Model.StartPoint
import QuadOpt.Proofs.Ldl.WithinColumns

import YangConstraint.Condition
import YangConstraint.Assignment
import YangConstraint.Schema.Load
import YangConstraint.Settings.Load
import YangConstraint.Main
import YangConstraint.Expr.Basic
import YangConstraint.Expr.Cursor
import YangConstraint.Expr.Parse
import YangConstraint.Expr.Canonical
import YangConstraint.Expr.Recording
import YangConstraint.Eval.Context
import YangConstraint.Eval.Operator
import YangConstraint.Eval.Step
import YangConstraint.Proofs.Expr.RoundTrip
import YangConstraint.Proofs.Eval.Absolute
import YangConstraint.Proofs.Eval.Source
import YangConstraint.Proofs.Expr.Branch
import YangConstraint.Proofs.Expr.Nesting
import YangConstraint.Proofs.Eval.Recursion
import YangConstraint.Proofs.Expr.Deepest
import YangConstraint.Proofs.Data.Search
import YangConstraint.Proofs.Data.Insertion
import YangConstraint.Proofs.Data.Store
import YangConstraint.Proofs.Data.Reading
import YangConstraint.Proofs.Data.Assigned
import YangConstraint.Proofs.Data.Traversal
import YangConstraint.Proofs.Condition.Violation
import YangConstraint.Proofs.Eval.Scope
import YangConstraint.Proofs.Eval.Logic
import YangConstraint.Proofs.Eval.Comparison
import YangConstraint.Proofs.Eval.Canonical
import YangConstraint.Proofs.Expr.Recorded
import YangConstraint.Proofs.Expr.Layout
import YangConstraint.Proofs.Schema.Arena
import YangConstraint.Proofs.Condition.Guard
import YangConstraint.Proofs.Eval.Arithmetic
import YangConstraint.Proofs.Eval.Enumeration
import YangConstraint.Proofs.Schema.Growth
import YangConstraint.Proofs.Expr.Issues
import YangConstraint.Proofs.Expr.Spacing
import YangConstraint.Proofs.Schema.Document
import YangConstraint.Proofs.Eval.Reanchoring
import YangConstraint.Proofs.Expr.Balance

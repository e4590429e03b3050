/-! What can be set about evaluations. -/
namespace YangConstraint

structure Settings where
  /-- Whether paths that the tree does not hold are looked up outside. -/
  storeFallback : Bool := true
  /-- Whether each condition is to be shown before it is evaluated. -/
  traceTree : Bool := false
deriving DecidableEq

end YangConstraint

import YangConstraint.Expr.Production

/-! Parsing the text of an expression. -/
namespace YangConstraint

/-- The outcome of a parse: what was built, if anything, and all that is wrong with the text. -/
structure Parsed (α : Type) where
  result : Option α
  issues : Array Diagnostic
deriving DecidableEq

namespace Parsed

variable {α : Type}

def isClean (p : Parsed α) : Bool := p.issues.isEmpty

end Parsed

/-- Records the tokens that no production has read. -/
def Reader.close (text : String) (r : Reader) : Reader :=
  if r.kind = .eof then r
  else
    let start := r.current.start
    r.record (.trailingInput start (String.ofList (Text.dropBytes start text.toList)))

namespace Builder

variable {m : Type → Type} [Monad m] {α : Type}

/-- Parses `text` through the builder. -/
def parse (b : Builder m α) (text : String) : m (Parsed α) := do
  b.start
  let (node, reader) ← ((Level.ofRoom b maxDepth).expr 0).run (Reader.start text)
  let result ← b.finish node
  return ⟨result, (reader.close text).issues⟩

end Builder

/-- The tree of an expression, if it has one, and what is wrong with its text. -/
def Expr.parse (text : String) : Parsed Expr := Id.run (Expr.builder.parse text)

/-- The tree of an expression, a hole where it has none. -/
def Expr.ofText (text : String) : Expr := .ofOption (Expr.parse text).result

end YangConstraint

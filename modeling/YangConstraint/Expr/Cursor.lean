import YangConstraint.Expr.Reader

/-! A reader out of whose current token the texts can be taken, each once. -/
namespace YangConstraint

structure Cursor where
  reader : Reader
  name : Option String
  qualifier : Option String
  literal : Option String
deriving DecidableEq

namespace Cursor

def ofReader (r : Reader) : Cursor :=
  ⟨r, r.current.name?, r.current.qualifier?, r.current.literal?⟩

def start (text : String) : Cursor := ofReader (Reader.start text)

def advance (c : Cursor) : Cursor := ofReader c.reader.advance

def check (expected : TokenKind) (c : Cursor) : Cursor :=
  { c with reader := c.reader.check expected }

def pass (expected : TokenKind) (c : Cursor) : Cursor := (c.check expected).advance

def takeName (c : Cursor) : Option String × Cursor := (c.name, { c with name := none })

def takeQualifier (c : Cursor) : Option String × Cursor :=
  (c.qualifier, { c with qualifier := none })

def takeLiteral (c : Cursor) : Option String × Cursor := (c.literal, { c with literal := none })

def takeIssues (c : Cursor) : Array Diagnostic × Cursor :=
  (c.reader.issues, { c with reader.issues := #[] })

end Cursor

end YangConstraint

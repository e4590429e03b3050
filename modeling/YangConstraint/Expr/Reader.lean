import YangConstraint.Expr.Diagnostic
import YangConstraint.Expr.Lexeme

/-! Reading the tokens of a text one at a time, with the diagnostics raised so far. -/
namespace YangConstraint

/-- The tokens from the current one on. Behind the last token stands the end of the text. -/
structure Reader where
  rest : List Token
  /-- The size of the text in bytes. -/
  finish : Nat
  issues : Array Diagnostic
deriving DecidableEq

namespace Reader

def current (r : Reader) : Token := r.rest.headD (.eof r.finish)

def kind (r : Reader) : TokenKind := r.current.kind

def record (r : Reader) (issue : Diagnostic) : Reader := { r with issues := r.issues.push issue }

/-- Records what is wrong with the current token by itself. -/
def inspect (r : Reader) : Reader :=
  match r.current.issue? with
  | some issue => r.record issue
  | none => r

/-- A reader at the first token of `text`. -/
def start (text : String) : Reader := inspect ⟨Token.scan text, Text.byteSize text.toList, #[]⟩

/-- Moves to the next token; the end of the text stays current. -/
def advance (r : Reader) : Reader := inspect { r with rest := r.rest.tail }

/-- Records a current token of another kind than expected. -/
def check (expected : TokenKind) (r : Reader) : Reader :=
  if r.kind = expected then r
  else
    let text := if r.kind = .eof then "<eof>" else r.current.text
    r.record (.unexpectedToken r.current.start expected r.kind text)

/-- Moves past the current token, also when it is of another kind than expected. -/
def pass (expected : TokenKind) (r : Reader) : Reader := (r.check expected).advance

variable {r : Reader} {issue : Diagnostic} {expected : TokenKind}

@[simp] theorem rest_record : (r.record issue).rest = r.rest := rfl

@[simp] theorem finish_record : (r.record issue).finish = r.finish := rfl

@[simp] theorem rest_inspect : r.inspect.rest = r.rest := by
  rw [inspect]
  split <;> rfl

@[simp] theorem finish_inspect : r.inspect.finish = r.finish := by
  rw [inspect]
  split <;> rfl

@[simp] theorem rest_advance : r.advance.rest = r.rest.tail := by simp [advance]

@[simp] theorem finish_advance : r.advance.finish = r.finish := by simp [advance]

@[simp] theorem rest_check : (r.check expected).rest = r.rest := by
  rw [check]
  split <;> rfl

@[simp] theorem finish_check : (r.check expected).finish = r.finish := by
  rw [check]
  split <;> rfl

@[simp] theorem rest_pass : (r.pass expected).rest = r.rest.tail := by simp [pass]

@[simp] theorem rest_start {text : String} : (start text).rest = Token.scan text := by simp [start]

@[simp] theorem finish_start {text : String} : (start text).finish = Text.byteSize text.toList := by
  simp [start]

end Reader

end YangConstraint

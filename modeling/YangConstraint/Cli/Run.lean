import YangConstraint.Assignment
import YangConstraint.Cli.Arguments
import YangConstraint.Condition
import YangConstraint.Expr.Canonical
import YangConstraint.Expr.Outline
import YangConstraint.Schema.Load
import YangConstraint.Settings.Load

/-! What the command line answers. -/
namespace YangConstraint.Cli

/-- Why a file cannot be read. -/
inductive FileError where
  | missing
  | directory
  | notDirectory
  | notText
deriving DecidableEq

def FileError.message : FileError → String
  | missing => "No such file or directory (os error 2)"
  | directory => "Is a directory (os error 21)"
  | notDirectory => "Not a directory (os error 20)"
  | notText => "stream did not contain valid UTF-8"

/-- Why a command has no answer. -/
inductive Problem where
  | settings
  | schema (error : SchemaError)
  | assignment (error : AssignmentError)
  | unparsed (expr : String)
  | file (error : FileError)
deriving DecidableEq

def Problem.message : Problem → String
  | settings => "Condition error: Configuration error:"
  | schema error => error.message
  | assignment error => error.message
  | unparsed expr => s!"Expression '{expr}' did not parse"
  | file error => "I/O error: " ++ error.message

/-- What a command prints, and its exit status: 0 when the answer is yes, 1 when it is no, 2 when
there is none. -/
structure Report where
  exit : Nat
  output : List String := []
  errors : List String := []
deriving DecidableEq

namespace Report

def answer (yes : Bool) (output : List String) (errors : List String) : Report :=
  ⟨if yes then 0 else 1, output, errors⟩

def failure (problem : Problem) (errors : List String) : Report :=
  ⟨2, [], errors ++ [problem.message]⟩

end Report

/-- The texts of files by their names. -/
abbrev Files := String → Except FileError String

def Files.read (files : Files) (name : String) : Except Problem String :=
  (files name).mapError .file

def loadSettings (files : Files) (name : Option String) : Except Problem Settings :=
  match name with
  | none => .ok {}
  | some name => do
    match Settings.ofText? (← files.read name) with
    | some settings => return settings
    | none => throw .settings

def loadSchema (files : Files) (name : Option String) : Except Problem Schema :=
  match name with
  | none => .ok .empty
  | some name => do (Schema.ofXml (← files.read name)).mapError .schema

/-- Prints the canonical text of an expression and its tree. -/
def parse (expr : String) : Report :=
  let parsed := Expr.parse expr
  let issues := parsed.issues.toList.map Diagnostic.message
  match parsed.result with
  | some e =>
    .answer parsed.isClean (e.canonical :: e.outline.lines) (issues.map ("warning: " ++ ·))
  | none => .failure (.unparsed expr) (issues.map ("error: " ++ ·))

/-- Prints the outcome of an expression. -/
def eval (files : Files) (expr path : String) (data outside : List String)
    (schema settings : Option String) : Except Problem Report := do
  let settings ← loadSettings files settings
  let schema ← loadSchema files schema
  let data ← (Assignment.treeOf data).mapError .assignment
  let store ← (Assignment.storeOf outside).mapError .assignment
  match (Expr.parse expr).result with
  | none => throw (.unparsed expr)
  | some e =>
    match Environment.outcome ⟨schema, store.source, settings⟩ e path data with
    | .success resolved =>
      let value := resolved.value.toList.map ("  value: " ++ ·)
      let stored := resolved.stored.toList.map ("  stored: " ++ ·)
      return .answer true ("true" :: (value ++ stored)) []
    | .failure reason => return .answer false ["false (" ++ reason.message ++ ")"] []

/-- Prints the first violation of the conditions in a schema. -/
def check (files : Files) (schema : String) (data : List String) (settings : Option String) :
    Except Problem Report := do
  let settings ← loadSettings files settings
  let schema ← loadSchema files (some schema)
  let data ← (Assignment.treeOf data).mapError .assignment
  match Environment.firstViolation? ⟨schema, .none, settings⟩ data with
  | none => return .answer true ["all conditions hold"] []
  | some violation => return .answer false ["false (" ++ violation.message ++ ")"] []

def versionText : String := "yangcond 0.1.0"

def run (files : Files) (command : Command) : Report :=
  let answered : Except Problem Report :=
    match command with
    | .version => .ok (.answer true [versionText] [])
    | .parse expr => .ok (parse expr)
    | .eval expr path data outside schema settings =>
      eval files expr path data outside schema settings
    | .check schema data settings => check files schema data settings
  match answered with
  | .ok report => report
  | .error problem => .failure problem []

end YangConstraint.Cli

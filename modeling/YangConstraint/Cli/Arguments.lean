import YangConstraint.Text.Basic

/-! The arguments of the command line. -/
namespace YangConstraint.Cli

/-- What is asked for. Files are named, data is written as `PATH=VALUE`. -/
inductive Command where
  | version
  | parse (expr : String)
  | eval (expr path : String) (data outside : List String) (schema settings : Option String)
  | check (schema : String) (data : List String) (settings : Option String)
deriving DecidableEq

/-- The arguments of a command, taken apart. -/
structure Given where
  words : List String := []
  options : List (String × String) := []
deriving DecidableEq

/-- Whether the argument is written like an option. A hyphen by itself is not. -/
def isOption (arg : String) : Bool := Text.startsWith "-" arg && arg ≠ "-"

namespace Given

def addWord (word : String) (given : Given) : Given := { given with words := word :: given.words }

def addOption (name value : String) (given : Given) : Given :=
  { given with options := (name, value) :: given.options }

/-- Takes apart arguments whose options are among `known`. The value of an option follows it, or an
equals sign in it; behind `--` there are no more options. -/
def read? (known : List String) : List String → Option Given
  | [] => some {}
  | "--" :: rest => some { words := rest }
  | [arg] =>
    if isOption arg then
      (Text.splitFirst? '=' arg).bind fun (name, value) =>
        if name ∈ known then some (addOption name value {}) else none
    else some (addWord arg {})
  | arg :: next :: rest =>
    if isOption arg then
      match Text.splitFirst? '=' arg with
      | some (name, value) =>
        if name ∈ known then (read? known (next :: rest)).map (addOption name value) else none
      | none =>
        if arg ∈ known && !isOption next then (read? known rest).map (addOption arg next) else none
    else (read? known (next :: rest)).map (addWord arg)

variable (given : Given) (name : String)

def all : List String := (given.options.filter (·.1 = name)).map (·.2)

/-- The only value of an option that stands at most once. -/
def atMostOne? : Option (Option String) :=
  match given.all name with
  | [] => some none
  | [value] => some (some value)
  | _ => none

def exactlyOne? : Option String := (given.atMostOne? name).bind id

/-- The file that an option names, if it is there. The name of a file is not empty. -/
def file? : Option (Option String) := (given.atMostOne? name).filter (· ≠ some "")

def onlyWord? : Option String :=
  match given.words with
  | [word] => some word
  | _ => none

end Given

/-- The command that arguments stand for, unless they are not well formed. -/
def Command.read? : List String → Option Command
  | "parse" :: args => do
    let given ← Given.read? [] args
    return .parse (← given.onlyWord?)
  | "eval" :: args => do
    let given ← Given.read? ["--path", "--set", "--store", "--schema", "--config"] args
    return .eval (← given.onlyWord?) (← given.exactlyOne? "--path") (given.all "--set")
      (given.all "--store") (← given.file? "--schema") (← given.file? "--config")
  | "check" :: args => do
    let given ← Given.read? ["--schema", "--set", "--config"] args
    if given.words.isEmpty then
      return .check (← (← given.file? "--schema")) (given.all "--set") (← given.file? "--config")
    else none
  | first :: _ => if first = "--version" || Text.startsWith "-V" first then some .version else none
  | [] => none

end YangConstraint.Cli

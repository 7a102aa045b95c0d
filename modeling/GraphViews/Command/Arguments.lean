/-!
# Command lines

Before the command stands how much is logged. After it, options and positional arguments mix, and `--` ends the
options. What is wrong with a single argument is found when it is read, the rest at the end. This stands for version 2
of the argument parser clap, which is a library of its own, as far as it is documented and the program relies on it.
-/

namespace GraphViews.Command

inductive CommandName where
  | showing | subset | residual
  deriving DecidableEq

namespace CommandName

def all : List CommandName := [showing, subset, residual]

def name : CommandName → String
  | showing => "show"
  | subset => "subset"
  | residual => "residual"

def flags : CommandName → List String
  | subset => ["undirected", "complement"]
  | _ => ["undirected"]

def options : CommandName → List String
  | showing => ["vertices", "edges"]
  | _ => []

/-- How many positional arguments are taken; `none` if there is no limit. -/
def positionals : CommandName → Option Nat
  | subset => none
  | _ => some 1

end CommandName

inductive Task where
  | filtered (vertices edges : Option String)
  | induced (complement : Bool) (vids : List String)
  | residual
  deriving DecidableEq

structure Request where
  path : String
  directed : Bool
  task : Task
  deriving DecidableEq

inductive Invocation where
  | run (verbosity : Nat) (request : Request)
  | version (text : String)
  | help
  | refused
  deriving DecidableEq

/-- A command has no version of its own. -/
def CommandName.version (c : CommandName) : Invocation := .version s!"fgraph-{c.name} "

/-- The parts of a long option: its name without dashes, and the value after an equals sign. -/
def splitLong (arg : String) : String × Option String :=
  let body := arg.toList.dropWhile (· == '-')
  let name := String.ofList (body.takeWhile (· != '='))
  match body.dropWhile (· != '=') with
  | [] => (name, none)
  | rest => (name, some (String.ofList (rest.dropWhile (· == '='))))

/-- A lone dash is a value. -/
def isOption (arg : String) : Bool := arg.toList.head? == some '-' && arg != "-"

def isLong (arg : String) : Bool := ['-', '-'].isPrefixOf arg.toList

/-- Flags of a single letter, of which `v` may be allowed. -/
inductive Short where
  | verbose (count : Nat)
  | version
  | help
  | unknown

def readShort (verbose : Bool) : List Char → Short
  | [] => .verbose 0
  | 'V' :: _ => .version
  | 'h' :: _ => .help
  | 'v' :: rest =>
    if verbose then
      match readShort verbose rest with
      | .verbose n => .verbose (n + 1)
      | other => other
    else .unknown
  | _ => .unknown

/-- What has been read of the arguments of a command, latest first. The latest option may be waiting for its
value, and all that follows may be positional. -/
structure Reading where
  flags : List String
  options : List (String × Option String)
  positionals : List String
  waiting : Bool
  trailing : Bool

namespace Reading

def start : Reading := ⟨[], [], [], false, false⟩

def takePositional (r : Reading) (c : CommandName) (arg : String) : Except Invocation Reading :=
  if c.positionals.all fun n => r.positionals.length < n then
    .ok { r with positionals := arg :: r.positionals }
  else .error .refused

def takeValue (r : Reading) (arg : String) : Reading :=
  match r.options with
  | (name, _) :: options => { r with options := (name, some arg) :: options, waiting := false }
  | [] => r

/-- A value that is given to a flag does not count. -/
def takeLong (r : Reading) (c : CommandName) (arg : String) : Except Invocation Reading :=
  let (name, value) := splitLong arg
  if c.options.contains name then
    .ok { r with options := (name, value) :: r.options, waiting := value.isNone }
  else if c.flags.contains name then .ok { r with flags := name :: r.flags, waiting := false }
  else if name = "version" then .error c.version
  else if name = "help" then .error .help
  else .error .refused

def takeShort (c : CommandName) (arg : String) : Invocation :=
  match readShort false (arg.toList.drop 1) with
  | .version => c.version
  | .help => .help
  | _ => .refused

def take (c : CommandName) (r : Reading) (arg : String) : Except Invocation Reading :=
  if r.trailing then r.takePositional c arg
  else if arg = "--" then .ok { r with waiting := false, trailing := true }
  else if r.waiting && !isOption arg then .ok (r.takeValue arg)
  else if isLong arg then r.takeLong c arg
  else if isOption arg then .error (takeShort c arg)
  else r.takePositional c arg

/-- Every flag and option once, every option with its value, and all positional arguments. -/
def finish (r : Reading) (c : CommandName) : Except Invocation Request :=
  let names := r.flags ++ r.options.map Prod.fst
  if names.Nodup ∧ r.options.all (·.2.isSome) then
    let directed := !r.flags.contains "undirected"
    let value (name : String) : Option String := (r.options.lookup name).join
    match c, r.positionals.reverse with
    | .showing, [path] => .ok ⟨path, directed, .filtered (value "vertices") (value "edges")⟩
    | .subset, path :: vid :: vids =>
      .ok ⟨path, directed, .induced (r.flags.contains "complement") (vid :: vids)⟩
    | .residual, [path] => .ok ⟨path, directed, .residual⟩
    | _, _ => .error .refused
  else .error .refused

end Reading

def readCommand (verbosity : Nat) (c : CommandName) (args : List String) : Invocation :=
  let reading := do (← args.foldlM (Reading.take c) Reading.start).finish c
  match reading with
  | .ok request => .run verbosity request
  | .error invocation => invocation

def readHelp : List String → Invocation
  | [] => .help
  | [name] => if name = "help" ∨ (CommandName.all.map CommandName.name).contains name then .help
    else .refused
  | _ => .refused

def readArguments (verbosity : Nat) : List String → Invocation
  | [] => .refused
  | arg :: args =>
    match CommandName.all.find? fun c => c.name = arg with
    | some c => readCommand verbosity c args
    | none =>
      if arg = "help" then readHelp args
      else if isLong arg then
        match (splitLong arg).1 with
        | "version" => .version "fgraph 0.0.0"
        | "help" => .help
        | _ => .refused
      else if isOption arg then
        match readShort true (arg.toList.drop 1) with
        | .verbose n => readArguments (verbosity + n) args
        | .version => .version "fgraph 0.0.0"
        | .help => .help
        | .unknown => .refused
      else .refused

end GraphViews.Command

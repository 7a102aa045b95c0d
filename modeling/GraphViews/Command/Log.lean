/-! # Steps that may fail and leave records behind -/

namespace GraphViews.Command

inductive Level where
  | warn | info | debug
  deriving DecidableEq

/-- The least verbosity that shows a record. -/
def Level.verbosity : Level → Nat
  | warn => 0
  | info => 1
  | debug => 2

def Level.name : Level → String
  | warn => "WARN"
  | info => "INFO"
  | debug => "DEBUG"

/-- The part of the program that a record is about. -/
inductive Topic where
  | program | loading | filters
  deriving DecidableEq

def Topic.name : Topic → String
  | program => "fgraph"
  | loading => "fgraph::data::create"
  | filters => "fgraph::front_end"

structure LogRecord where
  level : Level
  topic : Topic
  message : String
  deriving DecidableEq

/-- The lines of a message after the first one are indented. -/
def LogRecord.text (r : LogRecord) : String :=
  String.ofList (r.message.toList.flatMap fun c => if c = '\n' then "\n    ".toList else [c])

structure Logged (ε α : Type) where
  result : Except ε α
  records : List LogRecord

namespace Logged

variable {ε α β : Type}

protected def pure (x : α) : Logged ε α := ⟨.ok x, []⟩

/-- After a failure nothing more is done. -/
protected def bind (x : Logged ε α) (f : α → Logged ε β) : Logged ε β :=
  match x.result with
  | .ok a =>
    let y := f a
    ⟨y.result, x.records ++ y.records⟩
  | .error e => ⟨.error e, x.records⟩

instance : Monad (Logged ε) where
  pure := Logged.pure
  bind := Logged.bind

def lift {δ : Type} (wrap : δ → ε) : Except δ α → Logged ε α
  | .ok x => ⟨.ok x, []⟩
  | .error e => ⟨.error (wrap e), []⟩

def log (level : Level) (topic : Topic) (message : String) : Logged ε Unit :=
  ⟨.ok (), [⟨level, topic, message⟩]⟩

end Logged

end GraphViews.Command

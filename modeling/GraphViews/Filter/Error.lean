import GraphViews.Fault
import GraphViews.Filter.ParseFailure
import GraphViews.Filter.Shown

/-! # Why a text is no filter -/

namespace GraphViews.Filter

inductive FilterError where
  | unparsable (failure : ParseFailure)
  | intOutOfRange (literal : String)
  | unknownField (context : Context) (name : String)
  | illTyped (term : Expr)
  | fault (fault : Fault)
  deriving DecidableEq

def FilterError.message : FilterError → String
  | unparsable failure => failure.message
  | intOutOfRange literal => s!"integer literal out of range: {literal}"
  | unknownField context name => s!"unknown {context.noun} field \x60{name}\x60"
  | illTyped term => s!"type error in \x60{Expr.shown term}\x60"
  | fault f => f.message

end GraphViews.Filter

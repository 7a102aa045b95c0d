import GraphViews.Decimal
import GraphViews.Filter.Error

/-!
# From a text to an expression

The text is parsed as a whole, then the expression is made of its parts. A part that is missing, or that stands
where none of its rule can, is a broken contract.
-/

namespace GraphViews.Filter

def literalValue (literal : String) : Except FilterError Int64 :=
  match Decimal.read? literal with
  | some n => .ok n
  | none => .error (.intOutOfRange literal)

def CmpOp.ofSymbol (symbol : String) : Except FilterError CmpOp :=
  match CmpOp.all.find? fun op => op.symbol = symbol with
  | some op => .ok op
  | none => .error (.fault .misplacedTerm)

/-- The comparison that a part is the symbol of. -/
def Node.comparison : Node → Except FilterError CmpOp
  | mk _ text _ => CmpOp.ofSymbol text

mutual

/-- The first integer without a value, from the left, is the one that is named. -/
def Node.read : Node → Except FilterError Expr
  | mk .orExpr _ inner => Node.readChain .or inner
  | mk .andExpr _ inner => Node.readChain .and inner
  | mk .modExpr _ inner => Node.readChain .mod inner
  | mk .notExpr _ [] => .error (.fault .missingPart)
  | mk .notExpr _ (n :: _) =>
    match n.rule with
    | .notExpr => return .not (← n.read)
    | _ => n.read
  | mk .cmpExpr _ [] => .error (.fault .missingPart)
  | mk .cmpExpr _ (left :: op :: right :: _) => do
    let a ← left.read
    return .cmp (← op.comparison) a (← right.read)
  | mk .cmpExpr _ (left :: _) => left.read
  | mk .bool text _ => .ok (.bool (text == "true"))
  | mk .int text _ => return .int (← literalValue text)
  | mk .field text _ => .ok (.field text)
  | mk .cmpOp _ _ | mk .eoi _ _ => .error (.fault .misplacedTerm)

def Node.readChain (op : Expr → Expr → Expr) : List Node → Except FilterError Expr
  | [] => .error (.fault .missingPart)
  | n :: ns => do Node.readFrom op (← n.read) ns

def Node.readFrom (op : Expr → Expr → Expr) (e : Expr) : List Node → Except FilterError Expr
  | [] => .ok e
  | n :: ns => do Node.readFrom op (op e (← n.read)) ns

end

def parseParts (text : List Char) : Except ParseFailure (List Node) :=
  let o := wholeText text
  match o.result with
  | some (parts, _) => .ok parts
  | none => .error (.ofAttempts text (o.attempts ⟨text.length, []⟩))

def parse (text : String) : Except FilterError Expr :=
  match parseParts text.toList with
  | .ok (n :: _) => if n.rule = .eoi then .error (.fault .misplacedTerm) else n.read
  | .ok [] => .error (.fault .misplacedTerm)
  | .error failure => .error (.unparsable failure)

end GraphViews.Filter

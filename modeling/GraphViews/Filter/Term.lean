/-! # Filter terms over a record of integers, and the two kinds of record they are read against -/

namespace GraphViews.Filter

inductive CmpOp where
  | eq | neq | lt | le | gt | ge
  deriving DecidableEq

namespace CmpOp

def all : List CmpOp := [eq, neq, lt, le, gt, ge]

def symbol : CmpOp → String
  | eq => "=="
  | neq => "!="
  | lt => "<"
  | le => "<="
  | gt => ">"
  | ge => ">="

def apply : CmpOp → Int64 → Int64 → Bool
  | eq, x, y => x == y
  | neq, x, y => x != y
  | lt, x, y => decide (x < y)
  | le, x, y => decide (x ≤ y)
  | gt, x, y => decide (y < x)
  | ge, x, y => decide (y ≤ x)

/-- The comparison that holds exactly where this one does not. -/
def negate : CmpOp → CmpOp
  | eq => neq
  | neq => eq
  | lt => ge
  | le => gt
  | gt => le
  | ge => lt

end CmpOp

/-- The record that a filter is read against. -/
inductive Context where
  | vertex | edge
  deriving DecidableEq

namespace Context

def noun : Context → String
  | vertex => "vertex"
  | edge => "edge"

/-- The fields of the record, in order. -/
def fields : Context → List String
  | vertex => ["vid", "vlabel"]
  | edge => ["src", "dst", "elabel", "capacity"]

def fieldIndex? (c : Context) (name : String) : Option Nat :=
  c.fields.idxOf? name

end Context

/-- A filter term whose fields are named by `φ` and whose integers are written as `ι`. -/
inductive Term (φ ι : Type) where
  | field (name : φ)
  | int (value : ι)
  | bool (value : Bool)
  | and (a b : Term φ ι)
  | or (a b : Term φ ι)
  | not (a : Term φ ι)
  | cmp (op : CmpOp) (a b : Term φ ι)
  | mod (a b : Term φ ι)
  deriving DecidableEq

/-- Replaces every field and every integer, from left to right, up to the first failure. -/
def Term.traverse {φ ψ ι κ ε : Type} (field : φ → Except ε ψ) (int : ι → Except ε κ) :
    Term φ ι → Except ε (Term ψ κ)
  | .field x => return .field (← field x)
  | .int n => return .int (← int n)
  | .bool b => return .bool b
  | .and a b => return .and (← a.traverse field int) (← b.traverse field int)
  | .or a b => return .or (← a.traverse field int) (← b.traverse field int)
  | .not a => return .not (← a.traverse field int)
  | .cmp op a b => return .cmp op (← a.traverse field int) (← b.traverse field int)
  | .mod a b => return .mod (← a.traverse field int) (← b.traverse field int)

abbrev Expr := Term String Int64

/-- A term whose fields are positions in the record. -/
abbrev Code := Term Nat Int64

end GraphViews.Filter

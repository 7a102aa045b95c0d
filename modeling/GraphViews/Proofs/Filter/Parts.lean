import GraphViews.Proofs.Filter.Literals
import GraphViews.Proofs.Filter.ParserResults

/-!
# What the parts of a text stand for

A part stands for a term if it is read as the expression of the term. The parts under the rule of a level are its
operands, so they stand for a term together.
-/

namespace GraphViews.Filter

open Fallible

namespace Node

variable {op : Expr → Expr → Expr} {n : Node} {ns : List Node}

private theorem readChain_cons (op : Expr → Expr → Expr) (n : Node) (ns : List Node) :
    readChain op (n :: ns) = (do readFrom op (← n.read) ns) := rfl

private theorem readFrom_cons (op : Expr → Expr → Expr) (e : Expr) (n : Node) (ns : List Node) :
    readFrom op e (n :: ns) = (do readFrom op (op e (← n.read)) ns) := rfl

theorem read_notExpr (text : String) (n : Node) : (mk .notExpr text [n]).read =
    if n.rule = .notExpr then (do return .not (← n.read)) else n.read := by
  obtain ⟨rule, text, inner⟩ := n
  cases rule <;> rfl

private theorem readChain_singleton (op : Expr → Expr → Expr) (n : Node) : readChain op [n] = n.read := by
  rw [readChain_cons]
  cases n.read with
  | error e => rfl
  | ok e => rfl

private theorem readFrom_concat (e : Expr) (ns : List Node) (n : Node) :
    readFrom op e (ns ++ [n]) = (do return op (← readFrom op e ns) (← n.read)) := by
  induction ns generalizing e with
  | nil =>
    rw [List.nil_append, readFrom_cons]
    cases n.read with
    | error e => rfl
    | ok e => rfl
  | cons m ns ih =>
    rw [List.cons_append, readFrom_cons, readFrom_cons]
    cases m.read with
    | error e => rfl
    | ok e => exact ih _

/-- The last operand of a chain is joined to all before it. -/
theorem readChain_concat (h : ns ≠ []) (n : Node) :
    readChain op (ns ++ [n]) = (do return op (← readChain op ns) (← n.read)) := by
  obtain ⟨m, ms, rfl⟩ := List.exists_cons_of_ne_nil h
  rw [List.cons_append, readChain_cons, readChain_cons]
  cases m.read with
  | error e => rfl
  | ok e => exact readFrom_concat e ms n

end Node

namespace Level

/-- The rule that makes a part of what is read for the level. Atoms make their own. -/
def rule? : Level → Option Rule
  | disjunction => some .orExpr
  | conjunction => some .andExpr
  | negation => some .notExpr
  | comparison => some .cmpExpr
  | remainder => some .modExpr
  | atom => none

def wrap (l : Level) (s r : List Char) (ns : List Node) : List Node :=
  match l.rule? with
  | some rule => [.between rule s r ns]
  | none => ns

end Level

/-- A part stands for a term of the level. -/
structure Node.StandsFor (n : Node) (l : Level) (x : Raw) : Prop where
  rule : ∀ rule ∈ l.rule?, n.rule = rule
  read : n.read = x.resolve

/-- The parts stand for a term of the level, once they are one part. -/
def Level.Combines (l : Level) (ns : List Node) (x : Raw) : Prop :=
  ∀ s r, ∃ n, l.wrap s r ns = [n] ∧ n.StandsFor l x

namespace Level

variable {l : Level} {n m : Node} {ns : List Node} {x y : Raw}

private theorem combines_of_read {rule : Rule} (hl : l.rule? = some rule)
    (h : ∀ text, (Node.mk rule text ns).read = x.resolve) : l.Combines ns x := by
  intro s r
  refine ⟨.between rule s r ns, by rw [wrap, hl], ?_, h _⟩
  intro rule' hrule
  rw [hl] at hrule
  exact Option.some.inj hrule

theorem combines_atom (h : n.read = x.resolve) : atom.Combines [n] x :=
  fun _ _ => ⟨n, rfl, fun _ hrule => (Option.not_mem_none _ hrule).elim, h⟩

theorem combines_comparison_one (hx : n.StandsFor remainder x) : comparison.Combines [n] x :=
  combines_of_read rfl fun _ => hx.read

theorem combines_comparison_two {op : CmpOp} {k : Node} (hx : n.StandsFor remainder x)
    (hk : k.comparison = .ok op) (hy : m.StandsFor remainder y) :
    comparison.Combines [n, k, m] (.cmp op x y) := by
  refine combines_of_read rfl fun text => ?_
  change (do
    let a ← n.read
    return .cmp (← k.comparison) a (← m.read)) = Raw.resolve (.cmp op x y)
  rw [hx.read, hk, hy.read]
  rfl

theorem combines_negation_plain (hx : n.StandsFor comparison x) : negation.Combines [n] x := by
  refine combines_of_read rfl fun text => ?_
  have hrule : n.rule ≠ .notExpr := by
    rw [hx.rule .cmpExpr rfl]
    decide
  rw [Node.read_notExpr, if_neg hrule, hx.read]

theorem combines_negation_marked (hx : n.StandsFor negation x) :
    negation.Combines [n] (.not x) := by
  refine combines_of_read rfl fun text => ?_
  rw [Node.read_notExpr, if_pos (hx.rule .notExpr rfl), hx.read]
  rfl

/-- The parts of the level are operands of a chain, joined by `op` as terms are by `join`. -/
structure Joins (l : Level) (op : Expr → Expr → Expr) (join : Raw → Raw → Raw) : Prop where
  read : ∃ rule, l.rule? = some rule ∧ ∀ text ns, (Node.mk rule text ns).read = Node.readChain op ns
  resolve : ∀ x y, (join x y).resolve = (do return op (← x.resolve) (← y.resolve))

theorem joins_remainder : remainder.Joins .mod .mod where
  read := ⟨.modExpr, rfl, fun _ _ => rfl⟩
  resolve _ _ := rfl

theorem joins_conjunction : conjunction.Joins .and .and where
  read := ⟨.andExpr, rfl, fun _ _ => rfl⟩
  resolve _ _ := rfl

theorem joins_disjunction : disjunction.Joins .or .or where
  read := ⟨.orExpr, rfl, fun _ _ => rfl⟩
  resolve _ _ := rfl

namespace Joins

variable {op : Expr → Expr → Expr} {join : Raw → Raw → Raw}

private theorem readChain_eq (h : l.Joins op join) (hns : l.Combines ns x) :
    Node.readChain op ns = x.resolve := by
  obtain ⟨rule, hl, hread⟩ := h.read
  obtain ⟨n, hn, hx⟩ := hns [] []
  rw [wrap, hl] at hn
  obtain rfl := List.head_eq_of_cons_eq hn
  rw [← hx.read]
  exact (hread _ ns).symm

/-- A chain without operands would be a fault. -/
theorem ne_nil (h : l.Joins op join) (hns : l.Combines ns x) : ns ≠ [] := by
  rintro rfl
  exact x.resolve_reported.ne_fault .missingPart (h.readChain_eq hns).symm

theorem combines_one (h : l.Joins op join) (hx : n.read = x.resolve) : l.Combines [n] x := by
  obtain ⟨rule, hl, hread⟩ := h.read
  refine combines_of_read hl fun text => ?_
  rw [hread, Node.readChain_singleton, hx]

theorem combines_more (h : l.Joins op join) (hns : l.Combines ns x) (hy : n.read = y.resolve) :
    l.Combines (ns ++ [n]) (join x y) := by
  obtain ⟨rule, hl, hread⟩ := h.read
  refine combines_of_read hl fun text => ?_
  rw [hread, Node.readChain_concat (h.ne_nil hns), h.readChain_eq hns, hy, h.resolve]

end Joins

end Level

end GraphViews.Filter

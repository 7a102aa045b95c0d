/-! # Broken contracts: what was asked for that does not exist -/

namespace GraphViews

inductive Fault where
  | foreignVertex (v : Nat)
  | foreignEdge (index source target : Nat)
  | foreignEndpoint (u v : Nat)
  | outOfBounds (size index : Nat)
  | misplacedTerm
  | missingPart
  | unresolvedField (name : String)
  | edgeExprOnVertices
  | vertexExprOnEdges
  deriving DecidableEq

namespace Fault

def message : Fault → String
  | foreignVertex v => s!"vertex {v} does not belong to this graph"
  | foreignEdge i s t => s!"edge {s}->{t} (#{i}) does not belong to this graph"
  | foreignEndpoint u v => s!"edge ({u}, {v}) names a vertex outside this graph"
  | outOfBounds n i => s!"index out of bounds: the len is {n} but the index is {i}"
  | misplacedTerm => "internal error: entered unreachable code"
  | missingPart => "called \x60Option::unwrap()\x60 on a \x60None\x60 value"
  | unresolvedField name =>
      s!"internal error: entered unreachable code: unchecked field \x60{name}\x60"
  | edgeExprOnVertices =>
      "assertion \x60left == right\x60 failed: edge expression used as a vertex filter" ++
        "\n  left: Edge\n right: Vertex"
  | vertexExprOnEdges =>
      "assertion \x60left == right\x60 failed: vertex expression used as an edge filter" ++
        "\n  left: Vertex\n right: Edge"

end Fault

end GraphViews

import OnnxFusion.Pattern.Registry
/-!
# Matching a whole graph

Nodes are visited in topological order (node-list order when there is a cycle). At each
node the patterns are tried in priority order and the first match is kept, so every match
is anchored at the node where it was found.

Without overlap, a node already covered by a kept match is skipped, and a match that shares
a node with a kept match is passed over in favour of the next pattern. With overlap, every
node is visited and nothing is passed over.
-/

set_option autoImplicit false

namespace OnnxFusion

open Dataflow

/-- The first match of the patterns at a node that does not touch `claimed`. -/
def firstMatch (g : Graph) (n : Node) (claimed : List Nat) (allowOverlap : Bool) :
    List Pattern → Outcome (Option Match)
  | [] => .ok none
  | p :: rest => do
    match ← p.run g n with
    | some m =>
      if !allowOverlap && m.overlaps claimed then firstMatch g n claimed allowOverlap rest
      else pure (some m)
    | none => firstMatch g n claimed allowOverlap rest

/-- Visits nodes in order, keeping matches and the covered node indices. -/
def matchNodes (g : Graph) (patterns : List Pattern) (allowOverlap : Bool) :
    List Node → List Nat → List Match → Outcome (List Match)
  | [], _, acc => .ok acc.reverse
  | n :: rest, claimed, acc => do
    if !allowOverlap && claimed.contains n.index then matchNodes g patterns allowOverlap rest claimed acc
    else
      match ← firstMatch g n claimed allowOverlap patterns with
      | some m =>
        let claimed' := if allowOverlap then claimed else claimed ++ m.indices
        matchNodes g patterns allowOverlap rest claimed' (m :: acc)
      | none => matchNodes g patterns allowOverlap rest claimed acc

/-- Every match of the registry's patterns in a graph. -/
def matchAll (g : Graph) (r : Registry) (allowOverlap : Bool) : Outcome (List Match) :=
  matchNodes g r.ordered allowOverlap g.topoOrder [] []

end OnnxFusion

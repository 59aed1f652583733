import OnnxFusion.Proofs.Pattern.Walk
/-!
# Which readers a match accounts for

A match is meant to cut out a subgraph that one fused node can replace. For that, a tensor
written inside the match and not among the match's outputs must have no reader outside it.
`Match.ReadInside m g p` says this of one matched node `p`: every tensor `p` writes, other
than an output of the match, is read by matched nodes only (readers are the live nodes of
the view).

The recognisers check successor lists, and a successor list is the list of every live
reader (`mem_succs`), so a node whose successors were all checked reads inside. Not every
node's successors are checked, and no recogniser looks at the graph outputs or at the
operands a matched node reads from outside.

* `readInside_of_succs`, `readInside_of_outputs`: a node reads inside when all its
  successors are matched, or when it writes only outputs of the match.
* `LayerNormWalk.readInside`, `AttentionWalk.readInside`: the walks of the two recognisers
  that check successors keep their readers inside.
* `readers_stay_inside`: in a layer-normalisation match every matched node reads inside; in
  an attention match the `Softmax` and its successor, the second `MatMul`, do.
  `readers_stay_inside_on_chains` shows both on small graphs.
* `matches_not_closed`: the output of a matched transposed convolution or of a matched
  quotient may also be read by a node outside the match, a tensor written inside a
  layer-normalisation match may be a graph output, and a matched node may read from outside a
  tensor that is neither an input of the match nor an initializer (`Match.OperandsDeclared`).
-/

set_option autoImplicit false

namespace OnnxFusion

open Dataflow

/-- Every tensor `p` writes, other than an output of the match, is read by matched nodes
only. -/
def Match.ReadInside (m : Match) (g : Graph) (p : Node) : Prop :=
  ∀ t ∈ p.outputs, t ∉ m.outputs → ∀ c ∈ g.live, t ∈ c.inputs → c.index ∈ m.indices

/-- Every tensor `p` reads that no matched node writes is an input of the match or an
initializer. -/
def Match.OperandsDeclared (m : Match) (g : Graph) (p : Node) : Prop :=
  ∀ t ∈ p.inputs, (∀ q ∈ m.nodes, t ∉ q.outputs) → Value.str t ∈ m.inputs ∨ g.isConstant t = true

namespace Proofs

open Pattern

section ReadInside

variable {g : Graph} {m : Match} {p : Node}

theorem mem_indices {c : Node} (h : c ∈ m.nodes) : c.index ∈ m.indices :=
  List.mem_map_of_mem h

/-- A node whose successors are all matched reads inside. -/
theorem readInside_of_succs (h : ∀ c ∈ g.succs p, c.index ∈ m.indices) : m.ReadInside g p := by
  intro t ht _ c hc hin
  exact h c (mem_succs hc ht hin)

/-- A node whose only successor is matched reads inside. -/
theorem readInside_of_succs_eq {q : Node} (hs : g.succs p = [q]) (hq : q ∈ m.nodes) :
    m.ReadInside g p := by
  refine readInside_of_succs fun c hc => ?_
  rw [hs, List.mem_singleton] at hc
  exact hc ▸ mem_indices hq

/-- A node that writes only outputs of the match reads inside. -/
theorem readInside_of_outputs (h : p.outputs = m.outputs) : m.ReadInside g p := by
  intro t ht hout
  exact absurd (h ▸ ht) hout

end ReadInside

/-- The affine tail of a layer-normalisation walk reads inside: the `Mul`, when matched,
has its `Add` as sole successor or writes the outputs, and the last node writes them. -/
theorem LayerNormWalk.tail_readInside {g : Graph} {m : Match} (w : LayerNormWalk g m) :
    m.ReadInside g w.div ∧ ∀ q ∈ w.tail, m.ReadInside g q := by
  have hmem : ∀ q ∈ w.tail, q ∈ m.nodes := fun q hq => by
    rw [w.nodes_eq]
    exact List.mem_append_right _ hq
  obtain ⟨mul, hmul, htail⟩ := w.affine
  rcases htail with ⟨htail, hout⟩ | ⟨htail, hout⟩ | ⟨add, hadd, htail, hout⟩
  · -- the match ends at the `Div`, whose outputs are the match's
    rw [htail]
    exact ⟨readInside_of_outputs hout.symm, by simp⟩
  · rw [htail] at hmem ⊢
    refine ⟨readInside_of_succs_eq hmul (hmem mul (by simp)), ?_⟩
    simpa using readInside_of_outputs hout.symm
  · rw [htail] at hmem ⊢
    refine ⟨readInside_of_succs_eq hmul (hmem mul (by simp)), ?_⟩
    simpa using ⟨readInside_of_succs_eq hadd (hmem add (by simp)), readInside_of_outputs hout.symm⟩

/-- Every node of a layer-normalisation walk reads inside. -/
theorem LayerNormWalk.readInside {g : Graph} {m : Match} (w : LayerNormWalk g m) :
    ∀ p ∈ m.nodes, m.ReadInside g p := by
  have hmem : ∀ q ∈ [w.rm1, w.sub, w.pown, w.rm2, w.addEps, w.sqrt, w.div], q ∈ m.nodes :=
    fun q hq => by
      rw [w.nodes_eq]
      exact List.mem_append_left _ hq
  obtain ⟨hdiv, htail⟩ := w.tail_readInside
  -- the `Sub` has two successors, the `Pow` and the normalising `Div`
  have hsub : m.ReadInside g w.sub := readInside_of_succs fun c hc => by
    have hi : c.index ∈ [w.pown.index, w.div.index] := w.succs_sub ▸ List.mem_map_of_mem hc
    simp only [List.mem_cons, List.not_mem_nil, or_false] at hi
    rcases hi with hi | hi
    · exact hi ▸ mem_indices (hmem w.pown (by simp))
    · exact hi ▸ mem_indices (hmem w.div (by simp))
  intro p hp
  rw [w.nodes_eq] at hp
  simp only [List.cons_append, List.mem_cons] at hp
  rcases hp with rfl | rfl | rfl | rfl | rfl | rfl | rfl | hp
  · exact readInside_of_succs_eq w.succs_rm1 (hmem w.sub (by simp))
  · exact hsub
  · exact readInside_of_succs_eq w.succs_pown (hmem w.rm2 (by simp))
  · exact readInside_of_succs_eq w.succs_rm2 (hmem w.addEps (by simp))
  · exact readInside_of_succs_eq w.succs_addEps (hmem w.sqrt (by simp))
  · exact readInside_of_succs_eq w.succs_sqrt (hmem w.div (by simp))
  · exact hdiv
  · exact htail p (by simpa using hp)

/-- The `Softmax` of an attention walk and its successor, the second `MatMul`, read
inside. -/
theorem AttentionWalk.readInside {g : Graph} {softmax : Node} {m : Match}
    (w : AttentionWalk g softmax m) : ∀ p ∈ softmax :: g.succs softmax, m.ReadInside g p := by
  have hmem : ∀ q ∈ [w.mixed, w.outTrans], q ∈ m.nodes := fun q hq => by
    rw [w.nodes_eq]
    simp only [List.mem_cons, List.not_mem_nil, or_false] at hq
    rcases hq with rfl | rfl <;> simp
  intro p hp
  rw [w.succs_softmax, List.mem_cons, List.mem_singleton] at hp
  rcases hp with rfl | rfl
  · exact readInside_of_succs_eq w.succs_softmax (hmem w.mixed (by simp))
  · exact readInside_of_succs_eq w.succs_mixed (hmem w.outTrans (by simp))

/-- The readers a match accounts for: in a layer-normalisation match every tensor a matched
node writes, other than an output of the match, is read by matched nodes only; in an
attention match this holds for the tensors written by the `Softmax` and by the second
`MatMul`. -/
theorem readers_stay_inside {g : Graph} {n : Node} {m : Match} :
    (Pattern.layerNorm g n = .ok (some m) → ∀ p ∈ m.nodes, m.ReadInside g p) ∧
    (Pattern.attention g n = .ok (some m) → ∀ p ∈ n :: g.succs n, m.ReadInside g p) := by
  constructor
  · intro h
    obtain ⟨w⟩ := layerNorm_walk h
    exact w.readInside
  · intro h
    obtain ⟨w⟩ := attention_walk h
    exact w.readInside

/-! ### Small graphs -/

/-- A node of a small graph, without attributes. -/
def plainNode (index : Nat) (name opType : String) (inputs outputs : List String)
    (attrs : Record := []) : Node :=
  { index, name, opType, inputs, outputs, attrs }

/-- The mean of a decomposed layer normalisation over the last axis. -/
def meanNode : Node := plainNode 0 "rm1" "ReduceMean" ["x"] ["m"] [("axes", .list [.int (-1)])]

/-- A decomposed layer normalisation whose `Mul` reads no initializer. -/
def layerNormChain : Graph :=
  { nodes := [meanNode, plainNode 1 "sub" "Sub" ["x", "m"] ["d"],
      plainNode 2 "pow" "Pow" ["d", "two"] ["p"], plainNode 3 "rm2" "ReduceMean" ["p"] ["v"],
      plainNode 4 "addEps" "Add" ["v", "eps"] ["ve"], plainNode 5 "sqrt" "Sqrt" ["ve"] ["sd"],
      plainNode 6 "div" "Div" ["d", "sd"] ["nrm"], plainNode 7 "mul" "Mul" ["nrm", "gamma"] ["y"]],
    removed := [], initializers := [("eps", Tensor.scalar .float32 (.int 1))],
    shapes := [("nrm", [.size 1, .size 4])] }

/-- The `Softmax` of a scaled dot-product attention. -/
def softmaxNode : Node := plainNode 4 "sm" "Softmax" ["qk"] ["a"]

/-- Scaled dot-product attention without reshapes in front of the three branches. -/
def attentionChain : Graph :=
  { nodes := [plainNode 0 "qt" "Transpose" ["q"] ["qT"], plainNode 1 "dv" "Div" ["qT", "s"] ["qd"],
      plainNode 2 "kt" "Transpose" ["k"] ["kT"], plainNode 3 "mm1" "MatMul" ["qd", "kT"] ["qk"],
      softmaxNode, plainNode 5 "vt" "Transpose" ["v"] ["vT"],
      plainNode 6 "mm2" "MatMul" ["a", "vT"] ["o"], plainNode 7 "ot" "Transpose" ["o"] ["oT"],
      plainNode 8 "rs" "Reshape" ["oT"] ["y"]],
    removed := [], initializers := [], shapes := [("qk", [.size 1, .size 2, .size 3])] }

theorem readers_stay_inside_on_chains :
    (∃ m, Pattern.layerNorm layerNormChain meanNode = .ok (some m) ∧
      ∀ p ∈ m.nodes, m.ReadInside layerNormChain p) ∧
    (∃ m, Pattern.attention attentionChain softmaxNode = .ok (some m) ∧
      ∀ p ∈ softmaxNode :: attentionChain.succs softmaxNode, m.ReadInside attentionChain p) :=
  ⟨⟨_, rfl, (@readers_stay_inside layerNormChain meanNode _).1 rfl⟩,
    ⟨_, rfl, (@readers_stay_inside attentionChain softmaxNode _).2 rfl⟩⟩

/-- A transposed convolution whose output is normalised and also rectified. -/
def convNode : Node := plainNode 0 "conv" "ConvTranspose" ["x", "w"] ["c"]

/-- The graph of `convNode`, its normalisation and a `Relu` beside it. -/
def sharedConvGraph : Graph :=
  { nodes := [convNode, plainNode 1 "bn" "BatchNormalization" ["c", "s", "b", "mu", "var"] ["y"],
      plainNode 2 "relu" "Relu" ["c"] ["z"]],
    removed := [], initializers := [], shapes := [] }

/-- The transposed convolution and normalisation are matched although the `Relu` outside the
match reads the convolution's output. -/
theorem convBatchNorm_reader_outside :
    ∃ m, Pattern.convBatchNorm sharedConvGraph convNode = .ok (some m) ∧
      ¬ m.ReadInside sharedConvGraph convNode := by
  refine ⟨_, rfl, fun h => ?_⟩
  have hrelu := h "c" (by decide) (by decide) (plainNode 2 "relu" "Relu" ["c"] ["z"])
    (by simp [Graph.live, sharedConvGraph]) (by decide)
  simp [Match.indices, convNode, plainNode] at hrelu

/-- A quotient under a logarithm. -/
def quotientDiv : Node := plainNode 0 "div" "Div" ["a", "b"] ["c"]

/-- The logarithm of `quotientDiv`. -/
def quotientLog : Node := plainNode 1 "log" "Log" ["c"] ["y"]

/-- The graph of `quotientDiv`, its logarithm and a `Relu` beside it. -/
def sharedQuotientGraph : Graph :=
  { nodes := [quotientDiv, quotientLog, plainNode 2 "relu" "Relu" ["c"] ["z"]],
    removed := [], initializers := [], shapes := [] }

/-- The quotient and its logarithm are matched although the `Relu` outside the match reads the
quotient. -/
theorem quotient_reader_outside :
    ∃ m, Pattern.logDiv sharedQuotientGraph quotientLog = .ok (some m) ∧ quotientDiv ∈ m.nodes ∧
      ¬ m.ReadInside sharedQuotientGraph quotientDiv := by
  refine ⟨_, rfl, by simp, fun h => ?_⟩
  have hrelu := h "c" (by decide) (by decide) (plainNode 2 "relu" "Relu" ["c"] ["z"])
    (by simp [Graph.live, sharedQuotientGraph]) (by decide)
  simp [Match.indices, quotientDiv, quotientLog, plainNode] at hrelu

/-- A decomposed layer normalisation whose centred tensor `d` is also a graph output. -/
def exposedNormModel : GraphDef where
  nodes := [⟨"ReduceMean", "rm1", ["x"], ["m"], [{ name := "axes", ints := [-1] }]⟩,
    ⟨"Sub", "sub", ["x", "m"], ["d"], []⟩, ⟨"Pow", "pow", ["d", "two"], ["p"], []⟩,
    ⟨"ReduceMean", "rm2", ["p"], ["v"], [{ name := "axes", ints := [-1] }]⟩,
    ⟨"Add", "addEps", ["v", "eps"], ["ve"], []⟩, ⟨"Sqrt", "sqrt", ["ve"], ["sd"], []⟩,
    ⟨"Div", "div", ["d", "sd"], ["nrm"], []⟩, ⟨"Mul", "mul", ["nrm", "gamma"], ["y"], []⟩]
  initializers := [("two", Tensor.scalar .float32 (.int 2)),
    ("eps", Tensor.scalar .float32 (.int 1))]
  inputs := []
  outputs := [⟨"d", "float32", some [.size 1, .size 4]⟩, ⟨"y", "float32", some [.size 1, .size 4]⟩]
  valueInfo := [⟨"nrm", "float32", some [.size 1, .size 4]⟩]

/-- The layer normalisation is matched although the `Sub` inside it writes a graph output that
is not an output of the match. -/
theorem centred_tensor_exposed :
    ∃ g, Graph.ofDef exposedNormModel = .ok g ∧ ∃ rm1 ∈ g.live, ∃ m,
      Pattern.layerNorm g rm1 = .ok (some m) ∧ ∃ p ∈ m.nodes, ∃ t ∈ p.outputs,
        t ∉ m.outputs ∧ t ∈ exposedNormModel.outputs.map (·.name) :=
  ⟨_, rfl, _, List.mem_cons_self, _, rfl, _, List.mem_cons_of_mem _ List.mem_cons_self, "d",
    by decide, by decide, by decide⟩

/-- In `layerNormChain` the `Pow` reads the exponent `two`, which is neither an input of the
match nor an initializer. -/
theorem power_operand_undeclared :
    ∃ m, Pattern.layerNorm layerNormChain meanNode = .ok (some m) ∧
      ∃ p ∈ m.nodes, ¬ m.OperandsDeclared layerNormChain p := by
  refine ⟨_, rfl, plainNode 2 "pow" "Pow" ["d", "two"] ["p"], by simp [meanNode, plainNode],
    fun h => ?_⟩
  have htwo := h "two" (by decide) (by simp [meanNode, plainNode])
  simp [Graph.isConstant, Graph.initializer?, Graph.initializerAs, layerNormChain] at htwo

/-- A match need not cut out a subgraph that one fused node can replace: the output of a
matched transposed convolution or of a matched quotient may be read outside the match, a
tensor written inside a layer-normalisation match may be a graph output, and a matched node
may read from outside a tensor that is neither an input of the match nor an initializer. -/
theorem matches_not_closed :
    (∃ m, Pattern.convBatchNorm sharedConvGraph convNode = .ok (some m) ∧
      ¬ m.ReadInside sharedConvGraph convNode) ∧
    (∃ m, Pattern.logDiv sharedQuotientGraph quotientLog = .ok (some m) ∧ quotientDiv ∈ m.nodes ∧
      ¬ m.ReadInside sharedQuotientGraph quotientDiv) ∧
    (∃ g, Graph.ofDef exposedNormModel = .ok g ∧ ∃ rm1 ∈ g.live, ∃ m,
      Pattern.layerNorm g rm1 = .ok (some m) ∧ ∃ p ∈ m.nodes, ∃ t ∈ p.outputs,
        t ∉ m.outputs ∧ t ∈ exposedNormModel.outputs.map (·.name)) ∧
    (∃ m, Pattern.layerNorm layerNormChain meanNode = .ok (some m) ∧
      ∃ p ∈ m.nodes, ¬ m.OperandsDeclared layerNormChain p) :=
  ⟨convBatchNorm_reader_outside, quotient_reader_outside, centred_tensor_exposed,
    power_operand_undeclared⟩

end Proofs

end OnnxFusion

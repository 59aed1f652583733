import Mathlib
import OnnxFusion.Proofs.Dataflow.Adjacency
import OnnxFusion.Proofs.Pattern.Closure
/-!
# What a match says about the operands of its nodes

The layer-normalisation and attention recognisers follow successor and predecessor lists and
check operator types; of the operands they read only a few names. This module states, for
every match they return, what it establishes about the tensors its nodes read, and shows on
two small graphs what it leaves open.

* `layerNorm_match_wiring` (`LayerNormWalk.Wiring`): the operator types along the walk, the
  affine tail being nothing, a `Mul`, or a `Mul` then an `Add`; the `Sub` has exactly the
  `Pow` and the `Div` as consumers; the centred input is the first input of the `Sub` that the first mean
  does not write (`FirstOutside`); epsilon is the one value of the initializer the epsilon
  `Add` reads last among the inputs the second mean does not write (`LastOutside`); the axis
  is the rank of the normalised output less the number of axes of the first mean; scale and
  bias are the initializers of the affine tail or ones and zeros over the trailing
  dimensions.
* `layerNorm_skewed_match`: a graph where the first mean reads another tensor, the `Sub` and
  the `Div` take their operands the other way round, the exponent is `3` and the mean runs
  over a leading axis, and the recogniser still matches it.
* `attention_match_wiring` (`AttentionWalk.Wiring`): the scores `MatMul` is the only node
  writing what the `Softmax` reads; the nodes writing what the scores read are the `Div` and
  the key `Transpose`, and those writing what the second `MatMul` reads are the `Softmax` and
  the value `Transpose`, each pair in either order; the `Div` is fed by the query
  `Transpose` alone; the branch inputs are the first inputs of the three `Transpose` nodes;
  the sequence bounds come from the declared shape of the scores.
* `attention_swapped_match`: a graph where both `MatMul` nodes take their operands the other
  way round, the divisor is no initializer and the `Softmax` runs over axis 1, and the
  recogniser still matches it.
-/

set_option autoImplicit false

namespace OnnxFusion.Proofs

open Dataflow Pattern List

/-! ### First and last names outside a list -/

/-- `x` is the first of `names` that `written` does not hold. -/
def FirstOutside (names written : List String) (x : String) : Prop :=
  ∃ pre post, names = pre ++ x :: post ∧ x ∉ written ∧ ∀ y ∈ pre, y ∈ written

/-- `x` is the last of `names` that `written` does not hold. -/
def LastOutside (names written : List String) (x : String) : Prop :=
  ∃ pre post, names = pre ++ x :: post ∧ x ∉ written ∧ ∀ y ∈ post, y ∈ written

section Outside

variable {names written : List String} {x : String}

theorem firstOutside_of_find? (h : names.find? (fun i => !written.contains i) = some x) :
    FirstOutside names written x := by
  obtain ⟨hx, pre, post, rfl, hpre⟩ := find?_eq_some_iff_append.1 h
  exact ⟨pre, post, rfl, by simpa using hx, fun y hy => by simpa using hpre y hy⟩

theorem firstOutside_of_head?_filter
    (h : (names.filter (fun i => !written.contains i)).head? = some x) :
    FirstOutside names written x :=
  firstOutside_of_find? (head?_filter ▸ h)

/-- The last name outside is the first outside in the reversed list. -/
theorem lastOutside_of_getLast?_filter
    (h : (names.filter (fun i => !written.contains i)).getLast? = some x) :
    LastOutside names written x := by
  rw [getLast?_filter] at h
  obtain ⟨hx, pre, post, hrev, hpre⟩ := find?_eq_some_iff_append.1 h
  refine ⟨post.reverse, pre.reverse, ?_, by simpa using hx,
    fun y hy => by simpa using hpre y (mem_reverse.1 hy)⟩
  simpa using congrArg List.reverse hrev

end Outside

/-! ### Small steps of the recognisers -/

/-- A first element that was found is the head of the list. -/
theorem first_eq_ok {α : Type} {l : List α} {a : α} (h : first l = .ok a) :
    l.head? = some a := by
  cases l with
  | nil => cases h
  | cons b l =>
    simp only [first, Except.ok.injEq] at h
    rw [h, head?_cons]

/-- A consumer reads a tensor its producer writes. -/
theorem feeds_of_mem_succs {g : Graph} {p c : Node} (h : c ∈ g.succs p) : p.feeds c = true :=
  (mem_filter.1 h).2

/-- The sequence bounds of a declared dimension are `[0, n]` for the dimension read as an
int32 number. -/
theorem seqBounds_inv {d : Dim} {t : Tensor} (h : seqBounds d = .ok t) :
    ∃ n, int32Of d = .ok n ∧ t = Tensor.vector .int32 [.int 0, .int n] := by
  unfold seqBounds at h
  rw [bind_eq_ok] at h
  obtain ⟨n, hn, h⟩ := h
  exact ⟨n, hn, (Except.ok.inj h).symm⟩

/-- Two distinct members of a two-element list are the list, in one order or the other. -/
theorem eq_pair_of_mem {α : Type} {l : List α} {a b : α} (hlen : l.length = 2) (ha : a ∈ l)
    (hb : b ∈ l) (hab : a ≠ b) : l = [a, b] ∨ l = [b, a] := by
  obtain ⟨x, y, rfl⟩ := length_eq_two.1 hlen
  simp only [mem_cons, not_mem_nil, or_false] at ha hb
  rcases ha with rfl | rfl <;> rcases hb with rfl | rfl
  · exact absurd rfl hab
  · exact .inl rfl
  · exact .inr rfl
  · exact absurd rfl hab

/-- Nodes of different operator types are different nodes. -/
theorem ne_of_isOp {a b : Node} {op op' : String} (ha : a.isOp op = true) (hb : b.isOp op' = true)
    (hne : op ≠ op') : a ≠ b := by
  rintro rfl
  simp only [Node.isOp, beq_iff_eq] at ha hb
  exact hne (ha.symm.trans hb)

/-- A node with exactly two consumers, the first taken as `a` and the second with the index of
a live `b`, has `a` and `b` as its consumers on a numbered view. -/
theorem succs_eq_pair {g : Graph} (hg : g.Numbered) {p a b : Node} {cs : List Node}
    (hcs : cs = g.succs p) (hlen : cs.length = 2) (ha : first cs = .ok a)
    (hb : (cs.drop 1).head?.map (·.index) = some b.index) (hlive : b ∈ g.live) :
    g.succs p = [a, b] := by
  obtain ⟨c, d, rfl⟩ := length_eq_two.1 hlen
  simp only [first, Except.ok.injEq] at ha
  simp only [drop_succ_cons, drop_zero, head?_cons, Option.map_some, Option.some.injEq] at hb
  -- the second consumer is live and has the index of `b`, so it is `b`
  have hd : d ∈ g.live :=
    Graph.mem_live_of_mem_succs (hcs ▸ mem_cons_of_mem _ (mem_singleton_self _))
  rw [← hcs, ha, hg.eq_of_index_eq hd hlive hb]

/-- Of two nodes whose operator types include `op`, the first has it when the second has
another. -/
theorem isOp_of_mem_opTypes {a b : Node} {op op' : String} (h : op ∈ [a, b].map (·.opType))
    (hb : b.isOp op' = true) (hne : op' ≠ op) : a.isOp op = true := by
  simp only [map_cons, map_nil, mem_cons, not_mem_nil, or_false] at h
  simp only [Node.isOp, beq_iff_eq] at hb ⊢
  rcases h with h | h
  · exact h.symm
  · exact absurd (hb.symm.trans h.symm) hne

/-! ### The constants of a layer normalisation -/

/-- The last step of the constants: the `Add` names a one-element initializer, and the
result gathers what the earlier steps bound. -/
theorem epsilon_step {g : Graph} {rm2 addEps : Node} {sc bi scale bias : Tensor} {ax axis : Int}
    {eps : Float}
    (h : (match ((addEps.inputs.filter (fun i => !rm2.outputs.contains i)).getLast?).bind
        g.initializer? with
      | some t => soleValue t >>= fun e => (pure (some (sc, bi, e, ax)) : Outcome _)
      | none => (throw (Fault.noAttribute "NoneType" "item") : Outcome Float) >>=
          fun e => pure (some (sc, bi, e, ax))) = .ok (some (scale, bias, eps, axis))) :
    sc = scale ∧ bi = bias ∧ ax = axis ∧
      ∃ name t v, LastOutside addEps.inputs rm2.outputs name ∧ g.initializer? name = some t ∧
        t.elems = [v] ∧ eps = v.toFloat := by
  split at h
  case h_2 => cases h
  rename_i t ht
  obtain ⟨e, he, h⟩ := bind_eq_ok.1 h
  obtain ⟨rfl, rfl, rfl, rfl⟩ : sc = scale ∧ bi = bias ∧ e = eps ∧ ax = axis := by
    simpa using pure_some_eq.1 h
  obtain ⟨name, hlast, hinit⟩ := Option.bind_eq_some_iff.1 ht
  unfold soleValue at he
  split at he
  case h_2 => cases he
  rename_i v hv
  exact ⟨rfl, rfl, rfl, name, t, v, lastOutside_of_getLast?_filter hlast, hinit, hv,
    (Except.ok.inj he).symm⟩

/-- A filled default tensor was built from sizes that were read successfully. -/
theorem filled_step {β : Type} {ns? : Outcome (List Nat)} {x : Float} {k : Tensor → Outcome β}
    {b : β} (h : (ns? >>= fun ns => pure (Tensor.filled .float32 ns (.real x)) >>= k) = .ok b) :
    ∃ ns, ns? = .ok ns ∧ k (Tensor.filled .float32 ns (.real x)) = .ok b := by
  obtain ⟨ns, hns, h⟩ := bind_eq_ok.1 h
  exact ⟨ns, hns, h⟩

/-- Everything the constants step establishes: epsilon is the one value of the initializer
that the epsilon `Add` reads last among the inputs the second mean does not write; the axes
of the first mean are present and not empty, and the axis is the rank less their number; a
missing scale or bias is ones or zeros over the trailing dimensions from the axis. -/
theorem normConstants_inv {g : Graph} {rm1 rm2 addEps : Node} {shape : List Dim}
    {scale? bias? : Option Tensor} {scale bias : Tensor} {eps : Float} {axis : Int}
    (h : normConstants g rm1 rm2 addEps shape scale? bias? = .ok (some (scale, bias, eps, axis))) :
    (∃ name t v, LastOutside addEps.inputs rm2.outputs name ∧ g.initializer? name = some t ∧
        t.elems = [v] ∧ eps = v.toFloat) ∧
      (∃ axes n, rm1.attr? "axes" = some axes ∧ axes.isFalsy = false ∧ lengthOf axes = .ok n ∧
        axis = (shape.length : Int) - (n : Int)) ∧
      (scale? = some scale ∨ (scale? = none ∧ ∃ ns, sizesOf (dropFrom shape axis) = .ok ns ∧
        scale = Tensor.filled .float32 ns (.real 1.0))) ∧
      (bias? = some bias ∨ (bias? = none ∧ ∃ ns, sizesOf (dropFrom shape axis) = .ok ns ∧
        bias = Tensor.filled .float32 ns (.real 0.0))) := by
  unfold normConstants at h
  split at h
  case h_2 => exact absurd h pure_none_ne_some
  rename_i axes haxes
  split at h
  case isTrue => exact absurd h pure_none_ne_some
  rename_i hfalsy
  obtain ⟨n, hn, h⟩ := bind_eq_ok.1 h
  have haxes : ∃ axes n', rm1.attr? "axes" = some axes ∧ axes.isFalsy = false ∧
      lengthOf axes = .ok n' ∧
        (shape.length : Int) - (n : Int) = (shape.length : Int) - (n' : Int) :=
    ⟨axes, n, haxes, by simpa using hfalsy, hn, rfl⟩
  -- the scale and the bias are each given or filled; the epsilon is read last in every case
  cases scale? <;> cases bias? <;> dsimp only at h
  · obtain ⟨ns, hns, h⟩ := filled_step h
    obtain ⟨ns', hns', h⟩ := filled_step h
    obtain ⟨rfl, rfl, rfl, heps⟩ := epsilon_step h
    exact ⟨heps, haxes, .inr ⟨rfl, ns, hns, rfl⟩, .inr ⟨rfl, ns', hns', rfl⟩⟩
  · obtain ⟨ns, hns, h⟩ := filled_step h
    obtain ⟨rfl, rfl, rfl, heps⟩ := epsilon_step h
    exact ⟨heps, haxes, .inr ⟨rfl, ns, hns, rfl⟩, .inl rfl⟩
  · obtain ⟨ns', hns', h⟩ := filled_step h
    obtain ⟨rfl, rfl, rfl, heps⟩ := epsilon_step h
    exact ⟨heps, haxes, .inl rfl, .inr ⟨rfl, ns', hns', rfl⟩⟩
  · obtain ⟨rfl, rfl, rfl, heps⟩ := epsilon_step h
    exact ⟨heps, haxes, .inl rfl, .inl rfl⟩

/-- The scale of a match is the initializer the `Mul` reads first among the inputs the `Div`
does not write when the `Mul` joined the match, and ones over the trailing dimensions
otherwise. -/
theorem affine_scale {g : Graph} {div : Node} {tail : List Node} {outs : List String}
    {scale? bias? : Option Tensor} {scale : Tensor} {shape : List Dim} {a : Int}
    (ha : affineOf g div = .ok (some (tail, outs, scale?, bias?)))
    (hScale : scale? = some scale ∨ (scale? = none ∧ ∃ ns, sizesOf (dropFrom shape a) = .ok ns ∧
      scale = Tensor.filled .float32 ns (.real 1.0))) :
    (∃ mul rest s, tail = mul :: rest ∧ FirstOutside mul.inputs div.outputs s ∧
        g.initializer? s = some scale) ∨
      (tail = [] ∧ ∃ ns, sizesOf (dropFrom shape a) = .ok ns ∧
        scale = Tensor.filled .float32 ns (.real 1.0)) := by
  obtain ⟨mul, -, -, htail⟩ := affineOf_inv ha
  rcases htail with ⟨rfl, -, rfl, -, -⟩ | ⟨sc, hsc, rfl, add, -, -, hrest⟩
  case inl =>
    rcases hScale with h | ⟨-, hones⟩
    · cases h
    · exact .inr ⟨rfl, hones⟩
  case inr =>
    obtain ⟨s, hs, hs'⟩ := Option.bind_eq_some_iff.1 hsc
    rcases hScale with h | ⟨h, -⟩
    · obtain rfl := Option.some.inj h
      -- the `Add` after the `Mul` may or may not have joined: the scale is the same
      rcases hrest with ⟨rfl, -⟩ | ⟨-, -, rfl, -⟩ <;>
        exact .inl ⟨mul, _, s, rfl, firstOutside_of_find? hs, hs'⟩
    · cases h

/-- The bias of a match is the initializer the `Add` after the `Mul` reads first among the
inputs the `Mul` does not write when that `Add` joined the match, and zeros over the trailing
dimensions otherwise. -/
theorem affine_bias {g : Graph} {div : Node} {tail : List Node} {outs : List String}
    {scale? bias? : Option Tensor} {bias : Tensor} {shape : List Dim} {a : Int}
    (ha : affineOf g div = .ok (some (tail, outs, scale?, bias?)))
    (hBias : bias? = some bias ∨ (bias? = none ∧ ∃ ns, sizesOf (dropFrom shape a) = .ok ns ∧
      bias = Tensor.filled .float32 ns (.real 0.0))) :
    (∃ mul add b, tail = [mul, add] ∧ FirstOutside add.inputs mul.outputs b ∧
        g.initializer? b = some bias) ∨
      (tail.length < 2 ∧ ∃ ns, sizesOf (dropFrom shape a) = .ok ns ∧
        bias = Tensor.filled .float32 ns (.real 0.0)) := by
  obtain ⟨mul, -, -, htail⟩ := affineOf_inv ha
  -- no `Mul`, a `Mul` alone, or the `Mul` and the `Add`
  rcases htail with ⟨rfl, -, -, rfl, -⟩ |
    ⟨-, -, -, add, -, -, ⟨rfl, -, rfl, -⟩ | ⟨b, hb, rfl, -, rfl⟩⟩
  · rcases hBias with h | ⟨-, hzeros⟩
    · cases h
    · exact .inr ⟨by simp, hzeros⟩
  · rcases hBias with h | ⟨-, hzeros⟩
    · cases h
    · exact .inr ⟨by simp, hzeros⟩
  · obtain ⟨bn, hbn, hbn'⟩ := Option.bind_eq_some_iff.1 hb
    rcases hBias with h | ⟨h, -⟩
    · obtain rfl := Option.some.inj h
      exact .inl ⟨mul, add, bn, rfl, firstOutside_of_find? hbn, hbn'⟩
    · cases h

/-- The affine tail of a match is empty, a `Mul`, or a `Mul` and then an `Add`. -/
theorem affine_ops {g : Graph} {div : Node} {tail : List Node} {outs : List String}
    {scale? bias? : Option Tensor} (ha : affineOf g div = .ok (some (tail, outs, scale?, bias?))) :
    tail = [] ∨ (∃ mul, tail = [mul] ∧ mul.isOp "Mul" = true) ∨
      ∃ mul add, tail = [mul, add] ∧ mul.isOp "Mul" = true ∧ add.isOp "Add" = true := by
  obtain ⟨mul, -, hmul, htail⟩ := affineOf_inv ha
  rcases htail with ⟨rfl, -⟩ | ⟨-, -, -, add, -, hadd, ⟨rfl, -⟩ | ⟨-, -, rfl, -⟩⟩
  · exact .inl rfl
  · exact .inr (.inl ⟨mul, rfl, hmul⟩)
  · exact .inr (.inr ⟨mul, add, rfl, hmul, hadd⟩)

/-! ### The layer-normalisation match -/

section LayerNorm

variable {g : Graph} {m : Match}

/-- What a layer-normalisation match found along the walk `w` says about the operands, with
`x` the centred input, `scale` and `bias` the affine constants, `e` the epsilon, `a` the
axis and `shape` the declared shape of the normalised output. Which tensor the first mean
reads, the order of the operands of the `Sub` and the `Div`, the exponent of the `Pow` and
the axes themselves are not among these facts: the recogniser does not read them. -/
structure LayerNormWalk.Wiring (w : LayerNormWalk g m) (x : String) (scale bias : Tensor)
    (e : Float) (a : Int) (shape : List Dim) : Prop where
  /-- The operator types along the walk. -/
  ops : w.rm1.isOp "ReduceMean" = true ∧ w.sub.isOp "Sub" = true ∧ w.pown.isOp "Pow" = true ∧
    w.rm2.isOp "ReduceMean" = true ∧ w.addEps.isOp "Add" = true ∧ w.sqrt.isOp "Sqrt" = true ∧
    w.div.isOp "Div" = true
  /-- The affine tail is empty, a `Mul`, or a `Mul` and then an `Add`. -/
  tail_ops : w.tail = [] ∨ (∃ mul, w.tail = [mul] ∧ mul.isOp "Mul" = true) ∨
    ∃ mul add, w.tail = [mul, add] ∧ mul.isOp "Mul" = true ∧ add.isOp "Add" = true
  /-- The consumers of the `Sub` are the `Pow` and the `Div`, in that order. -/
  sub_consumers : g.succs w.sub = [w.pown, w.div]
  /-- Each node reads a tensor the one before it writes, and the `Div` reads both the `Sub`
  and the `Sqrt`. -/
  reads : w.rm1.feeds w.sub = true ∧ w.sub.feeds w.pown = true ∧ w.pown.feeds w.rm2 = true ∧
    w.rm2.feeds w.addEps = true ∧ w.addEps.feeds w.sqrt = true ∧ w.sub.feeds w.div = true ∧
    w.sqrt.feeds w.div = true
  /-- The centred input is the first input of the `Sub` that the first mean does not write. -/
  centred : FirstOutside w.sub.inputs w.rm1.outputs x
  /-- Epsilon is the one value of the initializer the epsilon `Add` reads last among the
  inputs the second mean does not write. -/
  epsilon : ∃ name t v, LastOutside w.addEps.inputs w.rm2.outputs name ∧
    g.initializer? name = some t ∧ t.elems = [v] ∧ e = v.toFloat
  /-- The shape is the declared shape of the first output of the `Div`. -/
  declared : ∃ out, w.div.outputs.head? = some out ∧ g.shapeOf out = .ok shape
  /-- The axis is the rank less the number of axes of the first mean, which has some. -/
  axis : ∃ axes n, w.rm1.attr? "axes" = some axes ∧ axes.isFalsy = false ∧
    lengthOf axes = .ok n ∧ a = (shape.length : Int) - (n : Int)
  /-- The scale is the initializer the `Mul` reads first among the inputs the `Div` does not
  write, or, without a `Mul` in the match, ones over the trailing dimensions. -/
  scale : (∃ mul rest s, w.tail = mul :: rest ∧ FirstOutside mul.inputs w.div.outputs s ∧
      g.initializer? s = some scale) ∨
    (w.tail = [] ∧ ∃ ns, sizesOf (dropFrom shape a) = .ok ns ∧
      scale = Tensor.filled .float32 ns (.real 1.0))
  /-- The bias is the initializer the `Add` reads first among the inputs the `Mul` does not
  write, or, without that `Add` in the match, zeros over the trailing dimensions. -/
  bias : (∃ mul add b, w.tail = [mul, add] ∧ FirstOutside add.inputs mul.outputs b ∧
      g.initializer? b = some bias) ∨
    (w.tail.length < 2 ∧ ∃ ns, sizesOf (dropFrom shape a) = .ok ns ∧
      bias = Tensor.filled .float32 ns (.real 0.0))

/-- Each node of the walk reads a tensor the one before it writes. -/
theorem LayerNormWalk.reads (w : LayerNormWalk g m) (hsub : g.succs w.sub = [w.pown, w.div]) :
    w.rm1.feeds w.sub = true ∧ w.sub.feeds w.pown = true ∧ w.pown.feeds w.rm2 = true ∧
      w.rm2.feeds w.addEps = true ∧ w.addEps.feeds w.sqrt = true ∧ w.sub.feeds w.div = true ∧
      w.sqrt.feeds w.div = true := by
  have hsole : ∀ {p c : Node}, g.succs p = [c] → p.feeds c = true :=
    fun hs => feeds_of_mem_succs (hs ▸ mem_singleton_self _)
  exact ⟨hsole w.succs_rm1, feeds_of_mem_succs (hsub ▸ mem_cons_self),
    hsole w.succs_pown, hsole w.succs_rm2, hsole w.succs_addEps,
    feeds_of_mem_succs (hsub ▸ mem_cons_of_mem _ (mem_singleton_self _)), hsole w.succs_sqrt⟩

/-- Every layer-normalisation match that the recogniser returns on a numbered view was found
along a walk from its anchor whose operands are as `LayerNormWalk.Wiring` describes. -/
theorem layerNorm_match_wiring (hg : g.Numbered) {rm1 : Node}
    (h : Pattern.layerNorm g rm1 = .ok (some m)) :
    ∃ (w : LayerNormWalk g m) (x : String) (scale bias : Tensor) (e : Float) (a : Int)
      (shape : List Dim), w.rm1 = rm1 ∧ m.inputs = [.str x, .array scale, .array bias] ∧
      m.attrs = [("epsilon", .float e), ("axis", .int a)] ∧ w.Wiring x scale bias e a shape := by
  obtain ⟨sub, x, pd, pown, rm2, addEps, sqrt, div, divOut, shape, tail, outs, scale?, bias?,
    scale, bias, eps, axis, hop, hc, hpown, hv, hout, hshape, hdiv, ha, hk, rfl⟩ :=
    layerNorm_eq_some h
  obtain ⟨hrm1, hopSub, hx, hpd, hlen, hpow, -⟩ := centredOf_inv hc
  obtain ⟨h1, hopRm2, h2, hopAdd, h3, hopSqrt, h4, hopDiv⟩ := varianceOf_inv hv
  obtain ⟨hEps, hAxis, hScale, hBias⟩ := normConstants_inv hk
  have hsub : g.succs sub = [pown, div] :=
    succs_eq_pair hg hpd hlen hpown hdiv (Graph.mem_live_of_mem_succs (h4 ▸ mem_singleton_self _))
  have hopPow : pown.isOp "Pow" = true :=
    isOp_of_mem_opTypes (hsub ▸ hpd ▸ hpow) hopDiv (by decide)
  refine ⟨⟨rm1, sub, pown, rm2, addEps, sqrt, div, tail, rfl, hrm1, by rw [hsub]; rfl, h1, h2, h3,
      h4, affineOf_eq_some ha⟩, x, scale, bias, eps, axis, shape, rfl, rfl, rfl,
    ⟨⟨hop, hopSub, hopPow, hopRm2, hopAdd, hopSqrt, hopDiv⟩, affine_ops ha, hsub, ?reads,
      firstOutside_of_head?_filter hx, hEps, ⟨divOut, first_eq_ok hout, hshape⟩, hAxis,
      affine_scale ha hScale, affine_bias ha hBias⟩⟩
  case reads => exact LayerNormWalk.reads _ hsub

end LayerNorm

/-- The mean of `skewedNormChain`: it reads `y`, not the centred `x`, over the leading axis. -/
def skewedMean : Node := plainNode 0 "rm1" "ReduceMean" ["y"] ["m"] [("axes", .list [.int 0])]

/-- A chain shaped like a layer normalisation that computes none: the `Sub` is `m - x`, the
exponent is `3`, and the `Div` is `sd / d`. -/
def skewedNormChain : Graph :=
  { nodes := [skewedMean, plainNode 1 "sub" "Sub" ["m", "x"] ["d"],
      plainNode 2 "pow" "Pow" ["d", "three"] ["p"], plainNode 3 "rm2" "ReduceMean" ["p"] ["v"],
      plainNode 4 "addEps" "Add" ["v", "eps"] ["ve"], plainNode 5 "sqrt" "Sqrt" ["ve"] ["sd"],
      plainNode 6 "div" "Div" ["sd", "d"] ["nrm"],
      plainNode 7 "mul" "Mul" ["nrm", "gamma"] ["out"]],
    removed := [], initializers := [("three", Tensor.scalar .float32 (.int 3)),
      ("eps", Tensor.scalar .float32 (.int 1))],
    shapes := [("nrm", [.size 2, .size 4])] }

/-- The recogniser matches `skewedNormChain` with `x` as the normalised input and axis `1`,
though the first mean reads `y` over axis `0`, the `Sub` and the `Div` take their operands
the other way round and the `Pow` reads the initializer `three`. -/
theorem layerNorm_skewed_match :
    ∃ m, Pattern.layerNorm skewedNormChain skewedMean = .ok (some m) ∧
      m.inputs.head? = some (.str "x") ∧ (m.attrs.drop 1).head? = some ("axis", .int 1) ∧
      skewedMean.attr? "axes" = some (.list [.int 0]) ∧
      m.nodes.map (·.inputs) =
        [["y"], ["m", "x"], ["d", "three"], ["p"], ["v", "eps"], ["ve"], ["sd", "d"]] :=
  ⟨_, rfl, rfl, rfl, rfl, rfl⟩

/-- `layerNorm_match_wiring` applies to `skewedNormChain`, a numbered view. -/
theorem skewedNormChain_wiring :
    ∃ m, Pattern.layerNorm skewedNormChain skewedMean = .ok (some m) ∧
      ∃ (w : LayerNormWalk skewedNormChain m) (x : String) (scale bias : Tensor) (e : Float)
        (a : Int) (shape : List Dim), w.rm1 = skewedMean ∧ w.Wiring x scale bias e a shape := by
  obtain ⟨w, x, scale, bias, e, a, shape, hw, -, -, hwire⟩ :=
    layerNorm_match_wiring (g := skewedNormChain) (by decide)
      (show Pattern.layerNorm skewedNormChain skewedMean = .ok (some _) from rfl)
  exact ⟨_, rfl, w, x, scale, bias, e, a, shape, hw, hwire⟩

/-! ### The attention match -/

/-- A branch start: a node with no producer, or with one, a `Reshape`. -/
def BranchStart (g : Graph) (n : Node) : Prop :=
  g.preds n = [] ∨ ∃ r, g.preds n = [r] ∧ r.isOp "Reshape" = true

section Attention

variable {g : Graph} {softmax : Node} {m : Match}

/-- What an attention match found along the walk `w` says about the operands, with `q`, `k`
and `v` the branch inputs and `qSeq`, `kSeq` the sequence bounds. Producers are only known
as a set of two for each `MatMul`, so either operand order passes; what the `Div` divides
by and the axis of the `Softmax` are not read. -/
structure AttentionWalk.Wiring (w : AttentionWalk g softmax m) (q k v : String)
    (qSeq kSeq : Tensor) : Prop where
  /-- The operator types along the walk. -/
  ops : softmax.isOp "Softmax" = true ∧ w.scores.isOp "MatMul" = true ∧
    w.div.isOp "Div" = true ∧ w.qTrans.isOp "Transpose" = true ∧
    w.kTrans.isOp "Transpose" = true ∧ w.mixed.isOp "MatMul" = true ∧
    w.vTrans.isOp "Transpose" = true ∧ w.outTrans.isOp "Transpose" = true
  /-- The scores are the only producer of what the `Softmax` reads. -/
  softmax_fed : g.preds softmax = [w.scores]
  /-- The producers of what the scores read are the `Div` and the key `Transpose`. -/
  scores_fed : g.preds w.scores = [w.div, w.kTrans] ∨ g.preds w.scores = [w.kTrans, w.div]
  /-- The query `Transpose` is the only producer of what the `Div` reads. -/
  div_fed : g.preds w.div = [w.qTrans]
  /-- The producers of what the second `MatMul` reads are the `Softmax` and the value
  `Transpose`. -/
  mixed_fed : g.preds w.mixed = [softmax, w.vTrans] ∨ g.preds w.mixed = [w.vTrans, softmax]
  /-- The branch inputs are the first inputs of the three `Transpose` nodes. -/
  branches : w.qTrans.inputs.head? = some q ∧ w.kTrans.inputs.head? = some k ∧
    w.vTrans.inputs.head? = some v
  /-- The three `Transpose` nodes start their branches. -/
  starts : BranchStart g w.qTrans ∧ BranchStart g w.kTrans ∧ BranchStart g w.vTrans
  /-- The final `Transpose` has one consumer, a `Reshape`. -/
  reshaped : ∃ r, g.succs w.outTrans = [r] ∧ r.isOp "Reshape" = true
  /-- The bounds are `[0, d1]` and `[0, d2]` for the declared shape `[d0, d1, d2]` of the
  first output of the scores. -/
  bounds : ∃ out d0 d1 d2 n1 n2, w.scores.outputs.head? = some out ∧
    g.shapeOf out = .ok [d0, d1, d2] ∧ int32Of d1 = .ok n1 ∧ int32Of d2 = .ok n2 ∧
    qSeq = Tensor.vector .int32 [.int 0, .int n1] ∧ kSeq = Tensor.vector .int32 [.int 0, .int n2]

/-- Every attention match that the recogniser returns on a numbered view, anchored at a live
`Softmax`, was found along a walk whose operands are as `AttentionWalk.Wiring` describes. -/
theorem attention_match_wiring (hg : g.Numbered) (hsm : softmax ∈ g.live)
    (h : Pattern.attention g softmax = .ok (some m)) :
    ∃ (w : AttentionWalk g softmax m) (q k v : String) (qSeq kSeq : Tensor),
      m.inputs = [.str q, .str k, .str v, .array qSeq, .array kSeq] ∧
        w.Wiring q k v qSeq kSeq := by
  obtain ⟨scores, qSeq, kSeq, div, qTrans, kTrans, q, k, mixed, vTrans, v, outTrans, hop, hs, hqk,
    hmx, rfl⟩ := attention_eq_some h
  obtain ⟨hsf, hopScores, out, d0, d1, d2, hout, hshape, hq, hk⟩ := scoresOf_inv hs
  obtain ⟨hlen, hdiv, hkt, hdf, hopQ, hbq, hqIn, hbk, hkIn⟩ := queryKeyOf_inv hqk
  obtain ⟨hsm1, hopMixed, hvt, hlen2, hbv, hvIn, hsm2, hopOut, hre⟩ := mixedOf_inv hmx
  obtain ⟨hdivMem, hopDiv⟩ := Pattern.lastOp?_eq_some hdiv
  obtain ⟨hkMem, hopK⟩ := Pattern.lastOp?_eq_some hkt
  obtain ⟨hvMem, hopV⟩ := Pattern.lastOp?_eq_some hvt
  -- the `Softmax` is live and writes what its sole consumer reads, so it is a producer there
  have hsmMem : softmax ∈ g.preds mixed := by
    have hmix : mixed ∈ g.succs softmax := hsm1 ▸ mem_singleton_self _
    exact ((Graph.preds_spec hg mixed).2 softmax).2 ⟨hsm, (Graph.mem_succs_iff.1 hmix).2⟩
  obtain ⟨n1, hn1, rfl⟩ := seqBounds_inv hq
  obtain ⟨n2, hn2, rfl⟩ := seqBounds_inv hk
  exact ⟨⟨scores, div, qTrans, kTrans, mixed, vTrans, outTrans, rfl, rfl, hsm1, hsm2⟩,
    q, k, v, _, _, rfl,
    ⟨⟨hop, hopScores, hopDiv, hopQ, hopK, hopMixed, hopV, hopOut⟩, (predecessors_eq_ok hsf).symm,
      eq_pair_of_mem hlen hdivMem hkMem (ne_of_isOp hopDiv hopK (by decide)), hdf,
      eq_pair_of_mem hlen2 hsmMem hvMem (ne_of_isOp hop hopV (by decide)),
      ⟨first_eq_ok hqIn, first_eq_ok hkIn, first_eq_ok hvIn⟩,
      ⟨reshapeFed_true hbq, reshapeFed_true hbk, reshapeFed_true hbv⟩, hre,
      ⟨out, d0, d1, d2, n1, n2, first_eq_ok hout, hshape, hn1, hn2, rfl, rfl⟩⟩⟩

end Attention

/-- The `Softmax` of `swappedAttention`, over axis `1`. -/
def swappedSoftmax : Node := plainNode 4 "sm" "Softmax" ["qk"] ["a"] [("axis", .int 1)]

/-- Attention with both products taken the other way round, `kT · qd` and `vT · a`, and a
divisor `s` that is no initializer. -/
def swappedAttention : Graph :=
  { nodes := [plainNode 0 "qt" "Transpose" ["q"] ["qT"], plainNode 1 "dv" "Div" ["qT", "s"] ["qd"],
      plainNode 2 "kt" "Transpose" ["k"] ["kT"], plainNode 3 "mm1" "MatMul" ["kT", "qd"] ["qk"],
      swappedSoftmax, plainNode 5 "vt" "Transpose" ["v"] ["vT"],
      plainNode 6 "mm2" "MatMul" ["vT", "a"] ["o"], plainNode 7 "ot" "Transpose" ["o"] ["oT"],
      plainNode 8 "rs" "Reshape" ["oT"] ["y"]],
    removed := [], initializers := [], shapes := [("qk", [.size 1, .size 2, .size 3])] }

/-- The recogniser matches `swappedAttention` with `q`, `k` and `v` as its inputs, though
both `MatMul` nodes read their operands the other way round, `s` is no initializer and the
`Softmax` normalises over axis `1` of a rank-three tensor. -/
theorem attention_swapped_match :
    ∃ m, Pattern.attention swappedAttention swappedSoftmax = .ok (some m) ∧
      m.inputs.take 3 = [.str "q", .str "k", .str "v"] ∧
      m.nodes.map (·.inputs) =
        [["qk"], ["kT", "qd"], ["qT", "s"], ["q"], ["k"], ["vT", "a"], ["v"], ["o"]] ∧
      swappedAttention.isConstant "s" = false ∧ swappedSoftmax.attr? "axis" = some (.int 1) :=
  ⟨_, rfl, rfl, rfl, rfl, rfl⟩

/-- `attention_match_wiring` applies to `swappedAttention`, a numbered view whose `Softmax`
is live. -/
theorem swappedAttention_wiring :
    ∃ m, Pattern.attention swappedAttention swappedSoftmax = .ok (some m) ∧
      ∃ (w : AttentionWalk swappedAttention swappedSoftmax m) (q k v : String)
        (qSeq kSeq : Tensor), w.Wiring q k v qSeq kSeq := by
  have hsm : swappedSoftmax ∈ swappedAttention.live := by
    simp [Graph.live, swappedAttention]
  obtain ⟨w, q, k, v, qSeq, kSeq, -, hwire⟩ :=
    attention_match_wiring (g := swappedAttention) (by decide) hsm
      (show Pattern.attention swappedAttention swappedSoftmax = .ok (some _) from rfl)
  exact ⟨_, rfl, w, q, k, v, qSeq, kSeq, hwire⟩

end OnnxFusion.Proofs

import Mathlib.Data.List.Basic
import OnnxFusion.Pattern.Registry
/-!
# What a match rests on

The recognisers walk the dataflow view from their anchor and check successor and
predecessor lists as they go. A match they return carries only the nodes and tensors it
found; this module recovers, for the layer-normalisation and attention recognisers, the
lists they checked on the way.

* `bind_eq_ok`, `successors_eq_ok`, `predecessors_eq_ok`, `soleOp?_eq_some`,
  `soleSucc_eq_some`: the small facts that peel one step of a recogniser.
* `centredOf_inv`, `varianceOf_inv`, `affineOf_inv`, `scoresOf_inv`, `queryKeyOf_inv`,
  `mixedOf_inv`: each step function's success taken apart, with every guard it checks;
  `layerNorm_eq_some` and `attention_eq_some` do the same for the two recognisers. The
  shorter `centredOf_eq_some`, `varianceOf_eq_some`, `affineOf_eq_some` and
  `mixedOf_eq_some` keep what the walks need.
* `mem_succs`: every live node that reads a tensor written by `p` is a successor of `p`. The
  successor checks of the recognisers are therefore checks on every reader.
* `layerNorm_walk`: a layer-normalisation match is a chain of sole successors from the mean
  to the normalising `Div`, whose `Sub` has exactly the `Pow` and the `Div` as successors,
  followed by the affine tail; `LayerNormWalk` names its parts, and `layerNorm_walk_from`
  adds that the walk starts at the anchor.
* `attention_walk`: an attention match has the second `MatMul` as the sole successor of the
  `Softmax` and the final `Transpose` as the sole successor of the second `MatMul`;
  `AttentionWalk` names its parts.
-/

set_option autoImplicit false

namespace OnnxFusion.Proofs

open Dataflow Pattern

/-! ### Peeling one step -/

/-- A bound `Outcome` computation that succeeds ran its first part successfully. -/
theorem bind_eq_ok {α β : Type} {x : Outcome α} {f : α → Outcome β} {b : β} :
    x >>= f = .ok b ↔ ∃ a, x = .ok a ∧ f a = .ok b := by
  cases x <;> simp [bind, Except.bind]

/-- No match is not a match. -/
theorem pure_none_ne_some {α : Type} {a : α} : (pure none : Outcome (Option α)) ≠ .ok (some a) := by
  simp [pure, Except.pure]

/-- The successors of a node, when it is live, are `succs`. -/
theorem successors_eq_ok {g : Graph} {n : Node} {s : List Node} (h : g.successors n = .ok s) :
    s = g.succs n := by
  unfold Graph.successors at h
  split at h
  · exact (Except.ok.inj h).symm
  · cases h

/-- The predecessors of a node, when it is live, are `preds`. -/
theorem predecessors_eq_ok {g : Graph} {n : Node} {s : List Node} (h : g.predecessors n = .ok s) :
    s = g.preds n := by
  unfold Graph.predecessors at h
  split at h
  · exact (Except.ok.inj h).symm
  · cases h

/-- `soleOp?` finds the only node of a one-element list, of the given operator type. -/
theorem soleOp?_eq_some {ns : List Node} {op : String} {n : Node} :
    soleOp? ns op = some n ↔ ns = [n] ∧ n.isOp op = true := by
  unfold soleOp?
  split
  · rename_i x
    by_cases hx : x.isOp op = true
    · simp only [hx, if_true, Option.some.injEq, List.cons.injEq, and_true]
      exact ⟨fun h => h ▸ ⟨rfl, hx⟩, fun h => h.1⟩
    · simp only [hx, Bool.false_eq_true, if_false, reduceCtorEq, false_iff, List.cons.injEq,
        and_true, not_and]
      intro h
      exact h ▸ hx
  · rename_i h
    simp only [reduceCtorEq, false_iff, not_and]
    intro hns
    exact absurd (hns ▸ rfl) (h n)

/-! ### Readers are successors -/

/-- A live node that reads a tensor `p` writes is a successor of `p`. -/
theorem mem_succs {g : Graph} {p c : Node} {t : String} (hc : c ∈ g.live) (ht : t ∈ p.outputs)
    (hin : t ∈ c.inputs) : c ∈ g.succs p := by
  simp only [Graph.succs, List.mem_filter, Node.feeds, List.any_eq_true, List.contains_iff_mem]
  exact ⟨hc, t, hin, ht⟩

/-! ### The layer-normalisation walk -/

/-- A match returned by `pure` is the one given. -/
theorem pure_some_eq {α : Type} {a b : α} :
    (pure (some a) : Outcome (Option α)) = .ok (some b) ↔ a = b := by
  simp [pure, Except.pure]

/-- Everything the centring step checks: the `Sub` is the sole successor of the mean, the
centred input is the first input of the `Sub` the mean does not write, and the `Sub` has
exactly two successors, among whose operator types are `Pow` and `Div`. -/
theorem centredOf_inv {g : Graph} {rm1 sub : Node} {x : String} {pd : List Node}
    (h : centredOf g rm1 = .ok (some (sub, x, pd))) :
    g.succs rm1 = [sub] ∧ sub.isOp "Sub" = true ∧
      (sub.inputs.filter (fun n => !rm1.outputs.contains n)).head? = some x ∧
      pd = g.succs sub ∧ pd.length = 2 ∧ "Pow" ∈ pd.map (·.opType) ∧
      "Div" ∈ pd.map (·.opType) := by
  simp only [centredOf, bind_eq_ok] at h
  obtain ⟨s, hs, h⟩ := h
  split at h
  · rename_i sub' hsub
    split at h
    · rename_i x' hx
      rw [bind_eq_ok] at h
      obtain ⟨pd', hpd, h⟩ := h
      split at h
      · exact absurd h pure_none_ne_some
      · rename_i hchk
        simp only [pure_some_eq, Prod.mk.injEq] at h
        obtain ⟨rfl, rfl, rfl⟩ := h
        obtain ⟨rfl, hop⟩ := soleOp?_eq_some.1 hsub
        -- the guard: two successors, whose operator types include `Pow` and `Div`
        simp only [Bool.or_eq_true, bne_iff_ne, ne_eq, Bool.not_eq_true', Bool.and_eq_false_iff,
          not_or, Decidable.not_not, beq_iff_eq, List.contains_iff_mem, List.mem_eraseDups,
          Bool.not_eq_false] at hchk
        exact ⟨(successors_eq_ok hs).symm, hop, hx, successors_eq_ok hpd, hchk.1, hchk.2.1.2,
          hchk.2.2⟩
    · exact absurd h pure_none_ne_some
  · exact absurd h pure_none_ne_some

/-- The centring `Sub` is the sole successor of the mean and has exactly two successors. -/
theorem centredOf_eq_some {g : Graph} {rm1 sub : Node} {x : String} {pd : List Node}
    (h : centredOf g rm1 = .ok (some (sub, x, pd))) :
    g.succs rm1 = [sub] ∧ sub.isOp "Sub" = true ∧ pd = g.succs sub ∧ pd.length = 2 :=
  let ⟨hrm1, hop, _, hpd, hlen, _⟩ := centredOf_inv h
  ⟨hrm1, hop, hpd, hlen⟩

/-- One step of a walk: the sole successor of a node, of an operator type. -/
theorem soleSucc_eq_some {β : Type} {g : Graph} {x : Node} {op : String}
    {k : Node → Outcome (Option β)} {b : β}
    (h : (do
        let some y := soleOp? (← g.successors x) op | return none
        k y : Outcome (Option β)) = .ok (some b)) :
    ∃ y, g.succs x = [y] ∧ y.isOp op = true ∧ k y = .ok (some b) := by
  rw [bind_eq_ok] at h
  obtain ⟨s, hs, h⟩ := h
  split at h
  · rename_i y hy
    obtain ⟨rfl, hop⟩ := soleOp?_eq_some.1 hy
    exact ⟨y, (successors_eq_ok hs).symm, hop, h⟩
  · exact absurd h pure_none_ne_some

/-- Everything the variance step checks: from the `Pow`, a chain of sole successors through a
`ReduceMean`, an `Add` and a `Sqrt` to a `Div`. -/
theorem varianceOf_inv {g : Graph} {pown rm2 addEps sqrt div : Node}
    (h : varianceOf g pown = .ok (some (rm2, addEps, sqrt, div))) :
    g.succs pown = [rm2] ∧ rm2.isOp "ReduceMean" = true ∧ g.succs rm2 = [addEps] ∧
      addEps.isOp "Add" = true ∧ g.succs addEps = [sqrt] ∧ sqrt.isOp "Sqrt" = true ∧
      g.succs sqrt = [div] ∧ div.isOp "Div" = true := by
  obtain ⟨n1, h1, o1, h⟩ := soleSucc_eq_some h
  obtain ⟨n2, h2, o2, h⟩ := soleSucc_eq_some h
  obtain ⟨n3, h3, o3, h⟩ := soleSucc_eq_some h
  obtain ⟨n4, h4, o4, h⟩ := soleSucc_eq_some h
  simp only [pure_some_eq, Prod.mk.injEq] at h
  obtain ⟨rfl, rfl, rfl, rfl⟩ := h
  exact ⟨h1, o1, h2, o2, h3, o3, h4, o4⟩

/-- The variance branch is a chain of sole successors from the `Pow` to the `Div`, through a
`ReduceMean` and an `Add`. -/
theorem varianceOf_eq_some {g : Graph} {pown rm2 addEps sqrt div : Node}
    (h : varianceOf g pown = .ok (some (rm2, addEps, sqrt, div))) :
    g.succs pown = [rm2] ∧ rm2.isOp "ReduceMean" = true ∧ g.succs rm2 = [addEps] ∧
      addEps.isOp "Add" = true ∧ g.succs addEps = [sqrt] ∧ g.succs sqrt = [div] ∧
      div.isOp "Div" = true :=
  let ⟨h1, o1, h2, o2, h3, _, h4, o4⟩ := varianceOf_inv h
  ⟨h1, o1, h2, o2, h3, h4, o4⟩

/-- Everything the affine step checks: the `Div` has a sole `Mul` successor; the tail stops
at the `Div` when the `Mul`'s first operand the `Div` does not write is no initializer, and
otherwise takes the `Mul` with that initializer as the scale; then the `Mul` has a sole `Add`
successor, taken with its first operand the `Mul` does not write as the bias when that is an
initializer. -/
theorem affineOf_inv {g : Graph} {div : Node} {tail : List Node} {outs : List String}
    {scale? bias? : Option Tensor} (h : affineOf g div = .ok (some (tail, outs, scale?, bias?))) :
    ∃ mul, g.succs div = [mul] ∧ mul.isOp "Mul" = true ∧
      ((tail = [] ∧ outs = div.outputs ∧ scale? = none ∧ bias? = none ∧
          (mul.inputs.find? (fun i => !div.outputs.contains i)).bind g.initializer? = none) ∨
        ∃ scale, (mul.inputs.find? (fun i => !div.outputs.contains i)).bind g.initializer? =
            some scale ∧ scale? = some scale ∧ ∃ add, g.succs mul = [add] ∧
          add.isOp "Add" = true ∧
          ((tail = [mul] ∧ outs = mul.outputs ∧ bias? = none ∧
              (add.inputs.find? (fun i => !mul.outputs.contains i)).bind g.initializer? = none) ∨
            ∃ bias, (add.inputs.find? (fun i => !mul.outputs.contains i)).bind g.initializer? =
                some bias ∧ tail = [mul, add] ∧ outs = add.outputs ∧ bias? = some bias)) := by
  obtain ⟨mul, hmul, hop, h⟩ := soleSucc_eq_some h
  refine ⟨mul, hmul, hop, ?_⟩
  dsimp only at h
  split at h
  · -- the scale is no initializer: the match ends at the normalising `Div`
    rename_i hscale
    simp only [pure_some_eq, Prod.mk.injEq] at h
    obtain ⟨rfl, rfl, rfl, rfl⟩ := h
    exact .inl ⟨rfl, rfl, rfl, rfl, hscale⟩
  · rename_i scale hscale
    obtain ⟨add, hadd, hopAdd, h⟩ := soleSucc_eq_some h
    refine .inr ⟨scale, hscale, ?_, add, hadd, hopAdd, ?_⟩
    · split at h <;> (simp only [pure_some_eq, Prod.mk.injEq] at h; exact h.2.2.1.symm)
    · split at h
      · rename_i hbias
        simp only [pure_some_eq, Prod.mk.injEq] at h
        obtain ⟨rfl, rfl, -, rfl⟩ := h
        exact .inl ⟨rfl, rfl, rfl, hbias⟩
      · rename_i bias hbias
        simp only [pure_some_eq, Prod.mk.injEq] at h
        obtain ⟨rfl, rfl, -, rfl⟩ := h
        exact .inr ⟨bias, hbias, rfl, rfl, rfl⟩

/-- The affine tail: the `Div` has a sole `Mul` successor, and the tail ends at the `Div`,
at the `Mul`, or at the `Mul`'s sole `Add` successor, whose outputs are then the tail's. -/
theorem affineOf_eq_some {g : Graph} {div : Node} {tail : List Node} {outs : List String}
    {scale? bias? : Option Tensor} (h : affineOf g div = .ok (some (tail, outs, scale?, bias?))) :
    ∃ mul, g.succs div = [mul] ∧ ((tail = [] ∧ outs = div.outputs) ∨
      (tail = [mul] ∧ outs = mul.outputs) ∨
      ∃ add, g.succs mul = [add] ∧ tail = [mul, add] ∧ outs = add.outputs) := by
  obtain ⟨mul, hmul, -, htail⟩ := affineOf_inv h
  refine ⟨mul, hmul, ?_⟩
  rcases htail with ⟨rfl, rfl, -⟩ | ⟨-, -, -, add, hadd, -, ⟨rfl, rfl, -⟩ | ⟨-, -, rfl, rfl, -⟩⟩
  · exact .inl ⟨rfl, rfl⟩
  · exact .inr (.inl ⟨rfl, rfl⟩)
  · exact .inr (.inr ⟨add, hadd, rfl, rfl⟩)

/-- The walk a layer-normalisation match was found along: a chain of sole successors from
the mean to the normalising `Div`, where the `Sub` has exactly the `Pow` and that `Div` as
successors, followed by an affine tail of at most a `Mul` and an `Add`. -/
structure LayerNormWalk (g : Graph) (m : Match) where
  rm1 : Node
  sub : Node
  pown : Node
  rm2 : Node
  addEps : Node
  sqrt : Node
  div : Node
  tail : List Node
  nodes_eq : m.nodes = [rm1, sub, pown, rm2, addEps, sqrt, div] ++ tail
  succs_rm1 : g.succs rm1 = [sub]
  succs_sub : (g.succs sub).map (·.index) = [pown.index, div.index]
  succs_pown : g.succs pown = [rm2]
  succs_rm2 : g.succs rm2 = [addEps]
  succs_addEps : g.succs addEps = [sqrt]
  succs_sqrt : g.succs sqrt = [div]
  affine : ∃ mul, g.succs div = [mul] ∧ ((tail = [] ∧ m.outputs = div.outputs) ∨
    (tail = [mul] ∧ m.outputs = mul.outputs) ∨
    ∃ add, g.succs mul = [add] ∧ tail = [mul, add] ∧ m.outputs = add.outputs)

/-- A layer-normalisation match, taken apart: the anchor is a `ReduceMean`, each step of the
recogniser gave its part, the second successor of the `Sub` is the normalising `Div`, and the
match is assembled from the parts. -/
theorem layerNorm_eq_some {g : Graph} {rm1 : Node} {m : Match}
    (h : Pattern.layerNorm g rm1 = .ok (some m)) :
    ∃ sub x pd pown rm2 addEps sqrt div divOut shape tail outs scale? bias? scale bias eps axis,
      rm1.isOp "ReduceMean" = true ∧ centredOf g rm1 = .ok (some (sub, x, pd)) ∧
      first pd = .ok pown ∧ varianceOf g pown = .ok (some (rm2, addEps, sqrt, div)) ∧
      first div.outputs = .ok divOut ∧ g.shapeOf divOut = .ok shape ∧
      (pd.drop 1).head?.map (·.index) = some div.index ∧
      affineOf g div = .ok (some (tail, outs, scale?, bias?)) ∧
      normConstants g rm1 rm2 addEps shape scale? bias? = .ok (some (scale, bias, eps, axis)) ∧
      m = { pattern := "LayerNormPattern", nodes := [rm1, sub, pown, rm2, addEps, sqrt, div] ++ tail,
            inputs := [.str x, .array scale, .array bias], outputs := outs,
            attrs := [("epsilon", .float eps), ("axis", .int axis)] } := by
  unfold Pattern.layerNorm at h
  split at h
  · exact absurd h pure_none_ne_some
  · rename_i hop
    rw [bind_eq_ok] at h
    obtain ⟨c, hc, h⟩ := h
    split at h
    · rename_i sub x pd
      rw [bind_eq_ok] at h
      obtain ⟨pown, hpown, h⟩ := h
      rw [bind_eq_ok] at h
      obtain ⟨v, hv, h⟩ := h
      split at h
      · rename_i rm2 addEps sqrt div
        rw [bind_eq_ok] at h
        obtain ⟨divOut, hout, h⟩ := h
        rw [bind_eq_ok] at h
        obtain ⟨shape, hshape, h⟩ := h
        split at h
        · exact absurd h pure_none_ne_some
        · rename_i hdiv
          rw [bind_eq_ok] at h
          obtain ⟨a, ha, h⟩ := h
          split at h
          · rename_i tail outs scale? bias?
            rw [bind_eq_ok] at h
            obtain ⟨k, hk, h⟩ := h
            split at h
            · rename_i scale bias eps axis
              rw [pure_some_eq] at h
              refine ⟨sub, x, pd, pown, rm2, addEps, sqrt, div, divOut, shape, tail, outs, scale?,
                bias?, scale, bias, eps, axis, by simpa using hop, hc, hpown, hv, hout, hshape,
                by simpa using hdiv, ha, hk, h.symm⟩
            · exact absurd h pure_none_ne_some
          · exact absurd h pure_none_ne_some
      · exact absurd h pure_none_ne_some
    · exact absurd h pure_none_ne_some

/-- A layer-normalisation match was found along a `LayerNormWalk` from its anchor. -/
theorem layerNorm_walk_from {g : Graph} {rm1 : Node} {m : Match}
    (h : Pattern.layerNorm g rm1 = .ok (some m)) : ∃ w : LayerNormWalk g m, w.rm1 = rm1 := by
  obtain ⟨sub, x, pd, pown, rm2, addEps, sqrt, div, _, _, tail, _, _, _, _, _, _, _, -, hc, hpown,
    hv, -, -, hdiv, ha, -, rfl⟩ := layerNorm_eq_some h
  obtain ⟨hrm1, -, hpd, hlen⟩ := centredOf_eq_some hc
  obtain ⟨h1, -, h2, -, h3, h4, -⟩ := varianceOf_eq_some hv
  obtain ⟨mul, hmul, htail⟩ := affineOf_eq_some ha
  -- the two successors of the `Sub` are the `Pow` and the normalising `Div`
  have hsub : (g.succs sub).map (·.index) = [pown.index, div.index] := by
    obtain ⟨p, q, rfl⟩ := List.length_eq_two.1 hlen
    simp only [first, Except.ok.injEq] at hpown
    simp only [List.drop_succ_cons, List.drop_zero, List.head?_cons, Option.map_some,
      Option.some.injEq] at hdiv
    rw [← hpd, hpown, List.map_cons, List.map_cons, List.map_nil, hdiv]
  exact ⟨⟨rm1, sub, pown, rm2, addEps, sqrt, div, tail, rfl, hrm1, hsub, h1, h2, h3, h4, mul, hmul,
    htail⟩, rfl⟩

/-- A layer-normalisation match was found along a `LayerNormWalk`. -/
theorem layerNorm_walk {g : Graph} {rm1 : Node} {m : Match}
    (h : Pattern.layerNorm g rm1 = .ok (some m)) : Nonempty (LayerNormWalk g m) :=
  let ⟨w, _⟩ := layerNorm_walk_from h
  ⟨w⟩

/-! ### The attention walk -/

/-- A branch start the recogniser accepts has no predecessor, or exactly one, a `Reshape`. -/
theorem reshapeFed_true {g : Graph} {n : Node} (h : reshapeFed g n = .ok true) :
    g.preds n = [] ∨ ∃ r, g.preds n = [r] ∧ r.isOp "Reshape" = true := by
  unfold reshapeFed at h
  rw [bind_eq_ok] at h
  obtain ⟨ps, hps, h⟩ := h
  rw [← predecessors_eq_ok hps]
  simp only [pure, Except.pure, Except.ok.injEq, Bool.or_eq_true, List.isEmpty_iff,
    Option.isSome_iff_exists] at h
  rcases h with rfl | ⟨r, hr⟩
  · exact .inl rfl
  · exact .inr ⟨r, soleOp?_eq_some.1 hr⟩

/-- Everything the scores step checks: the only predecessor of the `Softmax` is a `MatMul`,
whose first output has a declared shape of three dimensions, the last two giving the
sequence bounds. -/
theorem scoresOf_inv {g : Graph} {softmax scores : Node} {qSeq kSeq : Tensor}
    (h : scoresOf g softmax = .ok (some (scores, qSeq, kSeq))) :
    g.predecessors softmax = .ok [scores] ∧ scores.isOp "MatMul" = true ∧
      ∃ out d0 d1 d2, first scores.outputs = .ok out ∧ g.shapeOf out = .ok [d0, d1, d2] ∧
        seqBounds d1 = .ok qSeq ∧ seqBounds d2 = .ok kSeq := by
  unfold scoresOf at h
  rw [bind_eq_ok] at h
  obtain ⟨ps, hps, h⟩ := h
  split at h
  · rename_i s hs
    obtain ⟨rfl, hop⟩ := soleOp?_eq_some.1 hs
    rw [bind_eq_ok] at h
    obtain ⟨out, hout, h⟩ := h
    rw [bind_eq_ok] at h
    obtain ⟨shape, hshape, h⟩ := h
    dsimp only at h
    split at h
    · simp [throw, throwThe, MonadExceptOf.throw, bind, Except.bind] at h
    · split at h
      · rename_i d0 d1 d2 _
        rw [bind_eq_ok] at h
        obtain ⟨q, hq, h⟩ := h
        rw [bind_eq_ok] at h
        obtain ⟨k, hk, h⟩ := h
        simp only [pure_some_eq, Prod.mk.injEq] at h
        obtain ⟨rfl, rfl, rfl⟩ := h
        exact ⟨hps, hop, out, d0, d1, d2, hout, hshape, hq, hk⟩
      · exact absurd h pure_none_ne_some
  · exact absurd h pure_none_ne_some

/-- Everything the query and key step checks: the scores have two predecessors, the last
`Div` and the last `Transpose` among them taken as the scaled query and the key; the `Div`
has one predecessor, the query `Transpose`; both `Transpose` nodes are branch starts, and
the branch inputs are their first inputs. -/
theorem queryKeyOf_inv {g : Graph} {scores div qTrans kTrans : Node} {q k : String}
    (h : queryKeyOf g scores = .ok (some (div, qTrans, kTrans, q, k))) :
    (g.preds scores).length = 2 ∧ lastOp? (g.preds scores) "Div" = some div ∧
      lastOp? (g.preds scores) "Transpose" = some kTrans ∧ g.preds div = [qTrans] ∧
      qTrans.isOp "Transpose" = true ∧ reshapeFed g qTrans = .ok true ∧
      first qTrans.inputs = .ok q ∧ reshapeFed g kTrans = .ok true ∧
      first kTrans.inputs = .ok k := by
  unfold queryKeyOf at h
  rw [bind_eq_ok] at h
  obtain ⟨qk, hqk, h⟩ := h
  obtain rfl := predecessors_eq_ok hqk
  split at h
  · exact absurd h pure_none_ne_some
  · rename_i hlen
    split at h
    · rename_i div' hdiv
      split at h
      · rename_i kTrans' hk
        rw [bind_eq_ok] at h
        obtain ⟨dp, hdp, h⟩ := h
        obtain rfl := predecessors_eq_ok hdp
        split at h
        · exact absurd h pure_none_ne_some
        · split at h
          · rename_i qTrans' hq
            rw [bind_eq_ok] at h
            obtain ⟨bq, hbq, h⟩ := h
            split at h
            · exact absurd h pure_none_ne_some
            · rename_i hbq'
              rw [bind_eq_ok] at h
              obtain ⟨qIn, hqIn, h⟩ := h
              rw [bind_eq_ok] at h
              obtain ⟨bk, hbk, h⟩ := h
              split at h
              · exact absurd h pure_none_ne_some
              · rename_i hbk'
                rw [bind_eq_ok] at h
                obtain ⟨kIn, hkIn, h⟩ := h
                simp only [pure_some_eq, Prod.mk.injEq] at h
                obtain ⟨rfl, rfl, rfl, rfl, rfl⟩ := h
                -- both guards read `true` from the branch-start checks
                simp only [Bool.not_eq_true', Bool.not_eq_false] at hbq' hbk'
                subst hbq' hbk'
                obtain ⟨hq', hop⟩ := soleOp?_eq_some.1 hq
                exact ⟨by simpa using hlen, hdiv, hk, hq', hop, hbq, hqIn, hbk, hkIn⟩
          · exact absurd h pure_none_ne_some
      · exact absurd h pure_none_ne_some
    · exact absurd h pure_none_ne_some

/-- Everything the value step checks: the `Softmax` has a sole successor, a `MatMul` with two
predecessors, the last `Transpose` among them a branch start whose first input is the value
input; the `MatMul` has a sole successor, a `Transpose`, whose sole successor is a
`Reshape`. -/
theorem mixedOf_inv {g : Graph} {softmax mixed vTrans outTrans : Node} {v : String}
    (h : mixedOf g softmax = .ok (some (mixed, vTrans, v, outTrans))) :
    g.succs softmax = [mixed] ∧ mixed.isOp "MatMul" = true ∧
      lastOp? (g.preds mixed) "Transpose" = some vTrans ∧ (g.preds mixed).length = 2 ∧
      reshapeFed g vTrans = .ok true ∧ first vTrans.inputs = .ok v ∧
      g.succs mixed = [outTrans] ∧ outTrans.isOp "Transpose" = true ∧
      ∃ r, g.succs outTrans = [r] ∧ r.isOp "Reshape" = true := by
  unfold mixedOf at h
  rw [bind_eq_ok] at h
  obtain ⟨s, hs, h⟩ := h
  obtain rfl := successors_eq_ok hs
  dsimp only at h
  split at h
  · simp [throw, throwThe, MonadExceptOf.throw, bind, Except.bind] at h
  · split at h
    · rename_i mixed' hmixed
      obtain ⟨hs', hopm⟩ := soleOp?_eq_some.1 hmixed
      rw [bind_eq_ok] at h
      obtain ⟨ps, hps, h⟩ := h
      obtain rfl := predecessors_eq_ok hps
      split at h
      · rename_i vTrans' hv
        split at h
        · exact absurd h pure_none_ne_some
        · rename_i hlen
          rw [bind_eq_ok] at h
          obtain ⟨fed, hfed, h⟩ := h
          split at h
          · exact absurd h pure_none_ne_some
          · rename_i hfed'
            rw [bind_eq_ok] at h
            obtain ⟨vIn, hvIn, h⟩ := h
            rw [bind_eq_ok] at h
            obtain ⟨s2, hs2, h⟩ := h
            obtain rfl := successors_eq_ok hs2
            split at h
            · simp [throw, throwThe, MonadExceptOf.throw, bind, Except.bind] at h
            · split at h
              · rename_i out hout
                obtain ⟨hs2', hopo⟩ := soleOp?_eq_some.1 hout
                obtain ⟨r, hr, hopr, h⟩ := soleSucc_eq_some h
                simp only [pure_some_eq, Prod.mk.injEq] at h
                obtain ⟨rfl, rfl, rfl, rfl⟩ := h
                simp only [Bool.not_eq_true', Bool.not_eq_false] at hfed'
                subst hfed'
                exact ⟨hs', hopm, hv, by simpa using hlen, hfed, hvIn, hs2', hopo, r, hr, hopr⟩
              · exact absurd h pure_none_ne_some
      · exact absurd h pure_none_ne_some
    · exact absurd h pure_none_ne_some

/-- The second `MatMul` is the sole successor of the `Softmax`, and the final `Transpose` the
sole successor of the second `MatMul`. -/
theorem mixedOf_eq_some {g : Graph} {softmax mixed vTrans outTrans : Node} {v : String}
    (h : mixedOf g softmax = .ok (some (mixed, vTrans, v, outTrans))) :
    g.succs softmax = [mixed] ∧ g.succs mixed = [outTrans] :=
  let ⟨h1, _, _, _, _, _, h2, _⟩ := mixedOf_inv h
  ⟨h1, h2⟩

/-- An attention match, taken apart: the anchor is a `Softmax`, each of the three steps gave
its part, and the match is assembled from the parts. -/
theorem attention_eq_some {g : Graph} {softmax : Node} {m : Match}
    (h : Pattern.attention g softmax = .ok (some m)) :
    ∃ scores qSeq kSeq div qTrans kTrans q k mixed vTrans v outTrans,
      softmax.isOp "Softmax" = true ∧ scoresOf g softmax = .ok (some (scores, qSeq, kSeq)) ∧
      queryKeyOf g scores = .ok (some (div, qTrans, kTrans, q, k)) ∧
      mixedOf g softmax = .ok (some (mixed, vTrans, v, outTrans)) ∧
      m = { pattern := "CustomAttnPattern",
            nodes := [softmax, scores, div, qTrans, kTrans, mixed, vTrans, outTrans],
            inputs := [.str q, .str k, .str v, .array qSeq, .array kSeq],
            outputs := outTrans.outputs, attrs := [] } := by
  unfold Pattern.attention at h
  split at h
  · exact absurd h pure_none_ne_some
  · rename_i hop
    rw [bind_eq_ok] at h
    obtain ⟨a, ha, h⟩ := h
    split at h
    · rename_i scores qSeq kSeq
      rw [bind_eq_ok] at h
      obtain ⟨b, hb, h⟩ := h
      split at h
      · rename_i div qTrans kTrans q k
        rw [bind_eq_ok] at h
        obtain ⟨c, hc, h⟩ := h
        split at h
        · rename_i mixed vTrans v outTrans
          rw [pure_some_eq] at h
          exact ⟨scores, qSeq, kSeq, div, qTrans, kTrans, q, k, mixed, vTrans, v, outTrans,
            by simpa using hop, ha, hb, hc, h.symm⟩
        · exact absurd h pure_none_ne_some
      · exact absurd h pure_none_ne_some
    · exact absurd h pure_none_ne_some

/-- The parts of an attention match anchored at `softmax`: the second `MatMul` is the sole
successor of the `Softmax`, and the final `Transpose`, whose outputs are those of the match,
the sole successor of the second `MatMul`. -/
structure AttentionWalk (g : Graph) (softmax : Node) (m : Match) where
  scores : Node
  div : Node
  qTrans : Node
  kTrans : Node
  mixed : Node
  vTrans : Node
  outTrans : Node
  nodes_eq : m.nodes = [softmax, scores, div, qTrans, kTrans, mixed, vTrans, outTrans]
  outputs_eq : m.outputs = outTrans.outputs
  succs_softmax : g.succs softmax = [mixed]
  succs_mixed : g.succs mixed = [outTrans]

/-- An attention match was found along an `AttentionWalk`. -/
theorem attention_walk {g : Graph} {softmax : Node} {m : Match}
    (h : Pattern.attention g softmax = .ok (some m)) : Nonempty (AttentionWalk g softmax m) := by
  obtain ⟨scores, _, _, div, qTrans, kTrans, _, _, mixed, vTrans, _, outTrans, -, -, -, hc, rfl⟩ :=
    attention_eq_some h
  obtain ⟨h1, h2⟩ := mixedOf_eq_some hc
  exact ⟨⟨scores, div, qTrans, kTrans, mixed, vTrans, outTrans, rfl, rfl, h1, h2⟩⟩

end OnnxFusion.Proofs

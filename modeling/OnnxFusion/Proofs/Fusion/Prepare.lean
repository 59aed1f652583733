import Mathlib.Data.List.Forall2
import OnnxFusion.Proofs.Fusion.Edit
/-!
# What a successful preparation did

Each fusion prepares before it builds: it reads the replacement, looks its tensors up in the
name table of the netlist it was given, unlinks the matched nodes from the tensors it
replaces and computes what it adds. This module reads a preparation that ended with a plan
back into what each of its steps returned.

* `exec_prepare_build_ok`: a fusion that ran to its end prepared a plan and built from it.
* `item_eq_ok`, `pair_eq_ok`: reading one item, or exactly two, of a list.
* `layerNormPrepare_ok`, `attentionPrepare_ok`, `logDivPrepare_ok`,
  `convBatchNormPrepare_ok`: the first inputs of the replacement (the input of a layer
  normalisation or a folded convolution; query, key and value of an attention block; both
  operands of a quotient) name the tensors the plan reads, its first output names the tensor
  the plan writes, and the netlist left is the given one with the matched nodes unlinked
  from the consumers of those inputs, in order, and then from the producers of the output.
  Every lookup is in the name table taken before any link changed.
-/

set_option autoImplicit false

namespace OnnxFusion

namespace Fusion

open Edit

variable {α : Type}

theorem item_eq_ok {xs : List α} {i : Nat} {x : α} : item xs i = .ok x ↔ xs[i]? = some x := by
  unfold item
  split <;> simp_all

theorem pair_eq_ok {xs : List α} {a b : α} : pair xs = .ok (a, b) ↔ xs = [a, b] := by
  unfold pair
  split <;> simp_all

theorem item_zero_eq_ok {xs : List α} {x : α} : item xs 0 = .ok x ↔ xs.head? = some x := by
  rw [item_eq_ok, List.head?_eq_getElem?]

theorem take_one_of_getElem? {xs : List α} {a : α} (ha : xs[0]? = some a) : xs.take 1 = [a] := by
  match xs, ha with
  | x :: _, ha => simp_all

theorem take_three_of_getElem? {xs : List α} {a b c : α} (ha : xs[0]? = some a)
    (hb : xs[1]? = some b) (hc : xs[2]? = some c) : xs.take 3 = [a, b, c] := by
  match xs, ha, hb, hc with
  | x :: y :: z :: _, ha, hb, hc => simp_all

variable {r : Replacement} {G G₁ : Netlist}

/-- A fusion made of a preparation and a build ran its preparation to a plan and built from
the netlist the preparation left. -/
theorem exec_prepare_build_ok {β : Type} {prepare : Edit β} {build : β → Netlist → Netlist}
    {G' : Netlist} {u : Unit} (h : (prepare >>= fun p => modify (build p)).exec G = (.ok u, G')) :
    ∃ p G₁, prepare.exec G = (.ok p, G₁) ∧ G' = build p G₁ := by
  obtain ⟨p, G₁, hp, hb⟩ := exec_bind_eq_ok.1 h
  rw [exec_modify, Prod.mk.injEq] at hb
  exact ⟨p, G₁, hp, hb.2.symm⟩

/-- A layer normalisation's preparation looked up its input and output and unlinked the
matched nodes from them. -/
theorem layerNormPrepare_ok {p : LayerNormPlan} (h : (layerNormPrepare r).exec G = (.ok p, G₁)) :
    List.Forall₂ (fun v t => lookup G v = .ok (some t)) (r.inputs.take 1) [p.input] ∧
    (∃ v, r.outputs.head? = some v ∧ lookup G v = .ok (some p.output)) ∧
    G₁ = unlink (unlink G .consumers p.input r.nodeNames) .producers p.output r.nodeNames := by
  simp only [layerNormPrepare, exec_bind_eq_ok, exec_lift_eq_ok, exec_get_eq_ok,
    exec_detach_eq_ok] at h
  -- the replacement's three inputs and first output, and the name table
  obtain ⟨iN, _, ⟨hi, rfl⟩, _, _, ⟨-, rfl⟩, _, _, ⟨-, rfl⟩, oN, _, ⟨ho, rfl⟩, _, _, ⟨rfl, rfl⟩,
    h⟩ := h
  -- the two lookups and the two detached tensors
  obtain ⟨_, _, ⟨hin, rfl⟩, _, _, ⟨hout, rfl⟩, input, _, ⟨rfl, rfl⟩, output, _, ⟨rfl, rfl⟩,
    h⟩ := h
  -- what is left reads the epsilon, which does not touch the netlist
  split at h
  · simp only [exec_bind_eq_ok, exec_lift_eq_ok, exec_pure_eq_ok] at h
    obtain ⟨_, _, ⟨-, rfl⟩, rfl, rfl⟩ := h
    refine ⟨?_, ⟨oN, item_zero_eq_ok.1 ho, hout⟩, rfl⟩
    rw [take_one_of_getElem? (item_eq_ok.1 hi)]
    exact .cons hin .nil
  · simp at h

/-- An attention block's preparation looked up query, key, value and output and unlinked the
matched nodes from them, in that order. -/
theorem attentionPrepare_ok {p : AttentionPlan} (h : (attentionPrepare r).exec G = (.ok p, G₁)) :
    List.Forall₂ (fun v t => lookup G v = .ok (some t)) (r.inputs.take 3) [p.q, p.k, p.v] ∧
    (∃ v, r.outputs.head? = some v ∧ lookup G v = .ok (some p.output)) ∧
    G₁ = unlink (unlink (unlink (unlink G .consumers p.q r.nodeNames) .consumers p.k r.nodeNames)
      .consumers p.v r.nodeNames) .producers p.output r.nodeNames := by
  simp only [attentionPrepare, exec_bind_eq_ok, exec_lift_eq_ok, exec_get_eq_ok,
    exec_detach_eq_ok, exec_pure_eq_ok] at h
  -- the replacement's five inputs and first output, and the name table
  obtain ⟨qN, _, ⟨hq, rfl⟩, kN, _, ⟨hk, rfl⟩, vN, _, ⟨hv, rfl⟩, _, _, ⟨-, rfl⟩, _, _, ⟨-, rfl⟩,
    oN, _, ⟨ho, rfl⟩, _, _, ⟨rfl, rfl⟩, h⟩ := h
  -- the four lookups
  obtain ⟨_, _, ⟨hqt, rfl⟩, _, _, ⟨hkt, rfl⟩, _, _, ⟨hvt, rfl⟩, _, _, ⟨hot, rfl⟩, h⟩ := h
  -- the four detached tensors and the plan
  obtain ⟨q, _, ⟨rfl, rfl⟩, k, _, ⟨rfl, rfl⟩, v, _, ⟨rfl, rfl⟩, output, _, ⟨rfl, rfl⟩,
    rfl, rfl⟩ := h
  refine ⟨?_, ⟨oN, item_zero_eq_ok.1 ho, hot⟩, rfl⟩
  rw [take_three_of_getElem? (item_eq_ok.1 hq) (item_eq_ok.1 hk) (item_eq_ok.1 hv)]
  exact .cons hqt (.cons hkt (.cons hvt .nil))

/-- The preparation of `Log (a / b)` looked up both operands and the output and unlinked the
matched nodes from them. -/
theorem logDivPrepare_ok {p : LogDivPlan} (h : (logDivPrepare r).exec G = (.ok p, G₁)) :
    List.Forall₂ (fun v t => lookup G v = .ok (some t)) (r.inputs.take 2) [p.a, p.b] ∧
    (∃ v, r.outputs.head? = some v ∧ lookup G v = .ok (some p.output)) ∧
    G₁ = unlink (unlink (unlink G .consumers p.a r.nodeNames) .consumers p.b r.nodeNames)
      .producers p.output r.nodeNames := by
  simp only [logDivPrepare, exec_bind_eq_ok, exec_lift_eq_ok, exec_get_eq_ok, exec_detach_eq_ok,
    exec_pure_eq_ok] at h
  -- the name table, the two matched nodes, the two operands and their lookups
  obtain ⟨_, _, ⟨rfl, rfl⟩, _, _, ⟨-, rfl⟩, ⟨aN, bN⟩, _, ⟨hins, rfl⟩, _, _, ⟨ha, rfl⟩,
    _, _, ⟨hb, rfl⟩, h⟩ := h
  -- the detached operands, the output and its lookup, and the detached output
  obtain ⟨a, _, ⟨rfl, rfl⟩, b, _, ⟨rfl, rfl⟩, oN, _, ⟨ho, rfl⟩, _, _, ⟨hout, rfl⟩,
    out, _, ⟨rfl, rfl⟩, rfl, rfl⟩ := h
  refine ⟨?_, ⟨oN, item_zero_eq_ok.1 ho, hout⟩, rfl⟩
  -- the operands are the two inputs, all of them
  rw [pair_eq_ok.1 hins]
  exact .cons ha (.cons hb .nil)

/-- The preparation of a folded convolution looked up its input and output and unlinked the
matched nodes from them before folding. -/
theorem convBatchNormPrepare_ok {p : ConvPlan} (h : (convBatchNormPrepare r).exec G = (.ok p, G₁)) :
    List.Forall₂ (fun v t => lookup G v = .ok (some t)) (r.inputs.take 1) [p.input] ∧
    (∃ v, r.outputs.head? = some v ∧ lookup G v = .ok (some p.output)) ∧
    G₁ = unlink (unlink G .consumers p.input r.nodeNames) .producers p.output r.nodeNames := by
  simp only [convBatchNormPrepare, exec_bind_eq_ok, exec_lift_eq_ok, exec_get_eq_ok,
    exec_detach_eq_ok, exec_pure_eq_ok] at h
  -- the two matched nodes, the input and weight names, and the name table
  obtain ⟨_, _, ⟨-, rfl⟩, iN, _, ⟨hi, rfl⟩, _, _, ⟨-, rfl⟩, _, _, ⟨rfl, rfl⟩, h⟩ := h
  -- the lookups of input, weight and bias, then of the output
  obtain ⟨_, _, ⟨hin, rfl⟩, _, _, ⟨-, rfl⟩, _, _, ⟨-, rfl⟩, oN, _, ⟨ho, rfl⟩, _, _, ⟨hout, rfl⟩,
    h⟩ := h
  -- the two detached tensors; the folding and the weight only read
  obtain ⟨input, _, ⟨rfl, rfl⟩, output, _, ⟨rfl, rfl⟩, _, _, ⟨rfl, rfl⟩, _, _, ⟨-, rfl⟩,
    _, _, ⟨-, rfl⟩, rfl, rfl⟩ := h
  refine ⟨?_, ⟨oN, item_zero_eq_ok.1 ho, hout⟩, rfl⟩
  rw [take_one_of_getElem? (item_eq_ok.1 hi)]
  exact .cons hin .nil

end Fusion

end OnnxFusion

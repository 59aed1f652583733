import OnnxFusion.Proofs.Netlist.Applied
import OnnxFusion.Proofs.Fusion.Prepare
/-!
# What each fusion cuts and appends

A fusion that ran to its end unlinked the matched nodes from the consumers of its primary
inputs and from the producers of its output, and then built its replacement: some tensors
and some nodes over them. This module describes both halves as an `Effect`, so that the
effects of several fusions can be compared whatever order they ran in.

* `detachCuts`: the cuts a fusion's detaching makes.
* `layerNormBlock`, `attentionBlock`, `logDivBlock`, `convBatchNormBlock`: the block each
  build appends, with the names it gives computed from the netlist it is given.
* `layerNormBuild_eq` and the others: the build is adding its block (`Netlist.addBlock`),
  which up to links is appending it.
* `layerNormEffect` and the others: the cuts and the block together; `Effect.fits_of` and
  the `_fits` lemmas: the effect fits the netlist whose tensors the fusion found, since its
  block holds exactly those tensors and every cut is on one of them.
-/

set_option autoImplicit false

namespace OnnxFusion

namespace Fusion

open Netlist

/-- The cuts a fusion's detaching makes: the matched names off the consumers of each primary
input, then off the producers of the output. -/
def detachCuts (names : List String) (ins : List Nat) (out : Nat) : List Cut :=
  ins.map (⟨.consumers, ·, names⟩) ++ [⟨.producers, out, names⟩]

/-! ### The blocks -/

/-- The block a layer normalisation appends: the scale, bias and epsilon constants named
after the input, and the plugin node named after the output. -/
def layerNormBlock (g : Netlist) (p : LayerNormPlan) : Block :=
  ⟨[((g.tensor p.input).name ++ "_ln_scale", .constant p.scale),
      ((g.tensor p.input).name ++ "_ln_bias", .constant p.bias),
      ((g.tensor p.input).name ++ "_ln_eps", .constant (.array p.epsilon))],
    [⟨"NvLayerNormPlugin", (g.tensor p.output).name ++ "_LayerNorm", [],
      [.old p.input, .new 0, .new 1, .new 2], [.old p.output]⟩]⟩

/-- The block an attention fusion appends: the two sequence-length constants and the
attention node, all named after the output. -/
def attentionBlock (g : Netlist) (p : AttentionPlan) : Block :=
  ⟨[((g.tensor p.output).name ++ "_seq_q_tensor", .constant p.seqQ),
      ((g.tensor p.output).name ++ "_seq_k_tensor", .constant p.seqK)],
    [⟨"CustomFFAttn", (g.tensor p.output).name ++ "_customattn", [],
      [.old p.q, .old p.k, .old p.v, .new 0, .new 1], [.old p.output]⟩]⟩

/-- The block that rewrites `Log (a / b)`: two variables declared as the output is, a `Log`
of each operand and their `Sub`, which takes the name of the matched `Div`. -/
def logDivBlock (g : Netlist) (p : LogDivPlan) : Block :=
  ⟨[(p.logName ++ "_0_out", .variable (declared g p.output).1 (declared g p.output).2),
      (p.logName ++ "_1_out", .variable (declared g p.output).1 (declared g p.output).2)],
    [⟨"Log", p.logName ++ "_0", [], [.old p.a], [.new 0]⟩,
      ⟨"Log", p.logName ++ "_1", [], [.old p.b], [.new 1]⟩,
      ⟨"Sub", p.divName, [], [.new 0, .new 1], [.old p.output]⟩]⟩

/-- The name of the folded bias: after the bias when there is one, else after the
convolution. -/
def convBiasLabel (g : Netlist) (p : ConvPlan) : String :=
  match p.bias? with
  | some b => (g.tensor b).name ++ "_fused"
  | none => p.conv.name ++ "_bias_fused"

/-- The block of a folded convolution: the folded weight and bias and the new transposed
convolution with the attributes of the matched one. -/
def convBatchNormBlock (g : Netlist) (p : ConvPlan) : Block :=
  ⟨[((g.tensor p.weight).name ++ "_fused", .constant (.array p.newWeight)),
      (convBiasLabel g p, .constant (.array p.newBias))],
    [⟨"ConvTranspose", p.conv.name ++ "_fused", p.conv.attrs, [.old p.input, .new 0, .new 1],
      [.old p.output]⟩]⟩

/-! ### Each build adds its block -/

theorem layerNormBuild_eq (g : Netlist) (p : LayerNormPlan) (hout : p.output < g.tensors.size) :
    layerNormBuild p g = g.addBlock (layerNormBlock g p) := by
  simp only [layerNormBuild, addTensor_eq_appendBlock, appendBlock_appendBlock_tensors,
    addTensor_snd, tensors_size_appendBlock, tensor_appendBlock_of_lt _ _ hout]
  simp [addBlock, layerNormBlock, addPlaced, BlockNode.place, Port.place]

theorem attentionBuild_eq (g : Netlist) (p : AttentionPlan) :
    attentionBuild p g = g.addBlock (attentionBlock g p) := by
  simp only [attentionBuild, addTensor_eq_appendBlock, appendBlock_appendBlock_tensors,
    addTensor_snd, tensors_size_appendBlock]
  simp [addBlock, attentionBlock, addPlaced, BlockNode.place, Port.place]

theorem logDivBuild_eq (g : Netlist) (p : LogDivPlan) :
    logDivBuild p g = g.addBlock (logDivBlock g p) := by
  simp only [logDivBuild, addTensor_eq_appendBlock, appendBlock_appendBlock_tensors,
    addTensor_snd, tensors_size_appendBlock]
  simp [addBlock, logDivBlock, addPlaced, BlockNode.place, Port.place]

theorem convBatchNormBuild_eq (g : Netlist) (p : ConvPlan)
    (hbias : ∀ b ∈ p.bias?, b < g.tensors.size) :
    convBatchNormBuild p g = g.addBlock (convBatchNormBlock g p) := by
  simp only [convBatchNormBuild, addTensor_eq_appendBlock, addTensor_snd,
    appendBlock_appendBlock_tensors, tensors_size_appendBlock]
  -- the bias label reads the bias after the folded weight is added, where it is unchanged
  rcases hb : p.bias? with _ | b
  · simp [addBlock, convBatchNormBlock, convBiasLabel, hb, addPlaced, BlockNode.place, Port.place]
  · simp [addBlock, convBatchNormBlock, convBiasLabel, hb, addPlaced, BlockNode.place, Port.place,
      tensor_appendBlock_of_lt _ _ (hbias b hb)]

/-! ### The effects and the netlists they fit -/

/-- A layer normalisation cuts its input and output and appends its block. -/
def layerNormEffect (g : Netlist) (names : List String) (p : LayerNormPlan) : Effect :=
  ⟨detachCuts names [p.input] p.output, layerNormBlock g p⟩

/-- An attention fusion cuts query, key, value and output and appends its block. -/
def attentionEffect (g : Netlist) (names : List String) (p : AttentionPlan) : Effect :=
  ⟨detachCuts names [p.q, p.k, p.v] p.output, attentionBlock g p⟩

/-- The rewrite of `Log (a / b)` cuts both operands and the output and appends its block. -/
def logDivEffect (g : Netlist) (names : List String) (p : LogDivPlan) : Effect :=
  ⟨detachCuts names [p.a, p.b] p.output, logDivBlock g p⟩

/-- A folded convolution cuts its input and output and appends its block. -/
def convBatchNormEffect (g : Netlist) (names : List String) (p : ConvPlan) : Effect :=
  ⟨detachCuts names [p.input] p.output, convBatchNormBlock g p⟩

/-- An effect fits `g` when its block's new ports are among its tensors, the tensors of `g`
it holds are reachable there, and it holds every tensor it cuts. -/
theorem Effect.fits_of {e : Effect} {g : Netlist} (hg : g.InRange)
    (hnew : ∀ x ∈ e.block.nodes, ∀ k, Port.new k ∈ x.inputs ++ x.outputs →
      k < e.block.tensors.length)
    (hold : ∀ t, e.block.HoldsOld t → t ∈ g.reachable)
    (hcut : ∀ c ∈ e.cuts, e.block.HoldsOld c.tensor) : e.Fits g where
  ports_below x hx p hp := by
    cases p with
    | old t => exact hg.reachable_lt (hold t ⟨x, hx, hp⟩)
    | new k => exact hnew x hx k hp
  old_reachable := hold
  cut_held := hcut

section Fits

variable {g : Netlist} (names : List String) {t : Nat}

@[simp] theorem holdsOld_layerNormBlock (p : LayerNormPlan) :
    (layerNormBlock g p).HoldsOld t ↔ t = p.input ∨ t = p.output := by
  simp [Block.HoldsOld, layerNormBlock, eq_comm]

@[simp] theorem holdsOld_attentionBlock (p : AttentionPlan) :
    (attentionBlock g p).HoldsOld t ↔ t = p.q ∨ t = p.k ∨ t = p.v ∨ t = p.output := by
  simp [Block.HoldsOld, attentionBlock, eq_comm, or_assoc]

@[simp] theorem holdsOld_logDivBlock (p : LogDivPlan) :
    (logDivBlock g p).HoldsOld t ↔ t = p.a ∨ t = p.b ∨ t = p.output := by
  simp [Block.HoldsOld, logDivBlock, eq_comm]

@[simp] theorem holdsOld_convBatchNormBlock (p : ConvPlan) :
    (convBatchNormBlock g p).HoldsOld t ↔ t = p.input ∨ t = p.output := by
  simp [Block.HoldsOld, convBatchNormBlock, eq_comm]

theorem layerNormEffect_fits (hg : g.InRange) (p : LayerNormPlan) (hin : p.input ∈ g.reachable)
    (hout : p.output ∈ g.reachable) : (layerNormEffect g names p).Fits g := by
  refine Effect.fits_of hg ?_ ?_ ?_
  · simp [layerNormEffect, layerNormBlock]
  · rintro t h
    rcases (holdsOld_layerNormBlock p).1 h with rfl | rfl <;> assumption
  · simp [layerNormEffect, detachCuts]

theorem attentionEffect_fits (hg : g.InRange) (p : AttentionPlan) (hq : p.q ∈ g.reachable)
    (hk : p.k ∈ g.reachable) (hv : p.v ∈ g.reachable) (hout : p.output ∈ g.reachable) :
    (attentionEffect g names p).Fits g := by
  refine Effect.fits_of hg ?_ ?_ ?_
  · simp [attentionEffect, attentionBlock]
  · rintro t h
    rcases (holdsOld_attentionBlock p).1 h with rfl | rfl | rfl | rfl <;> assumption
  · simp [attentionEffect, detachCuts]

theorem logDivEffect_fits (hg : g.InRange) (p : LogDivPlan) (ha : p.a ∈ g.reachable)
    (hb : p.b ∈ g.reachable) (hout : p.output ∈ g.reachable) : (logDivEffect g names p).Fits g := by
  refine Effect.fits_of hg ?_ ?_ ?_
  · simp [logDivEffect, logDivBlock]
  · rintro t h
    rcases (holdsOld_logDivBlock p).1 h with rfl | rfl | rfl <;> assumption
  · simp [logDivEffect, detachCuts]

theorem convBatchNormEffect_fits (hg : g.InRange) (p : ConvPlan) (hin : p.input ∈ g.reachable)
    (hout : p.output ∈ g.reachable) : (convBatchNormEffect g names p).Fits g := by
  refine Effect.fits_of hg ?_ ?_ ?_
  · simp [convBatchNormEffect, convBatchNormBlock]
  · rintro t h
    rcases (holdsOld_convBatchNormBlock p).1 h with rfl | rfl <;> assumption
  · simp [convBatchNormEffect, detachCuts]

end Fits

/-! ### Blocks over netlists that keep the found tensors -/

section Congr

variable {g G : Netlist} (h : Extends g G)
include h

theorem layerNormBlock_congr {p : LayerNormPlan} (hin : p.input < g.tensors.size)
    (hout : p.output < g.tensors.size) : layerNormBlock G p = layerNormBlock g p := by
  simp [layerNormBlock, h.name_eq _ hin, h.name_eq _ hout]

theorem attentionBlock_congr {p : AttentionPlan} (hout : p.output < g.tensors.size) :
    attentionBlock G p = attentionBlock g p := by
  simp [attentionBlock, h.name_eq _ hout]

theorem logDivBlock_congr {p : LogDivPlan} (hout : p.output < g.tensors.size) :
    logDivBlock G p = logDivBlock g p := by
  simp [logDivBlock, declared, h.payload_eq _ hout]

theorem convBatchNormBlock_congr {p : ConvPlan} (hweight : p.weight < g.tensors.size)
    (hbias : ∀ b ∈ p.bias?, b < g.tensors.size) : convBatchNormBlock G p = convBatchNormBlock g p := by
  have hlabel : convBiasLabel G p = convBiasLabel g p := by
    unfold convBiasLabel
    rcases hb : p.bias? with _ | b
    · rfl
    · simp [h.name_eq _ (hbias b hb)]
  simp [convBatchNormBlock, h.name_eq _ hweight, hlabel]

end Congr

end Fusion

end OnnxFusion

import OnnxFusion.Proofs.Fusion.Plans
/-!
# What a replacement reads and what it adds

A replacement reads the netlist by name: the texts among its inputs and outputs, and the
inputs of its matched nodes (the four parameters of a folded normalisation are looked up by
them). It unlinks only nodes whose name is one of its matched nodes' names. What it adds is
named after what it reads: the layer normalisation's constants after its input, the
attention's after its output, the rewritten quotient's after its `Log`, the folded weight and
bias after the weight and bias (or the convolution). These lists are computed from the
replacement alone, so that two replacements can be compared before either runs.

* `Replacement.tensorNames`, `Replacement.addedTensorNames`, `Replacement.addedNodeNames`:
  the names read, and the names given to appended tensors and nodes.
* `Replacement.Spares r r'`: nothing `r` appends bears a name `r'` reads or unlinks.
* `Replacement.effect g r`: the effect of `r` computed over the loaded netlist `g`, if its
  pattern has a fusion and the fusion's plan can be read from `g`.
* `effect_fits`, `effect_nodes_named`, `effect_tensors_named`, `effect_cuts_names`: that
  effect fits `g`, its block bears only the names the replacement adds, and its cuts unlink
  only the matched names.
* `edit_effect`: carried out on a netlist that is, up to links, `g` with effects applied that
  append no tensor the replacement reads, a replacement either is declined and changes
  nothing, or leaves the netlist with its own effect over `g`: the sides it cuts unlinked and
  its block added.
-/

set_option autoImplicit false

namespace OnnxFusion

/-- The text a value holds, if it is one. -/
def Value.text? : Value → Option String
  | .str s => some s
  | _ => Option.none

namespace Replacement

open Fusion Netlist Edit

/-- The names a replacement looks tensors up by: the texts among its inputs and outputs, and
the inputs of its matched nodes. -/
def tensorNames (r : Replacement) : List String :=
  (r.inputs ++ r.outputs).filterMap Value.text? ++ r.nodes.flatMap (·.inputs)

/-- The names of the tensors a replacement's fusion appends. A folded convolution names its
bias after the bias when the bias is found and after the convolution otherwise; both are
listed. -/
def addedTensorNames (r : Replacement) : List String :=
  match r.pattern with
  | "ConvTransBNPattern" =>
    ((r.inputs[1]? >>= Value.text?).toList ++ (r.inputs[2]? >>= Value.text?).toList).map
      (· ++ "_fused") ++ (r.nodes[0]?).toList.map (·.name ++ "_bias_fused")
  | "LayerNormPattern" =>
    ((r.inputs.take 1).filterMap Value.text?).flatMap
      fun x => [x ++ "_ln_scale", x ++ "_ln_bias", x ++ "_ln_eps"]
  | "CustomAttnPattern" =>
    (r.outputs.head? >>= Value.text?).toList.flatMap fun o => [o ++ "_seq_q_tensor", o ++ "_seq_k_tensor"]
  | "LogDivPattern" => (r.nodes[1]?).toList.flatMap fun l => [l.name ++ "_0_out", l.name ++ "_1_out"]
  | _ => []

/-- The names of the nodes a replacement's fusion appends. The `Sub` of a rewritten quotient
takes the name of the matched `Div`. -/
def addedNodeNames (r : Replacement) : List String :=
  match r.pattern with
  | "ConvTransBNPattern" => (r.nodes[0]?).toList.map (·.name ++ "_fused")
  | "LayerNormPattern" => (r.outputs.head? >>= Value.text?).toList.map (· ++ "_LayerNorm")
  | "CustomAttnPattern" => (r.outputs.head? >>= Value.text?).toList.map (· ++ "_customattn")
  | "LogDivPattern" =>
    (r.nodes[1]?).toList.flatMap (fun l => [l.name ++ "_0", l.name ++ "_1"]) ++
      (r.nodes[0]?).toList.map (·.name)
  | _ => []

/-- Nothing `r` appends bears a name `r'` unlinks or reads. -/
def Spares (r r' : Replacement) : Prop :=
  (∀ s ∈ r.addedNodeNames, s ∉ r'.nodeNames) ∧ (∀ s ∈ r.addedTensorNames, s ∉ r'.tensorNames)

/-- The effect of a replacement computed over `g`: the cuts and block of its fusion's plan as
read from `g`. -/
def effect (g : Netlist) (r : Replacement) : Option Effect :=
  match r.pattern with
  | "ConvTransBNPattern" => (convBatchNormPlan g r).toOption.map (convBatchNormEffect g r.nodeNames)
  | "LayerNormPattern" => ((layerNormPrepare r).exec g).1.toOption.map (layerNormEffect g r.nodeNames)
  | "CustomAttnPattern" => ((attentionPrepare r).exec g).1.toOption.map (attentionEffect g r.nodeNames)
  | "LogDivPattern" => ((logDivPrepare r).exec g).1.toOption.map (logDivEffect g r.nodeNames)
  | _ => none

/-! ### The effect over the loaded netlist -/

section Effect

variable {g : Netlist} {r : Replacement} {e : Effect}

theorem toOption_map_eq_some {α β : Type} {o : Outcome α} {f : α → β} {b : β} :
    o.toOption.map f = some b ↔ ∃ a, o = .ok a ∧ f a = b := by
  cases o <;> simp [Except.toOption]

theorem reachable_of_lookup {v : Value} {t : Nat} (h : lookup g v = .ok (some t)) : t ∈ g.reachable := by
  obtain ⟨s, -, hs⟩ := lookup_eq_ok_some h
  exact mem_reachable_of_find? hs

theorem reachable_of_lookups {vs : List Value} {ts : List Nat}
    (h : List.Forall₂ (fun v t => lookup g v = .ok (some t)) vs ts) : ∀ t ∈ ts, t ∈ g.reachable := by
  intro t ht
  obtain ⟨_, -, hv⟩ := exists_of_forall₂_mem h ht
  exact reachable_of_lookup hv

/-- A value that finds a tensor is the text of that tensor's name. -/
theorem text_of_lookup {v : Value} {t : Nat} (h : lookup g v = .ok (some t)) :
    v.text? = some (g.tensor t).name := by
  obtain ⟨s, rfl, hs⟩ := lookup_eq_ok_some h
  rw [name_of_find? hs]
  rfl

/-- The names the preparation of a rewritten quotient gives: the matched nodes are the `Div`
and the `Log`, in that order. -/
theorem logDivPrepare_names {p : LogDivPlan} {G₁ : Netlist}
    (h : (logDivPrepare r).exec g = (.ok p, G₁)) :
    ∃ div log, r.nodes = [div, log] ∧ p.divName = div.name ∧ p.logName = log.name := by
  simp only [logDivPrepare, exec_bind_eq_ok, exec_lift_eq_ok, exec_get_eq_ok, exec_detach_eq_ok,
    exec_pure_eq_ok] at h
  obtain ⟨_, _, ⟨rfl, rfl⟩, ⟨div, log⟩, _, ⟨hnodes, rfl⟩, _, _, ⟨-, rfl⟩, _, _, ⟨-, rfl⟩,
    _, _, ⟨-, rfl⟩, h⟩ := h
  obtain ⟨_, _, ⟨rfl, rfl⟩, _, _, ⟨rfl, rfl⟩, _, _, ⟨-, rfl⟩, _, _, ⟨-, rfl⟩, _, _, ⟨rfl, rfl⟩,
    rfl, rfl⟩ := h
  exact ⟨div, log, pair_eq_ok.1 hnodes, rfl, rfl⟩

theorem effect_fits (hg : g.Linked) (he : r.effect g = some e) : e.Fits g := by
  unfold effect at he
  split at he
  · obtain ⟨p, hp, rfl⟩ := toOption_map_eq_some.1 he
    obtain ⟨-, ⟨_, -, hin⟩, -, -, ⟨_, -, hout⟩⟩ := convBatchNormPlan_ok hp
    exact convBatchNormEffect_fits _ hg.inRange p (reachable_of_lookup hin) (reachable_of_lookup hout)
  · obtain ⟨p, hp, rfl⟩ := toOption_map_eq_some.1 he
    obtain ⟨hins, ⟨_, -, hout⟩, -⟩ := layerNormPrepare_ok (Prod.ext hp rfl)
    exact layerNormEffect_fits _ hg.inRange p (reachable_of_lookups hins _ (List.mem_singleton_self _))
      (reachable_of_lookup hout)
  · obtain ⟨p, hp, rfl⟩ := toOption_map_eq_some.1 he
    obtain ⟨hins, ⟨_, -, hout⟩, -⟩ := attentionPrepare_ok (Prod.ext hp rfl)
    have hread := reachable_of_lookups hins
    exact attentionEffect_fits _ hg.inRange p (hread _ (by simp)) (hread _ (by simp))
      (hread _ (by simp)) (reachable_of_lookup hout)
  · obtain ⟨p, hp, rfl⟩ := toOption_map_eq_some.1 he
    obtain ⟨hins, ⟨_, -, hout⟩, -⟩ := logDivPrepare_ok (Prod.ext hp rfl)
    have hread := reachable_of_lookups hins
    exact logDivEffect_fits _ hg.inRange p (hread _ (by simp)) (hread _ (by simp))
      (reachable_of_lookup hout)
  · cases he

theorem detachCuts_names {names : List String} {ins : List Nat} {out : Nat} :
    ∀ c ∈ detachCuts names ins out, c.names = names := by
  intro c hc
  simp only [detachCuts, List.mem_append, List.mem_map, List.mem_singleton] at hc
  rcases hc with ⟨_, -, rfl⟩ | rfl <;> rfl

/-- An effect unlinks only the names of the matched nodes. -/
theorem effect_cuts_names (he : r.effect g = some e) : ∀ c ∈ e.cuts, c.names = r.nodeNames := by
  unfold effect at he
  split at he
  all_goals first
    | cases he
    | obtain ⟨p, -, rfl⟩ := toOption_map_eq_some.1 he
      exact detachCuts_names

/-- An effect's block bears only the node names the replacement adds. -/
theorem effect_nodes_named (he : r.effect g = some e) : ∀ x ∈ e.block.nodes, x.name ∈ r.addedNodeNames := by
  unfold effect at he
  split at he
  next hpat =>
    obtain ⟨p, hp, rfl⟩ := toOption_map_eq_some.1 he
    obtain ⟨⟨bn, hnodes⟩, -⟩ := convBatchNormPlan_ok hp
    simp [convBatchNormEffect, convBatchNormBlock, addedNodeNames, hpat, hnodes]
  next hpat =>
    obtain ⟨p, hp, rfl⟩ := toOption_map_eq_some.1 he
    obtain ⟨-, ⟨v, hv, hout⟩, -⟩ := layerNormPrepare_ok (Prod.ext hp rfl)
    simp [layerNormEffect, layerNormBlock, addedNodeNames, hpat, hv, text_of_lookup hout]
  next hpat =>
    obtain ⟨p, hp, rfl⟩ := toOption_map_eq_some.1 he
    obtain ⟨-, ⟨v, hv, hout⟩, -⟩ := attentionPrepare_ok (Prod.ext hp rfl)
    simp [attentionEffect, attentionBlock, addedNodeNames, hpat, hv, text_of_lookup hout]
  next hpat =>
    obtain ⟨p, hp, rfl⟩ := toOption_map_eq_some.1 he
    obtain ⟨div, log, hnodes, hdiv, hlog⟩ := logDivPrepare_names (Prod.ext hp rfl)
    simp [logDivEffect, logDivBlock, addedNodeNames, hpat, hnodes, hdiv, hlog]
  next => cases he

/-- The folded bias is named after the bias the third input finds, or after the convolution
when it finds none; either name is among those a folded convolution adds. -/
theorem convBiasLabel_mem {p : ConvPlan} {bn : Dataflow.Node} (hpat : r.pattern = "ConvTransBNPattern")
    (hnodes : r.nodes = [p.conv, bn]) (hb : lookup g ((r.inputs[2]?).getD .none) = .ok p.bias?) :
    convBiasLabel g p ∈ r.addedTensorNames := by
  unfold convBiasLabel
  rcases hbias : p.bias? with _ | b
  · simp [addedTensorNames, hpat, hnodes]
  · rw [hbias] at hb
    -- a missing third input looks up nothing, so it names no bias
    rcases h2 : r.inputs[2]? with _ | vb
    · simp [h2, lookup, lookupIn, Value.hashable] at hb
    · rw [h2, Option.getD_some] at hb
      simp [addedTensorNames, hpat, h2, text_of_lookup hb]

/-- An effect's block bears only the tensor names the replacement adds. -/
theorem effect_tensors_named (he : r.effect g = some e) :
    ∀ s ∈ e.block.tensors.map (·.1), s ∈ r.addedTensorNames := by
  unfold effect at he
  split at he
  next hpat =>
    obtain ⟨p, hp, rfl⟩ := toOption_map_eq_some.1 he
    obtain ⟨⟨bn, hnodes⟩, -, ⟨vw, hw, hwt⟩, hb, -⟩ := convBatchNormPlan_ok hp
    intro s hs
    simp only [convBatchNormEffect, convBatchNormBlock, List.map_cons, List.map_nil,
      List.mem_cons, List.not_mem_nil, or_false] at hs
    rcases hs with rfl | rfl
    · simp [addedTensorNames, hpat, hw, text_of_lookup hwt]
    · exact convBiasLabel_mem hpat hnodes hb
  next hpat =>
    obtain ⟨p, hp, rfl⟩ := toOption_map_eq_some.1 he
    obtain ⟨hins, -, -⟩ := layerNormPrepare_ok (Prod.ext hp rfl)
    obtain ⟨v, hv, hin⟩ := exists_of_forall₂_mem hins (List.mem_singleton_self _)
    have htext : (g.tensor p.input).name ∈ (r.inputs.take 1).filterMap Value.text? :=
      List.mem_filterMap.2 ⟨v, hv, text_of_lookup hin⟩
    intro s hs
    simp only [layerNormEffect, layerNormBlock, List.map_cons, List.map_nil, List.mem_cons,
      List.not_mem_nil, or_false] at hs
    simp only [addedTensorNames, hpat]
    rcases hs with rfl | rfl | rfl <;> exact List.mem_flatMap.2 ⟨_, htext, by simp⟩
  next hpat =>
    obtain ⟨p, hp, rfl⟩ := toOption_map_eq_some.1 he
    obtain ⟨-, ⟨v, hv, hout⟩, -⟩ := attentionPrepare_ok (Prod.ext hp rfl)
    simp [attentionEffect, attentionBlock, addedTensorNames, hpat, hv, text_of_lookup hout]
  next hpat =>
    obtain ⟨p, hp, rfl⟩ := toOption_map_eq_some.1 he
    obtain ⟨div, log, hnodes, -, hlog⟩ := logDivPrepare_names (Prod.ext hp rfl)
    simp [logDivEffect, logDivBlock, addedTensorNames, hpat, hnodes, hlog]
  next => cases he

/-- Carrying out a replacement on a netlist that is, up to links, `g` with effects applied
that fit `g` and append no tensor the replacement reads, when the tensors of `g` bear distinct
names: declined, nothing changes; carried out, the netlist has the sides of the effect of the
replacement over `g` unlinked and its block added. -/
theorem edit_effect {es : List Effect} {G G' : Netlist} {ok : Bool} (hg : g.Linked)
    (hinj : ∀ t u, t < g.tensors.size → u < g.tensors.size →
      (g.tensor t).name = (g.tensor u).name → t = u)
    (hfit : ∀ e ∈ es, e.Fits g) (hM : Same (g.applyEffects es) G) (hG : G.Linked)
    (hfresh : ∀ e ∈ es, ∀ s ∈ r.tensorNames, s ∉ e.block.tensors.map (·.1))
    (h : r.edit.exec G = (.ok ok, G')) :
    (ok = false ∧ r.effect g = none ∧ G' = G) ∨
      (ok = true ∧ ∃ e, r.effect g = some e ∧ G' = (G.unlinkBy e.cuts).addBlock e.block) := by
  have hext : Extends g G := (extends_applyEffects g es).same hM
  -- every name the replacement reads finds in `G` what it finds in `g`
  have hfind : ∀ s ∈ r.tensorNames, G.find? s = g.find? s := fun s hs =>
    (hM.find?_eq s).trans (find?_applyEffects hg.inRange hinj hfit fun e he => hfresh e he s hs)
  have hlook : ∀ v ∈ r.inputs ++ r.outputs, lookup G v = lookup g v := by
    intro v hv
    cases v with
    | str s =>
      have hs : s ∈ r.tensorNames := List.mem_append_left _ (List.mem_filterMap.2 ⟨_, hv, rfl⟩)
      show Except.ok (G.find? s) = Except.ok (g.find? s)
      rw [hfind s hs]
    | _ => rfl
  -- and, once `G` is cut, finds nothing `g` does not
  have hcut : ∀ cs, ∀ n ∈ r.nodes, ∀ s ∈ n.inputs, ∀ t,
      (G.cutBy cs).find? s = some t → g.find? s = some t := by
    intro cs n hn s hs t ht
    have hs' : s ∈ r.tensorNames := List.mem_append_right _ (List.mem_flatMap.2 ⟨n, hn, hs⟩)
    exact find?_cutBy_applyEffects hg.inRange hinj hfit (fun e he => hfresh e he s hs') cs
      (((hM.cutBy cs).find?_eq s).symm.trans ht)
  unfold edit at h
  split at h
  next hpat =>
    obtain ⟨rfl, u, h₁⟩ := exec_ran_eq_ok h
    obtain ⟨p, hp, rfl⟩ := convBatchNorm_effect hg hG hext hlook hcut h₁
    exact .inr ⟨rfl, _, by simp [effect, hpat, hp, Except.toOption], rfl⟩
  next hpat =>
    obtain ⟨rfl, u, h₁⟩ := exec_ran_eq_ok h
    obtain ⟨p, hp, rfl⟩ := layerNorm_effect hg hG hext hlook h₁
    exact .inr ⟨rfl, _, by simp [effect, hpat, hp, Except.toOption], rfl⟩
  next hpat =>
    obtain ⟨rfl, u, h₁⟩ := exec_ran_eq_ok h
    obtain ⟨p, hp, rfl⟩ := attention_effect hg hG hext hlook h₁
    exact .inr ⟨rfl, _, by simp [effect, hpat, hp, Except.toOption], rfl⟩
  next hpat =>
    obtain ⟨rfl, u, h₁⟩ := exec_ran_eq_ok h
    obtain ⟨p, hp, rfl⟩ := logDiv_effect hg hG hext hlook h₁
    exact .inr ⟨rfl, _, by simp [effect, hpat, hp, Except.toOption], rfl⟩
  next h₁ h₂ h₃ h₄ =>
    -- no fusion has the pattern's name, and no effect either
    obtain ⟨rfl, rfl⟩ := exec_pure_eq_ok.1 h
    refine .inl ⟨rfl, ?_, rfl⟩
    unfold effect
    split
    next hpat => exact absurd hpat h₁
    next hpat => exact absurd hpat h₂
    next hpat => exact absurd hpat h₃
    next hpat => exact absurd hpat h₄
    next => rfl

end Effect

end Replacement

end OnnxFusion

import OnnxFusion.Proofs.Fusion.Blocks
import OnnxFusion.Proofs.Fusion.Fold
import OnnxFusion.Proofs.Pattern.Walk
/-!
# A fusion's plan, read from the netlist it started from

A fusion run after others sees a netlist that already holds their cuts and blocks. What it
computes there depends on that netlist only through the tensors it finds by name, their
names and their payloads. When those agree with the loaded netlist `g`, the fusion computes
the plan it would compute on `g`, and its whole run is unlinking the sides its effect over
`g` cuts and then adding that effect's block.

The folded convolution reads the netlist twice: before unlinking, to find its tensors, and
after, to find the four parameters of the normalisation. The second reading can only find
fewer tensors than the first, so its plan over `g` is `convBatchNormPlan`, with the fold read
from `g` itself. `foldBatchNorm_of_finds` is the bridge: a fold that succeeds over a netlist
whose finds are finds of `g`, with the same payloads, gives the same weight and bias over `g`.

* `layerNormPrepare_transfer`, `attentionPrepare_transfer`, `logDivPrepare_transfer`,
  `convBatchNormPrepare_plan`: a preparation that ran to a plan where the lookups of the
  replacement agree with those of `g` computes that plan from `g`.
* `layerNorm_effect`, `attention_effect`, `logDiv_effect`, `convBatchNorm_effect`: a fusion
  that ran to its end on such a netlist `G` left `(G.unlinkBy e.cuts).addBlock e.block` for
  the effect `e` of its plan over `g`.
-/

set_option autoImplicit false

namespace OnnxFusion

namespace Fusion

open Edit Netlist

variable {r : Replacement} {g G G₁ G' : Netlist}

/-! ### Lookups -/

@[simp] theorem found_some (i : Nat) (field : String) : found (some i) field = .ok i := rfl

theorem found_eq_ok {t? : Option Nat} {field : String} {i : Nat} :
    found t? field = .ok i ↔ t? = some i := by
  cases t? <;> simp [found]

theorem mem_of_item_eq_ok {α : Type} {xs : List α} {i : Nat} {x : α} (h : item xs i = .ok x) :
    x ∈ xs :=
  List.mem_of_getElem? (item_eq_ok.1 h)

/-- A value that finds a tensor is a name, and the name finds it. -/
theorem lookup_eq_ok_some {v : Value} {t : Nat} (h : lookup g v = .ok (some t)) :
    ∃ s, v = .str s ∧ g.find? s = some t := by
  unfold lookup lookupIn at h
  split at h
  · exact ⟨_, rfl, by simpa [Netlist.find?] using h⟩
  · split at h <;> simp at h

theorem mem_reachable_of_find? {s : String} {t : Nat} (h : g.find? s = some t) : t ∈ g.reachable := by
  rw [find?_eq_find?_reachable] at h
  exact List.mem_of_find?_eq_some h

theorem name_of_find? {s : String} {t : Nat} (h : g.find? s = some t) : (g.tensor t).name = s := by
  rw [find?_eq_find?_reachable] at h
  simpa using List.find?_some h

theorem exists_of_forall₂_mem {α β : Type} {R : α → β → Prop} {vs : List α} {ts : List β}
    (h : List.Forall₂ R vs ts) {t : β} (ht : t ∈ ts) : ∃ v ∈ vs, R v t := by
  induction h with
  | nil => cases ht
  | cons hvt _ ih =>
    rcases List.mem_cons.1 ht with rfl | ht
    · exact ⟨_, List.mem_cons_self, hvt⟩
    · obtain ⟨v, hv, hr⟩ := ih ht
      exact ⟨v, List.mem_cons_of_mem _ hv, hr⟩

/-- Lookups that agree with those of `g` find, for every tensor a preparation looked up
among the replacement's inputs, a value of the inputs that finds it in `g`. -/
theorem lookups_transfer (hlook : ∀ v ∈ r.inputs ++ r.outputs, lookup G v = lookup g v) {k : Nat}
    {ts : List Nat} (h : List.Forall₂ (fun v t => lookup G v = .ok (some t)) (r.inputs.take k) ts) :
    ∀ t ∈ ts, ∃ v ∈ r.inputs, lookup g v = .ok (some t) := by
  intro t ht
  obtain ⟨v, hv, hvt⟩ := exists_of_forall₂_mem h ht
  have hmem := List.mem_of_mem_take hv
  exact ⟨v, hmem, (hlook v (List.mem_append_left _ hmem)).symm.trans hvt⟩

/-! ### The fold reads only what it finds -/

/-- A fold that succeeds over `h`, whose finds of the normalisation's inputs are finds of `g`
holding the same payloads, gives the same weight and bias over `g`, when the weight and bias
it is given are tensors `g` finds. -/
theorem foldBatchNorm_of_finds {h : Netlist} {conv bn : Dataflow.Node} {weight? bias? : Option Nat}
    {x : Tensor × Tensor}
    (hfind : ∀ s ∈ bn.inputs, ∀ t, h.find? s = some t → g.find? s = some t)
    (hpay : ∀ s t, g.find? s = some t → (h.tensor t).payload = (g.tensor t).payload)
    (hweight : ∀ t ∈ weight?, ∃ s, g.find? s = some t) (hbias : ∀ t ∈ bias?, ∃ s, g.find? s = some t)
    (hx : foldBatchNorm h conv bn weight? bias? = .ok x) : foldBatchNorm g conv bn weight? bias? = .ok x := by
  -- a tensor that `g` finds holds the same values in both
  have hval : ∀ t? : Option Nat, (∀ t ∈ t?, ∃ s, g.find? s = some t) →
      valuesOf h t? = valuesOf g t? := by
    intro t? ht
    cases t? with
    | none => rfl
    | some t =>
      obtain ⟨s, hs⟩ := ht t rfl
      simp only [valuesOf, hpay s t hs]
  -- a parameter that `h` finds, `g` finds too
  have hparam : ∀ (k : Nat) s, bn.inputs[k]? = some s →
      valuesOf h (h.find? s) = valuesOf g (g.find? s) ∨ h.find? s = none := by
    intro k s hk
    cases hf : h.find? s with
    | none => exact .inr rfl
    | some t =>
      have hg := hfind s (List.mem_of_getElem? hk) t hf
      rw [hg]
      exact .inl (hval (some t) fun t' ht' => ⟨s, Option.mem_some_iff.1 ht' ▸ hg⟩)
  unfold foldBatchNorm at hx ⊢
  simp only [hval weight? hweight, hval bias? hbias] at hx
  -- a missing parameter name stops the fold
  rcases h1 : bn.inputs[1]? with _ | s1
  · simp only [item, h1, Proofs.bind_eq_ok, error_bind_eq, reduceCtorEq, and_false, exists_false] at hx
  rcases h2 : bn.inputs[2]? with _ | s2
  · simp only [item, h2, Proofs.bind_eq_ok, error_bind_eq, reduceCtorEq, and_false, exists_false] at hx
  rcases h3 : bn.inputs[3]? with _ | s3
  · simp only [item, h3, Proofs.bind_eq_ok, error_bind_eq, reduceCtorEq, and_false, exists_false] at hx
  rcases h4 : bn.inputs[4]? with _ | s4
  · simp only [item, h4, Proofs.bind_eq_ok, error_bind_eq, reduceCtorEq, and_false, exists_false] at hx
  simp only [item, h1, h2, h3, h4, ok_bind_eq] at hx ⊢
  -- every parameter is found in `h`, else the fold stops; so it reads as in `g`
  have hfound : ∀ s, s = s1 ∨ s = s2 ∨ s = s3 ∨ s = s4 → h.find? s ≠ none := by
    intro s hs hn
    simp only [Netlist.find?, Option.map_eq_none_iff] at hn
    rcases hs with rfl | rfl | rfl | rfl <;>
      simp only [hn, Option.map_none, valuesOf, Proofs.bind_eq_ok, error_bind_eq, reduceCtorEq,
        and_false, exists_false] at hx
  have e1 := (hparam 1 s1 h1).resolve_right (hfound s1 (by simp))
  have e2 := (hparam 2 s2 h2).resolve_right (hfound s2 (by simp))
  have e3 := (hparam 3 s3 h3).resolve_right (hfound s3 (by simp))
  have e4 := (hparam 4 s4 h4).resolve_right (hfound s4 (by simp))
  simp only [Netlist.find?] at e1 e2 e3 e4
  rwa [e1, e2, e3, e4] at hx

/-! ### Preparations computed from the loaded netlist -/

/-- The plan of a folded convolution read from `g` alone: the preparation's lookups, and the
fold over `g` itself rather than over the netlist the unlinking leaves. -/
def convBatchNormPlan (g : Netlist) (r : Replacement) : Outcome ConvPlan := do
  let (conv, bn) ← pair r.nodes
  let inputName ← item r.inputs 0
  let weightName ← item r.inputs 1
  let biasName := (r.inputs[2]?).getD .none
  let input? ← lookup g inputName
  let weight? ← lookup g weightName
  let bias? ← lookup g biasName
  let outputName ← item r.outputs 0
  let output? ← lookup g outputName
  let input ← found input? Side.consumers.attribute
  let output ← found output? Side.producers.attribute
  let (newWeight, newBias) ← foldBatchNorm g conv bn weight? bias?
  let weight ← found weight? "name"
  pure { input, output, weight, bias?, conv, newWeight, newBias }

section Transfer

variable (hlook : ∀ v ∈ r.inputs ++ r.outputs, lookup G v = lookup g v)
include hlook

theorem layerNormPrepare_transfer {p : LayerNormPlan} (h : (layerNormPrepare r).exec G = (.ok p, G₁)) :
    ((layerNormPrepare r).exec g).1 = .ok p := by
  simp only [layerNormPrepare, exec_bind_eq_ok, exec_lift_eq_ok, exec_get_eq_ok,
    exec_detach_eq_ok] at h
  obtain ⟨iN, _, ⟨hi, rfl⟩, sN, _, ⟨hs, rfl⟩, bN, _, ⟨hb, rfl⟩, oN, _, ⟨ho, rfl⟩, _, _, ⟨rfl, rfl⟩,
    h⟩ := h
  obtain ⟨_, _, ⟨hin, rfl⟩, _, _, ⟨hout, rfl⟩, input, _, ⟨rfl, rfl⟩, output, _, ⟨rfl, rfl⟩,
    h⟩ := h
  have hin' : lookup g iN = .ok (some input) :=
    (hlook iN (List.mem_append_left _ (mem_of_item_eq_ok hi))).symm.trans hin
  have hout' : lookup g oN = .ok (some output) :=
    (hlook oN (List.mem_append_right _ (mem_of_item_eq_ok ho))).symm.trans hout
  unfold lookup at hin' hout'
  -- the epsilon is read from the replacement's attributes alone
  split at h
  next _ epsilon hget =>
    simp only [exec_bind_eq_ok, exec_lift_eq_ok, exec_pure_eq_ok] at h
    obtain ⟨eps, _, ⟨heps, rfl⟩, rfl, rfl⟩ := h
    simp [layerNormPrepare, exec_bind, exec_detach, hi, hs, hb, ho, hin', hout', hget, heps,
      Except.map]
  next => simp at h

theorem attentionPrepare_transfer {p : AttentionPlan} (h : (attentionPrepare r).exec G = (.ok p, G₁)) :
    ((attentionPrepare r).exec g).1 = .ok p := by
  simp only [attentionPrepare, exec_bind_eq_ok, exec_lift_eq_ok, exec_get_eq_ok,
    exec_detach_eq_ok, exec_pure_eq_ok] at h
  obtain ⟨qN, _, ⟨hq, rfl⟩, kN, _, ⟨hk, rfl⟩, vN, _, ⟨hv, rfl⟩, sq, _, ⟨hsq, rfl⟩, sk, _, ⟨hsk, rfl⟩,
    oN, _, ⟨ho, rfl⟩, _, _, ⟨rfl, rfl⟩, h⟩ := h
  obtain ⟨_, _, ⟨hqt, rfl⟩, _, _, ⟨hkt, rfl⟩, _, _, ⟨hvt, rfl⟩, _, _, ⟨hot, rfl⟩, h⟩ := h
  obtain ⟨q, _, ⟨rfl, rfl⟩, k, _, ⟨rfl, rfl⟩, v, _, ⟨rfl, rfl⟩, output, _, ⟨rfl, rfl⟩,
    rfl, rfl⟩ := h
  have hq' : lookup g qN = .ok (some q) :=
    (hlook qN (List.mem_append_left _ (mem_of_item_eq_ok hq))).symm.trans hqt
  have hk' : lookup g kN = .ok (some k) :=
    (hlook kN (List.mem_append_left _ (mem_of_item_eq_ok hk))).symm.trans hkt
  have hv' : lookup g vN = .ok (some v) :=
    (hlook vN (List.mem_append_left _ (mem_of_item_eq_ok hv))).symm.trans hvt
  have ho' : lookup g oN = .ok (some output) :=
    (hlook oN (List.mem_append_right _ (mem_of_item_eq_ok ho))).symm.trans hot
  unfold lookup at hq' hk' hv' ho'
  simp [attentionPrepare, exec_bind, exec_detach, hq, hk, hv, hsq, hsk, ho, hq', hk', hv', ho',
    Except.map]

theorem logDivPrepare_transfer {p : LogDivPlan} (h : (logDivPrepare r).exec G = (.ok p, G₁)) :
    ((logDivPrepare r).exec g).1 = .ok p := by
  simp only [logDivPrepare, exec_bind_eq_ok, exec_lift_eq_ok, exec_get_eq_ok, exec_detach_eq_ok,
    exec_pure_eq_ok] at h
  obtain ⟨_, _, ⟨rfl, rfl⟩, ⟨divN, logN⟩, _, ⟨hnodes, rfl⟩, ⟨aN, bN⟩, _, ⟨hins, rfl⟩, _, _, ⟨ha, rfl⟩,
    _, _, ⟨hb, rfl⟩, h⟩ := h
  obtain ⟨a, _, ⟨rfl, rfl⟩, b, _, ⟨rfl, rfl⟩, oN, _, ⟨ho, rfl⟩, _, _, ⟨hout, rfl⟩,
    out, _, ⟨rfl, rfl⟩, rfl, rfl⟩ := h
  have hmem := pair_eq_ok.1 hins
  have ha' : lookup g aN = .ok (some a) :=
    (hlook aN (List.mem_append_left _ (by simp [hmem]))).symm.trans ha
  have hb' : lookup g bN = .ok (some b) :=
    (hlook bN (List.mem_append_left _ (by simp [hmem]))).symm.trans hb
  have ho' : lookup g oN = .ok (some out) :=
    (hlook oN (List.mem_append_right _ (mem_of_item_eq_ok ho))).symm.trans hout
  unfold lookup at ha' hb' ho'
  simp [logDivPrepare, exec_bind, exec_detach, hnodes, hins, ha', hb', ho, ho', Except.map]

/-- A folded convolution prepared over `G` has the plan read from `g`, when the parameters of
the normalisation that the netlist left by the unlinking finds are found in `g` with the same
payloads. -/
theorem convBatchNormPrepare_plan {p : ConvPlan}
    (hfind : ∀ n ∈ r.nodes, ∀ s ∈ n.inputs, ∀ t, G₁.find? s = some t → g.find? s = some t)
    (hpay : ∀ s t, g.find? s = some t → (G₁.tensor t).payload = (g.tensor t).payload)
    (h : (convBatchNormPrepare r).exec G = (.ok p, G₁)) : convBatchNormPlan g r = .ok p := by
  simp only [convBatchNormPrepare, exec_bind_eq_ok, exec_lift_eq_ok, exec_get_eq_ok,
    exec_detach_eq_ok, exec_pure_eq_ok] at h
  obtain ⟨⟨conv, bn⟩, _, ⟨hnodes, rfl⟩, iN, _, ⟨hi, rfl⟩, wN, _, ⟨hw, rfl⟩, _, _, ⟨rfl, rfl⟩, h⟩ := h
  obtain ⟨_, _, ⟨hin, rfl⟩, weight?, _, ⟨hwt, rfl⟩, bias?, _, ⟨hbt, rfl⟩, oN, _, ⟨ho, rfl⟩, _, _,
    ⟨hout, rfl⟩, h⟩ := h
  obtain ⟨input, _, ⟨rfl, rfl⟩, output, _, ⟨rfl, rfl⟩, _, _, ⟨rfl, rfl⟩, ⟨nw, nb⟩, _, ⟨hfold, rfl⟩,
    weight, _, ⟨hwf, rfl⟩, rfl, rfl⟩ := h
  -- the lookups give the same tensors in `g`
  have hin' : lookup g iN = .ok (some input) :=
    (hlook iN (List.mem_append_left _ (mem_of_item_eq_ok hi))).symm.trans hin
  have hwt' : lookup g wN = .ok weight? :=
    (hlook wN (List.mem_append_left _ (mem_of_item_eq_ok hw))).symm.trans hwt
  have ho' : lookup g oN = .ok (some output) :=
    (hlook oN (List.mem_append_right _ (mem_of_item_eq_ok ho))).symm.trans hout
  have hbt' : lookup g ((r.inputs[2]?).getD .none) = .ok bias? := by
    rcases h2 : r.inputs[2]? with _ | bN <;> rw [h2] at hbt
    · exact hbt
    · exact (hlook bN (List.mem_append_left _ (List.mem_of_getElem? h2))).symm.trans hbt
  -- so the fold over what the unlinking left is the fold over `g`
  have hfound : ∀ {v : Value} {t? : Option Nat}, lookup g v = .ok t? →
      ∀ t ∈ t?, ∃ s, g.find? s = some t := by
    intro v t? hv t ht
    cases ht
    obtain ⟨s, -, hs⟩ := lookup_eq_ok_some hv
    exact ⟨s, hs⟩
  have hbn : bn ∈ r.nodes := by simp [pair_eq_ok.1 hnodes]
  have hfold' := foldBatchNorm_of_finds (hfind bn hbn) hpay (hfound hwt') (hfound hbt') hfold
  simp [convBatchNormPlan, hnodes, hi, hw, ho, hin', hwt', hbt', ho', hfold', hwf]

end Transfer

/-- What a folded convolution's plan over `g` read: the two matched nodes, and the tensors the
inputs 0 to 2 and the first output find in `g`. -/
theorem convBatchNormPlan_ok {p : ConvPlan} (h : convBatchNormPlan g r = .ok p) :
    (∃ bn, r.nodes = [p.conv, bn]) ∧
      (∃ v, r.inputs[0]? = some v ∧ lookup g v = .ok (some p.input)) ∧
      (∃ v, r.inputs[1]? = some v ∧ lookup g v = .ok (some p.weight)) ∧
      lookup g ((r.inputs[2]?).getD .none) = .ok p.bias? ∧
      (∃ v, r.outputs[0]? = some v ∧ lookup g v = .ok (some p.output)) := by
  simp only [convBatchNormPlan, Proofs.bind_eq_ok] at h
  obtain ⟨⟨conv, bn⟩, hnodes, iN, hi, wN, hw, input?, hin, weight?, hwt, bias?, hbt, oN, ho, output?,
    hout, input, hinput, output, houtput, ⟨nw, nb⟩, -, weight, hweight, h⟩ := h
  cases h
  rw [found_eq_ok] at hinput houtput hweight
  subst hinput houtput hweight
  exact ⟨⟨bn, pair_eq_ok.1 hnodes⟩, ⟨iN, item_eq_ok.1 hi, hin⟩, ⟨wN, item_eq_ok.1 hw, hwt⟩, hbt,
    ⟨oN, item_eq_ok.1 ho, hout⟩⟩


/-! ### A fusion's run is its effect over the loaded netlist -/

/-- The tensor a value of the replacement's outputs finds in `G` is a tensor of `g`, when the
lookups agree. -/
theorem output_lt (hg : g.Linked) (hlook : ∀ v ∈ r.inputs ++ r.outputs, lookup G v = lookup g v)
    {v : Value} {t : Nat} (hv : r.outputs.head? = some v) (ht : lookup G v = .ok (some t)) :
    t < g.tensors.size :=
  hg.lookup_lt ((hlook v (List.mem_append_right _ (List.mem_of_mem_head? hv))).symm.trans ht)

section Effect

variable (hg : g.Linked) (hG : G.Linked) (hext : Extends g G)
  (hlook : ∀ v ∈ r.inputs ++ r.outputs, lookup G v = lookup g v)
include hg hG hext hlook

theorem layerNorm_effect {u : Unit} (h : (layerNorm r).exec G = (.ok u, G')) :
    ∃ p, ((layerNormPrepare r).exec g).1 = .ok p ∧
      G' = (G.unlinkBy (layerNormEffect g r.nodeNames p).cuts).addBlock
        (layerNormEffect g r.nodeNames p).block := by
  obtain ⟨p, G₁, hp, rfl⟩ := exec_prepare_build_ok h
  obtain ⟨hins, ⟨v, hv, hout⟩, hG₁⟩ := layerNormPrepare_ok hp
  refine ⟨p, layerNormPrepare_transfer hlook hp, ?_⟩
  -- the input and output are tensors of `g`, which the unlinking keeps
  obtain ⟨_, -, hvi⟩ := lookups_transfer hlook hins p.input (by simp)
  have hin := hg.lookup_lt hvi
  have hout := output_lt hg hlook hv hout
  have hG₁ : G₁ = G.unlinkBy (layerNormEffect g r.nodeNames p).cuts := by
    simp [hG₁, unlinkBy, layerNormEffect, detachCuts]
  have hcut := (hext.cutBy (layerNormEffect g r.nodeNames p).cuts).same (unlinks_same_cutBy _ hG).1
  rw [hG₁, layerNormBuild_eq _ _ (Nat.lt_of_lt_of_le hout hcut.size_le),
    layerNormBlock_congr hcut hin hout]
  rfl

theorem attention_effect {u : Unit} (h : (attention r).exec G = (.ok u, G')) :
    ∃ p, ((attentionPrepare r).exec g).1 = .ok p ∧
      G' = (G.unlinkBy (attentionEffect g r.nodeNames p).cuts).addBlock
        (attentionEffect g r.nodeNames p).block := by
  obtain ⟨p, G₁, hp, rfl⟩ := exec_prepare_build_ok h
  obtain ⟨-, ⟨v, hv, hout⟩, hG₁⟩ := attentionPrepare_ok hp
  refine ⟨p, attentionPrepare_transfer hlook hp, ?_⟩
  have hout := output_lt hg hlook hv hout
  have hG₁ : G₁ = G.unlinkBy (attentionEffect g r.nodeNames p).cuts := by
    simp [hG₁, unlinkBy, attentionEffect, detachCuts]
  have hcut := (hext.cutBy (attentionEffect g r.nodeNames p).cuts).same (unlinks_same_cutBy _ hG).1
  rw [hG₁, attentionBuild_eq, attentionBlock_congr hcut hout]
  rfl

theorem logDiv_effect {u : Unit} (h : (logDiv r).exec G = (.ok u, G')) :
    ∃ p, ((logDivPrepare r).exec g).1 = .ok p ∧
      G' = (G.unlinkBy (logDivEffect g r.nodeNames p).cuts).addBlock (logDivEffect g r.nodeNames p).block := by
  obtain ⟨p, G₁, hp, rfl⟩ := exec_prepare_build_ok h
  obtain ⟨-, ⟨v, hv, hout⟩, hG₁⟩ := logDivPrepare_ok hp
  refine ⟨p, logDivPrepare_transfer hlook hp, ?_⟩
  have hout := output_lt hg hlook hv hout
  have hG₁ : G₁ = G.unlinkBy (logDivEffect g r.nodeNames p).cuts := by
    simp [hG₁, unlinkBy, logDivEffect, detachCuts]
  have hcut := (hext.cutBy (logDivEffect g r.nodeNames p).cuts).same (unlinks_same_cutBy _ hG).1
  rw [hG₁, logDivBuild_eq, logDivBlock_congr hcut hout]
  rfl

/-- A folded convolution run on `G` has its effect over `g`, when what the netlists left by
cutting `G` find among the inputs of the matched nodes, `g` finds. -/
theorem convBatchNorm_effect
    (hcut : ∀ cs, ∀ n ∈ r.nodes, ∀ s ∈ n.inputs, ∀ t, (G.cutBy cs).find? s = some t → g.find? s = some t)
    {u : Unit} (h : (convBatchNorm r).exec G = (.ok u, G')) :
    ∃ p, convBatchNormPlan g r = .ok p ∧
      G' = (G.unlinkBy (convBatchNormEffect g r.nodeNames p).cuts).addBlock
        (convBatchNormEffect g r.nodeNames p).block := by
  obtain ⟨p, G₁, hp, rfl⟩ := exec_prepare_build_ok h
  obtain ⟨-, -, hG₁⟩ := convBatchNormPrepare_ok hp
  have hG₁ : G₁ = G.unlinkBy (convBatchNormEffect g r.nodeNames p).cuts := by
    simp [hG₁, unlinkBy, convBatchNormEffect, detachCuts]
  -- the netlist the unlinking left is `G` cut, up to links, and keeps the tensors of `g`
  have hsame : Same (G.cutBy (convBatchNormEffect g r.nodeNames p).cuts) G₁ :=
    hG₁ ▸ (unlinks_same_cutBy _ hG).1
  have hkeep := (hext.cutBy (convBatchNormEffect g r.nodeNames p).cuts).same hsame
  have hplan : convBatchNormPlan g r = .ok p := by
    refine convBatchNormPrepare_plan hlook (fun n hn s hs t ht => ?_)
      (fun s t hs => hkeep.payload_eq t (hg.reachable_lt (mem_reachable_of_find? hs))) hp
    exact hcut _ n hn s hs t ((hsame.find?_eq s).symm.trans ht)
  refine ⟨p, hplan, ?_⟩
  -- weight and bias are tensors of `g`
  obtain ⟨-, -, ⟨_, -, hw⟩, hb, -⟩ := convBatchNormPlan_ok hplan
  have hbias : ∀ b ∈ p.bias?, b < g.tensors.size := by
    intro b hb'
    rw [Option.mem_def.1 hb'] at hb
    exact hg.lookup_lt hb
  subst hG₁
  rw [convBatchNormBuild_eq _ _ fun b hb' => Nat.lt_of_lt_of_le (hbias b hb') hkeep.size_le,
    convBatchNormBlock_congr hkeep (hg.lookup_lt hw) hbias]
  rfl

end Effect

end Fusion

end OnnxFusion

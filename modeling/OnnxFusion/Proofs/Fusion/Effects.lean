import OnnxFusion.Optimizer
import OnnxFusion.Proofs.Netlist.Growth
import OnnxFusion.Proofs.Fusion.Prepare
/-!
# What carrying out a replacement does to the netlist

A fusion that runs to its end first unlinks the matched nodes from the tensors it replaces
and then appends its new tensors and nodes. The unlinking goes by name: every node whose
name is one of the matched nodes' names loses its links to those tensors, matched or not.
On a netlist whose two sides of every link agree (`Netlist.Linked`, which every imported
netlist is) this gives the rewiring stated by `Fused`:

* every node whose name is not a matched node's name keeps its inputs and outputs, and on
  each side of each old tensor the old list loses only nodes named like matched nodes
  (keeping all others, in order) and gains only appended nodes, after the kept ones;
* no old node named like a matched node reads a primary input (`Replacement.primaryInputs`:
  query, key and value of an attention block, both operands of a quotient, the input
  otherwise) or writes the output, on either side of the link;
* appended nodes read every primary input and write the output.

The proof follows the two phases. `Cleared` is what the preparation leaves: links of named
nodes taken away, the netlist still linked, and each unlinked side detached from the named
nodes; `Cleared.unlink` is its step lemma, one per unlinked tensor. `Built` is what the build
leaves: growth, and new nodes joined to the primary inputs and the output; `Built.addNode`
gives it for a build ending in one node. `fused_of` puts the two together.

* `layerNorm_fused`, `attention_fused`, `logDiv_fused`, `convBatchNorm_fused`: each fusion
  that runs to its end rewires as `Fused` says.
* `execute_fused`: carrying out a replacement on the netlist of a loaded model either
  declines it and changes nothing, or rewires the netlist as `Fused` says.
* `namesake_loses_input`: a node outside the match that shares its name with a matched node
  is unlinked too.
-/

set_option autoImplicit false

namespace OnnxFusion

/-- The inputs of a replacement whose tensors its fusion takes from the matched nodes and
gives to the new ones: query, key and value of an attention block, both operands of the
logarithm of a quotient, and the input of any other fusion. -/
def Replacement.primaryInputs (r : Replacement) : List Value :=
  r.inputs.take (match r.pattern with
    | "CustomAttnPattern" => 3
    | "LogDivPattern" => 2
    | _ => 1)

namespace Netlist

/-- What carrying out a replacement whose matched nodes have the names `names` left of the
netlist `G`, as `G'`, with `ins` the tensors of its primary inputs and `out` that of its
output. -/
structure Fused (names : List String) (G G' : Netlist) (ins : List Nat) (out : Nat) : Prop where
  appended : G.nodes.size < G'.nodes.size
  /-- A node named unlike every matched node keeps its inputs and outputs. -/
  node_eq : ∀ n < G.nodes.size, G.isOther names n → G'.node n = G.node n
  /-- Each side of an old tensor drops only nodes named like matched nodes, keeping the
  others in order, and gains only appended nodes, after them. -/
  links : ∀ side, ∀ t < G.tensors.size, ∃ kept added,
    (G'.tensor t).links side = kept ++ added ∧
      (((G.tensor t).links side).filter (G.isOther names)).Sublist kept ∧
      kept.Sublist ((G.tensor t).links side) ∧
      ∀ n ∈ added, G.nodes.size ≤ n ∧ n < G'.nodes.size
  /-- No old node named like a matched node reads a primary input. -/
  inputs_free : ∀ t ∈ ins, ∀ n < G.nodes.size, G.isOther names n = false →
    n ∉ (G'.tensor t).consumers ∧ t ∉ (G'.node n).inputs
  /-- No old node named like a matched node writes the output. -/
  output_free : ∀ n < G.nodes.size, G.isOther names n = false →
    n ∉ (G'.tensor out).producers ∧ out ∉ (G'.node n).outputs
  inputs_read : ∀ t ∈ ins, ∃ n, G.nodes.size ≤ n ∧ n < G'.nodes.size ∧
    t ∈ (G'.node n).inputs ∧ n ∈ (G'.tensor t).consumers
  output_written : ∃ n, G.nodes.size ≤ n ∧ n < G'.nodes.size ∧
    out ∈ (G'.node n).outputs ∧ n ∈ (G'.tensor out).producers

/-! ### The preparation: unlinking -/

/-- What a preparation leaves of `G`, as `G₁`, once it has unlinked the listed sides of
tensors. -/
structure Cleared (names : List String) (G G₁ : Netlist) (sides : List (Side × Nat)) : Prop where
  unlinked : Unlinked names G G₁
  linked : G₁.Linked
  detached : ∀ st ∈ sides, Detached names G₁ st.1 st.2

section Cleared

variable {names : List String} {G G₁ : Netlist} {sides : List (Side × Nat)}

theorem Cleared.start (names : List String) (h : G.Linked) : Cleared names G G [] :=
  ⟨.refl names G, h, by simp⟩

/-- Unlinking one more side keeps what was detached and detaches that side. -/
theorem Cleared.unlink (h : Cleared names G G₁ sides) (side : Side) (t : Nat) :
    Cleared names G (Fusion.unlink G₁ side t names) (sides ++ [(side, t)]) where
  unlinked := h.unlinked.trans (unlink_unlinked G₁ side t names)
  linked := h.linked.unlink side t names
  detached st hst := by
    rcases List.mem_append.1 hst with hst | hst
    · exact (unlink_unlinked G₁ side t names).detached (h.detached st hst)
    · rw [List.mem_singleton.1 hst]
      exact detached_unlink h.linked side t names

/-- Clearing keeps every tensor. -/
theorem Cleared.tensor_lt (h : Cleared names G G₁ sides) {t : Nat} (ht : t < G.tensors.size) :
    t < G₁.tensors.size := by
  rw [h.unlinked.tensors_size]
  exact ht

end Cleared

/-! ### The build: appending -/

/-- What a build leaves of `G₁`, as `G'`: growth, with appended nodes reading every tensor
of `ins` and writing `out`. -/
structure Built (G₁ G' : Netlist) (ins : List Nat) (out : Nat) : Prop where
  grown : Grown G₁ G'
  appended : G₁.nodes.size < G'.nodes.size
  reads : ∀ t ∈ ins, ∃ n, G₁.nodes.size ≤ n ∧ n < G'.nodes.size ∧ Joined G' .consumers n t
  writes : ∃ n, G₁.nodes.size ≤ n ∧ n < G'.nodes.size ∧ Joined G' .producers n out

/-- A build that grows `G₁` by tensors only and then appends one node reading `ins` and
writing `out`. -/
theorem Built.addNode {G₁ g : Netlist} (hg : Grown G₁ g) (hsize : g.nodes.size = G₁.nodes.size)
    {op name : String} {attrs : Record} {ins outs ts : List Nat} {out : Nat}
    (hts : ∀ t ∈ ts, t ∈ ins ∧ t < G₁.tensors.size) (hout : out ∈ outs ∧ out < G₁.tensors.size) :
    Built G₁ (g.addNode op name attrs ins outs).1 ts out where
  grown := hg.addNode op name attrs ins outs
  appended := by simp [hsize]
  reads t ht := by
    obtain ⟨hmem, hlt⟩ := hts t ht
    have hlt' := Nat.lt_of_lt_of_le hlt hg.tensors_size
    exact ⟨G₁.nodes.size, Nat.le_refl _, by simp [hsize], hsize ▸ joined_addNode hmem hlt'⟩
  writes := by
    have hlt' := Nat.lt_of_lt_of_le hout.2 hg.tensors_size
    exact ⟨G₁.nodes.size, Nat.le_refl _, by simp [hsize], hsize ▸ joined_addNode hout.1 hlt'⟩

/-- Growth keeps an old node off an old tensor. -/
theorem Grown.not_linked {g g' : Netlist} (h : Grown g g') {side : Side} {n t : Nat}
    (hn : n < g.nodes.size) (ht : t < g.tensors.size)
    (hd : n ∉ (g.tensor t).links side ∧ t ∉ (g.node n).ends side) :
    n ∉ (g'.tensor t).links side ∧ t ∉ (g'.node n).ends side := by
  obtain ⟨added, heq, hnew⟩ := h.links side t ht
  refine ⟨fun hm => ?_, by rw [h.node_eq n hn]; exact hd.2⟩
  rw [heq] at hm
  rcases List.mem_append.1 hm with hm | hm
  · exact hd.1 hm
  · -- appended nodes come after every old one
    exact absurd (hnew n hm).1 (Nat.not_le_of_lt hn)

/-! ### Both phases -/

section Compose

variable {names : List String} {G G₁ G' : Netlist} {ins : List Nat} {out : Nat}

/-- A preparation that detached the primary inputs and the output, followed by a build that
appended nodes reading and writing them, rewires as `Fused` says. -/
theorem fused_of (hc : Cleared names G G₁ (ins.map (Side.consumers, ·) ++ [(.producers, out)]))
    (hb : Built G₁ G' ins out) (hins : ∀ t ∈ ins, t < G.tensors.size)
    (hout : out < G.tensors.size) : Fused names G G' ins out := by
  have hnodes := hc.unlinked.nodes_size
  have htensors := hc.unlinked.tensors_size
  -- a named old node stays off a detached side after the build
  have hfree : ∀ side t, (side, t) ∈ ins.map (Side.consumers, ·) ++ [(.producers, out)] →
      t < G.tensors.size → ∀ n < G.nodes.size, G.isOther names n = false →
      n ∉ (G'.tensor t).links side ∧ t ∉ (G'.node n).ends side := by
    intro side t hst ht n hn hnamed
    rw [← hc.unlinked.isOther_eq] at hnamed
    exact hb.grown.not_linked (hnodes ▸ hn) (htensors ▸ ht) (hc.detached (side, t) hst n hnamed)
  refine
    { appended := hnodes ▸ hb.appended
      node_eq := fun n hn hother => ?_
      links := fun side t ht => ?_
      inputs_free := fun t ht n hn hnamed =>
        hfree .consumers t (by simp [ht]) (hins t ht) n hn hnamed
      output_free := fun n hn hnamed => hfree .producers out (by simp) hout n hn hnamed
      inputs_read := fun t ht => ?_
      output_written := ?_ }
  · rw [hb.grown.node_eq n (hnodes ▸ hn), hc.unlinked.node_eq n hother]
  · obtain ⟨added, heq, hnew⟩ := hb.grown.links side t (htensors ▸ ht)
    obtain ⟨hlo, hhi⟩ := hc.unlinked.links side t
    exact ⟨_, added, heq, hlo, hhi, fun n hn => hnodes ▸ hnew n hn⟩
  · obtain ⟨n, hlo, hhi, hj⟩ := hb.reads t ht
    exact ⟨n, hnodes ▸ hlo, hhi, hj⟩
  · obtain ⟨n, hlo, hhi, hj⟩ := hb.writes
    exact ⟨n, hnodes ▸ hlo, hhi, hj⟩

end Compose

end Netlist

namespace Fusion

open Edit Netlist

variable {r : Replacement} {G G' : Netlist} {u : Unit}

/-- Tensors found by name in a linked netlist are tensors of it. -/
theorem lookups_lt (hG : G.Linked) {vs : List Value} {ts : List Nat}
    (h : List.Forall₂ (fun v t => lookup G v = .ok (some t)) vs ts) : ∀ t ∈ ts, t < G.tensors.size := by
  induction h with
  | nil => simp
  | cons hvt _ ih =>
    intro t ht
    rcases List.mem_cons.1 ht with rfl | ht
    · exact hG.lookup_lt hvt
    · exact ih t ht

/-- A layer normalisation that ran to its end rewired the netlist. -/
theorem layerNorm_fused (hG : G.Linked) (h : (layerNorm r).exec G = (.ok u, G')) :
    ∃ ins out, List.Forall₂ (fun v t => lookup G v = .ok (some t)) (r.inputs.take 1) ins ∧
      (∃ v, r.outputs.head? = some v ∧ lookup G v = .ok (some out)) ∧
      Fused r.nodeNames G G' ins out := by
  obtain ⟨p, G₁, hp, rfl⟩ := exec_prepare_build_ok h
  obtain ⟨hins, ⟨v, hv, hout⟩, hG₁⟩ := layerNormPrepare_ok hp
  rw [hG₁]
  have hi := lookups_lt hG hins
  have ho : p.output < G.tensors.size := hG.lookup_lt hout
  -- one step per side the preparation unlinked
  have hc := ((Cleared.start r.nodeNames hG).unlink .consumers p.input).unlink
    .producers p.output
  refine ⟨_, _, hins, ⟨v, hv, hout⟩, fused_of hc ?_ hi ho⟩
  -- three constants, then the plugin node reading the input and writing the output
  simp only [layerNormBuild]
  exact Built.addNode ((((Grown.refl _).addTensor _ _).addTensor _ _).addTensor _ _) (by simp)
    (fun t ht => ⟨List.mem_append_left _ ht, hc.tensor_lt (hi t ht)⟩) ⟨by simp, hc.tensor_lt ho⟩

/-- An attention block that ran to its end rewired the netlist. -/
theorem attention_fused (hG : G.Linked) (h : (attention r).exec G = (.ok u, G')) :
    ∃ ins out, List.Forall₂ (fun v t => lookup G v = .ok (some t)) (r.inputs.take 3) ins ∧
      (∃ v, r.outputs.head? = some v ∧ lookup G v = .ok (some out)) ∧
      Fused r.nodeNames G G' ins out := by
  obtain ⟨p, G₁, hp, rfl⟩ := exec_prepare_build_ok h
  obtain ⟨hins, ⟨v, hv, hout⟩, hG₁⟩ := attentionPrepare_ok hp
  rw [hG₁]
  have hi := lookups_lt hG hins
  have ho : p.output < G.tensors.size := hG.lookup_lt hout
  have hc := ((((Cleared.start r.nodeNames hG).unlink .consumers p.q).unlink .consumers
    p.k).unlink .consumers p.v).unlink .producers p.output
  refine ⟨_, _, hins, ⟨v, hv, hout⟩, fused_of hc ?_ hi ho⟩
  -- two sequence lengths, then the attention node reading query, key and value
  simp only [attentionBuild]
  exact Built.addNode (((Grown.refl _).addTensor _ _).addTensor _ _) (by simp)
    (fun t ht => ⟨List.mem_append_left _ ht, hc.tensor_lt (hi t ht)⟩) ⟨by simp, hc.tensor_lt ho⟩

/-- A build that grows `G₁` by tensors only and then appends a node reading `a`, a node
reading `b` and a node writing `out`. -/
theorem built_two_readers {G₁ g : Netlist} (hg : Grown G₁ g) (hsize : g.nodes.size = G₁.nodes.size)
    {a b out : Nat} (ha : a < G₁.tensors.size) (hb : b < G₁.tensors.size)
    (hout : out < G₁.tensors.size) (op₀ op₁ op₂ name₀ name₁ name₂ : String)
    (attrs₀ attrs₁ attrs₂ : Record) (outs₀ outs₁ ins₂ : List Nat) :
    Built G₁ ((((g.addNode op₀ name₀ attrs₀ [a] outs₀).1.addNode op₁ name₁ attrs₁ [b] outs₁).1.addNode
      op₂ name₂ attrs₂ ins₂ [out]).1) [a, b] out := by
  -- the three netlists the build passes through, from the first reader on
  set g₀ := (g.addNode op₀ name₀ attrs₀ [a] outs₀).1 with hg₀
  set g₁ := (g₀.addNode op₁ name₁ attrs₁ [b] outs₁).1 with hg₁
  have hgrow₀ : Grown g₀ (g₁.addNode op₂ name₂ attrs₂ ins₂ [out]).1 :=
    ((Grown.refl g₀).addNode _ _ _ _ _).addNode _ _ _ _ _
  have hgrow₁ : Grown g₁ (g₁.addNode op₂ name₂ attrs₂ ins₂ [out]).1 := (Grown.refl g₁).addNode _ _ _ _ _
  have hsize₀ : g₀.nodes.size = G₁.nodes.size + 1 := by simp [g₀, hsize]
  have hsize₁ : g₁.nodes.size = G₁.nodes.size + 2 := by simp [g₁, hsize₀]
  have hlast : (g₁.addNode op₂ name₂ attrs₂ ins₂ [out]).1.nodes.size = G₁.nodes.size + 3 := by
    simp [hsize₁]
  have htensors₀ : g₀.tensors.size = g.tensors.size := by simp [g₀]
  have htensors₁ : g₁.tensors.size = g.tensors.size := by simp [g₁, htensors₀]
  -- the tensors read and written are old, hence tensors of every netlist of the build
  have ha := Nat.lt_of_lt_of_le ha hg.tensors_size
  have hb := Nat.lt_of_lt_of_le hb hg.tensors_size
  have hout := Nat.lt_of_lt_of_le hout hg.tensors_size
  refine ⟨((hg.addNode _ _ _ _ _).addNode _ _ _ _ _).addNode _ _ _ _ _, by omega, ?_, ?_⟩
  · intro t ht
    rcases List.mem_pair.1 ht with rfl | rfl
    · -- the first reader, joined when appended and kept joined after
      have hj : Joined g₀ .consumers g.nodes.size t := joined_addNode (List.mem_singleton_self t) ha
      rw [hsize] at hj
      exact ⟨G₁.nodes.size, Nat.le_refl _, by omega, hgrow₀.joined (by omega) (by omega) hj⟩
    · have hj : Joined g₁ .consumers g₀.nodes.size t :=
        joined_addNode (List.mem_singleton_self t) (by omega)
      rw [hsize₀] at hj
      exact ⟨G₁.nodes.size + 1, by omega, by omega, hgrow₁.joined (by omega) (by omega) hj⟩
  · have hj : Joined (g₁.addNode op₂ name₂ attrs₂ ins₂ [out]).1 .producers g₁.nodes.size out :=
      joined_addNode (List.mem_singleton_self out) (by omega)
    rw [hsize₁] at hj
    exact ⟨G₁.nodes.size + 2, by omega, by omega, hj⟩

/-- The rewrite of `Log (a / b)` that ran to its end rewired the netlist: the two new `Log`
nodes read the operands and the new `Sub` writes the output. -/
theorem logDiv_fused (hG : G.Linked) (h : (logDiv r).exec G = (.ok u, G')) :
    ∃ ins out, List.Forall₂ (fun v t => lookup G v = .ok (some t)) (r.inputs.take 2) ins ∧
      (∃ v, r.outputs.head? = some v ∧ lookup G v = .ok (some out)) ∧
      Fused r.nodeNames G G' ins out := by
  obtain ⟨p, G₁, hp, rfl⟩ := exec_prepare_build_ok h
  obtain ⟨hins, ⟨v, hv, hout⟩, hG₁⟩ := logDivPrepare_ok hp
  rw [hG₁]
  have hi := lookups_lt hG hins
  have ho : p.output < G.tensors.size := hG.lookup_lt hout
  have hc := (((Cleared.start r.nodeNames hG).unlink .consumers p.a).unlink .consumers
    p.b).unlink .producers p.output
  refine ⟨_, _, hins, ⟨v, hv, hout⟩, fused_of hc ?_ hi ho⟩
  -- two fresh variables, then `Log a`, `Log b` and the `Sub` writing the output
  simp only [logDivBuild]
  exact built_two_readers (((Grown.refl _).addTensor _ _).addTensor _ _) (by simp)
    (hc.tensor_lt (hi p.a (by simp))) (hc.tensor_lt (hi p.b (by simp))) (hc.tensor_lt ho) _ _ _ _
    _ _ _ _ _ _ _ _

/-- A folded convolution that ran to its end rewired the netlist. -/
theorem convBatchNorm_fused (hG : G.Linked) (h : (convBatchNorm r).exec G = (.ok u, G')) :
    ∃ ins out, List.Forall₂ (fun v t => lookup G v = .ok (some t)) (r.inputs.take 1) ins ∧
      (∃ v, r.outputs.head? = some v ∧ lookup G v = .ok (some out)) ∧
      Fused r.nodeNames G G' ins out := by
  obtain ⟨p, G₁, hp, rfl⟩ := exec_prepare_build_ok h
  obtain ⟨hins, ⟨v, hv, hout⟩, hG₁⟩ := convBatchNormPrepare_ok hp
  rw [hG₁]
  have hi := lookups_lt hG hins
  have ho : p.output < G.tensors.size := hG.lookup_lt hout
  have hc := ((Cleared.start r.nodeNames hG).unlink .consumers p.input).unlink
    .producers p.output
  refine ⟨_, _, hins, ⟨v, hv, hout⟩, fused_of hc ?_ hi ho⟩
  -- the folded weight and bias, then the new convolution reading the input
  simp only [convBatchNormBuild]
  exact Built.addNode (((Grown.refl _).addTensor _ _).addTensor _ _) (by simp)
    (fun t ht => ⟨List.mem_append_left _ ht, hc.tensor_lt (hi t ht)⟩) ⟨by simp, hc.tensor_lt ho⟩

end Fusion

namespace Replacement

open Edit Netlist

/-- Carrying out a replacement on a linked netlist either declines it, changing nothing, or
runs the fusion of its pattern, which rewires the netlist as `Fused` says for the tensors
its primary inputs and first output name. -/
theorem edit_fused {r : Replacement} {G G' : Netlist} {ok : Bool} (hG : G.Linked)
    (h : r.edit.exec G = (.ok ok, G')) :
    (ok = false ∧ G' = G) ∨
      (ok = true ∧ ∃ ins out,
        List.Forall₂ (fun v t => Fusion.lookup G v = .ok (some t)) r.primaryInputs ins ∧
        (∃ v, r.outputs.head? = some v ∧ Fusion.lookup G v = .ok (some out)) ∧
        Fused r.nodeNames G G' ins out) := by
  unfold edit at h
  split at h
  -- each fusion runs and then reports `true`; the primary inputs are those of its pattern
  case h_1 hpat =>
    obtain ⟨rfl, u, h₁⟩ := exec_ran_eq_ok h
    simpa [primaryInputs, hpat] using Fusion.convBatchNorm_fused hG h₁
  case h_2 hpat =>
    obtain ⟨rfl, u, h₁⟩ := exec_ran_eq_ok h
    simpa [primaryInputs, hpat] using Fusion.layerNorm_fused hG h₁
  case h_3 hpat =>
    obtain ⟨rfl, u, h₁⟩ := exec_ran_eq_ok h
    simpa [primaryInputs, hpat] using Fusion.attention_fused hG h₁
  case h_4 hpat =>
    obtain ⟨rfl, u, h₁⟩ := exec_ran_eq_ok h
    simpa [primaryInputs, hpat] using Fusion.logDiv_fused hG h₁
  case h_5 =>
    -- no fusion has the pattern's name
    obtain ⟨rfl, rfl⟩ := exec_pure_eq_ok.1 h
    exact .inl ⟨rfl, rfl⟩

end Replacement

namespace Executor

/-- Carrying out a replacement on the netlist of a loaded model either declines it and
changes nothing, or rewires the netlist by the names of the matched nodes: nodes of other
names keep their links; each side of an old tensor loses only nodes named like matched nodes
and gains only appended ones; no old node named like a matched node stays linked to a primary
input or to the output; and appended nodes read every primary input and write the output. -/
theorem execute_fused {e e' : Executor} {d : GraphDef} {r : Replacement} {ok : Bool}
    (hg : e.graph = some (Netlist.ofGraphDef d)) (h : e.execute r = .ok (e', ok)) :
    (ok = false ∧ e' = e) ∨
      (ok = true ∧ ∃ G' ins out, e'.graph = some G' ∧
        List.Forall₂ (fun v t => Fusion.lookup (Netlist.ofGraphDef d) v = .ok (some t))
          r.primaryInputs ins ∧
        (∃ v, r.outputs.head? = some v ∧
          Fusion.lookup (Netlist.ofGraphDef d) v = .ok (some out)) ∧
        Netlist.Fused r.nodeNames (Netlist.ofGraphDef d) G' ins out) := by
  obtain ⟨G', hx, hdeclined, hfused⟩ := execute_eq_ok hg h
  rcases Replacement.edit_fused (Netlist.ofGraphDef_linked d) hx with
    ⟨rfl, -⟩ | ⟨rfl, ins, out, hins, hout, hf⟩
  · exact .inl ⟨rfl, hdeclined rfl⟩
  · exact .inr ⟨rfl, G', ins, out, hfused rfl, hins, hout, hf⟩

end Executor

namespace Proofs

/-- `Log (a / b)` beside a `Relu` of `a` that bears the name of the `Div`. -/
def namesakeGraph : GraphDef :=
  { nodes := [{ opType := "Div", name := "D", inputs := ["a", "b"], outputs := ["c"], attributes := [] },
      { opType := "Log", name := "L", inputs := ["c"], outputs := ["y"], attributes := [] },
      { opType := "Relu", name := "D", inputs := ["a"], outputs := ["z"], attributes := [] }],
    initializers := [], inputs := [⟨"a", "float32", some [.size 2]⟩, ⟨"b", "float32", some [.size 2]⟩],
    outputs := [⟨"y", "float32", some [.size 2]⟩, ⟨"z", "float32", some [.size 2]⟩], valueInfo := [] }

/-- The rewrite of the quotient in `namesakeGraph`, as the matcher asks for it. -/
def namesakeLogDiv : Replacement :=
  { pattern := "LogDivPattern",
    nodes := [⟨0, "D", "Div", ["a", "b"], ["c"], []⟩, ⟨1, "L", "Log", ["c"], ["y"], []⟩],
    inputs := [.str "a", .str "b"], outputs := [.str "y"], attrs := [] }

theorem namesake_rewired :
    ∃ e' ok, Executor.execute { graph := some (Netlist.ofGraphDef namesakeGraph) } namesakeLogDiv =
        .ok (e', ok) ∧
      ((ok = false ∧ e' = { graph := some (Netlist.ofGraphDef namesakeGraph) }) ∨
        (ok = true ∧ ∃ G' ins out, e'.graph = some G' ∧
          List.Forall₂ (fun v t => Fusion.lookup (Netlist.ofGraphDef namesakeGraph) v = .ok (some t))
            namesakeLogDiv.primaryInputs ins ∧
          (∃ v, namesakeLogDiv.outputs.head? = some v ∧
            Fusion.lookup (Netlist.ofGraphDef namesakeGraph) v = .ok (some out)) ∧
          Netlist.Fused namesakeLogDiv.nodeNames (Netlist.ofGraphDef namesakeGraph) G' ins out)) :=
  ⟨_, _, rfl, Executor.execute_fused (e := { graph := some (Netlist.ofGraphDef namesakeGraph) }) rfl rfl⟩

/-- Optimizing `namesakeGraph` matches the `Div` and the `Log` only, yet the `Relu` outside the
match loses its input: it bears a matched node's name. -/
theorem namesake_loses_input :
    ∃ o d o' rep G',
      ({} : Optimizer).load (FileTable.ofList [("in.onnx", .document namesakeGraph)]) "in.onnx" =
        .ok (o, d) ∧ o.optimize = .ok (o', rep) ∧ rep.found.map Match.indices = [[0, 1]] ∧
      o'.executor.graph = some G' ∧
      ((Netlist.ofGraphDef d).node 2).inputs ≠ [] ∧ (G'.node 2).inputs = [] :=
  ⟨_, _, _, _, _, rfl, rfl, rfl, rfl, by decide, by decide⟩

end Proofs

end OnnxFusion

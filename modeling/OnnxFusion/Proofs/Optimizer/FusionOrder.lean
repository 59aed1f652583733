import OnnxFusion.Proofs.Fusion.Footprint
import OnnxFusion.Proofs.Optimizer.TensorNames
/-!
# Carrying out replacements in any order

The executor carries out a list of replacements one after the other on the netlist of a
loaded model. Each fusion unlinks by name and appends nodes named after what it read, so a
later fusion can unlink a node an earlier one appended, or find by name a tensor an earlier
one appended. When no replacement appends a node bearing a name another one unlinks, nor a
tensor bearing a name another one reads (`Replacement.Spares`, both ways), the order does
not matter: carrying out any permutation of the list leaves an isomorphic netlist, by a
renumbering that fixes every tensor of the loaded model.

The proof follows one run. `Netlist.Reached g done G` says that, up to links, `G` is the
loaded netlist `g` with the effects over `g` of the replacements carried out so far applied.
`Reached.edit` is the step lemma, from `edit_effect`; `Reached.executeAll` is the run lemma,
by induction on the list. Two runs over permutations of one list reach `g` with permuted
effects applied, and `applyEffects_perm` makes the two isomorphic.

* `executeAll_iso_of_perm`: the theorem, with `twoQuotients_either_order` as an instance.
* `fusion_order_changes_graph`: without the hypothesis, the order matters. Two quotients
  whose second `Div` bears the name the first rewrite gives its first `Log` (`L_0`): carried
  out in the order the matcher finds them, the second rewrite unlinks the new `Log` from its
  operand; in the other order it keeps it.
-/

set_option autoImplicit false

namespace OnnxFusion

instance (r r' : Replacement) : Decidable (r.Spares r') := by
  unfold Replacement.Spares
  infer_instance

namespace Netlist

open Replacement

/-- A run from `g` that carried out `done` has reached `G`: up to links, `G` is `g` with the
effects over `g` of the replacements carried out applied in order, and `G` is linked. -/
structure Reached (g : Netlist) (done : List Replacement) (G : Netlist) : Prop where
  same : Same (g.applyEffects (done.filterMap (·.effect g))) G
  linked : G.Linked

/-- An isomorphism carries each node to one of the same operator and name with as many
inputs, so a netlist with a node that the other has no match for is not isomorphic to it. -/
theorem not_iso_of_node {g h : Netlist} {n : Nat} (hn : n < g.nodes.size)
    (hnone : ∀ m < h.nodes.size, ¬((h.node m).op = (g.node n).op ∧ (h.node m).name = (g.node n).name ∧
      (h.node m).inputs.length = (g.node n).inputs.length)) : ¬Iso g h := by
  rintro ⟨τ, ν, hi⟩
  obtain ⟨hlt, hop, hname, hlen⟩ := hi.node_shape hn
  exact hnone _ hlt ⟨hop, hname, hlen⟩

section Run

variable {g : Netlist} (hg : g.Linked)

include hg in
theorem Reached.start : Reached g [] g := ⟨by simpa using Same.refl g, hg⟩

include hg in
theorem effects_fit (done : List Replacement) : ∀ e ∈ done.filterMap (·.effect g), e.Fits g := by
  intro e he
  obtain ⟨r, -, hr⟩ := List.mem_filterMap.1 he
  exact effect_fits hg hr

variable (hinj : ∀ t u, t < g.tensors.size → u < g.tensors.size →
  (g.tensor t).name = (g.tensor u).name → t = u)
include hg hinj

/-- One replacement carried out after replacements that append nothing it reads or unlinks:
the run reaches `g` with its effect applied too, and a declined replacement changes nothing. -/
theorem Reached.edit {done : List Replacement} {G G' : Netlist} {r : Replacement} {ok : Bool}
    (hR : Reached g done G) (hspare : ∀ r' ∈ done, r'.Spares r) (h : r.edit.exec G = (.ok ok, G')) :
    Reached g (done ++ [r]) G' ∧ (ok = false → G' = G) := by
  -- no effect applied so far appends a tensor the replacement reads
  have hfresh : ∀ e ∈ done.filterMap (·.effect g), ∀ s ∈ r.tensorNames,
      s ∉ e.block.tensors.map (·.1) := by
    intro e he s hs hmem
    obtain ⟨r', hr', hre⟩ := List.mem_filterMap.1 he
    exact (hspare r' hr').2 s (effect_tensors_named hre s hmem) hs
  rcases edit_effect hg hinj (effects_fit hg done) hR.same hR.linked hfresh h with
    ⟨rfl, hnone, rfl⟩ | ⟨rfl, e, he, rfl⟩
  · -- declined: no effect, and the netlist as it was
    refine ⟨⟨?_, hR.linked⟩, fun _ => rfl⟩
    simpa [hnone] using hR.same
  · refine ⟨?_, nofun⟩
    -- the cuts of `e` spare the nodes of the earlier blocks, whose names `r` does not match
    have hnodes : ∀ e' ∈ done.filterMap (·.effect g), ∀ x ∈ e'.block.nodes, ∀ c ∈ e.cuts,
        x.name ∉ c.names := by
      intro e' he' x hx c hc hname
      obtain ⟨r', hr', hre'⟩ := List.mem_filterMap.1 he'
      rw [effect_cuts_names he c hc] at hname
      exact (hspare r' hr').1 x.name (effect_nodes_named hre' x hx) hname
    obtain ⟨hsame, hlinked⟩ := unlinks_same_cutBy e.cuts hR.linked
    have hkeep := (((extends_applyEffects g _).same hR.same).cutBy e.cuts).same hsame
    refine ⟨?_, hlinked.addBlock ((effect_fits hg he).ports_below.mono hkeep.size_le)⟩
    have hes : (done ++ [r]).filterMap (·.effect g) = done.filterMap (·.effect g) ++ [e] := by
      simp [he]
    rw [hes, ← applyEffects_concat e hnodes]
    exact (((hR.same.cutBy e.cuts).trans hsame).appendBlock e.block).trans
      (same_appendBlock_addBlock _ _)

/-- The step lemma at the executor: carrying out one more replacement keeps the run reached. -/
theorem Reached.execute {done : List Replacement} {G : Netlist} {e e' : Executor} {r : Replacement}
    {ok : Bool} (hR : Reached g done G) (hgraph : e.graph = some G) (hspare : ∀ r' ∈ done, r'.Spares r)
    (h : e.execute r = .ok (e', ok)) : ∃ G', e'.graph = some G' ∧ Reached g (done ++ [r]) G' := by
  obtain ⟨G', hx, hdeclined, hran⟩ := Executor.execute_eq_ok hgraph h
  obtain ⟨hR', hkept⟩ := hR.edit hg hinj hspare hx
  cases ok with
  | false => exact ⟨G, (hdeclined rfl).symm ▸ hgraph, hkept rfl ▸ hR'⟩
  | true => exact ⟨G', hran rfl, hR'⟩

/-- The run lemma: replacements carried out in order, none appending what a later one reads
or unlinks, keep the run reached; the induction is on the replacements still to carry out. -/
theorem Reached.executeAll :
    ∀ (rs : List Replacement) {done : List Replacement} {e e' : Executor} {G : Netlist} {ok : Bool},
      e.graph = some G → Reached g done G → (∀ r' ∈ done, ∀ r ∈ rs, r'.Spares r) →
      rs.Pairwise Replacement.Spares → e.executeAll rs = .ok (e', ok) →
      ∃ G', e'.graph = some G' ∧ Reached g (done ++ rs) G'
  | [], _, e, e', G, _, hgraph, hR, _, _, h => by
    simp only [Executor.executeAll, Except.ok.injEq, Prod.mk.injEq] at h
    obtain ⟨rfl, -⟩ := h
    exact ⟨G, hgraph, by simpa using hR⟩
  | r :: rs, done, _, _, _, _, hgraph, hR, hspare, hpair, h => by
    obtain ⟨e₁, ok₁, ok₂, h₁, h₂, -⟩ := Executor.executeAll_cons_ok h
    obtain ⟨G₁, hgraph₁, hR₁⟩ :=
      hR.execute hg hinj hgraph (fun r' hr' => hspare r' hr' r List.mem_cons_self) h₁
    -- what is carried out now spares the rest, as do the earlier ones
    have hspare₁ : ∀ r' ∈ done ++ [r], ∀ r'' ∈ rs, r'.Spares r'' := by
      intro r' hr' r'' hr''
      rcases List.mem_append.1 hr' with hr' | hr'
      · exact hspare r' hr' r'' (List.mem_cons_of_mem _ hr'')
      · rw [List.mem_singleton.1 hr']
        exact List.rel_of_pairwise_cons hpair hr''
    obtain ⟨G', hgraph', hR'⟩ := Reached.executeAll rs hgraph₁ hR₁ hspare₁ hpair.of_cons h₂
    exact ⟨G', hgraph', by simpa using hR'⟩

end Run

end Netlist

namespace Executor

open Netlist

/-- Replacements carried out in any two orders on the netlist of a loaded model, when none
appends a node bearing a name another one unlinks or a tensor bearing a name another one
reads, leave isomorphic netlists; the renumbering fixes every tensor of the loaded model. -/
theorem executeAll_iso_of_perm {d : GraphDef} {e e₁ e₂ : Executor} {rs rs' : List Replacement}
    {ok₁ ok₂ : Bool} (hg : e.graph = some (ofGraphDef d)) (hperm : rs.Perm rs')
    (hspare : rs.Pairwise fun r r' => r.Spares r' ∧ r'.Spares r)
    (h₁ : e.executeAll rs = .ok (e₁, ok₁)) (h₂ : e.executeAll rs' = .ok (e₂, ok₂)) :
    ∃ G₁ G₂ τ ν, e₁.graph = some G₁ ∧ e₂.graph = some G₂ ∧ IsoBy τ ν G₁ G₂ ∧
      ∀ t < (ofGraphDef d).tensors.size, τ t = t := by
  have hlinked := ofGraphDef_linked d
  have hinj : ∀ t u, t < (ofGraphDef d).tensors.size → u < (ofGraphDef d).tensors.size →
      ((ofGraphDef d).tensor t).name = ((ofGraphDef d).tensor u).name → t = u :=
    fun _ _ ht hu h => ofGraphDef_name_inj d ht hu h
  -- each order is a run from the loaded netlist
  have hspare' : rs'.Pairwise fun r r' => r.Spares r' ∧ r'.Spares r :=
    (hperm.pairwise_iff fun h => ⟨h.2, h.1⟩).1 hspare
  obtain ⟨G₁, hG₁, hR₁⟩ := Reached.executeAll hlinked hinj rs hg (.start hlinked) (by simp)
    (hspare.imp And.left) h₁
  obtain ⟨G₂, hG₂, hR₂⟩ := Reached.executeAll hlinked hinj rs' hg (.start hlinked) (by simp)
    (hspare'.imp And.left) h₂
  -- their effects are a permutation of one another
  obtain ⟨τ, ν, hiso, hfix⟩ :=
    applyEffects_perm hlinked.inRange (hperm.filterMap _) (effects_fit hlinked rs)
  rw [List.nil_append] at hR₁ hR₂
  exact ⟨G₁, G₂, _, _, hG₁, hG₂, ((IsoBy.of_same hR₁.same.symm).trans hiso).trans
    (IsoBy.of_same hR₂.same), hfix⟩

end Executor

namespace Proofs

/-- Two quotients of one operand, `Log (a / b)` and `Log (a / e)`. -/
def twoQuotients : GraphDef :=
  { nodes := [{ opType := "Div", name := "D", inputs := ["a", "b"], outputs := ["c"], attributes := [] },
      { opType := "Log", name := "L", inputs := ["c"], outputs := ["y"], attributes := [] },
      { opType := "Div", name := "E", inputs := ["a", "e"], outputs := ["f"], attributes := [] },
      { opType := "Log", name := "Q", inputs := ["f"], outputs := ["z"], attributes := [] }],
    initializers := [],
    inputs := [⟨"a", "float32", some [.size 2]⟩, ⟨"b", "float32", some [.size 2]⟩,
      ⟨"e", "float32", some [.size 2]⟩],
    outputs := [⟨"y", "float32", some [.size 2]⟩, ⟨"z", "float32", some [.size 2]⟩], valueInfo := [] }

/-- The rewrites of the two quotients of `twoQuotients`, as the matcher asks for them. -/
def twoQuotientRewrites : List Replacement :=
  [{ pattern := "LogDivPattern",
      nodes := [⟨0, "D", "Div", ["a", "b"], ["c"], []⟩, ⟨1, "L", "Log", ["c"], ["y"], []⟩],
      inputs := [.str "a", .str "b"], outputs := [.str "y"], attrs := [] },
    { pattern := "LogDivPattern",
      nodes := [⟨2, "E", "Div", ["a", "e"], ["f"], []⟩, ⟨3, "Q", "Log", ["f"], ["z"], []⟩],
      inputs := [.str "a", .str "e"], outputs := [.str "z"], attrs := [] }]

theorem twoQuotients_either_order :
    ∃ e₁ ok₁ e₂ ok₂,
      Executor.executeAll { graph := some (Netlist.ofGraphDef twoQuotients) } twoQuotientRewrites =
        .ok (e₁, ok₁) ∧
      Executor.executeAll { graph := some (Netlist.ofGraphDef twoQuotients) }
        twoQuotientRewrites.reverse = .ok (e₂, ok₂) ∧
      ∃ G₁ G₂ τ ν, e₁.graph = some G₁ ∧ e₂.graph = some G₂ ∧ Netlist.IsoBy τ ν G₁ G₂ ∧
        ∀ t < (Netlist.ofGraphDef twoQuotients).tensors.size, τ t = t :=
  ⟨_, _, _, _, rfl, rfl,
    Executor.executeAll_iso_of_perm (e := { graph := some (Netlist.ofGraphDef twoQuotients) }) rfl
      (List.reverse_perm _).symm
      (by decide : twoQuotientRewrites.Pairwise fun r r' => r.Spares r' ∧ r'.Spares r) rfl rfl⟩

/-- Two quotients of one operand whose second `Div` bears the name `L_0`, the name the rewrite
of the first quotient gives its first `Log`. -/
def shadowedQuotients : GraphDef :=
  { twoQuotients with
    nodes := [{ opType := "Div", name := "D", inputs := ["a", "b"], outputs := ["c"], attributes := [] },
      { opType := "Log", name := "L", inputs := ["c"], outputs := ["y"], attributes := [] },
      { opType := "Div", name := "L_0", inputs := ["a", "e"], outputs := ["f"], attributes := [] },
      { opType := "Log", name := "Q", inputs := ["f"], outputs := ["z"], attributes := [] }] }

set_option maxRecDepth 8000 in
/-- Optimizing `shadowedQuotients` finds both quotients and rewrites both; rewriting them in
the other order rewrites both too, but the two netlists are not isomorphic: in the first, the
appended `Log` named `L_0` has lost its operand to the second rewrite. -/
theorem fusion_order_changes_graph :
    ∃ o d o' rep e' ok G G',
      ({} : Optimizer).load (FileTable.ofList [("in.onnx", .document shadowedQuotients)]) "in.onnx" =
        .ok (o, d) ∧
      o.optimize = .ok (o', rep) ∧ rep.success = true ∧ o'.executor.graph = some G ∧
      o.executor.executeAll (rep.found.map Match.toReplacement).reverse = .ok (e', ok) ∧
      ok = true ∧ e'.graph = some G' ∧ ¬Netlist.Iso G G' :=
  ⟨_, _, _, _, _, _, _, _, rfl, rfl, rfl, rfl, rfl, rfl, rfl,
    Netlist.not_iso_of_node (n := 4) (by decide) (by decide)⟩

end Proofs

end OnnxFusion

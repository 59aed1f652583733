import Mathlib.Data.List.Nodup
import OnnxFusion.Optimizer
import OnnxFusion.Proofs.Fusion.Faults
import OnnxFusion.Proofs.Fusion.Prepare
import OnnxFusion.Proofs.Netlist.Growth
/-!
# Tensor names after optimizing

Importing a model makes one tensor object per tensor name, so the imported tensors have
pairwise distinct names. Fusions never rename a tensor; they add tensors whose names are an
existing name with a fixed suffix appended (`fusionSuffixes`): `_ln_scale`, `_ln_bias` and
`_ln_eps` for a layer normalisation, `_seq_q_tensor` and `_seq_k_tensor` for attention,
`_0_out` and `_1_out` for the logarithm of a quotient, `_fused` for a folded convolution.
Nothing checks such a name against the names already there, so two tensor objects can share
a name after optimizing; but only when one of them was added by a fusion, under a suffixed
name.

* `Netlist.NamesKept g g'`: `g'` keeps every tensor of `g` under its name and names every
  tensor it adds with a suffix of `fusionSuffixes`. It is reflexive and transitive; unlinking
  keeps it (`Unlinked.namesKept`), and so does appending a suffixed tensor or a node
  (`NamesKept.addTensor`, `NamesKept.addNode`), hence every build.
* `Replacement.edit_namesKept`, `Executor.execute_namesKept`, `Executor.executeAll_namesKept`:
  a replacement carried out, and a whole list of them, keeps it: the step lemma and the run
  lemma.
* `ofGraphDef_name_inj`: imported tensors have distinct names.
* `Netlist.FusedNames g g'`: the imported tensors of `g` bear distinct names, `g'` keeps them
  (`NamesKept`), and two distinct tensors of `g'` that share a name include an added one.
* `optimize_clash_is_fused`: loading and optimizing leaves a netlist of `FusedNames` over the
  imported one.
* `clash_after_optimize`: such a clash happens: a graph input named `L_0_out` and the
  output of the rewritten `Log` named `L`.
-/

set_option autoImplicit false

namespace OnnxFusion

namespace Netlist

/-- The suffixes fusions append to existing names to name the tensors they add. -/
def fusionSuffixes : List String :=
  ["_ln_scale", "_ln_bias", "_ln_eps", "_seq_q_tensor", "_seq_k_tensor", "_0_out", "_1_out",
    "_fused"]

/-- `g'` keeps every tensor of `g` under its name, and every tensor `g'` has beyond those is
named by a name with a suffix of `fusionSuffixes` appended. -/
structure NamesKept (g g' : Netlist) : Prop where
  size_le : g.tensors.size ≤ g'.tensors.size
  name_eq : ∀ t < g.tensors.size, (g'.tensor t).name = (g.tensor t).name
  suffixed : ∀ t, g.tensors.size ≤ t → t < g'.tensors.size →
    ∃ base suf, suf ∈ fusionSuffixes ∧ (g'.tensor t).name = base ++ suf

namespace NamesKept

variable {g g' g'' : Netlist}

theorem refl (g : Netlist) : NamesKept g g :=
  ⟨Nat.le_refl _, fun _ _ => rfl, fun _ hle hlt => absurd hlt (Nat.not_lt_of_le hle)⟩

theorem trans (h₁ : NamesKept g g') (h₂ : NamesKept g' g'') : NamesKept g g'' where
  size_le := Nat.le_trans h₁.size_le h₂.size_le
  name_eq t ht := (h₂.name_eq t (Nat.lt_of_lt_of_le ht h₁.size_le)).trans (h₁.name_eq t ht)
  suffixed t hle hlt := by
    -- a tensor added by the first step keeps its suffixed name through the second
    by_cases ht : t < g'.tensors.size
    · obtain ⟨base, suf, hsuf, hname⟩ := h₁.suffixed t hle ht
      exact ⟨base, suf, hsuf, (h₂.name_eq t ht).trans hname⟩
    · exact h₂.suffixed t (Nat.le_of_not_lt ht) hlt

/-- Appending a tensor named with a fusion suffix. -/
theorem addTensor (h : NamesKept g g') (base suf : String) (hsuf : suf ∈ fusionSuffixes)
    (p : Payload) : NamesKept g (g'.addTensor (base ++ suf) p).1 := by
  refine h.trans ⟨by simp, fun t ht => ?_, fun t hle hlt => ?_⟩
  · rw [tensor_addTensor, if_neg (Nat.ne_of_lt ht)]
  · -- the only tensor past the old ones is the new one
    have ht : t = g'.tensors.size := by simp at hlt; omega
    exact ⟨base, suf, hsuf, by rw [tensor_addTensor, if_pos ht]⟩

/-- Appending a node renames nothing. -/
theorem addNode (h : NamesKept g g') (op name : String) (attrs : Record) (ins outs : List Nat) :
    NamesKept g (g'.addNode op name attrs ins outs).1 := by
  have hgrown := (Grown.refl g').addNode op name attrs ins outs
  refine h.trans ⟨by simp, hgrown.name_eq, fun t hle hlt => ?_⟩
  simp only [tensors_size_addNode] at hlt
  exact absurd hlt (Nat.not_lt_of_le hle)

end NamesKept

/-- Unlinking renames nothing and adds no tensor. -/
theorem Unlinked.namesKept {names : List String} {g g' : Netlist} (h : Unlinked names g g') :
    NamesKept g g' :=
  ⟨Nat.le_of_eq h.tensors_size.symm, fun t _ => h.name_eq t, fun t hle hlt => by
    rw [h.tensors_size] at hlt
    exact absurd hlt (Nat.not_lt_of_le hle)⟩

/-- In a netlist whose tensors have distinct names, kept names, two distinct tensors of one
name include a tensor added under a suffixed name. -/
theorem NamesKept.clash {g g' : Netlist} (hk : NamesKept g g')
    (hinj : ∀ t t', t < g.tensors.size → t' < g.tensors.size →
      (g.tensor t).name = (g.tensor t').name → t = t')
    {t t' : Nat} (ht : t < g'.tensors.size) (ht' : t' < g'.tensors.size) (hne : t ≠ t')
    (hname : (g'.tensor t).name = (g'.tensor t').name) :
    ∃ u ∈ [t, t'], g.tensors.size ≤ u ∧
      ∃ base suf, suf ∈ fusionSuffixes ∧ (g'.tensor u).name = base ++ suf := by
  by_cases hold : t < g.tensors.size ∧ t' < g.tensors.size
  · -- two old tensors keep their names, which differ
    obtain ⟨hold, hold'⟩ := hold
    rw [hk.name_eq t hold, hk.name_eq t' hold'] at hname
    exact absurd (hinj t t' hold hold' hname) hne
  · -- one of the two is past the old tensors, hence added under a suffixed name
    rcases not_and_or.1 hold with hle | hle
    · have hle := Nat.le_of_not_lt hle
      exact ⟨t, List.mem_cons_self, hle, hk.suffixed t hle ht⟩
    · have hle := Nat.le_of_not_lt hle
      exact ⟨t', List.mem_cons_of_mem _ List.mem_cons_self, hle, hk.suffixed t' hle ht'⟩

/-- What fusing does to the tensor names of an imported netlist `g` that ends as `g'`: the
imported tensors bear pairwise distinct names and keep them, every tensor added bears a name
with a fusion suffix, and two distinct tensors of one name include an added one. -/
structure FusedNames (g g' : Netlist) : Prop where
  distinct : ∀ t t', t < g.tensors.size → t' < g.tensors.size →
    (g.tensor t).name = (g.tensor t').name → t = t'
  kept : NamesKept g g'
  clash : ∀ t t', t < g'.tensors.size → t' < g'.tensors.size → t ≠ t' →
    (g'.tensor t).name = (g'.tensor t').name →
    ∃ u ∈ [t, t'], g.tensors.size ≤ u ∧
      ∃ base suf, suf ∈ fusionSuffixes ∧ (g'.tensor u).name = base ++ suf

theorem NamesKept.fusedNames {g g' : Netlist} (hk : NamesKept g g')
    (hinj : ∀ t t', t < g.tensors.size → t' < g.tensors.size →
      (g.tensor t).name = (g.tensor t').name → t = t') : FusedNames g g' :=
  ⟨hinj, hk, fun _ _ ht ht' hne hname => hk.clash hinj ht ht' hne hname⟩

/-! ### Imported tensors -/

section Import

/-- Keeping the first copy of each element leaves no repeats. -/
theorem eraseDups_nodup {α : Type} [BEq α] [LawfulBEq α] : ∀ (l : List α), l.eraseDups.Nodup
  | [] => List.nodup_nil
  | a :: as => by
    rw [List.eraseDups_cons]
    refine List.nodup_cons.2 ⟨fun ha => ?_, eraseDups_nodup _⟩
    -- every copy of the head is filtered out of the rest
    simpa using List.mem_eraseDups.1 ha
  termination_by l => l.length
  decreasing_by exact Nat.lt_succ_of_le (List.length_filter_le _ _)

variable (d : GraphDef)

/-- The netlist of a model graph has one tensor per name of the graph, named by it: the nodes
appended add no tensor and rename none. -/
theorem ofGraphDef_tensors : (ofGraphDef d).tensors.size = (namesOf d).length ∧
    ∀ t (ht : t < (namesOf d).length), ((ofGraphDef d).tensor t).name = (namesOf d)[t] := by
  unfold ofGraphDef
  suffices hfold : ∀ (ns : List NodeDef) (acc : Netlist),
      (ns.foldl (fun acc n => (acc.addNode n.opType n.name n.attrsLenient
        (n.inputs.map (indexIn (namesOf d))) (n.outputs.map (indexIn (namesOf d)))).1)
          acc).tensors.size = acc.tensors.size ∧
      ∀ u, ((ns.foldl (fun acc n => (acc.addNode n.opType n.name n.attrsLenient
        (n.inputs.map (indexIn (namesOf d))) (n.outputs.map (indexIn (namesOf d)))).1)
          acc).tensor u).name = (acc.tensor u).name by
    refine ⟨?_, fun t ht => ?_⟩
    · rw [(hfold _ _).1]
      simp
    · -- the tensor of the base netlist at a name's index is named by it
      rw [(hfold _ _).2]
      simp [tensor, ht]
  intro ns
  induction ns with
  | nil => exact fun _ => ⟨rfl, fun _ => rfl⟩
  | cons n ns ih =>
    intro acc
    rw [List.foldl_cons]
    obtain ⟨hsize, hname⟩ := ih _
    exact ⟨hsize.trans (tensors_size_addNode _ _ _ _ _),
      fun u => (hname u).trans (name_addNode _ _ _ _ _ _ u)⟩

/-- Distinct imported tensors have distinct names. -/
theorem ofGraphDef_name_inj {t t' : Nat} (ht : t < (ofGraphDef d).tensors.size)
    (ht' : t' < (ofGraphDef d).tensors.size)
    (h : ((ofGraphDef d).tensor t).name = ((ofGraphDef d).tensor t').name) : t = t' := by
  obtain ⟨hsize, hname⟩ := ofGraphDef_tensors d
  rw [hsize] at ht ht'
  rw [hname t ht, hname t' ht'] at h
  exact (eraseDups_nodup _).getElem_inj_iff.1 h

end Import

end Netlist

namespace Fusion

open Netlist

/-! ### Builds -/

theorem layerNormBuild_namesKept (p : LayerNormPlan) (g : Netlist) :
    NamesKept g (layerNormBuild p g) := by
  simp only [layerNormBuild]
  exact ((((NamesKept.refl g).addTensor _ _ (by decide) _).addTensor _ _ (by decide) _).addTensor
    _ _ (by decide) _).addNode _ _ _ _ _

theorem attentionBuild_namesKept (p : AttentionPlan) (g : Netlist) :
    NamesKept g (attentionBuild p g) := by
  simp only [attentionBuild]
  exact (((NamesKept.refl g).addTensor _ _ (by decide) _).addTensor _ _ (by decide) _).addNode
    _ _ _ _ _

theorem logDivBuild_namesKept (p : LogDivPlan) (g : Netlist) : NamesKept g (logDivBuild p g) := by
  simp only [logDivBuild]
  exact (((((NamesKept.refl g).addTensor _ _ (by decide) _).addTensor _ _ (by decide) _).addNode
    _ _ _ _ _).addNode _ _ _ _ _).addNode _ _ _ _ _

theorem convBatchNormBuild_namesKept (p : ConvPlan) (g : Netlist) :
    NamesKept g (convBatchNormBuild p g) := by
  simp only [convBatchNormBuild]
  have hw := (NamesKept.refl g).addTensor (g.tensor p.weight).name "_fused" (by decide)
    (.constant (.array p.newWeight))
  -- the bias is named after the bias tensor, or after the convolution when there is none
  cases p.bias? with
  | some b => exact (hw.addTensor _ _ (by decide) _).addNode _ _ _ _ _
  | none =>
    rw [show p.conv.name ++ "_bias_fused" = (p.conv.name ++ "_bias") ++ "_fused" by
      rw [String.append_assoc]; rfl]
    exact (hw.addTensor _ _ (by decide) _).addNode _ _ _ _ _

end Fusion

/-! ### Runs -/

namespace Replacement

open Edit Netlist

/-- A fusion made of a preparation that only unlinks and a build that keeps names keeps
them. -/
theorem namesKept_of_prepare {β : Type} {names : List String} {prepare : Edit β}
    {build : β → Netlist → Netlist} (hk : Keeps names prepare)
    (hb : ∀ p g, NamesKept g (build p g)) {G G' : Netlist} {u : Unit}
    (h : (prepare >>= fun p => modify (build p)).exec G = (.ok u, G')) : NamesKept G G' := by
  obtain ⟨p, G₁, hp, rfl⟩ := Fusion.exec_prepare_build_ok h
  have hu : Unlinked names G G₁ := by simpa [hp] using hk G
  exact hu.namesKept.trans (hb p G₁)

/-- Carrying out a replacement keeps the names of the tensors there and names the tensors it
adds with fusion suffixes. -/
theorem edit_namesKept {r : Replacement} {G G' : Netlist} {ok : Bool}
    (h : r.edit.exec G = (.ok ok, G')) : NamesKept G G' := by
  unfold edit at h
  split at h
  -- each fusion runs and then reports `true`, and its preparation only unlinks
  case h_1 =>
    obtain ⟨-, u, h₁⟩ := exec_ran_eq_ok h
    exact namesKept_of_prepare (Fusion.convBatchNormPrepare_keeps r)
      Fusion.convBatchNormBuild_namesKept h₁
  case h_2 =>
    obtain ⟨-, u, h₁⟩ := exec_ran_eq_ok h
    exact namesKept_of_prepare (Fusion.layerNormPrepare_keeps r) Fusion.layerNormBuild_namesKept h₁
  case h_3 =>
    obtain ⟨-, u, h₁⟩ := exec_ran_eq_ok h
    exact namesKept_of_prepare (Fusion.attentionPrepare_keeps r) Fusion.attentionBuild_namesKept h₁
  case h_4 =>
    obtain ⟨-, u, h₁⟩ := exec_ran_eq_ok h
    exact namesKept_of_prepare (Fusion.logDivPrepare_keeps r) Fusion.logDivBuild_namesKept h₁
  case h_5 =>
    obtain ⟨-, rfl⟩ := exec_pure_eq_ok.1 h
    exact NamesKept.refl G

end Replacement

namespace Executor

open Netlist

/-- One replacement carried out by the executor keeps the names of its netlist's tensors:
the step lemma. -/
theorem execute_namesKept {e e' : Executor} {G : Netlist} {r : Replacement} {ok : Bool}
    (hg : e.graph = some G) (h : e.execute r = .ok (e', ok)) :
    ∃ G', e'.graph = some G' ∧ NamesKept G G' := by
  obtain ⟨G', hx, hdeclined, hdone⟩ := execute_eq_ok hg h
  cases ok with
  | false =>
    -- declined: the executor is as it was
    exact ⟨G, by rw [hdeclined rfl, hg], NamesKept.refl G⟩
  | true => exact ⟨G', hdone rfl, Replacement.edit_namesKept hx⟩

/-- A list of replacements carried out to its end carried out the first, then the rest from
the executor it left. -/
theorem executeAll_cons_ok {e e' : Executor} {r : Replacement} {rs : List Replacement}
    {ok : Bool} (h : e.executeAll (r :: rs) = .ok (e', ok)) :
    ∃ e₁ ok₁ ok₂, e.execute r = .ok (e₁, ok₁) ∧ e₁.executeAll rs = .ok (e', ok₂) ∧
      ok = (ok₁ && ok₂) := by
  rcases hx : e.execute r with f | ⟨e₁, ok₁⟩
  · simp [executeAll, hx, bind, Except.bind] at h
  · rcases hy : e₁.executeAll rs with f | ⟨e₂, ok₂⟩
    · simp [executeAll, hx, hy, bind, Except.bind] at h
    · simp only [executeAll, hx, hy, bind, Except.bind] at h
      obtain ⟨rfl, rfl⟩ := h
      exact ⟨e₁, ok₁, ok₂, rfl, hy, rfl⟩

/-- A list of replacements carried out in order keeps the names of the netlist's tensors:
the run lemma, by induction on the list from the step lemma. -/
theorem executeAll_namesKept {e e' : Executor} {G : Netlist} {rs : List Replacement} {ok : Bool}
    (hg : e.graph = some G) (h : e.executeAll rs = .ok (e', ok)) :
    ∃ G', e'.graph = some G' ∧ NamesKept G G' := by
  induction rs generalizing e G ok with
  | nil =>
    simp only [executeAll, Except.ok.injEq, Prod.mk.injEq] at h
    exact ⟨G, h.1 ▸ hg, NamesKept.refl G⟩
  | cons r rs ih =>
    obtain ⟨e₁, ok₁, ok₂, hx, hy, -⟩ := executeAll_cons_ok h
    obtain ⟨G₁, hg₁, hkept₁⟩ := execute_namesKept hg hx
    obtain ⟨G₂, hg₂, hkept₂⟩ := ih hg₁ hy
    exact ⟨G₂, hg₂, hkept₁.trans hkept₂⟩

end Executor

namespace Optimizer

/-- Loading a model leaves the executor with the netlist of the graph it read. -/
theorem load_graph {o o' : Optimizer} {files : FileTable} {path : String} {d : GraphDef}
    (h : o.load files path = .ok (o', d)) : o'.executor.graph = some (Netlist.ofGraphDef d) := by
  unfold load at h
  rcases hs : files.load path with f | stored
  · simp [hs, bind, Except.bind] at h
  · rcases hv : Dataflow.Graph.ofDef (namedGraph stored) with f | view
    · simp [hs, hv, bind, Except.bind] at h
    · simp only [hs, hv, bind, Except.bind, pure, Except.pure, Except.ok.injEq,
        Prod.mk.injEq] at h
      obtain ⟨rfl, rfl⟩ := h
      rfl

/-- Optimizing carries out a list of replacements: the executor it leaves is the end of a
run of the executor it was given. -/
theorem optimize_executeAll {o o' : Optimizer} {rep : Report} (h : o.optimize = .ok (o', rep)) :
    ∃ rs ok, o.executor.executeAll rs = .ok (o'.executor, ok) := by
  unfold optimize at h
  split at h
  · -- nothing loaded: nothing changes, as after no replacement
    obtain ⟨rfl, -⟩ := Prod.mk.inj (Except.ok.inj h)
    exact ⟨[], true, rfl⟩
  · split at h
    · cases h
    · split at h
      · cases h
      · rename_i e ok hrun
        obtain ⟨rfl, -⟩ := Prod.mk.inj (Except.ok.inj h)
        exact ⟨_, ok, hrun⟩

/-- After loading a model and optimizing it, the imported tensors bear distinct names and keep
them, every tensor a fusion added bears a suffixed name, and two distinct tensors of the
netlist that share a name include one that a fusion added. -/
theorem optimize_clash_is_fused {o o₁ o' : Optimizer} {files : FileTable} {path : String}
    {d : GraphDef} {rep : Report} (hl : o.load files path = .ok (o₁, d))
    (ho : o₁.optimize = .ok (o', rep)) :
    ∃ G', o'.executor.graph = some G' ∧ Netlist.FusedNames (Netlist.ofGraphDef d) G' := by
  obtain ⟨rs, ok, hrun⟩ := optimize_executeAll ho
  obtain ⟨G', hg', hkept⟩ := Executor.executeAll_namesKept (load_graph hl) hrun
  exact ⟨G', hg', hkept.fusedNames fun _ _ => Netlist.ofGraphDef_name_inj d⟩

end Optimizer

namespace Proofs

/-- `Log (a / b)` whose node is named `L` over a graph input already named `L_0_out`. -/
def clashGraph : GraphDef :=
  { nodes :=
      [{ opType := "Div", name := "D", inputs := ["L_0_out", "b"], outputs := ["c"], attributes := [] },
        { opType := "Log", name := "L", inputs := ["c"], outputs := ["y"], attributes := [] }],
    initializers := [],
    inputs := [⟨"L_0_out", "float64", some [.size 3]⟩, ⟨"b", "float32", some [.size 2]⟩],
    outputs := [⟨"y", "float32", some [.size 2]⟩], valueInfo := [] }

theorem clash_names_fused :
    ∃ o d o' rep, ({} : Optimizer).load (FileTable.ofList [("in.onnx", .document clashGraph)]) "in.onnx" = .ok (o, d) ∧
      o.optimize = .ok (o', rep) ∧
      ∃ G', o'.executor.graph = some G' ∧ Netlist.FusedNames (Netlist.ofGraphDef d) G' :=
  ⟨_, _, _, _, rfl, rfl, @Optimizer.optimize_clash_is_fused {} _ _
    (FileTable.ofList [("in.onnx", .document clashGraph)]) "in.onnx" _ _ rfl rfl⟩

/-- Optimizing `clashGraph` leaves two tensors named `L_0_out`, both in the graph: the
graph input and the output of the first new `Log`. -/
theorem clash_after_optimize :
    ∃ o d o' rep G', ({} : Optimizer).load (FileTable.ofList [("in.onnx", .document clashGraph)]) "in.onnx" = .ok (o, d) ∧
      o.optimize = .ok (o', rep) ∧ o'.executor.graph = some G' ∧
      0 ∈ G'.reachable ∧ 4 ∈ G'.reachable ∧ (G'.tensor 0).name = "L_0_out" ∧
      (G'.tensor 4).name = "L_0_out" :=
  ⟨_, _, _, _, _, rfl, rfl, rfl, by decide, by decide, rfl, rfl⟩

end Proofs

end OnnxFusion

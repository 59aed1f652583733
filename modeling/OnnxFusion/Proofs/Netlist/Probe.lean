import OnnxFusion.Netlist.Probe
import OnnxFusion.Proofs.Netlist.Freeze
import Mathlib.Data.List.Induction
/-!
# Exposing the outputs of the nodes that follow chosen operators

`Netlist.exposeOutputs` with an operator-type selector and no name list visits the nodes in
order; a node is chosen when one of its inputs is written by a node whose operator type is
selected (`Netlist.FedBy`). The first output of a chosen node takes the node's name and is
queued as a graph output unless it already is one; after the pass the queue is appended to
the graph outputs, and the chosen nodes' names are returned.

* `foldlM_any`: a fold that stops testing at the first hit computes `List.any`; so `fedBy`
  decides `FedBy` on a linked netlist (`fedBy_eq`), and on any netlist with the same nodes and
  producers (`fedBy_congr`).
* `Netlist.Renamed g g' name`: `g'` is `g` with every tensor `t` named `name t` and nothing
  else changed. `exposeStep_fed` and `exposeStep_unfed` are the step lemmas of the pass;
  `exposeLoop_spec` runs them over the first `k` nodes: the chosen ones so far are
  `(List.range k).filter (FedBy g O)`, their first outputs not yet graph outputs are queued
  in order, and each tensor bears `exposedName`, the name of the last chosen node whose first
  output it is.
* `exposeOutputs_byType`: with a non-empty selector and every chosen node writing something,
  the pass succeeds with the result `Exposed` describes. `probe_without_types` is the empty
  selector, which the pass refuses as soon as there is a node to visit.
-/

set_option autoImplicit false

namespace OnnxFusion

namespace Netlist

/-! ### Which nodes are chosen -/

/-- Node `n` reads a tensor that some node with an operator type in `O` writes. -/
def FedBy (g : Netlist) (O : List String) (n : Nat) : Prop :=
  ∃ t ∈ (g.node n).inputs, ∃ p < g.nodes.size, t ∈ (g.node p).outputs ∧ (g.node p).op ∈ O

instance (g : Netlist) (O : List String) : DecidablePred (FedBy g O) := fun n =>
  inferInstanceAs (Decidable (∃ t ∈ (g.node n).inputs, ∃ p < g.nodes.size,
    t ∈ (g.node p).outputs ∧ (g.node p).op ∈ O))

/-- A fold that answers `true` once some test has, and runs the test on each item until then,
is `List.any` of the tests. -/
theorem foldlM_any {α : Type} (f : α → Outcome Bool) (F : α → Bool) :
    ∀ (l : List α), (∀ x ∈ l, f x = .ok (F x)) → ∀ b : Bool,
      l.foldlM (fun hit x => if hit then pure true else f x) b = .ok (b || l.any F)
  | [], _, b => by simp [pure, Except.pure]
  | x :: l, hf, b => by
    rw [List.foldlM_cons]
    cases b with
    | true =>
      simp only [if_true, pure, Except.pure, bind, Except.bind, Bool.true_or]
      exact foldlM_any f F l (fun y hy => hf y (List.mem_cons_of_mem _ hy)) true
    | false =>
      simp only [Bool.false_eq_true, if_false, hf x List.mem_cons_self, bind, Except.bind,
        Bool.false_or, List.any_cons]
      exact foldlM_any f F l (fun y hy => hf y (List.mem_cons_of_mem _ hy)) (F x)

/-- On a linked netlist the pass's test decides `FedBy`: the producers kept on a tensor are
the nodes that write it. -/
theorem fedBy_eq {g : Netlist} (hg : g.Linked) (O : List String) (n : Nat) :
    g.fedBy n (.list (O.map .str)) = .ok (decide (FedBy g O n)) := by
  unfold fedBy
  rw [foldlM_any _ (fun t => (g.tensor t).producers.any fun p => O.contains (g.node p).op) _
    (fun t _ => foldlM_any _ _ _ (fun p _ => Value.holdsText_texts O _) false) false]
  simp only [Bool.false_or]
  congr 1
  rw [Bool.eq_iff_iff, decide_eq_true_iff]
  simp only [List.any_eq_true, List.contains_iff_mem, FedBy]
  constructor
  · rintro ⟨t, ht, p, hp, hop⟩
    have hlink : p ∈ (g.tensor t).links .producers := hp
    exact ⟨t, ht, p, hg.links_lt hlink, hg.mem_links_iff.1 hlink, hop⟩
  · rintro ⟨t, ht, p, -, hp, hop⟩
    have hend : t ∈ (g.node p).ends .producers := hp
    exact ⟨t, ht, p, hg.mem_links_iff.2 hend, hop⟩

/-- The pass's test reads only the nodes and the producers kept on tensors. -/
theorem fedBy_congr {g g' : Netlist} (hnodes : g'.nodes = g.nodes)
    (hprod : ∀ t, (g'.tensor t).producers = (g.tensor t).producers) (n : Nat) (v : Value) :
    g'.fedBy n v = g.fedBy n v := by
  have hnode : g'.node = g.node := funext fun m => by simp [node, hnodes]
  simp only [fedBy, hnode, hprod]

/-! ### Renaming tensors -/

/-- `g'` is `g` with each tensor `t` named `name t`, and nothing else changed. -/
structure Renamed (g g' : Netlist) (name : Nat → String) : Prop where
  nodes_eq : g'.nodes = g.nodes
  inputs_eq : g'.inputs = g.inputs
  outputs_eq : g'.outputs = g.outputs
  tensors_size : g'.tensors.size = g.tensors.size
  tensor_eq : ∀ t < g.tensors.size, g'.tensor t = { g.tensor t with name := name t }

theorem Renamed.refl (g : Netlist) : Renamed g g fun t => (g.tensor t).name :=
  ⟨rfl, rfl, rfl, rfl, fun _ _ => rfl⟩

/-- Renaming one tensor of the netlist. -/
theorem Renamed.rename {g g' : Netlist} {name : Nat → String} (h : Renamed g g' name) {u : Nat}
    (hu : u < g.tensors.size) (s : String) :
    Renamed g (g'.rename u s) fun t => if t = u then s else name t where
  nodes_eq := h.nodes_eq
  inputs_eq := h.inputs_eq
  outputs_eq := h.outputs_eq
  tensors_size := by simp [Netlist.rename, h.tensors_size]
  tensor_eq t ht := by
    simp only [Netlist.rename, tensor_modifyTensor, h.tensors_size]
    by_cases htu : t = u
    · subst htu
      simp [ht, h.tensor_eq t ht]
    · simp [Ne.symm htu, htu, h.tensor_eq t ht]

/-- Renaming keeps the producers kept on every tensor, so the pass's test reads the same. -/
theorem Renamed.fedBy_eq {g g' : Netlist} {name : Nat → String} (h : Renamed g g' name)
    (n : Nat) (v : Value) : g'.fedBy n v = g.fedBy n v := by
  refine fedBy_congr h.nodes_eq (fun t => ?_) n v
  by_cases ht : t < g.tensors.size
  · rw [h.tensor_eq t ht]
  · rw [tensor_of_le (by rw [h.tensors_size]; omega), tensor_of_le (by omega)]

/-- The name tensor `t` bears once the first output of each node of `ns`, in order, has taken
that node's name: the name of the last such node whose first output it is, or its own. -/
def exposedName (g : Netlist) (ns : List Nat) (t : Nat) : String :=
  ns.foldl (fun s n => if (g.node n).outputs.head? = some t then (g.node n).name else s)
    (g.tensor t).name

theorem exposedName_concat (g : Netlist) (ns : List Nat) (n t : Nat) :
    g.exposedName (ns ++ [n]) t =
      if (g.node n).outputs.head? = some t then (g.node n).name else g.exposedName ns t := by
  simp [exposedName, List.foldl_append]

/-- A tensor that is the first output of no node of `ns` keeps its own name. -/
theorem exposedName_of_forall_ne (g : Netlist) {ns : List Nat} {t : Nat}
    (h : ∀ n ∈ ns, (g.node n).outputs.head? ≠ some t) : g.exposedName ns t = (g.tensor t).name := by
  induction ns using List.reverseRecOn with
  | nil => rfl
  | append_singleton ns n ih =>
    rw [exposedName_concat, if_neg (h n (by simp)), ih fun m hm => h m (by simp [hm])]

/-- A tensor that is the first output of exactly one node of `ns` bears that node's name. -/
theorem exposedName_of_unique (g : Netlist) {ns : List Nat} {n t : Nat} (hn : n ∈ ns)
    (hhead : (g.node n).outputs.head? = some t)
    (huniq : ∀ m ∈ ns, (g.node m).outputs.head? = some t → m = n) :
    g.exposedName ns t = (g.node n).name := by
  induction ns using List.reverseRecOn with
  | nil => simp at hn
  | append_singleton ns m ih =>
    rw [exposedName_concat]
    by_cases hm : (g.node m).outputs.head? = some t
    · rw [if_pos hm, huniq m (by simp) hm]
    · -- `m` is not `n`, so `n` is among the earlier nodes
      have hnm : n ≠ m := fun he => hm (he ▸ hhead)
      have hn' : n ∈ ns := by simpa [hnm] using hn
      rw [if_neg hm, ih hn' fun k hk => huniq k (by simp [hk])]

/-! ### The pass -/

/-- One node of `exposeOutputs`. -/
def exposeStep (opType names : Value) (acc : Netlist × List Nat × List String) (n : Nat) :
    Outcome (Netlist × List Nat × List String) := do
  let (g, queued, chosen) := acc
  if !names.isFalsy then
    if ← names.holdsText (g.node n).name then
      let (g, queued) ← exposeFirstOutput g n queued
      pure (g, queued, chosen)
    else pure acc
  else
    if opType.isFalsy then throw .checkFailed
    if ← g.fedBy n opType then
      let (g, queued) ← exposeFirstOutput g n queued
      pure (g, queued, chosen ++ [(g.node n).name])
    else pure acc

theorem exposeOutputs_eq (g : Netlist) (opType names : Value) :
    g.exposeOutputs opType names = (do
      if !opType.isFalsy && !names.isFalsy then throw .bothSelectors
      let (g, queued, chosen) ← (List.range g.nodes.size).foldlM (exposeStep opType names) (g, [], [])
      pure ({ g with outputs := g.outputs ++ queued }, chosen)) :=
  rfl

/-- A non-empty list of texts is a selector that is not falsy. -/
theorem isFalsy_texts {O : List String} (hO : O ≠ []) :
    (Value.list (O.map .str)).isFalsy = false := by
  cases O with
  | nil => exact absurd rfl hO
  | cons _ _ => rfl

section Step

variable {g gk : Netlist} {O : List String} {names : Value} {name : Nat → String}
  {queued : List Nat} {chosen : List String} {n : Nat}

/-- A node the selector feeds: its first output takes its name and is queued unless it is a
graph output, and its name is recorded. -/
theorem exposeStep_fed (hg : g.Linked) (hO : O ≠ []) (hnames : names.isFalsy = true)
    (h : Renamed g gk name) (hfed : FedBy g O n) {out : Nat}
    (hout : (g.node n).outputs.head? = some out) :
    exposeStep (.list (O.map .str)) names (gk, queued, chosen) n =
      .ok (gk.rename out (g.node n).name,
        if out ∈ g.outputs then queued else queued ++ [out], chosen ++ [(g.node n).name]) := by
  have hnode : gk.node = g.node := funext fun m => by simp [node, h.nodes_eq]
  have htest : gk.fedBy n (.list (O.map .str)) = .ok true := by
    rw [h.fedBy_eq, fedBy_eq hg, decide_eq_true hfed]
  simp only [exposeStep, hnames, Bool.not_true, Bool.false_eq_true, if_false, isFalsy_texts hO, htest,
    bind, Except.bind, if_true, exposeFirstOutput, hnode, hout, pure, Except.pure]
  simp [Netlist.rename, h.outputs_eq, hnode]

/-- A node the selector does not feed is passed over. -/
theorem exposeStep_unfed (hg : g.Linked) (hO : O ≠ []) (hnames : names.isFalsy = true)
    (h : Renamed g gk name) (hfed : ¬ FedBy g O n) :
    exposeStep (.list (O.map .str)) names (gk, queued, chosen) n = .ok (gk, queued, chosen) := by
  have htest : gk.fedBy n (.list (O.map .str)) = .ok false := by
    rw [h.fedBy_eq, fedBy_eq hg, decide_eq_false hfed]
  simp only [exposeStep, hnames, Bool.not_true, Bool.false_eq_true, if_false, isFalsy_texts hO, htest,
    bind, Except.bind, pure, Except.pure]

end Step

/-- The nodes the operator types `O` choose, in node order. -/
def fedNodes (g : Netlist) (O : List String) : List Nat :=
  (List.range g.nodes.size).filter (FedBy g O ·)

section Loop

variable {g : Netlist} {O : List String} {names : Value}

/-- The pass over the first `k` nodes: the nodes chosen so far are those of the first `k`
that `O` feeds; their first outputs that are not graph outputs are queued in order; and each
tensor bears the name `exposedName` gives for the chosen nodes so far. -/
theorem exposeLoop_spec (hg : g.Linked) (hO : O ≠ []) (hnames : names.isFalsy = true)
    (hout : ∀ n < g.nodes.size, FedBy g O n → (g.node n).outputs ≠ []) :
    ∀ k ≤ g.nodes.size, ∃ gk,
      (List.range k).foldlM (exposeStep (.list (O.map .str)) names) (g, [], []) =
        .ok (gk, (((List.range k).filter (FedBy g O ·)).filterMap
            fun n => (g.node n).outputs.head?).filter (· ∉ g.outputs),
          ((List.range k).filter (FedBy g O ·)).map fun n => (g.node n).name) ∧
      Renamed g gk (g.exposedName ((List.range k).filter (FedBy g O ·)))
  | 0, _ => ⟨g, rfl, Renamed.refl g⟩
  | k + 1, hk => by
    obtain ⟨gk, hrun, hren⟩ := exposeLoop_spec hg hO hnames hout k (by omega)
    rw [List.range_succ, List.foldlM_append, hrun]
    simp only [List.foldlM_cons, List.foldlM_nil, bind, Except.bind]
    by_cases hfed : FedBy g O k
    · -- a chosen node: its first output exists, is a tensor of the netlist, and is renamed
      obtain ⟨out, hhead⟩ : ∃ out, (g.node k).outputs.head? = some out :=
        Option.isSome_iff_exists.1 (List.isSome_head?.2 (hout k (by omega) hfed))
      have hend : out ∈ (g.node k).ends .producers := List.mem_of_mem_head? hhead
      have hlt : out < g.tensors.size := hg.ends_lt hend
      rw [exposeStep_fed hg hO hnames hren hfed hhead]
      refine ⟨gk.rename out (g.node k).name, ?_, ?_⟩
      · by_cases hmem : out ∈ g.outputs <;>
          simp [List.filter_append, List.filterMap_append, hfed, hhead, hmem, pure, Except.pure]
      · have hren' := hren.rename hlt (g.node k).name
        have hname : (fun t => if t = out then (g.node k).name else
            g.exposedName ((List.range k).filter (FedBy g O ·)) t) =
            g.exposedName ((List.range k ++ [k]).filter (FedBy g O ·)) := by
          funext t
          rw [List.filter_append, List.filter_singleton, decide_eq_true hfed, cond_true,
            exposedName_concat, hhead]
          by_cases ht : t = out
          · simp [ht]
          · simp [ht, Ne.symm ht]
        rw [← hname]
        exact hren'
    · rw [exposeStep_unfed hg hO hnames hren hfed]
      refine ⟨gk, ?_, ?_⟩
      · simp [List.filter_append, hfed, pure, Except.pure]
      · rw [List.filter_append, List.filter_singleton, decide_eq_false hfed, cond_false,
          List.append_nil]
        exact hren

end Loop

/-! ### The whole pass -/

/-- What exposing, by the operator types `O`, the outputs of the nodes of `g` gives: the names
of the chosen nodes in node order; the same nodes and graph inputs; the graph outputs followed
by the first output of each chosen node that was not a graph output, in order; and each
tensor named as `exposedName` says, with all else about it unchanged. -/
structure Exposed (g : Netlist) (O : List String) (g' : Netlist) (chosen : List String) :
    Prop where
  chosen_eq : chosen = (g.fedNodes O).map fun n => (g.node n).name
  nodes_eq : g'.nodes = g.nodes
  inputs_eq : g'.inputs = g.inputs
  outputs_eq : g'.outputs = g.outputs ++
    ((g.fedNodes O).filterMap fun n => (g.node n).outputs.head?).filter (· ∉ g.outputs)
  tensors_size : g'.tensors.size = g.tensors.size
  tensor_eq : ∀ t < g.tensors.size,
    g'.tensor t = { g.tensor t with name := g.exposedName (g.fedNodes O) t }

namespace Exposed

variable {g g' : Netlist} {O : List String} {chosen : List String}

/-- The outputs stay free of repeats when they were and the chosen nodes' first outputs are
pairwise distinct; two chosen nodes sharing a first output queue it twice. -/
theorem outputs_nodup (h : Exposed g O g' chosen) (hnd : g.outputs.Nodup)
    (hfirst : ((g.fedNodes O).filterMap fun n => (g.node n).outputs.head?).Nodup) :
    g'.outputs.Nodup := by
  rw [h.outputs_eq, List.nodup_append]
  refine ⟨hnd, hfirst.filter _, fun a ha b hb hab => ?_⟩
  have hb' : b ∉ g.outputs := by simpa using (List.mem_filter.1 hb).2
  exact hb' (hab ▸ ha)

/-- The first output of a chosen node that no other chosen node shares bears the node's
name. -/
theorem name_of_unique (h : Exposed g O g' chosen) (hg : g.Linked) {n t : Nat}
    (hn : n ∈ g.fedNodes O) (hhead : (g.node n).outputs.head? = some t)
    (huniq : ∀ m ∈ g.fedNodes O, (g.node m).outputs.head? = some t → m = n) :
    (g'.tensor t).name = (g.node n).name := by
  have hlt : t < g.tensors.size := hg.ends_lt (show t ∈ (g.node n).ends .producers from
    List.mem_of_mem_head? hhead)
  rw [h.tensor_eq t hlt]
  exact g.exposedName_of_unique hn hhead huniq

end Exposed

/-- Exposing node outputs by a non-empty list of operator types, with no name list, succeeds
on a linked netlist whose chosen nodes each write a tensor, with the result `Exposed`
describes. -/
theorem exposeOutputs_exposed {g : Netlist} (hg : g.Linked) {O : List String} (hO : O ≠ [])
    {names : Value} (hnames : names.isFalsy = true)
    (hout : ∀ n < g.nodes.size, FedBy g O n → (g.node n).outputs ≠ []) :
    ∃ g' chosen, g.exposeOutputs (.list (O.map .str)) names = .ok (g', chosen) ∧
      Exposed g O g' chosen := by
  obtain ⟨gN, hrun, hren⟩ := exposeLoop_spec hg hO hnames hout g.nodes.size (Nat.le_refl _)
  simp only [exposeOutputs_eq, hnames, Bool.not_true, Bool.and_false, Bool.false_eq_true,
    if_false, hrun]
  refine ⟨_, _, rfl, rfl, hren.nodes_eq, hren.inputs_eq, ?_, hren.tensors_size, hren.tensor_eq⟩
  show gN.outputs ++ _ = _
  rw [hren.outputs_eq]
  rfl

/-- Exposing node outputs by a non-empty list of operator types, with no name list, succeeds
on a linked netlist whose chosen nodes each write a tensor, with the result `Exposed`
describes; the outputs stay free of repeats when they were and the chosen nodes' first
outputs are pairwise distinct. -/
theorem exposeOutputs_byType {g : Netlist} (hg : g.Linked) {O : List String} (hO : O ≠ [])
    {names : Value} (hnames : names.isFalsy = true)
    (hout : ∀ n < g.nodes.size, FedBy g O n → (g.node n).outputs ≠ []) :
    ∃ g' chosen, g.exposeOutputs (.list (O.map .str)) names = .ok (g', chosen) ∧
      Exposed g O g' chosen ∧
      (g.outputs.Nodup → ((g.fedNodes O).filterMap fun n => (g.node n).outputs.head?).Nodup →
        g'.outputs.Nodup) := by
  obtain ⟨g', chosen, hrun, hexposed⟩ := exposeOutputs_exposed hg hO hnames hout
  exact ⟨g', chosen, hrun, hexposed, hexposed.outputs_nodup⟩

/-- `Relu` of the graph input `x`, then `Abs` of the result. -/
def reluAbsModel : GraphDef where
  nodes := [⟨"Relu", "R", ["x"], ["t"], []⟩, ⟨"Abs", "A", ["t"], ["u"], []⟩]
  initializers := []
  inputs := [⟨"x", "float32", some [.size 1]⟩]
  outputs := [⟨"u", "float32", some [.size 1]⟩]
  valueInfo := []

theorem reluAbsModel_exposed :
    (ofGraphDef reluAbsModel).Linked ∧ ["Relu"] ≠ [] ∧ Value.none.isFalsy = true ∧
      (∀ n < (ofGraphDef reluAbsModel).nodes.size, FedBy (ofGraphDef reluAbsModel) ["Relu"] n →
        ((ofGraphDef reluAbsModel).node n).outputs ≠ []) ∧
      ∃ g' chosen, (ofGraphDef reluAbsModel).exposeOutputs (.list (["Relu"].map .str)) .none =
          .ok (g', chosen) ∧ Exposed (ofGraphDef reluAbsModel) ["Relu"] g' chosen ∧
        ((ofGraphDef reluAbsModel).outputs.Nodup →
          (((ofGraphDef reluAbsModel).fedNodes ["Relu"]).filterMap
            fun n => ((ofGraphDef reluAbsModel).node n).outputs.head?).Nodup → g'.outputs.Nodup) :=
  ⟨ofGraphDef_linked reluAbsModel, by decide, rfl, by decide,
    exposeOutputs_byType (ofGraphDef_linked reluAbsModel) (by decide) rfl (by decide)⟩

/-- A `Relu` of the graph input and a reader of it that writes nothing. -/
def outputlessReaderModel : GraphDef where
  nodes := [⟨"Relu", "R", ["x"], ["t"], []⟩, ⟨"Identity", "S", ["t"], [], []⟩]
  initializers := []
  inputs := [⟨"x", "float32", some [.size 1]⟩]
  outputs := [⟨"t", "float32", some [.size 1]⟩]
  valueInfo := []

/-- Two `Abs` nodes reading one `Relu` and writing one tensor. -/
def sharedOutputModel : GraphDef where
  nodes := [⟨"Relu", "R", ["x"], ["t"], []⟩, ⟨"Abs", "A1", ["t"], ["u"], []⟩,
    ⟨"Abs", "A2", ["t"], ["u"], []⟩]
  initializers := []
  inputs := [⟨"x", "float32", some [.size 1]⟩]
  outputs := []
  valueInfo := []

/-- An `Abs` reading a `Relu`, named like the graph input. -/
def inputNamedNodeModel : GraphDef where
  nodes := [⟨"Relu", "R", ["x"], ["t"], []⟩, ⟨"Abs", "x", ["t"], ["u"], []⟩]
  initializers := []
  inputs := [⟨"x", "float32", some [.size 1]⟩]
  outputs := []
  valueInfo := []

/-- A run whose result evaluation shows to have a property returns such a result. -/
theorem exists_ok_of_decide {α : Type} {E : Outcome α} {P : α → Prop} [DecidablePred P]
    (h : E.toOption.map (fun r => decide (P r)) = some true) : ∃ r, E = .ok r ∧ P r := by
  cases E with
  | error e => simp [Except.toOption] at h
  | ok r =>
    simp only [Except.toOption, Option.map_some, Option.some.injEq, decide_eq_true_eq] at h
    exact ⟨r, rfl, h⟩

/-- A run that evaluation shows to fail with a fault fails with it. -/
theorem eq_error_of_decide {α : Type} {E : Outcome α} {f : Fault}
    (h : (match E with | .error e => decide (e = f) | .ok _ => false) = true) :
    E = .error f := by
  cases E with
  | error e => rw [of_decide_eq_true h]
  | ok r => simp at h

/-- Where exposing by operator type leaves what it is taken to do. With no operator type and
no name the pass fails its check at the first node instead of returning an empty list; a
chosen node that writes nothing has no first output; two chosen nodes sharing their first
output queue it twice; and a chosen node named like another tensor gives two tensors of a
model whose tensor names were distinct the same name. -/
theorem probe_faults_and_clashes :
    (ofGraphDef reluAbsModel).exposeOutputs (.list []) .none = .error .checkFailed ∧
    (ofGraphDef outputlessReaderModel).exposeOutputs (.list [.str "Relu"]) .none =
      .error .indexOutOfRange ∧
    (∃ g' chosen, (ofGraphDef sharedOutputModel).exposeOutputs (.list [.str "Relu"]) .none =
      .ok (g', chosen) ∧ chosen = ["A1", "A2"] ∧ ¬ g'.outputs.Nodup) ∧
    ((ofGraphDef inputNamedNodeModel).tensors.toList.map (·.name)).Nodup ∧
    ∃ g' chosen, (ofGraphDef inputNamedNodeModel).exposeOutputs (.list [.str "Relu"]) .none =
      .ok (g', chosen) ∧ chosen = ["x"] ∧ ¬ (g'.tensors.toList.map (·.name)).Nodup := by
  -- the runs read operator types through text membership, which only the kernel evaluates
  refine ⟨eq_error_of_decide (by decide +kernel), eq_error_of_decide (by decide +kernel), ?_,
    by decide, ?_⟩
  · obtain ⟨r, hr, hP⟩ : ∃ r : Netlist × List String,
        (ofGraphDef sharedOutputModel).exposeOutputs (.list [.str "Relu"]) .none = .ok r ∧
          r.2 = ["A1", "A2"] ∧ ¬ r.1.outputs.Nodup :=
      exists_ok_of_decide (by decide +kernel)
    exact ⟨r.1, r.2, hr, hP⟩
  · obtain ⟨r, hr, hP⟩ : ∃ r : Netlist × List String,
        (ofGraphDef inputNamedNodeModel).exposeOutputs (.list [.str "Relu"]) .none = .ok r ∧
          r.2 = ["x"] ∧ ¬ (r.1.tensors.toList.map (·.name)).Nodup :=
      exists_ok_of_decide (by decide +kernel)
    exact ⟨r.1, r.2, hr, hP⟩

end Netlist

end OnnxFusion

import OnnxFusion.Proofs.Netlist.Linked
/-!
# Netlists that only grow

A fusion builds by appending: new tensors, each without links, and new nodes, each linked to
the tensors it reads and writes. `Netlist.Grown g g'` says what such building keeps:

* the tensors and nodes of `g` are still there, with the same graph inputs and outputs;
* every old node is as it was, and every old tensor keeps its name and value;
* on each side of an old tensor the old list stays in front and only new nodes follow it.

Appending a node renames no tensor and changes no value (`name_addNode`, `payload_addNode`).
`Grown.addTensor` and `Grown.addNode` are the step lemmas: growing further from a grown
netlist by one tensor or one node is still growth, so a whole build is growth by applying
them down its chain of additions (`Grown.refl` at the start). `Netlist.Joined g side n t`
says that node `n` and tensor `t` are linked on both sides; `joined_addNode` gives the links
of an appended node, and `Grown.joined` keeps old links joined under growth.
-/

set_option autoImplicit false

namespace OnnxFusion

namespace Netlist

/-- `g'` is `g` with tensors and nodes appended and new nodes put last on sides of old
tensors. -/
structure Grown (g g' : Netlist) : Prop where
  tensors_size : g.tensors.size ≤ g'.tensors.size
  nodes_size : g.nodes.size ≤ g'.nodes.size
  inputs_eq : g'.inputs = g.inputs
  outputs_eq : g'.outputs = g.outputs
  name_eq : ∀ t < g.tensors.size, (g'.tensor t).name = (g.tensor t).name
  payload_eq : ∀ t < g.tensors.size, (g'.tensor t).payload = (g.tensor t).payload
  /-- On each side of an old tensor the old list stays in front and new nodes follow. -/
  links : ∀ side, ∀ t < g.tensors.size, ∃ added,
    (g'.tensor t).links side = (g.tensor t).links side ++ added ∧
      ∀ n ∈ added, g.nodes.size ≤ n ∧ n < g'.nodes.size
  node_eq : ∀ n < g.nodes.size, g'.node n = g.node n

/-- The name and value of a tensor are untouched by linking nodes to it. -/
theorem tensor_foldl_linkTensor (side : Side) (n u : Nat) :
    ∀ (ts : List Nat) (g : Netlist),
      ((ts.foldl (fun acc t => acc.linkTensor side t n) g).tensor u).name = (g.tensor u).name ∧
      ((ts.foldl (fun acc t => acc.linkTensor side t n) g).tensor u).payload = (g.tensor u).payload
  | [], _ => ⟨rfl, rfl⟩
  | t :: ts, g => by
    rw [List.foldl_cons]
    obtain ⟨h₁, h₂⟩ := tensor_foldl_linkTensor side n u ts (g.linkTensor side t n)
    rw [h₁, h₂]
    simp only [linkTensor, tensor_modifyTensor]
    split <;> simp

section AddNode

variable (g : Netlist) (op name : String) (attrs : Record) (ins outs : List Nat) (u : Nat)

/-- Appending a node renames no tensor. -/
theorem name_addNode : ((g.addNode op name attrs ins outs).1.tensor u).name = (g.tensor u).name := by
  rw [addNode_eq, (tensor_foldl_linkTensor _ _ _ _ _).1, (tensor_foldl_linkTensor _ _ _ _ _).1]
  rfl

/-- Appending a node changes no tensor's value. -/
theorem payload_addNode :
    ((g.addNode op name attrs ins outs).1.tensor u).payload = (g.tensor u).payload := by
  rw [addNode_eq, (tensor_foldl_linkTensor _ _ _ _ _).2, (tensor_foldl_linkTensor _ _ _ _ _).2]
  rfl

end AddNode

namespace Grown

variable {g g' g'' : Netlist}

@[refl] theorem refl (g : Netlist) : Grown g g where
  tensors_size := Nat.le_refl _
  nodes_size := Nat.le_refl _
  inputs_eq := rfl
  outputs_eq := rfl
  name_eq _ _ := rfl
  payload_eq _ _ := rfl
  links _ _ _ := ⟨[], by simp, by simp⟩
  node_eq _ _ := rfl

theorem trans (h₁ : Grown g g') (h₂ : Grown g' g'') : Grown g g'' where
  tensors_size := Nat.le_trans h₁.tensors_size h₂.tensors_size
  nodes_size := Nat.le_trans h₁.nodes_size h₂.nodes_size
  inputs_eq := h₂.inputs_eq.trans h₁.inputs_eq
  outputs_eq := h₂.outputs_eq.trans h₁.outputs_eq
  name_eq t ht := (h₂.name_eq t (Nat.lt_of_lt_of_le ht h₁.tensors_size)).trans (h₁.name_eq t ht)
  payload_eq t ht :=
    (h₂.payload_eq t (Nat.lt_of_lt_of_le ht h₁.tensors_size)).trans (h₁.payload_eq t ht)
  links side t ht := by
    obtain ⟨added₁, heq₁, hnew₁⟩ := h₁.links side t ht
    obtain ⟨added₂, heq₂, hnew₂⟩ := h₂.links side t (Nat.lt_of_lt_of_le ht h₁.tensors_size)
    refine ⟨added₁ ++ added₂, by rw [heq₂, heq₁, List.append_assoc], fun n hn => ?_⟩
    -- a node added by either step is past the old nodes and among the last ones
    rcases List.mem_append.1 hn with hn | hn
    · obtain ⟨hlo, hhi⟩ := hnew₁ n hn
      exact ⟨hlo, Nat.lt_of_lt_of_le hhi h₂.nodes_size⟩
    · obtain ⟨hlo, hhi⟩ := hnew₂ n hn
      exact ⟨Nat.le_trans h₁.nodes_size hlo, hhi⟩
  node_eq n hn := (h₂.node_eq n (Nat.lt_of_lt_of_le hn h₁.nodes_size)).trans (h₁.node_eq n hn)

/-- Appending a tensor is growth. -/
theorem addTensor (h : Grown g g') (name : String) (p : Payload) :
    Grown g (g'.addTensor name p).1 := by
  refine h.trans
    { tensors_size := by simp
      nodes_size := by simp
      inputs_eq := rfl
      outputs_eq := rfl
      name_eq := fun t ht => ?_
      payload_eq := fun t ht => ?_
      links := fun side t ht => ⟨[], ?_, by simp⟩
      node_eq := fun _ _ => rfl }
  all_goals
    -- an old tensor is not the new one
    rw [tensor_addTensor, if_neg (Nat.ne_of_lt ht)]
  simp

/-- Appending a node is growth: old tensors gain the new node, last, on their sides. -/
theorem addNode (h : Grown g g') (op name : String) (attrs : Record) (ins outs : List Nat) :
    Grown g (g'.addNode op name attrs ins outs).1 := by
  refine h.trans
    { tensors_size := by simp
      nodes_size := by simp
      inputs_eq := by simp
      outputs_eq := by simp
      name_eq := fun t _ => name_addNode g' op name attrs ins outs t
      payload_eq := fun t _ => payload_addNode g' op name attrs ins outs t
      links := fun side t ht => ?_
      node_eq := fun m hm => ?_ }
  · -- the new node, once per time it holds the tensor on that side
    rw [links_addNode, if_pos ht]
    refine ⟨_, rfl, fun n hn => ?_⟩
    rw [List.eq_of_mem_replicate hn]
    simp
  · rw [node_addNode, if_neg (Nat.ne_of_lt hm)]

end Grown

/-! ### Joined nodes and tensors -/

/-- Node `n` holds tensor `t` on one side (as an input or an output) and `t` lists `n` on
the matching side (among its consumers or producers). -/
def Joined (g : Netlist) (side : Side) (n t : Nat) : Prop :=
  t ∈ (g.node n).ends side ∧ n ∈ (g.tensor t).links side

/-- An appended node is joined to every tensor of the netlist it reads or writes. -/
theorem joined_addNode {g : Netlist} {op name : String} {attrs : Record} {ins outs : List Nat}
    {side : Side} {t : Nat} (ht : t ∈ (⟨op, name, attrs, ins, outs⟩ : NetNode).ends side)
    (hlt : t < g.tensors.size) : Joined (g.addNode op name attrs ins outs).1 side g.nodes.size t := by
  refine ⟨?_, ?_⟩
  · rw [node_addNode, if_pos rfl]
    exact ht
  · rw [links_addNode, if_pos hlt]
    refine List.mem_append_right _ (List.mem_replicate.2 ⟨?_, rfl⟩)
    exact Nat.ne_of_gt (List.count_pos_iff.2 ht)

/-- Growth keeps an old node joined to an old tensor. -/
theorem Grown.joined {g g' : Netlist} (h : Grown g g') {side : Side} {n t : Nat}
    (hn : n < g.nodes.size) (ht : t < g.tensors.size) (hj : Joined g side n t) :
    Joined g' side n t := by
  obtain ⟨hend, hlink⟩ := hj
  obtain ⟨added, heq, -⟩ := h.links side t ht
  refine ⟨?_, ?_⟩
  · rw [h.node_eq n hn]
    exact hend
  · rw [heq]
    exact List.mem_append_left _ hlink

end Netlist

end OnnxFusion

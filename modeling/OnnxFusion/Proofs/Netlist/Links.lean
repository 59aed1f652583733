import OnnxFusion.Fusion.Basic
/-!
# Taking links away from a netlist

A fusion first unlinks the matched nodes from the tensors it replaces, by name: on one side
of a tensor it drops every node, of a snapshot of that side, whose name is one of the
matched nodes' names. This module says what such unlinking can change.

* `tensor_modifyTensor`, `node_modifyNode`: reading after an update of one object.
* `Netlist.Unlinked names g g'`: `g'` is `g` with some links of nodes named in `names` taken
  away. Nothing is added, every tensor keeps its name and value, every node its name,
  operator and attributes; a node of another name keeps all its links; on each side of a
  tensor the nodes of other names all stay, in order. It is reflexive and transitive
  (`Unlinked.refl`, `Unlinked.trans`).
* `dropLink_unlinked`: dropping one link of a named node is such a change.
* `unlink_unlinked`, `links_unlink`: unlinking a tensor's side is such a change, and leaves on
  that side exactly the nodes of other names, in order: the fold over the snapshot drops
  one occurrence per named occurrence, and a named node never stands before the point the
  fold has reached (`links_foldl_unlink`).
* `Unlinked.links_isOther`: a side that holds only nodes of other names keeps holding only
  such nodes.
-/

set_option autoImplicit false

namespace OnnxFusion

namespace NetTensor

@[simp] theorem name_withLinks (x : NetTensor) (side : Side) (ns : List Nat) :
    (x.withLinks side ns).name = x.name := by
  cases side <;> rfl

@[simp] theorem payload_withLinks (x : NetTensor) (side : Side) (ns : List Nat) :
    (x.withLinks side ns).payload = x.payload := by
  cases side <;> rfl

@[simp] theorem links_withLinks (x : NetTensor) (side s : Side) (ns : List Nat) :
    (x.withLinks side ns).links s = if s = side then ns else x.links s := by
  cases side <;> cases s <;> rfl

@[simp] theorem links_default (side : Side) : (default : NetTensor).links side = [] := by
  cases side <;> rfl

end NetTensor

namespace NetNode

@[simp] theorem name_withEnds (x : NetNode) (side : Side) (ts : List Nat) :
    (x.withEnds side ts).name = x.name := by
  cases side <;> rfl

@[simp] theorem op_withEnds (x : NetNode) (side : Side) (ts : List Nat) :
    (x.withEnds side ts).op = x.op := by
  cases side <;> rfl

@[simp] theorem attrs_withEnds (x : NetNode) (side : Side) (ts : List Nat) :
    (x.withEnds side ts).attrs = x.attrs := by
  cases side <;> rfl

@[simp] theorem ends_withEnds (x : NetNode) (side s : Side) (ts : List Nat) :
    (x.withEnds side ts).ends s = if s = side then ts else x.ends s := by
  cases side <;> cases s <;> rfl

end NetNode

namespace Netlist

/-! ### Reading after an update -/

section Access

variable (g : Netlist)

@[simp] theorem tensors_size_modifyTensor (t : Nat) (f : NetTensor → NetTensor) :
    (g.modifyTensor t f).tensors.size = g.tensors.size := by
  simp [modifyTensor]

@[simp] theorem nodes_modifyTensor (t : Nat) (f : NetTensor → NetTensor) :
    (g.modifyTensor t f).nodes = g.nodes := rfl

@[simp] theorem inputs_modifyTensor (t : Nat) (f : NetTensor → NetTensor) :
    (g.modifyTensor t f).inputs = g.inputs := rfl

@[simp] theorem outputs_modifyTensor (t : Nat) (f : NetTensor → NetTensor) :
    (g.modifyTensor t f).outputs = g.outputs := rfl

@[simp] theorem tensors_modifyNode (n : Nat) (f : NetNode → NetNode) :
    (g.modifyNode n f).tensors = g.tensors := rfl

@[simp] theorem nodes_size_modifyNode (n : Nat) (f : NetNode → NetNode) :
    (g.modifyNode n f).nodes.size = g.nodes.size := by
  simp [modifyNode]

@[simp] theorem inputs_modifyNode (n : Nat) (f : NetNode → NetNode) :
    (g.modifyNode n f).inputs = g.inputs := rfl

@[simp] theorem outputs_modifyNode (n : Nat) (f : NetNode → NetNode) :
    (g.modifyNode n f).outputs = g.outputs := rfl

theorem tensor_modifyTensor (t u : Nat) (f : NetTensor → NetTensor) :
    (g.modifyTensor t f).tensor u =
      if t = u ∧ u < g.tensors.size then f (g.tensor u) else g.tensor u := by
  simp only [tensor, modifyTensor, Array.getD_eq_getD_getElem?, Array.getElem?_modify]
  by_cases htu : t = u
  · subst htu
    by_cases hu : t < g.tensors.size <;> simp [hu]
  · simp [htu]

theorem node_modifyNode (n m : Nat) (f : NetNode → NetNode) :
    (g.modifyNode n f).node m = if n = m ∧ m < g.nodes.size then f (g.node m) else g.node m := by
  simp only [node, modifyNode, Array.getD_eq_getD_getElem?, Array.getElem?_modify]
  by_cases hnm : n = m
  · subst hnm
    by_cases hm : n < g.nodes.size <;> simp [hm]
  · simp [hnm]

@[simp] theorem tensor_modifyNode (n t : Nat) (f : NetNode → NetNode) :
    (g.modifyNode n f).tensor t = g.tensor t := rfl

@[simp] theorem node_modifyTensor (t n : Nat) (f : NetTensor → NetTensor) :
    (g.modifyTensor t f).node n = g.node n := rfl

end Access

/-! ### Unlinking -/

/-- Whether node `n` has a name outside `names`. -/
def isOther (g : Netlist) (names : List String) (n : Nat) : Bool := !names.contains (g.node n).name

/-- `g'` is `g` with some links of nodes named in `names` taken away. -/
structure Unlinked (names : List String) (g g' : Netlist) : Prop where
  tensors_size : g'.tensors.size = g.tensors.size
  nodes_size : g'.nodes.size = g.nodes.size
  inputs_eq : g'.inputs = g.inputs
  outputs_eq : g'.outputs = g.outputs
  name_eq : ∀ t, (g'.tensor t).name = (g.tensor t).name
  payload_eq : ∀ t, (g'.tensor t).payload = (g.tensor t).payload
  /-- On each side of a tensor the nodes of other names all stay, and nothing is added. -/
  links : ∀ side t,
    (((g.tensor t).links side).filter (g.isOther names)).Sublist ((g'.tensor t).links side) ∧
      ((g'.tensor t).links side).Sublist ((g.tensor t).links side)
  /-- A node of another name is untouched. -/
  node_eq : ∀ n, g.isOther names n → g'.node n = g.node n
  node_name : ∀ n, (g'.node n).name = (g.node n).name
  node_op : ∀ n, (g'.node n).op = (g.node n).op
  node_attrs : ∀ n, (g'.node n).attrs = (g.node n).attrs
  ends : ∀ side n, ((g'.node n).ends side).Sublist ((g.node n).ends side)

namespace Unlinked

open List

variable {names : List String} {g g' g'' : Netlist}

theorem isOther_eq (h : Unlinked names g g') (n : Nat) : g'.isOther names n = g.isOther names n := by
  simp only [isOther, h.node_name]

@[refl] theorem refl (names : List String) (g : Netlist) : Unlinked names g g :=
  { tensors_size := rfl, nodes_size := rfl, inputs_eq := rfl, outputs_eq := rfl,
    name_eq := fun _ => rfl, payload_eq := fun _ => rfl,
    links := fun _ _ => ⟨List.filter_sublist, List.Sublist.refl _⟩,
    node_eq := fun _ _ => rfl, node_name := fun _ => rfl, node_op := fun _ => rfl,
    node_attrs := fun _ => rfl, ends := fun _ _ => List.Sublist.refl _ }

theorem trans (h₁ : Unlinked names g g') (h₂ : Unlinked names g' g'') : Unlinked names g g'' where
  tensors_size := h₂.tensors_size.trans h₁.tensors_size
  nodes_size := h₂.nodes_size.trans h₁.nodes_size
  inputs_eq := h₂.inputs_eq.trans h₁.inputs_eq
  outputs_eq := h₂.outputs_eq.trans h₁.outputs_eq
  name_eq t := (h₂.name_eq t).trans (h₁.name_eq t)
  payload_eq t := (h₂.payload_eq t).trans (h₁.payload_eq t)
  links side t := by
    obtain ⟨hlo₁, hhi₁⟩ := h₁.links side t
    obtain ⟨hlo₂, hhi₂⟩ := h₂.links side t
    refine ⟨?_, hhi₂.trans hhi₁⟩
    -- the nodes of other names survive the first step, and the second keeps them
    have hother : g'.isOther names = g.isOther names := funext h₁.isOther_eq
    rw [hother] at hlo₂
    calc ((g.tensor t).links side).filter (g.isOther names)
        = (((g.tensor t).links side).filter (g.isOther names)).filter (g.isOther names) := by
          simp only [List.filter_filter, Bool.and_self]
      _ <+ ((g'.tensor t).links side).filter (g.isOther names) := hlo₁.filter _
      _ <+ (g''.tensor t).links side := hlo₂
  node_eq n hn := by
    rw [h₂.node_eq n (by rw [h₁.isOther_eq]; exact hn), h₁.node_eq n hn]
  node_name n := (h₂.node_name n).trans (h₁.node_name n)
  node_op n := (h₂.node_op n).trans (h₁.node_op n)
  node_attrs n := (h₂.node_attrs n).trans (h₁.node_attrs n)
  ends side n := (h₂.ends side n).trans (h₁.ends side n)

/-- A side that holds only nodes of other names keeps holding only such nodes. -/
theorem links_isOther (h : Unlinked names g g') {side : Side} {t : Nat}
    (hall : ∀ n ∈ (g.tensor t).links side, g.isOther names n) :
    ∀ n ∈ (g'.tensor t).links side, g'.isOther names n := by
  intro n hn
  rw [h.isOther_eq]
  exact hall n ((h.links side t).2.subset hn)

end Unlinked

section Drop

variable {names : List String} (g : Netlist) (side : Side) (t n : Nat)

theorem links_dropLink_self :
    ((g.dropLink side t n).tensor t).links side = ((g.tensor t).links side).erase n := by
  simp only [dropLink, tensor_modifyNode, tensor_modifyTensor, true_and]
  split
  · simp [eraseFirst]
  · rename_i ht
    simp [tensor, Array.getD_eq_getD_getElem?, Array.getElem?_eq_none (Nat.le_of_not_lt ht)]

/-- Erasing an element the filter drops keeps everything the filter keeps. -/
theorem filter_sublist_erase {p : Nat → Bool} {l : List Nat} {a : Nat} (ha : p a = false) :
    (l.filter p).Sublist (l.erase a) := by
  have hnot : a ∉ l.filter p := fun h => by simp [List.mem_filter, ha] at h
  rw [← List.erase_of_not_mem hnot, List.erase_filter]
  exact List.filter_sublist

/-- Dropping one link of a node named in `names` takes a link of a named node away. -/
theorem dropLink_unlinked (hn : g.isOther names n = false) :
    Unlinked names g (g.dropLink side t n) where
  tensors_size := by simp [dropLink]
  nodes_size := by simp [dropLink]
  inputs_eq := rfl
  outputs_eq := rfl
  name_eq u := by
    simp only [dropLink, tensor_modifyNode, tensor_modifyTensor]
    split <;> simp
  payload_eq u := by
    simp only [dropLink, tensor_modifyNode, tensor_modifyTensor]
    split <;> simp
  links s u := by
    simp only [dropLink, tensor_modifyNode, tensor_modifyTensor]
    split
    · -- the tensor whose side loses `n`
      simp only [NetTensor.links_withLinks]
      split
      · subst s
        exact ⟨filter_sublist_erase hn, List.erase_sublist⟩
      · exact ⟨List.filter_sublist, List.Sublist.refl _⟩
    · exact ⟨List.filter_sublist, List.Sublist.refl _⟩
  node_eq m hm := by
    simp only [dropLink, node_modifyNode, nodes_modifyTensor, node_modifyTensor]
    -- the node that loses a link is named, so it is not `m`
    have hne : n ≠ m := fun h => by rw [h, hm] at hn; exact Bool.false_ne_true hn.symm
    simp [hne]
  node_name m := by
    simp only [dropLink, node_modifyNode, nodes_modifyTensor, node_modifyTensor]
    by_cases h : n = m ∧ m < g.nodes.size <;> simp [h]
  node_op m := by
    simp only [dropLink, node_modifyNode, nodes_modifyTensor, node_modifyTensor]
    by_cases h : n = m ∧ m < g.nodes.size <;> simp [h]
  node_attrs m := by
    simp only [dropLink, node_modifyNode, nodes_modifyTensor, node_modifyTensor]
    by_cases h : n = m ∧ m < g.nodes.size <;> simp [h]
  ends s m := by
    simp only [dropLink, node_modifyNode, nodes_modifyTensor, node_modifyTensor]
    by_cases h : n = m ∧ m < g.nodes.size
    · simp only [h, and_self, if_true, NetNode.ends_withEnds]
      split
      · subst s
        exact List.erase_sublist
      · exact List.Sublist.refl _
    · simp only [h, if_false]
      exact List.Sublist.refl _

end Drop

section Unlink

variable {names : List String} {side : Side} {t : Nat}

/-- The fold of `unlink` over the part `rest` of the snapshot it has not reached yet. The side
of `t` is the part `done` kept so far, all of other names, followed by `rest`; each named
node of `rest` is then the first occurrence of itself, so dropping it takes out exactly that
occurrence. -/
theorem links_foldl_unlink (g : Netlist) :
    ∀ (rest done : List Nat) (acc : Netlist), Unlinked names g acc →
      (∀ n ∈ done, g.isOther names n) → (acc.tensor t).links side = done ++ rest →
      Unlinked names g (rest.foldl (fun acc n =>
          if names.contains (acc.node n).name then acc.dropLink side t n else acc) acc) ∧
        ((rest.foldl (fun acc n =>
          if names.contains (acc.node n).name then acc.dropLink side t n else acc) acc).tensor
            t).links side = done ++ rest.filter (g.isOther names)
  | [], done, acc, h, _, hl => ⟨h, by simpa using hl⟩
  | x :: rest, done, acc, h, hdone, hl => by
    simp only [List.foldl_cons]
    by_cases hx : names.contains (acc.node x).name
    · -- a named node: its first occurrence is the one the fold stands at
      have hx' : g.isOther names x = false := by
        rw [← h.isOther_eq]
        simp only [isOther, hx, Bool.not_true]
      have hnot : x ∉ done := fun hm => by simp [hdone x hm] at hx'
      have hdrop := h.trans (dropLink_unlinked acc side t x (by rw [h.isOther_eq]; exact hx'))
      have hl' : ((acc.dropLink side t x).tensor t).links side = done ++ rest := by
        rw [links_dropLink_self, hl, List.erase_append_right _ hnot, List.erase_cons_head]
      obtain ⟨h₁, h₂⟩ := links_foldl_unlink g rest done _ hdrop hdone hl'
      simp only [hx, if_true]
      exact ⟨h₁, by rw [h₂, List.filter_cons, hx']; rfl⟩
    · -- a node of another name stays and joins the kept part
      have hx' : g.isOther names x = true := by
        rw [← h.isOther_eq]
        simp only [isOther, Bool.eq_false_iff.2 hx, Bool.not_false]
      have hdone' : ∀ n ∈ done ++ [x], g.isOther names n := by
        intro n hn
        rcases List.mem_append.1 hn with hn | hn
        · exact hdone n hn
        · rw [List.mem_singleton.1 hn]
          exact hx'
      obtain ⟨h₁, h₂⟩ := links_foldl_unlink g rest (done ++ [x]) acc h hdone'
        (by rw [hl, List.append_assoc, List.singleton_append])
      simp only [hx, Bool.false_eq_true, if_false]
      refine ⟨h₁, ?_⟩
      rw [h₂, List.filter_cons, hx', if_pos rfl, List.append_assoc, List.singleton_append]

/-- Unlinking a side of a tensor takes links of named nodes away. -/
theorem unlink_unlinked (g : Netlist) (side : Side) (t : Nat) (names : List String) :
    Unlinked names g (Fusion.unlink g side t names) := by
  unfold Fusion.unlink
  exact (links_foldl_unlink g ((g.tensor t).links side) [] g (.refl names g) (by simp) rfl).1

/-- After unlinking, that side of the tensor holds exactly its nodes of other names, in
order. -/
theorem links_unlink (g : Netlist) (side : Side) (t : Nat) (names : List String) :
    ((Fusion.unlink g side t names).tensor t).links side =
      ((g.tensor t).links side).filter (g.isOther names) := by
  unfold Fusion.unlink
  exact (links_foldl_unlink g ((g.tensor t).links side) [] g (.refl names g) (by simp) rfl).2

end Unlink

end Netlist

end OnnxFusion

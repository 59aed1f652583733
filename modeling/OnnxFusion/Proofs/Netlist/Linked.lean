import Mathlib.Data.List.Basic
import OnnxFusion.Netlist.Import
import OnnxFusion.Proofs.Netlist.Links
/-!
# Netlists whose links agree

The graph library keeps the two sides of a link together: appending a node adds it to the
consumers of each input and the producers of each output, and removing a link removes the
first occurrence on both sides. `Netlist.Linked g` is the invariant this keeps: a node stands
among the consumers (producers) of a tensor exactly as often as the tensor stands among the
node's inputs (outputs), and the graph inputs and outputs are tensors of the netlist. Since a
tensor or node past the end of its array reads as an empty object, the count equation also
says that every index a link holds is in range (`Linked.ends_lt`, `Linked.links_lt`).

* `count_links_dropLink`, `count_ends_dropLink`: dropping a link takes one occurrence off
  both counts of that pair and leaves every other count alone; so `Linked.dropLink` and
  `Linked.unlink`.
* `Linked.addTensor`, `Linked.addNode`: a new tensor has no links, and a new node reading
  and writing tensors of the netlist is counted on both sides alike.
* `ofGraphDef_linked`: the netlist of a model graph is linked.
* `Linked.lookup_lt`: a tensor found by name is a tensor of the netlist (`mem_tensorMap`,
  `Linked.reachable_lt`).
* `detached_unlink`: in a linked netlist, unlinking a side of a tensor leaves no link of a
  named node on either side, and `Unlinked.detached` keeps it so under later unlinking.
-/

set_option autoImplicit false

namespace OnnxFusion

namespace Netlist

/-- The two sides of every link agree, and the graph inputs and outputs are tensors. -/
structure Linked (g : Netlist) : Prop where
  count_eq : ∀ side t n, ((g.tensor t).links side).count n = ((g.node n).ends side).count t
  inputs_lt : ∀ t ∈ g.inputs, t < g.tensors.size
  outputs_lt : ∀ t ∈ g.outputs, t < g.tensors.size

/-! ### Objects past the end -/

section Range

variable {g : Netlist}

theorem tensor_of_le {t : Nat} (h : g.tensors.size ≤ t) : g.tensor t = default := by
  simp [tensor, Array.getD_eq_getD_getElem?, Array.getElem?_eq_none h]

theorem node_of_le {n : Nat} (h : g.nodes.size ≤ n) : g.node n = default := by
  simp [node, Array.getD_eq_getD_getElem?, Array.getElem?_eq_none h]

@[simp] theorem NetNode.ends_default (side : Side) : (default : NetNode).ends side = [] := by
  cases side <;> rfl

namespace Linked

variable (h : g.Linked)
include h

theorem mem_links_iff {side : Side} {t n : Nat} :
    n ∈ (g.tensor t).links side ↔ t ∈ (g.node n).ends side := by
  rw [← List.count_pos_iff, ← List.count_pos_iff, h.count_eq]

/-- A tensor a node reads or writes is a tensor of the netlist. -/
theorem ends_lt {side : Side} {t n : Nat} (ht : t ∈ (g.node n).ends side) : t < g.tensors.size := by
  by_contra hlt
  rw [← h.mem_links_iff, tensor_of_le (Nat.le_of_not_lt hlt)] at ht
  simp at ht

/-- A node linked to a tensor is a node of the netlist. -/
theorem links_lt {side : Side} {t n : Nat} (hn : n ∈ (g.tensor t).links side) : n < g.nodes.size := by
  by_contra hlt
  rw [h.mem_links_iff, node_of_le (Nat.le_of_not_lt hlt)] at hn
  simp at hn

end Linked

end Range

/-- A tensor reachable by name lookup in a linked netlist is a tensor of it. -/
theorem Linked.reachable_lt {g : Netlist} (h : g.Linked) {t : Nat} (ht : t ∈ g.reachable) :
    t < g.tensors.size := by
  simp only [reachable, List.mem_append, List.mem_flatMap] at ht
  rcases ht with (ht | ht) | ⟨x, hx, ht⟩
  · exact h.inputs_lt t ht
  · exact h.outputs_lt t ht
  · -- a node of the array is the node at its index
    obtain ⟨i, hi, rfl⟩ := List.getElem_of_mem hx
    have hnode : g.node i = g.nodes.toList[i] := by
      simp [node, Array.getD_eq_getD_getElem?, Array.getElem?_eq_getElem (by simpa using hi)]
    rw [← hnode] at ht
    rcases ht with ht | ht
    · exact h.ends_lt (show t ∈ (g.node i).ends .consumers from ht)
    · exact h.ends_lt (show t ∈ (g.node i).ends .producers from ht)

/-- Every entry of the name table is a reachable tensor. -/
theorem mem_tensorMap {g : Netlist} {p : String × Nat} (hp : p ∈ g.tensorMap) :
    p.2 ∈ g.reachable := by
  unfold tensorMap at hp
  -- the table is built by a fold over the reachable tensors that only appends them
  suffices hfold : ∀ (ts : List Nat) (acc : List (String × Nat)), (∀ t ∈ ts, t ∈ g.reachable) →
      (∀ q ∈ acc, q.2 ∈ g.reachable) →
      ∀ q ∈ ts.foldl (fun acc t =>
        if acc.any (·.1 == (g.tensor t).name) then acc else acc ++ [((g.tensor t).name, t)]) acc,
        q.2 ∈ g.reachable from
    hfold _ [] (fun _ h => h) (by simp) p hp
  intro ts
  induction ts with
  | nil => exact fun _ _ hacc => hacc
  | cons t ts ih =>
    intro acc hts hacc
    rw [List.foldl_cons]
    refine ih _ (fun u hu => hts u (List.mem_cons_of_mem _ hu)) ?_
    split
    · exact hacc
    · intro q hq
      rcases List.mem_append.1 hq with hq | hq
      · exact hacc q hq
      · rw [List.mem_singleton.1 hq]
        exact hts t List.mem_cons_self

/-- A tensor found by name in a linked netlist is a tensor of it. -/
theorem Linked.lookup_lt {g : Netlist} (h : g.Linked) {v : Value} {t : Nat}
    (hv : Fusion.lookup g v = .ok (some t)) : t < g.tensors.size := by
  unfold Fusion.lookup Fusion.lookupIn at hv
  split at hv
  · obtain ⟨p, hp, rfl⟩ := Option.map_eq_some_iff.1 (Except.ok.inj hv)
    exact h.reachable_lt (mem_tensorMap (List.mem_of_find?_eq_some hp))
  · -- any other value finds nothing, or faults
    split at hv <;> simp at hv

/-! ### Dropping links -/

section Drop

variable (g : Netlist) (side : Side) (t n : Nat)

theorem tensor_dropLink (u : Nat) :
    (g.dropLink side t n).tensor u =
      if t = u ∧ u < g.tensors.size then
        (g.tensor u).withLinks side (eraseFirst ((g.tensor u).links side) n)
      else g.tensor u := by
  rw [dropLink, tensor_modifyNode, tensor_modifyTensor]

theorem node_dropLink (m : Nat) :
    (g.dropLink side t n).node m =
      if n = m ∧ m < g.nodes.size then (g.node m).withEnds side (eraseFirst ((g.node m).ends side) t)
      else g.node m := by
  rw [dropLink, node_modifyNode]
  rfl

/-- Dropping the link of `n` on a side of `t` takes one occurrence of `n` off that side of `t`,
if it has one, and changes no other count. -/
theorem count_links_dropLink (s : Side) (u m : Nat) :
    (((g.dropLink side t n).tensor u).links s).count m =
      ((g.tensor u).links s).count m - if s = side ∧ u = t ∧ m = n then 1 else 0 := by
  rw [tensor_dropLink]
  split
  · rename_i hu
    obtain ⟨rfl, -⟩ := hu
    rw [NetTensor.links_withLinks]
    by_cases hs : s = side
    · subst hs
      by_cases hm : m = n
      · simp [hm, eraseFirst]
      · simp [hm, eraseFirst]
    · simp [hs]
  · rename_i hu
    by_cases hut : u = t
    · -- past the end the side is empty and there is nothing to take off
      subst hut
      have hle : g.tensors.size ≤ u := Nat.le_of_not_lt fun hlt => hu ⟨rfl, hlt⟩
      simp [tensor_of_le hle]
    · simp [hut]

/-- Dropping the link takes one occurrence of `t` off the matching side of `n`, if it has
one, and changes no other count. -/
theorem count_ends_dropLink (s : Side) (u m : Nat) :
    (((g.dropLink side t n).node m).ends s).count u =
      ((g.node m).ends s).count u - if s = side ∧ u = t ∧ m = n then 1 else 0 := by
  rw [node_dropLink]
  split
  · rename_i hm
    obtain ⟨rfl, -⟩ := hm
    rw [NetNode.ends_withEnds]
    by_cases hs : s = side
    · subst hs
      by_cases hu : u = t
      · simp [hu, eraseFirst]
      · simp [hu, eraseFirst]
    · simp [hs]
  · rename_i hm
    by_cases hmn : m = n
    · subst hmn
      have hle : g.nodes.size ≤ m := Nat.le_of_not_lt fun hlt => hm ⟨rfl, hlt⟩
      simp [node_of_le hle]
    · simp [hmn]

theorem Linked.dropLink (h : g.Linked) : (g.dropLink side t n).Linked where
  count_eq s u m := by
    rw [count_links_dropLink, count_ends_dropLink, h.count_eq]
  inputs_lt := by simpa [Netlist.dropLink] using h.inputs_lt
  outputs_lt := by simpa [Netlist.dropLink] using h.outputs_lt

end Drop

/-- Unlinking a side of a tensor keeps the netlist linked: each step of the fold drops one
link or does nothing. -/
theorem Linked.unlink {g : Netlist} (h : g.Linked) (side : Side) (t : Nat) (names : List String) :
    (Fusion.unlink g side t names).Linked := by
  unfold Fusion.unlink
  -- the fold runs over a snapshot taken before it; every netlist it passes through is linked
  suffices hfold : ∀ (rest : List Nat) (acc : Netlist), acc.Linked →
      (rest.foldl (fun acc n =>
        if names.contains (acc.node n).name then acc.dropLink side t n else acc) acc).Linked from
    hfold _ g h
  intro rest
  induction rest with
  | nil => exact fun _ hacc => hacc
  | cons x rest ih =>
    intro acc hacc
    simp only [List.foldl_cons]
    split
    · exact ih _ (hacc.dropLink acc side t x)
    · exact ih _ hacc

/-! ### Detached tensors -/

/-- No node named in `names` stands on that side of `t`, and `t` stands on the matching side
of no such node. -/
def Detached (names : List String) (g : Netlist) (side : Side) (t : Nat) : Prop :=
  ∀ n, g.isOther names n = false → n ∉ (g.tensor t).links side ∧ t ∉ (g.node n).ends side

/-- In a linked netlist, unlinking a side of a tensor detaches it from every named node. -/
theorem detached_unlink {g : Netlist} (h : g.Linked) (side : Side) (t : Nat)
    (names : List String) : Detached names (Fusion.unlink g side t names) side t := by
  intro n hn
  have hu := unlink_unlinked g side t names
  rw [hu.isOther_eq] at hn
  -- the tensor's side keeps exactly the nodes of other names, and `n` is named
  have hlinks : n ∉ ((Fusion.unlink g side t names).tensor t).links side := by
    rw [links_unlink, List.mem_filter, hn]
    simp
  refine ⟨hlinks, fun hends => hlinks ?_⟩
  exact ((h.unlink side t names).mem_links_iff).2 hends

/-- Later unlinking keeps a detached tensor detached: it only takes links away. -/
theorem Unlinked.detached {names : List String} {g g' : Netlist} (hu : Unlinked names g g')
    {side : Side} {t : Nat} (hd : Detached names g side t) : Detached names g' side t := by
  intro n hn
  rw [hu.isOther_eq] at hn
  obtain ⟨hl, he⟩ := hd n hn
  exact ⟨fun hm => hl ((hu.links side t).2.subset hm), fun hm => he ((hu.ends side n).subset hm)⟩

/-! ### Adding tensors and nodes -/

section Add

variable {g : Netlist}

@[simp] theorem tensors_size_addTensor (name : String) (p : Payload) :
    (g.addTensor name p).1.tensors.size = g.tensors.size + 1 := by
  simp [addTensor]

@[simp] theorem nodes_addTensor (name : String) (p : Payload) :
    (g.addTensor name p).1.nodes = g.nodes := rfl

@[simp] theorem inputs_addTensor (name : String) (p : Payload) :
    (g.addTensor name p).1.inputs = g.inputs := rfl

@[simp] theorem outputs_addTensor (name : String) (p : Payload) :
    (g.addTensor name p).1.outputs = g.outputs := rfl

@[simp] theorem addTensor_snd (name : String) (p : Payload) :
    (g.addTensor name p).2 = g.tensors.size := rfl

@[simp] theorem node_addTensor (name : String) (p : Payload) (n : Nat) :
    (g.addTensor name p).1.node n = g.node n := rfl

theorem tensor_addTensor (name : String) (p : Payload) (u : Nat) :
    (g.addTensor name p).1.tensor u =
      if u = g.tensors.size then ⟨name, p, [], []⟩ else g.tensor u := by
  simp only [addTensor, tensor, Array.getD_eq_getD_getElem?, Array.getElem?_push]
  split <;> rfl

theorem Linked.addTensor (h : g.Linked) (name : String) (p : Payload) :
    (g.addTensor name p).1.Linked where
  count_eq s u m := by
    rw [tensor_addTensor, node_addTensor]
    split
    · -- no node reads or writes the new tensor, which was past the end
      subst u
      rw [← h.count_eq, tensor_of_le (Nat.le_refl _)]
      cases s <;> rfl
    · exact h.count_eq s u m
  inputs_lt t ht := by
    have := h.inputs_lt t ht
    simp only [tensors_size_addTensor]
    omega
  outputs_lt t ht := by
    have := h.outputs_lt t ht
    simp only [tensors_size_addTensor]
    omega

/-- Putting `n` last on a side of `t` adds one occurrence there, if `t` is a tensor. -/
theorem links_linkTensor (side : Side) (t n : Nat) (s : Side) (u : Nat) :
    ((g.linkTensor side t n).tensor u).links s =
      (g.tensor u).links s ++ if s = side ∧ u = t ∧ t < g.tensors.size then [n] else [] := by
  simp only [linkTensor, tensor_modifyTensor]
  by_cases hu : t = u ∧ u < g.tensors.size
  · obtain ⟨rfl, ht⟩ := hu
    by_cases hs : s = side <;> simp [hs, ht]
  · rw [if_neg hu]
    have : ¬(s = side ∧ u = t ∧ t < g.tensors.size) := fun ⟨_, hut, ht⟩ => hu ⟨hut.symm, hut ▸ ht⟩
    simp [this]

/-- Linking `n` to each tensor of a list puts `n` on that side of each of them as often as
the list holds it. -/
theorem links_foldl_linkTensor (side : Side) (n : Nat) (s : Side) (u : Nat) :
    ∀ (ts : List Nat) (g : Netlist),
      ((ts.foldl (fun acc t => acc.linkTensor side t n) g).tensor u).links s =
        (g.tensor u).links s ++
          if s = side ∧ u < g.tensors.size then List.replicate (ts.count u) n else []
  | [], g => by simp
  | t :: ts, g => by
    rw [List.foldl_cons, links_foldl_linkTensor side n s u ts, links_linkTensor]
    simp only [linkTensor, tensors_size_modifyTensor, List.append_assoc]
    congr 1
    by_cases hs : s = side
    · by_cases hu : u < g.tensors.size
      · by_cases htu : u = t
        · subst htu
          simp [hs, hu, List.replicate_succ]
        · simp [hs, hu, htu, Ne.symm htu]
      · have : ¬(u = t ∧ t < g.tensors.size) := fun ⟨hut, ht⟩ => hu (hut ▸ ht)
        simp [hs, hu, this]
    · simp [hs]

theorem node_linkTensor (side : Side) (t n m : Nat) : (g.linkTensor side t n).node m = g.node m :=
  rfl

theorem node_foldl_linkTensor (side : Side) (n m : Nat) :
    ∀ (ts : List Nat) (g : Netlist), (ts.foldl (fun acc t => acc.linkTensor side t n) g).node m = g.node m
  | [], _ => rfl
  | t :: ts, g => by
    rw [List.foldl_cons, node_foldl_linkTensor side n m ts, node_linkTensor]

theorem size_foldl_linkTensor (side : Side) (n : Nat) :
    ∀ (ts : List Nat) (g : Netlist),
      (ts.foldl (fun acc t => acc.linkTensor side t n) g).tensors.size = g.tensors.size ∧
      (ts.foldl (fun acc t => acc.linkTensor side t n) g).nodes = g.nodes ∧
      (ts.foldl (fun acc t => acc.linkTensor side t n) g).inputs = g.inputs ∧
      (ts.foldl (fun acc t => acc.linkTensor side t n) g).outputs = g.outputs
  | [], _ => ⟨rfl, rfl, rfl, rfl⟩
  | t :: ts, g => by
    rw [List.foldl_cons]
    obtain ⟨h₁, h₂, h₃, h₄⟩ := size_foldl_linkTensor side n ts (g.linkTensor side t n)
    exact ⟨by rw [h₁]; simp [linkTensor], h₂, h₃, h₄⟩

theorem addNode_eq (op name : String) (attrs : Record) (ins outs : List Nat) :
    g.addNode op name attrs ins outs =
      (outs.foldl (fun acc t => acc.linkTensor .producers t g.nodes.size)
        (ins.foldl (fun acc t => acc.linkTensor .consumers t g.nodes.size)
          { g with nodes := g.nodes.push ⟨op, name, attrs, ins, outs⟩ }), g.nodes.size) := rfl

section Node

variable (op name : String) (attrs : Record) (ins outs : List Nat)

@[simp] theorem addNode_snd : (g.addNode op name attrs ins outs).2 = g.nodes.size := rfl

@[simp] theorem tensors_size_addNode :
    (g.addNode op name attrs ins outs).1.tensors.size = g.tensors.size := by
  rw [addNode_eq, (size_foldl_linkTensor _ _ _ _).1, (size_foldl_linkTensor _ _ _ _).1]

@[simp] theorem nodes_size_addNode :
    (g.addNode op name attrs ins outs).1.nodes.size = g.nodes.size + 1 := by
  rw [addNode_eq, (size_foldl_linkTensor _ _ _ _).2.1, (size_foldl_linkTensor _ _ _ _).2.1]
  simp

@[simp] theorem inputs_addNode : (g.addNode op name attrs ins outs).1.inputs = g.inputs := by
  rw [addNode_eq, (size_foldl_linkTensor _ _ _ _).2.2.1, (size_foldl_linkTensor _ _ _ _).2.2.1]

@[simp] theorem outputs_addNode : (g.addNode op name attrs ins outs).1.outputs = g.outputs := by
  rw [addNode_eq, (size_foldl_linkTensor _ _ _ _).2.2.2, (size_foldl_linkTensor _ _ _ _).2.2.2]

/-- The appended node is the last one; the others stay. -/
theorem node_addNode (m : Nat) :
    (g.addNode op name attrs ins outs).1.node m =
      if m = g.nodes.size then ⟨op, name, attrs, ins, outs⟩ else g.node m := by
  rw [addNode_eq, node_foldl_linkTensor, node_foldl_linkTensor]
  simp only [node, Array.getD_eq_getD_getElem?, Array.getElem?_push]
  split <;> rfl

/-- A tensor of the netlist gains the appended node on each side, as often as the node holds
the tensor on the matching side. -/
theorem links_addNode (s : Side) (u : Nat) :
    ((g.addNode op name attrs ins outs).1.tensor u).links s =
      (g.tensor u).links s ++
        if u < g.tensors.size then
          List.replicate (((⟨op, name, attrs, ins, outs⟩ : NetNode).ends s).count u) g.nodes.size
        else [] := by
  rw [addNode_eq, links_foldl_linkTensor, links_foldl_linkTensor]
  simp only [(size_foldl_linkTensor _ _ _ _).1]
  -- the pushed node leaves the tensors as they were
  have htensor : ({ g with nodes := g.nodes.push ⟨op, name, attrs, ins, outs⟩ } : Netlist).tensor u =
      g.tensor u := rfl
  rw [htensor]
  cases s <;> simp [NetNode.ends]

/-- A node reading and writing tensors of a linked netlist keeps it linked. -/
theorem Linked.addNode (h : g.Linked) (hins : ∀ t ∈ ins, t < g.tensors.size)
    (houts : ∀ t ∈ outs, t < g.tensors.size) : (g.addNode op name attrs ins outs).1.Linked where
  count_eq s u m := by
    rw [links_addNode, node_addNode, List.count_append]
    -- the tensors the new node holds on side `s` are tensors of the netlist
    have hends : ∀ t ∈ (⟨op, name, attrs, ins, outs⟩ : NetNode).ends s, t < g.tensors.size := by
      cases s
      · exact hins
      · exact houts
    by_cases hm : m = g.nodes.size
    · -- the new node: before, no tensor had it on any side
      subst m
      have hold : ((g.tensor u).links s).count g.nodes.size = 0 := by
        rw [h.count_eq, node_of_le (Nat.le_refl _)]
        simp
      rw [hold, Nat.zero_add, if_pos rfl]
      by_cases hu : u < g.tensors.size
      · simp [hu]
      · have hnot : u ∉ (⟨op, name, attrs, ins, outs⟩ : NetNode).ends s := fun hm => hu (hends u hm)
        simp [hu, List.count_eq_zero.2 hnot]
    · -- an old node: the appended occurrences are of the new node only
      rw [if_neg hm, h.count_eq]
      by_cases hu : u < g.tensors.size
      · simp [hu, List.count_replicate, Ne.symm hm]
      · simp [hu]
  inputs_lt t ht := by
    rw [tensors_size_addNode]
    exact h.inputs_lt t (by simpa using ht)
  outputs_lt t ht := by
    rw [tensors_size_addNode]
    exact h.outputs_lt t (by simpa using ht)

end Node

end Add

/-! ### The netlist of a model graph -/

section Import

variable (d : GraphDef)

theorem indexIn_lt {names : List String} {x : String} (hx : x ∈ names) :
    indexIn names x < names.length :=
  List.idxOf_lt_length_of_mem hx

/-- Every name a node of the graph reads or writes, and every graph input and output, is a
name of the graph. -/
theorem mem_namesOf_of_node {n : NodeDef} (hn : n ∈ d.nodes) {x : String}
    (hx : x ∈ n.inputs ∨ x ∈ n.outputs) : x ∈ namesOf d := by
  simp only [namesOf, List.mem_eraseDups, List.mem_append, List.mem_flatMap]
  exact Or.inr ⟨n, hn, hx⟩

theorem mem_namesOf_of_input {vi : ValueInfo} (hvi : vi ∈ d.inputs ∨ vi ∈ d.outputs) :
    vi.name ∈ namesOf d := by
  simp only [namesOf, List.mem_eraseDups, List.mem_append, List.mem_map]
  exact Or.inl (Or.inr ⟨vi, by rcases hvi with h | h <;> simp [h], rfl⟩)

/-- The netlist of a model graph is linked: it starts with one unlinked tensor per name and no
node, and each node appended reads and writes tensors of these names. -/
theorem ofGraphDef_linked : (ofGraphDef d).Linked := by
  unfold ofGraphDef
  -- every netlist the fold passes through has one tensor per name and is linked
  suffices hfold : ∀ (ns : List NodeDef) (acc : Netlist), (∀ n ∈ ns, n ∈ d.nodes) →
      acc.tensors.size = (namesOf d).length → acc.Linked →
      (ns.foldl (fun acc n => (acc.addNode n.opType n.name n.attrsLenient
        (n.inputs.map (indexIn (namesOf d))) (n.outputs.map (indexIn (namesOf d)))).1) acc).Linked by
    apply hfold d.nodes _ (fun _ h => h) (by simp)
    refine ⟨fun side t n => ?_, ?_, ?_⟩
    · -- no tensor has a link yet and there is no node
      simp only [tensor, node, Array.getD_eq_getD_getElem?, List.getElem?_toArray,
        List.getElem?_map]
      cases (namesOf d)[t]? <;> cases side <;> rfl
    · intro t ht
      obtain ⟨vi, hvi, rfl⟩ := List.mem_map.1 ht
      simpa using indexIn_lt (mem_namesOf_of_input d (.inl hvi))
    · intro t ht
      obtain ⟨vi, hvi, rfl⟩ := List.mem_map.1 ht
      simpa using indexIn_lt (mem_namesOf_of_input d (.inr hvi))
  intro ns
  induction ns with
  | nil => exact fun acc _ _ h => h
  | cons n ns ih =>
    intro acc hmem hsize hacc
    rw [List.foldl_cons]
    have hn : n ∈ d.nodes := hmem n List.mem_cons_self
    -- the node's tensors are tensors of the netlist
    have hlt : ∀ (xs : List String), (∀ x ∈ xs, x ∈ namesOf d) →
        ∀ t ∈ xs.map (indexIn (namesOf d)), t < acc.tensors.size := by
      intro xs hxs t ht
      obtain ⟨x, hx, rfl⟩ := List.mem_map.1 ht
      rw [hsize]
      exact indexIn_lt (hxs x hx)
    refine ih _ (fun m hm => hmem m (List.mem_cons_of_mem _ hm)) (by simpa using hsize) ?_
    exact hacc.addNode _ _ _ _ _ (hlt _ fun x hx => mem_namesOf_of_node d hn (.inl hx))
      (hlt _ fun x hx => mem_namesOf_of_node d hn (.inr hx))

end Import

end Netlist

end OnnxFusion

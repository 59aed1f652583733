import Mathlib
import OnnxFusion.Proofs.Netlist.Growth
/-!
# Netlists up to their links

A fusion reads a netlist through the names and values of its tensors, its nodes and its
graph inputs and outputs. The consumer and producer lists kept on each tensor are read only
when links are taken away, and in a linked netlist the nodes fix them. `Netlist.Same g h`
says that `h` is `g` up to those lists; name lookup agrees on such netlists.

* `Netlist.cutBy`: taking tensors off nodes, in closed form. A `Cut` takes one tensor off
  one side of every node of one of its names; `cutBy` filters the inputs and outputs of every
  node by a list of cuts. Cuts compose by appending (`cutBy_cutBy`) and depend only on which
  cuts there are (`cutBy_congr`).
* `unlink_same_cutBy`: in a linked netlist, unlinking a side of a tensor from the nodes of
  some names is the cut of that side, up to links.
* `Block`, `Netlist.appendBlock`: tensors and nodes appended together, each end of a node
  given as a tensor already present or as one of the block's tensors. `cutBy_appendBlocks`:
  cuts that name none of the appended nodes commute with appending them.
* `find?_eq_find?_reachable`, `find?_of_unique`: a name finds the first reachable tensor of
  that name, so a name that only one reachable tensor bears finds that tensor exactly when it
  is reachable.
-/

set_option autoImplicit false

namespace OnnxFusion

/-- Two nodes that agree on operator, name, attributes and both sides of their links are the
same node. -/
theorem NetNode.ext_ends {x y : NetNode} (hop : x.op = y.op) (hname : x.name = y.name)
    (hattrs : x.attrs = y.attrs) (hends : ∀ side, x.ends side = y.ends side) : x = y := by
  obtain ⟨op, name, attrs, ins, outs⟩ := x
  obtain ⟨op', name', attrs', ins', outs'⟩ := y
  have hin := hends .consumers
  have hout := hends .producers
  simp only [NetNode.ends] at hop hname hattrs hin hout
  subst hop hname hattrs hin hout
  rfl

/-! ### Cuts -/

/-- Takes tensor `tensor` off side `side` of every node named in `names`. -/
structure Cut where
  side : Side
  tensor : Nat
  names : List String

/-- Whether a cut takes tensor `t` off side `side` of a node named `name`. -/
def Cut.hits (c : Cut) (side : Side) (t : Nat) (name : String) : Bool :=
  c.side == side && c.tensor == t && c.names.contains name

/-- A node with every end that the cuts take off it removed. -/
def NetNode.cutBy (x : NetNode) (cs : List Cut) : NetNode :=
  { x with
    inputs := x.inputs.filter fun t => !cs.any (·.hits .consumers t x.name)
    outputs := x.outputs.filter fun t => !cs.any (·.hits .producers t x.name) }

namespace NetNode

variable (x : NetNode) (cs cs' : List Cut)

@[simp] theorem op_cutBy : (x.cutBy cs).op = x.op := rfl

@[simp] theorem name_cutBy : (x.cutBy cs).name = x.name := rfl

@[simp] theorem attrs_cutBy : (x.cutBy cs).attrs = x.attrs := rfl

theorem ends_cutBy (side : Side) :
    (x.cutBy cs).ends side = (x.ends side).filter fun t => !cs.any (·.hits side t x.name) := by
  cases side <;> rfl

theorem cutBy_cutBy : (x.cutBy cs).cutBy cs' = x.cutBy (cs ++ cs') := by
  refine ext_ends rfl rfl rfl fun side => ?_
  rw [ends_cutBy, ends_cutBy, ends_cutBy, name_cutBy, List.filter_filter]
  refine List.filter_congr fun t _ => ?_
  rw [List.any_append, Bool.not_or, Bool.and_comm]

theorem cutBy_congr {cs cs' : List Cut} (h : ∀ c, c ∈ cs ↔ c ∈ cs') : x.cutBy cs = x.cutBy cs' := by
  refine ext_ends rfl rfl rfl fun side => ?_
  rw [ends_cutBy, ends_cutBy]
  refine List.filter_congr fun t _ => ?_
  -- a cut hits or not whatever its place in the list
  have hany : cs.any (·.hits side t x.name) = cs'.any (·.hits side t x.name) := by
    rw [Bool.eq_iff_iff, List.any_eq_true, List.any_eq_true]
    exact exists_congr fun c => and_congr_left' (h c)
  rw [hany]

/-- Cuts that hit none of a node's ends leave it as it is. -/
theorem cutBy_eq_self (h : ∀ c ∈ cs, x.name ∉ c.names) : x.cutBy cs = x := by
  refine ext_ends rfl rfl rfl fun side => ?_
  rw [ends_cutBy, List.filter_eq_self]
  intro t _
  simp only [Bool.not_eq_eq_eq_not, Bool.not_true, List.any_eq_false]
  intro c hc
  simp [Cut.hits, h c hc]

@[simp] theorem cutBy_nil : x.cutBy [] = x := cutBy_eq_self x [] (by simp)

end NetNode

namespace Netlist

/-- The netlist with every node cut. -/
def cutBy (g : Netlist) (cs : List Cut) : Netlist := { g with nodes := g.nodes.map (·.cutBy cs) }

/-! ### Agreement up to links -/

/-- `h` is `g` up to the consumers and producers kept on each tensor. -/
structure Same (g h : Netlist) : Prop where
  tensors_size : h.tensors.size = g.tensors.size
  name_eq : ∀ t, (h.tensor t).name = (g.tensor t).name
  payload_eq : ∀ t, (h.tensor t).payload = (g.tensor t).payload
  nodes_eq : h.nodes = g.nodes
  inputs_eq : h.inputs = g.inputs
  outputs_eq : h.outputs = g.outputs

/-- Two node arrays that agree node by node are equal. -/
theorem nodes_ext {g h : Netlist} (hsize : g.nodes.size = h.nodes.size)
    (hnode : ∀ n < g.nodes.size, g.node n = h.node n) : g.nodes = h.nodes := by
  refine Array.ext hsize fun i hi hi' => ?_
  have hg : g.node i = g.nodes[i] := by
    simp [node, Array.getD_eq_getD_getElem?, Array.getElem?_eq_getElem hi]
  have hh : h.node i = h.nodes[i] := by
    simp [node, Array.getD_eq_getD_getElem?, Array.getElem?_eq_getElem hi']
  rw [← hg, ← hh, hnode i hi]

namespace Same

variable {g h k : Netlist}

@[refl] theorem refl (g : Netlist) : Same g g :=
  ⟨rfl, fun _ => rfl, fun _ => rfl, rfl, rfl, rfl⟩

@[symm] theorem symm (s : Same g h) : Same h g :=
  ⟨s.tensors_size.symm, fun t => (s.name_eq t).symm, fun t => (s.payload_eq t).symm,
    s.nodes_eq.symm, s.inputs_eq.symm, s.outputs_eq.symm⟩

@[trans] theorem trans (s₁ : Same g h) (s₂ : Same h k) : Same g k :=
  ⟨s₂.tensors_size.trans s₁.tensors_size, fun t => (s₂.name_eq t).trans (s₁.name_eq t),
    fun t => (s₂.payload_eq t).trans (s₁.payload_eq t), s₂.nodes_eq.trans s₁.nodes_eq,
    s₂.inputs_eq.trans s₁.inputs_eq, s₂.outputs_eq.trans s₁.outputs_eq⟩

theorem node_eq (s : Same g h) (n : Nat) : h.node n = g.node n := by
  simp only [node, s.nodes_eq]

theorem reachable_eq (s : Same g h) : h.reachable = g.reachable := by
  simp only [reachable, s.nodes_eq, s.inputs_eq, s.outputs_eq]

theorem tensorMap_eq (s : Same g h) : h.tensorMap = g.tensorMap := by
  simp only [tensorMap, s.reachable_eq, s.name_eq]

theorem find?_eq (s : Same g h) (name : String) : h.find? name = g.find? name := by
  simp only [find?, s.tensorMap_eq]

theorem lookup_eq (s : Same g h) (v : Value) : Fusion.lookup h v = Fusion.lookup g v := by
  simp only [Fusion.lookup, s.tensorMap_eq]

theorem cutBy (s : Same g h) (cs : List Cut) : Same (g.cutBy cs) (h.cutBy cs) :=
  ⟨s.tensors_size, s.name_eq, s.payload_eq, by simp only [Netlist.cutBy, s.nodes_eq],
    s.inputs_eq, s.outputs_eq⟩

theorem addTensor (s : Same g h) (name : String) (p : Payload) :
    Same (g.addTensor name p).1 (h.addTensor name p).1 where
  tensors_size := by simp [s.tensors_size]
  name_eq t := by
    rw [tensor_addTensor, tensor_addTensor, s.tensors_size]
    split
    · rfl
    · exact s.name_eq t
  payload_eq t := by
    rw [tensor_addTensor, tensor_addTensor, s.tensors_size]
    split
    · rfl
    · exact s.payload_eq t
  nodes_eq := s.nodes_eq
  inputs_eq := s.inputs_eq
  outputs_eq := s.outputs_eq

end Same

/-- Linking nodes to tensors leaves the nodes as they are. -/
theorem nodes_foldl_linkTensor (side : Side) (n : Nat) :
    ∀ (ts : List Nat) (g : Netlist), (ts.foldl (fun acc t => acc.linkTensor side t n) g).nodes = g.nodes
  | [], _ => rfl
  | t :: ts, g => by
    rw [List.foldl_cons, nodes_foldl_linkTensor side n ts]
    rfl

/-- Appending a node pushes it after the others. -/
theorem nodes_addNode (g : Netlist) (op name : String) (attrs : Record) (ins outs : List Nat) :
    (g.addNode op name attrs ins outs).1.nodes = g.nodes.push ⟨op, name, attrs, ins, outs⟩ := by
  rw [addNode_eq, nodes_foldl_linkTensor, nodes_foldl_linkTensor]

theorem Same.addNode {g h : Netlist} (s : Same g h) (op name : String) (attrs : Record)
    (ins outs : List Nat) : Same (g.addNode op name attrs ins outs).1 (h.addNode op name attrs ins outs).1 where
  tensors_size := by simp [s.tensors_size]
  name_eq t := by rw [name_addNode, name_addNode, s.name_eq]
  payload_eq t := by rw [payload_addNode, payload_addNode, s.payload_eq]
  nodes_eq := by rw [nodes_addNode, nodes_addNode, s.nodes_eq]
  inputs_eq := by simp [s.inputs_eq]
  outputs_eq := by simp [s.outputs_eq]

/-! ### Cutting a netlist -/

section Cut

variable (g : Netlist) (cs cs' : List Cut)

@[simp] theorem tensor_cutBy (t : Nat) : (g.cutBy cs).tensor t = g.tensor t := rfl

@[simp] theorem tensors_cutBy : (g.cutBy cs).tensors = g.tensors := rfl

@[simp] theorem inputs_cutBy : (g.cutBy cs).inputs = g.inputs := rfl

@[simp] theorem outputs_cutBy : (g.cutBy cs).outputs = g.outputs := rfl

@[simp] theorem nodes_size_cutBy : (g.cutBy cs).nodes.size = g.nodes.size := by
  simp [cutBy]

theorem node_cutBy (n : Nat) : (g.cutBy cs).node n = (g.node n).cutBy cs := by
  simp only [node, cutBy, Array.getD_eq_getD_getElem?, Array.getElem?_map]
  cases g.nodes[n]? <;> rfl

theorem cutBy_cutBy : (g.cutBy cs).cutBy cs' = g.cutBy (cs ++ cs') := by
  simp only [cutBy, Array.map_map]
  congr 2
  funext x
  exact x.cutBy_cutBy cs cs'

theorem cutBy_congr {cs cs' : List Cut} (h : ∀ c, c ∈ cs ↔ c ∈ cs') : g.cutBy cs = g.cutBy cs' := by
  simp only [cutBy]
  congr 2
  funext x
  exact x.cutBy_congr h

@[simp] theorem cutBy_nil : g.cutBy [] = g := by
  simp [cutBy]

end Cut

/-! ### Unlinking is cutting -/

section Unlink

variable (g : Netlist) (side : Side) (t : Nat) (names : List String)

/-- Unlinking a side of `t` changes, on the nodes, only how often `t` stands on that side. -/
theorem count_ends_unlink {s : Side} {u : Nat} (hsu : s ≠ side ∨ u ≠ t) (m : Nat) :
    (((Fusion.unlink g side t names).node m).ends s).count u = ((g.node m).ends s).count u := by
  unfold Fusion.unlink
  -- each step of the fold drops one link of `t` on `side`, or nothing
  suffices hfold : ∀ (ns : List Nat) (acc : Netlist),
      (((ns.foldl (fun acc n =>
        if names.contains (acc.node n).name then acc.dropLink side t n else acc) acc).node m).ends
          s).count u = ((acc.node m).ends s).count u from hfold _ g
  intro ns
  induction ns with
  | nil => exact fun _ => rfl
  | cons n ns ih =>
    intro acc
    rw [List.foldl_cons, ih]
    split
    · have hne : ¬(s = side ∧ u = t ∧ m = n) := by
        rintro ⟨hs, hu, -⟩
        rcases hsu with h | h <;> contradiction
      rw [count_ends_dropLink, if_neg hne, Nat.sub_zero]
    · rfl

/-- A sublist that holds only elements passing `p`, each of them as often as the list, is the
filter of the list by `p`. -/
theorem eq_filter_of_sublist {l' l : List Nat} {p : Nat → Bool} (hsub : l'.Sublist l)
    (hp : ∀ u ∈ l', p u = true) (hcount : ∀ u, p u = true → l'.count u = l.count u) :
    l' = l.filter p := by
  have hsub' : l'.Sublist (l.filter p) := by
    have h := hsub.filter p
    rwa [List.filter_eq_self.2 hp] at h
  have hperm : l'.Perm (l.filter p) := by
    rw [List.perm_iff_count]
    intro u
    by_cases hu : p u = true
    · rw [List.count_filter hu, hcount u hu]
    · have h₁ : l'.count u = 0 := List.count_eq_zero.2 fun hm => hu (hp u hm)
      have h₂ : (l.filter p).count u = 0 :=
        List.count_eq_zero.2 fun hm => hu (List.mem_filter.1 hm).2
      rw [h₁, h₂]
  exact hsub'.eq_of_length hperm.length_eq

variable {g}

/-- In a linked netlist, unlinking a side of `t` from the nodes named in `names` takes `t`
off that side of each of them, all its occurrences, and changes no other node. -/
theorem node_unlink (h : g.Linked) (m : Nat) :
    (Fusion.unlink g side t names).node m = (g.node m).cutBy [⟨side, t, names⟩] := by
  have hu := unlink_unlinked g side t names
  by_cases hm : g.isOther names m = true
  · -- a node of another name is untouched, and the cut passes it by
    rw [hu.node_eq m hm, NetNode.cutBy_eq_self]
    intro c hc
    rw [List.mem_singleton.1 hc]
    simpa [isOther] using hm
  · -- a named node loses exactly the occurrences of `t` on `side`
    have hnamed : names.contains (g.node m).name = true := by simpa [isOther] using hm
    have hfree : t ∉ ((Fusion.unlink g side t names).node m).ends side :=
      (detached_unlink h side t names m (by rw [hu.isOther_eq]; simpa using hm)).2
    refine NetNode.ext_ends (hu.node_op m) (hu.node_name m) (hu.node_attrs m) fun s => ?_
    rw [NetNode.ends_cutBy]
    refine eq_filter_of_sublist (hu.ends s m) ?_ ?_
    · intro u hum
      by_cases hs : s = side
      · subst hs
        have hut : u ≠ t := fun hut => hfree (hut ▸ hum)
        simp [Cut.hits, Ne.symm hut]
      · simp [Cut.hits, Ne.symm hs]
    · intro u hpu
      have hsu : s ≠ side ∨ u ≠ t := by
        by_cases hs : s = side
        · subst hs
          refine .inr fun hut => ?_
          subst hut
          simp only [Cut.hits, List.any_cons, List.any_nil, Bool.or_false, beq_self_eq_true,
            Bool.true_and, hnamed, Bool.not_true, Bool.false_eq_true] at hpu
        · exact .inl hs
      exact count_ends_unlink g side t names hsu m

/-- In a linked netlist, unlinking a side of a tensor is the cut of that side, up to links. -/
theorem unlink_same_cutBy (h : g.Linked) :
    Same (g.cutBy [⟨side, t, names⟩]) (Fusion.unlink g side t names) where
  tensors_size := (unlink_unlinked g side t names).tensors_size
  name_eq := (unlink_unlinked g side t names).name_eq
  payload_eq := (unlink_unlinked g side t names).payload_eq
  nodes_eq := by
    refine nodes_ext ?_ fun n _ => ?_
    · rw [(unlink_unlinked g side t names).nodes_size, nodes_size_cutBy]
    · rw [node_unlink side t names h, node_cutBy]
  inputs_eq := (unlink_unlinked g side t names).inputs_eq
  outputs_eq := (unlink_unlinked g side t names).outputs_eq

end Unlink

end Netlist

/-! ### Blocks -/

/-- An end of an appended node: a tensor the netlist has, or the `k`-th tensor appended with
it. -/
inductive Port where
  | old (t : Nat)
  | new (k : Nat)

/-- The tensor a port stands for, once the appended tensors start at `base`. -/
def Port.place (base : Nat) : Port → Nat
  | .old t => t
  | .new k => base + k

/-- A node to append, with its ends given as ports. -/
structure BlockNode where
  op : String
  name : String
  attrs : Record
  inputs : List Port
  outputs : List Port

/-- The node a block node becomes once the appended tensors start at `base`. -/
def BlockNode.place (base : Nat) (x : BlockNode) : NetNode :=
  ⟨x.op, x.name, x.attrs, x.inputs.map (Port.place base), x.outputs.map (Port.place base)⟩

/-- Tensors, by name and value, and nodes appended together. -/
structure Block where
  tensors : List (String × Payload)
  nodes : List BlockNode

/-- The `k`-th tensor a block appends, as a netlist holds it. -/
def Block.tensorAt (b : Block) (k : Nat) : NetTensor :=
  match b.tensors[k]? with
  | some x => ⟨x.1, x.2, [], []⟩
  | none => default

/-- The `k`-th node a block appends, once its tensors start at `base`. -/
def Block.nodeAt (b : Block) (base k : Nat) : NetNode :=
  match b.nodes[k]? with
  | some x => x.place base
  | none => default

namespace Netlist

/-- Appends a block: its tensors, without links, and then its nodes with their ports placed. -/
def appendBlock (g : Netlist) (b : Block) : Netlist :=
  { g with
    tensors := g.tensors ++ (b.tensors.map fun x => (⟨x.1, x.2, [], []⟩ : NetTensor)).toArray
    nodes := g.nodes ++ (b.nodes.map (BlockNode.place g.tensors.size)).toArray }

/-- Appends blocks in order. -/
def appendBlocks (g : Netlist) (bs : List Block) : Netlist := bs.foldl appendBlock g

section Append

variable (g : Netlist) (b : Block)

@[simp] theorem tensors_size_appendBlock :
    (g.appendBlock b).tensors.size = g.tensors.size + b.tensors.length := by
  simp [appendBlock]

@[simp] theorem nodes_size_appendBlock :
    (g.appendBlock b).nodes.size = g.nodes.size + b.nodes.length := by
  simp [appendBlock]

@[simp] theorem inputs_appendBlock : (g.appendBlock b).inputs = g.inputs := rfl

@[simp] theorem outputs_appendBlock : (g.appendBlock b).outputs = g.outputs := rfl

theorem tensor_appendBlock_of_lt {t : Nat} (ht : t < g.tensors.size) :
    (g.appendBlock b).tensor t = g.tensor t := by
  simp [tensor, appendBlock, Array.getD_eq_getD_getElem?, Array.getElem?_append, ht]

theorem tensor_appendBlock_add (k : Nat) :
    (g.appendBlock b).tensor (g.tensors.size + k) = b.tensorAt k := by
  simp only [tensor, appendBlock, Array.getD_eq_getD_getElem?, Array.getElem?_append,
    List.getElem?_toArray, List.getElem?_map, Block.tensorAt]
  rw [if_neg (by omega), Nat.add_sub_cancel_left]
  cases b.tensors[k]? <;> rfl

theorem node_appendBlock_of_lt {n : Nat} (hn : n < g.nodes.size) :
    (g.appendBlock b).node n = g.node n := by
  simp [node, appendBlock, Array.getD_eq_getD_getElem?, Array.getElem?_append, hn]

theorem node_appendBlock_add (k : Nat) :
    (g.appendBlock b).node (g.nodes.size + k) = b.nodeAt g.tensors.size k := by
  simp only [node, appendBlock, Array.getD_eq_getD_getElem?, Array.getElem?_append,
    List.getElem?_toArray, List.getElem?_map, Block.nodeAt]
  rw [if_neg (by omega), Nat.add_sub_cancel_left]
  cases b.nodes[k]? <;> rfl

/-- Every tensor of an appended netlist is an old one or one of the block's. -/
theorem tensor_appendBlock (t : Nat) :
    (g.appendBlock b).tensor t =
      if t < g.tensors.size then g.tensor t else b.tensorAt (t - g.tensors.size) := by
  split
  · exact tensor_appendBlock_of_lt g b (by assumption)
  · rw [← tensor_appendBlock_add g b, Nat.add_sub_cancel' (by omega)]

/-- Every node of an appended netlist is an old one or one of the block's. -/
theorem node_appendBlock (n : Nat) :
    (g.appendBlock b).node n =
      if n < g.nodes.size then g.node n else b.nodeAt g.tensors.size (n - g.nodes.size) := by
  split
  · exact node_appendBlock_of_lt g b (by assumption)
  · rw [← node_appendBlock_add g b, Nat.add_sub_cancel' (by omega)]

@[simp] theorem appendBlocks_nil : g.appendBlocks [] = g := rfl

theorem appendBlocks_cons (bs : List Block) :
    g.appendBlocks (b :: bs) = (g.appendBlock b).appendBlocks bs := rfl

theorem appendBlocks_concat (bs : List Block) :
    g.appendBlocks (bs ++ [b]) = (g.appendBlocks bs).appendBlock b := by
  simp [appendBlocks, List.foldl_append]

end Append

theorem Same.appendBlock {g h : Netlist} (s : Same g h) (b : Block) :
    Same (g.appendBlock b) (h.appendBlock b) where
  tensors_size := by simp [s.tensors_size]
  name_eq t := by
    rw [tensor_appendBlock, tensor_appendBlock, s.tensors_size]
    split
    · exact s.name_eq t
    · rfl
  payload_eq t := by
    rw [tensor_appendBlock, tensor_appendBlock, s.tensors_size]
    split
    · exact s.payload_eq t
    · rfl
  nodes_eq := by simp only [Netlist.appendBlock, s.nodes_eq, s.tensors_size]
  inputs_eq := s.inputs_eq
  outputs_eq := s.outputs_eq

theorem Same.appendBlocks {g h : Netlist} (s : Same g h) :
    ∀ bs : List Block, Same (g.appendBlocks bs) (h.appendBlocks bs)
  | [] => s
  | b :: bs => (s.appendBlock b).appendBlocks bs

/-- Cuts that name none of a block's nodes commute with appending the block. -/
theorem cutBy_appendBlock (g : Netlist) (b : Block) {cs : List Cut}
    (h : ∀ x ∈ b.nodes, ∀ c ∈ cs, x.name ∉ c.names) :
    (g.appendBlock b).cutBy cs = (g.cutBy cs).appendBlock b := by
  simp only [cutBy, appendBlock, Array.map_append, List.map_toArray, List.map_map]
  congr 3
  refine List.map_congr_left fun x hx => ?_
  exact NetNode.cutBy_eq_self _ cs (h x hx)

/-- Cuts that name none of the appended nodes commute with appending them. -/
theorem cutBy_appendBlocks {cs : List Cut} :
    ∀ (bs : List Block) (g : Netlist), (∀ b ∈ bs, ∀ x ∈ b.nodes, ∀ c ∈ cs, x.name ∉ c.names) →
      (g.appendBlocks bs).cutBy cs = (g.cutBy cs).appendBlocks bs
  | [], _, _ => rfl
  | b :: bs, g, h => by
    rw [appendBlocks_cons, appendBlocks_cons,
      cutBy_appendBlocks bs _ fun b' hb' => h b' (List.mem_cons_of_mem _ hb'),
      cutBy_appendBlock g b (h b List.mem_cons_self)]

/-! ### Finding a tensor by name -/

/-- A name finds the first reachable tensor of that name. -/
theorem find?_eq_find?_reachable (g : Netlist) (s : String) :
    g.find? s = g.reachable.find? fun t => (g.tensor t).name == s := by
  unfold find? tensorMap
  -- the table gains the first tensor of each name and nothing after it
  suffices hfold : ∀ (ts : List Nat) (acc : List (String × Nat)),
      ((ts.foldl (fun acc t =>
        if acc.any (·.1 == (g.tensor t).name) then acc else acc ++ [((g.tensor t).name, t)])
          acc).find? (·.1 == s)).map (·.2) =
        ((acc.find? (·.1 == s)).map (·.2)).or (ts.find? fun t => (g.tensor t).name == s) by
    simpa using hfold g.reachable []
  intro ts
  induction ts with
  | nil => intro acc; simp
  | cons t ts ih =>
    intro acc
    rw [List.foldl_cons, ih, List.find?_cons]
    by_cases hts : (g.tensor t).name = s
    · subst hts
      split
      · -- the name of `t` has an entry already, which the table keeps
        rename_i hacc
        obtain ⟨p, hp⟩ := Option.isSome_iff_exists.1
          (List.find?_isSome.2 (List.any_eq_true.1 hacc))
        simp [hp]
      · rename_i hacc
        have hnone : acc.find? (·.1 == (g.tensor t).name) = none := by
          rw [List.find?_eq_none]
          intro p hp hpt
          exact hacc (List.any_eq_true.2 ⟨p, hp, hpt⟩)
        simp [List.find?_append, hnone]
    · have hne : ((g.tensor t).name == s) = false := by simpa using hts
      rw [hne]
      split
      · rfl
      · -- an entry of another name is passed over
        have hskip : ((acc ++ [((g.tensor t).name, t)]).find? (·.1 == s)) = acc.find? (·.1 == s) := by
          rw [List.find?_append]
          cases acc.find? (·.1 == s) <;> simp [hne]
        rw [hskip]

/-- A name that only the reachable tensor `t` bears finds `t` exactly when `t` is reachable. -/
theorem find?_of_unique {g : Netlist} {s : String} {t : Nat} (hname : (g.tensor t).name = s)
    (huniq : ∀ u ∈ g.reachable, (g.tensor u).name = s → u = t) :
    g.find? s = if t ∈ g.reachable then some t else none := by
  rw [find?_eq_find?_reachable]
  by_cases ht : t ∈ g.reachable
  · rw [if_pos ht]
    have hsome : (g.reachable.find? fun u => (g.tensor u).name == s).isSome :=
      List.find?_isSome.2 ⟨t, ht, by simp [hname]⟩
    obtain ⟨u, hu⟩ := Option.isSome_iff_exists.1 hsome
    rw [hu, huniq u (List.mem_of_find?_eq_some hu) (by simpa using List.find?_some hu)]
  · rw [if_neg ht, List.find?_eq_none]
    intro u hu hus
    exact ht (huniq u hu (by simpa using hus) ▸ hu)

/-- The tensors in lookup order are the graph inputs and outputs and the ends of the nodes. -/
theorem mem_reachable {g : Netlist} {t : Nat} :
    t ∈ g.reachable ↔
      t ∈ g.inputs ∨ t ∈ g.outputs ∨ ∃ n < g.nodes.size, ∃ side, t ∈ (g.node n).ends side := by
  simp only [reachable, List.mem_append, List.mem_flatMap, Array.mem_toList_iff,
    Array.mem_iff_getElem, or_assoc]
  refine or_congr_right (or_congr_right ⟨?_, ?_⟩)
  · rintro ⟨x, ⟨n, hn, rfl⟩, ht⟩
    have hnode : g.node n = g.nodes[n] := by
      simp [node, Array.getD_eq_getD_getElem?, Array.getElem?_eq_getElem hn]
    refine ⟨n, hn, ?_⟩
    rw [hnode]
    rcases ht with ht | ht
    · exact ⟨.consumers, ht⟩
    · exact ⟨.producers, ht⟩
  · rintro ⟨n, hn, side, ht⟩
    have hnode : g.node n = g.nodes[n] := by
      simp [node, Array.getD_eq_getD_getElem?, Array.getElem?_eq_getElem hn]
    refine ⟨g.nodes[n], ⟨n, hn, rfl⟩, ?_⟩
    rw [hnode] at ht
    cases side
    · exact .inl ht
    · exact .inr ht

end Netlist

end OnnxFusion

import Mathlib
import OnnxFusion.Proofs.Netlist.Skeleton
/-!
# Isomorphic netlists

Two netlists are isomorphic when renumbering the tensors and the nodes of one gives the
other: `Netlist.IsoBy τ ν g h` says that `τ` is a bijection from the tensors of `g` onto
those of `h` and `ν` one from the nodes of `g` onto those of `h`, and that they carry every
tensor's name and value, every node's operator, name, attributes, inputs and outputs, and the
graph inputs and outputs. The consumer and producer lists kept on tensors are not compared.

* `IsoBy.refl`, `IsoBy.trans`, `IsoBy.of_same`: isomorphism is reflexive and transitive, and
  netlists that agree up to links are isomorphic.
* `IsoBy.appendBlock`: appending one block to isomorphic netlists keeps them isomorphic when
  the renumbering fixes the tensors the block reads.
* `appendBlock_swap`: two blocks appended in either order give isomorphic netlists; the
  renumbering exchanges the two blocks and fixes everything before them.
* `appendBlocks_perm`: blocks appended in any order give isomorphic netlists.
* `IsoBy.node_shape`: an isomorphism carries each node to one of the same operator and name,
  with as many inputs.
-/

set_option autoImplicit false

namespace OnnxFusion

/-- A node with its ends renumbered. -/
def NetNode.renumber (x : NetNode) (τ : Nat → Nat) : NetNode :=
  { x with inputs := x.inputs.map τ, outputs := x.outputs.map τ }

namespace NetNode

variable (x : NetNode) (τ τ' : Nat → Nat)

@[simp] theorem op_renumber : (x.renumber τ).op = x.op := rfl

@[simp] theorem name_renumber : (x.renumber τ).name = x.name := rfl

@[simp] theorem attrs_renumber : (x.renumber τ).attrs = x.attrs := rfl

@[simp] theorem ends_renumber (side : Side) : (x.renumber τ).ends side = (x.ends side).map τ := by
  cases side <;> rfl

@[simp] theorem renumber_id : x.renumber id = x :=
  ext_ends rfl rfl rfl fun side => by rw [ends_renumber, List.map_id]

theorem renumber_renumber : (x.renumber τ).renumber τ' = x.renumber (τ' ∘ τ) :=
  ext_ends rfl rfl rfl fun side => by rw [ends_renumber, ends_renumber, ends_renumber, List.map_map]

/-- Renumberings that agree on a node's ends renumber it alike. -/
theorem renumber_congr {τ τ' : Nat → Nat} (h : ∀ side, ∀ t ∈ x.ends side, τ t = τ' t) :
    x.renumber τ = x.renumber τ' :=
  ext_ends rfl rfl rfl fun side => by
    rw [ends_renumber, ends_renumber]
    exact List.map_congr_left (h side)

end NetNode

/-- A port below `size` or among the `count` tensors of its block. -/
def Port.Below (size count : Nat) : Port → Prop
  | .old t => t < size
  | .new k => k < count

/-- Every port of the block's nodes is a tensor below `size` or one of the block's own. -/
def Block.PortsBelow (b : Block) (size : Nat) : Prop :=
  ∀ x ∈ b.nodes, ∀ p ∈ x.inputs ++ x.outputs, p.Below size b.tensors.length

theorem Block.PortsBelow.mono {b : Block} {size size' : Nat} (h : b.PortsBelow size)
    (hle : size ≤ size') : b.PortsBelow size' := by
  intro x hx p hp
  have hb := h x hx p hp
  cases p with
  | old t => exact Nat.lt_of_lt_of_le hb hle
  | new k => exact hb

/-- Placing a block node and renumbering it is placing it elsewhere, when the renumbering
takes each port's place at `base` to its place at `base'`. -/
theorem BlockNode.renumber_place (x : BlockNode) {τ : Nat → Nat} {base base' : Nat}
    (h : ∀ p ∈ x.inputs ++ x.outputs, τ (p.place base) = p.place base') :
    (x.place base).renumber τ = x.place base' := by
  refine NetNode.ext_ends rfl rfl rfl fun side => ?_
  rw [NetNode.ends_renumber]
  cases side
  · show (x.inputs.map (Port.place base)).map τ = x.inputs.map (Port.place base')
    rw [List.map_map]
    exact List.map_congr_left fun p hp => h p (List.mem_append_left _ hp)
  · show (x.outputs.map (Port.place base)).map τ = x.outputs.map (Port.place base')
    rw [List.map_map]
    exact List.map_congr_left fun p hp => h p (List.mem_append_right _ hp)

namespace Netlist

/-- Every end of every node and every graph input and output is a tensor of the netlist. -/
structure InRange (g : Netlist) : Prop where
  ends_lt : ∀ n side, ∀ t ∈ (g.node n).ends side, t < g.tensors.size
  inputs_lt : ∀ t ∈ g.inputs, t < g.tensors.size
  outputs_lt : ∀ t ∈ g.outputs, t < g.tensors.size

theorem Linked.inRange {g : Netlist} (h : g.Linked) : g.InRange :=
  ⟨fun _ _ _ ht => h.ends_lt ht, h.inputs_lt, h.outputs_lt⟩

theorem InRange.appendBlock {g : Netlist} (hg : g.InRange) {b : Block}
    (hb : b.PortsBelow g.tensors.size) : (g.appendBlock b).InRange where
  ends_lt n side t ht := by
    rw [tensors_size_appendBlock]
    rw [node_appendBlock] at ht
    split at ht
    · exact Nat.lt_add_right _ (hg.ends_lt n side t ht)
    · -- an appended node: its ports are below the old size or among the block's tensors
      unfold Block.nodeAt at ht
      split at ht
      · rename_i x hx
        have hxm := List.mem_of_getElem? hx
        have hport : ∀ p ∈ x.inputs ++ x.outputs, p.place g.tensors.size <
            g.tensors.size + b.tensors.length := by
          intro p hp
          have hpb := hb x hxm p hp
          cases p with
          | old t => exact Nat.lt_add_right _ hpb
          | new k => exact Nat.add_lt_add_left hpb _
        cases side
        · obtain ⟨p, hp, rfl⟩ := List.mem_map.1 ht
          exact hport p (List.mem_append_left _ hp)
        · obtain ⟨p, hp, rfl⟩ := List.mem_map.1 ht
          exact hport p (List.mem_append_right _ hp)
      · simp at ht
  inputs_lt t ht := by
    rw [tensors_size_appendBlock]
    exact Nat.lt_add_right _ (hg.inputs_lt t ht)
  outputs_lt t ht := by
    rw [tensors_size_appendBlock]
    exact Nat.lt_add_right _ (hg.outputs_lt t ht)

theorem InRange.appendBlocks {g : Netlist} (hg : g.InRange) :
    ∀ {bs : List Block}, (∀ b ∈ bs, b.PortsBelow g.tensors.size) → (g.appendBlocks bs).InRange
  | [], _ => hg
  | b :: bs, hb => by
    rw [appendBlocks_cons]
    refine (hg.appendBlock (hb b List.mem_cons_self)).appendBlocks fun b' hb' => ?_
    exact (hb b' (List.mem_cons_of_mem _ hb')).mono (by simp)

theorem InRange.cutBy {g : Netlist} (hg : g.InRange) (cs : List Cut) : (g.cutBy cs).InRange where
  ends_lt n side t ht := by
    rw [node_cutBy, NetNode.ends_cutBy] at ht
    exact hg.ends_lt n side t (List.mem_filter.1 ht).1
  inputs_lt := hg.inputs_lt
  outputs_lt := hg.outputs_lt

/-! ### Isomorphism -/

/-- `h` is `g` with its tensors renumbered by `τ` and its nodes by `ν`: both are bijections
between the index ranges, and they carry every tensor's name and value, every node's
operator, name, attributes, inputs and outputs, and the graph inputs and outputs. -/
structure IsoBy (τ ν : Nat → Nat) (g h : Netlist) : Prop where
  tensors_size : h.tensors.size = g.tensors.size
  nodes_size : h.nodes.size = g.nodes.size
  tensors_bij : Set.BijOn τ (Set.Iio g.tensors.size) (Set.Iio h.tensors.size)
  nodes_bij : Set.BijOn ν (Set.Iio g.nodes.size) (Set.Iio h.nodes.size)
  name_eq : ∀ t < g.tensors.size, (h.tensor (τ t)).name = (g.tensor t).name
  payload_eq : ∀ t < g.tensors.size, (h.tensor (τ t)).payload = (g.tensor t).payload
  node_eq : ∀ n < g.nodes.size, h.node (ν n) = (g.node n).renumber τ
  inputs_eq : h.inputs = g.inputs.map τ
  outputs_eq : h.outputs = g.outputs.map τ

/-- Two netlists are isomorphic: some renumbering of tensors and nodes takes one to the
other. -/
def Iso (g h : Netlist) : Prop := ∃ τ ν, IsoBy τ ν g h

namespace IsoBy

variable {τ ν τ' ν' : Nat → Nat} {g h k : Netlist}

theorem refl (g : Netlist) : IsoBy id id g g where
  tensors_size := rfl
  nodes_size := rfl
  tensors_bij := Set.bijOn_id _
  nodes_bij := Set.bijOn_id _
  name_eq _ _ := rfl
  payload_eq _ _ := rfl
  node_eq _ _ := (NetNode.renumber_id _).symm
  inputs_eq := List.map_id _ |>.symm
  outputs_eq := List.map_id _ |>.symm

/-- Netlists that agree up to links are isomorphic, renumbering nothing. -/
theorem of_same (s : Same g h) : IsoBy id id g h where
  tensors_size := s.tensors_size
  nodes_size := by rw [s.nodes_eq]
  tensors_bij := by rw [s.tensors_size]; exact Set.bijOn_id _
  nodes_bij := by rw [s.nodes_eq]; exact Set.bijOn_id _
  name_eq t _ := s.name_eq t
  payload_eq t _ := s.payload_eq t
  node_eq n _ := by rw [s.node_eq, id, NetNode.renumber_id]
  inputs_eq := by rw [List.map_id, s.inputs_eq]
  outputs_eq := by rw [List.map_id, s.outputs_eq]

theorem trans (h₁ : IsoBy τ ν g h) (h₂ : IsoBy τ' ν' h k) : IsoBy (τ' ∘ τ) (ν' ∘ ν) g k where
  tensors_size := h₂.tensors_size.trans h₁.tensors_size
  nodes_size := h₂.nodes_size.trans h₁.nodes_size
  tensors_bij := h₂.tensors_bij.comp h₁.tensors_bij
  nodes_bij := h₂.nodes_bij.comp h₁.nodes_bij
  name_eq t ht := by
    rw [Function.comp_apply, h₂.name_eq _ (h₁.tensors_bij.mapsTo ht), h₁.name_eq t ht]
  payload_eq t ht := by
    rw [Function.comp_apply, h₂.payload_eq _ (h₁.tensors_bij.mapsTo ht), h₁.payload_eq t ht]
  node_eq n hn := by
    rw [Function.comp_apply, h₂.node_eq _ (h₁.nodes_bij.mapsTo hn), h₁.node_eq n hn,
      NetNode.renumber_renumber]
  inputs_eq := by rw [h₂.inputs_eq, h₁.inputs_eq, List.map_map]
  outputs_eq := by rw [h₂.outputs_eq, h₁.outputs_eq, List.map_map]

/-- An isomorphism carries each node to one of the same operator and name, with as many
inputs. -/
theorem node_shape (hi : IsoBy τ ν g h) {n : Nat} (hn : n < g.nodes.size) :
    ν n < h.nodes.size ∧ (h.node (ν n)).op = (g.node n).op ∧
      (h.node (ν n)).name = (g.node n).name ∧
      (h.node (ν n)).inputs.length = (g.node n).inputs.length := by
  refine ⟨hi.nodes_bij.mapsTo hn, ?_⟩
  rw [hi.node_eq n hn]
  exact ⟨rfl, rfl, List.length_map _⟩

end IsoBy

theorem Iso.trans {g h k : Netlist} : Iso g h → Iso h k → Iso g k
  | ⟨_, _, h₁⟩, ⟨_, _, h₂⟩ => ⟨_, _, h₁.trans h₂⟩

theorem Iso.of_same {g h : Netlist} (s : Same g h) : Iso g h := ⟨id, id, .of_same s⟩

/-! ### Appending blocks to isomorphic netlists -/

/-- The renumbering `τ` below `size` and the identity from `size` on. -/
def extendBy (size : Nat) (τ : Nat → Nat) (t : Nat) : Nat := if t < size then τ t else t

theorem bijOn_extendBy {size : Nat} {τ : Nat → Nat}
    (h : Set.BijOn τ (Set.Iio size) (Set.Iio size)) (m : Nat) :
    Set.BijOn (extendBy size τ) (Set.Iio (size + m)) (Set.Iio (size + m)) := by
  refine ⟨fun t ht => ?_, fun x hx y hy hxy => ?_, fun y hy => ?_⟩
  · simp only [Set.mem_Iio, extendBy] at ht ⊢
    split
    · have := h.mapsTo (Set.mem_Iio.2 (by assumption))
      simp only [Set.mem_Iio] at this
      omega
    · exact ht
  · simp only [extendBy] at hxy
    split at hxy <;> split at hxy
    · exact h.injOn (Set.mem_Iio.2 (by assumption)) (Set.mem_Iio.2 (by assumption)) hxy
    · -- a renumbered tensor stays below `size`, an unmoved one does not
      have := h.mapsTo (Set.mem_Iio.2 (by assumption : x < size))
      simp only [Set.mem_Iio] at this
      omega
    · have := h.mapsTo (Set.mem_Iio.2 (by assumption : y < size))
      simp only [Set.mem_Iio] at this
      omega
    · exact hxy
  · simp only [Set.mem_Iio] at hy
    by_cases hys : y < size
    · obtain ⟨x, hx, rfl⟩ := h.surjOn (Set.mem_Iio.2 hys)
      simp only [Set.mem_Iio] at hx
      exact ⟨x, Set.mem_Iio.2 (by omega), by simp [extendBy, hx]⟩
    · exact ⟨y, Set.mem_Iio.2 hy, by simp [extendBy, hys]⟩

/-- Appending a block to isomorphic netlists keeps them isomorphic, when the renumbering
fixes every tensor below `base` and the block reads no other old tensor. -/
theorem IsoBy.appendBlock {τ ν : Nat → Nat} {g h : Netlist} (hi : IsoBy τ ν g h) (hg : g.InRange)
    {base : Nat} (hbase : base ≤ g.tensors.size) (hfix : ∀ t < base, τ t = t) {b : Block}
    (hb : b.PortsBelow base) :
    IsoBy (extendBy g.tensors.size τ) (extendBy g.nodes.size ν) (g.appendBlock b)
      (h.appendBlock b) where
  tensors_size := by simp [hi.tensors_size]
  nodes_size := by simp [hi.nodes_size]
  tensors_bij := by
    have hb := hi.tensors_bij
    rw [hi.tensors_size] at hb
    simpa [hi.tensors_size] using bijOn_extendBy hb b.tensors.length
  nodes_bij := by
    have hb := hi.nodes_bij
    rw [hi.nodes_size] at hb
    simpa [hi.nodes_size] using bijOn_extendBy hb b.nodes.length
  name_eq t _ := by
    by_cases ht : t < g.tensors.size
    · have hτ := hi.tensors_bij.mapsTo ht
      simp only [Set.mem_Iio] at hτ
      rw [extendBy, if_pos ht, tensor_appendBlock_of_lt _ _ hτ, tensor_appendBlock_of_lt _ _ ht,
        hi.name_eq t ht]
    · rw [extendBy, if_neg ht, tensor_appendBlock, tensor_appendBlock, if_neg ht,
        hi.tensors_size, if_neg ht]
  payload_eq t _ := by
    by_cases ht : t < g.tensors.size
    · have hτ := hi.tensors_bij.mapsTo ht
      simp only [Set.mem_Iio] at hτ
      rw [extendBy, if_pos ht, tensor_appendBlock_of_lt _ _ hτ, tensor_appendBlock_of_lt _ _ ht,
        hi.payload_eq t ht]
    · rw [extendBy, if_neg ht, tensor_appendBlock, tensor_appendBlock, if_neg ht,
        hi.tensors_size, if_neg ht]
  node_eq n _ := by
    by_cases hn : n < g.nodes.size
    · -- an old node: its ends are old tensors, renumbered by `τ`
      have hν := hi.nodes_bij.mapsTo hn
      simp only [Set.mem_Iio] at hν
      rw [extendBy, if_pos hn, node_appendBlock_of_lt _ _ hν, node_appendBlock_of_lt _ _ hn,
        hi.node_eq n hn]
      refine NetNode.renumber_congr _ fun side t ht => ?_
      rw [extendBy, if_pos (hg.ends_lt n side t ht)]
    · -- an appended node: its old ports are fixed and its new ones stay in place
      rw [extendBy, if_neg hn, node_appendBlock, node_appendBlock, if_neg hn, hi.nodes_size,
        if_neg hn, hi.tensors_size]
      unfold Block.nodeAt
      split
      · rename_i x hx
        refine (BlockNode.renumber_place x fun p hp => ?_).symm
        have hpb := hb x (List.mem_of_getElem? hx) p hp
        cases p with
        | old t => simp only [Port.place, extendBy, if_pos (Nat.lt_of_lt_of_le hpb hbase), hfix t hpb]
        | new k => simp [Port.place, extendBy]
      · rfl
  inputs_eq := by
    rw [inputs_appendBlock, inputs_appendBlock, hi.inputs_eq]
    exact List.map_congr_left fun t ht => by rw [extendBy, if_pos (hg.inputs_lt t ht)]
  outputs_eq := by
    rw [outputs_appendBlock, outputs_appendBlock, hi.outputs_eq]
    exact List.map_congr_left fun t ht => by rw [extendBy, if_pos (hg.outputs_lt t ht)]

/-- Appending the same blocks to isomorphic netlists keeps them isomorphic, when the
renumbering fixes every tensor below `base` and the blocks read no other old tensor. -/
theorem IsoBy.appendBlocks {base : Nat} :
    ∀ {bs : List Block} {τ ν : Nat → Nat} {g h : Netlist}, IsoBy τ ν g h → g.InRange →
      base ≤ g.tensors.size → (∀ t < base, τ t = t) → (∀ b ∈ bs, b.PortsBelow base) →
      ∃ τ' ν', IsoBy τ' ν' (g.appendBlocks bs) (h.appendBlocks bs) ∧ ∀ t < base, τ' t = t
  | [], τ, ν, _, _, hi, _, _, hfix, _ => ⟨τ, ν, hi, hfix⟩
  | b :: bs, τ, ν, g, _, hi, hg, hbase, hfix, hb => by
    have hb₀ := hb b List.mem_cons_self
    have hfix' : ∀ t < base, extendBy g.tensors.size τ t = t := fun t ht => by
      rw [extendBy, if_pos (Nat.lt_of_lt_of_le ht hbase), hfix t ht]
    rw [appendBlocks_cons, appendBlocks_cons]
    exact IsoBy.appendBlocks (hi.appendBlock hg hbase hfix hb₀)
      (hg.appendBlock (hb₀.mono hbase)) (Nat.le_trans hbase (by simp)) hfix'
      fun b' hb' => hb b' (List.mem_cons_of_mem _ hb')

/-! ### Blocks in either order -/

/-- Exchanges the `a` entries from `base` on with the `b` entries after them. -/
def swapBlocks (base a b t : Nat) : Nat :=
  if t < base then t else if t < base + a then t + b else if t < base + a + b then t - a else t

theorem bijOn_swapBlocks (base a b : Nat) :
    Set.BijOn (swapBlocks base a b) (Set.Iio (base + a + b)) (Set.Iio (base + b + a)) := by
  refine ⟨fun t ht => ?_, fun x hx y hy hxy => ?_, fun y hy => ?_⟩
  · simp only [Set.mem_Iio, swapBlocks] at ht ⊢
    split_ifs <;> omega
  · simp only [Set.mem_Iio, swapBlocks] at hx hy hxy
    split_ifs at hxy <;> omega
  · -- the exchange back is the preimage
    refine ⟨swapBlocks base b a y, ?_, ?_⟩
    · simp only [Set.mem_Iio, swapBlocks] at hy ⊢
      split_ifs <;> omega
    · simp only [Set.mem_Iio] at hy
      simp only [swapBlocks]
      split_ifs <;> omega

/-- A block node placed after another block, renumbered by the exchange, is the node placed
before it. -/
theorem BlockNode.renumber_place_swap (x : BlockNode) {base a b count : Nat}
    (hx : ∀ p ∈ x.inputs ++ x.outputs, p.Below base count) {from₀ to₀ : Nat}
    (hmove : ∀ k < count, swapBlocks base a b (from₀ + k) = to₀ + k) :
    (x.place from₀).renumber (swapBlocks base a b) = x.place to₀ := by
  refine BlockNode.renumber_place x fun p hp => ?_
  have hpb := hx p hp
  cases p with
  | old t =>
    simp only [Port.Below] at hpb
    show swapBlocks base a b t = t
    simp [swapBlocks, hpb]
  | new k => exact hmove k hpb

/-- Two blocks that read only tensors before them give isomorphic netlists in either order. -/
theorem appendBlock_swap (g : Netlist) (hg : g.InRange) {b₁ b₂ : Block}
    (h₁ : b₁.PortsBelow g.tensors.size) (h₂ : b₂.PortsBelow g.tensors.size) :
    IsoBy (swapBlocks g.tensors.size b₁.tensors.length b₂.tensors.length)
      (swapBlocks g.nodes.size b₁.nodes.length b₂.nodes.length)
      ((g.appendBlock b₁).appendBlock b₂) ((g.appendBlock b₂).appendBlock b₁) where
  tensors_size := by simp only [tensors_size_appendBlock]; omega
  nodes_size := by simp only [nodes_size_appendBlock]; omega
  tensors_bij := by
    simp only [tensors_size_appendBlock]
    exact bijOn_swapBlocks _ _ _
  nodes_bij := by
    simp only [nodes_size_appendBlock]
    exact bijOn_swapBlocks _ _ _
  name_eq t ht := by
    simp only [tensors_size_appendBlock] at ht
    simp only [swapBlocks, tensor_appendBlock, tensors_size_appendBlock]
    split_ifs <;> first | rfl | omega | (congr 2; omega)
  payload_eq t ht := by
    simp only [tensors_size_appendBlock] at ht
    simp only [swapBlocks, tensor_appendBlock, tensors_size_appendBlock]
    split_ifs <;> first | rfl | omega | (congr 2; omega)
  node_eq n hn := by
    simp only [nodes_size_appendBlock] at hn
    by_cases h0 : n < g.nodes.size
    · -- an old node reads and writes old tensors, which the exchange fixes
      rw [show swapBlocks g.nodes.size b₁.nodes.length b₂.nodes.length n = n by
          simp [swapBlocks, h0],
        node_appendBlock_of_lt _ _ (by simp; omega), node_appendBlock_of_lt _ _ h0,
        node_appendBlock_of_lt _ _ (by simp; omega), node_appendBlock_of_lt _ _ h0]
      refine ((NetNode.renumber_congr _ fun side t ht => ?_).trans (NetNode.renumber_id _)).symm
      simp [swapBlocks, hg.ends_lt n side t ht]
    · obtain ⟨k, rfl⟩ := Nat.exists_eq_add_of_le (Nat.le_of_not_lt h0)
      by_cases h1 : k < b₁.nodes.length
      · -- a node of the first block moves behind the second
        rw [show swapBlocks g.nodes.size b₁.nodes.length b₂.nodes.length (g.nodes.size + k) =
            (g.appendBlock b₂).nodes.size + k by simp [swapBlocks, h1]; omega,
          node_appendBlock_add, node_appendBlock_of_lt _ _ (by simp; omega),
          node_appendBlock_add]
        unfold Block.nodeAt
        split
        · rename_i x hx
          refine (BlockNode.renumber_place_swap x (h₁ x (List.mem_of_getElem? hx))
            fun j hj => ?_).symm
          simp only [swapBlocks, tensors_size_appendBlock]
          split_ifs <;> omega
        · rfl
      · obtain ⟨j, rfl⟩ := Nat.exists_eq_add_of_le (Nat.le_of_not_lt h1)
        -- a node of the second block moves before the first
        rw [show swapBlocks g.nodes.size b₁.nodes.length b₂.nodes.length
              (g.nodes.size + (b₁.nodes.length + j)) = g.nodes.size + j by
            simp only [swapBlocks]; split_ifs <;> omega,
          show g.nodes.size + (b₁.nodes.length + j) = (g.appendBlock b₁).nodes.size + j by
            simp; omega,
          node_appendBlock_add, node_appendBlock_of_lt _ _ (by simp; omega),
          node_appendBlock_add, tensors_size_appendBlock]
        unfold Block.nodeAt
        split
        · rename_i x hx
          refine (BlockNode.renumber_place_swap x (h₂ x (List.mem_of_getElem? hx))
            fun i hi => ?_).symm
          simp only [swapBlocks]
          split_ifs <;> omega
        · rfl
  inputs_eq := by
    simp only [inputs_appendBlock]
    refine (List.map_congr_left fun t ht => ?_).trans (List.map_id _) |>.symm
    simp [swapBlocks, hg.inputs_lt t ht]
  outputs_eq := by
    simp only [outputs_appendBlock]
    refine (List.map_congr_left fun t ht => ?_).trans (List.map_id _) |>.symm
    simp [swapBlocks, hg.outputs_lt t ht]

/-- Blocks that read only tensors of `g` give isomorphic netlists in any order; the
renumbering fixes the tensors of `g`. -/
theorem appendBlocks_perm {bs bs' : List Block} (hp : bs.Perm bs') :
    ∀ (g : Netlist), g.InRange → (∀ b ∈ bs, b.PortsBelow g.tensors.size) →
      ∃ τ ν, IsoBy τ ν (g.appendBlocks bs) (g.appendBlocks bs') ∧ ∀ t < g.tensors.size, τ t = t := by
  induction hp with
  | nil => exact fun g _ _ => ⟨id, id, .refl _, fun _ _ => rfl⟩
  | cons b _ ih =>
    intro g hg hb
    have hb₀ := hb b List.mem_cons_self
    obtain ⟨τ, ν, hi, hfix⟩ := ih (g.appendBlock b) (hg.appendBlock hb₀)
      fun b' hb' => (hb b' (List.mem_cons_of_mem _ hb')).mono (by simp)
    exact ⟨τ, ν, hi, fun t ht => hfix t (by simp; omega)⟩
  | swap x y l =>
    intro g hg hb
    have hy := hb y List.mem_cons_self
    have hx := hb x (List.mem_cons_of_mem _ List.mem_cons_self)
    -- exchange the two blocks, then append the rest alike
    have hswap := appendBlock_swap g hg hy hx
    have hfix : ∀ t < g.tensors.size,
        swapBlocks g.tensors.size y.tensors.length x.tensors.length t = t := fun t ht => by
      simp [swapBlocks, ht]
    exact IsoBy.appendBlocks hswap ((hg.appendBlock hy).appendBlock (hx.mono (by simp)))
      (by simp only [tensors_size_appendBlock]; omega) hfix fun b hb' => hb b (List.mem_cons_of_mem _ (List.mem_cons_of_mem _ hb'))
  | trans hp₁ _ ih₁ ih₂ =>
    intro g hg hb
    obtain ⟨τ₁, ν₁, hi₁, hfix₁⟩ := ih₁ g hg hb
    obtain ⟨τ₂, ν₂, hi₂, hfix₂⟩ := ih₂ g hg fun b hb' => hb b (hp₁.symm.subset hb')
    exact ⟨τ₂ ∘ τ₁, ν₂ ∘ ν₁, hi₁.trans hi₂, fun t ht => by rw [Function.comp_apply, hfix₁ t ht, hfix₂ t ht]⟩

end Netlist

end OnnxFusion

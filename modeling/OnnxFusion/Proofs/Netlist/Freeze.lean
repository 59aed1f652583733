import OnnxFusion.Netlist.Freeze
import OnnxFusion.Proofs.Netlist.Linked
/-!
# Freezing graph inputs into constants

`Netlist.freezeInputs` appends one constant per given name, relinks every node input of that
name to it, drops the graph inputs of the given names and the graph outputs listed as
unused. This module says what it does to a linked netlist.

* `Netlist.Reslotted g g'`: `g'` is `g` with some node inputs replaced and the links kept in
  step with them; names, values, nodes' other fields and the graph's inputs and outputs stay.
  `setInput_reslotted` is the step lemma for one slot; `relinkSlot_spec` and
  `relinkNode_spec` run it over the slots of one node, and `relinkInputs_spec` over all
  nodes: every slot reading a tensor of the name moves to the constant, every other slot stays
  (`redirect`).
* `freezeStep`: one constant of the fold. `Frozen g g'` is what a run of such steps keeps
  (`freezeStep_frozen`, `foldl_freezeStep_frozen`). Along the run a slot keeps its tensor while
  no later name is that tensor's name (`slot_foldl_freezeStep_keep`), a slot is taken by the
  constant of its name (`slot_freezeStep_take`), and a tensor that loses its readers never
  gets one back (`unread_foldl_freezeStep`).
* `foldlM_dropUnused`: dropping each unused graph output at its first occurrence filters
  them out, the others kept in order.
* `freezeInputs_rewires`: freezing the inputs of a linked netlist always succeeds, with the
  result `FrozenInputs` describes. A slot that read a given name reads that name's constant,
  unless a later name is the constant's own name; every other slot is unchanged; graph
  inputs and outputs are filtered by name in order; a tensor of a given name has no consumer
  left. `frozen_constant_renamed` is the input where a later name takes the constant again.
-/

set_option autoImplicit false

namespace OnnxFusion

namespace Value

/-- A list of texts holds exactly its members. -/
theorem holdsText_texts (U : List String) (s : String) :
    (Value.list (U.map .str)).holdsText s = .ok (U.contains s) := by
  simp only [holdsText, List.any_map]
  congr 1
  induction U with
  | nil => rfl
  | cons u U ih =>
    simp only [List.any_cons, List.contains_cons, Function.comp_apply, equals] at ih ⊢
    rw [ih, Bool.beq_comm]

end Value

namespace Netlist

/-! ### Replacing node inputs -/

/-- `g'` is `g` with some node inputs replaced, the links kept in step with them: every tensor
keeps its name and value, every node all but its inputs, and the graph its inputs and outputs. -/
structure Reslotted (g g' : Netlist) : Prop where
  tensors_size : g'.tensors.size = g.tensors.size
  nodes_size : g'.nodes.size = g.nodes.size
  inputs_eq : g'.inputs = g.inputs
  outputs_eq : g'.outputs = g.outputs
  name_eq : ∀ t, (g'.tensor t).name = (g.tensor t).name
  payload_eq : ∀ t, (g'.tensor t).payload = (g.tensor t).payload
  node_eq : ∀ m, g'.node m = { g.node m with inputs := (g'.node m).inputs }
  linked : g'.Linked

namespace Reslotted

variable {g g' g'' : Netlist}

theorem refl (h : g.Linked) : Reslotted g g :=
  { tensors_size := rfl, nodes_size := rfl, inputs_eq := rfl, outputs_eq := rfl,
    name_eq := fun _ => rfl, payload_eq := fun _ => rfl, node_eq := fun _ => rfl, linked := h }

theorem trans (h₁ : Reslotted g g') (h₂ : Reslotted g' g'') : Reslotted g g'' where
  tensors_size := h₂.tensors_size.trans h₁.tensors_size
  nodes_size := h₂.nodes_size.trans h₁.nodes_size
  inputs_eq := h₂.inputs_eq.trans h₁.inputs_eq
  outputs_eq := h₂.outputs_eq.trans h₁.outputs_eq
  name_eq t := (h₂.name_eq t).trans (h₁.name_eq t)
  payload_eq t := (h₂.payload_eq t).trans (h₁.payload_eq t)
  node_eq m := by rw [h₂.node_eq m, h₁.node_eq m]
  linked := h₂.linked

end Reslotted

section SetInput

variable {g : Netlist} {n i c old : Nat}

/-- Counting in a list after one of its entries is replaced. -/
theorem count_set_of_getElem? {l : List Nat} (h : l[i]? = some old) (a u : Nat) :
    (l.set i a).count u = l.count u - (if old = u then 1 else 0) + (if a = u then 1 else 0) := by
  obtain ⟨hi, rfl⟩ := List.getElem?_eq_some_iff.1 h
  rw [List.count_set hi]
  simp only [beq_iff_eq]

/-- Replacing slot `i` of node `n` by a tensor of the netlist keeps the links in step. -/
theorem setInput_reslotted (hg : g.Linked) (hc : c < g.tensors.size)
    (h : (g.node n).inputs[i]? = some old) :
    ∃ g', g.setInput n i c = .ok g' ∧ Reslotted g g' ∧
      (g'.node n).inputs = (g.node n).inputs.set i c ∧
      ∀ m, m ≠ n → (g'.node m).inputs = (g.node m).inputs := by
  have hold : old ∈ (g.node n).inputs := List.mem_of_getElem? h
  have hlink : n ∈ (g.tensor old).links .consumers := hg.mem_links_iff.2 hold
  have hn : n < g.nodes.size := hg.links_lt hlink
  -- the three updates: `old` drops `n` once, slot `i` takes `c`, `c` gains `n`
  let g₁ := g.modifyTensor old fun x => { x with consumers := eraseFirst x.consumers n }
  let g₂ := g₁.modifyNode n fun x => { x with inputs := x.inputs.set i c }
  let g₃ := g₂.modifyTensor c fun x => { x with consumers := x.consumers ++ [n] }
  have hset : g.setInput n i c = .ok g₃ := by simp [setInput, h, g₁, g₂, g₃]
  have hnode : ∀ m, g₃.node m = if m = n then { g.node n with inputs := (g.node n).inputs.set i c }
      else g.node m := by
    intro m
    simp only [g₃, g₂, g₁, node_modifyTensor, node_modifyNode, nodes_modifyTensor]
    by_cases hm : m = n
    · subst hm; simp [hn]
    · simp [hm, Ne.symm hm]
  have htensor : ∀ u, g₃.tensor u =
      { g.tensor u with consumers :=
          (if u = old then eraseFirst (g.tensor u).consumers n else (g.tensor u).consumers) ++
            (if u = c then [n] else []) } := by
    intro u
    have hend : old ∈ (g.node n).ends .consumers := hold
    have hold_lt : old < g.tensors.size := hg.ends_lt hend
    simp only [g₃, g₂, g₁, tensor_modifyTensor, tensor_modifyNode, tensors_modifyNode,
      tensors_size_modifyTensor]
    by_cases hu : u = c <;> by_cases ho : u = old
    · subst hu ho; simp [hc]
    · subst hu; simp [hc, Ne.symm ho, ho]
    · subst ho; simp [hold_lt, Ne.symm hu, hu]
    · simp [Ne.symm hu, Ne.symm ho, hu, ho]
  refine ⟨g₃, hset, ?_, by simp [hnode], fun m hm => by simp [hnode, hm]⟩
  refine ⟨by simp [g₃, g₂, g₁], by simp [g₃, g₂, g₁], rfl, rfl,
    fun u => by simp [htensor], fun u => by simp [htensor], fun m => ?_, ?_⟩
  · by_cases hm : m = n
    · subst hm; simp [hnode]
    · simp [hnode, hm]
  · refine ⟨fun side u m => ?_, fun t ht => ?_, fun t ht => ?_⟩
    · rw [htensor, hnode]
      have hcount := hg.count_eq side u m
      cases side with
      | producers =>
        by_cases hm : m = n
        · subst hm; simpa [NetTensor.links, NetNode.ends] using hcount
        · simpa [NetTensor.links, NetNode.ends, hm] using hcount
      | consumers =>
        simp only [NetTensor.links, NetNode.ends] at hcount ⊢
        by_cases hm : m = n
        · -- the node whose slot moved: one `old` fewer, one `c` more, on both sides
          subst hm
          have hpos : 0 < (g.tensor old).consumers.count m := by
            have hc' := hg.count_eq .consumers old m
            simp only [NetTensor.links, NetNode.ends] at hc'
            rw [hc']
            exact List.count_pos_iff.2 hold
          rw [if_pos rfl, count_set_of_getElem? h, ← hcount]
          simp only [eraseFirst, List.count_append]
          by_cases hu : u = old
          · subst hu
            by_cases huc : u = c
            · subst huc
              simp only [if_true, List.count_erase_self, List.count_singleton_self]
            · simp only [if_true, if_neg huc, if_neg (Ne.symm huc), List.count_erase_self,
                List.count_nil]
          · by_cases huc : u = c
            · subst huc
              simp [hu, Ne.symm hu]
            · simp [hu, huc, Ne.symm hu, Ne.symm huc]
        · -- another node: its slots stay, and only its own count on each tensor matters
          rw [if_neg hm, ← hcount]
          simp only [eraseFirst, List.count_append]
          split_ifs <;> simp [List.count_erase_of_ne hm, Ne.symm hm]
    · simpa [g₃, g₂, g₁] using hg.inputs_lt t ht
    · simpa [g₃, g₂, g₁] using hg.outputs_lt t ht

end SetInput

/-! ### Relinking the inputs of a name -/

/-- Where a slot reading `t` points once the inputs named `name` are relinked to `c`. -/
def redirect (g : Netlist) (name : String) (c t : Nat) : Nat :=
  if (g.tensor t).name = name then c else t

/-- One step of `relinkInputs`: slot `i` of node `n` moves to `c` when its tensor bears
`name`. -/
def relinkSlot (name : String) (c n : Nat) (acc : Netlist) (i : Nat) : Netlist :=
  match (acc.node n).inputs[i]? with
  | some t =>
    if (acc.tensor t).name == name then
      match acc.setInput n i c with
      | .ok g' => g'
      | .error _ => acc
    else acc
  | none => acc

theorem relinkInputs_eq (g : Netlist) (name : String) (c : Nat) :
    g.relinkInputs name c = (List.range g.nodes.size).foldl
      (fun acc n => (List.range (acc.node n).inputs.length).foldl (relinkSlot name c n) acc) g :=
  rfl

theorem Reslotted.redirect_eq {g g' : Netlist} (h : Reslotted g g') : redirect g' = redirect g := by
  funext name c t
  simp [redirect, h.name_eq]

section Relink

variable {g : Netlist} (name : String) {c : Nat}

theorem relinkSlot_spec (hg : g.Linked) (hc : c < g.tensors.size) {n i t : Nat}
    (ht : (g.node n).inputs[i]? = some t) :
    Reslotted g (relinkSlot name c n g i) ∧
      ((relinkSlot name c n g i).node n).inputs = (g.node n).inputs.set i (redirect g name c t) ∧
      ∀ m, m ≠ n → ((relinkSlot name c n g i).node m).inputs = (g.node m).inputs := by
  by_cases hname : (g.tensor t).name = name
  · obtain ⟨g', hset, hr, hn, hm⟩ := setInput_reslotted hg hc ht
    have hstep : relinkSlot name c n g i = g' := by simp [relinkSlot, ht, hname, hset]
    rw [hstep]
    exact ⟨hr, by simp [hn, redirect, hname], hm⟩
  · -- a slot of another name: nothing happens, and setting it to itself changes nothing
    have hstep : relinkSlot name c n g i = g := by simp [relinkSlot, ht, hname]
    rw [hstep]
    obtain ⟨hi, rfl⟩ := List.getElem?_eq_some_iff.1 ht
    exact ⟨.refl hg, by simp [redirect, hname], fun _ _ => rfl⟩

/-- Relinking slot `k` extends the relinked prefix by one. -/
theorem relinked_prefix_succ (f : Nat → Nat) (l : List Nat) {k : Nat} (hk : k < l.length) :
    ((l.take k).map f ++ l.drop k).set k (f l[k]) = (l.take (k + 1)).map f ++ l.drop (k + 1) := by
  have hlen : ((l.take k).map f).length = k := by simp only [List.length_map, List.length_take]; omega
  rw [List.set_append_right _ _ (by omega), hlen, Nat.sub_self, List.drop_eq_getElem_cons hk,
    List.set_cons_zero, List.take_add_one, List.getElem?_eq_getElem hk]
  simp only [Option.toList_some, List.map_append, List.map_cons, List.map_nil, List.append_assoc,
    List.singleton_append]

/-- The pass over the slots of one node relinks them one by one, in order: after `k` of them
the first `k` slots are redirected and the rest untouched. -/
theorem relinkNode_prefix (hg : g.Linked) (hc : c < g.tensors.size) (n : Nat) :
    ∀ k ≤ (g.node n).inputs.length,
      Reslotted g ((List.range k).foldl (relinkSlot name c n) g) ∧
        (((List.range k).foldl (relinkSlot name c n) g).node n).inputs =
          ((g.node n).inputs.take k).map (redirect g name c) ++ (g.node n).inputs.drop k ∧
        ∀ m, m ≠ n → (((List.range k).foldl (relinkSlot name c n) g).node m).inputs =
          (g.node m).inputs
  | 0, _ => ⟨.refl hg, by simp, fun _ _ => rfl⟩
  | k + 1, hk => by
    obtain ⟨hr, hn, hm⟩ := relinkNode_prefix hg hc n k (by omega)
    rw [List.range_succ, List.foldl_append, List.foldl_cons, List.foldl_nil]
    have ht : ((((List.range k).foldl (relinkSlot name c n) g).node n).inputs)[k]? =
        some (g.node n).inputs[k] := by
      rw [hn, List.getElem?_append_right (by simp only [List.length_map, List.length_take]; omega), List.length_map, List.length_take,
        Nat.min_eq_left (by omega), Nat.sub_self, List.getElem?_drop, Nat.add_zero,
        List.getElem?_eq_getElem (by omega)]
    obtain ⟨hr', hn', hm'⟩ := relinkSlot_spec name hr.linked
      (by rw [hr.tensors_size]; exact hc) ht
    refine ⟨hr.trans hr', ?_, fun m hmn => by rw [hm' m hmn, hm m hmn]⟩
    rw [hn', hn, hr.redirect_eq]
    exact relinked_prefix_succ _ _ (by omega)

/-- The pass over one node redirects every slot of that node and no other. -/
theorem relinkNode_spec (hg : g.Linked) (hc : c < g.tensors.size) (n : Nat) :
    Reslotted g ((List.range (g.node n).inputs.length).foldl (relinkSlot name c n) g) ∧
      (((List.range (g.node n).inputs.length).foldl (relinkSlot name c n) g).node n).inputs =
        (g.node n).inputs.map (redirect g name c) ∧
      ∀ m, m ≠ n → (((List.range (g.node n).inputs.length).foldl (relinkSlot name c n) g).node
        m).inputs = (g.node m).inputs := by
  obtain ⟨hr, hn, hm⟩ := relinkNode_prefix name hg hc n _ (Nat.le_refl _)
  exact ⟨hr, by simpa using hn, hm⟩

/-- Relinking the inputs of a name moves exactly the slots whose tensor bears the name. -/
theorem relinkInputs_spec (hg : g.Linked) (hc : c < g.tensors.size) :
    Reslotted g (g.relinkInputs name c) ∧
      ∀ m, ((g.relinkInputs name c).node m).inputs = (g.node m).inputs.map (redirect g name c) := by
  -- the pass over the first `k` nodes has redirected exactly their slots
  have hpre : ∀ k, Reslotted g ((List.range k).foldl (fun acc n =>
        (List.range (acc.node n).inputs.length).foldl (relinkSlot name c n) acc) g) ∧
      ∀ m, (((List.range k).foldl (fun acc n =>
        (List.range (acc.node n).inputs.length).foldl (relinkSlot name c n) acc) g).node m).inputs =
          if m < k then (g.node m).inputs.map (redirect g name c) else (g.node m).inputs := by
    intro k
    induction k with
    | zero => exact ⟨.refl hg, fun m => by simp⟩
    | succ k ih =>
      obtain ⟨hr, hins⟩ := ih
      rw [List.range_succ, List.foldl_append, List.foldl_cons, List.foldl_nil]
      obtain ⟨hr', hk, hm⟩ := relinkNode_spec name hr.linked
        (by rw [hr.tensors_size]; exact hc) k
      refine ⟨hr.trans hr', fun m => ?_⟩
      by_cases hmk : m = k
      · subst hmk
        rw [hk, hins, if_neg (Nat.lt_irrefl m), hr.redirect_eq, if_pos (Nat.lt_succ_self m)]
      · rw [hm m hmk, hins]
        by_cases hlt : m < k
        · rw [if_pos hlt, if_pos (by omega)]
        · rw [if_neg hlt, if_neg (by omega)]
  obtain ⟨hr, hins⟩ := hpre g.nodes.size
  refine ⟨hr, fun m => ?_⟩
  rw [relinkInputs_eq, hins]
  split
  · rfl
  · -- a node past the end reads nothing
    rw [node_of_le (by omega)]
    rfl

end Relink

/-! ### Freezing one name after another -/

/-- One constant of `freezeInputs`: it is appended, and the inputs of its name are relinked
to it. -/
def freezeStep (acc : Netlist) (e : String × Tensor) : Netlist :=
  match e with
  | (name, t) =>
    let (acc, c) := acc.addTensor ("constant_" ++ name) (.constant (.array t))
    acc.relinkInputs name c

/-- `freezeInputs` runs the steps, then filters the graph inputs and the graph outputs. -/
theorem freezeInputs_eq (g : Netlist) (C : List (String × Tensor)) (U : Value) :
    g.freezeInputs C U =
      (let g₁ := C.foldl freezeStep g
       let g₂ := { g₁ with inputs := g₁.inputs.filter fun t => !C.any (·.1 == (g₁.tensor t).name) }
       g₂.outputs.foldlM (fun acc t => do
         if ← U.holdsText (acc.tensor t).name then pure { acc with outputs := acc.outputs.erase t }
         else pure acc) g₂) :=
  rfl

/-- What a run of freezing steps keeps: the old tensors with their names and values, the
nodes but for their inputs, the graph inputs and outputs, and the links in step. -/
structure Frozen (g g' : Netlist) : Prop where
  tensors_size : g.tensors.size ≤ g'.tensors.size
  nodes_size : g'.nodes.size = g.nodes.size
  inputs_eq : g'.inputs = g.inputs
  outputs_eq : g'.outputs = g.outputs
  name_eq : ∀ t < g.tensors.size, (g'.tensor t).name = (g.tensor t).name
  payload_eq : ∀ t < g.tensors.size, (g'.tensor t).payload = (g.tensor t).payload
  node_eq : ∀ m, g'.node m = { g.node m with inputs := (g'.node m).inputs }
  length_eq : ∀ m, (g'.node m).inputs.length = (g.node m).inputs.length
  linked : g'.Linked

namespace Frozen

variable {g g' g'' : Netlist}

theorem refl (h : g.Linked) : Frozen g g :=
  { tensors_size := Nat.le_refl _, nodes_size := rfl, inputs_eq := rfl, outputs_eq := rfl,
    name_eq := fun _ _ => rfl, payload_eq := fun _ _ => rfl, node_eq := fun _ => rfl,
    length_eq := fun _ => rfl, linked := h }

theorem trans (h₁ : Frozen g g') (h₂ : Frozen g' g'') : Frozen g g'' where
  tensors_size := Nat.le_trans h₁.tensors_size h₂.tensors_size
  nodes_size := h₂.nodes_size.trans h₁.nodes_size
  inputs_eq := h₂.inputs_eq.trans h₁.inputs_eq
  outputs_eq := h₂.outputs_eq.trans h₁.outputs_eq
  name_eq t ht := (h₂.name_eq t (Nat.lt_of_lt_of_le ht h₁.tensors_size)).trans (h₁.name_eq t ht)
  payload_eq t ht :=
    (h₂.payload_eq t (Nat.lt_of_lt_of_le ht h₁.tensors_size)).trans (h₁.payload_eq t ht)
  node_eq m := by rw [h₂.node_eq m, h₁.node_eq m]
  length_eq m := (h₂.length_eq m).trans (h₁.length_eq m)
  linked := h₂.linked

end Frozen

section Step

variable {acc : Netlist}

/-- One freezing step: the constant is the tensor past the old ones, and every slot moves as
`redirect` says. -/
theorem freezeStep_spec (h : acc.Linked) (k : String) (v : Tensor) :
    Frozen acc (freezeStep acc (k, v)) ∧
      (freezeStep acc (k, v)).tensors.size = acc.tensors.size + 1 ∧
      ((freezeStep acc (k, v)).tensor acc.tensors.size).name = "constant_" ++ k ∧
      ((freezeStep acc (k, v)).tensor acc.tensors.size).payload = .constant (.array v) ∧
      ∀ m, ((freezeStep acc (k, v)).node m).inputs =
        (acc.node m).inputs.map (redirect acc k acc.tensors.size) := by
  let g₁ := (acc.addTensor ("constant_" ++ k) (.constant (.array v))).1
  have hg₁ : g₁.Linked := h.addTensor _ _
  have hc : acc.tensors.size < g₁.tensors.size := by simp [g₁]
  obtain ⟨hr, hins⟩ := relinkInputs_spec k hg₁ hc
  have hstep : freezeStep acc (k, v) = g₁.relinkInputs k acc.tensors.size := rfl
  have hold : ∀ t, t < acc.tensors.size → g₁.tensor t = acc.tensor t := fun t ht => by
    simp [g₁, tensor_addTensor, Nat.ne_of_lt ht]
  have hnew : g₁.tensor acc.tensors.size = ⟨"constant_" ++ k, .constant (.array v), [], []⟩ := by
    simp [g₁, tensor_addTensor]
  rw [hstep]
  refine ⟨⟨by rw [hr.tensors_size]; omega, by rw [hr.nodes_size]; rfl, hr.inputs_eq, hr.outputs_eq,
      fun t ht => by rw [hr.name_eq, hold t ht], fun t ht => by rw [hr.payload_eq, hold t ht],
      fun m => by rw [hr.node_eq m]; rfl, fun m => by rw [hins m, List.length_map]; rfl,
      hr.linked⟩, by rw [hr.tensors_size]; simp [g₁], by rw [hr.name_eq, hnew],
      by rw [hr.payload_eq, hnew], fun m => ?_⟩
  -- every slot of a linked netlist reads an old tensor, where the two netlists agree
  rw [hins m]
  refine List.map_congr_left fun t ht => ?_
  have hend : t ∈ (acc.node m).ends .consumers := ht
  simp [redirect, hold t (h.ends_lt hend)]

theorem freezeStep_frozen (h : acc.Linked) (e : String × Tensor) : Frozen acc (freezeStep acc e) :=
  (freezeStep_spec h e.1 e.2).1

/-- A run of freezing steps appends one tensor per name. -/
theorem foldl_freezeStep_frozen (S : List (String × Tensor)) :
    ∀ acc : Netlist, acc.Linked → Frozen acc (S.foldl freezeStep acc) ∧
      (S.foldl freezeStep acc).tensors.size = acc.tensors.size + S.length := by
  induction S with
  | nil => exact fun acc h => ⟨.refl h, rfl⟩
  | cons e S ih =>
    intro acc h
    obtain ⟨hf, hsize, -⟩ := freezeStep_spec h e.1 e.2
    obtain ⟨hf', hsize'⟩ := ih _ hf.linked
    refine ⟨hf.trans hf', ?_⟩
    rw [List.foldl_cons, hsize', hsize, List.length_cons]
    omega

/-- A slot keeps its tensor through a run in which no name is that tensor's name. -/
theorem slot_foldl_freezeStep_keep (S : List (String × Tensor)) :
    ∀ acc : Netlist, acc.Linked → ∀ m j t : Nat, (acc.node m).inputs[j]? = some t →
      (acc.tensor t).name ∉ S.map Prod.fst → ((S.foldl freezeStep acc).node m).inputs[j]? = some t := by
  induction S with
  | nil => exact fun acc _ m j t ht _ => ht
  | cons e S ih =>
    intro acc h m j t ht hname
    obtain ⟨hf, -, -, -, hins⟩ := freezeStep_spec h e.1 e.2
    have hend : t ∈ (acc.node m).ends .consumers := List.mem_of_getElem? ht
    have htlt := h.ends_lt hend
    have hne : (acc.tensor t).name ≠ e.1 := fun he => hname (by simp [← he])
    refine ih _ hf.linked m j t ?_ ?_
    · rw [hins m, List.getElem?_map, ht]
      simp [redirect, hne]
    · rw [hf.name_eq t htlt]
      exact fun hm => hname (List.mem_cons_of_mem _ hm)

/-- The step of a name takes every slot whose tensor bears that name. -/
theorem slot_freezeStep_take (h : acc.Linked) (k : String) (v : Tensor) {m j t : Nat}
    (ht : (acc.node m).inputs[j]? = some t) (hname : (acc.tensor t).name = k) :
    ((freezeStep acc (k, v)).node m).inputs[j]? = some acc.tensors.size := by
  rw [(freezeStep_spec h k v).2.2.2.2 m, List.getElem?_map, ht]
  simp [redirect, hname]

/-- After the step of its name, no node reads a tensor. -/
theorem unread_freezeStep (h : acc.Linked) (k : String) (v : Tensor) {x : Nat}
    (hx : x < acc.tensors.size) (hname : (acc.tensor x).name = k) (m : Nat) :
    x ∉ ((freezeStep acc (k, v)).node m).inputs := by
  rw [(freezeStep_spec h k v).2.2.2.2 m, List.mem_map]
  rintro ⟨t, -, ht⟩
  unfold redirect at ht
  split at ht
  · omega
  · exact absurd (ht ▸ hname) ‹_›

/-- A tensor no node reads stays unread: slots only move to new constants. -/
theorem unread_foldl_freezeStep (S : List (String × Tensor)) :
    ∀ acc : Netlist, acc.Linked → ∀ x < acc.tensors.size, (∀ m, x ∉ (acc.node m).inputs) →
      ∀ m, x ∉ ((S.foldl freezeStep acc).node m).inputs := by
  induction S with
  | nil => exact fun _ _ _ _ hx => hx
  | cons e S ih =>
    intro acc h x hx hunread
    obtain ⟨hf, -, -, -, hins⟩ := freezeStep_spec h e.1 e.2
    refine ih _ hf.linked x (Nat.lt_of_lt_of_le hx hf.tensors_size) fun m => ?_
    rw [hins m, List.mem_map]
    rintro ⟨t, htm, ht⟩
    unfold redirect at ht
    split at ht
    · omega
    · exact hunread m (ht ▸ htm)

end Step

/-! ### Dropping unused outputs -/

/-- Dropping the unused outputs one at a time, each at its first occurrence, filters them out:
the first occurrence of an unused output is always the one the pass stands at, since the
outputs passed over so far are all kept. -/
theorem foldlM_dropUnused (g : Netlist) (U : List String) :
    ∀ rest done : List Nat,
      rest.foldlM (fun acc t => do
          if ← (Value.list (U.map .str)).holdsText (acc.tensor t).name then
            pure { acc with outputs := acc.outputs.erase t }
          else pure acc)
        ({ g with outputs := done.filter (fun t => (g.tensor t).name ∉ U) ++ rest } : Netlist) =
      (.ok { g with outputs := (done ++ rest).filter (fun t => (g.tensor t).name ∉ U) } :
        Outcome Netlist)
  | [], done => by simp [pure, Except.pure]
  | t :: rest, done => by
    have hheld := Value.holdsText_texts U (g.tensor t).name
    have htensor : ({ g with outputs := done.filter (fun t => (g.tensor t).name ∉ U) ++ t :: rest } :
        Netlist).tensor t = g.tensor t := rfl
    rw [List.foldlM_cons, htensor, hheld]
    simp only [bind, Except.bind, pure, Except.pure]
    by_cases hu : (g.tensor t).name ∈ U
    · -- an unused output: none of the kept ones is it, so its first occurrence is this one
      have hnot : t ∉ done.filter (fun t => (g.tensor t).name ∉ U) := by simp [hu]
      simp only [List.contains_iff_mem, hu, if_true]
      rw [List.erase_append_right _ hnot, List.erase_cons_head]
      have h := foldlM_dropUnused g U rest (done ++ [t])
      simp only [List.filter_append, hu, List.filter_cons, not_true_eq_false, decide_false,
        List.filter_nil, List.append_assoc, List.singleton_append] at h ⊢
      exact h
    · simp only [List.contains_iff_mem, hu, if_false]
      have h := foldlM_dropUnused g U rest (done ++ [t])
      simp only [List.filter_append, hu, List.filter_cons, not_false_eq_true, decide_true,
        if_true, List.filter_nil, List.append_assoc, List.singleton_append] at h ⊢
      exact h


/-! ### The whole edit -/

/-- What freezing the names of `C` into `g`, with the outputs named in `U` unused, leaves in
`g'`: the nodes with as many inputs as before; each slot that read a tensor of a given name
`k` reads a new constant `constant_k` holding `k`'s values, unless a later name is that
constant's own name; every slot reading a tensor of no given name unchanged; the graph inputs
of no given name and the graph outputs of no unused name, in order; and no reader left on a
tensor of a given name. -/
structure FrozenInputs (g : Netlist) (C : List (String × Tensor)) (U : List String)
    (g' : Netlist) : Prop where
  nodes_size : g'.nodes.size = g.nodes.size
  length_eq : ∀ m, (g'.node m).inputs.length = (g.node m).inputs.length
  slot_taken : ∀ P k v S, C = P ++ (k, v) :: S → "constant_" ++ k ∉ S.map Prod.fst →
    ∀ m j t : Nat, (g.node m).inputs[j]? = some t → (g.tensor t).name = k →
      ∃ c, g.tensors.size ≤ c ∧ (g'.node m).inputs[j]? = some c ∧
        (g'.tensor c).name = "constant_" ++ k ∧ (g'.tensor c).payload = .constant (.array v)
  slot_kept : ∀ m j t : Nat, (g.node m).inputs[j]? = some t →
    (g.tensor t).name ∉ C.map Prod.fst → (g'.node m).inputs[j]? = some t
  inputs_eq : g'.inputs = g.inputs.filter (fun t => (g.tensor t).name ∉ C.map Prod.fst)
  outputs_eq : g'.outputs = g.outputs.filter (fun t => (g.tensor t).name ∉ U)
  unread : ∀ x < g.tensors.size, (g.tensor x).name ∈ C.map Prod.fst →
    (g'.tensor x).consumers = []

/-- Freezing the inputs of a linked netlist, given as a mapping from names to values, always
succeeds and does what `FrozenInputs` says. -/
theorem freezeInputs_rewires {g : Netlist} (hg : g.Linked) {C : List (String × Tensor)}
    (hC : (C.map Prod.fst).Nodup) (U : List String) :
    ∃ g', g.freezeInputs C (.list (U.map .str)) = .ok g' ∧ FrozenInputs g C U g' := by
  obtain ⟨hf, -⟩ := foldl_freezeStep_frozen C g hg
  set g₁ := C.foldl freezeStep g with hg₁
  -- the graph inputs and outputs are old tensors, whose names the steps keep
  have hname : ∀ t ∈ g.inputs ++ g.outputs, (g₁.tensor t).name = (g.tensor t).name := by
    intro t ht
    rcases List.mem_append.1 ht with ht | ht
    · exact hf.name_eq t (hg.inputs_lt t ht)
    · exact hf.name_eq t (hg.outputs_lt t ht)
  let g₂ : Netlist := { g₁ with inputs := g₁.inputs.filter fun t => !C.any (·.1 == (g₁.tensor t).name) }
  have hrun := foldlM_dropUnused g₂ U g₂.outputs []
  simp only [List.filter_nil, List.nil_append] at hrun
  refine ⟨{ g₂ with outputs := g₂.outputs.filter fun t => (g₂.tensor t).name ∉ U },
    by rw [freezeInputs_eq]; exact hrun, hf.nodes_size, hf.length_eq, ?_, ?_, ?_, ?_, ?_⟩
  · -- a slot of a given name: kept through the earlier names, taken by its own, kept after
    intro P k v S hsplit hlater m j t ht htk
    have hk : k ∉ P.map Prod.fst := by
      rw [hsplit, List.map_append, List.map_cons] at hC
      exact fun hmem => (List.nodup_append.1 hC).2.2 k hmem k (List.mem_cons_self) rfl
    have hend : t ∈ (g.node m).ends .consumers := List.mem_of_getElem? ht
    have htlt := hg.ends_lt hend
    obtain ⟨hP, hPsize⟩ := foldl_freezeStep_frozen P g hg
    set accP := P.foldl freezeStep g
    have hslotP := slot_foldl_freezeStep_keep P g hg m j t ht (by rw [htk]; exact hk)
    have hnameP : (accP.tensor t).name = k := by rw [hP.name_eq t htlt, htk]
    obtain ⟨hK, -, hcname, hcpay, -⟩ := freezeStep_spec hP.linked k v
    have hslotK := slot_freezeStep_take hP.linked k v hslotP hnameP
    obtain ⟨hS, -⟩ := foldl_freezeStep_frozen S _ hK.linked
    have hclt : accP.tensors.size < (freezeStep accP (k, v)).tensors.size := by
      rw [(freezeStep_spec hP.linked k v).2.1]; omega
    have hg₁split : g₁ = S.foldl freezeStep (freezeStep accP (k, v)) := by
      rw [hg₁, hsplit, List.foldl_append, List.foldl_cons]
    refine ⟨accP.tensors.size, by omega, ?_, ?_, ?_⟩
    · show (g₁.node m).inputs[j]? = _
      rw [hg₁split]
      exact slot_foldl_freezeStep_keep S _ hK.linked m j _ hslotK (by rw [hcname]; exact hlater)
    · show (g₁.tensor _).name = _
      rw [hg₁split, hS.name_eq _ hclt, hcname]
    · show (g₁.tensor _).payload = _
      rw [hg₁split, hS.payload_eq _ hclt, hcpay]
  · exact fun m j t ht hnot => slot_foldl_freezeStep_keep C g hg m j t ht hnot
  · -- the kept graph inputs are read off the old names
    show g₁.inputs.filter _ = _
    rw [hf.inputs_eq]
    refine List.filter_congr fun t ht => ?_
    rw [hname t (List.mem_append_left _ ht), Bool.not_eq_eq_eq_not, decide_not, Bool.not_not,
      Bool.eq_iff_iff]
    simp only [List.any_eq_true, beq_iff_eq, List.mem_map, decide_eq_true_eq]
  · show g₁.outputs.filter _ = _
    rw [hf.outputs_eq]
    refine List.filter_congr fun t ht => ?_
    show decide ((g₁.tensor t).name ∉ U) = _
    rw [hname t (List.mem_append_right _ ht)]
  · -- the tensor of a given name is unread after its step, so it keeps no consumer
    intro x hx hmem
    obtain ⟨⟨k, v⟩, hkv, hxk⟩ := List.mem_map.1 hmem
    obtain ⟨P, S, hsplit⟩ := List.append_of_mem hkv
    obtain ⟨hP, -⟩ := foldl_freezeStep_frozen P g hg
    have hunread := unread_freezeStep hP.linked k v (Nat.lt_of_lt_of_le hx hP.tensors_size)
      (by rw [hP.name_eq x hx]; exact hxk.symm)
    have hK := freezeStep_frozen hP.linked (k, v)
    have hnone := unread_foldl_freezeStep S _ hK.linked x
      (Nat.lt_of_lt_of_le (Nat.lt_of_lt_of_le hx hP.tensors_size) hK.tensors_size) hunread
    rw [← List.foldl_cons, ← List.foldl_append, ← hsplit, ← hg₁] at hnone
    show (g₁.tensor x).consumers = []
    refine List.eq_nil_iff_forall_not_mem.2 fun m hm => hnone m ?_
    have hlink : m ∈ (g₁.tensor x).links .consumers := hm
    exact hf.linked.mem_links_iff.1 hlink

/-- `Relu` of the graph input `x`, beside a graph input already called `constant_x`. -/
def frozenPairModel : GraphDef where
  nodes := [⟨"Relu", "R", ["x"], ["y"], []⟩]
  initializers := []
  inputs := [⟨"x", "float32", some [.size 1]⟩, ⟨"constant_x", "float32", some [.size 1]⟩]
  outputs := [⟨"y", "float32", some [.size 1]⟩]
  valueInfo := []

theorem frozenPairModel_rewires :
    (ofGraphDef frozenPairModel).Linked ∧ (["x"]).Nodup ∧
      ∃ g', (ofGraphDef frozenPairModel).freezeInputs [("x", ⟨.float32, [1], [.real 1.0]⟩)]
          (.list (["y"].map .str)) = .ok g' ∧
        FrozenInputs (ofGraphDef frozenPairModel) [("x", ⟨.float32, [1], [.real 1.0]⟩)] ["y"] g' :=
  ⟨ofGraphDef_linked frozenPairModel, by decide,
    freezeInputs_rewires (ofGraphDef_linked frozenPairModel) (by decide) ["y"]⟩

/-- When a later name is the constant's own name, it takes the constant's slots again: with
`x` and then `constant_x` frozen, the `Relu` that read `x` reads `constant_constant_x`. -/
theorem frozen_constant_renamed :
    ∃ g', (ofGraphDef frozenPairModel).freezeInputs
        [("x", ⟨.float32, [1], [.real 1.0]⟩), ("constant_x", ⟨.float32, [1], [.real 2.0]⟩)]
        (.list []) = .ok g' ∧
      ((g'.node 0).inputs[0]?).map (fun c => (g'.tensor c).name) = some "constant_constant_x" :=
  ⟨_, rfl, rfl⟩

end Netlist

end OnnxFusion

import OnnxFusion.Jobs
import OnnxFusion.Proofs.Analysis.Ranking
import OnnxFusion.Proofs.Optimizer.TensorNames
import OnnxFusion.Proofs.Netlist.Skeleton
/-!
# Splicing an identity node after a tensor

`Netlist.spliceIdentity name` finds the tensor `t` of a name and unlinks its first consumer
`c` from it (first occurrences on both sides). It then appends a variable
`<name>_identity_out` of `t`'s element type and shape, and an `Identity` node reading `t` and
writing that variable, and inserts the variable as the first input of `c`.

* `node_insertInput`, `tensor_insertInput`: inserting an input, in closed form.
  `Linked.insertInput`: inserting a tensor at a position within a node's inputs keeps the two
  sides of every link in step.
* `IdentitySpliced g name t c g'`: what the splice leaves. `spliceIdentity_spliced` proves it
  of every linked netlist where the name finds a tensor with a consumer.
* `IdentitySpliced.inPlace_iff_first` and `IdentitySpliced.readsThrough_iff_first`: the
  consumer reads the new variable where it first read `t`, and every other input where it read
  it, exactly when `t` was its first input; only then does it read, through the identity, what
  it read before. Otherwise the inputs in front of `t` move one place on.
* `insertIdentity_splices`: the job that splices after tensor `1048`, on every model with a
  tensor of that name that has a consumer. `identity_before_second_input` is a model whose `Add`
  read `1048` second and reads the new variable first.
-/

set_option autoImplicit false

namespace OnnxFusion

/-- Two tensors that agree on name, value and both sides of their links are the same tensor. -/
theorem NetTensor.ext_links {x y : NetTensor} (hname : x.name = y.name)
    (hpayload : x.payload = y.payload) (hlinks : ∀ side, x.links side = y.links side) : x = y := by
  obtain ⟨name, payload, producers, consumers⟩ := x
  obtain ⟨name', payload', producers', consumers'⟩ := y
  have hp := hlinks .producers
  have hc := hlinks .consumers
  simp only [NetTensor.links] at hname hpayload hp hc
  subst hname hpayload hp hc
  rfl

namespace Netlist

/-! ### Inserting an input -/

section Insert

variable (g : Netlist) (n i t : Nat)

@[simp] theorem tensors_size_insertInput : (g.insertInput n i t).tensors.size = g.tensors.size := by
  simp [insertInput]

@[simp] theorem nodes_size_insertInput : (g.insertInput n i t).nodes.size = g.nodes.size := by
  simp [insertInput]

@[simp] theorem inputs_insertInput : (g.insertInput n i t).inputs = g.inputs := rfl

@[simp] theorem outputs_insertInput : (g.insertInput n i t).outputs = g.outputs := rfl

theorem node_insertInput (m : Nat) :
    (g.insertInput n i t).node m =
      if n = m ∧ m < g.nodes.size then { g.node m with inputs := (g.node m).inputs.insertIdx i t }
      else g.node m := by
  rw [insertInput, node_modifyTensor, node_modifyNode]

theorem tensor_insertInput (u : Nat) :
    (g.insertInput n i t).tensor u =
      if t = u ∧ u < g.tensors.size then
        { g.tensor u with consumers := (g.tensor u).consumers ++ [n] }
      else g.tensor u := by
  rw [insertInput, tensor_modifyTensor, tensor_modifyNode, tensors_modifyNode]

/-- Inserting `t` among the inputs of `n` puts `n` once more among the consumers of `t`, if
`t` is a tensor of the netlist. -/
theorem count_consumers_insertInput (ht : t < g.tensors.size) (u m : Nat) :
    ((g.insertInput n i t).tensor u).consumers.count m =
      (g.tensor u).consumers.count m + if u = t ∧ m = n then 1 else 0 := by
  rw [tensor_insertInput]
  by_cases hu : u = t
  · subst hu
    by_cases hm : m = n
    · simp [ht, hm]
    · simp [ht, hm, Ne.symm hm]
  · simp [hu, Ne.symm hu]

/-- Inserting `t` at a position no further than the end of the inputs of the node `n` puts `t`
once more among them: the list is a permutation of `t` put first. -/
theorem count_inputs_insertInput (hn : n < g.nodes.size) (hi : i ≤ (g.node n).inputs.length)
    (u m : Nat) :
    ((g.insertInput n i t).node m).inputs.count u =
      (g.node m).inputs.count u + if u = t ∧ m = n then 1 else 0 := by
  rw [node_insertInput]
  by_cases hm : m = n
  · subst hm
    rw [if_pos ⟨rfl, hn⟩, (List.perm_insertIdx t _ hi).count_eq, List.count_cons]
    by_cases hu : u = t
    · simp [hu]
    · simp [hu, Ne.symm hu]
  · simp [hm, Ne.symm hm]

/-- Inserting a tensor of the netlist among the inputs of one of its nodes, at a position no
further than their end, keeps it linked: both sides of the pair gain one occurrence. -/
theorem Linked.insertInput {g : Netlist} (h : g.Linked) {n i t : Nat} (hn : n < g.nodes.size)
    (ht : t < g.tensors.size) (hi : i ≤ (g.node n).inputs.length) : (g.insertInput n i t).Linked where
  count_eq s u m := by
    cases s with
    | consumers =>
      show ((g.insertInput n i t).tensor u).consumers.count m =
        ((g.insertInput n i t).node m).inputs.count u
      rw [count_consumers_insertInput g n i t ht, count_inputs_insertInput g n i t hn hi]
      exact congrArg (· + _) (h.count_eq .consumers u m)
    | producers =>
      -- the producers of a tensor and the outputs of a node are left alone
      rw [tensor_insertInput, node_insertInput]
      split <;> split <;> exact h.count_eq .producers u m
  inputs_lt := by simpa using h.inputs_lt
  outputs_lt := by simpa using h.outputs_lt

end Insert

/-! ### The steps of the splice in closed form -/

section Steps

variable (g : Netlist)

@[simp] theorem tensors_size_dropLink (side : Side) (t n : Nat) :
    (g.dropLink side t n).tensors.size = g.tensors.size := by
  simp [dropLink]

@[simp] theorem nodes_size_dropLink (side : Side) (t n : Nat) :
    (g.dropLink side t n).nodes.size = g.nodes.size := by
  simp [dropLink]

@[simp] theorem inputs_dropLink (side : Side) (t n : Nat) : (g.dropLink side t n).inputs = g.inputs :=
  rfl

@[simp] theorem outputs_dropLink (side : Side) (t n : Nat) :
    (g.dropLink side t n).outputs = g.outputs := rfl

/-- Dropping a link changes no tensor's element type or shape. -/
theorem typeOf_dropLink (side : Side) (t n u : Nat) :
    (g.dropLink side t n).typeOf u = g.typeOf u := by
  -- the element type and shape are read off the payload and the name, which stay
  have hname : ((g.dropLink side t n).tensor u).name = (g.tensor u).name := by
    rw [tensor_dropLink]
    split <;> simp
  have hpayload : ((g.dropLink side t n).tensor u).payload = (g.tensor u).payload := by
    rw [tensor_dropLink]
    split <;> simp
  simp only [typeOf, spec, hname, hpayload]

/-- A tensor of the netlist after appending a node: the node is put last among its producers
and its consumers, as often as the node writes and reads it. -/
theorem tensor_addNode (op name : String) (attrs : Record) (ins outs : List Nat) (u : Nat) :
    (g.addNode op name attrs ins outs).1.tensor u =
      if u < g.tensors.size then
        { g.tensor u with
          producers := (g.tensor u).producers ++ List.replicate (outs.count u) g.nodes.size
          consumers := (g.tensor u).consumers ++ List.replicate (ins.count u) g.nodes.size }
      else g.tensor u := by
  have hname := name_addNode g op name attrs ins outs u
  have hpayload := payload_addNode g op name attrs ins outs u
  have hlinks := links_addNode (g := g) op name attrs ins outs
  split
  · rename_i hu
    refine NetTensor.ext_links hname hpayload fun side => ?_
    rw [hlinks, if_pos hu]
    cases side <;> rfl
  · rename_i hu
    refine NetTensor.ext_links hname hpayload fun side => ?_
    rw [hlinks, if_neg hu, List.append_nil]

end Steps

/-- A tensor found by name in a linked netlist is a tensor of it. -/
theorem Linked.find?_lt {g : Netlist} (h : g.Linked) {name : String} {t : Nat}
    (ht : g.find? name = some t) : t < g.tensors.size := by
  rw [find?_eq_find?_reachable] at ht
  exact h.reachable_lt (List.mem_of_find?_eq_some ht)

/-! ### What the splice leaves -/

/-- The splice where `name` finds `t` and `c` is the first consumer of `t`: unlink `c` from
`t`, append the variable and the identity node, and insert the variable first among the
inputs of `c`. -/
theorem spliceIdentity_eq {g : Netlist} {name : String} {t c : Nat} {rest : List Nat}
    (ht : g.find? name = some t) (hc : (g.tensor t).consumers = c :: rest) :
    g.spliceIdentity name =
      .ok ((((g.dropLink .consumers t c).addTensor (name ++ "_identity_out")
          (.variable (g.typeOf t).1 (g.typeOf t).2)).1.addNode "Identity" (name ++ "_Identity") []
            [t] [g.tensors.size]).1.insertInput c 0 g.tensors.size) := by
  simp only [spliceIdentity, tensorNamed, ht, bind, Except.bind, hc, pure, Except.pure,
    typeOf_dropLink, addTensor_snd, tensors_size_dropLink]

/-- What splicing an identity after the tensor `t` of `name`, whose first consumer is `c`,
leaves in `g'`. One tensor is appended, the variable `<name>_identity_out` of `t`'s element
type and shape, written by the new node and read by `c`; and one node, the `Identity` node
`<name>_Identity` reading `t` and writing that variable. The consumer `c` reads the variable
first, then its old inputs less the first occurrence of `t`; `t` keeps its other consumers in
order, then the new node. Every other node and tensor, and the graph inputs and outputs,
stay, and the two sides of every link still agree. -/
structure IdentitySpliced (g : Netlist) (name : String) (t c : Nat) (g' : Netlist) : Prop where
  linked : g'.Linked
  tensors_size : g'.tensors.size = g.tensors.size + 1
  nodes_size : g'.nodes.size = g.nodes.size + 1
  inputs_eq : g'.inputs = g.inputs
  outputs_eq : g'.outputs = g.outputs
  variable_eq : g'.tensor g.tensors.size =
    ⟨name ++ "_identity_out", .variable (g.typeOf t).1 (g.typeOf t).2, [g.nodes.size], [c]⟩
  identity_eq : g'.node g.nodes.size = ⟨"Identity", name ++ "_Identity", [], [t], [g.tensors.size]⟩
  consumer_eq : g'.node c = { g.node c with inputs := g.tensors.size :: (g.node c).inputs.erase t }
  node_other : ∀ m < g.nodes.size, m ≠ c → g'.node m = g.node m
  spliced_eq : g'.tensor t =
    { g.tensor t with consumers := (g.tensor t).consumers.erase c ++ [g.nodes.size] }
  tensor_other : ∀ u < g.tensors.size, u ≠ t → g'.tensor u = g.tensor u

/-- Splicing an identity after a tensor of a linked netlist that has a consumer always
succeeds, with the result `IdentitySpliced` describes. -/
theorem spliceIdentity_spliced {g : Netlist} (hg : g.Linked) {name : String} {t c : Nat}
    {rest : List Nat} (ht : g.find? name = some t) (hc : (g.tensor t).consumers = c :: rest) :
    ∃ g', g.spliceIdentity name = .ok g' ∧ IdentitySpliced g name t c g' := by
  have htlt : t < g.tensors.size := hg.find?_lt ht
  have hcmem : c ∈ (g.tensor t).links .consumers := by
    simp [NetTensor.links, hc]
  have hclt : c < g.nodes.size := hg.links_lt hcmem
  -- the three netlists the splice passes through before the insertion
  set g₁ := g.dropLink .consumers t c with hg₁
  set g₂ := (g₁.addTensor (name ++ "_identity_out") (.variable (g.typeOf t).1 (g.typeOf t).2)).1
    with hg₂
  set g₃ := (g₂.addNode "Identity" (name ++ "_Identity") [] [t] [g.tensors.size]).1 with hg₃
  have hsize₁ : g₁.tensors.size = g.tensors.size := tensors_size_dropLink g _ _ _
  have hnodes₁ : g₁.nodes.size = g.nodes.size := nodes_size_dropLink g _ _ _
  have hsize₂ : g₂.tensors.size = g.tensors.size + 1 := by simp [hg₂, hsize₁]
  have hnodes₂ : g₂.nodes.size = g.nodes.size := by simp [hg₂, hnodes₁]
  have hl₂ : g₂.Linked := (hg.dropLink g .consumers t c).addTensor _ _
  have hl₃ : g₃.Linked := hl₂.addNode _ _ _ _ _ (by simp [hsize₂]; omega) (by simp [hsize₂])
  have hcne : c ≠ g.nodes.size := Nat.ne_of_lt hclt
  have htne : t ≠ g.tensors.size := Nat.ne_of_lt htlt
  refine ⟨g₃.insertInput c 0 g.tensors.size, spliceIdentity_eq ht hc, ?_⟩
  constructor
  · exact hl₃.insertInput (by simp [hg₃, hnodes₂]; omega) (by simp [hg₃, hsize₂]) (Nat.zero_le _)
  · simp [hg₃, hsize₂]
  · simp [hg₃, hnodes₂]
  · simp [hg₃, hg₂, hg₁]
  · simp [hg₃, hg₂, hg₁]
  · -- the variable: new before the node is appended, which writes it; then `c` reads it
    rw [tensor_insertInput, if_pos ⟨rfl, by simp [hg₃, hsize₂]⟩, hg₃, tensor_addNode,
      if_pos (by omega), hg₂, tensor_addTensor, hsize₁, if_pos rfl]
    simp [hnodes₁, htne]
  · rw [node_insertInput, if_neg (by omega), hg₃, node_addNode, if_pos hnodes₂.symm]
  · -- the consumer: unlinked from `t`, then given the variable first
    rw [node_insertInput, if_pos ⟨rfl, by simp [hg₃, hnodes₂]; omega⟩, hg₃, node_addNode,
      if_neg (by omega), hg₂, node_addTensor, hg₁, node_dropLink, if_pos ⟨rfl, hclt⟩]
    simp [NetNode.withEnds, NetNode.ends, eraseFirst]
  · intro m hm hmc
    rw [node_insertInput, if_neg (by omega), hg₃, node_addNode, if_neg (by omega), hg₂,
      node_addTensor, hg₁, node_dropLink, if_neg (by omega)]
  · -- `t`: its first consumer dropped, the new node read it
    rw [tensor_insertInput, if_neg (by omega), hg₃, tensor_addNode, if_pos (by omega), hg₂,
      tensor_addTensor, hsize₁, if_neg htne, hg₁, tensor_dropLink, if_pos ⟨rfl, htlt⟩]
    simp [NetTensor.withLinks, NetTensor.links, eraseFirst, htne.symm]
  · intro u hu hut
    rw [tensor_insertInput, if_neg (by omega), hg₃, tensor_addNode, if_pos (by omega), hg₂,
      tensor_addTensor, hsize₁, if_neg (by omega), hg₁, tensor_dropLink, if_neg (by omega)]
    simp [Ne.symm hut, (Nat.ne_of_lt hu).symm]

/-! ### Where the consumer reads the variable -/

/-- The tensor a slot reads when the output `out` of an identity is read as that identity's
input `t`. -/
def readThrough (out t u : Nat) : Nat := if u = out then t else u

/-- Putting `t` in front of a list less its first `t` gives the list back exactly when the
list starts with `t`. -/
theorem cons_erase_eq_self_iff (t : Nat) (l : List Nat) :
    t :: l.erase t = l ↔ l.head? = some t := by
  cases l with
  | nil => simp
  | cons a r =>
    by_cases h : a = t
    · subst h
      simp
    · simp [h, Ne.symm h]

/-- Putting a fresh `out` in front of a list less its first `t` puts `out` in the place of
that `t`, with every other entry in its place, exactly when the list starts with `t`. -/
theorem cons_erase_eq_set_iff {out t : Nat} {l : List Nat} (hout : out ∉ l) (ht : t ∈ l) :
    out :: l.erase t = l.set (l.idxOf t) out ↔ l.head? = some t := by
  cases l with
  | nil => simp at ht
  | cons a r =>
    by_cases h : a = t
    · subst h
      simp
    · -- the first entry stays `a`, which is not the fresh `out`
      have ha : out ≠ a := fun hoa => hout (hoa ▸ List.mem_cons_self)
      simp [h, List.idxOf_cons_ne _ h, ha]

/-- Reading a fresh `out` as `t` turns `out` put in front of a list less its first `t` into
`t` put in front of it. -/
theorem map_readThrough {out t : Nat} {l : List Nat} (hout : out ∉ l) :
    (out :: l.erase t).map (readThrough out t) = t :: l.erase t := by
  rw [List.map_cons, readThrough, if_pos rfl]
  congr 1
  -- no entry left is `out`, so each is read as itself
  refine (List.map_congr_left fun u hu => ?_).trans (List.map_id _)
  have hne : u ≠ out := fun huo => hout (huo ▸ List.mem_of_mem_erase hu)
  simp [readThrough, hne]

namespace IdentitySpliced

variable {g g' : Netlist} {name : String} {t c : Nat}

/-- The new variable is no old input of any node: the nodes of a linked netlist read its
tensors only. -/
theorem variable_not_mem (hg : g.Linked) (m : Nat) : g.tensors.size ∉ (g.node m).inputs :=
  fun hmem => Nat.lt_irrefl _ (hg.ends_lt (show _ ∈ (g.node m).ends .consumers from hmem))

/-- The consumer reads the variable at the position where it first read `t`, and each other
input where it read it, exactly when `t` was its first input. -/
theorem inPlace_iff_first (hs : IdentitySpliced g name t c g') (hg : g.Linked)
    (htc : t ∈ (g.node c).inputs) :
    (g'.node c).inputs = (g.node c).inputs.set ((g.node c).inputs.idxOf t) g.tensors.size ↔
      (g.node c).inputs.head? = some t := by
  simp only [hs.consumer_eq]
  exact cons_erase_eq_set_iff (variable_not_mem hg c) htc

/-- Read through the identity, the consumer's inputs are its old ones exactly when `t` was
its first input. -/
theorem readsThrough_iff_first (hs : IdentitySpliced g name t c g') (hg : g.Linked) :
    (g'.node c).inputs.map (readThrough g.tensors.size t) = (g.node c).inputs ↔
      (g.node c).inputs.head? = some t := by
  simp only [hs.consumer_eq]
  rw [map_readThrough (variable_not_mem hg c)]
  exact cons_erase_eq_self_iff t _

end IdentitySpliced

/-- In the netlist of a model graph, a tensor that some node reads is the tensor its name
finds: names are not shared, and a read tensor is reachable. -/
theorem ofGraphDef_find?_of_consumer {d : GraphDef} {t c : Nat}
    (hc : c ∈ ((ofGraphDef d).tensor t).consumers) :
    (ofGraphDef d).find? ((ofGraphDef d).tensor t).name = some t := by
  have hl := ofGraphDef_linked d
  have hlink : c ∈ ((ofGraphDef d).tensor t).links .consumers := hc
  have hmem : t ∈ ((ofGraphDef d).node c).ends .consumers := hl.mem_links_iff.1 hlink
  have htlt : t < (ofGraphDef d).tensors.size := hl.ends_lt hmem
  rw [find?_of_unique rfl fun u hu hname => ofGraphDef_name_inj d (hl.reachable_lt hu) htlt hname,
    if_pos (mem_reachable.2 (.inr (.inr ⟨c, hl.links_lt hlink, .consumers, hmem⟩)))]

end Netlist

/-! ### The job -/

namespace Jobs

open Netlist

variable {h : Host}

/-- A change of the stored models that succeeds replaces them and leaves the rest of the
host. -/
theorem exec_onStore {f : FileTable → Outcome FileTable} {s : FileTable} (hf : f h.store = .ok s) :
    Host.exec h (onStore f) = (.ok (), { h with store := s }) := by
  unfold onStore
  rw [Host.exec_bind_ok Host.exec_get, Host.exec_bind_ok (by rw [hf]; exact Host.exec_lift_ok s)]
  rfl

/-- Editing the netlist of a stored model, when the edit succeeds, stores the edited netlist
at the destination. -/
theorem exec_editNetlist {src dst : String} {edit : Netlist → Outcome Netlist} {m : StoredModel}
    {g' : Netlist} (hm : h.store.get? src = some m) (he : edit (m.toNetlist ofGraphDef) = .ok g') :
    Host.exec h (editNetlist src dst edit) = (.ok (), { h with store := h.store.put dst (.netlist g') }) := by
  refine exec_onStore ?_
  simp only [Edits.netlistAt, FileTable.load, hm, bind, Except.bind, pure, Except.pure, he]

/-- Running the identity job on a model with a tensor `1048` that some node reads: the job
succeeds and stores the spliced netlist, whose first reader `c` of `1048` reads the new
variable in the place of `1048` and every other input in its place, or reads through the
identity what it read before, exactly when `1048` was its first input. -/
theorem insertIdentity_splices {d : GraphDef}
    (hd : h.store.get? "/home/uto/workspace/demos/bevod/modelopt_normal_quant/subgraph_ln_plugin.onnx" =
      some (.document d))
    {t c : Nat} {rest : List Nat} (hname : ((ofGraphDef d).tensor t).name = "1048")
    (hc : ((ofGraphDef d).tensor t).consumers = c :: rest) :
    ∃ g', Host.exec h insertIdentity = (.ok (), { h with store := (h.store.put
        "/home/uto/workspace/demos/bevod/modelopt_normal_quant/subgraph_ln_plugin_identity.onnx"
        (.netlist g')) }) ∧
      IdentitySpliced (ofGraphDef d) "1048" t c g' ∧
      ((g'.node c).inputs = ((ofGraphDef d).node c).inputs.set
          (((ofGraphDef d).node c).inputs.idxOf t) (ofGraphDef d).tensors.size ↔
        ((ofGraphDef d).node c).inputs.head? = some t) ∧
      ((g'.node c).inputs.map (readThrough (ofGraphDef d).tensors.size t) =
          ((ofGraphDef d).node c).inputs ↔
        ((ofGraphDef d).node c).inputs.head? = some t) := by
  have hl := ofGraphDef_linked d
  have hcmem : c ∈ ((ofGraphDef d).tensor t).consumers := by
    rw [hc]
    exact List.mem_cons_self
  -- the name finds `t`, and `c` reads it
  have hfind : (ofGraphDef d).find? "1048" = some t := hname ▸ ofGraphDef_find?_of_consumer hcmem
  have htc : t ∈ ((ofGraphDef d).node c).inputs :=
    hl.mem_links_iff.1 (show c ∈ ((ofGraphDef d).tensor t).links .consumers from hcmem)
  obtain ⟨g', hrun, hs⟩ := spliceIdentity_spliced hl hfind hc
  exact ⟨g', exec_editNetlist hd hrun, hs, hs.inPlace_iff_first hl htc, hs.readsThrough_iff_first hl⟩

/-- A `Relu` writing `1048`, which an `Add` reads as its second input. -/
def secondReaderModel : GraphDef where
  nodes := [⟨"Relu", "relu", ["x"], ["1048"], []⟩, ⟨"Add", "add", ["b", "1048"], ["y"], []⟩]
  initializers := []
  inputs := [⟨"x", "float32", some [.size 4]⟩, ⟨"b", "float32", some [.size 4]⟩]
  outputs := [⟨"y", "float32", some [.size 4]⟩]
  valueInfo := []

/-- A host holding that model where the identity job reads its model. -/
def secondReaderHost : Host :=
  Host.start (FileTable.ofList [("/home/uto/workspace/demos/bevod/modelopt_normal_quant/subgraph_ln_plugin.onnx",
    .document secondReaderModel)]) default default

theorem secondReader_spliced :
    secondReaderHost.store.get? "/home/uto/workspace/demos/bevod/modelopt_normal_quant/subgraph_ln_plugin.onnx" =
        some (.document secondReaderModel) ∧
      ((ofGraphDef secondReaderModel).tensor 3).name = "1048" ∧
      ((ofGraphDef secondReaderModel).tensor 3).consumers = [1] ∧
      ∃ g', Host.exec secondReaderHost insertIdentity = (.ok (), { secondReaderHost with
          store := (secondReaderHost.store.put
            "/home/uto/workspace/demos/bevod/modelopt_normal_quant/subgraph_ln_plugin_identity.onnx"
            (.netlist g')) }) ∧
        IdentitySpliced (ofGraphDef secondReaderModel) "1048" 3 1 g' ∧
        ((g'.node 1).inputs = ((ofGraphDef secondReaderModel).node 1).inputs.set
            (((ofGraphDef secondReaderModel).node 1).inputs.idxOf 3)
            (ofGraphDef secondReaderModel).tensors.size ↔
          ((ofGraphDef secondReaderModel).node 1).inputs.head? = some 3) ∧
        ((g'.node 1).inputs.map (readThrough (ofGraphDef secondReaderModel).tensors.size 3) =
            ((ofGraphDef secondReaderModel).node 1).inputs ↔
          ((ofGraphDef secondReaderModel).node 1).inputs.head? = some 3) :=
  ⟨rfl, rfl, rfl, insertIdentity_splices rfl rfl
    (show ((ofGraphDef secondReaderModel).tensor 3).consumers = [1] from rfl)⟩

/-- The `Add` read `1048` second. After the job it reads the new variable first and `b`
second: where it read `1048` it now reads `b`. -/
theorem identity_before_second_input :
    ∃ g', Host.exec secondReaderHost insertIdentity = (.ok (), { secondReaderHost with
        store := (secondReaderHost.store.put
          "/home/uto/workspace/demos/bevod/modelopt_normal_quant/subgraph_ln_plugin_identity.onnx"
          (.netlist g')) }) ∧
      ((ofGraphDef secondReaderModel).node 1).inputs.map
          (fun u => ((ofGraphDef secondReaderModel).tensor u).name) = ["b", "1048"] ∧
      (g'.node 1).inputs.map (fun u => (g'.tensor u).name) = ["1048_identity_out", "b"] :=
  ⟨_, rfl, rfl, rfl⟩

end Jobs

end OnnxFusion

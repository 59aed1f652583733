import Mathlib
import OnnxFusion.Proofs.Matcher.Total
/-!
# Successors, predecessors and producers follow the node list

The dataflow view links a producer to a consumer once, however many tensors join them, and
lists every link in the order of the model's node list. On a numbered view (every view
built from a model is one, `ofDef_numbered`):

* `succs_spec`: the successors of `p` are the live nodes that read a tensor `p` writes,
  `p` itself included, in node-list order and each once;
* `preds_spec`: the predecessors of `c` are the live nodes that write a tensor `c` reads,
  each once, ordered by the first input of `c` they write (`Node.firstLink`) and, for one
  first input, by node-list order (`Node.LinksBefore`);
* `lookup_producerTable_isSome` and `producerTable_entry`: the producer table has an entry
  for exactly the tensors some live node writes, and the entry lists each producer in
  node-list order, once for every time the producer lists the tensor among its outputs.

The predecessor order is the invariant of a walk over the inputs of `c` (`kept_spec`):
after the first `k` inputs, the nodes kept are the producers whose first link is below
`k`, in the order of `LinksBefore`; the next input adds its producers not yet kept, which
are exactly those whose first link is `k`, and they come in node-list order.

`built_view_links_in_node_order` states the three for a view built from a model.
-/

set_option autoImplicit false

namespace OnnxFusion.Dataflow

open List

/-! ### The first link of a pair of nodes -/

namespace Node

/-- The place of the first input of `c` that `p` writes; `c.inputs.length` when there is
none. -/
def firstLink (p c : Node) : Nat := c.inputs.findIdx (fun t => p.outputs.contains t)

/-- `a` comes before `b` among the predecessors of `c`: its first link to `c` is earlier, or
both first link through the same input and `a` is earlier in the node list. -/
def LinksBefore (c a b : Node) : Prop :=
  a.firstLink c < b.firstLink c ∨ (a.firstLink c = b.firstLink c ∧ a.index < b.index)

variable {p c : Node}

theorem feeds_iff : p.feeds c = true ↔ ∃ t ∈ c.inputs, t ∈ p.outputs := by
  simp [feeds, List.any_eq_true]

/-- There is a first link exactly when `p` writes some input of `c`. -/
theorem firstLink_lt_iff : p.firstLink c < c.inputs.length ↔ ∃ t ∈ c.inputs, t ∈ p.outputs := by
  simp [firstLink, List.findIdx_lt_length]

/-- An input of `c` that `p` writes is at or after the first link. -/
theorem firstLink_le {k : Nat} (hk : k < c.inputs.length) (ht : c.inputs[k] ∈ p.outputs) :
    p.firstLink c ≤ k := by
  by_contra hlt
  have hnot : p.outputs.contains c.inputs[k] = false :=
    List.not_of_lt_findIdx (p := fun t => p.outputs.contains t) (Nat.lt_of_not_le hlt)
  simp [ht] at hnot

/-- `p` writes the input of `c` at its first link. -/
theorem writes_firstLink {k : Nat} (hk : k < c.inputs.length) (h : p.firstLink c = k) :
    c.inputs[k] ∈ p.outputs := by
  subst h
  have hget : p.outputs.contains c.inputs[p.firstLink c] = true :=
    List.findIdx_getElem (p := fun t => p.outputs.contains t) (w := hk)
  exact List.contains_iff_mem.1 hget

end Node

namespace Graph

variable {g : Graph}

/-! ### Live nodes and successors -/

/-- The live nodes are a sublist of the node list. -/
theorem live_sublist (g : Graph) : g.live <+ g.nodes := filter_sublist

/-- In a numbered view the live nodes come in increasing index. -/
theorem Numbered.live_pairwise (hg : g.Numbered) :
    g.live.Pairwise (fun a b => a.index < b.index) := by
  have hnodes : g.nodes.Pairwise (fun a b => a.index < b.index) := by
    have hrange := pairwise_lt_range (n := g.nodes.length)
    rw [← hg, pairwise_map] at hrange
    exact hrange
  exact hnodes.sublist g.live_sublist

/-- A list in increasing index has no repeats. -/
theorem nodup_of_pairwise_index {l : List Node} (h : l.Pairwise (fun a b => a.index < b.index)) :
    l.Nodup :=
  h.imp fun hab heq => by subst heq; omega

/-- Live nodes of one index are one node. -/
theorem Numbered.eq_of_index_eq (hg : g.Numbered) {a b : Node} (ha : a ∈ g.live)
    (hb : b ∈ g.live) (h : a.index = b.index) : a = b :=
  inj_on_of_nodup_map hg.distinctIndices.live ha hb h

theorem mem_succs_iff {p c : Node} : c ∈ g.succs p ↔ c ∈ g.live ∧ ∃ t ∈ c.inputs, t ∈ p.outputs := by
  rw [succs, mem_filter, Node.feeds_iff]

/-- The successors of `p` are the live nodes reading a tensor `p` writes, in node-list order. -/
theorem succs_spec (hg : g.Numbered) (p : Node) :
    g.succs p <+ g.live ∧ (g.succs p).Pairwise (fun a b => a.index < b.index) ∧
      ∀ c, c ∈ g.succs p ↔ c ∈ g.live ∧ ∃ t ∈ c.inputs, t ∈ p.outputs :=
  ⟨filter_sublist, hg.live_pairwise.sublist filter_sublist, fun _ => mem_succs_iff⟩

/-! ### Keeping the first node of each index -/

/-- Keeping first nodes over two lists is keeping over the second after the first. -/
theorem dedup_append : ∀ (l₁ l₂ acc : List Node),
    dedup (l₁ ++ l₂) acc = dedup l₂ (dedup l₁ acc).reverse
  | [], l₂, acc => by simp [dedup]
  | x :: l₁, l₂, acc => by
    simp only [cons_append, dedup]
    split <;> exact dedup_append l₁ l₂ _

/-- Over a list of distinct indices, keeping first nodes appends the nodes whose index was
not kept before. -/
theorem dedup_of_nodup : ∀ {B : List Node}, (B.map (·.index)).Nodup → ∀ (acc : List Node),
    dedup B acc = acc.reverse ++ B.filter (fun b => !acc.any (·.index == b.index))
  | [], _, acc => by simp [dedup]
  | b :: B, hB, acc => by
    rw [map_cons, nodup_cons] at hB
    unfold dedup
    split
    · rename_i hin
      rw [dedup_of_nodup hB.2 acc, filter_cons_of_neg (by simp [hin])]
    · rename_i hin
      rw [dedup_of_nodup hB.2 (b :: acc), filter_cons_of_pos (by simpa using hin), reverse_cons,
        append_assoc, singleton_append]
      -- no later node of the block shares `b`'s index, so `b` keeps none of them out
      congr 2
      refine filter_congr fun x hx => ?_
      have hne : (b.index == x.index) = false := by
        rw [beq_eq_false_iff_ne]
        exact fun h => hB.1 (h ▸ mem_map_of_mem hx)
      simp [hne]

/-! ### The order of the predecessors -/

/-- The producers of a tensor come in increasing index. -/
theorem producers_pairwise (hg : g.Numbered) (t : String) :
    (g.producers t).Pairwise (fun a b => a.index < b.index) :=
  hg.live_pairwise.sublist filter_sublist

/-- The walk over the inputs of `c`: after the first `k`, the nodes kept are the live nodes
whose first link to `c` is below `k`, in the order of `LinksBefore`. -/
theorem kept_spec (hg : g.Numbered) (c : Node) : ∀ k ≤ c.inputs.length,
    (dedup ((c.inputs.take k).flatMap g.producers) []).Pairwise (Node.LinksBefore c) ∧
      ∀ a, a ∈ dedup ((c.inputs.take k).flatMap g.producers) [] ↔
        a ∈ g.live ∧ a.firstLink c < k := by
  intro k
  induction k with
  | zero =>
    intro _
    simp [dedup]
  | succ k ih =>
    intro hk
    have hlt : k < c.inputs.length := hk
    obtain ⟨hpair, hmem⟩ := ih hlt.le
    set kept := dedup ((c.inputs.take k).flatMap g.producers) []
    have hnd : ((g.producers c.inputs[k]).map (·.index)).Nodup :=
      (pairwise_map.2 (producers_pairwise hg _)).imp Nat.ne_of_lt
    -- the next input appends its producers that were not kept before
    have hstep : dedup ((c.inputs.take (k + 1)).flatMap g.producers) [] = kept ++
        (g.producers c.inputs[k]).filter (fun b => !kept.reverse.any (·.index == b.index)) := by
      rw [take_add_one, getElem?_eq_getElem hlt, Option.toList_some, flatMap_append,
        flatMap_singleton, dedup_append, dedup_of_nodup hnd, reverse_reverse]
    -- those are exactly the live nodes whose first link is `k`
    have hnew : ∀ b, b ∈ (g.producers c.inputs[k]).filter
        (fun b => !kept.reverse.any (·.index == b.index)) ↔ b ∈ g.live ∧ b.firstLink c = k := by
      intro b
      simp only [mem_filter, producers, List.contains_iff_mem, any_reverse,
        Bool.not_eq_true', any_eq_false, beq_iff_eq]
      constructor
      · rintro ⟨⟨hb, hbt⟩, hfresh⟩
        have hle := Node.firstLink_le hlt hbt
        have hnot : ¬ b.firstLink c < k := fun hb' => hfresh b ((hmem b).2 ⟨hb, hb'⟩) rfl
        exact ⟨hb, by omega⟩
      · rintro ⟨hb, hfirst⟩
        refine ⟨⟨hb, Node.writes_firstLink hlt hfirst⟩, fun x hx hxb => ?_⟩
        have hx' := (hmem x).1 hx
        obtain rfl := hg.eq_of_index_eq hx'.1 hb hxb
        omega
    rw [hstep]
    refine ⟨pairwise_append.2 ⟨hpair, ?_, ?_⟩, fun a => ?_⟩
    · -- within the new block the first links agree, so node-list order decides
      refine ((producers_pairwise hg _).sublist filter_sublist).imp_of_mem fun ha hb hab => ?_
      exact .inr ⟨((hnew _).1 ha).2.trans ((hnew _).1 hb).2.symm, hab⟩
    · intro a ha b hb
      exact .inl (((hmem a).1 ha).2.trans_eq ((hnew b).1 hb).2.symm)
    · rw [mem_append, hmem, hnew, ← and_or_left]
      exact and_congr_right fun _ => by omega

/-- The predecessors of `c` are the live nodes writing a tensor `c` reads, ordered by their
first link and then by node-list order. -/
theorem preds_spec (hg : g.Numbered) (c : Node) :
    (g.preds c).Pairwise (Node.LinksBefore c) ∧
      ∀ a, a ∈ g.preds c ↔ a ∈ g.live ∧ ∃ t ∈ c.inputs, t ∈ a.outputs := by
  obtain ⟨hpair, hmem⟩ := kept_spec hg c c.inputs.length le_rfl
  rw [take_length] at hpair hmem
  exact ⟨hpair, fun a => by rw [preds, hmem, Node.firstLink_lt_iff]⟩

/-- The predecessors of a node are listed once each. -/
theorem preds_nodup (hg : g.Numbered) (c : Node) : (g.preds c).Nodup :=
  (preds_spec hg c).1.imp fun hab heq => by
    subst heq
    rcases hab with h | h <;> omega

/-! ### The producer table -/

/-- The entry of a tensor in the producer table: every live node writing it, once per time
it lists the tensor among its outputs. -/
theorem lookup_producerTable (g : Graph) (t : String) :
    g.producerTable.lookup t =
      if t ∈ g.live.flatMap (·.outputs) then
        some (g.live.flatMap fun n => (n.outputs.filter (· == t)).map fun _ => n.index)
      else none := by
  simp only [producerTable]
  split
  · rename_i ht
    exact lookup_graph _ ((mergeSort_perm _ _).mem_iff.2 (mem_eraseDups.2 ht))
  · rename_i ht
    rw [lookup_eq_none_iff]
    intro q hq
    obtain ⟨k, hk, rfl⟩ := mem_map.1 hq
    have hk' : k ∈ g.live.flatMap (·.outputs) := mem_eraseDups.1 ((mergeSort_perm _ _).mem_iff.1 hk)
    simpa using fun h : t = k => ht (h ▸ hk')

/-- The producer table has an entry for exactly the tensors some live node writes. -/
theorem lookup_producerTable_isSome (g : Graph) (t : String) :
    (∃ l, g.producerTable.lookup t = some l) ↔ ∃ n ∈ g.live, t ∈ n.outputs := by
  rw [lookup_producerTable, ← mem_flatMap]
  split <;> simp_all

/-- Counting an index over blocks of indices in increasing order: only the block of the node
of that index counts. -/
theorem count_flatMap_index : ∀ {l : List Node}, l.Pairwise (fun a b => a.index < b.index) →
    ∀ (f : Node → List Nat), (∀ m ∈ l, ∀ i ∈ f m, i = m.index) →
      ∀ n ∈ l, (l.flatMap f).count n.index = (f n).count n.index
  | [], _, _, _, n, hn => absurd hn (not_mem_nil)
  | m :: l, hl, f, hf, n, hn => by
    rw [pairwise_cons] at hl
    rw [flatMap_cons, count_append]
    rcases mem_cons.1 hn with rfl | hn
    · -- the later blocks hold larger indices only
      have hzero : (l.flatMap f).count n.index = 0 := by
        refine count_eq_zero.2 fun hmem => ?_
        obtain ⟨m', hm', hi⟩ := mem_flatMap.1 hmem
        have := hl.1 m' hm'
        have := hf m' (mem_cons_of_mem _ hm') _ hi
        omega
      rw [hzero, Nat.add_zero]
    · -- `m`'s block holds `m.index` only, which is below `n.index`
      have hzero : (f m).count n.index = 0 := by
        refine count_eq_zero.2 fun hmem => ?_
        have := hl.1 n hn
        have := hf m mem_cons_self _ hmem
        omega
      rw [hzero, Nat.zero_add]
      exact count_flatMap_index hl.2 f (fun m' hm' => hf m' (mem_cons_of_mem _ hm')) n hn

/-- An entry of the producer table lists the producers of its tensor in node-list order,
each as often as it lists the tensor among its outputs, and nothing else. -/
theorem producerTable_entry (hg : g.Numbered) {t : String} {l : List Nat}
    (h : g.producerTable.lookup t = some l) :
    l.Pairwise (· ≤ ·) ∧ (∀ i ∈ l, ∃ n ∈ g.live, n.index = i ∧ t ∈ n.outputs) ∧
      ∀ n ∈ g.live, l.count n.index = n.outputs.count t := by
  rw [lookup_producerTable] at h
  split at h
  · obtain rfl := Option.some.inj h.symm
    -- each block repeats the index of its node
    have hblock : ∀ m ∈ g.live, ∀ i ∈ (m.outputs.filter (· == t)).map (fun _ => m.index),
        i = m.index := by
      intro m _ i hi
      obtain ⟨_, _, rfl⟩ := mem_map.1 hi
      rfl
    refine ⟨pairwise_flatMap.2 ⟨fun m _ => ?_, ?_⟩, fun i hi => ?_, fun n hn => ?_⟩
    · -- a block is one index repeated
      exact pairwise_map.2 (pairwise_of_forall fun _ _ => le_rfl)
    · refine hg.live_pairwise.imp_of_mem fun ha hb hab x hx y hy => ?_
      rw [hblock _ ha x hx, hblock _ hb y hy]
      exact hab.le
    · obtain ⟨n, hn, hi⟩ := mem_flatMap.1 hi
      obtain ⟨u, hu, rfl⟩ := mem_map.1 hi
      have hu' : u ∈ n.outputs ∧ u = t := by simpa using hu
      exact ⟨n, hn, rfl, hu'.2 ▸ hu'.1⟩
    · rw [count_flatMap_index hg.live_pairwise _ hblock n hn, count_eq_length_filter,
        count_eq_length_filter]
      simp
  · cases h

/-! ### The view of a model -/

/-- The view of a model has every node live. -/
theorem ofDef_live {d : GraphDef} (h : Graph.ofDef d = .ok g) : g.live = g.nodes := by
  simp only [Graph.ofDef, bind, Except.bind] at h
  split at h
  · cases h
  · simp only [pure, Except.pure, Except.ok.injEq] at h
    subst h
    simp [live]

/-- The lists of the view that the recognisers walk, as a model determines them. -/
structure LinksInNodeOrder (g : Graph) : Prop where
  /-- The successors of `p`: the nodes reading a tensor `p` writes, in node-list order. -/
  successors : ∀ p ∈ g.nodes, ∃ s, g.successors p = .ok s ∧ s <+ g.nodes ∧ s.Nodup ∧
    ∀ c, c ∈ s ↔ c ∈ g.nodes ∧ ∃ t ∈ c.inputs, t ∈ p.outputs
  /-- The predecessors of `c`: the nodes writing a tensor `c` reads, each once, by first
  link and then node-list order. -/
  predecessors : ∀ c ∈ g.nodes, ∃ s, g.predecessors c = .ok s ∧ s.Nodup ∧
    s.Pairwise (Node.LinksBefore c) ∧ ∀ p, p ∈ s ↔ p ∈ g.nodes ∧ ∃ t ∈ c.inputs, t ∈ p.outputs
  /-- The producer table has an entry for exactly the tensors with a producer. -/
  producer_keys : ∀ t, (∃ l, g.producerTable.lookup t = some l) ↔ ∃ n ∈ g.nodes, t ∈ n.outputs
  /-- An entry lists the producers in node-list order, each once per listing of the tensor. -/
  producer_entries : ∀ t l, g.producerTable.lookup t = some l →
    l.Pairwise (· ≤ ·) ∧ (∀ i ∈ l, ∃ n ∈ g.nodes, n.index = i ∧ t ∈ n.outputs) ∧
      ∀ n ∈ g.nodes, l.count n.index = n.outputs.count t

/-- For every model whose view builds, the successor lists, predecessor lists and producer
table follow the node list: whatever the model holds (tensors written by several nodes or
listed twice by one, nodes reading their own outputs or one tensor several times), a link
is listed once, successors in node-list order, predecessors by the first input they write
and then node-list order, and producers once per listing in node-list order. -/
theorem built_view_links_in_node_order {d : GraphDef} (h : Graph.ofDef d = .ok g) :
    g.LinksInNodeOrder := by
  have hg := ofDef_numbered h
  have hlive := ofDef_live h
  refine ⟨fun p hp => ?_, fun c hc => ?_, fun t => ?_, fun t l hl => ?_⟩
  · obtain ⟨hsub, hpair, hmem⟩ := succs_spec hg p
    rw [hlive] at hsub hmem
    exact ⟨_, successors_of_live hg (hlive ▸ hp), hsub, nodup_of_pairwise_index hpair, hmem⟩
  · obtain ⟨hpair, hmem⟩ := preds_spec hg c
    rw [hlive] at hmem
    exact ⟨_, predecessors_of_live hg (hlive ▸ hc), preds_nodup hg c, hpair, hmem⟩
  · rw [lookup_producerTable_isSome, hlive]
  · have := producerTable_entry hg hl
    rwa [hlive] at this

/-- A model where one tensor has two writers and is listed twice by one of them, and a node
reads its own output and that tensor twice. -/
def sharedWriters : GraphDef where
  nodes := [⟨"Split", "a", ["x"], ["t", "t"], []⟩, ⟨"Relu", "b", ["x"], ["t"], []⟩,
    ⟨"Concat", "c", ["u", "t", "t"], ["u"], []⟩]
  initializers := []
  inputs := []
  outputs := []
  valueInfo := []

end Graph

end OnnxFusion.Dataflow

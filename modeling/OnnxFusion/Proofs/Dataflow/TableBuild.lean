import Mathlib
import OnnxFusion.Dataflow.Tables
import OnnxFusion.Proofs.Dataflow.Dict
import OnnxFusion.Proofs.Dataflow.Adjacency
/-!
# The tables of the graph object hold the dataflow view

The dataflow view (`Graph`) answers every question from its live nodes; the graph object keeps
insertion-ordered tables instead (`Tables`). `Tables.Represents s g` says the tables `s` hold
what the view `g` answers:

* the node table lists the live nodes in list order;
* the successor dictionary of each live node lists its successors in list order, and its
  predecessor dictionary its predecessors by first linking input, each with the tensor of the
  link;
* the producers of a name are the nodes writing it, in list order and once per listing, and a
  name has an entry exactly when some node writes it.

`build_represents` proves that the two walks of the construction build such tables. The first
walk (`enter`) appends each node to the node table and to the digraph, and each of its outputs
to the producers. The second walk links each consumer in turn, one link per producer of each
input (`linkCalls`). Its invariant (`Linking`) is that the consumers walked so far have their
predecessor dictionaries and stand in the successor dictionaries of their producers. A
successor dictionary gains a consumer once, however many tensors join the two, with the last
of them (`lastLink`). A predecessor dictionary keys its producers by first insertion, which is
the view's walk keeping the first node of each index (`insertKeys_dedup`).
-/

set_option autoImplicit false

namespace OnnxFusion.Dataflow

open List

/-- The writers of `t` among `ns`: each node listing `t` among its outputs, once per listing,
in list order. -/
def writersIn (ns : List Node) (t : String) : List Node :=
  ns.flatMap fun n => replicate (n.outputs.count t) n

theorem writersIn_cons (n : Node) (ns : List Node) (t : String) :
    writersIn (n :: ns) t = replicate (n.outputs.count t) n ++ writersIn ns t :=
  flatMap_cons ..

theorem mem_writersIn {ns : List Node} {t : String} {n : Node} :
    n ∈ writersIn ns t ↔ n ∈ ns ∧ t ∈ n.outputs := by
  simp only [writersIn, mem_flatMap, mem_replicate, ne_eq, count_eq_zero, not_not]
  constructor
  · rintro ⟨m, hm, ht, rfl⟩
    exact ⟨hm, ht⟩
  · rintro ⟨hn, ht⟩
    exact ⟨n, hn, ht, rfl⟩

/-- Among nodes of distinct indices, the writers of `t` of the index of `p` are `p`, once per
listing. -/
theorem filter_writersIn {ns : List Node} (hnd : (ns.map (·.index)).Nodup) {p : Node}
    (hp : p ∈ ns) (t : String) :
    (writersIn ns t).filter (·.index == p.index) = replicate (p.outputs.count t) p := by
  induction ns with
  | nil => cases hp
  | cons n ns ih =>
    rw [map_cons, nodup_cons] at hnd
    rw [writersIn_cons, filter_append]
    rcases mem_cons.1 hp with rfl | hp
    · -- no later node has the index of `p`
      have hrest : (writersIn ns t).filter (·.index == p.index) = [] := by
        refine filter_eq_nil_iff.2 fun x hx hxp => hnd.1 ?_
        rw [← beq_iff_eq.1 hxp]
        exact mem_map_of_mem (mem_writersIn.1 hx).1
      rw [hrest, append_nil]
      exact filter_eq_self.2 fun x hx => by simp [eq_of_mem_replicate hx]
    · have hne : n.index ≠ p.index := fun h => hnd.1 (h ▸ mem_map_of_mem hp)
      have hhead : (replicate (n.outputs.count t) n).filter (·.index == p.index) = [] :=
        filter_eq_nil_iff.2 fun x hx => by simpa [eq_of_mem_replicate hx] using hne
      rw [hhead, nil_append, ih hnd.2 hp]

/-- Inserting the indices of the writers of `t` inserts those of its producers: a node listing
`t` twice adds its index once. -/
theorem insertKeys_writersIn (ns : List Node) (t : String) (ks : List Nat) :
    Dict.insertKeys ks ((writersIn ns t).map (·.index)) =
      Dict.insertKeys ks ((ns.filter (·.outputs.contains t)).map (·.index)) := by
  induction ns generalizing ks with
  | nil => rfl
  | cons n ns ih =>
    rw [writersIn_cons, map_append, Dict.insertKeys_append, filter_cons]
    by_cases ht : t ∈ n.outputs
    · -- the first copy inserts the index, the others find it listed
      obtain ⟨k, hk⟩ : ∃ k, n.outputs.count t = k + 1 :=
        ⟨n.outputs.count t - 1, by have := count_pos_iff.2 ht; omega⟩
      have hin : n.index ∈ (if n.index ∈ ks then ks else ks ++ [n.index]) := by
        split
        · assumption
        · exact mem_append_right _ (mem_singleton_self _)
      rw [hk, map_replicate, replicate_succ, Dict.insertKeys_cons, Dict.insertKeys_of_mem hin,
        if_pos (List.contains_iff_mem.2 ht), map_cons, Dict.insertKeys_cons, ih]
    · have hk : n.outputs.count t = 0 := count_eq_zero.2 ht
      have hc : n.outputs.contains t = false := by simpa using ht
      rw [hk, replicate_zero, map_nil, Dict.insertKeys_nil, ih, hc]
      rfl

/-- The view's walk keeping the first node of each index inserts their indices in turn. -/
theorem insertKeys_dedup : ∀ (l acc : List Node),
    (Graph.dedup l acc).map (·.index) = Dict.insertKeys (acc.reverse.map (·.index)) (l.map (·.index))
  | [], acc => rfl
  | n :: l, acc => by
    have hany : acc.any (·.index == n.index) = true ↔ n.index ∈ acc.reverse.map (·.index) := by
      simp [List.any_eq_true]
    rw [map_cons, Dict.insertKeys_cons]
    unfold Graph.dedup
    split
    · rename_i h
      rw [if_pos (hany.1 h), insertKeys_dedup l acc]
    · rename_i h
      rw [if_neg (mt hany.2 h), insertKeys_dedup l (n :: acc), reverse_cons, map_append]
      rfl

/-- Among writers listed once per listing, the last one with a nonzero count is last. -/
theorem getLast?_flatMap_replicate {α : Type} (f : α → Nat) (l : List α) :
    (l.flatMap fun a => replicate (f a) a).getLast? = (l.filter (0 < f ·)).getLast? := by
  induction l using List.reverseRecOn with
  | nil => rfl
  | append_singleton l a ih =>
    rw [flatMap_append, flatMap_singleton, getLast?_append, ih, filter_append, getLast?_append,
      getLast?_replicate, filter_singleton]
    by_cases ha : f a = 0
    · simp [ha]
    · simp [ha, Nat.pos_of_ne_zero ha]

/-- In a numbered view, a live index is the index of a live node. -/
theorem Graph.Numbered.exists_live_of_isLive {g : Graph} (hg : g.Numbered) {i : Nat}
    (hi : g.isLive i = true) : ∃ n ∈ g.live, n.index = i := by
  unfold Graph.isLive at hi
  simp only [Bool.and_eq_true, Bool.not_eq_true', decide_eq_true_eq] at hi
  obtain ⟨hrem, hlt⟩ := hi
  have hidx : i ∈ g.nodes.map (·.index) := by
    rw [hg]
    exact mem_range.2 hlt
  obtain ⟨n, hn, rfl⟩ := mem_map.1 hidx
  refine ⟨n, mem_filter.2 ⟨hn, ?_⟩, rfl⟩
  rw [hrem]
  rfl

/-- A node asked about is the live node of its index, or no live node has its index. -/
theorem Graph.Numbered.live_or_absent {g : Graph} (hg : g.Numbered) {n : Node}
    (hn : ∀ m ∈ g.live, m.index = n.index → m = n) :
    n ∈ g.live ∨ (n.index ∉ g.live.map (·.index) ∧ g.isLive n.index = false) := by
  by_cases hlive : n ∈ g.live
  · exact .inl hlive
  · have hidx : n.index ∉ g.live.map (·.index) := fun hi => by
      obtain ⟨m, hm, hmi⟩ := mem_map.1 hi
      exact hlive (hn m hm hmi ▸ hm)
    refine .inr ⟨hidx, Bool.eq_false_iff.2 fun hl => ?_⟩
    obtain ⟨m, hm, hmi⟩ := hg.exists_live_of_isLive hl
    exact hidx (hmi ▸ mem_map_of_mem hm)

/-- The writers of a name among nodes of increasing index come in node-list order, and each
node as often as it lists the name. -/
theorem writersIn_spec {ns : List Node} (hns : ns.Pairwise fun a b => a.index < b.index)
    (t : String) :
    (writersIn ns t).Pairwise (fun a b => a.index ≤ b.index) ∧
      (∀ n ∈ writersIn ns t, n ∈ ns ∧ t ∈ n.outputs) ∧
      ∀ n ∈ ns, (writersIn ns t).filter (·.index == n.index) = replicate (n.outputs.count t) n := by
  refine ⟨pairwise_flatMap.2 ⟨fun n _ => ?_, ?_⟩, fun n hn => mem_writersIn.1 hn,
    fun n hn => filter_writersIn (pairwise_map.2 hns |>.imp Nat.ne_of_lt) hn t⟩
  · -- a block repeats one node
    exact pairwise_replicate.2 (.inr le_rfl)
  · refine hns.imp fun hab x hx y hy => ?_
    rw [eq_of_mem_replicate hx, eq_of_mem_replicate hy]
    exact hab.le

namespace Tables

/-- The tables hold the view `g`: its live nodes, the links between them with their tensors in
the orders of the view, and the writers of each name. -/
structure Represents (s : Tables) (g : Graph) : Prop where
  nodes : s.nodes.entries = g.live.map fun n => (n.index, n)
  succ : s.links.succ.entries.map (fun e => (e.1, e.2.entries)) =
    g.live.map fun p => (p.index, (g.succs p).map fun c => (c.index, Graph.linkTensor p c))
  pred : s.links.pred.entries.map (fun e => (e.1, e.2.entries)) =
    g.live.map fun c => (c.index, (g.preds c).map fun p => (p.index, Graph.linkTensor p c))
  producers : ∀ t, s.producers.get? t =
    if writersIn g.live t = [] then none else some (writersIn g.live t)

/-! ### The first walk -/

theorem foldl_enter_nodes (ns : List Node) (s : Tables) :
    (ns.foldl enter s).nodes = ns.foldl (fun d n => d.set n.index n) s.nodes :=
  (foldl_hom Tables.nodes fun _ _ => rfl).symm

theorem foldl_enter_producers (ns : List Node) (s : Tables) :
    (ns.foldl enter s).producers =
      ns.foldl (fun w n => n.outputs.foldl (addProducer n) w) s.producers :=
  (foldl_hom Tables.producers fun _ _ => rfl).symm

theorem foldl_enter_links (ns : List Node) (s : Tables) :
    (ns.foldl enter s).links = ns.foldl (fun g n => g.addNode n.index) s.links :=
  (foldl_hom Tables.links fun _ _ => rfl).symm

/-- The first walk lists the nodes in order under their indices. -/
theorem entries_foldl_enter_nodes {ns : List Node} (hnd : (ns.map (·.index)).Nodup) :
    (ns.foldl enter empty).nodes.entries = ns.map fun n => (n.index, n) := by
  have hmap : ns.foldl (fun d n => d.set n.index n) empty.nodes =
      (ns.map fun n => (n.index, n)).foldl (fun d e => d.set e.1 e.2) Dict.empty := by
    simp only [foldl_map]
    rfl
  rw [foldl_enter_nodes, hmap, Dict.entries_foldl_set_of_nodup _ _ (by
    rw [Dict.keys_empty, nil_append, map_map]
    exact hnd)]
  rfl

/-- Listing a node under its outputs `os`: a name of `os` gains the node once per listing. -/
theorem get?_foldl_addProducer (n : Node) (os : List String) (w : Dict String (List Node))
    (t : String) : (os.foldl (addProducer n) w).get? t =
      if t ∈ os then some ((w.get? t).getD [] ++ replicate (os.count t) n) else w.get? t := by
  induction os generalizing w with
  | nil => simp
  | cons o os ih =>
    rw [foldl_cons, ih, addProducer, Dict.get?_set]
    by_cases ho : t = o
    · subst ho
      by_cases hos : t ∈ os
      · simp [hos, count_cons_self, replicate_succ]
      · simp [hos, count_eq_zero.2 hos]
    · simp [ho, count_cons_of_ne (Ne.symm ho)]

/-- The first walk lists each name under its writers, in order, once per listing. -/
theorem get?_foldl_enter_producers (ns : List Node) (w : Dict String (List Node)) (t : String) :
    (ns.foldl (fun w n => n.outputs.foldl (addProducer n) w) w).get? t =
      if writersIn ns t = [] then w.get? t else some ((w.get? t).getD [] ++ writersIn ns t) := by
  induction ns generalizing w with
  | nil => simp [writersIn]
  | cons n ns ih =>
    rw [foldl_cons, ih, get?_foldl_addProducer, writersIn_cons]
    by_cases ht : t ∈ n.outputs
    · have hrep : replicate (n.outputs.count t) n ≠ [] := by
        simpa using (count_pos_iff.2 ht).ne'
      by_cases hrest : writersIn ns t = []
      · simp [ht, hrest, hrep]
      · simp [ht, hrest, hrep]
    · simp [ht, count_eq_zero.2 ht]

theorem addNode_of_not_mem {g : Digraph} {i : Nat} (h : i ∉ g.succ.keys) :
    g.addNode i = ⟨g.succ.set i .empty, g.pred.set i .empty⟩ := by
  have hc : g.succ.contains i = false := by
    rw [Bool.eq_false_iff, ne_eq, Dict.contains_iff]
    exact h
  simp [Digraph.addNode, hc]

theorem addNode_of_mem {g : Digraph} {i : Nat} (h : i ∈ g.succ.keys) : g.addNode i = g := by
  simp [Digraph.addNode, Dict.contains_iff.2 h]

/-- The first walk adds every node to the digraph without links, in order. -/
theorem foldl_addNode : ∀ (ns : List Node) (g : Digraph), g.succ.keys = g.pred.keys →
    (g.succ.keys ++ ns.map (·.index)).Nodup →
    (ns.foldl (fun g n => g.addNode n.index) g).succ.entries =
        g.succ.entries ++ ns.map (fun n => (n.index, Dict.empty)) ∧
      (ns.foldl (fun g n => g.addNode n.index) g).pred.entries =
        g.pred.entries ++ ns.map (fun n => (n.index, Dict.empty))
  | [], g, _, _ => by simp
  | n :: ns, g, hkeys, hnd => by
    have hn : n.index ∉ g.succ.keys := fun hn =>
      disjoint_of_nodup_append hnd hn (mem_map_of_mem mem_cons_self)
    have hn' : n.index ∉ g.pred.keys := hkeys ▸ hn
    obtain ⟨hsucc, hpred⟩ := foldl_addNode ns ⟨g.succ.set n.index .empty, g.pred.set n.index .empty⟩
      (by simp only [Dict.keys_set_of_not_mem hn, Dict.keys_set_of_not_mem hn', hkeys])
      (by simpa [Dict.keys_set_of_not_mem hn] using hnd)
    rw [foldl_cons, addNode_of_not_mem hn]
    refine ⟨?_, ?_⟩
    · rw [hsucc, Dict.entries_set_of_not_mem hn]
      simp
    · rw [hpred, Dict.entries_set_of_not_mem hn']
      simp

/-! ### The second walk -/

/-- The links the second walk makes into `c`, in order: for each input, one from each producer
the table lists for it. -/
def linkCalls (w : Dict String (List Node)) (c : Node) : List (Node × String) :=
  c.inputs.flatMap fun t => ((w.get? t).getD []).map fun p => (p, t)

theorem foldl_linkInput (s : Tables) (c : Node) (G : Digraph) :
    c.inputs.foldl (s.linkInput c) G =
      (linkCalls s.producers c).foldl (fun G e => G.addEdge e.1.index c.index e.2) G := by
  simp only [linkCalls, foldl_flatMap, foldl_map]
  rfl

/-- The second walk changes only the digraph, and reads the producers of the first. -/
theorem foldl_linkInputs (cs : List Node) (s : Tables) :
    cs.foldl linkInputs s =
      { s with links := cs.foldl (fun G c => c.inputs.foldl (s.linkInput c) G) s.links } := by
  induction cs generalizing s with
  | nil => rfl
  | cons c cs ih =>
    rw [foldl_cons, ih]
    rfl

theorem addEdge_of_mem {g : Digraph} {u v : Nat} (t : String) (hu : u ∈ g.succ.keys)
    (hv : v ∈ g.succ.keys) :
    g.addEdge u v t = ⟨g.succ.modify u (·.set v t), g.pred.modify v (·.set u t)⟩ := by
  simp only [Digraph.addEdge, addNode_of_mem hu, addNode_of_mem hv]

/-- Links between nodes of the digraph update the two dictionaries in place. -/
theorem foldl_addEdge {c : Nat} : ∀ (calls : List (Node × String)) (g : Digraph),
    c ∈ g.succ.keys → (∀ e ∈ calls, e.1.index ∈ g.succ.keys) →
    calls.foldl (fun G e => G.addEdge e.1.index c e.2) g =
      ⟨calls.foldl (fun d e => d.modify e.1.index (·.set c e.2)) g.succ,
        calls.foldl (fun d e => d.modify c (·.set e.1.index e.2)) g.pred⟩
  | [], _, _, _ => rfl
  | e :: calls, g, hc, hcalls => by
    have he := hcalls e mem_cons_self
    rw [foldl_cons, addEdge_of_mem e.2 he hc]
    exact foldl_addEdge calls _ (by simpa using hc) fun e' he' => by
      simpa using hcalls e' (mem_cons_of_mem _ he')

section Linking

variable {g : Graph} {P : Dict String (List Node)}

/-- The links into `c` come from its producers, one per input and listing. -/
theorem filter_linkCalls (hg : g.Numbered) (hP : ∀ t, (P.get? t).getD [] = writersIn g.live t)
    (c : Node) {p : Node} (hp : p ∈ g.live) :
    ((linkCalls P c).filter (·.1.index == p.index)).map (·.2) =
      c.inputs.flatMap fun t => replicate (p.outputs.count t) t := by
  simp only [linkCalls, hP, filter_flatMap, map_flatMap]
  refine flatMap_congr fun t _ => ?_
  have hfilter : ((writersIn g.live t).map fun p => (p, t)).filter (·.1.index == p.index) =
      ((writersIn g.live t).filter (·.index == p.index)).map fun p => (p, t) := by
    rw [filter_map]
    rfl
  rw [hfilter, filter_writersIn hg.distinctIndices.live hp, map_replicate, map_replicate]

/-- The last link from `p` into `c` carries the tensor that labels the link. -/
theorem lastLink (hg : g.Numbered) (hP : ∀ t, (P.get? t).getD [] = writersIn g.live t)
    (c : Node) {p : Node} (hp : p ∈ g.live) :
    (((linkCalls P c).filter (·.1.index == p.index)).map (·.2)).getLast? =
      if p.feeds c then some (Graph.linkTensor p c) else none := by
  rw [filter_linkCalls hg hP c hp, getLast?_flatMap_replicate]
  have hfilter : c.inputs.filter (0 < p.outputs.count ·) =
      c.inputs.filter fun t => p.outputs.contains t :=
    filter_congr fun t _ => by simp [count_pos_iff]
  rw [hfilter, Graph.linkTensor]
  cases hlast : (c.inputs.filter fun t => p.outputs.contains t).getLast? with
  | none =>
    have hnil := getLast?_eq_none_iff.1 hlast
    have hfeeds : p.feeds c = false := by
      rw [Bool.eq_false_iff, ne_eq, Node.feeds_iff]
      rintro ⟨t, ht, hpt⟩
      simp [filter_eq_nil_iff] at hnil
      exact hnil t ht hpt
    simp [hfeeds]
  | some t =>
    have hmem := mem_of_getLast? hlast
    have hfeeds : p.feeds c = true := by
      rw [Node.feeds_iff]
      simp only [mem_filter, List.contains_iff_mem] at hmem
      exact ⟨t, hmem⟩
    simp [hfeeds]

/-- The predecessor dictionary of `c` keys its producers by first insertion: the view's
predecessors. -/
theorem insertKeys_linkCalls (hP : ∀ t, (P.get? t).getD [] = writersIn g.live t) (c : Node) :
    Dict.insertKeys [] ((linkCalls P c).map (·.1.index)) = (g.preds c).map (·.index) := by
  rw [Graph.preds, insertKeys_dedup, reverse_nil, map_nil]
  simp only [linkCalls, hP, map_flatMap, map_map]
  -- both sides insert, input by input, the indices of the writers of the input
  have hinputs : ∀ (ts : List String) (ks : List Nat),
      Dict.insertKeys ks (ts.flatMap fun t => (writersIn g.live t).map (·.index)) =
        Dict.insertKeys ks (ts.flatMap fun t => (g.producers t).map (·.index)) := by
    intro ts
    induction ts with
    | nil => intro ks; rfl
    | cons t ts ih =>
      intro ks
      rw [flatMap_cons, flatMap_cons, Dict.insertKeys_append, Dict.insertKeys_append,
        insertKeys_writersIn, ih]
      rfl
  exact hinputs c.inputs []

/-- The predecessor dictionary the second walk builds for `c`. -/
theorem entries_predDict (hg : g.Numbered) (hP : ∀ t, (P.get? t).getD [] = writersIn g.live t)
    (c : Node) :
    ((linkCalls P c).foldl (fun d e => d.set e.1.index e.2) (Dict.empty : Dict Nat String)).entries =
      (g.preds c).map fun p => (p.index, Graph.linkTensor p c) := by
  have hmap : (linkCalls P c).foldl (fun d e => d.set e.1.index e.2) Dict.empty =
      ((linkCalls P c).map fun e => (e.1.index, e.2)).foldl (fun d e => d.set e.1 e.2)
        (Dict.empty : Dict Nat String) := by
    simp only [foldl_map]
  rw [hmap]
  refine Dict.entries_eq_of_keys ?_ fun e he => ?_
  · rw [Dict.keys_foldl_set, Dict.keys_empty, map_map, map_map]
    exact insertKeys_linkCalls hP c
  · obtain ⟨p, hp, rfl⟩ := mem_map.1 he
    obtain ⟨hlive, t, ht, hpt⟩ := Graph.mem_preds hp
    have hfeeds : p.feeds c = true := Node.feeds_iff.2 ⟨t, ht, hpt⟩
    have hlast := lastLink hg hP c hlive
    rw [if_pos hfeeds] at hlast
    rw [Dict.get?_foldl_set, Dict.get?_empty, Option.or_none, filter_map, getLast?_map,
      Option.map_map]
    rw [getLast?_map] at hlast
    exact hlast

/-- Part way through the second walk, after the consumers `cs` with `rest` to come: each
successor dictionary lists the consumers walked that its node feeds, and each consumer walked
has its predecessor dictionary. -/
structure Linking (g : Graph) (cs rest : List Node) (G : Digraph) : Prop where
  succ : G.succ.entries.map (fun e => (e.1, e.2.entries)) =
    g.live.map fun p => (p.index, (cs.filter (p.feeds ·)).map fun c => (c.index, Graph.linkTensor p c))
  pred : G.pred.entries.map (fun e => (e.1, e.2.entries)) =
    cs.map (fun c => (c.index, (g.preds c).map fun p => (p.index, Graph.linkTensor p c))) ++
      rest.map fun c => (c.index, [])

/-- Linking a consumer `c` adds it, with the last tensor that links them, at the end of the
successor dictionary of each producer that feeds it; `c` is in no dictionary before. -/
theorem succ_after_link (hg : g.Numbered) (hP : ∀ t, (P.get? t).getD [] = writersIn g.live t)
    {cs rest : List Node} {c : Node} {G : Digraph} (h : Linking g cs (c :: rest) G)
    (hcs : c.index ∉ cs.map (·.index)) :
    ((linkCalls P c).foldl (fun d e => d.modify e.1.index (·.set c.index e.2)) G.succ).entries.map
        (fun e => (e.1, e.2.entries)) =
      g.live.map fun p =>
        (p.index, ((cs ++ [c]).filter (p.feeds ·)).map fun q => (q.index, Graph.linkTensor p q)) := by
  let B : Nat × List (Nat × String) → Nat × List (Nat × String) := fun x =>
    (x.1, x.2 ++ ((((linkCalls P c).filter (·.1.index == x.1)).map (·.2)).getLast?.map
      (c.index, ·)).toList)
  -- a successor dictionary gains at most `c`, which it does not hold yet
  have hB : ∀ e ∈ G.succ.entries,
      (e.1, (((linkCalls P c).filter (·.1.index == e.1)).foldl
        (fun v x => v.set c.index x.2) e.2).entries) = B (e.1, e.2.entries) := by
    intro e he
    obtain ⟨p, -, hpe⟩ := mem_map.1
      (h.succ ▸ mem_map_of_mem (f := fun e : Nat × Dict Nat String => (e.1, e.2.entries)) he)
    simp only [Prod.mk.injEq] at hpe
    have hfresh : c.index ∉ e.2.keys := by
      rw [Dict.keys, ← hpe.2, map_map]
      intro hin
      obtain ⟨x, hx, hxc⟩ := mem_map.1 hin
      exact hcs (hxc ▸ mem_map_of_mem (mem_filter.1 hx).1)
    have hpair : ((linkCalls P c).filter (·.1.index == e.1)).foldl
        (fun v x => v.set c.index x.2) e.2 =
        ((((linkCalls P c).filter (·.1.index == e.1)).map (·.2)).map (c.index, ·)).foldl
          (fun d e => d.set e.1 e.2) e.2 := by
      simp only [foldl_map]
    rw [hpair, Dict.entries_foldl_set_new hfresh]
  rw [Dict.entries_foldl_modify, map_map]
  refine (map_congr_left (g := B ∘ fun e : Nat × Dict Nat String => (e.1, e.2.entries))
    fun e he => hB e he).trans ?_
  rw [← map_map, h.succ, map_map]
  refine map_congr_left fun p hp => ?_
  simp only [B, Function.comp_apply, lastLink hg hP c hp, filter_append, map_append,
    filter_singleton]
  by_cases hf : p.feeds c <;> simp [hf]

/-- Linking a consumer `c` gives it its predecessor dictionary, which was empty, and leaves the
other predecessor dictionaries as they are. -/
theorem pred_after_link (hg : g.Numbered) (hP : ∀ t, (P.get? t).getD [] = writersIn g.live t)
    {cs rest : List Node} {c : Node} {G : Digraph} (h : Linking g cs (c :: rest) G)
    (hcs : ∀ x ∈ cs, x.index ≠ c.index) (hrest : ∀ x ∈ rest, x.index ≠ c.index) :
    ((linkCalls P c).foldl (fun d e => d.modify c.index (·.set e.1.index e.2)) G.pred).entries.map
        (fun e => (e.1, e.2.entries)) =
      (cs ++ [c]).map (fun q => (q.index, (g.preds q).map fun p => (p.index, Graph.linkTensor p q))) ++
        rest.map fun q => (q.index, []) := by
  let B : Nat × List (Nat × String) → Nat × List (Nat × String) := fun x =>
    if x.1 = c.index then (x.1, (g.preds c).map fun p => (p.index, Graph.linkTensor p c)) else x
  have hB : ∀ e ∈ G.pred.entries,
      (e.1, (((linkCalls P c).filter fun _ => c.index == e.1).foldl
        (fun v x => v.set x.1.index x.2) e.2).entries) = B (e.1, e.2.entries) := by
    intro e he
    by_cases hec : e.1 = c.index
    · -- the dictionary of `c` was empty
      have hmem := h.pred ▸
        mem_map_of_mem (f := fun e : Nat × Dict Nat String => (e.1, e.2.entries)) he
      have hempty : e.2.entries = [] := by
        rcases mem_append.1 hmem with hmem | hmem
        · obtain ⟨x, hx, hxe⟩ := mem_map.1 hmem
          simp only [Prod.mk.injEq] at hxe
          exact absurd (hxe.1.trans hec) (hcs x hx)
        · obtain ⟨x, -, hxe⟩ := mem_map.1 hmem
          simp only [Prod.mk.injEq] at hxe
          exact hxe.2.symm
      have he2 : e.2 = Dict.empty := Dict.ext hempty
      simp only [B, hec, if_true, beq_self_eq_true, filter_true, he2]
      rw [entries_predDict hg hP c]
    · have hnone : ((linkCalls P c).filter fun _ => c.index == e.1) = [] :=
        filter_eq_nil_iff.2 fun _ _ => by simpa using Ne.symm hec
      simp [B, hec, hnone]
  rw [Dict.entries_foldl_modify, map_map]
  refine (map_congr_left (g := B ∘ fun e : Nat × Dict Nat String => (e.1, e.2.entries))
    fun e he => hB e he).trans ?_
  rw [← map_map, h.pred, map_append, map_map, map_map, map_cons, map_append, map_singleton,
    append_assoc, singleton_append]
  congr 1
  · exact map_congr_left fun x hx => if_neg (hcs x hx)
  · congr 1
    · exact if_pos rfl
    · exact map_congr_left fun x hx => if_neg (hrest x hx)

/-- Linking one more consumer `c`: each producer's successor dictionary gains `c` if it feeds
`c`, and `c` gets its predecessor dictionary. -/
theorem Linking.step (hg : g.Numbered) (hP : ∀ t, (P.get? t).getD [] = writersIn g.live t)
    {cs rest : List Node} {c : Node} (hsplit : cs ++ c :: rest = g.live) {G : Digraph}
    (h : Linking g cs (c :: rest) G) :
    Linking g (cs ++ [c]) rest
      ((linkCalls P c).foldl (fun G e => G.addEdge e.1.index c.index e.2) G) := by
  have hnd : ((cs ++ c :: rest).map (·.index)).Nodup := hsplit ▸ hg.distinctIndices.live
  have hc : c ∈ g.live := hsplit ▸ mem_append_right _ mem_cons_self
  -- `c` is not among the consumers walked nor among those to come
  have hcs : c.index ∉ cs.map (·.index) := fun hin => by
    rw [map_append] at hnd
    exact disjoint_of_nodup_append hnd hin (mem_map_of_mem mem_cons_self)
  have hrest : ∀ x ∈ rest, x.index ≠ c.index := fun x hx hxc => by
    rw [map_append, map_cons, nodup_append, nodup_cons] at hnd
    exact hnd.2.1.1 (hxc ▸ mem_map_of_mem hx)
  have hkeys : G.succ.keys = g.live.map (·.index) := by
    have := congrArg (map (·.1)) h.succ
    simp only [map_map, Function.comp_def] at this
    exact this
  -- every link made is between nodes of the digraph
  have hcalls : ∀ e ∈ linkCalls P c, e.1.index ∈ G.succ.keys := by
    intro e he
    obtain ⟨t, -, he⟩ := mem_flatMap.1 he
    obtain ⟨p, hp, rfl⟩ := mem_map.1 he
    rw [hP] at hp
    rw [hkeys]
    exact mem_map_of_mem (mem_writersIn.1 hp).1
  rw [foldl_addEdge _ _ (hkeys ▸ mem_map_of_mem hc) hcalls]
  exact ⟨succ_after_link hg hP h hcs,
    pred_after_link hg hP h (fun x hx hxc => hcs (hxc ▸ mem_map_of_mem hx)) hrest⟩

/-- The rest of the second walk, from consumers `cs` walked: every consumer is linked. -/
theorem Linking.run (hg : g.Numbered) (hP : ∀ t, (P.get? t).getD [] = writersIn g.live t) :
    ∀ (rest cs : List Node) (G : Digraph), cs ++ rest = g.live → Linking g cs rest G →
      Linking g g.live []
        (rest.foldl (fun G c => (linkCalls P c).foldl (fun G e => G.addEdge e.1.index c.index e.2) G) G)
  | [], cs, G, hsplit, h => by
    rw [append_nil] at hsplit
    subst hsplit
    exact h
  | c :: rest, cs, G, hsplit, h =>
    Linking.run hg hP rest (cs ++ [c]) _ (by rw [append_assoc, singleton_append]; exact hsplit)
      (h.step hg hP hsplit)

end Linking

/-- The construction builds tables that hold the view of its nodes. -/
theorem build_represents {g : Graph} (hg : g.Numbered) : (build g.live).Represents g := by
  have hnd := hg.distinctIndices.live
  set s₁ := g.live.foldl enter empty with hs₁
  have hnodes : s₁.nodes.entries = g.live.map fun n => (n.index, n) :=
    entries_foldl_enter_nodes hnd
  have hvalues : s₁.nodes.values = g.live := by
    rw [Dict.values, hnodes, map_map]
    exact map_id' _
  have hprod : ∀ t, s₁.producers.get? t =
      if writersIn g.live t = [] then none else some (writersIn g.live t) := by
    intro t
    rw [hs₁, foldl_enter_producers, get?_foldl_enter_producers]
    rfl
  have hP : ∀ t, (s₁.producers.get? t).getD [] = writersIn g.live t := by
    intro t
    rw [hprod]
    split
    · rename_i h
      exact h.symm
    · rfl
  obtain ⟨hsucc₁, hpred₁⟩ := foldl_addNode g.live (empty : Tables).links rfl
    (by simpa [empty, Digraph.empty] using hnd)
  have hstart : Linking g [] g.live s₁.links := by
    refine ⟨?_, ?_⟩
    · rw [hs₁, foldl_enter_links, hsucc₁]
      simp [Digraph.empty, empty, Dict.empty, map_map, Function.comp_def]
    · rw [hs₁, foldl_enter_links, hpred₁]
      simp [Digraph.empty, empty, Dict.empty, map_map, Function.comp_def]
  have hlinks : (g.live.foldl linkInputs s₁).links =
      g.live.foldl (fun G c => (linkCalls s₁.producers c).foldl
        (fun G e => G.addEdge e.1.index c.index e.2) G) s₁.links := by
    rw [foldl_linkInputs]
    simp only [foldl_linkInput]
  have hend := Linking.run hg hP g.live [] s₁.links (nil_append _) hstart
  rw [← hlinks] at hend
  have hbuild : build g.live = g.live.foldl linkInputs s₁ := by
    rw [build, ← hs₁, hvalues]
  rw [hbuild]
  refine ⟨?_, ?_, ?_, ?_⟩
  · rw [foldl_linkInputs]
    exact hnodes
  · exact hend.succ
  · rw [hend.pred, map_nil, append_nil]
  · intro t
    rw [foldl_linkInputs]
    exact hprod t

/-! ### Questions to the tables -/

namespace Represents

variable {s : Tables} {g : Graph} (h : s.Represents g)
include h

theorem succ_keys : s.links.succ.keys = g.live.map (·.index) := by
  have := congrArg (map (·.1)) h.succ
  simp only [map_map, Function.comp_def] at this
  exact this

theorem get?_nodes {n : Node} (hn : n ∈ g.live) : s.nodes.get? n.index = some n := by
  rw [Dict.get?_eq_some_iff, h.nodes]
  exact mem_map_of_mem hn

theorem values_nodes : s.nodes.values = g.live := by
  rw [Dict.values, h.nodes, map_map]
  exact map_id' _

/-- The tables find the live nodes of a list by their indices. -/
theorem nodesAt_map {l : List Node} (hl : ∀ n ∈ l, n ∈ g.live) :
    s.nodesAt (l.map (·.index)) = l := by
  rw [nodesAt, filterMap_map]
  conv_rhs => rw [← filterMap_some (l := l)]
  exact filterMap_congr fun n hn => h.get?_nodes (hl n hn)

/-- The successor dictionary of a live node lists its successors with their tensors. -/
theorem get?_succ {p : Node} (hp : p ∈ g.live) : ∃ D : Dict Nat String,
    s.links.succ.get? p.index = some D ∧
      D.entries = (g.succs p).map fun c => (c.index, Graph.linkTensor p c) := by
  have hmem : (p.index, (g.succs p).map fun c => (c.index, Graph.linkTensor p c)) ∈
      s.links.succ.entries.map fun e => (e.1, e.2.entries) := by
    rw [h.succ]
    exact mem_map_of_mem hp
  obtain ⟨e, he, hpe⟩ := mem_map.1 hmem
  simp only [Prod.mk.injEq] at hpe
  refine ⟨e.2, Dict.get?_eq_some_iff.2 ?_, hpe.2⟩
  rw [← hpe.1]
  exact he

/-- The predecessor dictionary of a live node lists its predecessors with their tensors. -/
theorem get?_pred {c : Node} (hc : c ∈ g.live) : ∃ D : Dict Nat String,
    s.links.pred.get? c.index = some D ∧
      D.entries = (g.preds c).map fun p => (p.index, Graph.linkTensor p c) := by
  have hmem : (c.index, (g.preds c).map fun p => (p.index, Graph.linkTensor p c)) ∈
      s.links.pred.entries.map fun e => (e.1, e.2.entries) := by
    rw [h.pred]
    exact mem_map_of_mem hc
  obtain ⟨e, he, hce⟩ := mem_map.1 hmem
  simp only [Prod.mk.injEq] at hce
  refine ⟨e.2, Dict.get?_eq_some_iff.2 ?_, hce.2⟩
  rw [← hce.1]
  exact he

theorem successors_of_live {p : Node} (hp : p ∈ g.live) : s.successors p = .ok (g.succs p) := by
  obtain ⟨D, hD, hentries⟩ := h.get?_succ hp
  have hkeys : D.keys = (g.succs p).map (·.index) := by
    rw [Dict.keys, hentries, map_map]
    rfl
  simp only [Tables.successors, hD, hkeys]
  rw [h.nodesAt_map fun c hc => Graph.mem_live_of_mem_succs hc]

theorem predecessors_of_live {c : Node} (hc : c ∈ g.live) :
    s.predecessors c = .ok (g.preds c) := by
  obtain ⟨D, hD, hentries⟩ := h.get?_pred hc
  have hkeys : D.keys = (g.preds c).map (·.index) := by
    rw [Dict.keys, hentries, map_map]
    rfl
  simp only [Tables.predecessors, hD, hkeys]
  rw [h.nodesAt_map fun p hp => (Graph.mem_preds hp).1]

/-- A node whose index no live node has is not in the digraph. -/
theorem get?_succ_eq_none {n : Node} (hn : n.index ∉ g.live.map (·.index)) :
    s.links.succ.get? n.index = none :=
  Dict.get?_eq_none_iff.2 (h.succ_keys ▸ hn)

theorem get?_pred_eq_none {n : Node} (hn : n.index ∉ g.live.map (·.index)) :
    s.links.pred.get? n.index = none := by
  have hkeys : s.links.pred.keys = g.live.map (·.index) := by
    have := congrArg (map (·.1)) h.pred
    simp only [map_map, Function.comp_def] at this
    exact this
  exact Dict.get?_eq_none_iff.2 (hkeys ▸ hn)

/-- The tables give the view's successors of every node they can be asked about: the live
node of its index, or a node whose index no live node has. -/
theorem successors (hg : g.Numbered) {n : Node} (hn : ∀ m ∈ g.live, m.index = n.index → m = n) :
    s.successors n = g.successors n := by
  rcases hg.live_or_absent hn with hlive | ⟨hidx, hdead⟩
  · rw [h.successors_of_live hlive, Graph.successors_of_live hg hlive]
  · rw [Tables.successors, h.get?_succ_eq_none hidx, Graph.successors, hdead]
    rfl

/-- The tables give the view's predecessors of every node they can be asked about. -/
theorem predecessors (hg : g.Numbered) {n : Node}
    (hn : ∀ m ∈ g.live, m.index = n.index → m = n) : s.predecessors n = g.predecessors n := by
  rcases hg.live_or_absent hn with hlive | ⟨hidx, hdead⟩
  · rw [h.predecessors_of_live hlive, Graph.predecessors_of_live hg hlive]
  · rw [Tables.predecessors, h.get?_pred_eq_none hidx, Graph.predecessors, hdead]
    rfl

/-- The schedule walks the successors of a live node as the view lists them. -/
theorem scheduleSuccs_eq {p : Node} (hp : p ∈ g.live) : s.scheduleSuccs p = g.succs p := by
  obtain ⟨D, hD, hentries⟩ := h.get?_succ hp
  have hkeys : D.keys = (g.succs p).map (·.index) := by
    rw [Dict.keys, hentries, map_map]
    rfl
  rw [scheduleSuccs, hD, Option.map_some, Option.getD_some, hkeys,
    h.nodesAt_map fun c hc => Graph.mem_live_of_mem_succs hc]

/-- A live node has as many links in as the view has predecessors for it. -/
theorem inDegree_eq {c : Node} (hc : c ∈ g.live) : s.inDegree c = g.inDegree c := by
  obtain ⟨D, hD, hentries⟩ := h.get?_pred hc
  rw [Tables.inDegree, hD, Option.map_some, Option.getD_some, Dict.size, hentries, length_map,
    Graph.inDegree]

/-- The tables schedule the nodes as the view does. -/
theorem topologicalSort : s.topologicalSort = g.topoOrder := by
  have horder : s.nodesAt s.links.succ.keys = g.live := by
    rw [h.succ_keys]
    exact h.nodesAt_map fun _ hn => hn
  unfold Tables.topologicalSort Graph.topoOrder
  rw [horder, h.values_nodes, Graph.sort_congr (fun p hp => h.scheduleSuccs_eq hp)
    (fun c hc => h.inDegree_eq hc) fun p hp c hc => by
      rw [h.scheduleSuccs_eq hp] at hc
      exact Graph.mem_live_of_mem_succs hc]

end Represents

/-! ### The tables of a model -/

/-- The tables of a model are built from the nodes of its view. -/
theorem ofDef_eq_build {d : GraphDef} {g : Graph} (h : Graph.ofDef d = .ok g) :
    Tables.ofDef d = .ok (build g.nodes) := by
  simp only [Graph.ofDef, Proofs.bind_eq_ok] at h
  obtain ⟨ns, hns, h⟩ := h
  simp only [pure, Except.pure, Except.ok.injEq] at h
  subst h
  simp only [Tables.ofDef, hns]
  rfl

/-- What the tables of a model list, in the order of its node list `ns`: the successors of a
node, each once; its predecessors, each once, by first linking input and then node-list
order; and the producers of each output name, once per listing and in node-list order, with
an entry exactly for the names some node writes. -/
structure LinksInNodeOrder (s : Tables) (ns : List Node) : Prop where
  successors : ∀ p ∈ ns, ∃ l, s.successors p = .ok l ∧ l <+ ns ∧ l.Nodup ∧
    ∀ c, c ∈ l ↔ c ∈ ns ∧ ∃ t ∈ c.inputs, t ∈ p.outputs
  predecessors : ∀ c ∈ ns, ∃ l, s.predecessors c = .ok l ∧ l.Nodup ∧
    l.Pairwise (Node.LinksBefore c) ∧ ∀ p, p ∈ l ↔ p ∈ ns ∧ ∃ t ∈ c.inputs, t ∈ p.outputs
  producer_keys : ∀ t, (∃ l, s.producers.get? t = some l) ↔ ∃ n ∈ ns, t ∈ n.outputs
  producer_entries : ∀ t l, s.producers.get? t = some l →
    l.Pairwise (fun a b => a.index ≤ b.index) ∧ (∀ n ∈ l, n ∈ ns ∧ t ∈ n.outputs) ∧
      ∀ n ∈ ns, l.filter (·.index == n.index) = replicate (n.outputs.count t) n

/-- For every model whose view builds, the graph object builds too, its tables hold the view,
and they list successors, predecessors and producers in the order of the node list, whatever
the model holds (tensors written by several nodes or listed twice by one, nodes reading their
own outputs or one tensor several times). -/
theorem built_tables_link_in_node_order {d : GraphDef} {g : Graph} (h : Graph.ofDef d = .ok g) :
    ∃ s, Tables.ofDef d = .ok s ∧ s.Represents g ∧ s.LinksInNodeOrder g.nodes := by
  have hg := Graph.ofDef_numbered h
  have hlive := Graph.ofDef_live h
  have hrep : (build g.nodes).Represents g := hlive ▸ build_represents hg
  have hview := Graph.built_view_links_in_node_order h
  refine ⟨_, ofDef_eq_build h, hrep, ⟨fun p hp => ?_, fun c hc => ?_, fun t => ?_,
    fun t l hl => ?_⟩⟩
  · rw [hrep.successors_of_live (hlive ▸ hp), ← Graph.successors_of_live hg (hlive ▸ hp)]
    exact hview.successors p hp
  · rw [hrep.predecessors_of_live (hlive ▸ hc), ← Graph.predecessors_of_live hg (hlive ▸ hc)]
    exact hview.predecessors c hc
  · rw [hrep.producers, hlive]
    split
    · rename_i hnil
      simp only [reduceCtorEq, exists_false, false_iff, not_exists, not_and]
      intro n hn ht
      have hmem : n ∈ writersIn g.nodes t := mem_writersIn.2 ⟨hn, ht⟩
      rw [hnil] at hmem
      exact not_mem_nil hmem
    · rename_i hnil
      obtain ⟨n, hn⟩ := exists_mem_of_ne_nil _ hnil
      exact ⟨fun _ => ⟨n, mem_writersIn.1 hn⟩, fun _ => ⟨_, rfl⟩⟩
  · rw [hrep.producers, hlive] at hl
    split at hl
    · cases hl
    · obtain rfl := Option.some.inj hl
      have hpair : g.nodes.Pairwise fun a b => a.index < b.index := hlive ▸ hg.live_pairwise
      exact writersIn_spec hpair t

end Tables

/-- The tables of the model where one tensor has two writers, one listing it twice, and a node
reads its own output. -/
theorem sharedWriters_tables_link_in_node_order :
    ∃ g, Graph.ofDef Graph.sharedWriters = .ok g ∧ ∃ s, Tables.ofDef Graph.sharedWriters = .ok s ∧
      s.Represents g ∧ s.LinksInNodeOrder g.nodes :=
  ⟨_, rfl, Tables.built_tables_link_in_node_order (d := Graph.sharedWriters) rfl⟩

end OnnxFusion.Dataflow

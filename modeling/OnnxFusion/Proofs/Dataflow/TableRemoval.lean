import Mathlib
import OnnxFusion.Proofs.Dataflow.TableBuild
import OnnxFusion.Proofs.Dataflow.Removal
/-!
# Removing nodes from the tables answers as rebuilding without them

Removing a node from the graph object deletes it from the node table, deletes it and its
links from the digraph the way networkx does (the links out of it from the predecessor
dictionaries of their ends, its successor dictionary, the links into it from the successor
dictionaries of their sources, its predecessor dictionary), and filters it out of the
producer lists of its outputs, deleting a list left empty.

`Represents.removeNode` is the step: if the tables hold the view, then after removing a node
they hold the view with that node removed. The links out of the node are exactly the links
into its successors, so networkx's two loops delete every link of the node and nothing else;
a dictionary deletion keeps the order of the other keys, and the view's lists lose the node
in place (`succs_remove`, `preds_remove`, `writersIn_filter`). `Represents.foldl_removeNode`
carries this through any sequence of removals, of nodes present or not.

Two tables holding views with the same live nodes are the same state (`Represents.sameState`):
the node table and the digraph are equal with all their orders, and the producer tables are
equal as dictionaries. `removals_match_rebuilt_tables` collects this for every model: after
any sequence of removals the state is that of the tables built from the surviving nodes,
which are, numbered by their places, the nodes of the model with the removed ones deleted.
The order of the producer table's keys is the one thing that may differ: removing a node
keeps a name where its first writer put it, while rebuilding puts it where its first
surviving writer does.
-/

set_option autoImplicit false

namespace OnnxFusion.Dataflow

open List

/-! ### The view with a node removed -/

namespace Graph

variable {g : Graph}

theorem dedup_cons (n : Node) (l acc : List Node) :
    dedup (n :: l) acc = if acc.any (·.index == n.index) then dedup l acc else dedup l (n :: acc) :=
  rfl

/-- Keeping the first node of each index commutes with dropping the nodes of one index. -/
theorem dedup_filter (i : Nat) : ∀ (l acc : List Node),
    dedup (l.filter (·.index != i)) (acc.filter (·.index != i)) =
      (dedup l acc).filter (·.index != i)
  | [], acc => by simp [dedup, filter_reverse]
  | n :: l, acc => by
    by_cases hn : n.index = i
    · -- `n` is dropped, and keeps out no node that is not
      rw [filter_cons_of_neg (by simp [hn]), dedup_cons]
      split
      · exact dedup_filter i l acc
      · rw [← dedup_filter i l (n :: acc), filter_cons_of_neg (by simp [hn])]
    · -- a node of another index is kept here exactly when it is kept there
      have hsame : (acc.filter (·.index != i)).any (·.index == n.index) =
          acc.any (·.index == n.index) := by
        rw [Bool.eq_iff_iff, List.any_eq_true, List.any_eq_true]
        constructor
        · rintro ⟨x, hx, hxn⟩
          exact ⟨x, (mem_filter.1 hx).1, hxn⟩
        · rintro ⟨x, hx, hxn⟩
          refine ⟨x, mem_filter.2 ⟨hx, ?_⟩, hxn⟩
          rw [beq_iff_eq.1 hxn]
          simpa using hn
      rw [filter_cons_of_pos (by simpa using hn), dedup_cons, dedup_cons, hsame]
      split
      · exact dedup_filter i l acc
      · rw [← dedup_filter i l (n :: acc), filter_cons_of_pos (by simpa using hn)]

/-- Removing the node of index `i` drops it from every successor list. -/
theorem succs_remove (hg : g.Numbered) (i : Nat) (p : Node) :
    (g.remove i).succs p = (g.succs p).filter (·.index != i) := by
  rw [succs, live_remove hg, succs, filter_comm]

/-- Removing the node of index `i` drops it from every predecessor list, in place. -/
theorem preds_remove (hg : g.Numbered) (i : Nat) (c : Node) :
    (g.remove i).preds c = (g.preds c).filter (·.index != i) := by
  have hprod : ∀ t, (g.remove i).producers t = (g.producers t).filter (·.index != i) := by
    intro t
    rw [producers, live_remove hg, producers, filter_comm]
  rw [preds, preds, ← dedup_filter, filter_nil]
  congr 1
  rw [filter_flatMap]
  exact flatMap_congr fun t _ => hprod t

end Graph

/-- The writers among the nodes that pass a test are the writers that pass it. -/
theorem writersIn_filter (q : Node → Bool) (ns : List Node) (t : String) :
    writersIn (ns.filter q) t = (writersIn ns t).filter q := by
  induction ns with
  | nil => rfl
  | cons n ns ih =>
    rw [writersIn_cons, filter_append, ← ih]
    by_cases hq : q n = true
    · have hall : (replicate (n.outputs.count t) n).filter q = replicate (n.outputs.count t) n :=
        filter_eq_self.2 fun x hx => (eq_of_mem_replicate hx).symm ▸ hq
      rw [filter_cons_of_pos hq, writersIn_cons, hall]
    · have hnone : (replicate (n.outputs.count t) n).filter q = [] :=
        filter_eq_nil_iff.2 fun x hx => (eq_of_mem_replicate hx).symm ▸ hq
      rw [filter_cons_of_neg hq, hnone, nil_append]

/-- The lists of a dictionary of dictionaries with one key deleted everywhere: the view's
lists with the node of that index dropped. -/
theorem prune_map (ns : List Node) (L : Node → List Node) (lab : Node → Node → String)
    (i : Nat) :
    ((ns.map fun p => (p.index, (L p).map fun c => (c.index, lab p c))).filter (·.1 != i)).map
        (fun x => (x.1, x.2.filter (·.1 != i))) =
      (ns.filter (·.index != i)).map fun p =>
        (p.index, ((L p).filter (·.index != i)).map fun c => (c.index, lab p c)) := by
  simp [filter_map, map_map, Function.comp_def]

/-- Deleting a key from a dictionary of dictionaries and from each of its dictionaries, seen
through the entries of the dictionaries. -/
theorem entries_prune (D : Dict Nat (Dict Nat String)) (i : Nat) :
    ((D.entries.filter (·.1 != i)).map fun e => (e.1, e.2.erase i)).map
        (fun e => (e.1, e.2.entries)) =
      ((D.entries.map fun e => (e.1, e.2.entries)).filter (·.1 != i)).map
        fun x => (x.1, x.2.filter (·.1 != i)) := by
  rw [filter_map, map_map, map_map]
  rfl

namespace Tables

/-! ### Dropping a node from the producers -/

/-- What is left under a name when the node of index `i` is dropped: its other producers, or
no entry when none is left. -/
def pruned (i : Nat) : Option (List Node) → Option (List Node)
  | some ps => if (ps.filter (·.index != i)).isEmpty then none else some (ps.filter (·.index != i))
  | none => none

theorem pruned_pruned (i : Nat) (o : Option (List Node)) : pruned i (pruned i o) = pruned i o := by
  cases o with
  | none => rfl
  | some ps =>
    by_cases hps : (ps.filter (·.index != i)).isEmpty = true
    · simp only [pruned, hps, if_true]
    · simp only [pruned, hps, Bool.false_eq_true, if_false, filter_filter, Bool.and_self]

theorem get?_dropProducer (i : Nat) (w : Dict String (List Node)) (t t' : String) :
    (dropProducer i w t).get? t' = if t' = t then pruned i (w.get? t) else w.get? t' := by
  unfold dropProducer
  cases hw : w.get? t with
  | none => split <;> simp_all [pruned]
  | some ps =>
    simp only
    split
    · rename_i hempty
      simp [hempty, pruned]
    · rename_i hempty
      simp [hempty, pruned]

/-- Dropping a node under each of its outputs prunes each of them once. -/
theorem get?_foldl_dropProducer (i : Nat) (os : List String) (w : Dict String (List Node))
    (t : String) :
    (os.foldl (dropProducer i) w).get? t = if t ∈ os then pruned i (w.get? t) else w.get? t := by
  induction os generalizing w with
  | nil => simp
  | cons o os ih =>
    rw [foldl_cons, ih, get?_dropProducer]
    by_cases ht : t = o
    · subst ht
      simp [pruned_pruned]
    · simp [ht]

/-! ### Removing one node -/

/-- Deleting the links of a node from one side: every dictionary loses the key `i` where the
node sits on the other side of its links; elsewhere the key is absent anyway. -/
theorem foldl_modify_erase {D : Dict Nat (Dict Nat String)} {ks : List Nat} {i : Nat}
    (habsent : ∀ e ∈ D.entries, e.1 ∉ ks → i ∉ e.2.keys) :
    (ks.foldl (fun D u => D.modify u (·.erase i)) D).entries =
      D.entries.map fun e => (e.1, e.2.erase i) := by
  rw [Dict.entries_foldl_modify ks (fun u => u) (fun _ v => v.erase i) D]
  refine map_congr_left fun e he => ?_
  rw [Dict.foldl_erase_filter]
  split
  · rfl
  · rename_i hk
    rw [Dict.erase_of_not_mem (habsent e he hk)]

namespace Represents

variable {s : Tables} {g : Graph} (hg : g.Numbered) (h : s.Represents g)
include hg h

/-- A node whose index no live node has leaves the tables and the view as they are. -/
theorem removeNode_absent {r : Node} (hr : r.index ∉ g.live.map (·.index)) :
    (s.removeNode r).Represents (g.remove r.index) := by
  have hkeys : s.nodes.keys = g.live.map (·.index) := by
    rw [Dict.keys, h.nodes, map_map]
    rfl
  have hs : s.removeNode r = s := by
    have hc : s.nodes.contains r.index = false := by
      rw [Bool.eq_false_iff, ne_eq, Dict.contains_iff, hkeys]
      exact hr
    simp [removeNode, hc]
  have hdead : g.isLive r.index = false := by
    rw [Bool.eq_false_iff]
    intro hl
    obtain ⟨m, hm, hmi⟩ := hg.exists_live_of_isLive hl
    exact hr (hmi ▸ mem_map_of_mem hm)
  rw [hs, Graph.remove, hdead, if_neg Bool.false_ne_true]
  exact h

/-- The producers after removing a live node: its outputs lose it. -/
theorem producers_removeNode {r : Node} (hr : r ∈ g.live) (t : String) :
    (r.outputs.foldl (dropProducer r.index) s.producers).get? t =
      if writersIn (g.remove r.index).live t = [] then none
      else some (writersIn (g.remove r.index).live t) := by
  rw [get?_foldl_dropProducer, h.producers, Graph.live_remove hg, writersIn_filter]
  split
  · -- the name is an output of `r`, which has it among its writers
    rename_i ht
    have hne : writersIn g.live t ≠ [] := ne_nil_of_mem (mem_writersIn.2 ⟨hr, ht⟩)
    simp only [hne, if_false, pruned, List.isEmpty_iff]
  · -- `r` does not write the name, so its writers keep every node
    rename_i ht
    have hkeep : (writersIn g.live t).filter (·.index != r.index) = writersIn g.live t := by
      refine filter_eq_self.2 fun n hn => ?_
      have hn' := mem_writersIn.1 hn
      have hne : n.index ≠ r.index := fun hi =>
        ht (Graph.Numbered.eq_of_index_eq hg hn'.1 hr hi ▸ hn'.2)
      simpa using hne
    rw [hkeep]

/-- A node keyed in the predecessor dictionary of another is one of its predecessors, so the
other is among its successors. -/
theorem mem_succs_of_pred_keys {e : Nat × Dict Nat String} (he : e ∈ s.links.pred.entries)
    {r : Node} (hr : r ∈ g.live) (hin : r.index ∈ e.2.keys) :
    e.1 ∈ (g.succs r).map (·.index) := by
  have hmem : (e.1, e.2.entries) ∈ s.links.pred.entries.map fun e => (e.1, e.2.entries) :=
    mem_map_of_mem he
  rw [h.pred] at hmem
  obtain ⟨c, hc, hce⟩ := mem_map.1 hmem
  simp only [Prod.mk.injEq] at hce
  rw [Dict.keys, ← hce.2, map_map] at hin
  obtain ⟨p, hp, hpi⟩ := mem_map.1 hin
  -- the predecessor keyed by the index of `r` is `r`
  obtain rfl := hg.eq_of_index_eq (Graph.mem_preds hp).1 hr hpi
  obtain ⟨-, t, ht, hpt⟩ := Graph.mem_preds hp
  rw [← hce.1]
  exact mem_map_of_mem (Graph.mem_succs_iff.2 ⟨hc, t, ht, hpt⟩)

/-- A node keyed in the successor dictionary of another is one of its successors, so the
other is among its predecessors. -/
theorem mem_preds_of_succ_keys {e : Nat × Dict Nat String} (he : e ∈ s.links.succ.entries)
    {r : Node} (hr : r ∈ g.live) (hin : r.index ∈ e.2.keys) :
    e.1 ∈ (g.preds r).map (·.index) := by
  have hmem : (e.1, e.2.entries) ∈ s.links.succ.entries.map fun e => (e.1, e.2.entries) :=
    mem_map_of_mem he
  rw [h.succ] at hmem
  obtain ⟨p, hp, hpe⟩ := mem_map.1 hmem
  simp only [Prod.mk.injEq] at hpe
  rw [Dict.keys, ← hpe.2, map_map] at hin
  obtain ⟨c, hc, hci⟩ := mem_map.1 hin
  -- the successor keyed by the index of `r` is `r`
  obtain rfl := hg.eq_of_index_eq (Graph.mem_live_of_mem_succs hc) hr hci
  rw [← hpe.1]
  exact mem_map_of_mem (Graph.mem_preds_of_feeds hg hp (mem_filter.1 hc).2)

/-- The digraph after removing a live node: its dictionaries are gone, and every other
dictionary lost its key. -/
theorem links_removeNode {r : Node} (hr : r ∈ g.live) :
    (s.links.removeNode r.index).succ.entries =
        (s.links.succ.entries.filter (·.1 != r.index)).map (fun e => (e.1, e.2.erase r.index)) ∧
      (s.links.removeNode r.index).pred.entries =
        (s.links.pred.entries.filter (·.1 != r.index)).map (fun e => (e.1, e.2.erase r.index)) := by
  obtain ⟨out, hout, houtE⟩ := h.get?_succ hr
  obtain ⟨into, hinto, hintoE⟩ := h.get?_pred hr
  have houtK : out.keys = (g.succs r).map (·.index) := by
    rw [Dict.keys, houtE, map_map]
    rfl
  have hintoK : into.keys = (g.preds r).map (·.index) := by
    rw [Dict.keys, hintoE, map_map]
    rfl
  -- the first loop: the links out of `r`, from the side of their ends
  have hpred₁ : (out.keys.foldl (fun D u => D.modify u (·.erase r.index)) s.links.pred).entries =
      s.links.pred.entries.map fun e => (e.1, e.2.erase r.index) :=
    foldl_modify_erase fun e he hk hin => hk (houtK ▸ h.mem_succs_of_pred_keys hg he hr hin)
  -- what the second loop reads: the predecessors of `r` other than itself
  have hget : (out.keys.foldl (fun D u => D.modify u (·.erase r.index)) s.links.pred).get?
      r.index = some (into.erase r.index) := by
    rw [Dict.get?_eq_some_iff, hpred₁]
    exact mem_map_of_mem (f := fun e : Nat × Dict Nat String => (e.1, e.2.erase r.index))
      (Dict.get?_eq_some_iff.1 hinto)
  -- the second loop: the links into `r`, from the side of their sources
  have hsucc₁ : ((into.erase r.index).keys.foldl (fun D u => D.modify u (·.erase r.index))
      (s.links.succ.erase r.index)).entries =
        (s.links.succ.erase r.index).entries.map fun e => (e.1, e.2.erase r.index) := by
    refine foldl_modify_erase fun e he hk hin => hk ?_
    rw [Dict.entries_erase, mem_filter] at he
    rw [Dict.keys_erase, hintoK]
    exact mem_filter.2 ⟨h.mem_preds_of_succ_keys hg he.1 hr hin, he.2⟩
  simp only [Digraph.removeNode, hout, hget, Option.map_some, Option.getD_some]
  refine ⟨?_, ?_⟩
  · rw [hsucc₁, Dict.entries_erase]
  · rw [Dict.entries_erase, hpred₁, filter_map]
    rfl

/-- Removing a node keeps the tables holding the view: the step of any sequence of removals. -/
theorem removeNode {r : Node} (hr : ∀ n ∈ g.live, n.index = r.index → n = r) :
    (s.removeNode r).Represents (g.remove r.index) := by
  rcases hg.live_or_absent hr with hlive | ⟨habsent, -⟩
  · have hc : s.nodes.contains r.index = true := by
      rw [Dict.contains_iff, Dict.keys, h.nodes, map_map]
      exact mem_map_of_mem hlive
    obtain ⟨hsucc, hpred⟩ := h.links_removeNode hg hlive
    simp only [Tables.removeNode, hc, if_true]
    refine ⟨?_, ?_, ?_, h.producers_removeNode hg hlive⟩
    · rw [Dict.entries_erase, h.nodes, Graph.live_remove hg, filter_map]
      rfl
    · simp only
      rw [hsucc, entries_prune, h.succ, prune_map, Graph.live_remove hg]
      exact map_congr_left fun p _ => by rw [Graph.succs_remove hg]
    · simp only
      rw [hpred, entries_prune, h.pred, prune_map g.live g.preds fun c p => Graph.linkTensor p c,
        Graph.live_remove hg]
      exact map_congr_left fun c _ => by rw [Graph.preds_remove hg]
  · exact h.removeNode_absent hg habsent

end Represents

/-- Any sequence of removals, of nodes of the model or of nodes no node's index is, keeps the
tables holding the view with the same removals. -/
theorem Represents.foldl_removeNode : ∀ (rs : List Node) {s : Tables} {g : Graph},
    g.Numbered → s.Represents g → (∀ r ∈ rs, r ∈ g.nodes ∨ r.index ∉ g.nodes.map (·.index)) →
      (rs.foldl Tables.removeNode s).Represents ((rs.map (·.index)).foldl Graph.remove g)
  | [], _, _, _, h, _ => h
  | r :: rs, s, g, hg, h, hrs => by
    obtain ⟨rem, hrem⟩ := Graph.remove_eq g r.index
    have hg' : (g.remove r.index).Numbered := by
      rw [hrem]
      exact hg
    -- a live node of the index of `r` is a node of the model, so `r` itself
    have hr : ∀ n ∈ g.live, n.index = r.index → n = r := by
      intro n hn hi
      rcases hrs r mem_cons_self with hmem | habsent
      · exact inj_on_of_nodup_map hg.distinctIndices (mem_filter.1 hn).1 hmem hi
      · exact absurd (hi ▸ mem_map_of_mem (mem_filter.1 hn).1) habsent
    rw [foldl_cons, map_cons, foldl_cons]
    refine Represents.foldl_removeNode rs hg' (h.removeNode hg hr) fun r' hr' => ?_
    rw [hrem]
    exact hrs r' (mem_cons_of_mem _ hr')

/-! ### The same state -/

/-- Two states of the graph object that no question tells apart: the same node table in the
same order, the same digraph with every dictionary in the same order, and producer tables equal
as dictionaries; so the successors, the predecessors and the schedule agree. -/
structure SameState (s s' : Tables) : Prop where
  nodes : s.nodes = s'.nodes
  links : s.links = s'.links
  producers : ∀ t, s.producers.get? t = s'.producers.get? t
  successors : ∀ n, s.successors n = s'.successors n
  predecessors : ∀ n, s.predecessors n = s'.predecessors n
  topologicalSort : s.topologicalSort = s'.topologicalSort

/-- A dictionary of dictionaries is fixed by its keys and the entries of their dictionaries. -/
theorem eq_of_entries_map {D D' : Dict Nat (Dict Nat String)}
    (h : D.entries.map (fun e => (e.1, e.2.entries)) = D'.entries.map fun e => (e.1, e.2.entries)) :
    D = D' := by
  refine Dict.ext (map_injective_iff.2 (fun e e' he => ?_) h)
  simp only [Prod.mk.injEq] at he
  exact Prod.ext he.1 (Dict.ext he.2)

/-- Tables holding views with the same live nodes are the same state. -/
theorem Represents.sameState {s s' : Tables} {g g' : Graph} (h : s.Represents g)
    (h' : s'.Represents g') (hlive : g.live = g'.live) : SameState s s' := by
  have hsuccs : g.succs = g'.succs := funext fun p => by rw [Graph.succs, Graph.succs, hlive]
  have hpreds : g.preds = g'.preds := funext fun c => by
    unfold Graph.preds Graph.producers
    rw [hlive]
  have hnodes : s.nodes = s'.nodes := Dict.ext (by rw [h.nodes, h'.nodes, hlive])
  have hlinks : s.links = s'.links :=
    Digraph.ext (eq_of_entries_map (by rw [h.succ, h'.succ, hlive, hsuccs]))
      (eq_of_entries_map (by rw [h.pred, h'.pred, hlive, hpreds]))
  refine ⟨hnodes, hlinks, fun t => by rw [h.producers, h'.producers, hlive], fun n => ?_,
    fun n => ?_, ?_⟩
  · simp only [Tables.successors, Tables.nodesAt, hnodes, hlinks]
  · simp only [Tables.predecessors, Tables.nodesAt, hnodes, hlinks]
  · have hsched : s.scheduleSuccs = s'.scheduleSuccs := funext fun n => by
      simp only [Tables.scheduleSuccs, Tables.nodesAt, hnodes, hlinks]
    have hdeg : s.inDegree = s'.inDegree := funext fun n => by
      simp only [Tables.inDegree, hlinks]
    unfold Tables.topologicalSort Tables.nodesAt
    rw [hnodes, hlinks, hsched, hdeg]

/-- No name of the producer table is left without a producer. -/
theorem Represents.producers_ne_nil {s : Tables} {g : Graph} (h : s.Represents g) :
    ∀ t l, s.producers.get? t = some l → l ≠ [] := by
  intro t l hl
  rw [h.producers] at hl
  split at hl
  · cases hl
  · rename_i hne
    obtain rfl := Option.some.inj hl
    exact hne

/-- Removing any sequence of nodes, present or not, from the graph object of a model leaves the
state of the graph object built from the surviving nodes: the same node table in the same
order, the same digraph with every successor and predecessor dictionary in the same order and
every link with its tensor, producer tables equal as dictionaries with no name left empty, and
so the same successors, predecessors and schedule. The surviving nodes are, numbered by their
places, the nodes of the model with the removed ones deleted from its node list. -/
theorem removals_match_rebuilt_tables {d : GraphDef} {g : Graph} (h : Graph.ofDef d = .ok g)
    (rs : List Node) (hrs : ∀ r ∈ rs, r ∈ g.nodes ∨ r.index ∉ g.nodes.map (·.index)) :
    ∃ s, Tables.ofDef d = .ok s ∧
      Tables.ofDef (d.withoutNodes (rs.map (·.index))) =
        .ok (build (renumberFrom 0 (g.nodes.filter fun n => !(rs.map (·.index)).contains n.index))) ∧
      SameState (rs.foldl removeNode s)
        (build (g.nodes.filter fun n => !(rs.map (·.index)).contains n.index)) ∧
      ∀ t l, (rs.foldl removeNode s).producers.get? t = some l → l ≠ [] := by
  have hg := Graph.ofDef_numbered h
  have hlive := Graph.ofDef_live h
  obtain ⟨rem, hrem, hsurv⟩ := Graph.foldl_remove_eq (rs.map (·.index)) hg
  have hg' : ((rs.map (·.index)).foldl Graph.remove g).Numbered := by
    rw [hrem]
    exact hg
  have hrun := (hlive ▸ build_represents hg).foldl_removeNode rs hg hrs
  have hbuilt := build_represents hg'
  rw [hsurv, hlive] at hbuilt
  refine ⟨_, ofDef_eq_build h, ?_, hrun.sameState hbuilt (by rw [hsurv, hlive]),
    hrun.producers_ne_nil⟩
  rw [ofDef_eq_build (Graph.ofDef_withoutNodes h _), hsurv, hlive]

end Tables

/-- Removing the first node of the model with shared writers, a node it does not hold, and the
first node again. -/
theorem sharedWriters_removals_match_tables :
    ∃ g, Graph.ofDef Graph.sharedWriters = .ok g ∧
      let rs := g.nodes.take 1 ++ [⟨5, "ghost", "Relu", [], [], []⟩] ++ g.nodes.take 1
      ∃ s, Tables.ofDef Graph.sharedWriters = .ok s ∧
        Tables.ofDef (Graph.sharedWriters.withoutNodes (rs.map (·.index))) =
          .ok (Tables.build (renumberFrom 0
            (g.nodes.filter fun n => !(rs.map (·.index)).contains n.index))) ∧
        Tables.SameState (rs.foldl Tables.removeNode s)
          (Tables.build (g.nodes.filter fun n => !(rs.map (·.index)).contains n.index)) ∧
        ∀ t l, (rs.foldl Tables.removeNode s).producers.get? t = some l → l ≠ [] := by
  refine ⟨_, rfl, Tables.removals_match_rebuilt_tables rfl _ fun r hr => ?_⟩
  simp only [mem_append, mem_singleton] at hr
  rcases hr with (hr | rfl) | hr
  · exact .inl (mem_of_mem_take hr)
  · exact .inr (by decide)
  · exact .inl (mem_of_mem_take hr)

end OnnxFusion.Dataflow

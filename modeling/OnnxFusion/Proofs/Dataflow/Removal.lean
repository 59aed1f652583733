import Mathlib
import OnnxFusion.Proofs.Dataflow.Generations
import OnnxFusion.Proofs.Pattern.Reorder
/-!
# Removing nodes answers as rebuilding without them

`Graph.remove` only records an index as removed, and only when a live node has it. Every
answer of a view is computed from its live nodes. These are the successor and predecessor
lists, the producer table, the labelled links, the schedule and the summary line. So what a
sequence of removals leaves is fixed by one list, the live nodes that survive.
`foldl_remove_eq` shows that list is the live nodes whose index was never removed, in list
order, whether the removals named live nodes, removed ones or no node at all.

The view of the model with those nodes deleted from its node list (`GraphDef.withoutNodes`)
holds the same nodes in the same order. Only their indices differ: the rebuilt view numbers
each node by its place among the survivors (`ofDef_withoutNodes`, `livePlace`).

`Renumbered σ g g'` says that `g'` holds the live nodes of `g` in order, renumbered by `σ`.
Every answer then agrees once its nodes are renumbered (`Renumbered.sameAnswers`). The order
of each list is kept, not only its members: the predecessors keep the first node of each
index, and renumbering keeps indices apart. Kahn's schedule is carried through step by step
(`Renumbered.step`, `Renumbered.run`), because its waiting table is keyed by index and the
keys it compares are live. `removals_match_rebuilt_model` collects this for every model
and every sequence of removals.
-/

set_option autoImplicit false

namespace OnnxFusion

open Dataflow Proofs List

/-- The model with the nodes at the places `rs` deleted from its node list. -/
def GraphDef.withoutNodes (d : GraphDef) (rs : List Nat) : GraphDef :=
  { d with nodes := (d.nodes.zipIdx.filter fun e => !rs.contains e.2).map (·.1) }

namespace Dataflow

/-- The nodes of a list numbered `k`, `k + 1`, … by their places. -/
def renumberFrom (k : Nat) (ns : List Node) : List Node :=
  (ns.zipIdx k).map fun e => { e.1 with index := e.2 }

@[simp] theorem renumberFrom_nil (k : Nat) : renumberFrom k [] = [] := rfl

theorem renumberFrom_cons (k : Nat) (n : Node) (ns : List Node) :
    renumberFrom k (n :: ns) = { n with index := k } :: renumberFrom (k + 1) ns := by
  simp [renumberFrom, zipIdx_cons]

/-- Building the views of the definitions kept by a test on their places, numbered from `k'`,
gives the views kept from the whole list, renumbered from `k'`. -/
theorem nodesOf_filter (keep : Nat → Bool) :
    ∀ (ds : List NodeDef) (k k' : Nat) (ns : List Node),
    nodesOf k ds = .ok ns →
      nodesOf k' (((ds.zipIdx k).filter fun e => keep e.2).map (·.1)) =
        .ok (renumberFrom k' (ns.filter fun n => keep n.index))
  | [], _, _, ns, h => by
    simp only [nodesOf, Except.ok.injEq] at h
    subst h
    rfl
  | d :: rest, k, k', ns, h => by
    simp only [nodesOf, bind_eq_ok] at h
    obtain ⟨n, hn, ns', hns', h⟩ := h
    simp only [pure, Except.pure, Except.ok.injEq] at h
    subst h
    have hidx : n.index = k := by
      have := Graph.nodesOf_indices k (d :: rest) (n :: ns')
        (by simp only [nodesOf, hn, hns']; rfl)
      simpa [range'_succ] using congrArg head? this
    have ih := nodesOf_filter keep rest (k + 1)
    rw [zipIdx_cons, filter_cons, filter_cons, hidx]
    by_cases hk : keep k = true
    · -- the definition is kept: its view is renumbered to `k'`
      have hn' : Node.ofDef k' d = .ok { n with index := k' } := by
        have := Node.ofDef_relabel (fun _ => k') k d
        rw [hn] at this
        exact this
      simp only [hk, if_true, map_cons, renumberFrom_cons]
      simp only [nodesOf, hn', ih (k' + 1) ns' hns']
      rfl
    · simp only [hk, Bool.false_eq_true, if_false]
      exact ih k' ns' hns'

/-- Numbering a list by places, when its indices are distinct, renumbers each node by the
place of its index. -/
theorem renumberFrom_eq_map_relabel : ∀ (k : Nat) (L : List Node), (L.map (·.index)).Nodup →
    renumberFrom k L = L.map (Node.relabel fun i => k + (L.map (·.index)).idxOf i)
  | _, [], _ => rfl
  | k, n :: L, hnd => by
    rw [renumberFrom_cons, renumberFrom_eq_map_relabel (k + 1) L (nodup_cons.1 hnd).2, map_cons]
    congr 1
    · simp [Node.relabel]
    · refine map_congr_left fun m hm => ?_
      have hne : n.index ≠ m.index := fun h =>
        (nodup_cons.1 hnd).1 (by simpa [h] using mem_map_of_mem (f := (·.index)) hm)
      simp only [Node.relabel, map_cons, idxOf_cons_ne _ hne, Node.mk.injEq, and_true]
      omega

namespace Graph

variable {g : Graph}

/-! ### Removing nodes -/

/-- Removing a node changes only the list of removed indices. -/
theorem remove_eq (g : Graph) (i : Nat) : ∃ rem, g.remove i = { g with removed := rem } := by
  unfold remove
  split
  · exact ⟨_, rfl⟩
  · exact ⟨g.removed, rfl⟩

/-- Removing a node from a numbered view drops the live node of that index, if any. -/
theorem live_remove (hg : g.Numbered) (i : Nat) :
    (g.remove i).live = g.live.filter (·.index != i) := by
  unfold remove
  split
  · simp only [live, filter_filter]
    refine filter_congr fun n _ => ?_
    by_cases hn : n.index = i <;> simp [hn]
  · rename_i hi
    -- a live node of index `i` would make `i` live
    refine (filter_eq_self.2 fun n hn => ?_).symm
    rw [bne_iff_ne]
    rintro rfl
    exact hi (hg.isLive hn)

/-- Any sequence of removals, of live nodes or not, leaves a numbered view with the live nodes
whose index was never removed, in list order; nothing else changes. -/
theorem foldl_remove_eq : ∀ (rs : List Nat) {g : Graph}, g.Numbered →
    ∃ rem, rs.foldl Graph.remove g = { g with removed := rem } ∧
      (rs.foldl Graph.remove g).live = g.live.filter fun n => !rs.contains n.index
  | [], g, _ => ⟨g.removed, rfl, by simp⟩
  | i :: rs, g, hg => by
    obtain ⟨rem, hrem⟩ := remove_eq g i
    have hg' : (g.remove i).Numbered := by
      rw [hrem]
      exact hg
    obtain ⟨rem', hrem', hlive⟩ := foldl_remove_eq rs hg'
    refine ⟨rem', by rw [foldl_cons, hrem', hrem], ?_⟩
    rw [foldl_cons, hlive, live_remove hg, filter_filter]
    refine filter_congr fun n _ => ?_
    by_cases hn : n.index = i <;> simp [hn]

/-- The view of the model without the nodes at `rs` holds the nodes that survive removing `rs`
from the view of the whole model, renumbered by their places. -/
theorem ofDef_withoutNodes {d : GraphDef} {g : Graph} (h : Graph.ofDef d = .ok g)
    (rs : List Nat) :
    Graph.ofDef (d.withoutNodes rs) =
      .ok { nodes := renumberFrom 0 (rs.foldl Graph.remove g).live, removed := [],
            initializers := g.initializers, shapes := g.shapes } := by
  obtain ⟨-, -, hlive⟩ := foldl_remove_eq rs (ofDef_numbered h)
  rw [hlive, ofDef_live h]
  simp only [Graph.ofDef, bind_eq_ok] at h
  obtain ⟨ns, hns, h⟩ := h
  simp only [pure, Except.pure, Except.ok.injEq] at h
  subst h
  simp only [Graph.ofDef, GraphDef.withoutNodes]
  rw [nodesOf_filter (fun i => !rs.contains i) d.nodes 0 0 ns hns]
  rfl

/-! ### Views with the same live nodes, renumbered -/

/-- `g'` holds the live nodes of `g` in the same order, renumbered by `σ`; both views are
numbered, and they have the same initializers and declared shapes. -/
structure Renumbered (σ : Nat → Nat) (g g' : Graph) : Prop where
  numbered : g.Numbered
  numbered' : g'.Numbered
  live : g'.live = g.live.map (Node.relabel σ)
  initializers : g'.initializers = g.initializers
  shapes : g'.shapes = g.shapes

namespace Renumbered

variable {σ : Nat → Nat} {g' : Graph} (h : Renumbered σ g g')
include h

/-- Renumbered views are reordered views, in the same order. -/
theorem reordered : Reordered σ g g' :=
  ⟨h.numbered, h.numbered', h.live ▸ Perm.refl _, h.initializers, h.shapes⟩

/-- The live nodes passing a test that reads no index, in the same order. -/
theorem filter_live (q : Node → Bool) (hq : ∀ n, q (n.relabel σ) = q n) :
    g'.live.filter q = (g.live.filter q).map (Node.relabel σ) := by
  rw [h.live, filter_map]
  simp [Function.comp_def, hq]

theorem succs (n : Node) : g'.succs (n.relabel σ) = (g.succs n).map (Node.relabel σ) :=
  h.filter_live _ fun _ => rfl

theorem producers (t : String) : g'.producers t = (g.producers t).map (Node.relabel σ) :=
  h.filter_live _ fun _ => rfl

/-- The predecessors of a node, in the same order: renumbering keeps live indices apart, so it
keeps the first node of each index. -/
theorem preds (n : Node) : g'.preds (n.relabel σ) = (g.preds n).map (Node.relabel σ) := by
  have hflat : n.inputs.flatMap g'.producers =
      (n.inputs.flatMap g.producers).map (Node.relabel σ) := by
    rw [map_flatMap]
    exact flatMap_congr fun t _ => h.producers t
  unfold Graph.preds
  rw [Node.relabel_inputs, hflat, ← map_nil (f := Node.relabel σ)]
  exact dedup_map fun a ha b hb hab => h.reordered.index_inj
    (mem_live_of_mem_flatMap_producers (by simpa using ha))
    (mem_live_of_mem_flatMap_producers (by simpa using hb)) hab

theorem successors {n : Node} (hn : n ∈ g.live) :
    g'.successors (n.relabel σ) = (·.map (Node.relabel σ)) <$> g.successors n := by
  rw [h.reordered.successors hn, successors_of_live h.numbered hn, h.succs]
  rfl

theorem predecessors {n : Node} (hn : n ∈ g.live) :
    g'.predecessors (n.relabel σ) = (·.map (Node.relabel σ)) <$> g.predecessors n := by
  rw [h.reordered.predecessors hn, predecessors_of_live h.numbered hn, h.preds]
  rfl

/-- The links are the same, renumbered, with the same tensors. -/
theorem edges : g'.edges = g.edges.map fun e => (σ e.1, σ e.2.1, e.2.2) := by
  unfold Graph.edges
  rw [h.live, flatMap_map, map_flatMap]
  refine flatMap_congr fun p _ => ?_
  rw [h.succs, map_map, map_map]
  rfl

/-- The producer table has the same tensors, each with its producers renumbered. -/
theorem producerTable : g'.producerTable = g.producerTable.map fun e => (e.1, e.2.map σ) := by
  unfold Graph.producerTable
  simp only [h.live, flatMap_map, Node.relabel_outputs, map_map, Function.comp_def,
    map_flatMap, Node.relabel_index]

end Renumbered

/-! ### The schedule, renumbered -/

/-- A waiting entry with its node renumbered. -/
def relabelEntry (σ : Nat → Nat) (e : Nat × Nat) : Nat × Nat := (σ e.1, e.2)

/-- The schedule with its nodes renumbered by `σ`. -/
def Schedule.relabel (σ : Nat → Nat) (s : Schedule) : Schedule :=
  { emitted := s.emitted.map (Node.relabel σ), waiting := s.waiting.map (relabelEntry σ),
    frontier := s.frontier.map (Node.relabel σ) }

section Release

variable {σ : Nat → Nat} {W : List (Nat × Nat)} {R : List Node} {c : Node}

/-- Using up a link keeps the waiting keys among those before. -/
theorem mem_keys_release {e : Nat × Nat} (he : e ∈ (release W R c).1) :
    e.1 ∈ W.map (·.1) := by
  unfold release at he
  split at he
  · split at he
    · exact mem_map_of_mem (mem_filter.1 he).1
    · obtain ⟨⟨k, v⟩, hkv, rfl⟩ := mem_map.1 he
      have hk : (k, v).1 ∈ W.map (·.1) := mem_map_of_mem hkv
      dsimp only at hk ⊢
      split <;> exact hk
  · exact mem_map_of_mem he

/-- Renumbering commutes with using up a link into `c` when it keeps the waiting keys apart
from the index of `c`. -/
theorem release_relabel (hinj : ∀ e ∈ W, σ e.1 = σ c.index → e.1 = c.index) :
    release (W.map (relabelEntry σ)) (R.map (Node.relabel σ)) (c.relabel σ) =
      Prod.map (map (relabelEntry σ)) (map (Node.relabel σ)) (release W R c) := by
  have hbeq : ∀ e ∈ W, (σ e.1 == σ c.index) = (e.1 == c.index) := fun e he => by
    rw [Bool.eq_iff_iff, beq_iff_eq, beq_iff_eq]
    exact ⟨hinj e he, congrArg σ⟩
  have hfind : (W.map (relabelEntry σ)).find? (·.1 == (c.relabel σ).index) =
      (W.find? (·.1 == c.index)).map (relabelEntry σ) := by
    rw [find?_map, ← head?_filter, ← head?_filter]
    congr 2
    exact filter_congr fun e he => hbeq e he
  unfold release
  rw [hfind]
  cases hW : W.find? (·.1 == c.index) with
  | none => rfl
  | some e =>
    obtain ⟨k, d⟩ := e
    dsimp only [Option.map_some, relabelEntry]
    split
    · -- the last link: the entry leaves the table and `c` is ready
      rw [filter_map]
      refine Prod.ext ?_ (by simp)
      dsimp only [Prod.map_apply]
      congr 1
      exact filter_congr fun e he => by simp [relabelEntry, bne, hbeq e he]
    · -- another link remains: the count of `c` drops
      rw [map_map]
      refine Prod.ext ?_ rfl
      dsimp only [Prod.map_apply]
      rw [map_map]
      refine map_congr_left fun ⟨k', v⟩ he => ?_
      have hb := hbeq _ he
      dsimp only at hb
      simp only [Function.comp_apply, relabelEntry, Node.relabel_index, hb]
      split <;> rfl

end Release

/-- Renumbering commutes with using up the links into the children `cs`, one after another,
when it keeps the indices `S` of the waiting keys and of the children apart. -/
theorem foldl_release_relabel {σ : Nat → Nat} {S : List Nat}
    (hσ : ∀ a ∈ S, ∀ b ∈ S, σ a = σ b → a = b) :
    ∀ (cs : List Node) (W : List (Nat × Nat)) (R : List Node),
      (∀ e ∈ W, e.1 ∈ S) → (∀ c ∈ cs, c.index ∈ S) →
      (cs.map (Node.relabel σ)).foldl (fun acc c => release acc.1 acc.2 c)
          (W.map (relabelEntry σ), R.map (Node.relabel σ)) =
        Prod.map (map (relabelEntry σ)) (map (Node.relabel σ))
          (cs.foldl (fun acc c => release acc.1 acc.2 c) (W, R))
  | [], _, _, _, _ => rfl
  | c :: cs, W, R, hkeys, hcs => by
    have hc : c.index ∈ S := hcs c mem_cons_self
    simp only [map_cons, foldl_cons]
    rw [release_relabel fun e he => hσ _ (hkeys e he) _ hc]
    refine foldl_release_relabel hσ cs _ _ (fun e he => ?_) fun c' hc' =>
      hcs c' (mem_cons_of_mem _ hc')
    obtain ⟨e', he', hkey⟩ := mem_map.1 (mem_keys_release he)
    exact hkey ▸ hkeys e' he'

namespace Renumbered

variable {σ : Nat → Nat} {g' : Graph} (h : Renumbered σ g g')
include h

/-- Renumbering keeps the indices of the live nodes apart. -/
theorem inj_indices :
    ∀ a ∈ g.live.map (·.index), ∀ b ∈ g.live.map (·.index), σ a = σ b → a = b := by
  intro a ha b hb hab
  obtain ⟨x, hx, rfl⟩ := mem_map.1 ha
  obtain ⟨y, hy, rfl⟩ := mem_map.1 hb
  exact h.reordered.index_inj hx hy hab

/-- One generation of the schedule commutes with renumbering. -/
theorem step {s : Schedule} (hs : Schedule.Accounts g s) :
    Schedule.step g'.succs (s.relabel σ) = (Schedule.step g.succs s).relabel σ := by
  have hcs : (s.relabel σ).frontier.flatMap g'.succs =
      (s.frontier.flatMap g.succs).map (Node.relabel σ) := by
    simp only [Schedule.relabel, flatMap_map, map_flatMap, h.succs]
  -- the waiting keys and the children are live, where renumbering keeps indices apart
  have hfold := foldl_release_relabel h.inj_indices (s.frontier.flatMap g.succs) s.waiting []
    (fun e he => hs.perm.subset (mem_append_right _ (mem_map_of_mem he))) fun c hc => by
      obtain ⟨p, -, hc⟩ := mem_flatMap.1 hc
      exact mem_map_of_mem (mem_live_of_mem_succs hc)
  rw [Schedule.step_eq, Schedule.step_eq, hcs]
  simp only [Schedule.relabel, map_nil] at hfold ⊢
  rw [hfold]
  simp

/-- A whole run of the schedule commutes with renumbering. -/
theorem run : ∀ (fuel : Nat) {s : Schedule}, Schedule.Accounts g s →
    Schedule.run g'.succs fuel (s.relabel σ) = (Schedule.run g.succs fuel s).relabel σ
  | 0, _, _ => rfl
  | fuel + 1, s, hs => by
    have hempty : (s.relabel σ).frontier.isEmpty = s.frontier.isEmpty := by
      simp [Schedule.relabel]
    simp only [Schedule.run, hempty]
    split
    · rfl
    · rw [h.step hs, run fuel (step_accounts h.numbered.distinctIndices.live hs)]

/-- The schedule starts from the same nodes, renumbered: each keeps its number of
predecessors. -/
theorem start :
    Schedule.start g'.live g'.inDegree = (Schedule.start g.live g.inDegree).relabel σ := by
  have hcount : g'.live.map (fun n => (n, g'.inDegree n)) =
      (g.live.map fun n => (n, g.inDegree n)).map (Prod.map (Node.relabel σ) id) := by
    rw [h.live, map_map, map_map]
    refine map_congr_left fun n _ => ?_
    simp [inDegree, h.preds]
  simp only [Schedule.start, Schedule.relabel, hcount, filter_map, map_map]
  simp [Function.comp_def, relabelEntry]

/-- The schedule is the same, renumbered. -/
theorem topoOrder : g'.topoOrder = g.topoOrder.map (Node.relabel σ) := by
  have hlen : g'.live.length = g.live.length := by rw [h.live, length_map]
  have hrun : Schedule.run g'.succs (g'.live.length + 1) (Schedule.start g'.live g'.inDegree) =
      (Schedule.run g.succs (g.live.length + 1) (Schedule.start g.live g.inDegree)).relabel σ := by
    rw [hlen, h.start, h.run _ start_accounts]
  unfold Graph.topoOrder Schedule.sort
  simp only [hrun]
  simp only [Schedule.relabel, isEmpty_map]
  split <;> simp [h.live]

/-- The summary line is the same: as many live nodes and as many links. -/
theorem describe : g'.describe = g.describe := by
  have hnodes : g'.live.length = g.live.length := by rw [h.live, length_map]
  have hedges : g'.edgeCount = g.edgeCount := by
    rw [Graph.edgeCount, Graph.edgeCount, h.edges, length_map]
  unfold Graph.describe
  rw [hnodes, hedges]

end Renumbered

/-- Every tensor the producer table lists has a producer. -/
theorem producerTable_ne_nil (g : Graph) : ∀ e ∈ g.producerTable, e.2 ≠ [] := by
  intro e he
  simp only [Graph.producerTable, mem_map] at he
  obtain ⟨t, ht, rfl⟩ := he
  obtain ⟨n, hn, hnt⟩ := mem_flatMap.1 (mem_eraseDups.1 (mem_mergeSort.1 ht))
  -- the producer `n` contributes its index once for each listing of `t`
  have hmem : n.index ∈ (n.outputs.filter (· == t)).map fun _ => n.index :=
    mem_map.2 ⟨t, mem_filter.2 ⟨hnt, beq_self_eq_true t⟩, rfl⟩
  exact ne_nil_of_mem (mem_flatMap.2 ⟨n, hn, hmem⟩)

/-- What a view answers, the same on `g'` as on `g` once the nodes are renumbered by `σ`, which
tells the live nodes apart: the live nodes in order, the initializers and declared shapes, the
producer table, the links with their tensors, the successor and predecessor lists, the schedule
and the summary line. -/
structure SameAnswers (σ : Nat → Nat) (g g' : Graph) : Prop where
  live : g'.live = g.live.map (Node.relabel σ)
  inj : ∀ a ∈ g.live, ∀ b ∈ g.live, σ a.index = σ b.index → a = b
  initializers : g'.initializers = g.initializers
  shapes : g'.shapes = g.shapes
  producerTable : g'.producerTable = g.producerTable.map fun e => (e.1, e.2.map σ)
  edges : g'.edges = g.edges.map fun e => (σ e.1, σ e.2.1, e.2.2)
  successors : ∀ n ∈ g.live,
    g'.successors (n.relabel σ) = (·.map (Node.relabel σ)) <$> g.successors n
  predecessors : ∀ n ∈ g.live,
    g'.predecessors (n.relabel σ) = (·.map (Node.relabel σ)) <$> g.predecessors n
  topoOrder : g'.topoOrder = g.topoOrder.map (Node.relabel σ)
  describe : g'.describe = g.describe

theorem Renumbered.sameAnswers {σ : Nat → Nat} {g' : Graph} (h : Renumbered σ g g') :
    SameAnswers σ g g' :=
  ⟨h.live,
    fun _ ha _ hb hab => h.reordered.eq_of_index_eq ha hb (h.reordered.index_inj ha hb hab),
    h.initializers, h.shapes, h.producerTable, h.edges, fun _ hn => h.successors hn,
    fun _ hn => h.predecessors hn, h.topoOrder, h.describe⟩

/-- The place of a node's index among the live nodes. -/
def livePlace (g : Graph) (i : Nat) : Nat := (g.live.map (·.index)).idxOf i

/-- Removing any sequence of nodes, live or not, from the view of a model leaves a view that
answers as the view of the model whose node list lost those nodes, each surviving node
numbered by its place among the survivors. The producer table lists no tensor without a
producer. -/
theorem removals_match_rebuilt_model {d : GraphDef} (h : Graph.ofDef d = .ok g)
    (rs : List Nat) :
    ∃ g', Graph.ofDef (d.withoutNodes rs) = .ok g' ∧
      SameAnswers (rs.foldl Graph.remove g).livePlace (rs.foldl Graph.remove g) g' ∧
      ∀ e ∈ (rs.foldl Graph.remove g).producerTable, e.2 ≠ [] := by
  have hg := ofDef_numbered h
  obtain ⟨rem, hrem, -⟩ := foldl_remove_eq rs hg
  have hgr : (rs.foldl Graph.remove g).Numbered := by
    rw [hrem]
    exact hg
  have hbuilt := ofDef_withoutNodes h rs
  refine ⟨_, hbuilt, Renumbered.sameAnswers ⟨hgr, ofDef_numbered hbuilt, ?_, ?_, ?_⟩,
    producerTable_ne_nil _⟩
  · -- the rebuilt view numbers the survivors by their places
    rw [ofDef_live hbuilt, renumberFrom_eq_map_relabel 0 _ hgr.distinctIndices.live]
    simp only [Nat.zero_add]
    rfl
  · rw [hrem]
  · rw [hrem]

example : (Graph.ofDef sharedWriters).toOption.map
      (fun g => (([0, 5, 0].foldl Graph.remove g).edges,
        ([0, 5, 0].foldl Graph.remove g).describe)) =
    some ([(1, 2, "t"), (2, 2, "u")], "ONNXGraph(nodes=2, edges=2)") := by
  decide

end Graph

end Dataflow

end OnnxFusion

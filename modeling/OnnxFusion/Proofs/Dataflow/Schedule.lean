import Mathlib.Data.List.Perm.Subperm
import Mathlib.Data.List.Nodup
import OnnxFusion.Dataflow.Graph
/-!
# The schedule lists every node once

`Graph.topoOrder` emits the live nodes of the dataflow view generation by generation
(Kahn's algorithm), or gives the node list itself when some node is never emitted. Either
way, on a view whose nodes have distinct indices, it lists every live node exactly once:
`topoOrder_perm`. Every view built from a model has distinct indices
(`ofDef_distinctIndices`): its nodes are numbered by their place in the model.

The schedule's state accounts for every live node (`Schedule.Accounts`): the node is emitted,
in the frontier, or waiting with a count of links still to be used. Using up a link
(`release`) moves a waiting node to the next frontier at most once, because the waiting
table has one entry per index; `release_released` is the step, `step_accounts` one
generation and `run_accounts` the whole run.
-/

set_option autoImplicit false

namespace OnnxFusion.Dataflow

open List

namespace Graph

/-- No two nodes of the view share an index. -/
def DistinctIndices (g : Graph) : Prop := (g.nodes.map (·.index)).Nodup

instance : DecidablePred DistinctIndices := fun g =>
  inferInstanceAs (Decidable (g.nodes.map (·.index)).Nodup)

/-- The views of node definitions are numbered from `i` in list order. -/
theorem nodesOf_indices : ∀ (i : Nat) (ds : List NodeDef) (ns : List Node),
    nodesOf i ds = .ok ns → ns.map (·.index) = range' i ds.length
  | _, [], ns, h => by
    simp only [nodesOf, Except.ok.injEq] at h
    simp [← h]
  | i, d :: rest, ns, h => by
    simp only [nodesOf, bind, Except.bind] at h
    split at h
    · cases h
    · rename_i n hn
      split at h
      · cases h
      · rename_i tail htail
        simp only [pure, Except.pure, Except.ok.injEq] at h
        subst h
        have hi : n.index = i := by
          simp only [Node.ofDef, bind, Except.bind] at hn
          split at hn
          · cases hn
          · simp only [pure, Except.pure, Except.ok.injEq] at hn
            rw [← hn]
        simp [hi, nodesOf_indices (i + 1) rest tail htail, range'_succ]

/-- Every view built from a model has distinct indices. -/
theorem ofDef_distinctIndices {d : GraphDef} {g : Graph} (h : Graph.ofDef d = .ok g) :
    g.DistinctIndices := by
  simp only [Graph.ofDef, bind, Except.bind] at h
  split at h
  · cases h
  · rename_i ns hns
    simp only [pure, Except.pure, Except.ok.injEq] at h
    subst h
    unfold DistinctIndices
    rw [nodesOf_indices 0 d.nodes ns hns]
    exact nodup_range' _

/-- The live nodes have distinct indices too. -/
theorem DistinctIndices.live {g : Graph} (h : g.DistinctIndices) : (g.live.map (·.index)).Nodup :=
  h.sublist (filter_sublist.map _)

end Graph

/-- Nodes drawn from `l₂` whose keys are a permutation of `l₂`'s distinct keys are a
permutation of `l₂`. -/
theorem perm_of_map_perm {β : Type} {l₁ l₂ : List Node} (f : Node → β) (hsub : l₁ ⊆ l₂)
    (hnd : (l₂.map f).Nodup) (hp : l₁.map f ~ l₂.map f) : l₁ ~ l₂ := by
  have hnd₁ : l₁.Nodup := (hp.nodup_iff.2 hnd).of_map f
  refine (subperm_of_subset hnd₁ hsub).perm_of_length_le ?_
  have hlen := hp.length_eq
  simp only [length_map] at hlen
  omega

namespace Graph

variable {g : Graph}

/-- Part way through one generation: the nodes released so far, after the nodes `done`
already placed, with the waiting table, account for every live node once. -/
def Released (g : Graph) (done : List Node) (acc : List (Nat × Nat) × List Node) : Prop :=
  (∀ n ∈ acc.2, n ∈ g.live) ∧
    (done ++ acc.2).map (·.index) ++ acc.1.map (·.1) ~ g.live.map (·.index)

/-- Changing only the counts keeps the keys of a table. -/
theorem map_keys_of_keys_eq (f : Nat × Nat → Nat × Nat) (w : List (Nat × Nat))
    (hf : ∀ p, (f p).1 = p.1) : (w.map f).map (·.1) = w.map (·.1) := by
  simp only [map_map]
  exact map_congr_left fun p _ => hf p

/-- Using up one link into a live node keeps every node accounted for: a node whose count runs
out leaves the waiting table, which held it once, for the released nodes. -/
theorem release_released (hg : (g.live.map (·.index)).Nodup) {done : List Node}
    {acc : List (Nat × Nat) × List Node} {child : Node} (hc : child ∈ g.live)
    (h : Released g done acc) : Released g done (release acc.1 acc.2 child) := by
  obtain ⟨waiting, ready⟩ := acc
  obtain ⟨hlive, hperm⟩ := h
  unfold release
  split
  · rename_i k d hfind
    have hk : k = child.index := by simpa using find?_some hfind
    have hmem : child.index ∈ waiting.map (·.1) :=
      mem_map.2 ⟨(k, d), mem_of_find?_eq_some hfind, hk⟩
    split
    · -- the count ran out: the node moves from the waiting table to the released nodes
      have hnd : (waiting.map (·.1)).Nodup :=
        ((hperm.nodup_iff.2 hg).sublist (sublist_append_right _ _))
      have hkeys : (waiting.filter (·.1 != child.index)).map (·.1) =
          (waiting.map (·.1)).erase child.index := by
        rw [hnd.erase_eq_filter, filter_map]
        rfl
      refine ⟨?_, ?_⟩
      · intro n hn
        rcases mem_append.1 hn with hn | hn
        · exact hlive n hn
        · rw [mem_singleton.1 hn]; exact hc
      · refine Perm.trans ?_ hperm
        simp only [map_append, map_cons, map_nil, singleton_append, append_assoc, hkeys]
        exact Perm.append_left _ (Perm.append_left _ (perm_cons_erase hmem).symm)
    · -- the count only drops: the waiting table keeps its keys
      refine ⟨hlive, ?_⟩
      dsimp only
      rw [map_keys_of_keys_eq _ _ ?_]
      · exact hperm
      · intro p
        obtain ⟨k, v⟩ := p
        dsimp only
        split <;> rfl
  · exact ⟨hlive, hperm⟩

/-- Using up the links into a list of live nodes keeps every node accounted for. -/
theorem foldl_release_released (hg : (g.live.map (·.index)).Nodup) {done : List Node} :
    ∀ (cs : List Node) {acc : List (Nat × Nat) × List Node}, (∀ c ∈ cs, c ∈ g.live) →
      Released g done acc →
      Released g done (cs.foldl (fun acc' c => release acc'.1 acc'.2 c) acc)
  | [], _, _, h => h
  | c :: cs, _, hcs, h =>
    foldl_release_released hg cs (fun c' hc' => hcs c' (mem_cons_of_mem _ hc'))
      (release_released hg (hcs c mem_cons_self) h)

/-- The successors of a node are live. -/
theorem mem_live_of_mem_succs {p c : Node} (h : c ∈ g.succs p) : c ∈ g.live :=
  (mem_filter.1 h).1

/-- Every live node is emitted, in the frontier, or waiting: together their indices are
those of the live nodes, each once. -/
structure Schedule.Accounts (g : Graph) (s : Schedule) : Prop where
  live : ∀ n ∈ s.emitted ++ s.frontier, n ∈ g.live
  perm : (s.emitted ++ s.frontier).map (·.index) ++ s.waiting.map (·.1) ~ g.live.map (·.index)

/-- One generation keeps every node accounted for: the frontier is emitted and the nodes
whose last link it used up form the next one. -/
theorem step_accounts (hg : (g.live.map (·.index)).Nodup) {s : Schedule}
    (h : Schedule.Accounts g s) : Schedule.Accounts g (Schedule.step g.succs s) := by
  have hstart : Released g (s.emitted ++ s.frontier) (s.waiting, []) :=
    ⟨by simp, by simpa using h.perm⟩
  -- the links out of each frontier node in turn
  have hfold : ∀ (ps : List Node) (acc : List (Nat × Nat) × List Node),
      Released g (s.emitted ++ s.frontier) acc →
      Released g (s.emitted ++ s.frontier) (ps.foldl (fun acc p =>
        (g.succs p).foldl (fun acc' c => release acc'.1 acc'.2 c) acc) acc) := by
    intro ps
    induction ps with
    | nil => intro acc h; exact h
    | cons p ps ih =>
      intro acc h
      exact ih _ (foldl_release_released hg _ (fun c hc => mem_live_of_mem_succs hc) h)
  have hdone := hfold s.frontier _ hstart
  simp only [Schedule.step]
  generalize s.frontier.foldl _ (s.waiting, []) = acc at hdone ⊢
  obtain ⟨waiting, next⟩ := acc
  obtain ⟨hlive, hperm⟩ := hdone
  refine ⟨?_, hperm⟩
  intro n hn
  rcases mem_append.1 hn with hn | hn
  · exact h.live n hn
  · exact hlive n hn

/-- At the start every live node is in the frontier or waiting, by its number of
predecessors. -/
theorem start_accounts : Schedule.Accounts g (Schedule.start g.live g.inDegree) := by
  refine ⟨?_, ?_⟩
  · intro n hn
    simp only [Schedule.start, nil_append, mem_map, mem_filter] at hn
    obtain ⟨⟨m, d⟩, ⟨⟨n', hn', he⟩, -⟩, rfl⟩ := hn
    simp only [Prod.mk.injEq] at he
    obtain ⟨rfl, -⟩ := he
    exact hn'
  · simp only [Schedule.start, nil_append, map_map]
    have hsplit := filter_append_perm (fun (p : Node × Nat) => p.2 == 0)
      (g.live.map fun n => (n, g.inDegree n))
    have hwait : (g.live.map fun n => (n, g.inDegree n)).filter (fun p => decide (p.2 > 0)) =
        (g.live.map fun n => (n, g.inDegree n)).filter (fun p => !(p.2 == 0)) := by
      apply filter_congr
      intro p _
      by_cases h0 : p.2 = 0 <;> simp [h0, Nat.pos_iff_ne_zero]
    rw [hwait]
    have := hsplit.map (fun p => p.1.index)
    simpa [map_append, map_map, Function.comp_def] using this

/-- Every run of the schedule keeps every node accounted for. -/
theorem run_accounts (hg : (g.live.map (·.index)).Nodup) :
    ∀ (fuel : Nat) {s : Schedule}, Schedule.Accounts g s →
      Schedule.Accounts g (Schedule.run g.succs fuel s)
  | 0, _, h => h
  | fuel + 1, s, h => by
    simp only [Schedule.run]
    split
    · exact h
    · exact run_accounts hg fuel (step_accounts hg h)

/-- The schedule lists every live node exactly once: when Kahn's algorithm empties its
frontier and its waiting table, the emitted nodes are the live nodes; otherwise the schedule
is the live nodes in list order. -/
theorem topoOrder_perm (hg : g.DistinctIndices) : g.topoOrder ~ g.live := by
  unfold topoOrder Schedule.sort
  simp only
  split
  · rename_i hdone
    rw [Option.getD_some]
    have h := run_accounts hg.live (g.live.length + 1) start_accounts
    generalize Schedule.run g.succs (g.live.length + 1) (Schedule.start g.live g.inDegree) = s at hdone h ⊢
    simp only [Bool.and_eq_true, List.isEmpty_iff] at hdone
    obtain ⟨⟨hlive, hperm⟩, hw, hf⟩ := And.intro h hdone
    rw [hw, hf] at hperm
    rw [hf] at hlive
    refine perm_of_map_perm (·.index) (fun n hn => hlive n (by simpa using hn)) hg.live ?_
    simpa using hperm
  · exact .refl _

/-! ### What the schedule reads -/

/-- Using up links only ever adds the children to the ready nodes. -/
theorem mem_foldl_release : ∀ (cs : List Node) (W : List (Nat × Nat)) (R : List Node) {x : Node},
    x ∈ (cs.foldl (fun acc c => release acc.1 acc.2 c) (W, R)).2 → x ∈ R ∨ x ∈ cs
  | [], _, _, _, hx => .inl hx
  | c :: cs, W, R, x, hx => by
    rw [foldl_cons] at hx
    have hrel : ∀ y, y ∈ (release W R c).2 → y ∈ R ∨ y = c := by
      intro y hy
      unfold release at hy
      split at hy
      · split at hy
        · simpa using hy
        · exact .inl hy
      · exact .inl hy
    rcases mem_foldl_release cs _ _ hx with hx | hx
    · rcases hrel x hx with hx | rfl
      · exact .inl hx
      · exact .inr mem_cons_self
    · exact .inr (mem_cons_of_mem _ hx)

/-- The next frontier is made of successors of the frontier. -/
theorem mem_step_frontier {succs : Node → List Node} {s : Schedule} {x : Node}
    (hx : x ∈ (Schedule.step succs s).frontier) : ∃ p ∈ s.frontier, x ∈ succs p := by
  simp only [Schedule.step, ← foldl_flatMap] at hx
  rcases mem_foldl_release _ _ _ hx with hx | hx
  · cases hx
  · exact mem_flatMap.1 hx

/-- One generation reads the successors of the frontier only. -/
theorem step_congr {succs succs' : Node → List Node} {s : Schedule}
    (h : ∀ p ∈ s.frontier, succs p = succs' p) : Schedule.step succs s = Schedule.step succs' s := by
  unfold Schedule.step
  rw [foldl_ext _ _ _ fun acc p hp => by rw [h p hp]]

/-- A run reads the successors of the nodes of `order` only, when its frontiers stay in
`order`. -/
theorem run_congr {order : List Node} {succs succs' : Node → List Node}
    (h : ∀ p ∈ order, succs p = succs' p) (hclosed : ∀ p ∈ order, ∀ c ∈ succs p, c ∈ order) :
    ∀ (fuel : Nat) (s : Schedule), (∀ p ∈ s.frontier, p ∈ order) →
      Schedule.run succs fuel s = Schedule.run succs' fuel s
  | 0, _, _ => rfl
  | fuel + 1, s, hs => by
    simp only [Schedule.run]
    split
    · rfl
    · rw [← step_congr fun p hp => h p (hs p hp)]
      refine run_congr h hclosed fuel _ fun x hx => ?_
      obtain ⟨p, hp, hx⟩ := mem_step_frontier hx
      exact hclosed p (hs p hp) x hx

/-- Kahn's order of `order` reads the successors and in-degrees of its nodes only. -/
theorem sort_congr {order : List Node} {succs succs' : Node → List Node}
    {inDegree inDegree' : Node → Nat} (h : ∀ p ∈ order, succs p = succs' p)
    (hd : ∀ p ∈ order, inDegree p = inDegree' p)
    (hclosed : ∀ p ∈ order, ∀ c ∈ succs p, c ∈ order) :
    Schedule.sort order succs inDegree = Schedule.sort order succs' inDegree' := by
  have hcount : order.map (fun n => (n, inDegree n)) = order.map (fun n => (n, inDegree' n)) :=
    map_congr_left fun n hn => by rw [hd n hn]
  have hstart : Schedule.start order inDegree = Schedule.start order inDegree' := by
    simp only [Schedule.start, hcount]
  have hfront : ∀ p ∈ (Schedule.start order inDegree).frontier, p ∈ order := by
    intro p hp
    simp only [Schedule.start, mem_map, mem_filter] at hp
    obtain ⟨⟨n, k⟩, ⟨⟨m, hm, hmn⟩, -⟩, rfl⟩ := hp
    simp only [Prod.mk.injEq] at hmn
    exact hmn.1 ▸ hm
  unfold Schedule.sort
  rw [run_congr h hclosed _ _ hfront, hstart]

/-- Every live node is in the schedule. -/
theorem mem_topoOrder (hg : g.DistinctIndices) {n : Node} (hn : n ∈ g.live) : n ∈ g.topoOrder :=
  (topoOrder_perm hg).mem_iff.2 hn

/-- The schedule lists each index at most once. -/
theorem topoOrder_nodup (hg : g.DistinctIndices) : (g.topoOrder.map (·.index)).Nodup :=
  ((topoOrder_perm hg).map _).nodup_iff.2 hg.live

end Graph

end OnnxFusion.Dataflow

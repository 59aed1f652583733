import OnnxFusion.Matcher
import OnnxFusion.Proofs.Pattern.Walk
import OnnxFusion.Proofs.Dataflow.Schedule
import OnnxFusion.Proofs.Order.Perm
/-!
# What matching a whole graph finds

`matchAll` visits the nodes in the order of the schedule and tries the patterns at each, by
priority. This module says what the list of matches it returns is.

Without overlap (`matchAll_greedy`), the matches cover pairwise disjoint sets of nodes. Each
was found at a node it contains, its anchor. The anchors come in the order of the schedule,
which lists every node once. A node that no match covers is one where every registered
pattern finds nothing, or finds a match sharing a node with a match anchored earlier. With
overlap, the matches are, node by node in the order of the schedule, the first match of the
patterns in priority order.

* `Pattern.run_anchor`: every recogniser returns matches that contain the node it ran at.
* `firstMatch_some`, `firstMatch_none`, `firstMatch_overlap`: what trying the patterns at one
  node gives.
* `GreedyRun`: what a run without overlap has found along a visiting order. One lemma per way
  a node is visited (`GreedyRun.skip`, `GreedyRun.miss`, `GreedyRun.hit`) keeps it, and
  `matchNodes_greedy` gives it for a whole run.
* `matchNodes_overlap`: a run with overlap keeps the first match at each node.
* `Registry.ordered_perm`: the patterns are tried in an order of all the registered ones.
-/

set_option autoImplicit false

namespace OnnxFusion

open Dataflow Proofs

/-- Whether a match shares no node with the claimed indices. -/
theorem Match.overlaps_eq_false {m : Match} {claimed : List Nat} :
    m.overlaps claimed = false ↔ m.indices.Disjoint claimed := by
  simp [Match.overlaps, List.Disjoint]

/-- `a` is listed before `b`. -/
def Precedes (order : List Node) (a b : Node) : Prop :=
  ∃ pre post, order = pre ++ b :: post ∧ a ∈ pre

/-- The patterns are tried in an order of all the registered ones. -/
theorem Registry.ordered_perm (r : Registry) : r.ordered.Perm r :=
  Order.sortDescendingBy_perm _ _

/-! ### Matches contain their anchor -/

namespace Pattern

variable {g : Graph} {n : Node} {m : Match}

theorem convBatchNorm_anchor (h : Pattern.convBatchNorm g n = .ok (some m)) : n ∈ m.nodes := by
  unfold Pattern.convBatchNorm at h
  split at h
  · exact absurd h pure_none_ne_some
  · split at h
    · rw [bind_eq_ok] at h
      obtain ⟨s, -, h⟩ := h
      split at h
      · split at h
        · exact absurd h pure_none_ne_some
        · rw [pure_some_eq] at h
          simp [← h]
      · exact absurd h pure_none_ne_some
    · exact absurd h pure_none_ne_some

theorem logDiv_anchor (h : Pattern.logDiv g n = .ok (some m)) : n ∈ m.nodes := by
  unfold Pattern.logDiv at h
  split at h
  · exact absurd h pure_none_ne_some
  · split at h
    · exact absurd h pure_none_ne_some
    · rw [bind_eq_ok] at h
      obtain ⟨ps, -, h⟩ := h
      rw [bind_eq_ok] at h
      obtain ⟨div, -, h⟩ := h
      split at h
      · exact absurd h pure_none_ne_some
      · split at h
        · exact absurd h pure_none_ne_some
        · rw [pure_some_eq] at h
          simp [← h]

/-- Every pattern returns matches that contain the node it ran at. -/
theorem run_anchor {p : Pattern} (h : p.run g n = .ok (some m)) : n ∈ m.nodes := by
  unfold Pattern.run at h
  split at h
  · exact convBatchNorm_anchor h
  · obtain ⟨w, hw⟩ := layerNorm_walk_from h
    rw [w.nodes_eq, hw]
    simp
  · obtain ⟨w⟩ := attention_walk h
    rw [w.nodes_eq]
    simp
  · exact logDiv_anchor h
  · split at h
    · cases h
      simp
    · cases h

end Pattern

/-! ### Trying the patterns at one node -/

section FirstMatch

variable {g : Graph} {n : Node} {claimed : List Nat}

open List

/-- A match found at a node comes from one of the patterns and, without overlap, covers no
claimed node. -/
theorem firstMatch_some {allowOverlap : Bool} : ∀ {ps : List Pattern} {m : Match},
    firstMatch g n claimed allowOverlap ps = .ok (some m) →
      ∃ p ∈ ps, p.run g n = .ok (some m) ∧
        (allowOverlap = false → m.indices.Disjoint claimed)
  | [], _, h => by simp [firstMatch] at h
  | p :: rest, m, h => by
    simp only [firstMatch] at h
    rw [bind_eq_ok] at h
    obtain ⟨o, ho, h⟩ := h
    split at h
    · split at h
      · -- the match overlaps: the next patterns are tried
        obtain ⟨q, hq, hrun, hfree⟩ := firstMatch_some h
        exact ⟨q, mem_cons_of_mem _ hq, hrun, hfree⟩
      · rename_i m' hov
        rw [pure_some_eq] at h
        subst h
        refine ⟨p, mem_cons_self, ho, fun hao => ?_⟩
        subst hao
        simpa [Match.overlaps_eq_false] using hov
    · obtain ⟨q, hq, hrun, hfree⟩ := firstMatch_some h
      exact ⟨q, mem_cons_of_mem _ hq, hrun, hfree⟩

/-- When no match is kept at a node, every pattern found nothing there, or, without overlap,
a match covering a claimed node. -/
theorem firstMatch_none {allowOverlap : Bool} : ∀ {ps : List Pattern},
    firstMatch g n claimed allowOverlap ps = .ok none →
      ∀ p ∈ ps, p.run g n = .ok none ∨ ∃ m, p.run g n = .ok (some m) ∧
        allowOverlap = false ∧ ¬ m.indices.Disjoint claimed
  | [], _, p, hp => absurd hp not_mem_nil
  | q :: rest, h, p, hp => by
    simp only [firstMatch] at h
    rw [bind_eq_ok] at h
    obtain ⟨o, ho, h⟩ := h
    split at h
    · split at h
      · rename_i m hov
        rcases mem_cons.1 hp with rfl | hp
        · simp only [Bool.and_eq_true, Bool.not_eq_true'] at hov
          exact .inr ⟨m, ho, hov.1, fun hd => by simp [Match.overlaps_eq_false.2 hd] at hov⟩
        · exact firstMatch_none h p hp
      · exact absurd h (by simp [pure, Except.pure])
    · rcases mem_cons.1 hp with rfl | hp
      · exact .inl ho
      · exact firstMatch_none h p hp

/-- With overlap, the match kept at a node is the first that a pattern finds there. -/
theorem firstMatch_overlap : ∀ {ps : List Pattern} {o : Option Match},
    firstMatch g n claimed true ps = .ok o →
      o = ps.findSome? fun p => (p.run g n).toOption.join
  | [], o, h => by simp only [firstMatch, Except.ok.injEq] at h; simp [h]
  | p :: rest, o, h => by
    simp only [firstMatch] at h
    rw [bind_eq_ok] at h
    obtain ⟨r, hr, h⟩ := h
    rw [findSome?_cons, hr]
    split at h
    · simp only [Bool.not_true, Bool.false_and, Bool.false_eq_true, if_false, pure,
        Except.pure, Except.ok.injEq] at h
      subst h
      rfl
    · simp only [Except.toOption]
      exact firstMatch_overlap h

end FirstMatch

/-! ### A run without overlap -/

section Greedy

variable {g : Graph} {ps : List Pattern} {claimed : List Nat} {R : List Match} {A : List Node}

open List

/-- Pattern `p` cannot add a match at `n`: it finds nothing there, or a match that covers a
claimed node or shares a node with a match kept at one of the anchors `before`. -/
def Blocked (g : Graph) (claimed : List Nat) (A : List Node) (R : List Match)
    (before : List Node) (p : Pattern) (n : Node) : Prop :=
  p.run g n = .ok none ∨ ∃ m, p.run g n = .ok (some m) ∧
    (¬ m.indices.Disjoint claimed ∨
      ∃ a m', (a, m') ∈ A.zip R ∧ a ∈ before ∧ ¬ m.indices.Disjoint m'.indices)

/-- More nodes visited before leave a pattern blocked. -/
theorem Blocked.cons {before : List Node} {p : Pattern} {n : Node} (x : Node)
    (h : Blocked g claimed A R before p n) : Blocked g claimed A R (x :: before) p n := by
  rcases h with h | ⟨m, hm, hov | ⟨a, m', hz, ha, hov⟩⟩
  · exact .inl h
  · exact .inr ⟨m, hm, .inl hov⟩
  · exact .inr ⟨m, hm, .inr ⟨a, m', hz, mem_cons_of_mem _ ha, hov⟩⟩

/-- Claiming the nodes of a match kept at `x` is the same as recording that match. -/
theorem Blocked.claim {before : List Node} {p : Pattern} {n x : Node} {m : Match}
    (h : Blocked g (claimed ++ m.indices) A R before p n) :
    Blocked g claimed (x :: A) (m :: R) (x :: before) p n := by
  rcases h with h | ⟨m₁, hm, hov | ⟨a, m', hz, ha, hov⟩⟩
  · exact .inl h
  · -- a node shared with the claimed ones is old, or one of the new match's
    by_cases hc : m₁.indices.Disjoint claimed
    · refine .inr ⟨m₁, hm, .inr ⟨x, m, by simp, mem_cons_self, fun hd => hov ?_⟩⟩
      exact disjoint_append_right.2 ⟨hc, hd⟩
    · exact .inr ⟨m₁, hm, .inl hc⟩
  · exact .inr ⟨m₁, hm, .inr ⟨a, m', by simp [hz], mem_cons_of_mem _ ha, hov⟩⟩

/-- What a run without overlap has found along the visiting order `order`, the indices
`claimed` being covered before it: the matches `R`, kept at the anchors `A`. -/
structure GreedyRun (g : Graph) (ps : List Pattern) (order : List Node) (claimed : List Nat)
    (R : List Match) (A : List Node) : Prop where
  /-- Each match was found by a pattern at its anchor, which it contains. -/
  anchored : Forall₂ (fun a m => a ∈ m.nodes ∧ ∃ p ∈ ps, p.run g a = .ok (some m)) A R
  /-- The anchors come in the visiting order. -/
  ordered : A <+ order
  /-- No match covers a claimed node. -/
  fresh : ∀ m ∈ R, m.indices.Disjoint claimed
  /-- No two matches share a node. -/
  disjoint : R.Pairwise fun m m' => m.indices.Disjoint m'.indices
  /-- Every pattern is blocked at a node left uncovered, by the matches of the anchors
  visited before it. -/
  maximal : ∀ pre n post, order = pre ++ n :: post → n.index ∉ claimed →
    (∀ m ∈ R, n.index ∉ m.indices) → ∀ p ∈ ps, Blocked g claimed A R pre p n

namespace GreedyRun

/-- Nothing visited, nothing found. -/
theorem nil : GreedyRun g ps [] claimed [] [] where
  anchored := .nil
  ordered := .slnil
  fresh := by simp
  disjoint := .nil
  maximal pre n post h := by simp at h

/-- Visiting the nodes after `n`: at `n` itself every pattern is blocked as given, and further
on a pattern blocked by the anchors before a node is blocked by more of them. -/
theorem maximal_cons {order : List Node} {n : Node} {claimed' : List Nat}
    {R' : List Match} {A' : List Node}
    (hn : n.index ∉ claimed → (∀ m ∈ R, n.index ∉ m.indices) → ∀ p ∈ ps,
      Blocked g claimed A R [] p n)
    (hclaimed : ∀ k, k ∉ claimed → (∀ m ∈ R, k ∉ m.indices) →
      k ∉ claimed' ∧ ∀ m ∈ R', k ∉ m.indices)
    (hlift : ∀ before p n', Blocked g claimed' A' R' before p n' →
      Blocked g claimed A R (n :: before) p n')
    (h : ∀ pre n' post, order = pre ++ n' :: post → n'.index ∉ claimed' →
      (∀ m ∈ R', n'.index ∉ m.indices) → ∀ p ∈ ps, Blocked g claimed' A' R' pre p n') :
    ∀ pre n' post, n :: order = pre ++ n' :: post → n'.index ∉ claimed →
      (∀ m ∈ R, n'.index ∉ m.indices) → ∀ p ∈ ps, Blocked g claimed A R pre p n' := by
  intro pre n' post hsplit hc hcov p hp
  cases pre with
  | nil =>
    obtain ⟨rfl, -⟩ := cons_eq_cons.1 hsplit
    exact hn hc hcov p hp
  | cons x pre =>
    obtain ⟨rfl, hrest⟩ := cons_eq_cons.1 hsplit
    have ⟨hc', hcov'⟩ := hclaimed _ hc hcov
    exact hlift pre p n' (h pre n' post hrest hc' hcov' p hp)

/-- A claimed node is passed over. -/
theorem skip {order : List Node} {n : Node} (hn : n.index ∈ claimed)
    (h : GreedyRun g ps order claimed R A) : GreedyRun g ps (n :: order) claimed R A where
  anchored := h.anchored
  ordered := h.ordered.cons n
  fresh := h.fresh
  disjoint := h.disjoint
  maximal := maximal_cons (fun hc => absurd hn hc) (fun _ hc hcov => ⟨hc, hcov⟩)
    (fun _ _ _ hb => hb.cons n) h.maximal

/-- A node where no pattern gives a match free of the claimed nodes is passed over. -/
theorem miss {order : List Node} {n : Node}
    (hn : ∀ p ∈ ps, p.run g n = .ok none ∨
      ∃ m, p.run g n = .ok (some m) ∧ ¬ m.indices.Disjoint claimed)
    (h : GreedyRun g ps order claimed R A) : GreedyRun g ps (n :: order) claimed R A where
  anchored := h.anchored
  ordered := h.ordered.cons n
  fresh := h.fresh
  disjoint := h.disjoint
  maximal := by
    refine maximal_cons (fun _ _ p hp => ?_) (fun _ hc hcov => ⟨hc, hcov⟩)
      (fun _ _ _ hb => hb.cons n) h.maximal
    rcases hn p hp with h0 | ⟨m, hm, hov⟩
    · exact .inl h0
    · exact .inr ⟨m, hm, .inl hov⟩

/-- A match kept at `n` is recorded and its nodes claimed for the rest of the run. -/
theorem hit {order : List Node} {n : Node} {m : Match} {R' : List Match} {A' : List Node}
    (hm : n ∈ m.nodes ∧ ∃ p ∈ ps, p.run g n = .ok (some m))
    (hfree : m.indices.Disjoint claimed)
    (h : GreedyRun g ps order (claimed ++ m.indices) R' A') :
    GreedyRun g ps (n :: order) claimed (m :: R') (n :: A') where
  anchored := .cons hm h.anchored
  ordered := h.ordered.cons_cons n
  fresh := by
    intro m' hm'
    rcases mem_cons.1 hm' with rfl | hm'
    · exact hfree
    · exact (disjoint_append_right.1 (h.fresh m' hm')).1
  disjoint := by
    refine pairwise_cons.2 ⟨fun m' hm' => ?_, h.disjoint⟩
    exact disjoint_symm (disjoint_append_right.1 (h.fresh m' hm')).2
  maximal := by
    -- the node itself is covered by the match kept there
    have hself : n.index ∈ m.indices := by
      simpa [Match.indices] using mem_map_of_mem (f := (·.index)) hm.1
    refine maximal_cons (fun _ hcov => absurd hself (hcov m mem_cons_self)) ?_
      (fun _ _ _ hb => hb.claim) h.maximal
    intro k hc hcov
    refine ⟨?_, fun m' hm' => hcov m' (mem_cons_of_mem _ hm')⟩
    simpa [hc] using hcov m mem_cons_self

end GreedyRun

/-- A run without overlap returns, after the matches it started with, the matches of a greedy
run along the visiting order. -/
theorem matchNodes_greedy : ∀ {order : List Node} {claimed : List Nat} {acc R : List Match},
    matchNodes g ps false order claimed acc = .ok R →
      ∃ R' A, R = acc.reverse ++ R' ∧ GreedyRun g ps order claimed R' A
  | [], _, acc, R, h => by
    simp only [matchNodes, Except.ok.injEq] at h
    exact ⟨[], [], by simp [h], .nil⟩
  | n :: rest, claimed, acc, R, h => by
    simp only [matchNodes] at h
    by_cases hc : n.index ∈ claimed
    · rw [if_pos (by simpa using hc)] at h
      obtain ⟨R', A, hR, hr⟩ := matchNodes_greedy h
      exact ⟨R', A, hR, hr.skip hc⟩
    · rw [if_neg (by simpa using hc), bind_eq_ok] at h
      obtain ⟨o, ho, h⟩ := h
      cases o with
      | some m =>
        simp only [Bool.false_eq_true, if_false] at h
        obtain ⟨R', A, hR, hr⟩ := matchNodes_greedy h
        obtain ⟨p, hp, hrun, hfree⟩ := firstMatch_some ho
        refine ⟨m :: R', n :: A, by simp [hR], hr.hit ?_ (hfree rfl)⟩
        exact ⟨Pattern.run_anchor hrun, p, hp, hrun⟩
      | none =>
        simp only at h
        obtain ⟨R', A, hR, hr⟩ := matchNodes_greedy h
        refine ⟨R', A, hR, hr.miss fun p hp => ?_⟩
        rcases firstMatch_none ho p hp with h0 | ⟨m, hm, -, hov⟩
        · exact .inl h0
        · exact .inr ⟨m, hm, hov⟩

/-- A run with overlap keeps, node by node, the first match the patterns find. -/
theorem matchNodes_overlap : ∀ {order : List Node} {claimed : List Nat} {acc R : List Match},
    matchNodes g ps true order claimed acc = .ok R →
      R = acc.reverse ++ order.filterMap fun n =>
        ps.findSome? fun p => (p.run g n).toOption.join
  | [], _, acc, R, h => by
    simp only [matchNodes, Except.ok.injEq] at h
    simp [h]
  | n :: rest, claimed, acc, R, h => by
    simp only [matchNodes, Bool.not_true, Bool.false_and, Bool.false_eq_true, if_false] at h
    rw [bind_eq_ok] at h
    obtain ⟨o, ho, h⟩ := h
    rw [filterMap_cons, ← firstMatch_overlap ho]
    cases o with
    | some m =>
      simp only at h
      simp [matchNodes_overlap h]
    | none =>
      simp only at h
      simp [matchNodes_overlap h]

end Greedy

/-! ### Matching a whole graph -/

section MatchAll

open List Graph

/-- Matching a whole graph whose nodes have distinct indices, as every view built from a
model has (`Graph.ofDef_distinctIndices`). The schedule lists every live node once. Without
overlap, the matches cover pairwise disjoint nodes; each was found by a registered pattern at
an anchor it contains; the anchors come in the order of the schedule; and at a live node that
no match covers, each registered pattern finds nothing, or a match sharing a node with one
anchored before it. With overlap, the matches are, node by node along the schedule, the first
match of the patterns in the order they are tried. -/
theorem matchAll_greedy (g : Graph) (r : Registry) (hg : g.DistinctIndices) :
    g.topoOrder ~ g.live ∧
    (∀ R, matchAll g r false = .ok R → ∃ A : List Node,
      R.Pairwise (fun m m' => m.indices.Disjoint m'.indices) ∧
      Forall₂ (fun a m => a ∈ m.nodes ∧ ∃ p ∈ r, p.run g a = .ok (some m)) A R ∧
      A <+ g.topoOrder ∧
      ∀ n ∈ g.live, (∀ m ∈ R, n.index ∉ m.indices) → ∀ p ∈ r,
        p.run g n = .ok none ∨ ∃ m, p.run g n = .ok (some m) ∧ ∃ a m', (a, m') ∈ A.zip R ∧
          Precedes g.topoOrder a n ∧ ¬ m.indices.Disjoint m'.indices) ∧
    (∀ R, matchAll g r true = .ok R →
      R = g.topoOrder.filterMap fun n => r.ordered.findSome? fun p => (p.run g n).toOption.join) := by
  have hmem : ∀ {p}, p ∈ r.ordered ↔ p ∈ r := (Registry.ordered_perm r).mem_iff
  refine ⟨topoOrder_perm hg, fun R h => ?_, fun R h => by simpa using matchNodes_overlap h⟩
  obtain ⟨R', A, rfl, hr⟩ := matchNodes_greedy h
  refine ⟨A, hr.disjoint, hr.anchored.imp fun _ _ ⟨ha, p, hp, hrun⟩ => ⟨ha, p, hmem.1 hp, hrun⟩,
    hr.ordered, ?_⟩
  intro n hn hcov p hp
  -- the node is visited, with the nodes before it in the schedule
  obtain ⟨pre, post, hsplit⟩ := mem_iff_append.1 (mem_topoOrder hg hn)
  rcases hr.maximal pre n post hsplit not_mem_nil hcov p (hmem.2 hp) with
    h0 | ⟨m, hm, hov | ⟨a, m', hz, ha, hov⟩⟩
  · exact .inl h0
  · exact absurd (disjoint_nil_right _) hov
  · exact .inr ⟨m, hm, a, m', hz, ⟨pre, post, hsplit, ha⟩, hov⟩

/-- A `Div` whose quotient a `Log` reads. -/
def divLogGraph : Graph :=
  { nodes := [{ index := 0, name := "d", opType := "Div", inputs := ["a", "b"], outputs := ["c"],
                attrs := [] },
      { index := 1, name := "l", opType := "Log", inputs := ["c"], outputs := ["y"], attrs := [] }],
    removed := [], initializers := [], shapes := [] }

theorem matchAll_greedy_divLog : divLogGraph.DistinctIndices ∧
    divLogGraph.topoOrder ~ divLogGraph.live ∧
    (∀ R, matchAll divLogGraph Registry.initial false = .ok R → ∃ A : List Node,
      R.Pairwise (fun m m' => m.indices.Disjoint m'.indices) ∧
      Forall₂ (fun a m => a ∈ m.nodes ∧ ∃ p ∈ Registry.initial,
        p.run divLogGraph a = .ok (some m)) A R ∧
      A <+ divLogGraph.topoOrder ∧
      ∀ n ∈ divLogGraph.live, (∀ m ∈ R, n.index ∉ m.indices) → ∀ p ∈ Registry.initial,
        p.run divLogGraph n = .ok none ∨ ∃ m, p.run divLogGraph n = .ok (some m) ∧
          ∃ a m', (a, m') ∈ A.zip R ∧ Precedes divLogGraph.topoOrder a n ∧
            ¬ m.indices.Disjoint m'.indices) ∧
    (∀ R, matchAll divLogGraph Registry.initial true = .ok R →
      R = divLogGraph.topoOrder.filterMap fun n =>
        Registry.initial.ordered.findSome? fun p => (p.run divLogGraph n).toOption.join) :=
  ⟨by decide, matchAll_greedy divLogGraph Registry.initial (by decide)⟩

end MatchAll

end OnnxFusion

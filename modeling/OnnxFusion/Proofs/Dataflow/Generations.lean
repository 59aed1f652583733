import Mathlib
import OnnxFusion.Proofs.Dataflow.Adjacency
import OnnxFusion.Proofs.Matcher.Total
/-!
# The schedule lists the nodes generation by generation

`topoOrder` runs Kahn's algorithm one generation at a time. The frontier starts as the live
nodes without predecessors, in node-list order. Each step emits the frontier and, for every
link out of it, counts down the waiting entry of the node linked to; a node whose count runs
out joins the next frontier. The run is given one generation more than there are live nodes.
If it ends with nothing waiting, the order is what it emitted; otherwise the order is the
live nodes as listed.

The generation of a node is the length of the longest chain of links ending at it
(`IsGeneration`), and `isGeneration_zero_iff` and `isGeneration_succ_iff` characterise
generation `0` and generation `k + 1`. `AtGeneration` is the invariant of the run. At
generation `k` the emitted nodes are those of the generations below `k`, and the frontier is
generation `k`. Each waiting node counts its predecessors not yet emitted. `AtGeneration.step`
proves that one step keeps it. The countdown over the links out of the frontier is
`Countdown`, built up one link at a time by `countdown_foldl`. `AtGeneration.run` carries the
invariant through a whole run.

On an acyclic view every live node has a generation (`Acyclic.exists_isGeneration`, by
well-founded induction along the links). The frontiers never repeat a node, so the run stops
at an empty frontier before its fuel runs out, and nothing is left waiting. A node on a cycle,
a node reading its own output included, has chains of every length and so no generation
(`not_isGeneration_of_cycle`): it never leaves the waiting table, and the order falls back to
the node list. `built_view_scheduled_by_generations` collects this for every view built from
a model (`ScheduledByGenerations`).
-/

set_option autoImplicit false

namespace OnnxFusion.Dataflow

open List

namespace Graph

variable {g : Graph}

/-! ### Links, paths and generations -/

/-- A link of the dependency graph: `c` reads a tensor that `p` writes, both live. -/
def Link (g : Graph) (p c : Node) : Prop := p ∈ g.live ∧ c ∈ g.live ∧ p.feeds c = true

/-- No node reaches itself along links; a node that reads its own output is a cycle. -/
def Acyclic (g : Graph) : Prop := ∀ n, ¬ Relation.TransGen g.Link n n

/-- A path of `k` links ends at `n`. -/
inductive PathTo (g : Graph) : Node → Nat → Prop
  | start {n : Node} : n ∈ g.live → PathTo g n 0
  | link {p c : Node} {k : Nat} : PathTo g p k → g.Link p c → PathTo g c (k + 1)

/-- The generation of `n` is `k`: the longest path ending at `n` has `k` links. -/
def IsGeneration (g : Graph) (n : Node) (k : Nat) : Prop :=
  g.PathTo n k ∧ ∀ j, g.PathTo n j → j ≤ k

theorem PathTo.live {n : Node} {k : Nat} : g.PathTo n k → n ∈ g.live
  | .start h => h
  | .link _ h => h.2.1

theorem IsGeneration.live {n : Node} {k : Nat} (h : g.IsGeneration n k) : n ∈ g.live :=
  h.1.live

/-- A node has at most one generation. -/
theorem IsGeneration.unique {n : Node} {a b : Nat} (ha : g.IsGeneration n a)
    (hb : g.IsGeneration n b) : a = b :=
  Nat.le_antisymm (hb.2 a ha.1) (ha.2 b hb.1)

/-- A live node whose paths are bounded has a generation: the longest path. -/
theorem exists_isGeneration_of_bounded {n : Node} {B : Nat} (hn : n ∈ g.live)
    (hB : ∀ j, g.PathTo n j → j ≤ B) : ∃ k, g.IsGeneration n k := by
  classical
  refine ⟨Nat.findGreatest (g.PathTo n) B, Nat.findGreatest_spec (Nat.zero_le B) (.start hn),
    fun j hj => Nat.le_findGreatest (hB j hj) hj⟩

/-- Generation `0` is the live nodes no link enters. -/
theorem isGeneration_zero_iff {n : Node} :
    g.IsGeneration n 0 ↔ n ∈ g.live ∧ ∀ p, ¬ g.Link p n := by
  constructor
  · rintro ⟨hpath, hmax⟩
    exact ⟨hpath.live, fun p hp => by
      have := hmax 1 (.link (.start hp.1) hp)
      omega⟩
  · rintro ⟨hn, hno⟩
    refine ⟨.start hn, fun j hj => ?_⟩
    cases hj with
    | start _ => exact le_rfl
    | link _ hp => exact absurd hp (hno _)

/-- Along a link the paths grow: each path to `p` gives one to `c` a link longer. -/
theorem PathTo.bound_of_link {p c : Node} {k : Nat} (hl : g.Link p c)
    (hc : ∀ j, g.PathTo c j → j ≤ k + 1) : ∀ j, g.PathTo p j → j ≤ k :=
  fun j hj => Nat.le_of_succ_le_succ (hc (j + 1) (.link hj hl))

/-- Generation `k + 1` is the live nodes of no generation up to `k` whose linked predecessors
all have a generation up to `k`. -/
theorem isGeneration_succ_iff {n : Node} {k : Nat} :
    g.IsGeneration n (k + 1) ↔
      n ∈ g.live ∧ (¬ ∃ j ≤ k, g.IsGeneration n j) ∧
        ∀ p, g.Link p n → ∃ j ≤ k, g.IsGeneration p j := by
  constructor
  · rintro ⟨hpath, hmax⟩
    refine ⟨hpath.live, fun ⟨j, hj, hgen⟩ => ?_, fun p hp => ?_⟩
    · have := hgen.2 (k + 1) hpath
      omega
    · -- every path to a predecessor extends to `n`, so it is at most `k` long
      have hbound := PathTo.bound_of_link hp hmax
      obtain ⟨j, hgen⟩ := exists_isGeneration_of_bounded hp.1 hbound
      exact ⟨j, hbound j hgen.1, hgen⟩
  · rintro ⟨hn, hnot, hpreds⟩
    -- a path to `n` is empty or extends a path to a predecessor
    have hbound : ∀ j, g.PathTo n j → j ≤ k + 1 := by
      intro j hj
      cases hj with
      | start _ => omega
      | link hp hl =>
        obtain ⟨i, hi, hgen⟩ := hpreds _ hl
        have := hgen.2 _ hp
        omega
    obtain ⟨m, hgen⟩ := exists_isGeneration_of_bounded hn hbound
    have hm : m = k + 1 := by
      have := hbound m hgen.1
      by_contra hne
      exact hnot ⟨m, by omega, hgen⟩
    exact hm ▸ hgen

/-- A link goes to a later generation. -/
theorem IsGeneration.lt_of_link {p c : Node} {a b : Nat} (hl : g.Link p c)
    (hp : g.IsGeneration p a) (hc : g.IsGeneration c b) : a < b :=
  Nat.lt_of_succ_le (hc.2 (a + 1) (.link hp.1 hl))

/-- A node of generation `k + 1` has a predecessor of generation `k`: the last link of a
longest path. -/
theorem IsGeneration.exists_pred {n : Node} {k : Nat} (h : g.IsGeneration n (k + 1)) :
    ∃ p, g.Link p n ∧ g.IsGeneration p k := by
  obtain ⟨hpath, hmax⟩ := h
  cases hpath with
  | link hp hl => exact ⟨_, hl, hp, PathTo.bound_of_link hl hmax⟩

/-- Every generation below that of a node is the generation of some node. -/
theorem IsGeneration.exists_below {n : Node} {k : Nat} (h : g.IsGeneration n k) :
    ∀ j ≤ k, ∃ m, g.IsGeneration m j := by
  induction k generalizing n with
  | zero =>
    intro j hj
    obtain rfl : j = 0 := by omega
    exact ⟨n, h⟩
  | succ k ih =>
    intro j hj
    rcases Nat.lt_or_ge j (k + 1) with hj' | hj'
    · obtain ⟨p, -, hp⟩ := h.exists_pred
      exact ih hp j (by omega)
    · exact ⟨n, by rwa [show j = k + 1 by omega]⟩

/-- A path to `a` continues along links to `b` into a longer path. -/
theorem PathTo.transGen {a b : Node} (hab : Relation.TransGen g.Link a b) {j : Nat}
    (ha : g.PathTo a j) : ∃ j' > j, g.PathTo b j' := by
  induction hab with
  | single hl => exact ⟨j + 1, by omega, .link ha hl⟩
  | tail _ hl ih =>
    obtain ⟨j', hj', hpath⟩ := ih
    exact ⟨j' + 1, by omega, .link hpath hl⟩

/-- A node on a cycle has paths of every length, so no generation. -/
theorem not_isGeneration_of_cycle {n : Node} (hc : Relation.TransGen g.Link n n) (k : Nat) :
    ¬ g.IsGeneration n k := fun h => by
  obtain ⟨j', hj', hpath⟩ := PathTo.transGen hc h.1
  have := h.2 j' hpath
  omega

/-- A bound on the paths to the linked predecessors of `n` among the nodes of a list, when each
has a generation. -/
theorem exists_bound_of_generations (n : Node) : ∀ l : List Node,
    (∀ p ∈ l, g.Link p n → ∃ j, g.IsGeneration p j) →
      ∃ B, ∀ p ∈ l, g.Link p n → ∀ j, g.PathTo p j → j ≤ B
  | [], _ => ⟨0, fun _ h => absurd h (not_mem_nil)⟩
  | q :: l, h => by
    obtain ⟨B, hB⟩ := exists_bound_of_generations n l fun p hp => h p (mem_cons_of_mem _ hp)
    by_cases hq : g.Link q n
    · obtain ⟨jq, hjq⟩ := h q mem_cons_self hq
      refine ⟨max B jq, fun p hp hl j hj => ?_⟩
      rcases mem_cons.1 hp with rfl | hp
      · exact le_max_of_le_right (hjq.2 j hj)
      · exact le_max_of_le_left (hB p hp hl j hj)
    · refine ⟨B, fun p hp hl j hj => ?_⟩
      rcases mem_cons.1 hp with rfl | hp
      · exact absurd hl hq
      · exact hB p hp hl j hj

/-- In an acyclic view every live node has a generation: by well-founded induction along the
links, which are finitely many and never return. -/
theorem Acyclic.exists_isGeneration (hg : g.Acyclic) {n : Node} (hn : n ∈ g.live) :
    ∃ k, g.IsGeneration n k := by
  have : IsStrictOrder Node (Relation.TransGen g.Link) :=
    { irrefl := hg, trans := fun _ _ _ => Relation.TransGen.trans }
  have hwf : {x | x ∈ g.live}.WellFoundedOn (Relation.TransGen g.Link) :=
    (List.finite_toSet g.live).wellFoundedOn
  refine @Set.WellFoundedOn.induction _ _ _ _ hwf hn (fun m => ∃ k, g.IsGeneration m k)
    fun m hm ih => ?_
  -- the predecessors have generations, so the paths to `m` are bounded
  obtain ⟨B, hB⟩ := exists_bound_of_generations m g.live fun p hp hl =>
    ih p hp (.single hl)
  refine exists_isGeneration_of_bounded hm fun j (hj : g.PathTo m j) => (?_ : j ≤ B + 1)
  cases hj with
  | start _ => omega
  | link hp hl =>
    have := hB _ hp.live hl _ hp
    omega

/-! ### Counting down the links into each node -/

/-- How many of the children `cs` have index `i`: the links into that node used up so far. -/
def uses (cs : List Node) (i : Nat) : Nat := (cs.map (·.index)).count i

theorem uses_append_single (cs : List Node) (c : Node) (i : Nat) :
    uses (cs ++ [c]) i = uses cs i + if c.index = i then 1 else 0 := by
  simp only [uses, map_append, map_cons, map_nil, count_append, count_singleton, beq_iff_eq]

/-- What using up the links into the children `cs` does to a waiting table `w₀` and a ready
list `r₀`: a node's count has dropped by its uses, and a node whose count ran out has moved to
the ready list. -/
structure Countdown (w₀ : List (Nat × Nat)) (r₀ cs : List Node)
    (acc : List (Nat × Nat) × List Node) : Prop where
  keys_nodup : (acc.1.map (·.1)).Nodup
  waiting : ∀ i d, (i, d) ∈ acc.1 ↔
    ∃ d₀, (i, d₀) ∈ w₀ ∧ uses cs i < d₀ ∧ d = d₀ - uses cs i
  ready : ∀ n, n ∈ acc.2 ↔
    n ∈ r₀ ∨ (n ∈ cs ∧ ∃ d₀, (n.index, d₀) ∈ w₀ ∧ d₀ ≤ uses cs n.index)

section Countdown

variable {w₀ : List (Nat × Nat)} {r₀ : List Node}

/-- A table has one count per key. -/
theorem eq_of_mem_of_keys_nodup {w : List (Nat × Nat)} (hw : (w.map (·.1)).Nodup) {i d d' : Nat}
    (h : (i, d) ∈ w) (h' : (i, d') ∈ w) : d = d' := by
  have := inj_on_of_nodup_map hw h h' rfl
  simp only [Prod.mk.injEq] at this
  exact this.2

/-- Nothing used up yet. -/
theorem countdown_nil (hw₀ : (w₀.map (·.1)).Nodup) (hpos : ∀ e ∈ w₀, 0 < e.2) :
    Countdown w₀ r₀ [] (w₀, r₀) := by
  refine ⟨hw₀, fun i d => ?_, fun n => ?_⟩
  · simp only [uses, map_nil, count_nil, Nat.sub_zero]
    constructor
    · intro h
      exact ⟨d, h, hpos _ h, rfl⟩
    · rintro ⟨d₀, h, -, rfl⟩
      exact h
  · simp

variable {cs : List Node} {c : Node} {W : List (Nat × Nat)} {R : List Node}

/-- Uses only grow. -/
theorem uses_le_append (i : Nat) : uses cs i ≤ uses (cs ++ [c]) i := by
  rw [uses_append_single]
  omega

/-- Away from `c`'s index, one more use of `c` changes nothing. -/
theorem uses_append_of_ne {i : Nat} (hi : i ≠ c.index) : uses (cs ++ [c]) i = uses cs i := by
  rw [uses_append_single, if_neg (Ne.symm hi), Nat.add_zero]

theorem uses_append_self : uses (cs ++ [c]) c.index = uses cs c.index + 1 := by
  rw [uses_append_single, if_pos rfl]

/-- A child whose count ran out stays so after one more use. -/
theorem ran_out_append {n : Node}
    (h : n ∈ cs ∧ ∃ d₀, (n.index, d₀) ∈ w₀ ∧ d₀ ≤ uses cs n.index) :
    n ∈ cs ++ [c] ∧ ∃ d₀, (n.index, d₀) ∈ w₀ ∧ d₀ ≤ uses (cs ++ [c]) n.index := by
  obtain ⟨hn, d₀, hd₀, hle⟩ := h
  exact ⟨mem_append_left _ hn, d₀, hd₀, hle.trans (uses_le_append _)⟩

/-- Away from the index of `c`, a count has run out after one more use of `c` only if it had
before. -/
theorem ran_out_of_append {n : Node} (hi : n.index ≠ c.index)
    (h : n ∈ cs ++ [c] ∧ ∃ d₀, (n.index, d₀) ∈ w₀ ∧ d₀ ≤ uses (cs ++ [c]) n.index) :
    n ∈ cs ∧ ∃ d₀, (n.index, d₀) ∈ w₀ ∧ d₀ ≤ uses cs n.index := by
  obtain ⟨hn, d₀, hd₀, hle⟩ := h
  have hn' : n ∈ cs := (mem_append.1 hn).resolve_right fun hc =>
    hi (congrArg (·.index) (mem_singleton.1 hc))
  rw [uses_append_of_ne hi] at hle
  exact ⟨hn', d₀, hd₀, hle⟩

/-- The last link into `c` is used: its entry leaves the table and `c` is ready. -/
theorem Countdown.release_last (hw₀ : (w₀.map (·.1)).Nodup)
    (hinj : ∀ a ∈ cs ++ [c], ∀ b ∈ cs ++ [c], a.index = b.index → a = b)
    (h : Countdown w₀ r₀ cs (W, R)) {d₀ : Nat} (hd₀ : (c.index, d₀) ∈ w₀)
    (hrun : uses cs c.index + 1 = d₀) :
    Countdown w₀ r₀ (cs ++ [c]) (W.filter (·.1 != c.index), R ++ [c]) := by
  refine ⟨h.keys_nodup.sublist (filter_sublist.map _), fun i d => ?_, fun n => ?_⟩
  · simp only [mem_filter, bne_iff_ne, ne_eq]
    by_cases hi : i = c.index
    · subst hi
      simp only [not_true_eq_false, and_false, false_iff, not_exists, not_and]
      intro d₀' hd₀' hlt
      rw [eq_of_mem_of_keys_nodup hw₀ hd₀' hd₀, uses_append_self] at hlt
      omega
    · rw [uses_append_of_ne hi, h.waiting]
      simp [hi]
  · rw [mem_append, mem_singleton, h.ready]
    constructor
    · rintro ((h₀ | hran) | rfl)
      · exact .inl h₀
      · exact .inr (ran_out_append hran)
      · exact .inr ⟨mem_append_right _ (mem_singleton_self _), d₀, hd₀, by
          rw [uses_append_self]; omega⟩
    · rintro (h₀ | hran)
      · exact .inl (.inl h₀)
      · by_cases hi : n.index = c.index
        · exact .inr (hinj n hran.1 c (mem_append_right _ (mem_singleton_self _)) hi)
        · exact .inl (.inr (ran_out_of_append hi hran))

/-- A link into `c` is used and others remain: `c`'s count drops by one. -/
theorem Countdown.release_drop (hw₀ : (w₀.map (·.1)).Nodup)
    (h : Countdown w₀ r₀ cs (W, R)) {d₀ : Nat} (hd₀ : (c.index, d₀) ∈ w₀)
    (hmore : uses cs c.index + 1 < d₀) :
    Countdown w₀ r₀ (cs ++ [c])
      (W.map (fun (k, v) => if k == c.index then (k, v - 1) else (k, v)), R) := by
  have hW : (c.index, d₀ - uses cs c.index) ∈ W :=
    (h.waiting _ _).2 ⟨d₀, hd₀, by omega, rfl⟩
  refine ⟨?_, fun i d => ?_, fun n => ?_⟩
  · rw [map_keys_of_keys_eq _ _ fun ⟨k, v⟩ => by dsimp only; split <;> rfl]
    exact h.keys_nodup
  · rw [mem_map]
    by_cases hi : i = c.index
    · subst hi
      rw [uses_append_self]
      constructor
      · rintro ⟨⟨k, v⟩, hkv, he⟩
        by_cases hk : k = c.index
        · subst hk
          simp only [beq_self_eq_true, if_true, Prod.mk.injEq, true_and] at he
          rw [eq_of_mem_of_keys_nodup h.keys_nodup hkv hW] at he
          exact ⟨d₀, hd₀, hmore, by omega⟩
        · simp only [beq_iff_eq, hk, if_false, Prod.mk.injEq] at he
          exact he.1.elim
      · rintro ⟨d₀', hd₀', -, rfl⟩
        rw [eq_of_mem_of_keys_nodup hw₀ hd₀' hd₀]
        exact ⟨_, hW, by simp only [beq_self_eq_true, if_true, Prod.mk.injEq, true_and]; omega⟩
    · rw [uses_append_of_ne hi, ← h.waiting]
      constructor
      · rintro ⟨⟨k, v⟩, hkv, he⟩
        by_cases hk : k = c.index
        · simp only [hk, beq_self_eq_true, if_true, Prod.mk.injEq] at he
          exact absurd he.1.symm hi
        · simp only [beq_iff_eq, hk, if_false, Prod.mk.injEq] at he
          obtain ⟨rfl, rfl⟩ := he
          exact hkv
      · intro hid
        exact ⟨(i, d), hid, by simp [hi]⟩
  · -- `c` keeps waiting, so the ready list gains nothing
    rw [h.ready]
    refine or_congr_right ⟨ran_out_append, fun hran => ?_⟩
    by_cases hi : n.index = c.index
    · obtain ⟨-, d₀', hd₀', hle⟩ := hran
      have hd₀'' : (c.index, d₀') ∈ w₀ := hi ▸ hd₀'
      rw [hi, eq_of_mem_of_keys_nodup hw₀ hd₀'' hd₀, uses_append_self] at hle
      omega
    · exact ran_out_of_append hi hran

/-- A link into a node without an entry: it ran out before, or never waited. -/
theorem Countdown.release_absent (hpos : ∀ e ∈ w₀, 0 < e.2)
    (hinj : ∀ a ∈ cs ++ [c], ∀ b ∈ cs ++ [c], a.index = b.index → a = b)
    (h : Countdown w₀ r₀ cs (W, R)) (habsent : ∀ e ∈ W, e.1 ≠ c.index) :
    Countdown w₀ r₀ (cs ++ [c]) (W, R) := by
  -- an entry of `c` in the start table has run out already
  have hout : ∀ d₀, (c.index, d₀) ∈ w₀ → d₀ ≤ uses cs c.index := by
    intro d₀ hd₀
    by_contra hlt
    exact habsent _ ((h.waiting _ _).2 ⟨d₀, hd₀, by omega, rfl⟩) rfl
  refine ⟨h.keys_nodup, fun i d => ?_, fun n => ?_⟩
  · by_cases hi : i = c.index
    · subst hi
      refine ⟨fun hid => absurd rfl (habsent _ hid), ?_⟩
      rintro ⟨d₀, hd₀, hlt, -⟩
      have := hout d₀ hd₀
      rw [uses_append_self] at hlt
      omega
    · rw [uses_append_of_ne hi, h.waiting]
  · rw [h.ready]
    refine or_congr_right ⟨ran_out_append, fun hran => ?_⟩
    by_cases hi : n.index = c.index
    · -- `c` ran out before, at one of the children already used, which is `n`
      obtain ⟨hn, d₀', hd₀', -⟩ := hran
      have hle' := hout d₀' (hi ▸ hd₀')
      have hused : 0 < uses cs c.index := Nat.lt_of_lt_of_le (hpos _ hd₀') (hi ▸ hle')
      obtain ⟨m, hm, hmi⟩ := mem_map.1 (count_pos_iff.1 hused)
      have hmn : m = n := hinj m (mem_append_left _ hm) n hn (hmi.trans hi.symm)
      exact ⟨hmn ▸ hm, d₀', hd₀', hi ▸ hle'⟩
    · exact ran_out_of_append hi hran

/-- Using up one more link, into `c`. -/
theorem Countdown.release_one (hw₀ : (w₀.map (·.1)).Nodup) (hpos : ∀ e ∈ w₀, 0 < e.2)
    {acc : List (Nat × Nat) × List Node}
    (hinj : ∀ a ∈ cs ++ [c], ∀ b ∈ cs ++ [c], a.index = b.index → a = b)
    (h : Countdown w₀ r₀ cs acc) : Countdown w₀ r₀ (cs ++ [c]) (release acc.1 acc.2 c) := by
  obtain ⟨W, R⟩ := acc
  unfold release
  split
  · rename_i k d hfind
    have hk : k = c.index := by simpa using find?_some hfind
    subst hk
    obtain ⟨d₀, hd₀, hlt, rfl⟩ := (h.waiting _ _).1 (mem_of_find?_eq_some hfind)
    split
    · exact h.release_last hw₀ hinj hd₀ (by omega)
    · exact h.release_drop hw₀ hd₀ (by omega)
  · rename_i hfind
    refine h.release_absent hpos hinj fun e he hek => ?_
    have := find?_eq_none.1 hfind e he
    simp [hek] at this

end Countdown

/-- Using up the links into the children `cs`, one after another. -/
theorem countdown_foldl {w₀ : List (Nat × Nat)} {r₀ : List Node}
    (hw₀ : (w₀.map (·.1)).Nodup) (hpos : ∀ e ∈ w₀, 0 < e.2) (cs : List Node)
    (hinj : ∀ a ∈ cs, ∀ b ∈ cs, a.index = b.index → a = b) :
    Countdown w₀ r₀ cs (cs.foldl (fun acc c => release acc.1 acc.2 c) (w₀, r₀)) := by
  induction cs using List.reverseRecOn with
  | nil => exact countdown_nil hw₀ hpos
  | append_singleton cs c ih =>
    rw [foldl_append, foldl_cons, foldl_nil]
    exact (ih fun a ha b hb => hinj a (mem_append_left _ ha) b (mem_append_left _ hb)).release_one
      hw₀ hpos hinj

/-- One generation of the schedule uses up the links out of the frontier, one child at a
time. -/
theorem Schedule.step_eq (s : Schedule) : Schedule.step g.succs s =
    { emitted := s.emitted ++ s.frontier,
      waiting := ((s.frontier.flatMap g.succs).foldl (fun acc c => release acc.1 acc.2 c)
        (s.waiting, [])).1,
      frontier := ((s.frontier.flatMap g.succs).foldl (fun acc c => release acc.1 acc.2 c)
        (s.waiting, [])).2 } := by
  rw [Schedule.step, foldl_flatMap]

/-! ### Predecessors still to come -/

/-- The predecessors of `n` not among the nodes `done` (compared by index). -/
def pending (g : Graph) (done : List Node) (n : Node) : Nat :=
  ((g.preds n).filter fun p => !(done.map (·.index)).contains p.index).length

section Numbered

variable (hg : g.Numbered)
include hg

/-- The links into a live node come from its predecessors. -/
theorem link_iff_mem_preds {p n : Node} (hn : n ∈ g.live) : g.Link p n ↔ p ∈ g.preds n := by
  rw [(preds_spec hg n).2, Link, Node.feeds_iff]
  tauto

/-- Among live nodes, having the index of a member is being a member. -/
theorem contains_index_iff {l : List Node} (hl : ∀ x ∈ l, x ∈ g.live) {p : Node}
    (hp : p ∈ g.live) : (l.map (·.index)).contains p.index = true ↔ p ∈ l := by
  rw [List.contains_iff_mem, mem_map]
  constructor
  · rintro ⟨x, hx, hxi⟩
    rwa [← hg.eq_of_index_eq (hl x hx) hp hxi]
  · intro h
    exact ⟨p, h, rfl⟩

/-- A live node is among the children of `p` once when `p` feeds it, and otherwise never. -/
theorem uses_succs {n : Node} (hn : n ∈ g.live) (p : Node) :
    uses (g.succs p) n.index = if p.feeds n then 1 else 0 := by
  have hnd : ((g.succs p).map (·.index)).Nodup :=
    hg.distinctIndices.live.sublist (filter_sublist.map _)
  have hmem : n.index ∈ (g.succs p).map (·.index) ↔ p.feeds n = true := by
    rw [mem_map]
    constructor
    · rintro ⟨x, hx, hxi⟩
      rw [← hg.eq_of_index_eq (mem_live_of_mem_succs hx) hn hxi]
      exact (mem_filter.1 hx).2
    · intro hf
      exact ⟨n, mem_filter.2 ⟨hn, hf⟩, rfl⟩
  rw [uses, hnd.count]
  by_cases hf : p.feeds n = true
  · rw [if_pos (hmem.2 hf), if_pos hf]
  · rw [if_neg (mt hmem.1 hf), if_neg hf]

/-- The links out of a list of nodes into a live node `n`: one for each node feeding it. -/
theorem uses_flatMap_succs {n : Node} (hn : n ∈ g.live) :
    ∀ F : List Node, uses (F.flatMap g.succs) n.index = F.countP (fun p => p.feeds n)
  | [] => rfl
  | p :: F => by
    rw [flatMap_cons, uses, map_append, count_append, ← uses, ← uses, uses_succs hg hn,
      uses_flatMap_succs hn F, countP_cons]
    omega

/-- Counted over the frontier or over the predecessors, the frontier nodes feeding a live node
are as many. -/
theorem countP_feeds_eq {n : Node} (hn : n ∈ g.live) {F : List Node}
    (hF : ∀ x ∈ F, x ∈ g.live) (hFnd : (F.map (·.index)).Nodup) :
    F.countP (fun p => p.feeds n) =
      ((g.preds n).filter fun p => (F.map (·.index)).contains p.index).length := by
  rw [countP_eq_length_filter]
  refine Perm.length_eq ((perm_ext_iff_of_nodup ((hFnd.of_map _).sublist filter_sublist)
    ((preds_nodup hg n).sublist filter_sublist)).2 fun x => ?_)
  simp only [mem_filter]
  constructor
  · rintro ⟨hx, hf⟩
    exact ⟨(link_iff_mem_preds hg hn).1 ⟨hF x hx, hn, hf⟩,
      (contains_index_iff hg hF (hF x hx)).2 hx⟩
  · rintro ⟨hp, hc⟩
    have hl := (link_iff_mem_preds hg hn).2 hp
    exact ⟨(contains_index_iff hg hF hl.1).1 hc, hl.2.2⟩

end Numbered

/-- Splitting the predecessors not yet done at a further list `F` that holds none of them. -/
theorem pending_append (n : Node) {E F : List Node}
    (hdisj : ∀ p ∈ g.preds n, (F.map (·.index)).contains p.index = true →
      (E.map (·.index)).contains p.index = false) :
    g.pending E n = g.pending (E ++ F) n +
      ((g.preds n).filter fun p => (F.map (·.index)).contains p.index).length := by
  unfold pending
  have hin : ((g.preds n).filter fun p => !(E.map (·.index)).contains p.index).filter
      (fun p => (F.map (·.index)).contains p.index) =
      (g.preds n).filter fun p => (F.map (·.index)).contains p.index := by
    rw [filter_filter]
    refine filter_congr fun p hp => ?_
    cases hF : (F.map (·.index)).contains p.index
    · rfl
    · rw [hdisj p hp hF]
      rfl
  have hout : ((g.preds n).filter fun p => !(E.map (·.index)).contains p.index).filter
      (fun p => !(F.map (·.index)).contains p.index) =
      (g.preds n).filter fun p => !((E ++ F).map (·.index)).contains p.index := by
    rw [filter_filter]
    refine filter_congr fun p _ => ?_
    simp only [map_append, contains_append, Bool.not_or, Bool.and_comm]
  rw [length_eq_length_filter_add (fun p => (F.map (·.index)).contains p.index), hin, hout,
    Nat.add_comm]

/-- No predecessor is pending exactly when all are done. -/
theorem pending_eq_zero_iff {done : List Node} {n : Node} :
    g.pending done n = 0 ↔
      ∀ p ∈ g.preds n, (done.map (·.index)).contains p.index = true := by
  simp [pending, filter_eq_nil_iff]

/-! ### What the schedule's accounts give -/

namespace Schedule.Accounts

variable {s : Schedule} (h : Schedule.Accounts g s) (hgl : (g.live.map (·.index)).Nodup)
include h hgl

/-- The waiting table has one entry per node. -/
theorem keys_nodup : (s.waiting.map (·.1)).Nodup :=
  (h.perm.nodup_iff.2 hgl).sublist (sublist_append_right _ _)

/-- The placed nodes, emitted or in the frontier, are distinct. -/
theorem placed_nodup : ((s.emitted ++ s.frontier).map (·.index)).Nodup :=
  (h.perm.nodup_iff.2 hgl).sublist (sublist_append_left _ _)

omit hgl in
/-- A waiting entry is the entry of a live node. -/
theorem exists_of_waiting {e : Nat × Nat} (he : e ∈ s.waiting) :
    ∃ n ∈ g.live, n.index = e.1 :=
  mem_map.1 (h.perm.subset (mem_append_right _ (mem_map_of_mem he)))

/-- A live node is placed or waiting. -/
theorem placed_or_waiting {n : Node} (hn : n ∈ g.live) :
    n ∈ s.emitted ++ s.frontier ∨ ∃ d, (n.index, d) ∈ s.waiting := by
  rcases mem_append.1 (h.perm.symm.subset (mem_map_of_mem hn)) with hp | hw
  · obtain ⟨m, hm, hmi⟩ := mem_map.1 hp
    left
    rwa [← inj_on_of_nodup_map hgl (h.live m hm) hn hmi]
  · obtain ⟨⟨i, d⟩, he, rfl⟩ := mem_map.1 hw
    exact .inr ⟨d, he⟩

/-- A placed node does not wait. -/
theorem not_waiting_of_placed {n : Node} (hn : n ∈ s.emitted ++ s.frontier) {d : Nat} :
    (n.index, d) ∉ s.waiting := fun hw => by
  have hnd := h.perm.nodup_iff.2 hgl
  rw [nodup_append] at hnd
  exact hnd.2.2 _ (mem_map_of_mem hn) _ (mem_map_of_mem hw) rfl

end Schedule.Accounts

/-! ### The schedule goes generation by generation -/

/-- The schedule at generation `k`: the emitted nodes are those of the generations before `k`,
the frontier is generation `k`, and each waiting node counts its predecessors not yet
emitted. -/
structure AtGeneration (g : Graph) (k : Nat) (s : Schedule) : Prop where
  accounts : Schedule.Accounts g s
  emitted : ∀ n, n ∈ s.emitted ↔ n ∈ g.live ∧ ∃ j < k, g.IsGeneration n j
  frontier : ∀ n, n ∈ s.frontier ↔ g.IsGeneration n k
  waiting : ∀ e ∈ s.waiting,
    0 < e.2 ∧ ∀ n ∈ g.live, n.index = e.1 → e.2 = g.pending s.emitted n

theorem start_frontier : (Schedule.start g.live g.inDegree).frontier =
    g.live.filter fun n => (g.preds n).length == 0 := by
  simp [Schedule.start, inDegree, filter_map, Function.comp_def]

theorem start_waiting : (Schedule.start g.live g.inDegree).waiting =
    (g.live.filter fun n => (g.preds n).length > 0).map fun n => (n.index, (g.preds n).length) := by
  simp [Schedule.start, inDegree, filter_map, Function.comp_def]

/-- At the start the frontier is generation `0`, the nodes without predecessors, and every
other node waits for all its predecessors. -/
theorem start_atGeneration (hg : g.Numbered) :
    AtGeneration g 0 (Schedule.start g.live g.inDegree) := by
  refine ⟨start_accounts, fun n => ?_, fun n => ?_, fun e he => ?_⟩
  · simp [Schedule.start]
  · rw [start_frontier, mem_filter, isGeneration_zero_iff, beq_iff_eq, length_eq_zero_iff,
      eq_nil_iff_forall_not_mem]
    exact and_congr_right fun hn => forall_congr' fun p => not_congr (link_iff_mem_preds hg hn).symm
  · rw [start_waiting] at he
    obtain ⟨n, hn, rfl⟩ := mem_map.1 he
    obtain ⟨hn, hpos⟩ := mem_filter.1 hn
    refine ⟨by simpa using hpos, fun m hm hmi => ?_⟩
    obtain rfl := hg.eq_of_index_eq hm hn hmi
    simp [pending, Schedule.start]

namespace AtGeneration

variable (hg : g.Numbered) {k : Nat} {s : Schedule} (h : AtGeneration g k s)
include hg h

omit hg in
/-- The placed nodes are the generations up to `k`. -/
theorem placed_iff {p : Node} (hp : p ∈ g.live) :
    p ∈ s.emitted ++ s.frontier ↔ ∃ j ≤ k, g.IsGeneration p j := by
  rw [mem_append, h.emitted, h.frontier]
  constructor
  · rintro (⟨-, j, hj, hgen⟩ | hgen)
    · exact ⟨j, hj.le, hgen⟩
    · exact ⟨k, le_rfl, hgen⟩
  · rintro ⟨j, hj, hgen⟩
    rcases Nat.lt_or_ge j k with hlt | hge
    · exact .inl ⟨hp, j, hlt, hgen⟩
    · exact .inr (by rwa [show j = k by omega] at hgen)

/-- For a live node, the predecessors not emitted are those not placed and those in the
frontier, and the links out of the frontier into it are as many as the latter. -/
theorem pending_split {n : Node} (hn : n ∈ g.live) :
    g.pending s.emitted n = g.pending (s.emitted ++ s.frontier) n +
      uses (s.frontier.flatMap g.succs) n.index := by
  have hgl := hg.distinctIndices.live
  have hFlive : ∀ x ∈ s.frontier, x ∈ g.live := fun x hx =>
    h.accounts.live x (mem_append_right _ hx)
  have hElive : ∀ x ∈ s.emitted, x ∈ g.live := fun x hx =>
    h.accounts.live x (mem_append_left _ hx)
  have hplaced := h.accounts.placed_nodup hgl
  rw [map_append, nodup_append] at hplaced
  rw [uses_flatMap_succs hg hn, countP_feeds_eq hg hn hFlive hplaced.2.1]
  refine pending_append n fun p hp hpF => ?_
  -- a frontier node is not emitted
  have hpl := (mem_preds hp).1
  have hpF' := (contains_index_iff hg hFlive hpl).1 hpF
  cases hpE : (s.emitted.map (·.index)).contains p.index
  · rfl
  · exact absurd rfl (hplaced.2.2 _ (mem_map_of_mem ((contains_index_iff hg hElive hpl).1 hpE)) _
      (mem_map_of_mem hpF'))

/-- No predecessor of a live node is left unplaced exactly when all have generations up to
`k`. -/
theorem pending_placed_eq_zero_iff {n : Node} (hn : n ∈ g.live) :
    g.pending (s.emitted ++ s.frontier) n = 0 ↔
      ∀ p, g.Link p n → ∃ j ≤ k, g.IsGeneration p j := by
  rw [pending_eq_zero_iff]
  refine forall_congr' fun p => ?_
  rw [link_iff_mem_preds hg hn]
  refine imp_congr_right fun hp => ?_
  rw [contains_index_iff hg h.accounts.live (mem_preds hp).1, placed_iff h (mem_preds hp).1]

/-- A node waiting with count `d₀` runs out in this generation exactly when all its
predecessors have generations up to `k`, that is, are placed. -/
theorem ran_out_iff {n : Node} (hn : n ∈ g.live) {d₀ : Nat} (hw : (n.index, d₀) ∈ s.waiting) :
    d₀ ≤ uses (s.frontier.flatMap g.succs) n.index ↔
      ∀ p, g.Link p n → ∃ j ≤ k, g.IsGeneration p j := by
  have hd₀ := (h.waiting _ hw).2 n hn rfl
  have hsplit := pending_split hg h hn
  rw [← pending_placed_eq_zero_iff hg h hn]
  dsimp only at hd₀
  omega

/-- One generation: the frontier is emitted, and the nodes whose last predecessor it held form
generation `k + 1`. -/
theorem step : AtGeneration g (k + 1) (Schedule.step g.succs s) := by
  have hgl := hg.distinctIndices.live
  have hcslive : ∀ x ∈ s.frontier.flatMap g.succs, x ∈ g.live := fun x hx => by
    obtain ⟨p, -, hx⟩ := mem_flatMap.1 hx
    exact mem_live_of_mem_succs hx
  have hC : Countdown s.waiting [] (s.frontier.flatMap g.succs)
      ((s.frontier.flatMap g.succs).foldl (fun acc c => release acc.1 acc.2 c) (s.waiting, [])) :=
    countdown_foldl (h.accounts.keys_nodup hgl) (fun e he => (h.waiting e he).1) _
      fun a ha b hb => hg.eq_of_index_eq (hcslive a ha) (hcslive b hb)
  refine ⟨step_accounts hgl h.accounts, fun n => ?_, fun n => ?_, fun e he => ?_⟩
  · rw [Schedule.step_eq]
    dsimp only
    constructor
    · intro hn
      have hlive := h.accounts.live n hn
      obtain ⟨j, hj, hgen⟩ := (placed_iff h hlive).1 hn
      exact ⟨hlive, j, by omega, hgen⟩
    · rintro ⟨hlive, j, hj, hgen⟩
      exact (placed_iff h hlive).2 ⟨j, by omega, hgen⟩
  · -- a node is released when the frontier held the last of its predecessors
    rw [Schedule.step_eq]
    dsimp only
    rw [hC.ready, isGeneration_succ_iff]
    simp only [not_mem_nil, false_or]
    constructor
    · rintro ⟨hncs, d₀, hw, hle⟩
      have hn := hcslive n hncs
      have hnp : n ∉ s.emitted ++ s.frontier := fun hp =>
        h.accounts.not_waiting_of_placed hgl hp hw
      exact ⟨hn, fun hj => hnp ((placed_iff h hn).2 hj), (ran_out_iff hg h hn hw).1 hle⟩
    · rintro ⟨hn, hnot, hpreds⟩
      have hnp : n ∉ s.emitted ++ s.frontier := fun hp => hnot ((placed_iff h hn).1 hp)
      obtain ⟨d₀, hw⟩ := (h.accounts.placed_or_waiting hgl hn).resolve_left hnp
      have hle := (ran_out_iff hg h hn hw).2 hpreds
      -- a positive count ran out, so some link into `n` left the frontier
      have huses : 0 < uses (s.frontier.flatMap g.succs) n.index :=
        Nat.lt_of_lt_of_le (h.waiting _ hw).1 hle
      obtain ⟨m, hm, hmi⟩ := mem_map.1 (count_pos_iff.1 huses)
      obtain rfl := hg.eq_of_index_eq (hcslive m hm) hn hmi
      exact ⟨hm, d₀, hw, hle⟩
  · -- a node still waiting counts down by its predecessors in the frontier
    rw [Schedule.step_eq] at he
    obtain ⟨i, d⟩ := e
    obtain ⟨d₀, hw, hlt, rfl⟩ := (hC.waiting i d).1 he
    refine ⟨by dsimp only; omega, fun n hn hni => ?_⟩
    rw [Schedule.step_eq]
    dsimp only at hni ⊢
    subst hni
    have hd := (h.waiting _ hw).2 n hn rfl
    have hsplit := pending_split hg h hn
    dsimp only at hd
    omega

end AtGeneration

/-! ### A whole run -/

/-- The frontiers a run of the schedule emits, one generation each. -/
def Schedule.frontiers (g : Graph) : Nat → Schedule → List (List Node)
  | 0, _ => []
  | fuel + 1, s =>
    if s.frontier.isEmpty then []
    else s.frontier :: Schedule.frontiers g fuel (Schedule.step g.succs s)

@[simp] theorem Schedule.step_emitted (s : Schedule) :
    (Schedule.step g.succs s).emitted = s.emitted ++ s.frontier := by
  rw [Schedule.step_eq]

/-- A run emits its frontiers in turn. -/
theorem run_emitted : ∀ (fuel : Nat) (s : Schedule),
    (Schedule.run g.succs fuel s).emitted = s.emitted ++ (Schedule.frontiers g fuel s).flatten
  | 0, s => by simp [Schedule.run, Schedule.frontiers]
  | fuel + 1, s => by
    simp only [Schedule.run, Schedule.frontiers]
    split
    · simp
    · rw [run_emitted fuel, Schedule.step_emitted, flatten_cons, append_assoc]

/-- Every frontier a run emits holds a node. -/
theorem ne_nil_of_mem_frontiers : ∀ {fuel : Nat} {s : Schedule} {F : List Node},
    F ∈ Schedule.frontiers g fuel s → F ≠ []
  | 0, _, _, h => absurd h (not_mem_nil)
  | fuel + 1, s, F, h => by
    simp only [Schedule.frontiers] at h
    split at h
    · exact absurd h (not_mem_nil)
    · rename_i hne
      rcases mem_cons.1 h with rfl | h
      · simpa using hne
      · exact ne_nil_of_mem_frontiers h

/-- A run that stops before its fuel runs out stops at an empty frontier. -/
theorem run_frontier_eq_nil : ∀ {fuel : Nat} {s : Schedule},
    (Schedule.frontiers g fuel s).length < fuel → (Schedule.run g.succs fuel s).frontier = []
  | 0, _, h => absurd h (Nat.lt_irrefl 0)
  | fuel + 1, s, h => by
    simp only [Schedule.frontiers] at h
    simp only [Schedule.run]
    split
    · rename_i he
      simpa using he
    · rename_i he
      rw [if_neg he, length_cons] at h
      exact run_frontier_eq_nil (by omega)

namespace AtGeneration

variable (hg : g.Numbered)
include hg

/-- A run goes one generation per frontier. -/
theorem run : ∀ {fuel k : Nat} {s : Schedule}, AtGeneration g k s →
    AtGeneration g (k + (Schedule.frontiers g fuel s).length) (Schedule.run g.succs fuel s)
  | 0, k, s, h => by simpa [Schedule.run, Schedule.frontiers] using h
  | fuel + 1, k, s, h => by
    simp only [Schedule.run, Schedule.frontiers]
    split
    · simpa using h
    · rw [length_cons, Nat.add_comm _ 1, ← Nat.add_assoc]
      exact run (h.step hg)

/-- The `m`-th frontier of a run from generation `k` is generation `k + m`. -/
theorem mem_frontiers : ∀ {fuel k : Nat} {s : Schedule}, AtGeneration g k s →
    ∀ m (hm : m < (Schedule.frontiers g fuel s).length) (n : Node),
      n ∈ (Schedule.frontiers g fuel s)[m] ↔ g.IsGeneration n (k + m)
  | 0, _, _, _, m, hm, _ => absurd hm (Nat.not_lt_zero m)
  | fuel + 1, k, s, h, m, hm, n => by
    simp only [Schedule.frontiers] at hm ⊢
    split at hm
    · exact absurd hm (Nat.not_lt_zero m)
    · rename_i he
      simp only [if_neg he]
      cases m with
      | zero => simpa using h.frontier n
      | succ m =>
        rw [getElem_cons_succ, mem_frontiers (h.step hg) m (by simpa using hm) n,
          Nat.add_right_comm, Nat.add_assoc]

end AtGeneration

/-- The first frontier of a run is the frontier it starts from. -/
theorem frontiers_getElem_zero : ∀ {fuel : Nat} {s : Schedule}
    (hm : 0 < (Schedule.frontiers g fuel s).length), (Schedule.frontiers g fuel s)[0] = s.frontier
  | 0, _, hm => absurd hm (Nat.lt_irrefl 0)
  | fuel + 1, s, hm => by
    simp only [Schedule.frontiers] at hm ⊢
    split at hm
    · exact absurd hm (Nat.lt_irrefl 0)
    · rename_i he
      simp only [if_neg he, getElem_cons_zero]

/-- Non-empty blocks are at most as many as their members. -/
theorem length_le_length_flatten {α : Type} : ∀ {L : List (List α)}, (∀ l ∈ L, l ≠ []) →
    L.length ≤ L.flatten.length
  | [], _ => le_rfl
  | l :: L, h => by
    have := length_le_length_flatten fun l' hl' => h l' (mem_cons_of_mem _ hl')
    have hl : 0 < l.length := length_pos_iff.2 (h l mem_cons_self)
    simp only [length_cons, flatten_cons, length_append]
    omega

/-! ### The full run -/

/-- The run of the schedule that the topological order makes: one generation more than there
are live nodes. -/
def fullRun (g : Graph) : Schedule :=
  Schedule.run g.succs (g.live.length + 1) (Schedule.start g.live g.inDegree)

/-- The generations the full run emits, in turn. -/
def generations (g : Graph) : List (List Node) :=
  Schedule.frontiers g (g.live.length + 1) (Schedule.start g.live g.inDegree)

theorem topoOrder_eq (g : Graph) : g.topoOrder =
    if (fullRun g).waiting.isEmpty && (fullRun g).frontier.isEmpty then (fullRun g).emitted
    else g.live := by
  unfold topoOrder Schedule.sort fullRun
  simp only
  split <;> simp [*]

theorem fullRun_atGeneration (hg : g.Numbered) :
    AtGeneration g (generations g).length (fullRun g) := by
  have h : AtGeneration g (0 + (generations g).length) (fullRun g) :=
    (start_atGeneration hg).run hg
  rwa [Nat.zero_add] at h

theorem fullRun_emitted : (fullRun g).emitted = (generations g).flatten := by
  simp [fullRun, generations, run_emitted, Schedule.start]

/-- The full run stops at an empty frontier: each frontier holds a node and at most all live
nodes are emitted, so the fuel never runs out first. -/
theorem fullRun_frontier (hg : g.Numbered) : (fullRun g).frontier = [] := by
  have h1 : (generations g).length ≤ (generations g).flatten.length :=
    length_le_length_flatten fun _ hF => ne_nil_of_mem_frontiers hF
  have h2 : (fullRun g).emitted.length ≤ g.live.length := by
    have := (fullRun_atGeneration hg).accounts.perm.length_eq
    simp only [length_append, length_map] at this
    omega
  rw [fullRun_emitted] at h2
  exact run_frontier_eq_nil (show (generations g).length < g.live.length + 1 by omega)

/-- On an acyclic view the full run leaves nothing waiting: a waiting node's generation would
lie past the generations emitted, and so would a node of the generation right after them,
which the empty last frontier does not hold. -/
theorem Acyclic.fullRun_waiting (hg : g.Numbered) (hac : g.Acyclic) :
    (fullRun g).waiting = [] := by
  have hA := fullRun_atGeneration hg
  refine eq_nil_iff_forall_not_mem.2 fun e he => ?_
  obtain ⟨n, hn, hni⟩ := hA.accounts.exists_of_waiting he
  obtain ⟨j, hj⟩ := hac.exists_isGeneration hn
  have hlate : (generations g).length < j := by
    by_contra hle
    have hw : (n.index, e.2) ∈ (fullRun g).waiting := by
      rw [hni]
      exact he
    exact hA.accounts.not_waiting_of_placed hg.distinctIndices.live
      ((hA.placed_iff hn).2 ⟨j, by omega, hj⟩) hw
  obtain ⟨m, hm⟩ := hj.exists_below _ hlate.le
  have hfront := (hA.frontier m).2 hm
  rw [fullRun_frontier hg] at hfront
  exact not_mem_nil hfront

/-- A node on a cycle never gets a generation, so the full run leaves it waiting. -/
theorem fullRun_waiting_of_cycle (hg : g.Numbered) {n : Node}
    (hc : Relation.TransGen g.Link n n) : (fullRun g).waiting ≠ [] := by
  have hA := fullRun_atGeneration hg
  have hn : n ∈ g.live := by
    cases hc with
    | single h => exact h.2.1
    | tail _ h => exact h.2.1
  have hnp : n ∉ (fullRun g).emitted ++ (fullRun g).frontier := fun hp => by
    obtain ⟨j, -, hj⟩ := (hA.placed_iff hn).1 hp
    exact not_isGeneration_of_cycle hc j hj
  obtain ⟨d, hd⟩ := (hA.accounts.placed_or_waiting hg.distinctIndices.live hn).resolve_left hnp
  exact ne_nil_of_mem hd

/-- The schedule, generation by generation: on an acyclic view it lists the generations in
turn, the first in list order; on a view with a cycle it gives up and lists the live nodes. -/
theorem topoOrder_by_generations (hg : g.Numbered) :
    (g.Acyclic → ∃ gens : List (List Node), g.topoOrder = gens.flatten ∧
      (∀ m (hm : m < gens.length), ∀ n, n ∈ gens[m] ↔ g.IsGeneration n m) ∧
      ∀ hm : 0 < gens.length, gens[0] <+ g.live) ∧
    (¬ g.Acyclic → g.topoOrder = g.live) := by
  refine ⟨fun hac => ⟨generations g, ?_, fun m hm n => ?_, fun hm => ?_⟩, fun hcyc => ?_⟩
  · simp [topoOrder_eq, hac.fullRun_waiting hg, fullRun_frontier hg, fullRun_emitted]
  · have h : n ∈ (generations g)[m] ↔ g.IsGeneration n (0 + m) :=
      (start_atGeneration hg).mem_frontiers hg m hm n
    rwa [Nat.zero_add] at h
  · -- the first generation is the start's frontier, the nodes without predecessors
    show (Schedule.frontiers g (g.live.length + 1) (Schedule.start g.live g.inDegree))[0] <+ g.live
    rw [frontiers_getElem_zero hm, start_frontier]
    exact filter_sublist
  · obtain ⟨n, hc⟩ := not_forall_not.1 hcyc
    simp [topoOrder_eq, fullRun_waiting_of_cycle hg hc]

/-! ### Every view built from a model -/

/-- A member of an earlier block comes before a member of a later one once the blocks are laid
end to end. -/
theorem precedes_flatten {L : List (List Node)} {a b : Node} {i j : Nat} (hij : i < j)
    (hj : j < L.length) (ha : a ∈ L[i]) (hb : b ∈ L[j]) : Precedes L.flatten a b := by
  obtain ⟨pre, post, hsplit⟩ := append_of_mem hb
  refine ⟨(L.take j).flatten ++ pre, post ++ (L.drop (j + 1)).flatten, ?_, ?_⟩
  · conv_lhs => rw [← take_append_drop j L, drop_eq_getElem_cons hj]
    rw [flatten_append, flatten_cons, hsplit]
    simp only [append_assoc, cons_append]
  · refine mem_append_left _ (mem_flatten.2 ⟨L[i], ?_, ha⟩)
    exact mem_iff_getElem.2 ⟨i, by simp; omega, by simp⟩

/-- What the schedule of a view is: an order of its nodes. On an acyclic view, the generations
in increasing order, generation `0` in node-list order, so that every link goes forward; on a
view with a cycle, the node list. -/
structure ScheduledByGenerations (g : Graph) : Prop where
  perm : g.topoOrder ~ g.nodes
  acyclic : g.Acyclic → ∃ gens : List (List Node), g.topoOrder = gens.flatten ∧
    (∀ m (hm : m < gens.length), ∀ n, n ∈ gens[m] ↔ g.IsGeneration n m) ∧
    (∀ hm : 0 < gens.length, gens[0] <+ g.nodes) ∧
    ∀ p c, g.Link p c → Precedes g.topoOrder p c
  cyclic : ¬ g.Acyclic → g.topoOrder = g.nodes

/-- The schedule of every view built from a model lists each node once. Without a cycle it
goes generation by generation, generation `0` in node-list order, and puts every producer
before its consumers; with a cycle, a node reading its own output included, it is the node
list. -/
theorem built_view_scheduled_by_generations {d : GraphDef} (h : Graph.ofDef d = .ok g) :
    g.ScheduledByGenerations := by
  have hg := ofDef_numbered h
  have hlive := ofDef_live h
  obtain ⟨hacyclic, hcyclic⟩ := topoOrder_by_generations hg
  refine ⟨hlive ▸ topoOrder_perm hg.distinctIndices, fun hac => ?_,
    fun hcyc => hlive ▸ hcyclic hcyc⟩
  obtain ⟨gens, htopo, hmem, hfirst⟩ := hacyclic hac
  refine ⟨gens, htopo, hmem, fun hm => hlive ▸ hfirst hm, fun p c hl => ?_⟩
  obtain ⟨a, hpa⟩ := hac.exists_isGeneration hl.1
  obtain ⟨b, hcb⟩ := hac.exists_isGeneration hl.2.1
  -- `c` is scheduled, in the block of its generation, so that block exists
  have hb : b < gens.length := by
    have hc : c ∈ gens.flatten :=
      htopo ▸ (topoOrder_perm hg.distinctIndices).symm.subset hl.2.1
    obtain ⟨l, hl, hcl⟩ := mem_flatten.1 hc
    obtain ⟨m, hm, rfl⟩ := mem_iff_getElem.1 hl
    rwa [← ((hmem m hm c).1 hcl).unique hcb]
  have hab := hpa.lt_of_link hl hcb
  rw [htopo]
  exact precedes_flatten hab hb ((hmem a (by omega) p).2 hpa) ((hmem b hb c).2 hcb)

/-- A model whose first node feeds two others, one of which also feeds the other. -/
def diamond : GraphDef where
  nodes := [⟨"Concat", "join", ["l", "r"], ["y"], []⟩,
    ⟨"Split", "split", ["x"], ["l", "m"], []⟩, ⟨"Relu", "relu", ["m"], ["r"], []⟩]
  initializers := []
  inputs := []
  outputs := []
  valueInfo := []

theorem diamond_scheduled_by_generations :
    ∃ g, Graph.ofDef diamond = .ok g ∧ g.ScheduledByGenerations :=
  ⟨_, rfl, built_view_scheduled_by_generations (d := diamond) rfl⟩

example : (Graph.ofDef diamond).toOption.map (fun g => g.topoOrder.map (·.name)) =
    some ["split", "relu", "join"] := by
  decide

end Graph

end OnnxFusion.Dataflow

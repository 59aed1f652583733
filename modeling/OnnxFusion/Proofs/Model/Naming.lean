import Mathlib
import OnnxFusion.Model.Naming
/-!
# Naming unnamed nodes gives fresh, distinct names

`nameNodes` gives every unnamed node the name `<op_type>_<k>`, taking for `k` the first
counter, from the current one, whose candidate no node has yet. The search is bounded by one
try more than there are names taken, and `freeCounter_least` shows the bound is never
reached: the counter found is the least free one from where the search starts, as an
unbounded search finds it. The argument is the pigeonhole principle: candidates for one
operator type differ by their counters (`candidateName_injective`), so a run of taken
candidates longer than the list of taken names cannot exist.

`withNames_fresh` collects what the pass guarantees (`FreshlyNamed`): only names change,
every node ends with a non-empty name, named nodes keep theirs, and each name the pass gives
has the candidate form, was no name in the model, and is given once. So a model whose
non-empty names were distinct ends with all its names distinct
(`FreshlyNamed.names_nodup`).
-/

set_option autoImplicit false

namespace OnnxFusion

open List

/-! ### Candidates and the search for a free counter -/

/-- Candidates for one operator type are told apart by their counters. -/
theorem candidateName_injective (op : String) : Function.Injective (candidateName op) := by
  intro a b h
  simp only [candidateName, String.append_right_inj, Nat.toString_eq_repr] at h
  exact Nat.repr_injective h

theorem candidateName_ne_empty (op : String) (k : Nat) : candidateName op k ≠ "" := by
  intro h
  have hlen := congrArg String.length h
  simp [candidateName] at hlen

/-- The search moves up from `k` past taken candidates only, and stops at a free one unless
it runs out of tries. -/
theorem freeCounter_spec (op : String) (taken : List String) : ∀ (fuel k : Nat),
    k ≤ freeCounter op taken fuel k ∧
      (∀ j, k ≤ j → j < freeCounter op taken fuel k → candidateName op j ∈ taken) ∧
      (candidateName op (freeCounter op taken fuel k) ∉ taken ∨
        freeCounter op taken fuel k = k + fuel)
  | 0, k => ⟨le_rfl, fun j h1 h2 => absurd h2 (by simp [freeCounter]; omega), .inr rfl⟩
  | fuel + 1, k => by
    simp only [freeCounter]
    split
    · rename_i hk
      obtain ⟨hle, hpast, hstop⟩ := freeCounter_spec op taken fuel (k + 1)
      refine ⟨by omega, fun j hj1 hj2 => ?_, hstop.imp_right fun h => by omega⟩
      rcases Nat.eq_or_lt_of_le hj1 with rfl | hj1
      · exact List.contains_iff_mem.1 hk
      · exact hpast j hj1 hj2
    · rename_i hk
      exact ⟨le_rfl, fun j h1 h2 => absurd h2 (by omega), .inl fun h => hk (by simpa using h)⟩

/-- Given one try more than there are taken names, the search finds the least free counter
from `k`: the one an unbounded search finds. -/
theorem freeCounter_least (op : String) (taken : List String) (k : Nat) :
    k ≤ freeCounter op taken (taken.length + 1) k ∧
      candidateName op (freeCounter op taken (taken.length + 1) k) ∉ taken ∧
      ∀ j, k ≤ j → j < freeCounter op taken (taken.length + 1) k →
        candidateName op j ∈ taken := by
  obtain ⟨hle, hpast, hstop⟩ := freeCounter_spec op taken (taken.length + 1) k
  refine ⟨hle, ?_, hpast⟩
  rcases hstop with hfree | hend
  · exact hfree
  · -- otherwise all `taken.length + 1` candidates tried, which are distinct, were taken
    intro _
    have hsub : (range' k (taken.length + 1)).map (candidateName op) ⊆ taken := by
      intro s hs
      obtain ⟨j, hj, rfl⟩ := mem_map.1 hs
      rw [mem_range'_1] at hj
      exact hpast j hj.1 (by omega)
    have hnd : ((range' k (taken.length + 1)).map (candidateName op)).Nodup :=
      (nodup_range' ..).map (candidateName_injective op)
    have hlen := (subperm_of_subset hnd hsub).length_le
    simp at hlen

/-! ### What the pass guarantees -/

/-- What naming does to one node: only the name changes, and to a non-empty one; a name is
kept, and a missing one becomes a candidate for the node's operator type. -/
def RenamedNode (n n' : NodeDef) : Prop :=
  n' = { n with name := n'.name } ∧ n'.name ≠ "" ∧ (n.name ≠ "" → n'.name = n.name) ∧
    (n.name = "" → ∃ k, n'.name = candidateName n.opType k)

/-- A named node keeps its name. -/
theorem renamedNode_kept {n : NodeDef} (h : n.name ≠ "") : RenamedNode n n :=
  ⟨rfl, h, fun _ => rfl, fun h' => absurd h' h⟩

/-- An unnamed node named by a candidate for its operator type. -/
theorem renamedNode_given {n : NodeDef} (h : n.name = "") (k : Nat) :
    RenamedNode n { n with name := candidateName n.opType k } :=
  ⟨rfl, candidateName_ne_empty _ _, fun h' => absurd h h', fun _ => ⟨k, rfl⟩⟩

/-- The names a pass gave: those of the nodes that had none, in list order. -/
def givenNames (ns ns' : List NodeDef) : List String :=
  (ns.zip ns').filterMap fun (n, n') => if n.name = "" then some n'.name else none

@[simp] theorem givenNames_nil : givenNames [] [] = [] := rfl

theorem givenNames_cons (n n' : NodeDef) (ns ns' : List NodeDef) :
    givenNames (n :: ns) (n' :: ns') =
      (if n.name = "" then [n'.name] else []) ++ givenNames ns ns' := by
  by_cases h : n.name = "" <;> simp [givenNames, h]

/-- Naming the nodes `ns` into `ns'` kept every node but its name, named every node, and gave
names that were no name of `ns` and that are given once each. -/
structure FreshlyNamed (ns ns' : List NodeDef) : Prop where
  nodes : Forall₂ RenamedNode ns ns'
  fresh : ∀ s ∈ givenNames ns ns', s ∉ ns.map (·.name)
  distinct : (givenNames ns ns').Nodup

/-- The walk over the nodes: each name it gives is free when given, so it is none of the
names taken at the start and none of the names it gives later. -/
theorem nameNodesFrom_spec : ∀ (ns : List NodeDef) (taken : List String) (k : Nat),
    Forall₂ RenamedNode ns (nameNodesFrom ns taken k) ∧
      (∀ s ∈ givenNames ns (nameNodesFrom ns taken k), s ∉ taken) ∧
      (givenNames ns (nameNodesFrom ns taken k)).Nodup
  | [], _, _ => by simp [nameNodesFrom]
  | n :: rest, taken, k => by
    by_cases hn : n.name = ""
    · -- the node gets the first free candidate, which is taken from then on
      set k' := freeCounter n.opType taken (taken.length + 1) k
      have hstep : nameNodesFrom (n :: rest) taken k =
          { n with name := candidateName n.opType k' } ::
            nameNodesFrom rest (taken ++ [candidateName n.opType k']) k' := by
        simp only [nameNodesFrom, String.isEmpty_iff.2 hn, if_true]
        rfl
      obtain ⟨-, hfree, -⟩ := freeCounter_least n.opType taken k
      obtain ⟨hrest, hfresh, hnd⟩ :=
        nameNodesFrom_spec rest (taken ++ [candidateName n.opType k']) k'
      rw [hstep, givenNames_cons, if_pos hn, singleton_append]
      refine ⟨.cons (renamedNode_given hn k') hrest, fun s hs => ?_, ?_⟩
      · rcases mem_cons.1 hs with rfl | hs
        · exact hfree
        · exact fun h => hfresh s hs (mem_append_left _ h)
      · exact nodup_cons.2
          ⟨fun h => hfresh _ h (mem_append_right _ (mem_singleton_self _)), hnd⟩
    · have hstep : nameNodesFrom (n :: rest) taken k = n :: nameNodesFrom rest taken k := by
        have hnonempty : n.name.isEmpty = false := by simpa [String.isEmpty_iff] using hn
        simp only [nameNodesFrom, hnonempty, Bool.false_eq_true, if_false]
      obtain ⟨hrest, hfresh, hnd⟩ := nameNodesFrom_spec rest taken k
      rw [hstep, givenNames_cons, if_neg hn, nil_append]
      exact ⟨.cons (renamedNode_kept hn) hrest, hfresh, hnd⟩

/-- Naming a node list starts from every name in it, so the names it gives are fresh. -/
theorem nameNodes_freshlyNamed (ns : List NodeDef) : FreshlyNamed ns (nameNodes ns) := by
  obtain ⟨hnodes, hfresh, hnd⟩ :=
    nameNodesFrom_spec ns (ns.map (·.name)).eraseDups (ns.map (·.name)).eraseDups.length
  exact ⟨hnodes, fun s hs h => hfresh s hs (mem_eraseDups.2 h), hnd⟩

/-- After naming, the names are the names kept, in order, with the names given slotted in. -/
theorem names_perm_of_forall₂ : ∀ {ns ns' : List NodeDef}, Forall₂ RenamedNode ns ns' →
    ns'.map (·.name) ~ (ns.map (·.name)).filter (· ≠ "") ++ givenNames ns ns'
  | [], [], .nil => by simp
  | n :: ns, n' :: ns', .cons hn hrest => by
    have ih := names_perm_of_forall₂ hrest
    obtain ⟨-, -, hkept, -⟩ := hn
    by_cases h : n.name = ""
    · simp only [map_cons, h, filter_cons, ne_eq, not_true_eq_false, decide_false,
        Bool.false_eq_true, if_false, givenNames_cons, if_true, singleton_append]
      exact (ih.cons _).trans perm_middle.symm
    · simp only [map_cons, filter_cons, ne_eq, h, not_false_eq_true, decide_true, if_true,
        givenNames_cons, if_false, nil_append, cons_append, hkept h]
      exact ih.cons _

/-- When the names a model had were distinct, all names are distinct after naming. -/
theorem FreshlyNamed.names_nodup {ns ns' : List NodeDef} (h : FreshlyNamed ns ns')
    (hnd : ((ns.map (·.name)).filter (· ≠ "")).Nodup) : (ns'.map (·.name)).Nodup := by
  refine (names_perm_of_forall₂ h.nodes).nodup_iff.2 (nodup_append.2 ⟨hnd, h.distinct, ?_⟩)
  intro a ha b hb hab
  subst hab
  exact h.fresh a hb (mem_of_mem_filter ha)

/-- Naming the nodes of a model leaves every node named: a name is kept, a missing one
becomes `<op_type>_<k>`, fresh against every name the model had and against every other name
given, and nothing else changes. So when the model's names were distinct, they stay so. -/
theorem withNames_fresh (g : GraphDef) :
    FreshlyNamed g.nodes g.withNames.nodes ∧
      (((g.nodes.map (·.name)).filter (· ≠ "")).Nodup →
        (g.withNames.nodes.map (·.name)).Nodup) :=
  ⟨nameNodes_freshlyNamed g.nodes, (nameNodes_freshlyNamed g.nodes).names_nodup⟩

/-- A model with two unnamed nodes and a named one that holds the first candidate name. -/
def unnamedRelus : GraphDef where
  nodes := [⟨"Relu", "", ["x"], ["a"], []⟩, ⟨"Relu", "Relu_2", ["a"], ["b"], []⟩,
    ⟨"Relu", "", ["b"], ["y"], []⟩]
  initializers := []
  inputs := []
  outputs := []
  valueInfo := []

theorem unnamedRelus_fresh :
    FreshlyNamed unnamedRelus.nodes unnamedRelus.withNames.nodes ∧
      (unnamedRelus.withNames.nodes.map (·.name)).Nodup :=
  ⟨(withNames_fresh unnamedRelus).1, (withNames_fresh unnamedRelus).2 (by decide)⟩

example : unnamedRelus.withNames.nodes.map (·.name) = ["Relu_3", "Relu_2", "Relu_4"] := by
  decide

end OnnxFusion

import Mathlib
import OnnxFusion.Proofs.Matcher.Total
/-!
# Recognising a fusion does not depend on the order of the node list

Two views of one model whose node lists hold the same nodes in another order
(`Graph.Reordered`): the second numbers each node of the first by `σ`, and both have the same
initializers and declared shapes. Successor and predecessor lists are then the same up to
order (`Reordered.succs`, `Reordered.preds`), and most steps of the recognisers read them in a
way order cannot change: the only node of a list, its length, whether it is empty.

Three steps read an order, and `run_reordered` names conditions that make each of them
harmless:

* the convolution pattern takes the first `BatchNormalization` among the successors, so the
  convolution must have at most one;
* the logarithm pattern takes the first predecessor of the `Log`, so each tensor it reads must
  have at most one producer;
* the layer-normalisation pattern takes the first successor of the `Sub` as the `Pow` and the
  second as the `Div`, so the two must come in the same order in both views.

Under these conditions a pattern gives the same outcome on both views, its matched nodes
renumbered (`Match.relabel`). `convBatchNorm_second_reader` shows the first condition is
needed: with two normalisations of one convolution, reordering them changes the match.
-/

set_option autoImplicit false

namespace OnnxFusion

open Dataflow Proofs List

/-! ### Renumbering nodes -/

namespace Dataflow

/-- The node with its index renumbered by `σ`. -/
def Node.relabel (σ : Nat → Nat) (n : Node) : Node := { n with index := σ n.index }

section Relabel

variable (σ : Nat → Nat) (n p c : Node)

@[simp] theorem Node.relabel_index : (n.relabel σ).index = σ n.index := rfl
@[simp] theorem Node.relabel_inputs : (n.relabel σ).inputs = n.inputs := rfl
@[simp] theorem Node.relabel_outputs : (n.relabel σ).outputs = n.outputs := rfl
@[simp] theorem Node.relabel_name : (n.relabel σ).name = n.name := rfl
@[simp] theorem Node.relabel_opType : (n.relabel σ).opType = n.opType := rfl
@[simp] theorem Node.relabel_attrs : (n.relabel σ).attrs = n.attrs := rfl
@[simp] theorem Node.isOp_relabel (op : String) : (n.relabel σ).isOp op = n.isOp op := rfl
@[simp] theorem Node.attr?_relabel (k : String) : (n.relabel σ).attr? k = n.attr? k := rfl

/-- Whether one node feeds another does not read their indices. -/
@[simp] theorem Node.feeds_relabel (σ' : Nat → Nat) :
    (p.relabel σ).feeds (c.relabel σ') = p.feeds c := rfl

end Relabel

end Dataflow

/-- The match with its nodes renumbered by `σ`. -/
def Match.relabel (σ : Nat → Nat) (m : Match) : Match :=
  { m with nodes := m.nodes.map (Node.relabel σ) }

/-! ### Keeping the first node of each index -/

namespace Dataflow.Graph

/-- In a list where nodes of one index are equal, keeping the first of each index keeps every
node. -/
theorem mem_dedup_iff : ∀ {l acc : List Node},
    (∀ a ∈ l ++ acc, ∀ b ∈ l ++ acc, a.index = b.index → a = b) →
      ∀ {x : Node}, x ∈ dedup l acc ↔ x ∈ l ∨ x ∈ acc
  | [], acc, _, x => by simp [dedup]
  | y :: l, acc, hfun, x => by
    have hfun' : ∀ a ∈ l ++ y :: acc, ∀ b ∈ l ++ y :: acc, a.index = b.index → a = b :=
      fun a ha b hb => hfun a (by simp at ha ⊢; tauto) b (by simp at hb ⊢; tauto)
    have hfun'' : ∀ a ∈ l ++ acc, ∀ b ∈ l ++ acc, a.index = b.index → a = b :=
      fun a ha b hb => hfun a (by simp at ha ⊢; tauto) b (by simp at hb ⊢; tauto)
    unfold dedup
    split
    · -- a node of the same index, so `y` itself, was kept already
      rename_i hany
      obtain ⟨z, hz, hzy⟩ := List.any_eq_true.1 hany
      have hy : y ∈ acc :=
        (hfun z (by simp [hz]) y (by simp) (by simpa using hzy)) ▸ hz
      rw [mem_dedup_iff hfun'', mem_cons]
      constructor
      · rintro (h | h)
        · exact .inl (.inr h)
        · exact .inr h
      · rintro ((rfl | h) | h)
        · exact .inr hy
        · exact .inl h
        · exact .inr h
    · rw [mem_dedup_iff hfun', mem_cons, mem_cons]
      tauto

/-- Keeping the first node of each index gives distinct indices. -/
theorem dedup_nodup : ∀ {l acc : List Node}, (acc.map (·.index)).Nodup →
    ((dedup l acc).map (·.index)).Nodup
  | [], acc, h => by simpa [dedup, map_reverse, nodup_reverse] using h
  | y :: l, acc, h => by
    unfold dedup
    split
    · exact dedup_nodup h
    · rename_i hany
      refine dedup_nodup (nodup_cons.2 ⟨fun hy => hany ?_, h⟩)
      obtain ⟨z, hz, hzy⟩ := mem_map.1 hy
      exact List.any_eq_true.2 ⟨z, hz, by simp [hzy]⟩

/-- Renumbering injectively commutes with keeping the first node of each index. -/
theorem dedup_map {σ : Nat → Nat} : ∀ {l acc : List Node},
    (∀ a ∈ l ++ acc, ∀ b ∈ l ++ acc, σ a.index = σ b.index → a.index = b.index) →
      dedup (l.map (Node.relabel σ)) (acc.map (Node.relabel σ)) =
        (dedup l acc).map (Node.relabel σ)
  | [], acc, _ => by simp [dedup]
  | y :: l, acc, hinj => by
    have hany : (acc.map (Node.relabel σ)).any (·.index == (y.relabel σ).index) =
        acc.any (·.index == y.index) := by
      rw [Bool.eq_iff_iff, List.any_eq_true, List.any_eq_true]
      constructor
      · rintro ⟨z', hz', hzy⟩
        obtain ⟨z, hz, rfl⟩ := mem_map.1 hz'
        refine ⟨z, hz, ?_⟩
        simp only [Node.relabel_index, beq_iff_eq] at hzy ⊢
        exact hinj z (by simp [hz]) y (by simp) hzy
      · rintro ⟨z, hz, hzy⟩
        refine ⟨z.relabel σ, mem_map_of_mem hz, ?_⟩
        simp only [Node.relabel_index, beq_iff_eq] at hzy ⊢
        rw [hzy]
    have hinj' : ∀ a ∈ l ++ acc, ∀ b ∈ l ++ acc, σ a.index = σ b.index → a.index = b.index :=
      fun a ha b hb => hinj a (by simp at ha ⊢; tauto) b (by simp at hb ⊢; tauto)
    have hinj'' : ∀ a ∈ l ++ y :: acc, ∀ b ∈ l ++ y :: acc,
        σ a.index = σ b.index → a.index = b.index :=
      fun a ha b hb => hinj a (by simp at ha ⊢; tauto) b (by simp at hb ⊢; tauto)
    simp only [map_cons, dedup, hany]
    split
    · exact dedup_map hinj'
    · rw [← map_cons]
      exact dedup_map hinj''

/-- The producers of the tensors of a list are live. -/
theorem mem_live_of_mem_flatMap_producers {g : Graph} {ts : List String} {a : Node}
    (ha : a ∈ ts.flatMap g.producers) : a ∈ g.live := by
  obtain ⟨t, -, hat⟩ := mem_flatMap.1 ha
  exact (mem_filter.1 hat).1

/-- Among the producers of a list of tensors in a numbered view, one index is one node. -/
theorem producers_eq_of_index_eq {g : Graph} (hg : g.Numbered) (ts : List String) :
    ∀ a ∈ ts.flatMap g.producers ++ [], ∀ b ∈ ts.flatMap g.producers ++ [],
      a.index = b.index → a = b := fun a ha b hb =>
  inj_on_of_nodup_map hg.distinctIndices.live
    (mem_live_of_mem_flatMap_producers (by simpa using ha))
    (mem_live_of_mem_flatMap_producers (by simpa using hb))

/-- In a numbered view the predecessors of a node are the producers of its inputs. -/
theorem mem_preds_iff {g : Graph} (hg : g.Numbered) {p c : Node} :
    p ∈ g.preds c ↔ p ∈ c.inputs.flatMap g.producers := by
  unfold Graph.preds
  rw [mem_dedup_iff (producers_eq_of_index_eq hg c.inputs)]
  simp

/-- A live node that writes a tensor another node reads is among that node's predecessors. -/
theorem mem_preds_of_feeds {g : Graph} (hg : g.Numbered) {p c : Node} (hp : p ∈ g.live)
    (hf : p.feeds c = true) : p ∈ g.preds c := by
  obtain ⟨t, ht, hpt⟩ := List.any_eq_true.1 hf
  exact (mem_preds_iff hg).2 (mem_flatMap.2 ⟨t, ht, mem_filter.2 ⟨hp, hpt⟩⟩)

end Dataflow.Graph

/-! ### Reading a list whose order may change -/

namespace Dataflow

/-- A permutation of a list of at most one element is that list. -/
theorem eq_of_perm_of_length_le_one {α : Type} {l₁ l₂ : List α} (h : l₁ ~ l₂)
    (hl : l₂.length ≤ 1) : l₁ = l₂ := by
  rcases l₂ with _ | ⟨a, _ | ⟨b, t⟩⟩
  · exact perm_nil.1 h
  · exact h.eq_singleton
  · simp at hl

/-- Two tests that no element passes together pass at most as many elements as there are. -/
theorem length_filter_add_le {α : Type} {p q : α → Bool} (hpq : ∀ x, p x = true → q x = false) :
    ∀ l : List α, (l.filter p).length + (l.filter q).length ≤ l.length
  | [] => Nat.le_refl 0
  | x :: l => by
    have ih := length_filter_add_le hpq l
    cases hp : p x
    · cases hq : q x <;> simp [hp, hq] <;> omega
    · simp [hp, hpq x hp]
      omega

/-- The first element of a mapped list. -/
theorem first_map {α β : Type} (f : α → β) (l : List α) : first (l.map f) = f <$> first l := by
  cases l <;> rfl

section Select

variable {σ : Nat → Nat} {l l' : List Node}

/-- The members passing a test that reads no index come in the same order in two orders of
a list when there is at most one. -/
theorem filter_eq_of_perm (hl : l' ~ l.map (Node.relabel σ)) {q : Node → Bool}
    (hq : ∀ n, q (n.relabel σ) = q n) (h1 : (l.filter q).length ≤ 1) :
    l'.filter q = (l.filter q).map (Node.relabel σ) := by
  refine eq_of_perm_of_length_le_one ?_ (by simpa using h1)
  have hf := hl.filter q
  rw [filter_map] at hf
  simpa [Function.comp_def, hq] using hf

/-- The only node of a list does not depend on its order. -/
theorem soleOp?_of_perm (hl : l' ~ l.map (Node.relabel σ)) (op : String) :
    soleOp? l' op = (soleOp? l op).map (Node.relabel σ) := by
  rcases l with _ | ⟨a, _ | ⟨b, t⟩⟩
  · rw [perm_nil.1 hl]
    rfl
  · rw [hl.eq_singleton]
    by_cases hop : a.isOp op = true <;> simp [soleOp?, hop]
  · -- neither list has exactly one member
    have hlen : l'.length = t.length + 2 := by simpa using hl.length_eq
    rcases l' with _ | ⟨x, _ | ⟨y, s⟩⟩
    · simp at hlen
    · simp at hlen
    · rfl

/-- Whether a list is empty does not depend on its order. -/
theorem isEmpty_of_perm (hl : l' ~ l.map (Node.relabel σ)) : l'.isEmpty = l.isEmpty := by
  rw [Bool.eq_iff_iff, List.isEmpty_iff, List.isEmpty_iff, ← length_eq_zero_iff, ← length_eq_zero_iff,
    hl.length_eq, length_map]

/-- The first member passing a test is the same in both orders when at most one passes. -/
theorem find?_of_perm (hl : l' ~ l.map (Node.relabel σ)) {q : Node → Bool}
    (hq : ∀ n, q (n.relabel σ) = q n) (h1 : (l.filter q).length ≤ 1) :
    l'.find? q = (l.find? q).map (Node.relabel σ) := by
  rw [← head?_filter, ← head?_filter, filter_eq_of_perm hl hq h1, head?_map]

/-- The last node of an operator type is the same in both orders when there is at most one. -/
theorem lastOp?_of_perm (hl : l' ~ l.map (Node.relabel σ)) {op : String}
    (h1 : (l.filter (·.isOp op)).length ≤ 1) :
    Pattern.lastOp? l' op = (Pattern.lastOp? l op).map (Node.relabel σ) := by
  unfold Pattern.lastOp?
  rw [filter_eq_of_perm hl (fun _ => rfl) h1, getLast?_map]

/-- A list without a node of an operator type has no last one. -/
theorem lastOp?_eq_none_of_length_eq_zero {op : String}
    (h0 : (l.filter (·.isOp op)).length = 0) : Pattern.lastOp? l op = none := by
  unfold Pattern.lastOp?
  rw [length_eq_zero_iff.1 h0]
  rfl

end Select

end Dataflow

/-! ### Two computations that agree up to renumbering -/

/-- When the first steps of two computations agree up to `F` and the rest agree up to `G`
from there, the computations agree up to `G`. -/
theorem map_bind_map {α α' β β' : Type} {x : Outcome α} {f : α → Outcome β}
    {f' : α' → Outcome β'} {F : α → α'} {G : β → β'}
    (hf : ∀ a, x = .ok a → f' (F a) = G <$> f a) : (F <$> x) >>= f' = G <$> (x >>= f) := by
  cases x with
  | error e => rfl
  | ok a => exact hf a rfl

/-- The same first step, followed by steps that agree up to `G`. -/
theorem bind_map_of_eq {α β β' : Type} {x : Outcome α} {f : α → Outcome β}
    {f' : α → Outcome β'} {G : β → β'} (hf : ∀ a, x = .ok a → f' a = G <$> f a) :
    x >>= f' = G <$> (x >>= f) := by
  cases x with
  | error e => rfl
  | ok a => exact hf a rfl

/-! ### Two orders of one node list -/

namespace Dataflow.Graph

/-- Two views of one model whose node lists hold the same nodes in another order: `g'` numbers
the nodes of `g` by `σ`, and both have the same initializers and declared shapes. -/
structure Reordered (σ : Nat → Nat) (g g' : Graph) : Prop where
  numbered : g.Numbered
  numbered' : g'.Numbered
  live : g'.live ~ g.live.map (Node.relabel σ)
  initializers : g'.initializers = g.initializers
  shapes : g'.shapes = g.shapes

namespace Reordered

variable {σ : Nat → Nat} {g g' : Graph} (h : Reordered σ g g')
include h

theorem mem_live {n : Node} (hn : n ∈ g.live) : n.relabel σ ∈ g'.live :=
  h.live.mem_iff.2 (mem_map_of_mem hn)

/-- The nodes of one index in a view are one node. -/
theorem eq_of_index_eq {a b : Node} (ha : a ∈ g.live) (hb : b ∈ g.live)
    (hab : a.index = b.index) : a = b :=
  inj_on_of_nodup_map h.numbered.distinctIndices.live ha hb hab

/-- Renumbering keeps distinct indices apart. -/
theorem index_inj {a b : Node} (ha : a ∈ g.live) (hb : b ∈ g.live)
    (hab : σ a.index = σ b.index) : a.index = b.index := by
  have hnd : ((g.live.map (Node.relabel σ)).map (·.index)).Nodup :=
    (h.live.map _).nodup_iff.1 h.numbered'.distinctIndices.live
  simp only [map_map] at hnd
  exact congrArg (·.index) (inj_on_of_nodup_map hnd ha hb hab)

theorem index_beq {a b : Node} (ha : a ∈ g.live) (hb : b ∈ g.live) :
    (σ a.index == σ b.index) = (a.index == b.index) := by
  rw [Bool.eq_iff_iff, beq_iff_eq, beq_iff_eq]
  exact ⟨h.index_inj ha hb, congrArg σ⟩

theorem initializer?_eq : g'.initializer? = g.initializer? := by
  funext t
  simp only [Graph.initializer?, Graph.initializerAs, h.initializers]

theorem isConstant_eq : g'.isConstant = g.isConstant := by
  funext t
  simp only [Graph.isConstant, h.initializer?_eq]

theorem shapeOf_eq : g'.shapeOf = g.shapeOf := by
  funext t
  simp only [Graph.shapeOf, h.shapes]

theorem successors {n : Node} (hn : n ∈ g.live) :
    g'.successors (n.relabel σ) = .ok (g'.succs (n.relabel σ)) :=
  successors_of_live h.numbered' (h.mem_live hn)

theorem predecessors {n : Node} (hn : n ∈ g.live) :
    g'.predecessors (n.relabel σ) = .ok (g'.preds (n.relabel σ)) :=
  predecessors_of_live h.numbered' (h.mem_live hn)

/-- The live nodes passing a test that reads no index are the same up to order. -/
theorem filter_live (q : Node → Bool) (hq : ∀ n, q (n.relabel σ) = q n) :
    g'.live.filter q ~ (g.live.filter q).map (Node.relabel σ) := by
  have hf := h.live.filter q
  rw [filter_map] at hf
  simpa [Function.comp_def, hq] using hf

/-- The successors of a node are the same up to order. -/
theorem succs (n : Node) : g'.succs (n.relabel σ) ~ (g.succs n).map (Node.relabel σ) :=
  h.filter_live _ fun _ => rfl

/-- The producers of a tensor are the same up to order. -/
theorem producers (t : String) : g'.producers t ~ (g.producers t).map (Node.relabel σ) :=
  h.filter_live _ fun _ => rfl

/-- The predecessors of a node are the same up to order. -/
theorem preds (n : Node) : g'.preds (n.relabel σ) ~ (g.preds n).map (Node.relabel σ) := by
  have hflat : n.inputs.flatMap g'.producers ~
      (n.inputs.flatMap g.producers).map (Node.relabel σ) := by
    rw [map_flatMap]
    exact Perm.flatMap_left _ fun t _ => h.producers t
  -- both lists keep one node per index; renumbering keeps the live indices apart
  have hkept : ∀ a ∈ g.preds n, a ∈ g.live := fun a ha =>
    mem_live_of_mem_flatMap_producers ((mem_preds_iff h.numbered).1 ha)
  have hnd' : (g'.preds (n.relabel σ)).Nodup := (dedup_nodup (by simp)).of_map _
  have hnd : ((g.preds n).map (Node.relabel σ)).Nodup := by
    refine Nodup.map_on (fun a ha b hb hab => ?_) ((dedup_nodup (by simp)).of_map _)
    exact h.eq_of_index_eq (hkept a ha) (hkept b hb)
      (h.index_inj (hkept a ha) (hkept b hb) (congrArg (·.index) hab))
  rw [perm_ext_iff_of_nodup hnd' hnd]
  intro x
  rw [mem_preds_iff h.numbered', Node.relabel_inputs, hflat.mem_iff, mem_map, mem_map]
  simp only [mem_preds_iff h.numbered]

/-- When every tensor a node reads has at most one producer, its predecessors come in the
same order in both views. -/
theorem preds_eq {n : Node} (hsingle : ∀ t ∈ n.inputs, (g.producers t).length ≤ 1) :
    g'.preds (n.relabel σ) = (g.preds n).map (Node.relabel σ) := by
  have hprod : ∀ t ∈ n.inputs, g'.producers t = (g.producers t).map (Node.relabel σ) :=
    fun t ht => eq_of_perm_of_length_le_one (h.producers t) (by simpa using hsingle t ht)
  have hflat : n.inputs.flatMap g'.producers =
      (n.inputs.flatMap g.producers).map (Node.relabel σ) := by
    rw [map_flatMap]
    exact flatMap_congr hprod
  unfold Graph.preds
  rw [Node.relabel_inputs, hflat, ← map_nil (f := Node.relabel σ)]
  exact dedup_map fun a ha b hb hab => h.index_inj
    (mem_live_of_mem_flatMap_producers (by simpa using ha))
    (mem_live_of_mem_flatMap_producers (by simpa using hb)) hab

/-- One step along a sole successor takes the same node in both views. -/
theorem soleSucc {β β' : Type} {x : Node} {op : String} {F : β → β'}
    {k : Node → Outcome (Option β)} {k' : Node → Outcome (Option β')} (hx : x ∈ g.live)
    (hk : ∀ y, g.succs x = [y] → y ∈ g.live → y.isOp op = true →
      k' (y.relabel σ) = Option.map F <$> k y) :
    (do
        let some y := soleOp? (← g'.successors (x.relabel σ)) op | return none
        k' y : Outcome (Option β')) =
      Option.map F <$> (do
        let some y := soleOp? (← g.successors x) op | return none
        k y : Outcome (Option β)) := by
  rw [ok_bind _ (h.successors hx), ok_bind _ (successors_of_live h.numbered hx),
    soleOp?_of_perm (h.succs x)]
  rcases hy : soleOp? (g.succs x) op with _ | y
  · rfl
  · obtain ⟨hs, hop⟩ := soleOp?_eq_some.1 hy
    exact hk y hs (mem_live_of_mem_succs (hs ▸ mem_singleton_self y)) hop

end Reordered

end Dataflow.Graph

/-! ### The recognisers in two orders -/

namespace Pattern

variable {σ : Nat → Nat} {g g' : Graph} (h : Graph.Reordered σ g g')
include h

/-- The convolution pattern takes the first normalisation among the successors, so it reads
the same one in both views when there is at most one. -/
theorem convBatchNorm_reordered {conv : Node} (hconv : conv ∈ g.live)
    (hbn : conv.isOp "ConvTranspose" = true →
      ((g.succs conv).filter (·.isOp "BatchNormalization")).length ≤ 1) :
    convBatchNorm g' (conv.relabel σ) = Option.map (Match.relabel σ) <$> convBatchNorm g conv := by
  unfold convBatchNorm
  rw [Node.isOp_relabel, Node.relabel_outputs]
  split
  · rfl
  · rename_i hop
    simp only [Bool.not_eq_true', Bool.not_eq_false] at hop
    split
    · rename_i out _
      rw [ok_bind _ (h.successors hconv), ok_bind _ (Graph.successors_of_live h.numbered hconv),
        find?_of_perm (h.succs conv) (fun _ => rfl) (hbn hop)]
      rcases hfind : (g.succs conv).find? (·.isOp "BatchNormalization") with _ | bn
      · simp only [hfind, Option.map_none]
        rfl
      · simp only [hfind, Option.map_some, Node.relabel_inputs]
        by_cases hc : (bn.inputs.head? != some out) = true <;> simp only [hc, ↓reduceIte] <;> rfl
    · rfl

/-- The logarithm pattern takes the first predecessor, so it reads the same one in both views
when each tensor the `Log` reads has at most one producer. -/
theorem logDiv_reordered {log : Node} (hlog : log ∈ g.live)
    (hsingle : log.isOp "Log" = true → ∀ t ∈ log.inputs, (g.producers t).length ≤ 1) :
    logDiv g' (log.relabel σ) = Option.map (Match.relabel σ) <$> logDiv g log := by
  unfold logDiv
  rw [Node.isOp_relabel, Node.relabel_inputs, Node.relabel_outputs]
  split
  · rfl
  · rename_i hop
    simp only [Bool.not_eq_true', Bool.not_eq_false] at hop
    split
    · rfl
    · rw [ok_bind _ (h.predecessors hlog), ok_bind _ (Graph.predecessors_of_live h.numbered hlog),
        h.preds_eq (hsingle hop), first_map]
      refine map_bind_map fun div _ => ?_
      rw [Node.isOp_relabel, Node.relabel_inputs, h.isConstant_eq]
      split
      · rfl
      · split <;> rfl

/-- The `Sub` after a mean is its sole successor in both views; its two successors are read
as a list, so they must come in the same order. -/
theorem centredOf_reordered {rm1 : Node} (hrm1 : rm1 ∈ g.live)
    (hsub : ∀ s ∈ g.succs rm1, s.isOp "Sub" = true →
      g'.succs (s.relabel σ) = (g.succs s).map (Node.relabel σ)) :
    centredOf g' (rm1.relabel σ) =
      Option.map (fun (s, x, l) => (s.relabel σ, x, l.map (Node.relabel σ))) <$>
        centredOf g rm1 := by
  unfold centredOf
  refine h.soleSucc hrm1 fun sub hs hsubLive hop => ?_
  rw [Node.relabel_inputs, Node.relabel_outputs]
  split
  · rw [ok_bind _ (h.successors hsubLive), ok_bind _ (Graph.successors_of_live h.numbered hsubLive),
      hsub sub (hs ▸ mem_singleton_self sub) hop, length_map, map_map]
    have hops : ((·.opType) ∘ Node.relabel σ : Node → String) = (·.opType) := rfl
    rw [hops]
    dsimp only
    split <;> rfl
  · rfl

theorem varianceOf_reordered {pown : Node} (hpown : pown ∈ g.live) :
    varianceOf g' (pown.relabel σ) =
      Option.map (fun (a, b, c, d) => (a.relabel σ, b.relabel σ, c.relabel σ, d.relabel σ)) <$>
        varianceOf g pown := by
  unfold varianceOf
  exact h.soleSucc hpown fun _ _ hrm2 _ => h.soleSucc hrm2 fun _ _ hadd _ =>
    h.soleSucc hadd fun _ _ hsqrt _ => h.soleSucc hsqrt fun _ _ _ _ => rfl

theorem affineOf_reordered {div : Node} (hdiv : div ∈ g.live) :
    affineOf g' (div.relabel σ) =
      Option.map (fun (tail, outs, sc, bi) => (tail.map (Node.relabel σ), outs, sc, bi)) <$>
        affineOf g div := by
  unfold affineOf
  refine h.soleSucc hdiv fun mul _ hmul _ => ?_
  rw [Node.relabel_inputs, Node.relabel_outputs, Node.relabel_outputs, h.initializer?_eq]
  dsimp only
  split
  · rfl
  · refine h.soleSucc hmul fun add _ _ _ => ?_
    rw [Node.relabel_inputs, Node.relabel_outputs]
    split <;> rfl

/-- The constants of a normalisation read no index. -/
theorem normConstants_reordered (rm1 rm2 addEps : Node) (shape : List Dim)
    (scale? bias? : Option Tensor) :
    normConstants g' (rm1.relabel σ) (rm2.relabel σ) (addEps.relabel σ) shape scale? bias? =
      normConstants g rm1 rm2 addEps shape scale? bias? := by
  unfold normConstants
  rw [Node.attr?_relabel, Node.relabel_outputs, Node.relabel_inputs, h.initializer?_eq]

/-- The layer-normalisation pattern reads the same nodes in both views when the two consumers
of its `Sub` come in the same order. -/
theorem layerNorm_reordered {rm1 : Node} (hrm1 : rm1 ∈ g.live)
    (hsub : rm1.isOp "ReduceMean" = true → ∀ s ∈ g.succs rm1, s.isOp "Sub" = true →
      g'.succs (s.relabel σ) = (g.succs s).map (Node.relabel σ)) :
    layerNorm g' (rm1.relabel σ) = Option.map (Match.relabel σ) <$> layerNorm g rm1 := by
  unfold layerNorm
  rw [Node.isOp_relabel]
  split
  · rfl
  · rename_i hmean
    simp only [Bool.not_eq_true', Bool.not_eq_false] at hmean
    rw [centredOf_reordered h hrm1 (hsub hmean)]
    refine map_bind_map fun c hc => ?_
    rcases c with _ | ⟨sub, x, pd⟩
    · rfl
    obtain ⟨hs, -, hpd, hlen⟩ := centredOf_eq_some hc
    -- the `Sub` has two successors; the walk goes on from the first
    obtain ⟨pown, q, rfl⟩ := length_eq_two.1 hlen
    have hpown : pown ∈ g.live := Graph.mem_live_of_mem_succs (hpd ▸ mem_cons_self)
    have hq : q ∈ g.live := Graph.mem_live_of_mem_succs (hpd ▸ mem_cons_of_mem _ mem_cons_self)
    simp only [Option.map_some, map_cons, map_nil]
    rw [ok_bind _ (rfl : first [pown.relabel σ, q.relabel σ] = .ok (pown.relabel σ)),
      ok_bind _ (rfl : first [pown, q] = .ok pown), varianceOf_reordered h hpown]
    refine map_bind_map fun v hv => ?_
    rcases v with _ | ⟨rm2, addEps, sqrt, div⟩
    · rfl
    obtain ⟨-, -, -, -, -, h4, -⟩ := varianceOf_eq_some hv
    have hdiv := Graph.mem_live_of_mem_succs (h4 ▸ mem_singleton_self div)
    simp only [Option.map_some, Node.relabel_outputs, h.shapeOf_eq]
    refine bind_map_of_eq fun divOut _ => bind_map_of_eq fun shape _ => ?_
    -- the second successor of the `Sub` is the `Div` in one view exactly when it is in the other
    simp only [drop_one, tail_cons, head?_cons, Option.map_some, Node.relabel_index]
    have hidx : (some (σ q.index) != some (σ div.index)) = (some q.index != some div.index) := by
      simp only [bne, Option.some_beq_some, h.index_beq hq hdiv]
    rw [hidx]
    by_cases hc : (some q.index != some div.index) = true <;> simp only [hc, ↓reduceIte]
    · rfl
    rw [affineOf_reordered h hdiv]
    refine map_bind_map fun a _ => ?_
    rcases a with _ | ⟨tail, outs, sc, bi⟩
    · rfl
    simp only [Option.map_some]
    rw [normConstants_reordered h]
    refine bind_map_of_eq fun o _ => ?_
    rcases o with _ | ⟨scale, bias, eps, axis⟩ <;> rfl

theorem reshapeFed_reordered {n : Node} (hn : n ∈ g.live) :
    reshapeFed g' (n.relabel σ) = reshapeFed g n := by
  unfold reshapeFed
  rw [ok_bind _ (h.predecessors hn), ok_bind _ (Graph.predecessors_of_live h.numbered hn),
    isEmpty_of_perm (h.preds n), soleOp?_of_perm (h.preds n), Option.isSome_map]

theorem scoresOf_reordered {softmax : Node} (hsm : softmax ∈ g.live) :
    scoresOf g' (softmax.relabel σ) =
      Option.map (fun (s, q, k) => (s.relabel σ, q, k)) <$> scoresOf g softmax := by
  unfold scoresOf
  rw [ok_bind _ (h.predecessors hsm), ok_bind _ (Graph.predecessors_of_live h.numbered hsm),
    soleOp?_of_perm (h.preds softmax)]
  rcases hs : soleOp? (g.preds softmax) "MatMul" with _ | scores
  · rfl
  simp only [Option.map_some, Node.relabel_outputs, h.shapeOf_eq]
  refine bind_map_of_eq fun out _ => bind_map_of_eq fun shape _ => ?_
  split
  · rfl
  · split
    · refine bind_map_of_eq fun qSeq _ => bind_map_of_eq fun kSeq _ => rfl
    · rfl

/-- Of the two predecessors of the scores, the `Div` and the key `Transpose` are the same in
both views: when one operator type takes both places, the other is missing in both. -/
theorem queryKeyOf_reordered {scores : Node} (hsc : scores ∈ g.live) :
    queryKeyOf g' (scores.relabel σ) =
      Option.map (fun (d, q, k, qi, ki) => (d.relabel σ, q.relabel σ, k.relabel σ, qi, ki)) <$>
        queryKeyOf g scores := by
  unfold queryKeyOf
  have hqk := h.preds scores
  rw [ok_bind _ (h.predecessors hsc), ok_bind _ (Graph.predecessors_of_live h.numbered hsc),
    hqk.length_eq, length_map]
  split
  · rfl
  rename_i hlen
  have h2 : (g.preds scores).length = 2 := by simpa using hlen
  have hsum := length_filter_add_le (p := (·.isOp "Div")) (q := (·.isOp "Transpose"))
    (fun n hn => by simp_all [Node.isOp]) (g.preds scores)
  by_cases hd : ((g.preds scores).filter (·.isOp "Div")).length ≤ 1
  · by_cases ht : ((g.preds scores).filter (·.isOp "Transpose")).length ≤ 1
    · rw [lastOp?_of_perm hqk hd, lastOp?_of_perm hqk ht]
      rcases hdiv : lastOp? (g.preds scores) "Div" with _ | div
      · rfl
      rcases hkt : lastOp? (g.preds scores) "Transpose" with _ | kTrans
      · rfl
      have hdivLive := (Graph.mem_preds (lastOp?_eq_some hdiv).1).1
      have hkLive := (Graph.mem_preds (lastOp?_eq_some hkt).1).1
      simp only [Option.map_some]
      rw [ok_bind _ (h.predecessors hdivLive),
        ok_bind _ (Graph.predecessors_of_live h.numbered hdivLive),
        isEmpty_of_perm (h.preds div), soleOp?_of_perm (h.preds div)]
      split
      · rfl
      rcases hq : soleOp? (g.preds div) "Transpose" with _ | qTrans
      · rfl
      have hqLive := (Graph.mem_preds (mem_of_soleOp?_eq_some hq)).1
      simp only [Option.map_some, reshapeFed_reordered h hqLive, reshapeFed_reordered h hkLive,
        Node.relabel_inputs]
      refine bind_map_of_eq fun b _ => ?_
      split
      · rfl
      refine bind_map_of_eq fun qIn _ => bind_map_of_eq fun b' _ => ?_
      split
      · rfl
      exact bind_map_of_eq fun kIn _ => rfl
    · -- both predecessors are `Transpose` nodes, so there is no `Div`
      have h0 : ((g.preds scores).filter (·.isOp "Div")).length = 0 := by omega
      rw [lastOp?_of_perm hqk ((Nat.le_of_eq h0).trans (Nat.zero_le 1)),
        lastOp?_eq_none_of_length_eq_zero h0]
      rfl
  · -- both predecessors are `Div` nodes, so there is no key `Transpose`
    have h0 : ((g.preds scores).filter (·.isOp "Transpose")).length = 0 := by omega
    rw [lastOp?_of_perm hqk ((Nat.le_of_eq h0).trans (Nat.zero_le 1)),
      lastOp?_eq_none_of_length_eq_zero h0]
    simp only [Option.map_none]
    split <;> split <;> rfl

/-- After the `Softmax`, the value `Transpose` is the last of the two predecessors of the
second `MatMul`; the `Softmax` is the other one, so there is at most one `Transpose` among
them. -/
theorem mixedOf_reordered {softmax : Node} (hsm : softmax ∈ g.live)
    (hop : softmax.isOp "Transpose" = false) :
    mixedOf g' (softmax.relabel σ) =
      Option.map (fun (m, v, vi, o) => (m.relabel σ, v.relabel σ, vi, o.relabel σ)) <$>
        mixedOf g softmax := by
  unfold mixedOf
  rw [ok_bind _ (h.successors hsm), ok_bind _ (Graph.successors_of_live h.numbered hsm),
    isEmpty_of_perm (h.succs softmax), soleOp?_of_perm (h.succs softmax)]
  dsimp only
  split
  · rfl
  rcases hm : soleOp? (g.succs softmax) "MatMul" with _ | mixed
  · rfl
  have hmSucc := mem_of_soleOp?_eq_some hm
  have hmLive := Graph.mem_live_of_mem_succs hmSucc
  have hpreds := h.preds mixed
  simp only [Option.map_some]
  rw [ok_bind _ (h.predecessors hmLive), ok_bind _ (Graph.predecessors_of_live h.numbered hmLive),
    hpreds.length_eq, length_map]
  by_cases h2 : (g.preds mixed).length = 2
  · have hsmPred : softmax ∈ g.preds mixed :=
      Graph.mem_preds_of_feeds h.numbered hsm (mem_filter.1 hmSucc).2
    have h1 : ((g.preds mixed).filter (·.isOp "Transpose")).length ≤ 1 := by
      have hlt := (length_filter_lt_length_iff_exists (p := (·.isOp "Transpose"))).2
        ⟨softmax, hsmPred, by simp [hop]⟩
      omega
    rw [lastOp?_of_perm hpreds h1]
    rcases hv : lastOp? (g.preds mixed) "Transpose" with _ | vTrans
    · rfl
    have hvLive := (Graph.mem_preds (lastOp?_eq_some hv).1).1
    have hne : ((g.preds mixed).length != 2) = false := by simp [h2]
    simp only [Option.map_some, hne, Bool.false_eq_true, ↓reduceIte, reshapeFed_reordered h hvLive,
      Node.relabel_inputs]
    refine bind_map_of_eq fun b _ => ?_
    split
    · rfl
    refine bind_map_of_eq fun vIn _ => ?_
    rw [ok_bind _ (h.successors hmLive), ok_bind _ (Graph.successors_of_live h.numbered hmLive),
      isEmpty_of_perm (h.succs mixed), soleOp?_of_perm (h.succs mixed)]
    split
    · rfl
    rcases ho : soleOp? (g.succs mixed) "Transpose" with _ | outTrans
    · rfl
    have hoLive := Graph.mem_live_of_mem_succs (mem_of_soleOp?_eq_some ho)
    simp only [Option.map_some]
    rw [ok_bind _ (h.successors hoLive), ok_bind _ (Graph.successors_of_live h.numbered hoLive),
      soleOp?_of_perm (h.succs outTrans)]
    rcases soleOp? (g.succs outTrans) "Reshape" with _ | r <;> rfl
  · -- the count of predecessors fails in both views, whichever `Transpose` is last
    have hne : ((g.preds mixed).length != 2) = true := by simpa using h2
    simp only [hne, ↓reduceIte]
    split <;> split <;> rfl

omit h in
/-- The scores found behind a `Softmax` are its only predecessor. -/
theorem scoresOf_eq_some {softmax scores : Node} {q k : Tensor}
    (ho : scoresOf g softmax = .ok (some (scores, q, k))) :
    ∃ ps, g.predecessors softmax = .ok ps ∧ soleOp? ps "MatMul" = some scores := by
  obtain ⟨hps, hop, -⟩ := scoresOf_inv ho
  exact ⟨[scores], hps, soleOp?_eq_some.2 ⟨rfl, hop⟩⟩

/-- The attention pattern reads the same nodes in both views. -/
theorem attention_reordered {softmax : Node} (hsm : softmax ∈ g.live) :
    attention g' (softmax.relabel σ) = Option.map (Match.relabel σ) <$> attention g softmax := by
  unfold attention
  rw [Node.isOp_relabel]
  split
  · rfl
  rename_i hop
  simp only [Bool.not_eq_true', Bool.not_eq_false] at hop
  rw [scoresOf_reordered h hsm]
  refine map_bind_map fun o ho => ?_
  rcases o with _ | ⟨scores, qSeq, kSeq⟩
  · rfl
  obtain ⟨ps, hps, hsole⟩ := scoresOf_eq_some ho
  rw [Graph.predecessors_of_live h.numbered hsm, Except.ok.injEq] at hps
  have hscLive := (Graph.mem_preds (hps ▸ mem_of_soleOp?_eq_some hsole)).1
  simp only [Option.map_some]
  rw [queryKeyOf_reordered h hscLive]
  refine map_bind_map fun o' _ => ?_
  rcases o' with _ | ⟨div, qTrans, kTrans, qIn, kIn⟩
  · rfl
  -- a `Softmax` is no `Transpose`
  have hnt : softmax.isOp "Transpose" = false := by
    simp only [Node.isOp, beq_iff_eq] at hop ⊢
    simp [hop]
  simp only [Option.map_some]
  rw [mixedOf_reordered h hsm hnt]
  refine map_bind_map fun o'' _ => ?_
  rcases o'' with _ | ⟨mixed, vTrans, vIn, outTrans⟩ <;> rfl

/-- Every pattern gives the same outcome at a node in both views, its matched nodes
renumbered, when a convolution has at most one normalisation among its consumers, each tensor
a `Log` reads has at most one producer, and the consumers of the `Sub` after a mean come in
the same order. -/
theorem run_reordered (p : Pattern) {n : Node} (hn : n ∈ g.live)
    (hbn : n.isOp "ConvTranspose" = true →
      ((g.succs n).filter (·.isOp "BatchNormalization")).length ≤ 1)
    (hlog : n.isOp "Log" = true → ∀ t ∈ n.inputs, (g.producers t).length ≤ 1)
    (hsub : n.isOp "ReduceMean" = true → ∀ s ∈ g.succs n, s.isOp "Sub" = true →
      g'.succs (s.relabel σ) = (g.succs s).map (Node.relabel σ)) :
    p.run g' (n.relabel σ) = Option.map (Match.relabel σ) <$> p.run g n := by
  unfold Pattern.run
  split
  · exact convBatchNorm_reordered h hn hbn
  · exact layerNorm_reordered h hn hsub
  · exact attention_reordered h hn
  · exact logDiv_reordered h hn hlog
  · rw [Node.isOp_relabel]
    split <;> rfl

end Pattern

/-! ### Two orders of one model -/

/-- `P'` lists the nodes of `P` in another order, the node at place `i` of `P` standing at
place `σ i` of `P'`, with the same initializers, inputs, outputs and intermediate values. -/
structure GraphDef.Permuted (σ : Nat → Nat) (P P' : GraphDef) : Prop where
  length : P'.nodes.length = P.nodes.length
  lt : ∀ i < P.nodes.length, σ i < P.nodes.length
  inj : ∀ i < P.nodes.length, ∀ j < P.nodes.length, σ i = σ j → i = j
  nodes : ∀ i < P.nodes.length, P'.nodes[σ i]? = P.nodes[i]?
  initializers : P'.initializers = P.initializers
  inputs : P'.inputs = P.inputs
  outputs : P'.outputs = P.outputs
  valueInfo : P'.valueInfo = P.valueInfo

namespace Dataflow

/-- The view of a node definition at another place is its view renumbered. -/
theorem Node.ofDef_relabel (σ : Nat → Nat) (i : Nat) (d : NodeDef) :
    Node.ofDef (σ i) d = Node.relabel σ <$> Node.ofDef i d := by
  unfold Node.ofDef
  cases d.attrs <;> rfl

/-- A definition whose view was built has attributes that read. -/
theorem attrs_ok_of_ofDef {i : Nat} {d : NodeDef} {n : Node} (h : Node.ofDef i d = .ok n) :
    ∃ a, d.attrs = .ok a := by
  unfold Node.ofDef at h
  cases ha : d.attrs with
  | error e =>
    rw [ha] at h
    cases h
  | ok a => exact ⟨a, rfl⟩

/-- The views built from a list of definitions are their views in place. -/
theorem nodesOf_getElem : ∀ {i : Nat} {ds : List NodeDef} {ns : List Node},
    nodesOf i ds = .ok ns → ns.length = ds.length ∧
      ∀ j (hd : j < ds.length) (hn : j < ns.length), Node.ofDef (i + j) ds[j] = .ok ns[j]
  | _, [], ns, h => by
    simp only [nodesOf, Except.ok.injEq] at h
    subst h
    simp
  | i, d :: rest, ns, h => by
    simp only [nodesOf, bind_eq_ok] at h
    obtain ⟨n, hn, ns', hns', h⟩ := h
    simp only [pure, Except.pure, Except.ok.injEq] at h
    subst h
    obtain ⟨hlen, hget⟩ := nodesOf_getElem hns'
    refine ⟨by simp [hlen], fun j hd hj => ?_⟩
    cases j with
    | zero => simpa using hn
    | succ j =>
      rw [show i + (j + 1) = i + 1 + j by omega]
      simpa using hget j (by simpa using hd) (by simpa using hj)

/-- A list of definitions whose attributes all read builds. -/
theorem nodesOf_ok : ∀ (i : Nat) (ds : List NodeDef), (∀ d ∈ ds, ∃ a, d.attrs = .ok a) →
    ∃ ns, nodesOf i ds = .ok ns
  | _, [], _ => ⟨[], rfl⟩
  | i, d :: rest, h => by
    obtain ⟨a, ha⟩ := h d mem_cons_self
    obtain ⟨ns, hns⟩ := nodesOf_ok (i + 1) rest fun d hd => h d (mem_cons_of_mem _ hd)
    refine ⟨⟨i, d.name, d.opType, d.inputs, d.outputs, a⟩ :: ns, ?_⟩
    simp only [nodesOf, Node.ofDef, ha, hns]
    rfl

end Dataflow

namespace GraphDef.Permuted

variable {σ : Nat → Nat} {P P' : GraphDef} (hP : P.Permuted σ P')
include hP

/-- The places of the nodes of `P` in `P'` are all the places. -/
theorem range_perm : (range P.nodes.length).map σ ~ range P.nodes.length := by
  refine ((nodup_range.map_on fun i hi j hj hij => ?_).subperm fun k hk => ?_).perm_of_length_le
    (by simp)
  · exact hP.inj i (mem_range.1 hi) j (mem_range.1 hj) hij
  · obtain ⟨i, hi, rfl⟩ := mem_map.1 hk
    exact mem_range.2 (hP.lt i (mem_range.1 hi))

/-- Every place of `P'` holds a node definition of `P`. -/
theorem mem_nodes {d : NodeDef} (hd : d ∈ P'.nodes) : d ∈ P.nodes := by
  obtain ⟨j, hj, rfl⟩ := getElem_of_mem hd
  have hjr : j ∈ (range P.nodes.length).map σ :=
    hP.range_perm.mem_iff.2 (mem_range.2 (hP.length ▸ hj))
  obtain ⟨i, hi, rfl⟩ := mem_map.1 hjr
  have hnode := hP.nodes i (mem_range.1 hi)
  rw [getElem?_eq_getElem hj] at hnode
  exact mem_of_getElem? hnode.symm

/-- The view of a model with its nodes listed in another order builds whenever the view of the
model does, and is that view reordered. -/
theorem ofDef_reordered {g : Graph} (hg : Graph.ofDef P = .ok g) :
    ∃ g', Graph.ofDef P' = .ok g' ∧ g.Reordered σ g' := by
  have hnum := Graph.ofDef_numbered hg
  simp only [Graph.ofDef, bind_eq_ok] at hg
  obtain ⟨ns, hns, hg⟩ := hg
  simp only [pure, Except.pure, Except.ok.injEq] at hg
  subst hg
  obtain ⟨hlen, hget⟩ := nodesOf_getElem hns
  obtain ⟨ns', hns'⟩ := nodesOf_ok 0 P'.nodes fun d hd => by
    obtain ⟨i, hi, rfl⟩ := getElem_of_mem (hP.mem_nodes hd)
    exact attrs_ok_of_ofDef (hget i hi (hlen ▸ hi))
  obtain ⟨hlen', hget'⟩ := nodesOf_getElem hns'
  have hg' : Graph.ofDef P' = .ok ⟨ns', [], P'.initializers, shapeTable P'⟩ := by
    simp only [Graph.ofDef, hns']
    rfl
  -- each node of `P` stands renumbered at its place in the second view
  have hsub : ns.map (Node.relabel σ) ⊆ ns' := by
    intro x hx
    obtain ⟨n, hn, rfl⟩ := mem_map.1 hx
    obtain ⟨i, hi, rfl⟩ := getElem_of_mem hn
    have hiP : i < P.nodes.length := hlen ▸ hi
    have hσ : σ i < P'.nodes.length := hP.length ▸ hP.lt i hiP
    have hd : P'.nodes[σ i] = P.nodes[i] := by
      have hnode := hP.nodes i hiP
      rwa [getElem?_eq_getElem hσ, getElem?_eq_getElem hiP, Option.some.injEq] at hnode
    have hview := hget' (σ i) hσ (hlen' ▸ hσ)
    have hown := hget i hiP hi
    rw [Nat.zero_add] at hview hown
    rw [hd, Node.ofDef_relabel, hown] at hview
    have heq : Node.relabel σ ns[i] = ns'[σ i] := Except.ok.inj hview
    rw [heq]
    exact getElem_mem _
  have hnd : (ns.map (Node.relabel σ)).Nodup := by
    refine Nodup.of_map (·.index) ?_
    have hidx : (ns.map (Node.relabel σ)).map (·.index) = (range P.nodes.length).map σ := by
      rw [map_map, show ((·.index) ∘ Node.relabel σ) = σ ∘ (·.index) from rfl, ← map_map,
        Graph.nodesOf_indices 0 P.nodes ns hns, ← range_eq_range']
    rw [hidx]
    exact hP.range_perm.nodup_iff.2 nodup_range
  refine ⟨_, hg', ⟨hnum, Graph.ofDef_numbered hg', ?_, hP.initializers, ?_⟩⟩
  · simp only [Graph.live, contains_nil, Bool.not_false, filter_true]
    exact ((hnd.subperm hsub).perm_of_length_le (by simp [hlen, hlen', hP.length])).symm
  · simp only [shapeTable, hP.inputs, hP.outputs, hP.valueInfo]

end GraphDef.Permuted

/-! ### Recognition in two orders of one model -/

/-- Recognising a fusion does not depend on the order in which a model lists its nodes. The
view of a model with its nodes listed in another order builds whenever the view of the model
does, and every pattern gives the same outcome at a node in both views, its matched nodes
renumbered, as long as the three steps that read an order do not meet two candidates: a
convolution has at most one normalisation among its consumers, each tensor a `Log` reads has
at most one producer, and the consumers of the `Sub` after a mean come in the same order. -/
theorem recognition_independent_of_node_order {σ : Nat → Nat} {P P' : GraphDef}
    (hP : P.Permuted σ P') {g : Graph} (hg : Graph.ofDef P = .ok g) :
    ∃ g', Graph.ofDef P' = .ok g' ∧ ∀ (p : Pattern), ∀ n ∈ g.live,
      (n.isOp "ConvTranspose" = true →
        ((g.succs n).filter (·.isOp "BatchNormalization")).length ≤ 1) →
      (n.isOp "Log" = true → ∀ t ∈ n.inputs, (g.producers t).length ≤ 1) →
      (n.isOp "ReduceMean" = true → ∀ s ∈ g.succs n, s.isOp "Sub" = true →
        g'.succs (s.relabel σ) = (g.succs s).map (Node.relabel σ)) →
      p.run g' (n.relabel σ) = Option.map (Match.relabel σ) <$> p.run g n := by
  obtain ⟨g', hg', h⟩ := hP.ofDef_reordered hg
  exact ⟨g', hg', fun p n hn hbn hlog hsub => Pattern.run_reordered h p hn hbn hlog hsub⟩

/-- A quotient under a logarithm, the `Div` listed first. -/
def quotientModel : GraphDef where
  nodes := [⟨"Div", "d", ["a", "b"], ["c"], []⟩, ⟨"Log", "l", ["c"], ["y"], []⟩]
  initializers := []
  inputs := []
  outputs := []
  valueInfo := []

/-- The same model with the `Log` listed first. -/
def quotientModelSwapped : GraphDef :=
  { quotientModel with nodes := quotientModel.nodes.reverse }

theorem quotient_recognised_in_either_order :
    quotientModel.Permuted (fun i => 1 - i) quotientModelSwapped ∧
      ∃ g, Graph.ofDef quotientModel = .ok g ∧
        ∃ g', Graph.ofDef quotientModelSwapped = .ok g' ∧ ∀ (p : Pattern), ∀ n ∈ g.live,
          (n.isOp "ConvTranspose" = true →
            ((g.succs n).filter (·.isOp "BatchNormalization")).length ≤ 1) →
          (n.isOp "Log" = true → ∀ t ∈ n.inputs, (g.producers t).length ≤ 1) →
          (n.isOp "ReduceMean" = true → ∀ s ∈ g.succs n, s.isOp "Sub" = true →
            g'.succs (s.relabel fun i => 1 - i) =
              (g.succs s).map (Node.relabel fun i => 1 - i)) →
          p.run g' (n.relabel fun i => 1 - i) =
            Option.map (Match.relabel fun i => 1 - i) <$> p.run g n := by
  have hP : quotientModel.Permuted (fun i => 1 - i) quotientModelSwapped := by
    refine ⟨rfl, by decide, by decide, fun i hi => ?_, rfl, rfl, rfl, rfl⟩
    have hi2 : i < 2 := hi
    interval_cases i <;> rfl
  exact ⟨hP, _, rfl, recognition_independent_of_node_order hP rfl⟩

/-- A transposed convolution read by two normalisations. -/
def convReaders : GraphDef where
  nodes := [⟨"ConvTranspose", "conv", ["x", "w"], ["c"], []⟩,
    ⟨"BatchNormalization", "bn1", ["c"], ["y1"], []⟩,
    ⟨"BatchNormalization", "bn2", ["c"], ["y2"], []⟩]
  initializers := []
  inputs := []
  outputs := []
  valueInfo := []

/-- The places of the two normalisations traded. -/
def swapReaders (i : Nat) : Nat := if i = 1 then 2 else if i = 2 then 1 else i

/-- The same model with the two normalisations listed the other way round. -/
def convReadersSwapped : GraphDef :=
  { convReaders with
    nodes := [⟨"ConvTranspose", "conv", ["x", "w"], ["c"], []⟩,
      ⟨"BatchNormalization", "bn2", ["c"], ["y2"], []⟩,
      ⟨"BatchNormalization", "bn1", ["c"], ["y1"], []⟩] }

/-- With two normalisations reading the convolution, the pattern takes the one listed first,
so listing them the other way round changes the match: in the first order it is the
convolution with `bn1`, at places 0 and 2 of the second order, and in the second order the
convolution with `bn2`, at places 0 and 1. -/
theorem convBatchNorm_second_reader :
    convReaders.Permuted swapReaders convReadersSwapped ∧
      ∃ g g', Graph.ofDef convReaders = .ok g ∧ Graph.ofDef convReadersSwapped = .ok g' ∧
        ∃ conv ∈ g.live, ∃ m m', Pattern.convBatchNorm g conv = .ok (some m) ∧
          Pattern.convBatchNorm g' (conv.relabel swapReaders) = .ok (some m') ∧
          (m.relabel swapReaders).indices = [0, 2] ∧ m.outputs = ["y1"] ∧
          m'.indices = [0, 1] ∧ m'.outputs = ["y2"] := by
  refine ⟨⟨rfl, by decide, by decide, fun i hi => ?_, rfl, rfl, rfl, rfl⟩,
    _, _, rfl, rfl, _, mem_cons_self, _, _, rfl, rfl, rfl, rfl, rfl, rfl⟩
  have hi3 : i < 3 := hi
  interval_cases i <;> rfl

/-- A `Log` of a tensor that a `Div` and a `Relu` both write, the `Div` listed first. -/
def twoWriterLog : GraphDef where
  nodes := [⟨"Div", "d", ["a", "b"], ["c"], []⟩, ⟨"Relu", "r", ["x"], ["c"], []⟩,
    ⟨"Log", "l", ["c"], ["y"], []⟩]
  initializers := []
  inputs := []
  outputs := []
  valueInfo := []

/-- The places of the first two nodes traded. -/
def swapLeading (i : Nat) : Nat := if i = 0 then 1 else if i = 1 then 0 else i

/-- The same model with the `Relu` listed first. -/
def twoWriterLogSwapped : GraphDef :=
  { twoWriterLog with
    nodes := [⟨"Relu", "r", ["x"], ["c"], []⟩, ⟨"Div", "d", ["a", "b"], ["c"], []⟩,
      ⟨"Log", "l", ["c"], ["y"], []⟩] }

/-- A decomposed layer normalisation over the last axis whose `Mul` reads no initializer. -/
def normModel : GraphDef where
  nodes := [⟨"ReduceMean", "rm1", ["x"], ["m"], [{ name := "axes", ints := [-1] }]⟩,
    ⟨"Sub", "sub", ["x", "m"], ["d"], []⟩, ⟨"Pow", "pow", ["d", "two"], ["p"], []⟩,
    ⟨"ReduceMean", "rm2", ["p"], ["v"], [{ name := "axes", ints := [-1] }]⟩,
    ⟨"Add", "addEps", ["v", "eps"], ["ve"], []⟩, ⟨"Sqrt", "sqrt", ["ve"], ["sd"], []⟩,
    ⟨"Div", "div", ["d", "sd"], ["nrm"], []⟩, ⟨"Mul", "mul", ["nrm", "gamma"], ["y"], []⟩]
  initializers := [("eps", Tensor.scalar .float32 (.int 1))]
  inputs := []
  outputs := []
  valueInfo := [⟨"nrm", "float32", some [.size 1, .size 4]⟩]

/-- The place of each node when the normalising `Div` moves in front of the `Pow`. -/
def divFirst (i : Nat) : Nat := if i = 6 then 2 else if 2 ≤ i ∧ i < 6 then i + 1 else i

/-- The same model with the normalising `Div` listed right after the `Sub`. -/
def normModelDivFirst : GraphDef :=
  { normModel with
    nodes := [⟨"ReduceMean", "rm1", ["x"], ["m"], [{ name := "axes", ints := [-1] }]⟩,
      ⟨"Sub", "sub", ["x", "m"], ["d"], []⟩, ⟨"Div", "div", ["d", "sd"], ["nrm"], []⟩,
      ⟨"Pow", "pow", ["d", "two"], ["p"], []⟩,
      ⟨"ReduceMean", "rm2", ["p"], ["v"], [{ name := "axes", ints := [-1] }]⟩,
      ⟨"Add", "addEps", ["v", "eps"], ["ve"], []⟩, ⟨"Sqrt", "sqrt", ["ve"], ["sd"], []⟩,
      ⟨"Mul", "mul", ["nrm", "gamma"], ["y"], []⟩] }

/-- With two writers of the tensor a `Log` reads, the pattern looks at the one listed first:
the quotient is recognised when the `Div` is listed first and not when the `Relu` is. -/
theorem quotient_second_writer :
    twoWriterLog.Permuted swapLeading twoWriterLogSwapped ∧
      ∃ g g', Graph.ofDef twoWriterLog = .ok g ∧ Graph.ofDef twoWriterLogSwapped = .ok g' ∧
        ∃ log ∈ g.live, (∃ m, Pattern.logDiv g log = .ok (some m) ∧ m.indices = [0, 2]) ∧
          Pattern.logDiv g' (log.relabel swapLeading) = .ok none := by
  refine ⟨⟨rfl, by decide, by decide, fun i hi => ?_, rfl, rfl, rfl, rfl⟩,
    _, _, rfl, rfl, _, mem_cons_of_mem _ (mem_cons_of_mem _ mem_cons_self), ⟨_, rfl, rfl⟩, rfl⟩
  have hi3 : i < 3 := hi
  interval_cases i <;> rfl

/-- The pattern takes the first consumer of the `Sub` as the `Pow`: listing the normalising
`Div` before the `Pow` loses the match. -/
theorem norm_div_listed_first :
    normModel.Permuted divFirst normModelDivFirst ∧
      ∃ g g', Graph.ofDef normModel = .ok g ∧ Graph.ofDef normModelDivFirst = .ok g' ∧
        ∃ rm1 ∈ g.live, (∃ m, Pattern.layerNorm g rm1 = .ok (some m)) ∧
          Pattern.layerNorm g' (rm1.relabel divFirst) = .ok none := by
  refine ⟨⟨rfl, by decide, by decide, fun i hi => ?_, rfl, rfl, rfl, rfl⟩,
    _, _, rfl, rfl, _, mem_cons_self, ⟨_, rfl⟩, rfl⟩
  have hi8 : i < 8 := hi
  interval_cases i <;> rfl

/-- Recognition depends on the order of the node list in each of the three cases the
independence of node order leaves out: a transposed convolution read by two normalisations,
a `Log` of a tensor with two writers, and a layer normalisation whose `Sub` has its
consumers listed the other way round. -/
theorem node_order_changes_recognition :
    (convReaders.Permuted swapReaders convReadersSwapped ∧
      ∃ g g', Graph.ofDef convReaders = .ok g ∧ Graph.ofDef convReadersSwapped = .ok g' ∧
        ∃ conv ∈ g.live, ∃ m m', Pattern.convBatchNorm g conv = .ok (some m) ∧
          Pattern.convBatchNorm g' (conv.relabel swapReaders) = .ok (some m') ∧
          (m.relabel swapReaders).indices = [0, 2] ∧ m.outputs = ["y1"] ∧
          m'.indices = [0, 1] ∧ m'.outputs = ["y2"]) ∧
    (twoWriterLog.Permuted swapLeading twoWriterLogSwapped ∧
      ∃ g g', Graph.ofDef twoWriterLog = .ok g ∧ Graph.ofDef twoWriterLogSwapped = .ok g' ∧
        ∃ log ∈ g.live, (∃ m, Pattern.logDiv g log = .ok (some m) ∧ m.indices = [0, 2]) ∧
          Pattern.logDiv g' (log.relabel swapLeading) = .ok none) ∧
    (normModel.Permuted divFirst normModelDivFirst ∧
      ∃ g g', Graph.ofDef normModel = .ok g ∧ Graph.ofDef normModelDivFirst = .ok g' ∧
        ∃ rm1 ∈ g.live, (∃ m, Pattern.layerNorm g rm1 = .ok (some m)) ∧
          Pattern.layerNorm g' (rm1.relabel divFirst) = .ok none) :=
  ⟨convBatchNorm_second_reader, quotient_second_writer, norm_div_listed_first⟩

end OnnxFusion

import Mathlib
import OnnxFusion.Proofs.Matcher.Greedy
/-!
# When matching raises no fault

The recognisers read successor and predecessor lists, declared shapes and initializers as
they walk from their anchor, and some of these reads can fail. `matchAll_succeeds` names
conditions on the graph under which none does: then every pattern answers at every live node,
and matching the whole graph returns a list of matches, with overlap or without.

The conditions are of two kinds.

* What the shapes must be (`Graph.DeclaresShapes`, `Graph.ShapesFit`): every tensor a node
  writes has a declared shape of sizes; the sizes fit 32 bits, since the attention pattern
  stores two of them as an int32 array; and float32 arrays over the sizes fit in memory, since
  the layer-normalisation pattern makes its missing scale and bias over trailing ones.
* Where the walks must not come to a dead end (`Graph.Walkable`): a `Log` has a producer,
  every `Transpose` reads and every `Div` writes a tensor, the `Softmax` of an attention block
  and the `MatMul` after it have consumers, the axes of a mean are a list and the epsilon of a
  normalisation is a one-element initializer.

The sizes are a real limit: `attention_sequence_overflow` is a graph whose shapes are all
declared, where matching fails because a sequence length does not fit 32 bits.

Each recogniser has its lemma (`convBatchNorm_ok`, `logDiv_ok`, `layerNorm_ok`,
`attention_ok`), built from one lemma per step of its walk; `run_ok` collects them and
`matchNodes_ok` runs them over the schedule.
-/

set_option autoImplicit false

namespace OnnxFusion

open Dataflow Proofs List

/-- A computation that succeeds passes its result on. -/
theorem ok_bind {α β : Type} {x : Outcome α} {a : α} (f : α → Outcome β) (hx : x = .ok a) :
    x >>= f = f a := by
  rw [hx]
  rfl

/-! ### Numbered views -/

namespace Dataflow.Graph

variable {g : Graph}

/-- The nodes are numbered by their place in the list. -/
def Numbered (g : Graph) : Prop := g.nodes.map (·.index) = range g.nodes.length

instance : DecidablePred Numbered := fun g =>
  inferInstanceAs (Decidable (g.nodes.map (·.index) = range g.nodes.length))

/-- Every view built from a model is numbered. -/
theorem ofDef_numbered {d : GraphDef} (h : Graph.ofDef d = .ok g) : g.Numbered := by
  simp only [Graph.ofDef, bind, Except.bind] at h
  split at h
  · cases h
  · rename_i ns hns
    simp only [pure, Except.pure, Except.ok.injEq] at h
    subst h
    have hmap := nodesOf_indices 0 d.nodes ns hns
    have hlen : ns.length = d.nodes.length := by simpa using congrArg length hmap
    show ns.map (·.index) = range ns.length
    rw [hmap, hlen, range_eq_range']

/-- A numbered view has distinct indices. -/
theorem Numbered.distinctIndices (hg : g.Numbered) : g.DistinctIndices := by
  unfold DistinctIndices
  rw [hg]
  exact nodup_range

/-- In a numbered view the live nodes are the ones the graph answers for. -/
theorem Numbered.isLive (hg : g.Numbered) {n : Node} (hn : n ∈ g.live) :
    g.isLive n.index = true := by
  obtain ⟨hmem, hrem⟩ := mem_filter.1 hn
  have hlt : n.index < g.nodes.length := by
    have hidx := mem_map_of_mem (f := (·.index)) hmem
    rw [hg, mem_range] at hidx
    exact hidx
  unfold Graph.isLive
  simp only [Bool.and_eq_true, Bool.not_eq_true', decide_eq_true_eq]
  exact ⟨by simpa using hrem, hlt⟩

theorem successors_of_live (hg : g.Numbered) {n : Node} (hn : n ∈ g.live) :
    g.successors n = .ok (g.succs n) := by
  simp [successors, hg.isLive hn]

theorem predecessors_of_live (hg : g.Numbered) {n : Node} (hn : n ∈ g.live) :
    g.predecessors n = .ok (g.preds n) := by
  simp [predecessors, hg.isLive hn]

/-- Keeping the first node of each index keeps nodes of the list or of the start. -/
theorem mem_dedup : ∀ {l acc : List Node} {n : Node}, n ∈ dedup l acc → n ∈ l ∨ n ∈ acc
  | [], acc, n, h => by
    simp only [dedup, mem_reverse] at h
    exact .inr h
  | x :: l, acc, n, h => by
    unfold dedup at h
    split at h
    · rcases mem_dedup h with h | h
      · exact .inl (mem_cons_of_mem _ h)
      · exact .inr h
    · rcases mem_dedup h with h | h
      · exact .inl (mem_cons_of_mem _ h)
      · rcases mem_cons.1 h with rfl | h
        · exact .inl mem_cons_self
        · exact .inr h

/-- A predecessor is a live node that writes a tensor the node reads. -/
theorem mem_preds {p c : Node} (h : p ∈ g.preds c) :
    p ∈ g.live ∧ ∃ t ∈ c.inputs, t ∈ p.outputs := by
  rcases mem_dedup h with h | h
  · simp only [mem_flatMap, producers, mem_filter, List.contains_iff_mem] at h
    obtain ⟨t, ht, hp, hout⟩ := h
    exact ⟨hp, t, ht, hout⟩
  · simp at h

end Dataflow.Graph

/-- The last node of an operator type in a list is in the list and of that type. -/
theorem Pattern.lastOp?_eq_some {ns : List Node} {op : String} {n : Node}
    (h : Pattern.lastOp? ns op = some n) : n ∈ ns ∧ n.isOp op = true :=
  mem_filter.1 (mem_of_getLast? h)

/-- The only node of a one-element list is in the list. -/
theorem mem_of_soleOp?_eq_some {ns : List Node} {op : String} {n : Node}
    (h : soleOp? ns op = some n) : n ∈ ns := by
  rw [(soleOp?_eq_some.1 h).1]
  exact mem_singleton_self n

/-! ### What the graph must provide -/

/-- The declared shape of the given sizes. -/
def Dim.sizes (ks : List Nat) : List Dim := ks.map fun k : Nat => .size (k : Int)

theorem Dim.sizes_drop (ks : List Nat) (j : Nat) : (Dim.sizes ks).drop j = Dim.sizes (ks.drop j) :=
  map_drop.symm

/-- The declared shapes of the given sizes are those sizes. -/
theorem Dim.sizes_inj {ks ks' : List Nat} (h : Dim.sizes ks = Dim.sizes ks') : ks = ks' := by
  refine map_injective_iff.2 (fun a b hab => ?_) h
  injection hab with hab
  exact Int.ofNat.inj hab

namespace Dataflow.Graph

/-- Every tensor a live node writes has a declared shape, a non-empty list of sizes. -/
def DeclaresShapes (g : Graph) : Prop :=
  ∀ n ∈ g.live, ∀ t ∈ n.outputs,
    ∃ ks : List Nat, ks ≠ [] ∧ g.shapeOf t = .ok (Dim.sizes ks)

/-- Every declared size of a tensor a live node writes fits 32 bits, and a float32 array over
its non-zero sizes fits in memory. -/
def ShapesFit (g : Graph) : Prop :=
  ∀ n ∈ g.live, ∀ t ∈ n.outputs, ∀ ks : List Nat, g.shapeOf t = .ok (Dim.sizes ks) →
    (∀ k ∈ ks, k < Nat.pow 2 31) ∧ 4 * (ks.filter (· ≠ 0)).prod ≤ Tensor.memoryLimit

/-- The walks of the recognisers come to no dead end: the nodes and constants they read on
their way are there. -/
structure Walkable (g : Graph) : Prop where
  /-- A `Log` that reads a tensor and writes one has a producer. -/
  logFed : ∀ n ∈ g.live, n.isOp "Log" = true → n.inputs ≠ [] → n.outputs.length = 1 →
    g.preds n ≠ []
  /-- Every `Transpose` reads a tensor. -/
  transposeReads : ∀ n ∈ g.live, n.isOp "Transpose" = true → n.inputs ≠ []
  /-- Every `Div` writes a tensor. -/
  divWrites : ∀ n ∈ g.live, n.isOp "Div" = true → n.outputs ≠ []
  /-- A `Softmax` whose only producer is a `MatMul` has a consumer. -/
  softmaxRead : ∀ n ∈ g.live, n.isOp "Softmax" = true →
    (soleOp? (g.preds n) "MatMul").isSome = true → g.succs n ≠ []
  /-- A `MatMul` that is the only consumer of a `Softmax` has a consumer. -/
  mixedRead : ∀ s ∈ g.live, s.isOp "Softmax" = true → ∀ m,
    soleOp? (g.succs s) "MatMul" = some m → g.succs m ≠ []
  /-- The axes of a `ReduceMean`, when given, are a list. -/
  axesListed : ∀ n ∈ g.live, n.isOp "ReduceMean" = true → ∀ v, n.attr? "axes" = some v →
    ∃ vs, v = .list vs
  /-- The `Add` that is the only consumer of a `ReduceMean` reads, as its last operand the
  mean does not write, an initializer of one element. -/
  epsilonScalar : ∀ m ∈ g.live, m.isOp "ReduceMean" = true → ∀ a, g.succs m = [a] →
    a.isOp "Add" = true → ∃ t, ((a.inputs.filter fun i => !m.outputs.contains i).getLast?).bind
      g.initializer? = some t ∧ t.elems.length = 1

end Dataflow.Graph

/-! ### The two patterns of two nodes -/

namespace Pattern

variable {g : Graph} (hg : g.Numbered) {n : Node} (hn : n ∈ g.live)
include hg hn

theorem convBatchNorm_ok : ∃ o, Pattern.convBatchNorm g n = .ok o := by
  unfold Pattern.convBatchNorm
  split
  · exact ⟨_, rfl⟩
  · split
    · rw [ok_bind _ (Graph.successors_of_live hg hn)]
      split
      · split <;> exact ⟨_, rfl⟩
      · exact ⟨_, rfl⟩
    · exact ⟨_, rfl⟩

theorem logDiv_ok (hw : g.Walkable) : ∃ o, Pattern.logDiv g n = .ok o := by
  unfold Pattern.logDiv
  split
  · exact ⟨_, rfl⟩
  · rename_i hlog
    split
    · exact ⟨_, rfl⟩
    · rename_i hshape
      simp only [Bool.not_eq_true', Bool.not_eq_false] at hlog
      simp only [Bool.or_eq_true, List.isEmpty_iff, bne_iff_ne, ne_eq, not_or,
        Decidable.not_not] at hshape
      -- the `Log` has a producer, so its first predecessor is there
      obtain ⟨d, ds, hds⟩ := exists_cons_of_ne_nil (hw.logFed n hn hlog hshape.1 hshape.2)
      rw [ok_bind _ (Graph.predecessors_of_live hg hn), hds,
        ok_bind _ (rfl : first (d :: ds) = .ok d)]
      split
      · exact ⟨_, rfl⟩
      · split <;> exact ⟨_, rfl⟩

end Pattern

/-! ### Arrays over declared sizes -/

namespace Tensor

/-- The product of the non-zero sizes is positive. -/
theorem prod_nonzero_pos : ∀ ks : List Nat, 0 < (ks.filter (· ≠ 0)).prod
  | [] => by simp
  | k :: ks => by
    by_cases hk : k = 0
    · simpa [hk] using prod_nonzero_pos ks
    · simpa [hk] using Nat.mul_pos (Nat.pos_of_ne_zero hk) (prod_nonzero_pos ks)

/-- Dropping leading sizes does not raise the product of the non-zero ones. -/
theorem prod_nonzero_drop_le : ∀ (ks : List Nat) (j : Nat),
    ((ks.drop j).filter (· ≠ 0)).prod ≤ (ks.filter (· ≠ 0)).prod
  | _, 0 => Nat.le_refl _
  | [], _ + 1 => by simp
  | k :: ks, j + 1 => by
    have hle := prod_nonzero_drop_le ks j
    by_cases hk : k = 0
    · simpa [hk] using hle
    · simp only [drop_succ_cons, filter_cons, hk, ne_eq, not_false_eq_true, decide_true,
        if_true, prod_cons]
      exact Nat.le_trans hle (Nat.le_mul_of_pos_left _ (Nat.pos_of_ne_zero hk))

/-- The span of non-negative sizes is the product of the non-zero ones, when that stays
within the largest array. -/
theorem spanOf_sizes : ∀ (b : Nat) (ks : List Nat),
    b * (ks.filter (· ≠ 0)).prod ≤ maxArrayBytes →
      spanOf b (ks.map fun k : Nat => (k : Int)) = .ok (b * (ks.filter (· ≠ 0)).prod)
  | b, [], _ => by simp [spanOf]
  | b, k :: ks, h => by
    by_cases hk : k = 0
    · subst hk
      simp only [filter_cons, ne_eq, not_true_eq_false, decide_false, Bool.false_eq_true,
        if_false] at h ⊢
      simp only [map_cons, spanOf]
      exact spanOf_sizes b ks h
    · simp only [filter_cons, hk, ne_eq, not_false_eq_true, decide_true, if_true,
        prod_cons] at h ⊢
      -- the running span is bounded by the whole span
      have hbk : b * k ≤ maxArrayBytes :=
        Nat.le_trans (Nat.le_mul_of_pos_right _ (prod_nonzero_pos ks)) (by rwa [← Nat.mul_assoc] at h)
      have hk' : ((k : Int) == 0) = false := by simpa using hk
      simp only [map_cons, spanOf, hk', Bool.false_eq_true, if_false, Int.toNat_natCast]
      rw [if_neg (by omega), if_neg (by omega), ← Nat.mul_assoc]
      exact spanOf_sizes (b * k) ks (by rwa [Nat.mul_assoc])

/-- Mapping sizes to a result is the list of sizes, for a map that reads a size as itself. -/
theorem mapM_sizes (f : Dim → Outcome Int) (hf : ∀ k : Nat, f (.size k) = .ok k) :
    ∀ ks : List Nat, (Dim.sizes ks).mapM f = .ok (ks.map fun k : Nat => (k : Int))
  | [] => rfl
  | k :: ks => by
    have ih := mapM_sizes f hf ks
    simp only [Dim.sizes] at ih ⊢
    simp only [map_cons, mapM_cons, hf, ih]
    rfl

end Tensor

namespace Pattern

/-- A trailing part of a list that may count from the end is a drop. -/
theorem dropFrom_eq_drop {α : Type} (xs : List α) (start : Int) :
    ∃ j, dropFrom xs start = xs.drop j := by
  unfold dropFrom
  split
  · exact ⟨_, rfl⟩
  · exact ⟨_, rfl⟩

/-- An array over trailing declared sizes can be made when one over the non-zero sizes fits in
memory. -/
theorem sizesOf_ok (ks : List Nat) (j : Nat)
    (h : 4 * (ks.filter (· ≠ 0)).prod ≤ Tensor.memoryLimit) :
    ∃ ns, sizesOf ((Dim.sizes ks).drop j) = .ok ns := by
  rw [Dim.sizes_drop]
  have hdrop : 4 * ((ks.drop j).filter (· ≠ 0)).prod ≤ Tensor.memoryLimit :=
    Nat.le_trans (Nat.mul_le_mul_left 4 (Tensor.prod_nonzero_drop_le ks j)) h
  have hmax : 4 * ((ks.drop j).filter (· ≠ 0)).prod ≤ Tensor.maxArrayBytes :=
    Nat.le_trans hdrop (by decide)
  have hspan : Tensor.spanOf DType.float32.itemSize _ = _ := Tensor.spanOf_sizes 4 _ hmax
  unfold sizesOf Tensor.allocation
  rw [ok_bind _ (Tensor.mapM_sizes _ (fun _ => rfl) _), ok_bind _ hspan]
  dsimp only
  rw [if_pos (by simp only [hdrop, decide_true, Bool.or_true])]
  exact ⟨_, rfl⟩

/-- The only element of a one-element tensor is read. -/
theorem soleValue_ok {t : Tensor} (h : t.elems.length = 1) : ∃ x, soleValue t = .ok x := by
  obtain ⟨x, hx⟩ := length_eq_one_iff.1 h
  unfold soleValue
  rw [hx]
  exact ⟨_, rfl⟩

end Pattern

/-! ### The layer-normalisation walk -/

namespace Pattern

variable {g : Graph} (hg : g.Numbered)
include hg

/-- One step along a sole successor answers when the rest of the walk does. -/
theorem soleSucc_ok {β : Type} {x : Node} {op : String} {k : Node → Outcome (Option β)}
    (hx : x ∈ g.live) (hk : ∀ y, g.succs x = [y] → y ∈ g.live → y.isOp op = true →
      ∃ o, k y = .ok o) :
    ∃ o, (do
        let some y := soleOp? (← g.successors x) op | return none
        k y : Outcome (Option β)) = .ok o := by
  rw [ok_bind _ (Graph.successors_of_live hg hx)]
  split
  · rename_i y hy
    obtain ⟨hs, hop⟩ := soleOp?_eq_some.1 hy
    exact hk y hs (Graph.mem_live_of_mem_succs (hs ▸ mem_singleton_self y)) hop
  · exact ⟨_, rfl⟩

theorem centredOf_ok {rm1 : Node} (hrm1 : rm1 ∈ g.live) : ∃ o, centredOf g rm1 = .ok o := by
  refine soleSucc_ok hg hrm1 fun sub _ hsub _ => ?_
  split
  · rw [ok_bind _ (Graph.successors_of_live hg hsub)]
    dsimp only
    split <;> exact ⟨_, rfl⟩
  · exact ⟨_, rfl⟩

theorem varianceOf_ok {pown : Node} (hpown : pown ∈ g.live) : ∃ o, varianceOf g pown = .ok o :=
  soleSucc_ok hg hpown fun _ _ hrm2 _ => soleSucc_ok hg hrm2 fun _ _ hadd _ =>
    soleSucc_ok hg hadd fun _ _ hsqrt _ => soleSucc_ok hg hsqrt fun _ _ _ _ => ⟨_, rfl⟩

theorem affineOf_ok {div : Node} (hdiv : div ∈ g.live) : ∃ o, affineOf g div = .ok o := by
  refine soleSucc_ok hg hdiv fun mul _ hmul _ => ?_
  dsimp only
  split
  · exact ⟨_, rfl⟩
  · refine soleSucc_ok hg hmul fun _ _ _ _ => ?_
    split <;> exact ⟨_, rfl⟩

omit hg in
/-- The constants of a normalisation can be made when the axes are a list, the epsilon is an
initializer of one element and arrays over the declared sizes fit in memory. -/
theorem normConstants_ok {rm1 rm2 addEps : Node} {ks : List Nat} {scale? bias? : Option Tensor}
    (haxes : ∀ v, rm1.attr? "axes" = some v → ∃ vs, v = .list vs)
    (heps : ∃ t, ((addEps.inputs.filter fun i => !rm2.outputs.contains i).getLast?).bind
      g.initializer? = some t ∧ t.elems.length = 1)
    (hmem : 4 * (ks.filter (· ≠ 0)).prod ≤ Tensor.memoryLimit) :
    ∃ o, normConstants g rm1 rm2 addEps (Dim.sizes ks) scale? bias? = .ok o := by
  obtain ⟨t, ht, hlen⟩ := heps
  obtain ⟨x, hx⟩ := soleValue_ok hlen
  unfold normConstants
  dsimp only
  rw [ht]
  split
  · rename_i axes haxv
    obtain ⟨vs, rfl⟩ := haxes _ haxv
    split
    · exact ⟨_, rfl⟩
    · rw [ok_bind _ (rfl : lengthOf (.list vs) = .ok vs.length)]
      -- the trailing sizes the missing scale and bias are made over
      obtain ⟨j, hj⟩ := dropFrom_eq_drop (Dim.sizes ks)
        (((Dim.sizes ks).length : Int) - (vs.length : Int))
      obtain ⟨ns, hns⟩ := sizesOf_ok ks j hmem
      rw [← hj] at hns
      -- the scale and the bias are given or made, and then the epsilon is read
      split <;> split <;> simp [bind, Except.bind, pure, Except.pure, hns, hx]
  · exact ⟨_, rfl⟩

/-- The layer-normalisation pattern answers at every live node. -/
theorem layerNorm_ok (hs : g.DeclaresShapes) (hfit : g.ShapesFit) (hw : g.Walkable)
    {rm1 : Node} (hrm1 : rm1 ∈ g.live) : ∃ o, Pattern.layerNorm g rm1 = .ok o := by
  unfold Pattern.layerNorm
  split
  · exact ⟨_, rfl⟩
  · rename_i hmean
    simp only [Bool.not_eq_true', Bool.not_eq_false] at hmean
    obtain ⟨c, hc⟩ := centredOf_ok hg hrm1
    rw [ok_bind _ hc]
    split
    · rename_i sub x pd
      obtain ⟨hsub, -, hpd, hlen⟩ := centredOf_eq_some hc
      have hsubLive := Graph.mem_live_of_mem_succs (hsub ▸ mem_singleton_self sub)
      -- the `Sub` has two successors; the walk goes on from the first
      obtain ⟨pown, q, rfl⟩ := length_eq_two.1 hlen
      have hpown : pown ∈ g.live := Graph.mem_live_of_mem_succs (hpd ▸ mem_cons_self)
      rw [ok_bind _ (rfl : first [pown, q] = .ok pown)]
      obtain ⟨v, hv⟩ := varianceOf_ok hg hpown
      rw [ok_bind _ hv]
      split
      · rename_i rm2 addEps sqrt div
        obtain ⟨h1, hop2, h2, hopAdd, h3, h4, hopDiv⟩ := varianceOf_eq_some hv
        have hrm2 := Graph.mem_live_of_mem_succs (h1 ▸ mem_singleton_self rm2)
        have hadd := Graph.mem_live_of_mem_succs (h2 ▸ mem_singleton_self addEps)
        have hsqrt := Graph.mem_live_of_mem_succs (h3 ▸ mem_singleton_self sqrt)
        have hdiv := Graph.mem_live_of_mem_succs (h4 ▸ mem_singleton_self div)
        -- the normalising `Div` writes a tensor, whose shape is declared
        obtain ⟨t, ts, hts⟩ := exists_cons_of_ne_nil (hw.divWrites div hdiv hopDiv)
        have ht : t ∈ div.outputs := hts ▸ mem_cons_self
        obtain ⟨ks, -, hks⟩ := hs div hdiv t ht
        rw [hts, ok_bind _ (rfl : first (t :: ts) = .ok t), ok_bind _ hks]
        split
        · exact ⟨_, rfl⟩
        · obtain ⟨a, ha⟩ := affineOf_ok hg hdiv
          rw [ok_bind _ ha]
          split
          · rename_i tail outs sc bi
            obtain ⟨k, hk⟩ := @normConstants_ok g rm1 rm2 addEps ks sc bi
              (hw.axesListed rm1 hrm1 hmean) (hw.epsilonScalar rm2 hrm2 hop2 addEps h2 hopAdd)
              (hfit div hdiv t ht ks hks).2
            rw [ok_bind _ hk]
            split <;> exact ⟨_, rfl⟩
          · exact ⟨_, rfl⟩
      · exact ⟨_, rfl⟩
    · exact ⟨_, rfl⟩

/-! ### The attention walk -/

omit hg in
/-- A declared size that fits 32 bits gives the bounds `[0, d]` of a sequence. -/
theorem seqBounds_ok (k : Nat) (hk : k < Nat.pow 2 31) :
    ∃ t, seqBounds (.size (k : Int)) = .ok t := by
  have h31 : Int.pow 2 31 = 2147483648 := by decide
  have h31' : Nat.pow 2 31 = 2147483648 := by decide
  have hint : int32Of (.size (k : Int)) = .ok k := by
    show fitInt32 (k : Int) = .ok k
    unfold fitInt32
    rw [if_pos (by simp only [h31, Bool.and_eq_true, decide_eq_true_eq]; omega)]
  unfold seqBounds
  rw [ok_bind _ hint]
  exact ⟨_, rfl⟩

omit hg in
/-- A size of a declared shape is a size of the list it was declared from. -/
theorem exists_of_mem_sizes {ks : List Nat} {d : Dim} (h : d ∈ Dim.sizes ks) :
    ∃ k ∈ ks, d = .size (k : Int) := by
  obtain ⟨k, hk, rfl⟩ := mem_map.1 h
  exact ⟨k, hk, rfl⟩

theorem reshapeFed_ok {n : Node} (hn : n ∈ g.live) : ∃ b, reshapeFed g n = .ok b := by
  unfold reshapeFed
  rw [ok_bind _ (Graph.predecessors_of_live hg hn)]
  exact ⟨_, rfl⟩

omit hg in
/-- A `Transpose` has a first input. -/
theorem first_inputs_ok (hw : g.Walkable) {n : Node} (hn : n ∈ g.live)
    (hop : n.isOp "Transpose" = true) : ∃ t, first n.inputs = .ok t := by
  obtain ⟨t, ts, h⟩ := exists_cons_of_ne_nil (hw.transposeReads n hn hop)
  rw [h]
  exact ⟨t, rfl⟩

/-- The scores `MatMul` and the sequence bounds are read when the shapes are declared and fit;
a result names the only predecessor of the `Softmax`. -/
theorem scoresOf_ok (hs : g.DeclaresShapes) (hfit : g.ShapesFit) {softmax : Node}
    (hsm : softmax ∈ g.live) : ∃ o, scoresOf g softmax = .ok o ∧
      ∀ r, o = some r → soleOp? (g.preds softmax) "MatMul" = some r.1 := by
  unfold scoresOf
  rw [ok_bind _ (Graph.predecessors_of_live hg hsm)]
  split
  · rename_i scores hsc
    -- the scores `MatMul` writes a tensor the `Softmax` reads, and its shape is declared
    obtain ⟨hlive, t₀, -, hout⟩ := Graph.mem_preds (mem_of_soleOp?_eq_some hsc)
    obtain ⟨t, ts, hts⟩ := exists_cons_of_ne_nil (ne_nil_of_mem hout)
    have ht : t ∈ scores.outputs := hts ▸ mem_cons_self
    obtain ⟨ks, hne, hks⟩ := hs scores hlive t ht
    have h32 := (hfit scores hlive t ht ks hks).1
    rw [hts, ok_bind _ (rfl : first (t :: ts) = .ok t), ok_bind _ hks]
    -- a declared shape is not empty
    dsimp only
    rw [if_neg (by simpa [Dim.sizes] using hne)]
    split
    · rename_i d0 d1 d2 hshape
      have hsize : ∀ d ∈ Dim.sizes ks, ∃ k : Nat, d = .size (k : Int) ∧ k < Nat.pow 2 31 := by
        intro d hd
        obtain ⟨k, hk, rfl⟩ := exists_of_mem_sizes hd
        exact ⟨k, rfl, h32 k hk⟩
      obtain ⟨k1, rfl, hk1⟩ := hsize d1 (by rw [hshape]; simp)
      obtain ⟨k2, rfl, hk2⟩ := hsize d2 (by rw [hshape]; simp)
      obtain ⟨qSeq, hq⟩ := seqBounds_ok k1 hk1
      obtain ⟨kSeq, hk⟩ := seqBounds_ok k2 hk2
      rw [ok_bind _ hq, ok_bind _ hk]
      exact ⟨_, rfl, fun r hr => by cases hr; exact hsc⟩
    · exact ⟨_, rfl, fun r hr => by cases hr⟩
  · exact ⟨_, rfl, fun r hr => by cases hr⟩

theorem queryKeyOf_ok (hw : g.Walkable) {scores : Node} (hsc : scores ∈ g.live) :
    ∃ o, queryKeyOf g scores = .ok o := by
  unfold queryKeyOf
  rw [ok_bind _ (Graph.predecessors_of_live hg hsc)]
  split
  · exact ⟨_, rfl⟩
  · split
    · rename_i div hdiv
      have hdivLive := (Graph.mem_preds (lastOp?_eq_some hdiv).1).1
      split
      · rename_i kTrans hk
        obtain ⟨hkm, hkop⟩ := lastOp?_eq_some hk
        have hkLive := (Graph.mem_preds hkm).1
        rw [ok_bind _ (Graph.predecessors_of_live hg hdivLive)]
        split
        · exact ⟨_, rfl⟩
        · split
          · rename_i qTrans hq
            have hqLive := (Graph.mem_preds (mem_of_soleOp?_eq_some hq)).1
            have hqop := (soleOp?_eq_some.1 hq).2
            -- both branches start from a `Transpose`, which reads a tensor
            obtain ⟨b, hb⟩ := reshapeFed_ok hg hqLive
            rw [ok_bind _ hb]
            split
            · exact ⟨_, rfl⟩
            · obtain ⟨qIn, hqIn⟩ := first_inputs_ok hw hqLive hqop
              obtain ⟨b', hb'⟩ := reshapeFed_ok hg hkLive
              rw [ok_bind _ hqIn, ok_bind _ hb']
              split
              · exact ⟨_, rfl⟩
              · obtain ⟨kIn, hkIn⟩ := first_inputs_ok hw hkLive hkop
                rw [ok_bind _ hkIn]
                exact ⟨_, rfl⟩
          · exact ⟨_, rfl⟩
      · exact ⟨_, rfl⟩
    · exact ⟨_, rfl⟩

theorem mixedOf_ok (hw : g.Walkable) {softmax : Node} (hsm : softmax ∈ g.live)
    (hop : softmax.isOp "Softmax" = true) (hread : g.succs softmax ≠ []) :
    ∃ o, mixedOf g softmax = .ok o := by
  unfold mixedOf
  rw [ok_bind _ (Graph.successors_of_live hg hsm)]
  dsimp only
  -- the `Softmax` has a consumer, so the walk does not go on from an empty list
  rw [if_neg (by simpa [List.isEmpty_iff] using hread)]
  split
  · rename_i mixed hmixed
    have hmLive := Graph.mem_live_of_mem_succs (mem_of_soleOp?_eq_some hmixed)
    have hmRead := hw.mixedRead softmax hsm hop mixed hmixed
    rw [ok_bind _ (Graph.predecessors_of_live hg hmLive)]
    split
    · rename_i vTrans hv
      obtain ⟨hvm, hvop⟩ := lastOp?_eq_some hv
      have hvLive := (Graph.mem_preds hvm).1
      split
      · exact ⟨_, rfl⟩
      · obtain ⟨b, hb⟩ := reshapeFed_ok hg hvLive
        rw [ok_bind _ hb]
        split
        · exact ⟨_, rfl⟩
        · obtain ⟨vIn, hvIn⟩ := first_inputs_ok hw hvLive hvop
          rw [ok_bind _ hvIn, ok_bind _ (Graph.successors_of_live hg hmLive)]
          -- nor from the second `MatMul`, which has a consumer too
          rw [if_neg (by simpa [List.isEmpty_iff] using hmRead)]
          split
          · rename_i outTrans hout
            have hoLive := Graph.mem_live_of_mem_succs (mem_of_soleOp?_eq_some hout)
            rw [ok_bind _ (Graph.successors_of_live hg hoLive)]
            split <;> exact ⟨_, rfl⟩
          · exact ⟨_, rfl⟩
    · exact ⟨_, rfl⟩
  · exact ⟨_, rfl⟩

/-- The attention pattern answers at every live node. -/
theorem attention_ok (hs : g.DeclaresShapes) (hfit : g.ShapesFit) (hw : g.Walkable)
    {softmax : Node} (hsm : softmax ∈ g.live) : ∃ o, Pattern.attention g softmax = .ok o := by
  unfold Pattern.attention
  split
  · exact ⟨_, rfl⟩
  · rename_i hop
    simp only [Bool.not_eq_true', Bool.not_eq_false] at hop
    obtain ⟨o, ho, hsc⟩ := scoresOf_ok hg hs hfit hsm
    rw [ok_bind _ ho]
    split
    · have hsole := hsc _ rfl
      have hscLive := (Graph.mem_preds (mem_of_soleOp?_eq_some hsole)).1
      obtain ⟨o', ho'⟩ := queryKeyOf_ok hg hw hscLive
      rw [ok_bind _ ho']
      split
      · -- the `Softmax` is fed by a `MatMul`, so it has a consumer
        obtain ⟨o'', ho''⟩ := mixedOf_ok hg hw hsm hop
          (hw.softmaxRead softmax hsm hop (by rw [hsole]; rfl))
        rw [ok_bind _ ho'']
        split <;> exact ⟨_, rfl⟩
      · exact ⟨_, rfl⟩
    · exact ⟨_, rfl⟩

/-- Every pattern answers at every live node. -/
theorem run_ok (hs : g.DeclaresShapes) (hfit : g.ShapesFit) (hw : g.Walkable) (p : Pattern)
    {n : Node} (hn : n ∈ g.live) : ∃ o, p.run g n = .ok o := by
  unfold Pattern.run
  split
  · exact convBatchNorm_ok hg hn
  · exact layerNorm_ok hg hs hfit hw hn
  · exact attention_ok hg hs hfit hw hn
  · exact logDiv_ok hg hn hw
  · split <;> exact ⟨_, rfl⟩

end Pattern

/-! ### Matching the whole graph -/

section Matching

variable {g : Graph} {ps : List Pattern} {allowOverlap : Bool}

/-- Trying the patterns at a node answers when each pattern does. -/
theorem firstMatch_ok {n : Node} (claimed : List Nat) (allowOverlap : Bool)
    (hrun : ∀ p : Pattern, ∃ o, p.run g n = .ok o) :
    ∀ ps : List Pattern, ∃ o, firstMatch g n claimed allowOverlap ps = .ok o
  | [] => ⟨_, rfl⟩
  | p :: rest => by
    obtain ⟨o, ho⟩ := hrun p
    simp only [firstMatch]
    rw [ok_bind _ ho]
    split
    · split
      · exact firstMatch_ok claimed allowOverlap hrun rest
      · exact ⟨_, rfl⟩
    · exact firstMatch_ok claimed allowOverlap hrun rest

/-- A run over nodes at which every pattern answers returns its matches. -/
theorem matchNodes_ok (hrun : ∀ p : Pattern, ∀ n ∈ g.live, ∃ o, p.run g n = .ok o) :
    ∀ (order : List Node), (∀ n ∈ order, n ∈ g.live) → ∀ (claimed : List Nat) (acc : List Match),
      ∃ R, matchNodes g ps allowOverlap order claimed acc = .ok R
  | [], _, _, _ => ⟨_, rfl⟩
  | n :: rest, hlive, claimed, acc => by
    have hrest : ∀ m ∈ rest, m ∈ g.live := fun m hm => hlive m (mem_cons_of_mem _ hm)
    simp only [matchNodes]
    split
    · exact matchNodes_ok hrun rest hrest _ _
    · obtain ⟨o, ho⟩ := firstMatch_ok claimed allowOverlap
        (fun p => hrun p n (hlive n mem_cons_self)) ps
      rw [ok_bind _ ho]
      split
      · exact matchNodes_ok hrun rest hrest _ _
      · exact matchNodes_ok hrun rest hrest _ _

end Matching

/-- Matching raises no fault on a graph built from a model whose node outputs have declared
shapes of sizes that fit 32 bits and whose arrays fit in memory, and on which the recognisers'
walks come to no dead end: every pattern answers at every live node, and matching the whole
graph returns its matches, with overlap or without. -/
theorem matchAll_succeeds (g : Graph) (r : Registry) (hg : g.Numbered) (hs : g.DeclaresShapes)
    (hfit : g.ShapesFit) (hw : g.Walkable) :
    (∀ allowOverlap, ∃ R, matchAll g r allowOverlap = .ok R) ∧
      ∀ (p : Pattern), ∀ n ∈ g.live, ∃ o, p.run g n = .ok o := by
  have hrun : ∀ (p : Pattern), ∀ n ∈ g.live, ∃ o, p.run g n = .ok o :=
    fun p _ hn => Pattern.run_ok hg hs hfit hw p hn
  -- the schedule lists live nodes only
  have hsched : ∀ n ∈ g.topoOrder, n ∈ g.live :=
    fun _ hn => (Graph.topoOrder_perm hg.distinctIndices).subset hn
  exact ⟨fun _ => matchNodes_ok hrun _ hsched _ _, hrun⟩

/-! ### A sequence length that does not fit -/

/-- A `MatMul` of scores with a sequence length of `2 ^ 31`, and the `Softmax` over them; the
shape of every tensor is declared. -/
def overflowGraph : Graph :=
  { nodes := [{ index := 0, name := "mm", opType := "MatMul", inputs := ["a", "b"],
                outputs := ["s"], attrs := [] },
      { index := 1, name := "sm", opType := "Softmax", inputs := ["s"], outputs := ["y"],
        attrs := [] }],
    removed := [], initializers := [],
    shapes := [("a", Dim.sizes [1, 2147483648, 4]), ("b", Dim.sizes [1, 4, 4]),
      ("y", Dim.sizes [1, 2147483648, 4]), ("s", Dim.sizes [1, 2147483648, 4])] }

/-- Declared shapes are not enough: the attention pattern stores the sequence lengths of the
scores as an int32 array, and matching fails on one that does not fit. -/
theorem attention_sequence_overflow : overflowGraph.Numbered ∧ overflowGraph.DeclaresShapes ∧
    matchAll overflowGraph Registry.initial false =
      .error (.integerOutOfBounds 2147483648 "int32") := by
  refine ⟨by decide, ?_, rfl⟩
  intro n hn t ht
  simp only [overflowGraph, Graph.live, List.contains_nil, Bool.not_false, filter_true,
    mem_cons, not_mem_nil, or_false] at hn
  rcases hn with rfl | rfl <;> simp only [mem_singleton] at ht <;> subst ht <;>
    exact ⟨_, by simp, rfl⟩

/-! ### A scale that does not fit in memory -/

/-- A layer normalisation over the last two axes, each of `2 ^ 30`, whose `Mul` reads no
initializer; the shape of every tensor is declared. -/
def memoryGraph : Graph :=
  let axes : Record := [("axes", .list [.int (-2), .int (-1)])]
  let wide := Dim.sizes [1, 1073741824, 1073741824]
  let flat := Dim.sizes [1, 1, 1]
  { nodes := [
      { index := 0, name := "rm1", opType := "ReduceMean", inputs := ["x"], outputs := ["m"],
        attrs := axes },
      { index := 1, name := "sub", opType := "Sub", inputs := ["x", "m"], outputs := ["d"],
        attrs := [] },
      { index := 2, name := "pow", opType := "Pow", inputs := ["d", "two"], outputs := ["p"],
        attrs := [] },
      { index := 3, name := "rm2", opType := "ReduceMean", inputs := ["p"], outputs := ["v"],
        attrs := axes },
      { index := 4, name := "addEps", opType := "Add", inputs := ["v", "eps"], outputs := ["ve"],
        attrs := [] },
      { index := 5, name := "sqrt", opType := "Sqrt", inputs := ["ve"], outputs := ["sd"],
        attrs := [] },
      { index := 6, name := "div", opType := "Div", inputs := ["d", "sd"], outputs := ["nrm"],
        attrs := [] },
      { index := 7, name := "mul", opType := "Mul", inputs := ["nrm", "gamma"], outputs := ["y"],
        attrs := [] }],
    removed := [],
    initializers := [("two", Tensor.scalar .float32 (.int 2)),
      ("eps", Tensor.scalar .float32 (.int 1))],
    shapes := [("x", wide), ("gamma", wide), ("y", wide), ("m", flat), ("d", wide), ("p", wide),
      ("v", flat), ("ve", flat), ("sd", flat), ("nrm", wide)] }

/-- Every tensor a node of `memoryGraph` writes is declared flat or wide. -/
theorem memoryGraph_shapes : ∀ n ∈ memoryGraph.live, ∀ t ∈ n.outputs,
    memoryGraph.shapeOf t = .ok (Dim.sizes [1, 1, 1]) ∨
      memoryGraph.shapeOf t = .ok (Dim.sizes [1, 1073741824, 1073741824]) := by
  intro n hn t ht
  simp only [memoryGraph, Graph.live, List.contains_nil, Bool.not_false, filter_true,
    mem_cons, not_mem_nil, or_false] at hn
  rcases hn with rfl | rfl | rfl | rfl | rfl | rfl | rfl | rfl <;>
    simp only [mem_singleton] at ht <;> subst ht <;> first | exact .inl rfl | exact .inr rfl

/-- Sizes that fit 32 bits are not enough either: a layer normalisation whose `Mul` reads no
initializer makes its scale as an array of ones over the trailing sizes, and matching fails
when that array does not fit in memory. -/
theorem layerNorm_scale_out_of_memory : memoryGraph.Numbered ∧ memoryGraph.DeclaresShapes ∧
    (∀ n ∈ memoryGraph.live, ∀ t ∈ n.outputs, ∀ ks : List Nat,
      memoryGraph.shapeOf t = .ok (Dim.sizes ks) → ∀ k ∈ ks, k < Nat.pow 2 31) ∧
    matchAll memoryGraph Registry.initial false =
      .error (.outOfMemory (Nat.pow 2 62) [Nat.pow 2 30, Nat.pow 2 30] "float32") := by
  refine ⟨by decide, fun n hn t ht => ?_, fun n hn t ht ks hks => ?_, rfl⟩
  · rcases memoryGraph_shapes n hn t ht with h | h
    · exact ⟨_, by simp, h⟩
    · exact ⟨_, by simp, h⟩
  · -- the declared sizes are those of one of the two shapes
    rcases memoryGraph_shapes n hn t ht with h | h <;> rw [h] at hks <;>
      obtain rfl := Dim.sizes_inj (Except.ok.inj hks).symm <;> decide

/-- Declared shapes are not enough for matching to answer: the sequence lengths of attention
scores must fit 32 bits, and the scale a layer normalisation makes must fit in memory. -/
theorem declared_shapes_not_enough :
    (overflowGraph.Numbered ∧ overflowGraph.DeclaresShapes ∧
      matchAll overflowGraph Registry.initial false =
        .error (.integerOutOfBounds 2147483648 "int32")) ∧
    (memoryGraph.Numbered ∧ memoryGraph.DeclaresShapes ∧
      (∀ n ∈ memoryGraph.live, ∀ t ∈ n.outputs, ∀ ks : List Nat,
        memoryGraph.shapeOf t = .ok (Dim.sizes ks) → ∀ k ∈ ks, k < Nat.pow 2 31) ∧
      matchAll memoryGraph Registry.initial false =
        .error (.outOfMemory (Nat.pow 2 62) [Nat.pow 2 30, Nat.pow 2 30] "float32")) :=
  ⟨attention_sequence_overflow, layerNorm_scale_out_of_memory⟩

/-! ### A graph that matching answers on -/

/-- A `Div` whose quotient a `Log` reads, with the shapes of both outputs declared. -/
def logQuotientGraph : Graph :=
  { nodes := [{ index := 0, name := "d", opType := "Div", inputs := ["a", "b"], outputs := ["c"],
                attrs := [] },
      { index := 1, name := "l", opType := "Log", inputs := ["c"], outputs := ["y"], attrs := [] }],
    removed := [], initializers := [], shapes := [("c", Dim.sizes [2]), ("y", Dim.sizes [2])] }

theorem matchAll_succeeds_logQuotient : logQuotientGraph.Numbered ∧
    logQuotientGraph.DeclaresShapes ∧ logQuotientGraph.ShapesFit ∧ logQuotientGraph.Walkable ∧
    ((∀ allowOverlap, ∃ R, matchAll logQuotientGraph Registry.initial allowOverlap = .ok R) ∧
      ∀ (p : Pattern), ∀ n ∈ logQuotientGraph.live, ∃ o, p.run logQuotientGraph n = .ok o) := by
  -- the two nodes, each writing one tensor of shape [2]
  have hlive : ∀ n ∈ logQuotientGraph.live, n = logQuotientGraph.nodes[0] ∨
      n = logQuotientGraph.nodes[1] := by
    intro n hn
    simpa [logQuotientGraph, Graph.live] using hn
  have hshape : ∀ n ∈ logQuotientGraph.live, ∀ t ∈ n.outputs,
      logQuotientGraph.shapeOf t = .ok (Dim.sizes [2]) := by
    intro n hn t ht
    rcases hlive n hn with rfl | rfl <;> simp [logQuotientGraph] at ht <;> subst ht <;> rfl
  have hg : logQuotientGraph.Numbered := by decide
  have hs : logQuotientGraph.DeclaresShapes :=
    fun n hn t ht => ⟨[2], by simp, hshape n hn t ht⟩
  have hfit : logQuotientGraph.ShapesFit := by
    intro n hn t ht ks hks
    rw [hshape n hn t ht] at hks
    obtain rfl := Dim.sizes_inj (Except.ok.inj hks).symm
    exact ⟨by decide, by decide⟩
  have hw : logQuotientGraph.Walkable := by
    constructor
    · intro n hn hop _ _
      rcases hlive n hn with rfl | rfl
      · exact absurd hop (by decide)
      · intro h
        have hlen : (logQuotientGraph.preds logQuotientGraph.nodes[1]).length = 1 := rfl
        simp [h] at hlen
    · intro n hn hop
      rcases hlive n hn with rfl | rfl <;> exact absurd hop (by decide)
    · intro n hn _
      rcases hlive n hn with rfl | rfl <;> simp [logQuotientGraph]
    · intro n hn hop
      rcases hlive n hn with rfl | rfl <;> exact absurd hop (by decide)
    · intro n hn hop
      rcases hlive n hn with rfl | rfl <;> exact absurd hop (by decide)
    · intro n hn hop
      rcases hlive n hn with rfl | rfl <;> exact absurd hop (by decide)
    · intro n hn hop
      rcases hlive n hn with rfl | rfl <;> exact absurd hop (by decide)
  exact ⟨hg, hs, hfit, hw, matchAll_succeeds _ _ hg hs hfit hw⟩

end OnnxFusion

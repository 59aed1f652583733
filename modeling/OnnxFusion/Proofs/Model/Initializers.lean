import Mathlib
import OnnxFusion.Model.Initializers
/-!
# Private copies of initializers

`withPrivateInitializers` gives every use of an initializer its own copy: input `j` of node
`i`, when it names an initializer `t`, is renamed `t_node_i_input_j`, and the copies, in
node-then-position order and carrying the data of the last initializer named `t`, replace all
initializers. `withPrivateInitializers_copies` states what the pass does (`PrivateCopies`):

* only node inputs change, and each input slot reads its private name or, when its tensor is
  no initializer, the same name as before;
* the initializers are the copies, in slot order;
* no two copies share a name, because a name `t_node_i_input_j` gives back `t`, `i` and `j`
  (`privateName_injective`): the input position is the run of digits after the last
  underscore, the node index the run after the underscore before `_input`;
* a copy is read by the slot it was made for, by no other slot that was renamed, and by each
  slot left as it was whose tensor has the copy's name.

The last point is where a copy can be shared. The pass never checks the names it makes against
the names of the model's other tensors, so a slot reading a tensor that is no initializer but
happens to be called `t_node_i_input_j` reads the copy too: `copy_read_twice`.
-/

set_option autoImplicit false

namespace OnnxFusion

open List

/-! ### Reading a name back from its separators -/

/-- Two texts that each start with a run free of the separator `c` and then `c` agree on the
runs and on what follows. -/
theorem sep_append_inj {c : Char} : ∀ {D E A B : List Char}, c ∉ D → c ∉ E →
    D ++ c :: A = E ++ c :: B → D = E ∧ A = B
  | [], [], _, _, _, _, h => ⟨rfl, by simpa using h⟩
  | [], e :: E, _, _, _, hE, h => by
    simp only [nil_append, cons_append, cons.injEq] at h
    exact absurd (by rw [h.1]; exact mem_cons_self) hE
  | d :: D, [], _, _, hD, _, h => by
    simp only [nil_append, cons_append, cons.injEq] at h
    exact absurd (by rw [← h.1]; exact mem_cons_self) hD
  | d :: D, e :: E, _, _, hD, hE, h => by
    simp only [cons_append, cons.injEq] at h
    obtain ⟨rfl, h⟩ := h
    obtain ⟨rfl, rfl⟩ := sep_append_inj (fun h' => hD (mem_cons_of_mem _ h'))
      (fun h' => hE (mem_cons_of_mem _ h')) h
    exact ⟨rfl, rfl⟩

/-- Read from the end: two texts that end with `c` and a run free of `c` agree on the runs and
on what comes before. -/
theorem append_sep_inj {c : Char} {X Y D E : List Char} (hD : c ∉ D) (hE : c ∉ E)
    (h : X ++ c :: D = Y ++ c :: E) : X = Y ∧ D = E := by
  have hr := congrArg reverse h
  simp only [reverse_append, reverse_cons, append_assoc, singleton_append] at hr
  obtain ⟨h1, h2⟩ := sep_append_inj (by simpa using hD) (by simpa using hE) hr
  exact ⟨reverse_injective h2, reverse_injective h1⟩

/-- Decimal digits give back their number. -/
theorem eq_of_toDigits_eq {a b : Nat} (h : Nat.toDigits 10 a = Nat.toDigits 10 b) : a = b :=
  Nat.repr_injective (String.toList_inj.1 (by rw [Nat.toList_repr, Nat.toList_repr, h]))

namespace GraphDef

/-- The name of the private copy of initializer `t` for input `j` of node `i`. -/
def privateName (t : String) (i j : Nat) : String :=
  t ++ "_node_" ++ toString i ++ "_input_" ++ toString j

/-- A private name gives back the initializer's name, the node and the input. -/
theorem privateName_injective {t t' : String} {i i' j j' : Nat}
    (h : privateName t i j = privateName t' i' j') : t = t' ∧ i = i' ∧ j = j' := by
  have hsplit (t : String) (i j : Nat) : (privateName t i j).toList =
      (((t.toList ++ "_node".toList) ++ '_' :: Nat.toDigits 10 i) ++ "_input".toList) ++
        '_' :: Nat.toDigits 10 j := by
    simp [privateName]
  have hl := congrArg String.toList h
  rw [hsplit, hsplit] at hl
  -- the input position is the run of digits after the last underscore
  obtain ⟨hpre, hj⟩ := append_sep_inj Nat.underscore_not_in_toDigits
    Nat.underscore_not_in_toDigits hl
  -- the node index is the run of digits after the underscore before `_input`
  obtain ⟨ht, hi⟩ := append_sep_inj Nat.underscore_not_in_toDigits
    Nat.underscore_not_in_toDigits (append_cancel_right hpre)
  exact ⟨String.toList_inj.1 (append_cancel_right ht), eq_of_toDigits_eq hi,
    eq_of_toDigits_eq hj⟩

/-- What input `j` of node `i` reads after the pass: the private copy of an initializer, or
else the same tensor. -/
def privateInput (g : GraphDef) (i j : Nat) (t : String) : String :=
  if (g.lastInitializer? t).isSome then privateName t i j else t

/-- The private copy made for a slot, when the slot reads an initializer. -/
def privateCopy (g : GraphDef) : Nat × Nat × String → Option (String × Tensor)
  | (i, j, t) => (g.lastInitializer? t).map fun v => (privateName t i j, v)

end GraphDef

/-! ### Input slots -/

/-- The input slots of a node list numbered from `k`: node index, input position and the name
read, in node-then-position order. -/
def inputSlots (k : Nat) (ns : List NodeDef) : List (Nat × Nat × String) :=
  (ns.zipIdx k).flatMap fun (n, i) => n.inputs.zipIdx.map fun (t, j) => (i, j, t)

theorem inputSlots_cons (k : Nat) (n : NodeDef) (ns : List NodeDef) :
    inputSlots k (n :: ns) =
      n.inputs.zipIdx.map (fun (t, j) => (k, j, t)) ++ inputSlots (k + 1) ns := by
  simp [inputSlots, zipIdx_cons]

/-- The slots of a list numbered from `k` belong to nodes from `k` on. -/
theorem le_of_mem_inputSlots : ∀ {k : Nat} {ns : List NodeDef} {s : Nat × Nat × String},
    s ∈ inputSlots k ns → k ≤ s.1
  | _, [], _, h => by simp [inputSlots] at h
  | k, n :: ns, s, h => by
    rw [inputSlots_cons, mem_append] at h
    rcases h with h | h
    · obtain ⟨⟨t, j⟩, -, rfl⟩ := mem_map.1 h
      exact le_rfl
    · exact Nat.le_of_succ_le (le_of_mem_inputSlots h)

/-- A node index and an input position pick out at most one slot. -/
theorem inputSlots_keys_nodup : ∀ (k : Nat) (ns : List NodeDef),
    ((inputSlots k ns).map fun s => (s.1, s.2.1)).Nodup
  | _, [] => by simp [inputSlots]
  | k, n :: ns => by
    rw [inputSlots_cons, map_append, nodup_append]
    refine ⟨?_, inputSlots_keys_nodup (k + 1) ns, ?_⟩
    · -- the positions of one node's inputs are distinct
      have hkeys : (n.inputs.zipIdx.map (fun (t, j) => (k, j, t))).map (fun s => (s.1, s.2.1)) =
          (range' 0 n.inputs.length).map ((k, ·)) := by
        rw [map_map, ← zipIdx_map_snd, map_map]
        rfl
      rw [hkeys]
      exact (nodup_range' ..).map fun a b h => (Prod.mk.inj h).2
    · -- the later nodes have larger indices
      intro a ha b hb hab
      obtain ⟨_, hs, rfl⟩ := mem_map.1 ha
      obtain ⟨⟨t, j⟩, -, rfl⟩ := mem_map.1 hs
      obtain ⟨s', hs', rfl⟩ := mem_map.1 hb
      have := le_of_mem_inputSlots hs'
      simp only [Prod.mk.injEq] at hab
      omega

/-- One slot reads one name. -/
theorem name_eq_of_mem_inputSlots {k : Nat} {ns : List NodeDef} {i j : Nat} {t t' : String}
    (h : (i, j, t) ∈ inputSlots k ns) (h' : (i, j, t') ∈ inputSlots k ns) : t = t' := by
  have := inj_on_of_nodup_map (inputSlots_keys_nodup k ns) h h' rfl
  simp only [Prod.mk.injEq] at this
  exact this.2.2

/-- Renaming the inputs of each node by node index and position renames the slots. -/
theorem inputSlots_rename (f : Nat → Nat → String → String) :
    ∀ (k : Nat) (ns : List NodeDef),
    inputSlots k ((ns.zipIdx k).map fun (n, i) =>
        { n with inputs := n.inputs.zipIdx.map fun (t, j) => f i j t }) =
      (inputSlots k ns).map fun (i, j, t) => (i, j, f i j t)
  | _, [] => rfl
  | k, n :: ns => by
    rw [zipIdx_cons, map_cons, inputSlots_cons, inputSlots_cons, inputSlots_rename f (k + 1) ns,
      map_append]
    congr 1
    refine ext_getElem (by simp) fun m h1 h2 => ?_
    simp [getElem_zipIdx]

/-! ### The pass in closed form -/

/-- A fold that appends one block per entry to each of two lists appends the blocks in
order. -/
theorem foldl_append_blocks {α β γ : Type}
    {step : List β × List γ → α → List β × List γ}
    (F : α → List β) (H : α → List γ)
    (hstep : ∀ acc x, step acc x = (acc.1 ++ F x, acc.2 ++ H x)) :
    ∀ (L : List α) (a : List β) (b : List γ),
      L.foldl step (a, b) = (a ++ L.flatMap F, b ++ L.flatMap H)
  | [], a, b => by simp
  | x :: L, a, b => by simp [hstep, foldl_append_blocks F H hstep L, append_assoc]

namespace GraphDef

/-- The pass renames each node's inputs slot by slot and makes the copies in slot order. -/
theorem withPrivateInitializers_eq (g : GraphDef) :
    g.withPrivateInitializers = { g with
      nodes := g.nodes.zipIdx.map fun (n, i) =>
        { n with inputs := n.inputs.zipIdx.map fun (t, j) => g.privateInput i j t }
      initializers := (inputSlots 0 g.nodes).filterMap g.privateCopy } := by
  unfold withPrivateInitializers
  dsimp only
  rw [foldl_append_blocks
    (fun (x : Nat × NodeDef) =>
      [{ x.2 with inputs := x.2.inputs.zipIdx.map fun (t, j) => g.privateInput x.1 j t }])
    (fun x => x.2.inputs.zipIdx.filterMap fun (t, j) => g.privateCopy (x.1, j, t))]
  · simp [inputSlots, flatMap_map, filterMap_flatMap, ← map_eq_flatMap]
  · -- one node: its renamed inputs, and the copies of the initializers it reads
    rintro acc ⟨i, n⟩
    simp only [Prod.mk.injEq, map_map, filterMap_map]
    refine ⟨?_, ?_⟩
    · congr 3
      refine map_congr_left fun ⟨t, j⟩ _ => ?_
      simp only [Function.comp_apply, privateInput, privateName]
      cases g.lastInitializer? t <;> rfl
    · congr 1
      refine filterMap_congr fun ⟨t, j⟩ _ => ?_
      simp only [Function.comp_apply, privateCopy, privateName]
      cases g.lastInitializer? t <;> rfl

/-- What the pass does to a model `g`, giving `out`. -/
structure PrivateCopies (g out : GraphDef) : Prop where
  /-- Only the inputs of nodes change. -/
  nodes : out.nodes.map (fun n => { n with inputs := [] }) =
    g.nodes.map (fun n => { n with inputs := [] })
  /-- Each slot reads its private name, or the same tensor when that is no initializer. -/
  slots : inputSlots 0 out.nodes =
    (inputSlots 0 g.nodes).map fun (i, j, t) => (i, j, g.privateInput i j t)
  /-- The initializers are the copies, in slot order, each with the data of the last
  initializer of its name. -/
  copies : out.initializers = (inputSlots 0 g.nodes).filterMap g.privateCopy
  /-- No two copies share a name. -/
  names_nodup : (out.initializers.map (·.1)).Nodup
  /-- A copy is read by the slot it was made for, by no other slot that was renamed, and by
  each slot left as it was whose tensor has the copy's name. -/
  readers : ∀ c ∈ out.initializers, ∃ i j t, (i, j, t) ∈ inputSlots 0 g.nodes ∧
    g.lastInitializer? t = some c.2 ∧ c.1 = privateName t i j ∧
    ∀ i' j' t', (i', j', t') ∈ inputSlots 0 g.nodes →
      (g.privateInput i' j' t' = c.1 ↔
        (i' = i ∧ j' = j) ∨ (g.lastInitializer? t' = none ∧ t' = c.1))

/-- The copies' names are distinct: each gives back its slot. -/
theorem copies_names_nodup (g : GraphDef) :
    (((inputSlots 0 g.nodes).filterMap g.privateCopy).map (·.1)).Nodup := by
  rw [map_filterMap]
  refine Nodup.filterMap (fun ⟨i, j, t⟩ ⟨i', j', t'⟩ s hs hs' => ?_)
    ((inputSlots_keys_nodup 0 g.nodes).of_map _)
  simp only [privateCopy, Option.map_map, Option.mem_def, Option.map_eq_some_iff,
    Function.comp_apply] at hs hs'
  obtain ⟨_, -, rfl⟩ := hs
  obtain ⟨_, -, hname⟩ := hs'
  obtain ⟨rfl, rfl, rfl⟩ := privateName_injective hname
  rfl

/-- Who reads the copy made for slot `(i, j)`. -/
theorem privateInput_eq_copy_iff (g : GraphDef) {i j i' j' : Nat} {t t' : String}
    {v : Tensor} (hs : (i, j, t) ∈ inputSlots 0 g.nodes) (hv : g.lastInitializer? t = some v)
    (hs' : (i', j', t') ∈ inputSlots 0 g.nodes) :
    g.privateInput i' j' t' = privateName t i j ↔
      (i' = i ∧ j' = j) ∨ (g.lastInitializer? t' = none ∧ t' = privateName t i j) := by
  unfold privateInput
  cases hv' : g.lastInitializer? t' with
  | none =>
    -- a slot left as it was is not the copy's own slot, whose tensor is an initializer
    have hother : ¬ (i' = i ∧ j' = j) := by
      rintro ⟨rfl, rfl⟩
      rw [name_eq_of_mem_inputSlots hs hs', hv'] at hv
      cases hv
    simp [hother]
  | some v' =>
    -- a renamed slot reads the copy only under its own private name
    simp only [Option.isSome_some, if_true, reduceCtorEq, false_and, or_false]
    constructor
    · intro h
      obtain ⟨-, rfl, rfl⟩ := privateName_injective h
      exact ⟨rfl, rfl⟩
    · rintro ⟨rfl, rfl⟩
      rw [name_eq_of_mem_inputSlots hs hs']

/-- Every model: the pass renames each use of an initializer to a private copy, makes the
copies in slot order with distinct names, leaves every other use alone, and a copy is read by
its own slot and otherwise only by slots left alone whose tensor has its name. -/
theorem withPrivateInitializers_copies (g : GraphDef) :
    PrivateCopies g g.withPrivateInitializers := by
  rw [withPrivateInitializers_eq]
  refine ⟨?_, inputSlots_rename _ 0 g.nodes, rfl, copies_names_nodup g, fun c hc => ?_⟩
  · simp only [map_map]
    conv_rhs => rw [← zipIdx_map_fst 0 g.nodes, map_map]
    rfl
  · obtain ⟨⟨i, j, t⟩, hs, hcopy⟩ := mem_filterMap.1 hc
    simp only [privateCopy, Option.map_eq_some_iff] at hcopy
    obtain ⟨v, hv, rfl⟩ := hcopy
    exact ⟨i, j, t, hs, hv, rfl, fun i' j' t' hs' => g.privateInput_eq_copy_iff hs hv hs'⟩

end GraphDef

/-- A model where a graph input is called as the copy of an initializer will be: node 0 reads
the initializer `w`, node 1 the graph input `w_node_0_input_0`. -/
def sharedCopyModel : GraphDef where
  nodes := [⟨"Add", "add", ["w", "x"], ["y"], []⟩,
    ⟨"Relu", "relu", ["w_node_0_input_0"], ["z"], []⟩]
  initializers := [("w", ⟨.float32, [1], [.real 1.0]⟩)]
  inputs := [⟨"x", "float32", some [.size 1]⟩,
    ⟨"w_node_0_input_0", "float32", some [.size 1]⟩]
  outputs := [⟨"y", "float32", some [.size 1]⟩, ⟨"z", "float32", some [.size 1]⟩]
  valueInfo := []

theorem sharedCopyModel_private_copies :
    GraphDef.PrivateCopies sharedCopyModel sharedCopyModel.withPrivateInitializers :=
  GraphDef.withPrivateInitializers_copies sharedCopyModel

/-- Not every initializer the pass leaves is read by exactly one slot: the copy of `w` for
node 0 is read by node 0 and by node 1, whose graph input has the copy's name. -/
theorem copy_read_twice :
    ¬ ∀ c ∈ sharedCopyModel.withPrivateInitializers.initializers,
      ((inputSlots 0 sharedCopyModel.withPrivateInitializers.nodes).filter (·.2.2 == c.1)).length
        = 1 := by
  decide

end OnnxFusion

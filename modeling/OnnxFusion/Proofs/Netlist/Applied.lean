import Mathlib
import OnnxFusion.Proofs.Netlist.Iso
/-!
# Netlists with the effects of fusions applied

Up to the consumer and producer lists kept on tensors, a fusion that runs to its end does two
things: it takes tensors off sides of the nodes named like its matched nodes (its cuts), and
it appends a block of tensors and nodes. `Effect` holds the two, and
`Netlist.applyEffects g es` is `g` with every cut of `es` made and then every block appended in
order. A block appended before a cut is left alone by it when none of its nodes bears a name
the cut hits, so one more effect applied to `g.applyEffects es` gives
`g.applyEffects (es ++ [e])` (`applyEffects_concat`).

Finding a tensor by name goes through the tensors reachable from the graph inputs, the graph
outputs and the nodes. An effect `Fits` `g` when its block holds only tensors of `g` that are
reachable there, and holds every tensor it cuts: what a cut takes off a node, the block puts
back on one of its own. So a tensor of `g` is reachable after such effects exactly when it is
in `g` (`reachable_applyEffects_iff`). When the tensors of `g` bear distinct names and no
appended tensor bears the name `s`, the name finds the same tensor in `g.applyEffects es` as
in `g` (`find?_applyEffects`), and after further cuts it finds nothing else
(`find?_cutBy_applyEffects`).

* `Netlist.Holds g t`: some node of `g` holds `t`; `holds_cutBy_iff`, `holds_appendBlocks_iff`
  say which nodes do after cutting and appending.
* `find?_eq_of_keeps`, `find?_eq_some_of_keeps`: the general form, for any netlist that keeps
  the tensors of `g` under their names and their reachability.
* `unlinks_same_cutBy`: in a linked netlist, unlinking the sides a list of cuts names
  (`unlinkBy`) is, up to links, making those cuts, and the netlist stays linked.
* `Extends g G`: `G` keeps the tensors of `g` under their names and with their payloads, as
  `g.applyEffects es` does (`extends_applyEffects`).
* `addBlock`: a block added the way a fusion builds, tensors first and then nodes linked to
  their ends; up to links it is appending the block (`same_appendBlock_addBlock`), and it
  keeps a netlist linked (`Linked.addBlock`).
-/

set_option autoImplicit false

namespace OnnxFusion

/-- What carrying out one replacement does to a netlist, up to the consumer and producer lists
kept on tensors: its unlinking makes `cuts`, then it appends `block`. -/
structure Effect where
  cuts : List Cut
  block : Block

/-- A node of the block holds the tensor `t` of the netlist it is appended to. -/
def Block.HoldsOld (b : Block) (t : Nat) : Prop :=
  ∃ x ∈ b.nodes, Port.old t ∈ x.inputs ++ x.outputs

/-- An effect fits `g`: its block holds only tensors of `g` that a name can find there, and it
holds every tensor the effect cuts. -/
structure Effect.Fits (e : Effect) (g : Netlist) : Prop where
  ports_below : e.block.PortsBelow g.tensors.size
  old_reachable : ∀ t, e.block.HoldsOld t → t ∈ g.reachable
  cut_held : ∀ c ∈ e.cuts, e.block.HoldsOld c.tensor

/-- The `k`-th tensor a block appends bears the name it was given. -/
theorem Block.name_tensorAt_mem (b : Block) {k : Nat} (hk : k < b.tensors.length) :
    (b.tensorAt k).name ∈ b.tensors.map (·.1) := by
  rw [Block.tensorAt, List.getElem?_eq_getElem hk]
  exact List.mem_map_of_mem (List.getElem_mem hk)

/-- A port placed below `base` is an old tensor: new ports are placed from `base` on. -/
theorem Port.place_eq_old_iff {p : Port} {base t : Nat} (ht : t < base) :
    p.place base = t ↔ p = .old t := by
  cases p with
  | old u => simp [Port.place]
  | new k => simp only [Port.place, reduceCtorEq, iff_false]; omega

/-- A placed block node holds an old tensor exactly when one of its ports is that tensor. -/
theorem BlockNode.ends_place_iff {x : BlockNode} {base t : Nat} (ht : t < base) :
    (∃ side, t ∈ (x.place base).ends side) ↔ Port.old t ∈ x.inputs ++ x.outputs := by
  have hmem : ∀ ps : List Port, t ∈ ps.map (Port.place base) ↔ Port.old t ∈ ps := by
    intro ps
    simp only [List.mem_map, Port.place_eq_old_iff ht, exists_eq_right]
  constructor
  · rintro ⟨side, hside⟩
    cases side
    · exact List.mem_append_left _ ((hmem _).1 hside)
    · exact List.mem_append_right _ ((hmem _).1 hside)
  · intro h
    rcases List.mem_append.1 h with h | h
    · exact ⟨.consumers, (hmem _).2 h⟩
    · exact ⟨.producers, (hmem _).2 h⟩

namespace Netlist

/-- Some node of `g` holds tensor `t` on one of its sides. -/
def Holds (g : Netlist) (t : Nat) : Prop :=
  ∃ n < g.nodes.size, ∃ side, t ∈ (g.node n).ends side

theorem mem_reachable_iff_holds {g : Netlist} {t : Nat} :
    t ∈ g.reachable ↔ t ∈ g.inputs ∨ t ∈ g.outputs ∨ g.Holds t :=
  mem_reachable

/-- Every reachable tensor of a netlist whose ends are in range is a tensor of it. -/
theorem InRange.reachable_lt {g : Netlist} (h : g.InRange) {t : Nat} (ht : t ∈ g.reachable) :
    t < g.tensors.size := by
  rcases mem_reachable.1 ht with hin | hout | ⟨n, -, side, hside⟩
  · exact h.inputs_lt t hin
  · exact h.outputs_lt t hout
  · exact h.ends_lt n side t hside

/-- `g` with the effects applied: every cut of every effect, then every block in order. -/
def applyEffects (g : Netlist) (es : List Effect) : Netlist :=
  (g.cutBy (es.flatMap (·.cuts))).appendBlocks (es.map (·.block))

/-! ### Appending blocks -/

section Blocks

variable (g : Netlist) (bs : List Block)

@[simp] theorem inputs_appendBlocks : (g.appendBlocks bs).inputs = g.inputs := by
  induction bs generalizing g with
  | nil => rfl
  | cons b bs ih => rw [appendBlocks_cons, ih, inputs_appendBlock]

@[simp] theorem outputs_appendBlocks : (g.appendBlocks bs).outputs = g.outputs := by
  induction bs generalizing g with
  | nil => rfl
  | cons b bs ih => rw [appendBlocks_cons, ih, outputs_appendBlock]

theorem tensors_size_le_appendBlocks : g.tensors.size ≤ (g.appendBlocks bs).tensors.size := by
  induction bs generalizing g with
  | nil => exact Nat.le_refl _
  | cons b bs ih =>
    rw [appendBlocks_cons]
    exact Nat.le_trans (by simp) (ih _)

theorem tensor_appendBlocks_of_lt {t : Nat} (ht : t < g.tensors.size) :
    (g.appendBlocks bs).tensor t = g.tensor t := by
  induction bs generalizing g with
  | nil => rfl
  | cons b bs ih =>
    rw [appendBlocks_cons, ih _ (by simp; omega), tensor_appendBlock_of_lt _ _ ht]

/-- Every tensor appended by blocks bears a name one of the blocks gave. -/
theorem name_appendBlocks_new {t : Nat} (hle : g.tensors.size ≤ t)
    (hlt : t < (g.appendBlocks bs).tensors.size) :
    ∃ b ∈ bs, ((g.appendBlocks bs).tensor t).name ∈ b.tensors.map (·.1) := by
  induction bs generalizing g with
  | nil => exact absurd hlt (Nat.not_lt_of_le hle)
  | cons b bs ih =>
    rw [appendBlocks_cons] at hlt ⊢
    by_cases hb : t < (g.appendBlock b).tensors.size
    · -- a tensor of the first block, which the later blocks keep
      refine ⟨b, List.mem_cons_self, ?_⟩
      rw [tensor_appendBlocks_of_lt _ _ hb, tensor_appendBlock, if_neg (Nat.not_lt_of_le hle)]
      exact b.name_tensorAt_mem (by simp at hb; omega)
    · obtain ⟨b', hb', hname⟩ := ih _ (Nat.le_of_not_lt hb) hlt
      exact ⟨b', List.mem_cons_of_mem _ hb', hname⟩

variable {g}

/-- After appending a block, an old tensor is held by an old node or by a node of the block. -/
theorem holds_appendBlock_iff {b : Block} {t : Nat} (ht : t < g.tensors.size) :
    (g.appendBlock b).Holds t ↔ g.Holds t ∨ b.HoldsOld t := by
  constructor
  · rintro ⟨n, hn, side, hside⟩
    rw [node_appendBlock] at hside
    split at hside
    · exact .inl ⟨n, by assumption, side, hside⟩
    · -- a node of the block, placed after the old tensors
      unfold Block.nodeAt at hside
      split at hside
      · rename_i x hx
        exact .inr ⟨x, List.mem_of_getElem? hx, (BlockNode.ends_place_iff ht).1 ⟨side, hside⟩⟩
      · simp at hside
  · rintro (⟨n, hn, side, hside⟩ | ⟨x, hx, hport⟩)
    · refine ⟨n, by simp; omega, side, ?_⟩
      rwa [node_appendBlock_of_lt _ _ hn]
    · obtain ⟨k, hk, rfl⟩ := List.getElem_of_mem hx
      obtain ⟨side, hside⟩ := (BlockNode.ends_place_iff ht).2 hport
      refine ⟨g.nodes.size + k, by simp; omega, side, ?_⟩
      rwa [node_appendBlock_add, Block.nodeAt, List.getElem?_eq_getElem hk]

theorem holds_appendBlocks_iff {t : Nat} (ht : t < g.tensors.size) :
    (g.appendBlocks bs).Holds t ↔ g.Holds t ∨ ∃ b ∈ bs, b.HoldsOld t := by
  induction bs generalizing g with
  | nil => simp [appendBlocks]
  | cons b bs ih =>
    rw [appendBlocks_cons, ih (by simp; omega), holds_appendBlock_iff ht]
    simp only [List.mem_cons, exists_eq_or_imp, or_assoc]

end Blocks

/-- After cutting, a node holds `t` on a side where it held it and no cut hits it. -/
theorem holds_cutBy_iff {g : Netlist} {cs : List Cut} {t : Nat} :
    (g.cutBy cs).Holds t ↔
      ∃ n < g.nodes.size, ∃ side, t ∈ (g.node n).ends side ∧
        cs.any (·.hits side t (g.node n).name) = false := by
  simp only [Holds, nodes_size_cutBy, node_cutBy, NetNode.ends_cutBy, List.mem_filter,
    Bool.not_eq_eq_eq_not, Bool.not_true]

theorem Holds.of_cutBy {g : Netlist} {cs : List Cut} {t : Nat} (h : (g.cutBy cs).Holds t) :
    g.Holds t := by
  obtain ⟨n, hn, side, hside, -⟩ := holds_cutBy_iff.1 h
  exact ⟨n, hn, side, hside⟩

/-- Cutting only takes tensors off nodes, so it makes no tensor reachable. -/
theorem reachable_cutBy_subset {g : Netlist} {cs : List Cut} {t : Nat}
    (ht : t ∈ (g.cutBy cs).reachable) : t ∈ g.reachable := by
  rw [mem_reachable_iff_holds] at ht ⊢
  rcases ht with ht | ht | ht
  · exact .inl ht
  · exact .inr (.inl ht)
  · exact .inr (.inr ht.of_cutBy)

/-! ### Effects -/

section Effects

variable {g : Netlist} {es : List Effect}

@[simp] theorem inputs_applyEffects : (g.applyEffects es).inputs = g.inputs := by
  simp [applyEffects]

@[simp] theorem outputs_applyEffects : (g.applyEffects es).outputs = g.outputs := by
  simp [applyEffects]

theorem tensors_size_le_applyEffects : g.tensors.size ≤ (g.applyEffects es).tensors.size :=
  tensors_size_le_appendBlocks (g.cutBy _) _

theorem tensor_applyEffects_of_lt {t : Nat} (ht : t < g.tensors.size) :
    (g.applyEffects es).tensor t = g.tensor t :=
  tensor_appendBlocks_of_lt (g.cutBy _) _ ht

/-- Every tensor the effects append bears a name one of their blocks gave. -/
theorem name_applyEffects_new {t : Nat} (hle : g.tensors.size ≤ t)
    (hlt : t < (g.applyEffects es).tensors.size) :
    ∃ e ∈ es, ((g.applyEffects es).tensor t).name ∈ e.block.tensors.map (·.1) := by
  obtain ⟨b, hb, hname⟩ := name_appendBlocks_new (g.cutBy _) _ hle hlt
  obtain ⟨e, he, rfl⟩ := List.mem_map.1 hb
  exact ⟨e, he, hname⟩

theorem InRange.applyEffects (hg : g.InRange) (hfit : ∀ e ∈ es, e.Fits g) :
    (g.applyEffects es).InRange := by
  refine (hg.cutBy _).appendBlocks fun b hb => ?_
  obtain ⟨e, he, rfl⟩ := List.mem_map.1 hb
  exact (hfit e he).ports_below

@[simp] theorem applyEffects_nil (g : Netlist) : g.applyEffects [] = g := by
  simp [applyEffects]

/-- One more effect whose cuts spare the nodes of the earlier blocks. -/
theorem applyEffects_concat (e : Effect)
    (hspare : ∀ e' ∈ es, ∀ x ∈ e'.block.nodes, ∀ c ∈ e.cuts, x.name ∉ c.names) :
    ((g.applyEffects es).cutBy e.cuts).appendBlock e.block = g.applyEffects (es ++ [e]) := by
  have hblocks : ∀ b ∈ es.map (·.block), ∀ x ∈ b.nodes, ∀ c ∈ e.cuts, x.name ∉ c.names := by
    intro b hb
    obtain ⟨e', he', rfl⟩ := List.mem_map.1 hb
    exact hspare e' he'
  rw [applyEffects, cutBy_appendBlocks _ _ hblocks, cutBy_cutBy, ← appendBlocks_concat,
    applyEffects, List.flatMap_append, List.flatMap_singleton, List.map_append, List.map_singleton]

/-- A tensor of `g` is reachable once effects that fit `g` are applied exactly when it is
reachable in `g`: a block holds only tensors reachable in `g`, and holds every tensor its
effect cuts. -/
theorem reachable_applyEffects_iff (hfit : ∀ e ∈ es, e.Fits g) {t : Nat} (ht : t < g.tensors.size) :
    t ∈ (g.applyEffects es).reachable ↔ t ∈ g.reachable := by
  have hcut : (g.cutBy (es.flatMap (·.cuts))).tensors.size = g.tensors.size := rfl
  rw [mem_reachable_iff_holds, inputs_applyEffects, outputs_applyEffects, applyEffects,
    holds_appendBlocks_iff _ (hcut ▸ ht)]
  constructor
  · rintro (hin | hout | hcutHolds | ⟨b, hb, hold⟩)
    · exact mem_reachable_iff_holds.2 (.inl hin)
    · exact mem_reachable_iff_holds.2 (.inr (.inl hout))
    · exact mem_reachable_iff_holds.2 (.inr (.inr hcutHolds.of_cutBy))
    · obtain ⟨e, he, rfl⟩ := List.mem_map.1 hb
      exact (hfit e he).old_reachable t hold
  · intro hreach
    rcases mem_reachable_iff_holds.1 hreach with hin | hout | ⟨n, hn, side, hside⟩
    · exact .inl hin
    · exact .inr (.inl hout)
    · -- a node of `g` that holds `t` keeps it, unless a cut takes it, and then the block of
      -- that cut's effect holds it
      by_cases hhit : (es.flatMap (·.cuts)).any (·.hits side t (g.node n).name) = false
      · exact .inr (.inr (.inl (holds_cutBy_iff.2 ⟨n, hn, side, hside, hhit⟩)))
      · obtain ⟨c, hc, hits⟩ := List.any_eq_true.1 (Bool.not_eq_false _ ▸ hhit)
        obtain ⟨e, he, hce⟩ := List.mem_flatMap.1 hc
        have htensor : c.tensor = t := by
          simp only [Cut.hits, Bool.and_eq_true, beq_iff_eq] at hits
          exact hits.1.2
        exact .inr (.inr (.inr ⟨e.block, List.mem_map_of_mem he,
          htensor ▸ (hfit e he).cut_held c hce⟩))

/-- Effects that fit `g`, applied in any two orders, give isomorphic netlists, by a
renumbering that fixes every tensor of `g`: the cuts are made all at once, and only the blocks
come in another order. -/
theorem applyEffects_perm (hg : g.InRange) {es' : List Effect} (hp : es.Perm es')
    (hfit : ∀ e ∈ es, e.Fits g) :
    ∃ τ ν, IsoBy τ ν (g.applyEffects es) (g.applyEffects es') ∧ ∀ t < g.tensors.size, τ t = t := by
  have hcuts : ∀ c, c ∈ es.flatMap (·.cuts) ↔ c ∈ es'.flatMap (·.cuts) := by
    intro c
    simp only [List.mem_flatMap, hp.mem_iff]
  unfold applyEffects
  rw [cutBy_congr g hcuts]
  refine appendBlocks_perm (hp.map _) _ (hg.cutBy _) fun b hb => ?_
  obtain ⟨e, he, rfl⟩ := List.mem_map.1 hb
  exact (hfit e he).ports_below

end Effects

/-! ### Netlists that keep the tensors of another -/

/-- `G` keeps every tensor of `g`, under its name and with its payload, and may have more. -/
structure Extends (g G : Netlist) : Prop where
  size_le : g.tensors.size ≤ G.tensors.size
  name_eq : ∀ t < g.tensors.size, (G.tensor t).name = (g.tensor t).name
  payload_eq : ∀ t < g.tensors.size, (G.tensor t).payload = (g.tensor t).payload

theorem Extends.same {g G G' : Netlist} (h : Extends g G) (s : Same G G') : Extends g G' where
  size_le := s.tensors_size ▸ h.size_le
  name_eq t ht := (s.name_eq t).trans (h.name_eq t ht)
  payload_eq t ht := (s.payload_eq t).trans (h.payload_eq t ht)

theorem Extends.cutBy {g G : Netlist} (h : Extends g G) (cs : List Cut) : Extends g (G.cutBy cs) :=
  ⟨h.size_le, h.name_eq, h.payload_eq⟩

theorem extends_applyEffects (g : Netlist) (es : List Effect) : Extends g (g.applyEffects es) where
  size_le := tensors_size_le_applyEffects
  name_eq t ht := by rw [tensor_applyEffects_of_lt ht]
  payload_eq t ht := by rw [tensor_applyEffects_of_lt ht]

/-! ### Finding tensors by name -/

section Find

variable {g M : Netlist} {s : String}

/-- A name that finds `t` in a netlist that keeps the tensors of `g` under their names, bears
`s` on no other tensor and reaches no tensor of `g` that `g` does not, finds `t` in `g`, when
the tensors of `g` bear distinct names. -/
theorem find?_eq_some_of_keeps (hg : g.InRange) (hM : M.InRange)
    (hinj : ∀ t u, t < g.tensors.size → u < g.tensors.size →
      (g.tensor t).name = (g.tensor u).name → t = u)
    (hname : ∀ t < g.tensors.size, (M.tensor t).name = (g.tensor t).name)
    (hnew : ∀ t, g.tensors.size ≤ t → t < M.tensors.size → (M.tensor t).name ≠ s)
    (hreach : ∀ t < g.tensors.size, t ∈ M.reachable → t ∈ g.reachable) {t : Nat}
    (hfind : M.find? s = some t) : g.find? s = some t := by
  rw [find?_eq_find?_reachable] at hfind
  have hmem := List.mem_of_find?_eq_some hfind
  have hts : (M.tensor t).name = s := by simpa using List.find?_some hfind
  -- the tensor found is one of `g`, since the others do not bear `s`
  have hlt : t < g.tensors.size := by
    by_contra hge
    exact hnew t (Nat.le_of_not_lt hge) (hM.reachable_lt hmem) hts
  rw [hname t hlt] at hts
  rw [find?_of_unique hts fun u hu hus => hinj u t (hg.reachable_lt hu) hlt (hus.trans hts.symm),
    if_pos (hreach t hlt hmem)]

/-- A name finds the same tensor in `g` and in a netlist that keeps the tensors of `g` under
their names and their reachability and bears the name on no other tensor, when the tensors of
`g` bear distinct names. -/
theorem find?_eq_of_keeps (hg : g.InRange) (hM : M.InRange)
    (hinj : ∀ t u, t < g.tensors.size → u < g.tensors.size →
      (g.tensor t).name = (g.tensor u).name → t = u)
    (hname : ∀ t < g.tensors.size, (M.tensor t).name = (g.tensor t).name)
    (hnew : ∀ t, g.tensors.size ≤ t → t < M.tensors.size → (M.tensor t).name ≠ s)
    (hreach : ∀ t < g.tensors.size, t ∈ M.reachable ↔ t ∈ g.reachable) :
    M.find? s = g.find? s := by
  rcases hgs : g.find? s with _ | t
  · -- nothing found in `g`: a tensor found in `M` would be found in `g`
    rcases hMs : M.find? s with _ | t
    · rfl
    · have := find?_eq_some_of_keeps hg hM hinj hname hnew (fun t ht => (hreach t ht).1) hMs
      rw [hgs] at this
      cases this
  · rw [find?_eq_find?_reachable] at hgs
    have hmem := List.mem_of_find?_eq_some hgs
    have hts : (g.tensor t).name = s := by simpa using List.find?_some hgs
    have hlt := hg.reachable_lt hmem
    -- in `M` the same tensor is reachable and is the only one that bears `s`
    have huniq : ∀ u ∈ M.reachable, (M.tensor u).name = s → u = t := by
      intro u hu hus
      by_cases hul : u < g.tensors.size
      · rw [hname u hul] at hus
        exact hinj u t hul hlt (hus.trans hts.symm)
      · exact absurd hus (hnew u (Nat.le_of_not_lt hul) (hM.reachable_lt hu))
    rw [find?_of_unique ((hname t hlt).trans hts) huniq, if_pos ((hreach t hlt).2 hmem)]

variable {es : List Effect}

/-- When the tensors of `g` bear distinct names and no block appends a tensor named `s`, the
name finds the same tensor once the effects are applied. -/
theorem find?_applyEffects (hg : g.InRange)
    (hinj : ∀ t u, t < g.tensors.size → u < g.tensors.size →
      (g.tensor t).name = (g.tensor u).name → t = u)
    (hfit : ∀ e ∈ es, e.Fits g) (hfresh : ∀ e ∈ es, s ∉ e.block.tensors.map (·.1)) :
    (g.applyEffects es).find? s = g.find? s := by
  refine find?_eq_of_keeps hg (hg.applyEffects hfit) hinj
    (fun t ht => by rw [tensor_applyEffects_of_lt ht]) (fun t hle hlt hts => ?_)
    (fun t ht => reachable_applyEffects_iff hfit ht)
  obtain ⟨e, he, hname⟩ := name_applyEffects_new hle hlt
  exact hfresh e he (hts ▸ hname)

/-- After further cuts, a name that finds a tensor finds the one it finds in `g`. -/
theorem find?_cutBy_applyEffects (hg : g.InRange)
    (hinj : ∀ t u, t < g.tensors.size → u < g.tensors.size →
      (g.tensor t).name = (g.tensor u).name → t = u)
    (hfit : ∀ e ∈ es, e.Fits g) (hfresh : ∀ e ∈ es, s ∉ e.block.tensors.map (·.1))
    (cs : List Cut) {t : Nat} (hfind : ((g.applyEffects es).cutBy cs).find? s = some t) :
    g.find? s = some t := by
  refine find?_eq_some_of_keeps hg ((hg.applyEffects hfit).cutBy cs) hinj
    (fun t ht => by rw [tensor_cutBy, tensor_applyEffects_of_lt ht]) (fun t hle hlt hts => ?_)
    (fun t ht hreach => (reachable_applyEffects_iff hfit ht).1 (reachable_cutBy_subset hreach))
    hfind
  obtain ⟨e, he, hname⟩ := name_applyEffects_new hle hlt
  exact hfresh e he (hts ▸ hname)

end Find

/-! ### Unlinking and appending, up to links -/

/-- Unlinks, one after the other, the sides that a list of cuts names. -/
def unlinkBy (g : Netlist) (cs : List Cut) : Netlist :=
  cs.foldl (fun acc c => Fusion.unlink acc c.side c.tensor c.names) g

/-- In a linked netlist, unlinking the sides that a list of cuts names is making the cuts, up
to links; the netlist stays linked. -/
theorem unlinks_same_cutBy :
    ∀ (cs : List Cut) {g : Netlist}, g.Linked → Same (g.cutBy cs) (g.unlinkBy cs) ∧ (g.unlinkBy cs).Linked
  | [], g, h => by simpa [unlinkBy] using ⟨Same.refl g, h⟩
  | c :: cs, g, h => by
    -- the first unlinking is the first cut, and the rest follow from the netlist it leaves
    obtain ⟨hsame, hlinked⟩ := unlinks_same_cutBy cs (h.unlink c.side c.tensor c.names)
    refine ⟨?_, hlinked⟩
    have hfirst := (unlink_same_cutBy c.side c.tensor c.names h).cutBy cs
    rw [cutBy_cutBy] at hfirst
    exact hfirst.trans hsame

/-- Appending a node, up to links, is pushing it onto the nodes. -/
theorem same_addNode (g : Netlist) (op name : String) (attrs : Record) (ins outs : List Nat) :
    Same { g with nodes := g.nodes.push ⟨op, name, attrs, ins, outs⟩ }
      (g.addNode op name attrs ins outs).1 where
  tensors_size := by simp
  name_eq t := name_addNode g op name attrs ins outs t
  payload_eq t := payload_addNode g op name attrs ins outs t
  nodes_eq := nodes_addNode g op name attrs ins outs
  inputs_eq := by simp
  outputs_eq := by simp

/-- Appending a tensor is appending a block of that tensor alone. -/
theorem addTensor_eq_appendBlock (g : Netlist) (name : String) (p : Payload) :
    (g.addTensor name p).1 = g.appendBlock ⟨[(name, p)], []⟩ := by
  simp [addTensor, appendBlock]

/-- Blocks of tensors alone appended one after the other are one block. -/
theorem appendBlock_appendBlock_tensors (g : Netlist) (ts ts' : List (String × Payload)) :
    (g.appendBlock ⟨ts, []⟩).appendBlock ⟨ts', []⟩ = g.appendBlock ⟨ts ++ ts', []⟩ := by
  simp [appendBlock, Array.append_assoc]

/-- Appending a node to a netlist that is, up to links, `g` with a block appended is appending
the block with that node last, when the node's ends are the block node's ports placed after
`g`. -/
theorem same_appendBlock_addNode {g G : Netlist} {ts : List (String × Payload)}
    {ns : List BlockNode} (s : Same (g.appendBlock ⟨ts, ns⟩) G) (x : BlockNode)
    {op name : String} {attrs : Record} {ins outs : List Nat}
    (hx : x.place g.tensors.size = ⟨op, name, attrs, ins, outs⟩) :
    Same (g.appendBlock ⟨ts, ns ++ [x]⟩) (G.addNode op name attrs ins outs).1 := by
  refine Same.trans ?_ ((s.addNode op name attrs ins outs).trans (Same.refl _))
  refine Same.trans ?_ (same_addNode _ op name attrs ins outs)
  have hnodes : (g.appendBlock ⟨ts, ns ++ [x]⟩).nodes =
      (g.appendBlock ⟨ts, ns⟩).nodes.push ⟨op, name, attrs, ins, outs⟩ := by
    simp [appendBlock, hx]
  exact ⟨rfl, fun _ => rfl, fun _ => rfl, hnodes.symm, rfl, rfl⟩

/-- Adds the node a block node becomes once the appended tensors start at `base`. -/
def addPlaced (base : Nat) (G : Netlist) (x : BlockNode) : Netlist :=
  let n := x.place base
  (G.addNode n.op n.name n.attrs n.inputs n.outputs).1

/-- Adds a block the way a fusion builds its replacement: its tensors, then its nodes one at a
time, each linked to its ends. -/
def addBlock (g : Netlist) (b : Block) : Netlist :=
  b.nodes.foldl (addPlaced g.tensors.size) (g.appendBlock ⟨b.tensors, []⟩)

theorem same_appendBlock_addPlaced (g : Netlist) (ts : List (String × Payload)) :
    ∀ (ns ns₀ : List BlockNode) (G : Netlist), Same (g.appendBlock ⟨ts, ns₀⟩) G →
      Same (g.appendBlock ⟨ts, ns₀ ++ ns⟩) (ns.foldl (addPlaced g.tensors.size) G)
  | [], ns₀, G, s => by simpa using s
  | x :: ns, ns₀, G, s => by
    rw [List.append_cons]
    exact same_appendBlock_addPlaced g ts ns _ _ (same_appendBlock_addNode s x rfl)

/-- Adding a block is, up to links, appending it. -/
theorem same_appendBlock_addBlock (g : Netlist) (b : Block) : Same (g.appendBlock b) (g.addBlock b) :=
  same_appendBlock_addPlaced g b.tensors b.nodes [] _ (Same.refl _)

theorem Port.place_lt {p : Port} {size count : Nat} (h : p.Below size count) :
    p.place size < size + count := by
  cases p with
  | old t => exact Nat.lt_add_right _ h
  | new k => exact Nat.add_lt_add_left h _

theorem Linked.appendBlock_tensors {g : Netlist} (h : g.Linked) :
    ∀ ts : List (String × Payload), (g.appendBlock ⟨ts, []⟩).Linked
  | [] => by simpa [appendBlock] using h
  | t :: ts => by
    rw [← List.singleton_append, ← appendBlock_appendBlock_tensors, ← addTensor_eq_appendBlock]
    exact (h.addTensor t.1 t.2).appendBlock_tensors ts

/-- Nodes whose ports lie below the old size or among the appended tensors keep a netlist
linked; the induction runs over the nodes with the netlist they are added to. -/
theorem Linked.foldl_addPlaced {base count : Nat} :
    ∀ (ns : List BlockNode) {G : Netlist}, G.Linked → G.tensors.size = base + count →
      (∀ x ∈ ns, ∀ p ∈ x.inputs ++ x.outputs, p.Below base count) →
      (ns.foldl (addPlaced base) G).Linked
  | [], _, h, _, _ => h
  | x :: ns, G, h, hsize, hports => by
    have hlt : ∀ p ∈ x.inputs ++ x.outputs, p.place base < G.tensors.size := fun p hp =>
      hsize ▸ Port.place_lt (hports x List.mem_cons_self p hp)
    have hx : (addPlaced base G x).Linked := by
      refine h.addNode _ _ _ _ _ (fun t ht => ?_) (fun t ht => ?_)
      · obtain ⟨p, hp, rfl⟩ := List.mem_map.1 ht
        exact hlt p (List.mem_append_left _ hp)
      · obtain ⟨p, hp, rfl⟩ := List.mem_map.1 ht
        exact hlt p (List.mem_append_right _ hp)
    exact Linked.foldl_addPlaced ns hx (by simp [addPlaced, hsize])
      fun y hy => hports y (List.mem_cons_of_mem _ hy)

/-- Adding a block whose ports lie below the size of a linked netlist keeps it linked. -/
theorem Linked.addBlock {g : Netlist} (h : g.Linked) {b : Block} (hb : b.PortsBelow g.tensors.size) :
    (g.addBlock b).Linked :=
  Linked.foldl_addPlaced b.nodes (h.appendBlock_tensors b.tensors) (by simp) hb

end Netlist

end OnnxFusion

import OnnxFusion.Netlist.Import
import OnnxFusion.Proofs.Fusion.Edit
/-!
# What a fault leaves behind

A fusion edits the netlist in place and is not undone when it faults. Each fusion prepares
first: it reads the replacement, looks its tensors up, unlinks the matched nodes from them
and checks what it needs, with faults possible between these steps; then it builds, which
cannot fault. So a fault can come only from the preparation, after some of the unlinking
was done.

* `layerNormPrepare_keeps`, `attentionPrepare_keeps`, `logDivPrepare_keeps`,
  `convBatchNormPrepare_keeps`: every run of a preparation, to a result or to a fault, only
  takes links of nodes named like the matched nodes away. Each step of a preparation reads,
  or detaches a tensor, and both keep `Edit.Keeps`.
* `edit_error_unlinked`: a fusion that faults leaves the netlist its preparation left.
* `run_fault_unlinked`: when carrying out a replacement faults, the executor's netlist has
  no new tensor or node, the same graph inputs and outputs, the same tensor names and
  values, every node named unlike the matched nodes as it was, and on each side of each
  tensor the nodes of other names still there in order. Links of nodes named like the
  matched nodes may be gone.
* `logDiv_fault_only_unlinks`, `logDiv_fault_unlinks_operands`: the netlist does change. A replacement of `Log (a / b)`
  whose output names no tensor unlinks the `Div` from `a` and `b`, then faults.
-/

set_option autoImplicit false

namespace OnnxFusion

open Edit

namespace Fusion

theorem layerNormPrepare_keeps (r : Replacement) : Keeps r.nodeNames (layerNormPrepare r) := by
  unfold layerNormPrepare
  -- every bound step reads, or detaches a tensor
  repeat' with_reducible refine Keeps.bind ?_ fun _ => ?_
  all_goals simp
  -- what is left reads `epsilon`: converted when present, a fault when missing
  split <;> simp

theorem attentionPrepare_keeps (r : Replacement) : Keeps r.nodeNames (attentionPrepare r) := by
  unfold attentionPrepare
  repeat' with_reducible refine Keeps.bind ?_ fun _ => ?_
  all_goals simp

theorem logDivPrepare_keeps (r : Replacement) : Keeps r.nodeNames (logDivPrepare r) := by
  unfold logDivPrepare
  repeat' with_reducible refine Keeps.bind ?_ fun _ => ?_
  all_goals simp

theorem convBatchNormPrepare_keeps (r : Replacement) :
    Keeps r.nodeNames (convBatchNormPrepare r) := by
  unfold convBatchNormPrepare
  repeat' with_reducible refine Keeps.bind ?_ fun _ => ?_
  all_goals simp

end Fusion

namespace Replacement

variable {names : List String} {g g' : Netlist} {f : Fault}

/-- A fusion made of a preparation that only unlinks and a build that cannot fault leaves,
when it faults, the netlist the preparation left. -/
theorem error_unlinked_of_prepare {α : Type} {prepare : Edit α} {build : α → Netlist → Netlist}
    (hk : Keeps names prepare)
    (h : ((prepare >>= fun p => modify (build p)) >>= fun _ => pure true).exec g = (.error f, g')) :
    Netlist.Unlinked names g g' := by
  have h₁ := exec_bind_eq_error (fun _ _ => ⟨_, _, rfl⟩) h
  have h₂ := exec_bind_eq_error (fun _ _ => ⟨_, _, rfl⟩) h₁
  simpa [h₂] using hk g

/-- A replacement that faults leaves the netlist with links of nodes named like the matched
nodes taken away, and nothing else changed. -/
theorem edit_error_unlinked {r : Replacement} (h : r.edit.exec g = (.error f, g')) :
    Netlist.Unlinked r.nodeNames g g' := by
  unfold edit at h
  split at h
  · exact error_unlinked_of_prepare (Fusion.convBatchNormPrepare_keeps r) h
  · exact error_unlinked_of_prepare (Fusion.layerNormPrepare_keeps r) h
  · exact error_unlinked_of_prepare (Fusion.attentionPrepare_keeps r) h
  · exact error_unlinked_of_prepare (Fusion.logDivPrepare_keeps r) h
  · -- no fusion has the pattern's name: nothing runs and nothing faults
    simp at h

end Replacement

namespace Executor

/-- When carrying out a replacement faults, the executor's netlist is the one it held with
links of nodes named like the matched nodes taken away: no tensor or node is added, the
graph inputs and outputs, tensor names and values and every node named otherwise are as
they were, and on each side of each tensor the nodes of other names all stay, in order. -/
theorem run_fault_unlinked {e e' : Executor} {G : Netlist} {r : Replacement} {f : Fault}
    (hg : e.graph = some G) (h : e.run r = (.error f, e')) :
    ∃ G', e'.graph = some G' ∧ Netlist.Unlinked r.nodeNames G G' := by
  unfold run at h
  rw [hg] at h
  dsimp only at h
  rcases hx : r.edit.exec G with ⟨f' | ok, G'⟩ <;> rw [hx] at h
  · -- the fault of the fusion, with the netlist it left
    simp only [Prod.mk.injEq, Except.error.injEq] at h
    obtain ⟨rfl, rfl⟩ := h
    exact ⟨G', rfl, Replacement.edit_error_unlinked hx⟩
  · cases ok <;> simp at h

end Executor

namespace Proofs

/-- `Log (a / b)` with a `Div` named `D` and a `Log` named `L`. -/
def quotientGraph : GraphDef :=
  { nodes := [{ opType := "Div", name := "D", inputs := ["a", "b"], outputs := ["c"], attributes := [] },
      { opType := "Log", name := "L", inputs := ["c"], outputs := ["y"], attributes := [] }],
    initializers := [], inputs := [⟨"a", "float32", some [.size 2]⟩, ⟨"b", "float32", some [.size 2]⟩],
    outputs := [⟨"y", "float32", some [.size 2]⟩], valueInfo := [] }

/-- The rewrite of `Log (a / b)` in `quotientGraph`, asked to write a tensor that does not
exist. -/
def misdirectedLogDiv : Replacement :=
  { pattern := "LogDivPattern",
    nodes := [⟨0, "D", "Div", ["a", "b"], ["c"], []⟩, ⟨1, "L", "Log", ["c"], ["y"], []⟩],
    inputs := [.str "a", .str "b"], outputs := [.str "zzz"], attrs := [] }

/-- The fault of `misdirectedLogDiv` leaves `quotientGraph`'s netlist with links of the
matched nodes taken away and nothing else changed. -/
theorem logDiv_fault_only_unlinks :
    ∃ f e', Executor.run { graph := some (Netlist.ofGraphDef quotientGraph) } misdirectedLogDiv =
        (.error f, e') ∧
      ∃ G', e'.graph = some G' ∧
        Netlist.Unlinked misdirectedLogDiv.nodeNames (Netlist.ofGraphDef quotientGraph) G' :=
  ⟨_, _, rfl, Executor.run_fault_unlinked (e := { graph := some (Netlist.ofGraphDef quotientGraph) })
    rfl rfl⟩

/-- The rewrite faults on the missing output after it has unlinked the `Div` from `a`: the
netlist it leaves is not the one it was given. -/
theorem logDiv_fault_unlinks_operands :
    ∃ f e', Executor.run { graph := some (Netlist.ofGraphDef quotientGraph) } misdirectedLogDiv =
        (.error f, e') ∧
      ∃ G', e'.graph = some G' ∧
        (G'.tensor 0).consumers ≠ ((Netlist.ofGraphDef quotientGraph).tensor 0).consumers :=
  ⟨_, _, rfl, _, rfl, by decide⟩

end Proofs

end OnnxFusion

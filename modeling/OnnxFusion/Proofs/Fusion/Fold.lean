import OnnxFusion.Proofs.Fusion.Prepare
import OnnxFusion.Netlist.Import
/-!
# What the batch-normalisation fold reads

`foldBatchNorm` computes the weight and bias of the transposed convolution that replaces a
transposed convolution followed by a batch normalisation. It looks up the four parameters
of the normalisation by the names of its inputs 1 to 4 (scale, shift, mean, variance) and
reads the values of each, so a parameter without values is a fault. Of the values it reads,
it uses those of the weight, the bias, the scale, the mean and the variance: the shift is
read and dropped, and the bias of the result is `B · s + (B - μ · s)` for the convolution's
bias `B`, where the normalisation asks for `(B - μ) · s + β` with its shift `β`.

`foldBatchNorm_setValues_eq` states this for every netlist: a tensor that is none of those
five may hold any constant, the shift's own tensor among them, and the fold gives the same
weight and bias, or fails with the same fault.

* `Netlist.setValues`: the netlist with one tensor holding a given constant; it keeps the
  name table (`tensorMap_setValues`) and the values of every other tensor
  (`valuesOf_setValues_of_ne`).
* `valuesOf_setValues_discard`: a read whose result is dropped only tells whether the tensor
  holds a constant, which every `setValues` of it does.
-/

set_option autoImplicit false

namespace OnnxFusion

/-- The netlist with tensor `i` holding the constant `v`. -/
def Netlist.setValues (g : Netlist) (i : Nat) (v : Value) : Netlist :=
  g.modifyTensor i fun t => { t with payload := .constant v }

namespace Fusion

variable {α β : Type} {g : Netlist} {i : Nat} {v : Value}

@[simp] theorem ok_bind_eq (a : α) (f : α → Outcome β) : (Except.ok a : Outcome α) >>= f = f a :=
  rfl

@[simp] theorem error_bind_eq (e : Fault) (f : α → Outcome β) :
    (Except.error e : Outcome α) >>= f = .error e :=
  rfl

/-- Setting the values of a tensor keeps every name, so the name table stays. -/
theorem tensorMap_setValues : (g.setValues i v).tensorMap = g.tensorMap := by
  have hname : ∀ u, ((g.setValues i v).tensor u).name = (g.tensor u).name := by
    intro u
    rw [Netlist.setValues, Netlist.tensor_modifyTensor]
    split <;> rfl
  have hreach : (g.setValues i v).reachable = g.reachable := rfl
  simp only [Netlist.tensorMap, hreach, hname]

/-- Every other tensor keeps its values. -/
theorem valuesOf_setValues_of_ne {t : Option Nat} (ht : t ≠ some i) :
    valuesOf (g.setValues i v) t = valuesOf g t := by
  cases t with
  | none => rfl
  | some j =>
    have hij : ¬ (i = j ∧ j < g.tensors.size) := fun h => ht (h.1 ▸ rfl)
    simp only [valuesOf, Netlist.setValues, Netlist.tensor_modifyTensor, hij, if_false]

/-- Values read and dropped: the run goes on whatever constant the tensor holds. -/
theorem valuesOf_setValues_discard (v' : Value) (t : Option Nat) (k : Outcome β) :
    (valuesOf (g.setValues i v) t >>= fun _ => k) =
      (valuesOf (g.setValues i v') t >>= fun _ => k) := by
  by_cases ht : t = some i
  · subst ht
    -- tensor `i` holds a constant on both sides, or lies past the end on both
    by_cases hi : i < g.tensors.size <;>
      simp [valuesOf, Netlist.setValues, Netlist.tensor_modifyTensor, hi]
  · rw [valuesOf_setValues_of_ne ht, valuesOf_setValues_of_ne ht]

/-- The fold reads the values of the weight, the bias, and the scale, mean and variance of the
normalisation (inputs 1, 3 and 4): any other tensor, the shift (input 2) among them, may hold
any constant without changing the folded weight and bias. -/
theorem foldBatchNorm_setValues_eq {conv bn : Dataflow.Node} {weight? bias? : Option Nat}
    (hweight : weight? ≠ some i) (hbias : bias? ≠ some i)
    (hparams : ∀ k ∈ [1, 3, 4], ∀ name, bn.inputs[k]? = some name → g.find? name ≠ some i)
    (v v' : Value) :
    foldBatchNorm (g.setValues i v) conv bn weight? bias? =
      foldBatchNorm (g.setValues i v') conv bn weight? bias? := by
  unfold foldBatchNorm
  simp only [tensorMap_setValues, valuesOf_setValues_of_ne hweight,
    valuesOf_setValues_of_ne hbias, valuesOf_setValues_discard v']
  -- a missing parameter name stops both folds at the same step
  rcases h1 : bn.inputs[1]? with _ | s1
  · simp [item, h1]
  rcases h3 : bn.inputs[3]? with _ | s3
  · simp [item, h3]
  rcases h4 : bn.inputs[4]? with _ | s4
  · simp [item, h4]
  -- the three names find tensors other than `i`, which hold the values they hold in `g`
  have hs1 := hparams 1 (by simp) s1 h1
  have hs3 := hparams 3 (by simp) s3 h3
  have hs4 := hparams 4 (by simp) s4 h4
  simp only [Netlist.find?] at hs1 hs3 hs4
  simp only [item, h1, h3, h4, ok_bind_eq, valuesOf_setValues_of_ne hs1,
    valuesOf_setValues_of_ne hs3, valuesOf_setValues_of_ne hs4]

/-- A transposed convolution with weight `w` and bias `b` followed by a normalisation with
scale `s`, shift `beta`, mean `mu` and variance `var`, every parameter an initializer. -/
def shiftedConvModel : GraphDef :=
  { nodes := [⟨"ConvTranspose", "conv", ["x", "w", "b"], ["c"], []⟩,
      ⟨"BatchNormalization", "bn", ["c", "s", "beta", "mu", "var"], ["y"], []⟩],
    initializers := [("w", ⟨.float32, [1, 1, 1, 1], [.real 2.0]⟩), ("b", ⟨.float32, [1], [.real 0.5]⟩),
      ("s", ⟨.float32, [1], [.real 1.0]⟩), ("beta", ⟨.float32, [1], [.real 1.0]⟩),
      ("mu", ⟨.float32, [1], [.real 0.25]⟩), ("var", ⟨.float32, [1], [.real 1.0]⟩)],
    inputs := [⟨"x", "float32", some [.size 1, .size 1, .size 2, .size 2]⟩],
    outputs := [⟨"y", "float32", some [.size 1, .size 1, .size 2, .size 2]⟩], valueInfo := [] }

/-- In `shiftedConvModel` the shift `beta` is tensor 3, and the fold of the weight (tensor 0)
and bias (tensor 1) is the same whether `beta` holds 1 or 7. -/
theorem shiftedConv_fold_ignores_shift :
    (Netlist.ofGraphDef shiftedConvModel).find? "beta" = some 3 ∧
      foldBatchNorm ((Netlist.ofGraphDef shiftedConvModel).setValues 3 (.array ⟨.float32, [1], [.real 1.0]⟩))
          ⟨0, "conv", "ConvTranspose", ["x", "w", "b"], ["c"], []⟩
          ⟨1, "bn", "BatchNormalization", ["c", "s", "beta", "mu", "var"], ["y"], []⟩ (some 0) (some 1) =
        foldBatchNorm ((Netlist.ofGraphDef shiftedConvModel).setValues 3 (.array ⟨.float32, [1], [.real 7.0]⟩))
          ⟨0, "conv", "ConvTranspose", ["x", "w", "b"], ["c"], []⟩
          ⟨1, "bn", "BatchNormalization", ["c", "s", "beta", "mu", "var"], ["y"], []⟩ (some 0) (some 1) := by
  -- scale, mean and variance are tensors 2, 4 and 5
  have hparams : ∀ k ∈ [1, 3, 4], ∀ name,
      (["c", "s", "beta", "mu", "var"] : List String)[k]? = some name →
        (Netlist.ofGraphDef shiftedConvModel).find? name ≠ some 3 := by
    intro k hk name hname
    simp only [List.mem_cons, List.not_mem_nil, or_false] at hk
    rcases hk with rfl | rfl | rfl <;> cases hname <;> decide
  exact ⟨by decide, foldBatchNorm_setValues_eq (by decide) (by decide) hparams _ _⟩

end Fusion

end OnnxFusion

import Mathlib
import OnnxFusion.Analysis.Measure
import OnnxFusion.Proofs.Tensor.Elementwise
/-!
# The agreement measures on integer tensors

On two tensors of one integer type every operation of the measures stays in that type. The
differences and their squares in `Measure.meanSquaredError` are wrapped around the type, and
so is the sum of the products in `Tensor.dot`, the numerator of `Measure.cosineSimilarity`.
Since wrapping commutes with `+ - *` (`DType.wrap_sub_wrap`, ...), the result is the exact
integer value reduced into the type's range: the mean squared error is the mean of the exact
squares, each wrapped, and the dot product is the exact sum, wrapped
(`integerMeasures_wrap`). Values already in range are unchanged by a wrap
(`DType.wrap_eq_self`), so the measures are exact only while every square and the sum of the
products fit the type.
-/

set_option autoImplicit false

namespace OnnxFusion

namespace Tensor

/-- The tensor of type `t` and shape `d` holding the integers `xs`. -/
def ofInts (t : DType) (d : List Nat) (xs : List Int) : Tensor :=
  { dtype := t, dims := d, elems := xs.map .int }

section Integer

variable {t : DType}

theorem cast_int (ht : t.isInt = true) (n : Int) : Scalar.cast t (.int n) = .int (t.wrap n) := by
  cases t <;> simp [DType.isInt] at ht <;> rfl

theorem apply_ints (ht : t.isInt = true) (op : ArithOp) (x y : Int) :
    op.apply t (.int x) (.int y) = .ok (.int (t.wrap (op.onInt x y))) := by
  cases t <;> simp [DType.isInt] at ht <;> rfl

/-- Wrapping commutes with each operator but division. -/
theorem wrap_onInt_wrap (t : DType) {op : ArithOp} (hop : op ≠ .div) (x y : Int) :
    t.wrap (op.onInt (t.wrap x) (t.wrap y)) = t.wrap (op.onInt x y) := by
  cases op with
  | add => exact t.wrap_add_wrap x y
  | sub => exact t.wrap_sub_wrap x y
  | mul => exact t.wrap_mul_wrap x y
  | div => exact absurd rfl hop

theorem mapM_apply_ints (ht : t.isInt = true) (op : ArithOp) :
    ∀ xs ys : List Int,
      ((xs.map fun x => Scalar.int (t.wrap x)).zip (ys.map fun y => Scalar.int (t.wrap y))).mapM
          (fun p => op.apply t p.1 p.2) =
        .ok (List.zipWith (fun x y => Scalar.int (t.wrap (op.onInt (t.wrap x) (t.wrap y)))) xs ys)
  | [], _ => rfl
  | _ :: _, [] => rfl
  | x :: xs, y :: ys => by
    simp only [List.map_cons, List.zip_cons_cons, List.mapM_cons, apply_ints ht,
      mapM_apply_ints ht op xs ys]
    rfl

/-- Arithmetic other than division on two integer tensors of one type and consistent shape
gives the exact results, each wrapped around the type. -/
theorem arith_ofInts (ht : t.isInt = true) (op : ArithOp) (hop : op ≠ .div) {d : List Nat}
    {xs ys : List Int} (hx : xs.length = count d) (hy : ys.length = count d) :
    Operand.arith op (.tensor (ofInts t d xs)) (.tensor (ofInts t d ys)) =
      .ok (.tensor (ofInts t d (List.zipWith (fun x y => t.wrap (op.onInt x y)) xs ys))) := by
  have hdiv : (op == .div) = false := by
    cases op <;> first | exact absurd rfl hop | rfl
  rw [Operand.arith_sameShape op (a := ofInts t d xs) (b := ofInts t d ys) rfl rfl
    (by simp [ofInts, hx]) (by simp [ofInts, hy])]
  simp only [ofInts, hdiv, Bool.false_and, Bool.false_eq_true, if_false, List.map_map,
    Function.comp_def, cast_int ht]
  have helems : List.zipWith (fun x y => Scalar.int (t.wrap (op.onInt (t.wrap x) (t.wrap y)))) xs ys =
      (List.zipWith (fun x y => t.wrap (op.onInt x y)) xs ys).map .int := by
    simp [wrap_onInt_wrap t hop, List.map_zipWith]
  rw [mapM_apply_ints ht op xs ys, helems]
  rfl

/-- The integer fold of the dot product, over two lists of wrapped integers, adds up the
products of the wrapped values; `F` is the fold's step on a pair of integers. -/
theorem foldl_dot_ints {F : Int → Scalar × Scalar → Int}
    (hF : ∀ acc m n, F acc (.int m, .int n) = acc + m * n) (xs ys : List Int) : ∀ acc : Int,
    ((xs.map fun x => Scalar.int (t.wrap x)).zip (ys.map fun y => Scalar.int (t.wrap y))).foldl
        F acc =
      acc + (List.zipWith (fun x y => t.wrap x * t.wrap y) xs ys).sum := by
  induction xs generalizing ys with
  | nil => simp
  | cons x xs ih =>
    cases ys with
    | nil => simp
    | cons y ys =>
      intro acc
      simp only [List.map_cons, List.zip_cons_cons, List.foldl_cons, hF, ih, List.zipWith_cons_cons,
        List.sum_cons]
      omega

/-- Summing products of wrapped values keeps the residue of the exact sum of products. -/
theorem sum_wrap_mul_emod (t : DType) : ∀ xs ys : List Int,
    (List.zipWith (fun x y => t.wrap x * t.wrap y) xs ys).sum % t.modulus =
      (List.zipWith (· * ·) xs ys).sum % t.modulus
  | [], _ => by simp
  | _ :: _, [] => by simp
  | x :: xs, y :: ys => by
    have hmul : t.wrap x * t.wrap y % t.modulus = x * y % t.modulus := by
      rw [Int.mul_emod, DType.wrap_emod, DType.wrap_emod, ← Int.mul_emod]
    simp only [List.zipWith_cons_cons, List.sum_cons]
    rw [Int.add_emod, hmul, sum_wrap_mul_emod t xs ys, ← Int.add_emod]

theorem dot_ofInts (ht : t.isInt = true) (d e : List Nat) (xs ys : List Int) :
    (ofInts t d xs).dot (ofInts t e ys) = .int (t.wrap (List.zipWith (· * ·) xs ys).sum) := by
  have hwrap : t.wrap (List.zipWith (fun x y => t.wrap x * t.wrap y) xs ys).sum =
      t.wrap (List.zipWith (· * ·) xs ys).sum :=
    t.wrap_congr (sum_wrap_mul_emod t xs ys)
  unfold dot
  simp only [ofInts, DType.promote, beq_self_eq_true, if_true, List.map_map, Function.comp_def,
    cast_int ht]
  -- the match on the common type: only the integer types reach the wrapped sum
  cases t <;> simp [DType.isInt] at ht <;>
    rw [foldl_dot_ints (fun _ _ _ => rfl), Int.zero_add, hwrap]

/-- The mean squared error of two integer tensors of one type and consistent shape is the mean
of the exact squared differences, each wrapped around the type. -/
theorem meanSquaredError_ofInts (ht : t.isInt = true) {d : List Nat} {xs ys : List Int}
    (hx : xs.length = count d) (hy : ys.length = count d) :
    Measure.meanSquaredError (ofInts t d xs) (ofInts t d ys) =
      .ok (ofInts t d (List.zipWith (fun x y => t.wrap ((x - y) * (x - y))) xs ys)).mean.2 := by
  have hsub := arith_ofInts ht .sub (by decide) hx hy
  have hdiff : (List.zipWith (fun x y => t.wrap (ArithOp.sub.onInt x y)) xs ys).length =
      count d := by
    simp [hx, hy]
  have hmul := arith_ofInts ht .mul (by decide) hdiff hdiff
  have hsq : List.zipWith (fun a b => t.wrap (ArithOp.mul.onInt a b))
      (List.zipWith (fun x y => t.wrap (ArithOp.sub.onInt x y)) xs ys)
      (List.zipWith (fun x y => t.wrap (ArithOp.sub.onInt x y)) xs ys) =
      List.zipWith (fun x y => t.wrap ((x - y) * (x - y))) xs ys := by
    simp [List.zipWith_self, List.map_zipWith, ArithOp.onInt, DType.wrap_mul_wrap]
  have hdims : (ofInts t d xs).dims = (ofInts t d ys).dims := rfl
  simp only [Measure.meanSquaredError, hdims, bne_self_eq_false, Bool.false_eq_true, if_false,
    hsub, bind, Except.bind, Operand.asTensor, hmul, hsq, pure, Except.pure]

end Integer

end Tensor

namespace Measure

open Tensor

/-- On two tensors of one integer type and consistent shape, the mean squared error averages
the exact squared differences, each wrapped around the type, and the dot product, the
numerator of the cosine similarity, is the exact sum of the products wrapped around the
type. -/
theorem integerMeasures_wrap {t : DType} (ht : t.isInt = true) {d : List Nat} {xs ys : List Int}
    (hx : xs.length = count d) (hy : ys.length = count d) :
    meanSquaredError (ofInts t d xs) (ofInts t d ys) =
        .ok (ofInts t d (List.zipWith (fun x y => t.wrap ((x - y) * (x - y))) xs ys)).mean.2 ∧
      (ofInts t d xs).dot (ofInts t d ys) = .int (t.wrap (List.zipWith (· * ·) xs ys).sum) :=
  ⟨meanSquaredError_ofInts ht hx hy, dot_ofInts ht d d xs ys⟩

/-- `127` and `-128` as `int8`: the difference `255` wraps to `-1`, whose square is `1`. -/
theorem int8_extremes_wrap :
    DType.int8.isInt = true ∧ [(127 : Int)].length = count [1] ∧
      [(-128 : Int)].length = count [1] ∧
      (meanSquaredError (ofInts .int8 [1] [127]) (ofInts .int8 [1] [-128]) =
          .ok (ofInts .int8 [1] (List.zipWith (fun x y => DType.int8.wrap ((x - y) * (x - y)))
            [127] [-128])).mean.2 ∧
        (ofInts .int8 [1] [127]).dot (ofInts .int8 [1] [-128]) =
          .int (DType.int8.wrap (List.zipWith (· * ·) [127] [-128]).sum)) :=
  ⟨rfl, rfl, rfl, integerMeasures_wrap rfl rfl rfl⟩

example : List.zipWith (fun x y => DType.int8.wrap ((x - y) * (x - y))) [127] [-128] = [1] := by
  decide

end Measure

end OnnxFusion

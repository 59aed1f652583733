import Mathlib
import OnnxFusion.Tensor.Arith
/-!
# Element-wise arithmetic on tensors of one shape, and integer wrap-around

Two tensors of one shape meet element by element. No dimension is broadcast: the digits of a
position in the shape's own strides recompose the position (`sourceIndex_self`), so a
tensor's expansion to its own shape is its element list (`expand_self`), and
`Operand.arith` zips the two element lists (`arith_sameShape`).

Integer results wrap around their type. `DType.modulus` is `2 ^ w` for an integer type of
`w` bits and `0` for the other types; `DType.wrap` keeps the residue of its argument modulo it
(`wrap_emod`) and reads nothing else (`wrap_congr`). So wrapping between two operations does
not change the wrapped result (`wrap_sub_wrap`, `wrap_mul_wrap`).
-/

set_option autoImplicit false

namespace OnnxFusion

namespace DType

/-- The modulus integer results of the type are reduced by: `2 ^ w` for `w` bits, and `0`,
no reduction, for floats and booleans. -/
def modulus (t : DType) : Int :=
  match t.intWidth? with
  | some (w, _) => (Nat.pow 2 w : Nat)
  | none => 0

/-- Wrapping keeps the residue modulo the type's modulus. -/
theorem wrap_emod (t : DType) (n : Int) : t.wrap n % t.modulus = n % t.modulus := by
  cases t <;> simp only [wrap, modulus, intWidth?, Nat.pow_eq, Nat.reducePow] <;>
    split <;> omega

/-- Wrapping reads only the residue modulo the type's modulus. -/
theorem wrap_congr (t : DType) {a b : Int} (h : a % t.modulus = b % t.modulus) :
    t.wrap a = t.wrap b := by
  cases t <;> simp_all [wrap, modulus, intWidth?]

@[simp] theorem wrap_wrap (t : DType) (n : Int) : t.wrap (t.wrap n) = t.wrap n :=
  t.wrap_congr (t.wrap_emod n)

theorem wrap_add_wrap (t : DType) (a b : Int) : t.wrap (t.wrap a + t.wrap b) = t.wrap (a + b) :=
  t.wrap_congr (by rw [Int.add_emod, wrap_emod, wrap_emod, ← Int.add_emod])

theorem wrap_sub_wrap (t : DType) (a b : Int) : t.wrap (t.wrap a - t.wrap b) = t.wrap (a - b) :=
  t.wrap_congr (by rw [Int.sub_emod, wrap_emod, wrap_emod, ← Int.sub_emod])

theorem wrap_mul_wrap (t : DType) (a b : Int) : t.wrap (t.wrap a * t.wrap b) = t.wrap (a * b) :=
  t.wrap_congr (by rw [Int.mul_emod, wrap_emod, wrap_emod, ← Int.mul_emod])

/-- Every value in the type's range is its own wrap: wrapping changes only what the type
cannot hold. -/
theorem wrap_eq_self {t : DType} {lo hi n : Int} (h : t.range? = some (lo, hi)) (hlo : lo ≤ n)
    (hhi : n ≤ hi) : t.wrap n = n := by
  -- one case for each integer type: its range and its modulus are numbers
  cases t <;> simp only [range?, intWidth?, Option.map_some, Option.map_none, Option.some.injEq,
    reduceCtorEq] at h
  all_goals
    obtain ⟨rfl, rfl⟩ := h
    simp only [wrap, intWidth?, Nat.pow_eq, Nat.reducePow, Bool.true_and, Bool.false_and,
      decide_eq_true_eq, Bool.false_eq_true, if_false] at hlo hhi ⊢
    (try split) <;> omega

end DType

namespace Tensor

theorem count_eq_prod (d : List Nat) : count d = d.prod :=
  List.prod_eq_foldl.symm

/-- The position summed from the row-major digits of `k` in the shape `d`. -/
private theorem foldl_digits (k : Nat) : ∀ (d : List Nat) (acc : Nat),
    ((d.zip (strides d)).zip (d.zip (strides d))).foldl (fun acc ((t, ts), (s, ss)) =>
      let c := (k / ts) % t
      acc + (if s == 1 then 0 else c * ss)) acc = acc + k % count d
  | [], acc => by simp [count, Nat.mod_one]
  | a :: d, acc => by
    rw [strides, List.zip_cons_cons, List.zip_cons_cons, List.foldl_cons, foldl_digits k d]
    dsimp only
    -- a dimension of 1 contributes no digit, whichever branch reads it
    have hdigit : (if (a == 1) = true then 0 else k / count d % a * count d) =
        k / count d % a * count d := by
      split
      · next h => simp [beq_iff_eq.1 h, Nat.mod_one]
      · rfl
    have hcount : count (a :: d) = count d * a := by
      rw [count_eq_prod, count_eq_prod, List.prod_cons, Nat.mul_comm]
    rw [hdigit, hcount, Nat.mod_mul, Nat.mul_comm (count d)]
    omega

/-- Reading a position of a shape through the shape's own strides gives the position back,
modulo the shape's size. -/
theorem sourceIndex_self (d : List Nat) (k : Nat) : sourceIndex d d k = k % count d := by
  unfold sourceIndex
  rw [foldl_digits, Nat.zero_add]

/-- A tensor of consistent shape, expanded to its own shape, is its element list. -/
theorem expand_self (t : Tensor) (h : t.elems.length = count t.dims) :
    t.expand t.dims = t.elems := by
  have hpad : padTo t.dims.length t.dims = t.dims := by simp [padTo]
  unfold expand
  simp only [hpad, sourceIndex_self]
  apply List.ext_getElem
  · simp [h]
  · intro i h1 h2
    have hi : i < count t.dims := by simpa using h1
    simp [Nat.mod_eq_of_lt hi, Array.getD_eq_getD_getElem?, h2]

/-- A shape broadcasts with itself to itself. -/
theorem broadcastDims_self (d : List Nat) : broadcastDims d d = some d := by
  unfold broadcastDims
  simp only [Nat.max_self, padTo, Nat.sub_self, List.replicate_zero, List.nil_append]
  induction d with
  | nil => rfl
  | cons a d ih =>
    rw [List.zip_cons_cons, List.mapM_cons, ih]
    simp

end Tensor

namespace Operand

/-- Arithmetic on two tensors of one type and one consistent shape: the element lists, cast to
the result type, are combined pair by pair. -/
theorem arith_sameShape (op : ArithOp) {a b : Tensor} (hdt : b.dtype = a.dtype)
    (hd : b.dims = a.dims) (ha : a.elems.length = Tensor.count a.dims)
    (hb : b.elems.length = Tensor.count a.dims) :
    arith op (.tensor a) (.tensor b) =
      let r := if op == .div && !a.dtype.isFloat then DType.float64 else a.dtype
      (do
        let elems ← ((a.elems.map (Scalar.cast r)).zip (b.elems.map (Scalar.cast r))).mapM
          fun (x, y) => op.apply r x y
        pure (.tensor { dtype := r, dims := a.dims, elems })) := by
  obtain ⟨tb, db, eb⟩ := b
  simp only at hdt hd hb
  subst hdt hd
  have hexp : ({ dtype := a.dtype, dims := a.dims, elems := eb } : Tensor).expand a.dims = eb :=
    Tensor.expand_self _ hb
  simp [arith, DType.promote, Tensor.broadcastDims_self, Tensor.expand_self a ha, hexp]

end Operand

end OnnxFusion

import Mathlib
/-!
# The order of the floats that are not NaN

Floats compare by the IEEE rules of their logical model: `NaN` compares with nothing, the two
zeros are equal, and otherwise a float is placed by its sign, then its exponent, then its
mantissa, the order of the last two reversed for negative floats. `floatRank` gives each float
that is not NaN its place in a linear order, a lexicographic triple, so that `<`, `≤` and
`==` on such floats are `<`, `≤` and `=` on their ranks (`lt_iff_floatRank`,
`le_iff_floatRank`, `beq_iff_floatRank`); two floats compare only when neither is NaN
(`isNaN_of_lt`). Positive infinity has the greatest rank
(`floatRank_le_infinity`), and no float is above it (`not_infinity_lt`).
-/

set_option autoImplicit false

namespace OnnxFusion.Order

open Float.Model UnpackedFloat

/-- The place of an unpacked float in the order: negative infinity, the negative finite
floats, zero of either sign, the positive finite floats, positive infinity; `NaN` last, as it
compares with nothing. -/
def unpackedRank : UnpackedFloat → Lex (Int × Lex (Int × Int))
  | .infinity .negative => toLex (0, toLex (0, 0))
  | .finite .negative m e _ => toLex (1, toLex (-e, -(m : Int)))
  | .zero _ => toLex (2, toLex (0, 0))
  | .finite .positive m e _ => toLex (3, toLex (e, (m : Int)))
  | .infinity .positive => toLex (4, toLex (0, 0))
  | .notANumber => toLex (5, toLex (0, 0))

theorem compare_sign (s t : Sign) :
    compare s t = compare (s matches .positive) (t matches .positive) := by
  cases s <;> cases t <;> rfl

section Unpacked

variable {u v : UnpackedFloat}

-- Each of the three comparisons, case by case over the kinds of the two floats; within a
-- kind the model compares exponent then mantissa, which is the order of the rank's tail.
theorem unpacked_lt_iff (hu : u.isNaN = false) (hv : v.isNaN = false) :
    u.lt v = true ↔ unpackedRank u < unpackedRank v := by
  rcases u with ⟨_ | _⟩ | _ | ⟨_ | _⟩ | ⟨_ | _, m, e, hm⟩ <;>
  rcases v with ⟨_ | _⟩ | _ | ⟨_ | _⟩ | ⟨_ | _, m', e', hm'⟩ <;>
  simp_all [UnpackedFloat.isNaN, UnpackedFloat.lt, UnpackedFloat.compare, unpackedRank,
    Prod.Lex.toLex_lt_toLex, Ordering.then_eq_lt, Ordering.then_eq_gt, compare_lt_iff_lt,
    compare_gt_iff_gt, Ordering.swap_eq_lt, compare_sign]

theorem unpacked_le_iff (hu : u.isNaN = false) (hv : v.isNaN = false) :
    u.le v = true ↔ unpackedRank u ≤ unpackedRank v := by
  rcases u with ⟨_ | _⟩ | _ | ⟨_ | _⟩ | ⟨_ | _, m, e, hm⟩ <;>
  rcases v with ⟨_ | _⟩ | _ | ⟨_ | _⟩ | ⟨_ | _, m', e', hm'⟩ <;>
  simp_all [UnpackedFloat.isNaN, UnpackedFloat.le, UnpackedFloat.compare, unpackedRank,
    Prod.Lex.toLex_le_toLex, Ordering.isLE_iff_ne_gt, Ordering.isGE_iff_ne_lt,
    Ordering.then_eq_gt, Ordering.then_eq_lt, compare_gt_iff_gt, compare_lt_iff_lt, compare_sign]
  all_goals omega

theorem unpacked_beq_iff (hu : u.isNaN = false) (hv : v.isNaN = false) :
    u.beq v = true ↔ unpackedRank u = unpackedRank v := by
  rcases u with ⟨_ | _⟩ | _ | ⟨_ | _⟩ | ⟨_ | _, m, e, hm⟩ <;>
  rcases v with ⟨_ | _⟩ | _ | ⟨_ | _⟩ | ⟨_ | _, m', e', hm'⟩ <;>
  simp_all [UnpackedFloat.isNaN, UnpackedFloat.beq, UnpackedFloat.compare, unpackedRank,
    Ordering.then_eq_eq, Ordering.swap_eq_eq, compare_sign]

end Unpacked

/-- The place of a float in the order of the floats that are not NaN. -/
def floatRank (x : Float) : Lex (Int × Lex (Int × Int)) :=
  unpackedRank x.toModel.unpack

section Float

variable {x y : Float}

theorem lt_iff_floatRank (hx : x.isNaN = false) (hy : y.isNaN = false) :
    x < y ↔ floatRank x < floatRank y :=
  decide_eq_true_iff.trans (unpacked_lt_iff hx hy)

theorem le_iff_floatRank (hx : x.isNaN = false) (hy : y.isNaN = false) :
    x ≤ y ↔ floatRank x ≤ floatRank y :=
  decide_eq_true_iff.trans (unpacked_le_iff hx hy)

theorem beq_iff_floatRank (hx : x.isNaN = false) (hy : y.isNaN = false) :
    (x == y) = true ↔ floatRank x = floatRank y :=
  unpacked_beq_iff hx hy

/-- Only floats that are not NaN compare. -/
theorem isNaN_of_lt (h : x < y) : x.isNaN = false ∧ y.isNaN = false := by
  have h' : x.toModel.unpack.lt y.toModel.unpack = true := of_decide_eq_true h
  show x.toModel.unpack.isNaN = false ∧ y.toModel.unpack.isNaN = false
  generalize x.toModel.unpack = u at h' ⊢
  generalize y.toModel.unpack = v at h' ⊢
  rcases u with ⟨_ | _⟩ | _ | ⟨_ | _⟩ | ⟨_ | _, m, e, hm⟩ <;>
    rcases v with ⟨_ | _⟩ | _ | ⟨_ | _⟩ | ⟨_ | _, m', e', hm'⟩ <;>
    simp_all [UnpackedFloat.lt, UnpackedFloat.compare, UnpackedFloat.isNaN]

theorem self_beq (hx : x.isNaN = false) : (x == x) = true := (beq_iff_floatRank hx hx).2 rfl

/-- Two floats of which one is below the other are not equal. -/
theorem beq_eq_false_of_lt (h : x < y) : (x == y) = false := by
  obtain ⟨hx, hy⟩ := isNaN_of_lt h
  rw [lt_iff_floatRank hx hy] at h
  cases hb : (x == y)
  · rfl
  · exact absurd ((beq_iff_floatRank hx hy).1 hb) h.ne

theorem beq_eq_false_of_gt (h : x < y) : (y == x) = false := by
  obtain ⟨hx, hy⟩ := isNaN_of_lt h
  rw [lt_iff_floatRank hx hy] at h
  cases hb : (y == x)
  · rfl
  · exact absurd ((beq_iff_floatRank hy hx).1 hb) h.ne'

/-- Positive infinity, the key of the lanes a sorting network pads with. -/
theorem floatRank_infinity : floatRank ((1 : Float) / 0) = toLex (4, toLex (0, 0)) := by
  decide

theorem floatRank_le_infinity (hx : x.isNaN = false) :
    floatRank x ≤ floatRank ((1 : Float) / 0) := by
  rw [floatRank_infinity, floatRank]
  have hu : x.toModel.unpack.isNaN = false := hx
  generalize x.toModel.unpack = u at hu ⊢
  rcases u with ⟨_ | _⟩ | _ | ⟨_ | _⟩ | ⟨_ | _, m, e, hm⟩ <;>
    simp_all [UnpackedFloat.isNaN, unpackedRank, Prod.Lex.toLex_le_toLex]

/-- No float, `NaN` included, is above positive infinity. -/
theorem not_infinity_lt (x : Float) : ¬ ((1 : Float) / 0 < x) := by
  have hinf : ((1 : Float) / 0).toModel.unpack = .infinity .positive := rfl
  show ¬ (decide (((1 : Float) / 0).toModel.unpack.lt x.toModel.unpack = true) = true)
  rw [hinf, decide_eq_true_iff]
  generalize x.toModel.unpack = v
  rcases v with ⟨_ | _⟩ | _ | ⟨_ | _⟩ | ⟨_ | _, m, e, hm⟩ <;>
    simp [UnpackedFloat.lt, UnpackedFloat.compare, compare_sign]

end Float

end OnnxFusion.Order

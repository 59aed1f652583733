import OnnxFusion.Tensor.Arith
/-!
# Reductions: sums, means and dot products

Floating-point sums depend on the order of the additions, so the order is part of the rule.

* **Pairwise sum** (`pairwiseSum`): fewer than 8 terms are added one by one from zero; up to
  128 terms go into 8 running lanes (term `i` into lane `i mod 8`, over whole blocks of 8),
  the lanes are combined as `((l0 + l1) + (l2 + l3)) + ((l4 + l5) + (l6 + l7))` and the
  leftover terms are added one by one; longer lists are split after the largest multiple of 8
  not above half the length, and the two sums added.
* **Sum** (`sumIn`): the terms are summed pairwise in blocks of `block` terms and the block
  sums added to a running total from zero.
* **Mean**: a float32 or float64 tensor is summed in its own type as one block and divided
  by the count; a float16 tensor is summed in float32 in blocks of 8192 and the float32
  quotient narrowed; integers and booleans are summed in float64 in blocks of 8192.
* **Dot product** of two vectors in their common type, as a vectorised kernel computes it.
  - float64: the first `16⌊n/16⌋` terms go through the kernel below, and each later product
    is fused into the running total (`fma y x total`).
  - float32: the first `32⌊n/32⌋` terms go through the kernel; the later products are rounded
    to float32 and added in a float64 total from zero, the kernel's float32 result is added
    to it last, and the total is narrowed.
  - The kernels keep four accumulators of fused multiply-add lanes, `w` lanes wide (4 for
    float64, 8 for float32). Whole blocks of `8w` terms go into accumulators of `2w` lanes,
    each then folded in half; the remaining blocks of `4w` terms go into the `w`-lane ones.
    The four accumulators are added lane-wise in order, the upper half of the lanes onto the
    lower, and the remaining lanes in pairs: `l0 + l1` for float64,
    `(l0 + l1) + (l2 + l3)` for float32.
  - float16: products and the running total are float32; integers wrap around their type;
    booleans give whether some pair is true in both.
-/

set_option autoImplicit false

namespace OnnxFusion

namespace Reduce

/-- Adds the lanes of one block of eight to the running lanes. -/
def addLanes (add : Float → Float → Float) (lanes block : List Float) : List Float :=
  (lanes.zip block).map fun (a, b) => add a b

/-- Splits a list into whole blocks of eight and the leftover. -/
def blocksOf8 (xs : List Float) : List (List Float) × List Float :=
  let whole := xs.length / 8
  ((List.range whole).map (fun k => (xs.drop (8 * k)).take 8), xs.drop (8 * whole))

/-- The sum of 8 to 128 terms with eight running lanes. -/
def laneSum (add : Float → Float → Float) (xs : List Float) : Float :=
  let (blocks, rest) := blocksOf8 xs
  match blocks with
  | [] => rest.foldl add 0.0
  | first :: more =>
    let lanes := more.foldl (addLanes add) first
    let l := fun (i : Nat) => lanes.getD i 0.0
    let combined := add (add (add (l 0) (l 1)) (add (l 2) (l 3))) (add (add (l 4) (l 5)) (add (l 6) (l 7)))
    rest.foldl add combined

/-- The pairwise sum of a list under an addition. -/
def pairwiseSum (add : Float → Float → Float) (xs : List Float) : Float :=
  if h : xs.length < 8 then xs.foldl add 0.0
  else if xs.length ≤ 128 then laneSum add xs
  else
    let half := xs.length / 2 - (xs.length / 2) % 8
    add (pairwiseSum add (xs.take half)) (pairwiseSum add (xs.drop half))
termination_by xs.length
decreasing_by
  all_goals simp only [List.length_take, List.length_drop]
  all_goals omega

/-- Sums a list in blocks: each block summed pairwise, then added to the running total. -/
def sumIn (add : Float → Float → Float) (block : Nat) (xs : List Float) : Float :=
  if block = 0 then add 0.0 (pairwiseSum add xs)
  else
    let count := (xs.length + block - 1) / block
    (List.range count).foldl (fun acc k => add acc (pairwiseSum add ((xs.drop (block * k)).take block))) 0.0

/-- Addition rounded to a float format. -/
def addIn (fmt : Binary.Format) (a b : Float) : Float := fmt.round (a + b)

/-- The number of terms summed as one buffered block when the terms change type. -/
def bufferBlock : Nat := 8192

/-! ### Dot-product kernels -/

/-- `count` items of an array from `start`. -/
def slice (xs : Array Float) (start count : Nat) : List Float :=
  (List.range count).map fun k => xs.getD (start + k) 0.0

/-- Fuses the products of two blocks into accumulator lanes. -/
def fmaLanes (fmt : Binary.Format) (acc xs ys : List Float) : List Float :=
  ((acc.zip xs).zip ys).map fun ((a, x), y) => fmt.fma x y a

/-- Fuses blocks into the first `count` accumulators of `width` lanes, for the blocks of
`count · width` terms that start at `first` and lie before `stop`. -/
def fmaBlocks (fmt : Binary.Format) (xs ys : Array Float) (width first stop count : Nat)
    (acc : List (List Float)) : List (List Float) :=
  let block := count * width
  (List.range ((stop - first) / block)).foldl (fun acc b =>
    let base := first + block * b
    acc.mapIdx fun k a =>
      if k < count then fmaLanes fmt a (slice xs (base + width * k) width) (slice ys (base + width * k) width)
      else a) acc

/-- The kernel result for the first `n` terms (a multiple of `4 · width`) of two vectors,
with four accumulators of `width` lanes in the narrow stage and of `2 · width` lanes in the
wide one. -/
def kernelDot (fmt : Binary.Format) (xs ys : Array Float) (n width : Nat) : Float :=
  let add := addIn fmt
  let wideStop := n / (8 * width) * (8 * width)
  let wide := fmaBlocks fmt xs ys (2 * width) 0 wideStop 4 (List.replicate 4 (List.replicate (2 * width) 0.0))
  let folded := wide.map fun a => addLanes add (a.take width) (a.drop width)
  let acc := fmaBlocks fmt xs ys width wideStop n 4 folded
  let summed := match acc with
    | a :: rest => rest.foldl (addLanes add) a
    | [] => List.replicate width 0.0
  let halves := addLanes add (summed.take (width / 2)) (summed.drop (width / 2))
  let l := fun (i : Nat) => halves.getD i 0.0
  if width / 2 == 2 then add (l 0) (l 1)
  else add (add (l 0) (l 1)) (add (l 2) (l 3))

/-- The dot product of two float64 vectors of one length. -/
def dot64 (xs ys : List Float) : Float :=
  let n := xs.length / 16 * 16
  let start := if n == 0 then 0.0 else kernelDot Binary.binary64 xs.toArray ys.toArray n 4
  ((xs.drop n).zip (ys.drop n)).foldl (fun d (x, y) => Binary.binary64.fma y x d) start

/-- The dot product of two float32 vectors of one length. -/
def dot32 (xs ys : List Float) : Float :=
  let f32 := Binary.binary32
  let n := xs.length / 32 * 32
  let kernel := if n == 0 then 0.0 else kernelDot f32 xs.toArray ys.toArray n 8
  let tail := ((xs.drop n).zip (ys.drop n)).foldl (fun d (x, y) => d + f32.round (y * x)) 0.0
  f32.round (tail + kernel)

end Reduce

namespace Tensor

/-- The elements as doubles. -/
def floats (t : Tensor) : List Float := t.elems.map Scalar.toFloat

/-- The mean of all elements, with its element type: the tensor's float type, or `float64`
for integers and booleans. An empty tensor gives NaN. -/
def mean (t : Tensor) : DType × Float :=
  let n := Binary.binary64.ofInt t.size
  match t.dtype with
  | .float32 =>
    let s := Reduce.sumIn (Reduce.addIn Binary.binary32) 0 t.floats
    (.float32, Binary.binary32.round (s / n))
  | .float64 =>
    let s := Reduce.sumIn (Reduce.addIn Binary.binary64) 0 t.floats
    (.float64, s / n)
  | .float16 =>
    let s := Reduce.sumIn (Reduce.addIn Binary.binary32) Reduce.bufferBlock t.floats
    (.float16, Binary.binary16.round (Binary.binary32.round (s / n)))
  | _ =>
    let s := Reduce.sumIn (Reduce.addIn Binary.binary64) Reduce.bufferBlock t.floats
    (.float64, s / n)

/-- The dot product of two vectors of one length, in their common type. -/
def dot (a b : Tensor) : Scalar :=
  let target := DType.promote a.dtype b.dtype
  let pairs := (a.elems.map (Scalar.cast target)).zip (b.elems.map (Scalar.cast target))
  match target with
  | .float32 => .real (Reduce.dot32 (pairs.map (·.1.toFloat)) (pairs.map (·.2.toFloat)))
  | .float64 => .real (Reduce.dot64 (pairs.map (·.1.toFloat)) (pairs.map (·.2.toFloat)))
  | .float16 =>
    let f32 := Binary.binary32
    let total := pairs.foldl (fun acc (x, y) => f32.round (acc + f32.round (x.toFloat * y.toFloat))) 0.0
    .real (Binary.binary16.round total)
  | .bool => .bool (pairs.any fun (x, y) => x.toFloat != 0.0 && y.toFloat != 0.0)
  | _ =>
    let total := pairs.foldl (fun acc (x, y) => match x, y with
      | .int m, .int n => acc + m * n
      | _, _ => acc) (0 : Int)
    .int (target.wrap total)

/-- The Euclidean norm of all elements: in the tensor's float type, or in `float64` for
integers and booleans. -/
def norm (t : Tensor) : DType × Float :=
  let f := if t.dtype.isFloat then t else t.astype .float64
  let fmt := f.dtype.format?.getD Binary.binary64
  let flat : Tensor := { f with dims := [f.size] }
  (f.dtype, fmt.round (flat.dot flat).toFloat.sqrt)

end Tensor

end OnnxFusion

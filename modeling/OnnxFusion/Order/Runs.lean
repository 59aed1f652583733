/-!
# Runs and binary insertion

The first stage of the adaptive merge sort of `Order/Sort`, consulting only a less-than
test `lt`:

* `frontRun lt xs` is the run at the front of a list: items that never go down, or items
  that strictly go down (which the sort then reverses), with the flag that tells which;
* `insertionSort lt xs` puts the front run in order and inserts each later item after every
  sorted item it is not less than, finding that place by binary search (`insertionPoint`).

The tests are made in a fixed sequence, so the result is fixed even when `lt` is not a
strict weak order (a NaN key, for instance).
-/

set_option autoImplicit false

namespace OnnxFusion.Order

variable {α : Type}

/-- How many items after `prev` keep strictly going down. -/
def fallingRun (lt : α → α → Bool) : α → List α → Nat
  | _, [] => 0
  | prev, x :: rest => if lt x prev then 1 + fallingRun lt x rest else 0

/-- How many items after `prev` never go down. -/
def risingRun (lt : α → α → Bool) : α → List α → Nat
  | _, [] => 0
  | prev, x :: rest => if lt x prev then 0 else 1 + risingRun lt x rest

/-- The length of the run at the front, and whether it strictly goes down. -/
def frontRun (lt : α → α → Bool) : List α → Nat × Bool
  | [] => (0, false)
  | [_] => (1, false)
  | a :: b :: rest =>
    if lt b a then (2 + fallingRun lt b rest, true) else (2 + risingRun lt b rest, false)

/-- The place of `pivot` in `sorted` between positions `l` and `r`: after every item it is
not less than, by halving the range for at most `fuel` steps. -/
def insertionPoint (lt : α → α → Bool) (sorted : List α) (pivot : α) (l r : Nat) : Nat → Nat
  | 0 => l
  | fuel + 1 =>
    if l < r then
      let p := l + (r - l) / 2
      if lt pivot (sorted.getD p pivot) then insertionPoint lt sorted pivot l p fuel
      else insertionPoint lt sorted pivot (p + 1) r fuel
    else l

/-- Inserts an item into a sorted list at its binary-search place. -/
def binaryInsert (lt : α → α → Bool) (sorted : List α) (pivot : α) : List α :=
  let pos := insertionPoint lt sorted pivot 0 sorted.length (sorted.length + 1)
  sorted.take pos ++ pivot :: sorted.drop pos

/-- The front run, put in order, then every later item inserted by binary search. -/
def insertionSort (lt : α → α → Bool) (xs : List α) : List α :=
  let (n, falling) := frontRun lt xs
  let run := if falling then (xs.take n).reverse else xs.take n
  (xs.drop n).foldl (binaryInsert lt) run

end OnnxFusion.Order

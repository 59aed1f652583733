import OnnxFusion.Order.Runs
import OnnxFusion.Order.Gallop
/-!
# An adaptive merge sort by a less-than test alone

`Order.sortBy lt xs` sorts a list as an adaptive merge sort with a powersort merge order
does, consulting only `lt`:

* The list is cut, left to right, into runs (`frontRun`): a falling run is reversed, and a
  run shorter than the minimum run (`minRun`: the list's length below 64, else a number
  between 32 and 64) is extended to it, or to the end of the list, by binary insertion
  (`insertionSort`). A list of fewer than 64 items is therefore one run.
* Each run goes onto a stack of pending runs. Before it does, the run on top is given a
  power (`runPower`): the first bit at which the midpoints of the top run and of the new
  one, as fractions of the list's length, differ. Runs below the top with a greater power
  are merged first, the top two at a time (`mergeAt`).
* At the end the stack is merged down, each time the top two runs, or the two below them
  when the run below the top two is shorter than the top one.
* Two runs are merged by `gallopRight`, `gallopLeft` (the items already in place are left
  alone) and `mergeLow` or `mergeHigh`, whichever has the shorter run to set aside.

On a strict weak order the result is the stable sort; otherwise it is whatever this fixed
sequence of tests gives. `Order.sortDescendingBy` sorts from the largest down and keeps
equal items in their order: it reverses the list, sorts it, and reverses the result.
-/

set_option autoImplicit false

namespace OnnxFusion.Order

variable {α : Type}

/-- A pending run: where it starts, its length and its power. -/
structure Run where
  start : Nat
  length : Nat
  power : Nat
  deriving Inhabited

/-- Halves `n` while it is 64 or more, remembering whether a one bit was dropped. -/
def minRunFrom : Nat → Nat → Nat → Nat
  | 0, n, r => n + r
  | fuel + 1, n, r => if n ≥ 64 then minRunFrom fuel (n / 2) (max r (n % 2)) else n + r

/-- The minimum run length for a list of `n` items. -/
def minRun (n : Nat) : Nat := minRunFrom n n 0

/-- Compares the binary fractions `a / n` and `b / n` bit by bit, counting the bits up to
the first at which they differ. -/
def powerFrom (n : Nat) : Nat → Nat → Nat → Nat → Nat
  | 0, _, _, result => result
  | fuel + 1, a, b, result =>
    if a ≥ n then powerFrom n fuel (2 * (a - n)) (2 * (b - n)) (result + 1)
    else if b ≥ n then result + 1
    else powerFrom n fuel (2 * a) (2 * b) (result + 1)

/-- The power of the boundary between a run of length `n1` at `s1` and the run of length
`n2` after it, in a list of `n` items: the midpoints are compared doubled, so that they are
whole numbers. -/
def runPower (s1 n1 n2 n : Nat) : Nat :=
  powerFrom n (n + 2) (2 * s1 + n1) (2 * s1 + 2 * n1 + n2) 0

/-- The state of a sort: the items, the pending runs (the top last) and the gallop
threshold. -/
structure Sorting (α : Type) where
  items : Array α
  runs : List Run
  gallop : Nat

/-- Writes items into an array from a position on. -/
def writeAt (arr : Array α) (start : Nat) (xs : List α) : Array α :=
  xs.zipIdx.foldl (fun acc (x, j) => acc.setIfInBounds (start + j) x) arr

/-- Merges the pending runs `i` and `i + 1`. -/
def mergeAt [Inhabited α] (lt : α → α → Bool) (s : Sorting α) (i : Nat) : Sorting α :=
  let ra := s.runs.getD i default
  let rb := s.runs.getD (i + 1) default
  let runs := (s.runs.set i { ra with length := ra.length + rb.length }).eraseIdx (i + 1)
  let get := fun j => s.items.getD j default
  let k := gallopRight lt (get rb.start) (fun j => get (ra.start + j)) ra.length 0
  let sa := ra.start + k
  let na := ra.length - k
  if na == 0 then { s with runs := runs }
  else
    let nb := gallopLeft lt (get (sa + na - 1)) (fun j => get (rb.start + j)) rb.length (rb.length - 1)
    if nb == 0 then { s with runs := runs }
    else
      let a := s.items.extract sa (sa + na)
      let b := s.items.extract rb.start (rb.start + nb)
      let (merged, gallop) := if na ≤ nb then mergeLow lt a b s.gallop else mergeHigh lt a b s.gallop
      ⟨writeAt s.items sa merged.toList, runs, gallop⟩

/-- Merges the top two runs while the run below the top has a greater power than `power`. -/
def collapseAbove [Inhabited α] (lt : α → α → Bool) (power : Nat) : Nat → Sorting α → Sorting α
  | 0, s => s
  | fuel + 1, s =>
    if s.runs.length > 1 && (s.runs.getD (s.runs.length - 2) default).power > power then
      collapseAbove lt power fuel (mergeAt lt s (s.runs.length - 2))
    else s

/-- Merges the stack down to one run. -/
def collapseAll [Inhabited α] (lt : α → α → Bool) : Nat → Sorting α → Sorting α
  | 0, s => s
  | fuel + 1, s =>
    if s.runs.length > 1 then
      let n := s.runs.length - 2
      let n := if n > 0 && (s.runs.getD (n - 1) default).length < (s.runs.getD (n + 1) default).length
        then n - 1 else n
      collapseAll lt fuel (mergeAt lt s n)
    else s

/-- Puts the next run, of `length` items at `start`, on the stack of a list of `total`
items, after the merges its boundary calls for. -/
def pushRun [Inhabited α] (lt : α → α → Bool) (total : Nat) (s : Sorting α) (start length : Nat) :
    Sorting α :=
  match s.runs.getLast? with
  | none => { s with runs := [⟨start, length, 0⟩] }
  | some top =>
    let power := runPower top.start top.length length total
    let s := collapseAbove lt power s.runs.length s
    let runs := s.runs.modify (s.runs.length - 1) fun r => { r with power := power }
    { s with runs := runs ++ [⟨start, length, 0⟩] }

/-- Finds the run at `start`, among `left` items still to be cut, puts it in order and
extends it to `least` items when it is shorter; returns the new items and its length. -/
def cutRun (lt : α → α → Bool) (least : Nat) (items : Array α) (start left : Nat) :
    Array α × Nat :=
  let rest := (items.extract start (start + left)).toList
  let (n, falling) := frontRun lt rest
  if n < least then
    let force := min left least
    (writeAt items start (insertionSort lt (rest.take force)), force)
  else
    let run := if falling then (rest.take n).reverse else rest.take n
    (writeAt items start run, n)

/-- Cuts the items from `start` on into runs and stacks them; each run has at least one
item, so the length is fuel enough. -/
def cutRuns [Inhabited α] (lt : α → α → Bool) (total least : Nat) : Nat → Sorting α → Nat → Sorting α
  | 0, s, _ => s
  | fuel + 1, s, start =>
    if start < total then
      let (items, k) := cutRun lt least s.items start (total - start)
      cutRuns lt total least fuel (pushRun lt total { s with items := items } start k) (start + k)
    else s

/-- Sorts a list from the smallest up by a less-than test. -/
def sortBy [Inhabited α] (lt : α → α → Bool) (xs : List α) : List α :=
  let n := xs.length
  if n < 2 then xs
  else
    let s := cutRuns lt n (minRun n) n ⟨xs.toArray, [], minGallop⟩ 0
    (collapseAll lt n s).items.toList

/-- Sorts a list from the largest down, equal items in their order. -/
def sortDescendingBy [Inhabited α] (lt : α → α → Bool) (xs : List α) : List α :=
  (sortBy lt xs.reverse).reverse

end OnnxFusion.Order

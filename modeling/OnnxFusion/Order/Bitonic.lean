/-!
# Sorting positions by key with a vector sorting network

`Order.argsortByNetwork keys` lists the positions of `keys` in increasing order of key, as
a sort does that works in registers of eight lanes, each lane a key with its position:

* The keys are loaded into as few registers as hold them, a power of two of them, and the
  lanes left over get an infinite key and a position past every real one.
* Each register is sorted by the eight-lane bitonic network (`sortLanes`), then the registers
  are merged pairwise, four by four, and so on (`mergeGroup`): the upper half of a group is
  reversed, compared lane by lane with the lower half and reversed back, each half is cleaned
  by comparing registers half its width apart, and each register is finished by the
  eight-lane merging network (`mergeLanes`).
* Every step is a compare-exchange that keeps the smaller key below; a lane whose key equals
  its partner's keeps its own position. Equal keys therefore end up in an order set by the
  network, not by their positions.

The network takes up to 256 keys. Longer lists are sorted stably here.
-/

set_option autoImplicit false

namespace OnnxFusion.Order

/-- A lane of a register: a key and the position it came from. -/
abbrev Slot := Float × Nat

/-- A register: eight lanes. -/
abbrev Lanes := Array Slot

/-- The lanes a register reads from when each lane is paired with its neighbour. -/
def swapPairs : List Nat := [1, 0, 3, 2, 5, 4, 7, 6]

/-- The lanes a register reads from when each half is reversed. -/
def reverseHalves : List Nat := [3, 2, 1, 0, 7, 6, 5, 4]

/-- The lanes a register reads from when it is reversed. -/
def reverseAll : List Nat := [7, 6, 5, 4, 3, 2, 1, 0]

/-- The lanes a register reads from when lanes two apart are paired. -/
def swapByTwo : List Nat := [2, 3, 0, 1, 6, 7, 4, 5]

/-- The lanes a register reads from when its halves are swapped. -/
def swapHalves : List Nat := [4, 5, 6, 7, 0, 1, 2, 3]

/-- The lane a register reads from each lane, rearranged. -/
def permute (order : List Nat) (v : Lanes) : Lanes :=
  (order.map fun l => v.getD l default).toArray

/-- One compare-exchange within a register: lane `l` is paired with lane `partner l` and
takes the larger key when bit `l` of `upper` is set, the smaller one otherwise; its
position follows the key, and stays when the two keys are equal. -/
def exchange (partner : List Nat) (upper : Nat) (v : Lanes) : Lanes :=
  ((List.range 8).map fun l =>
    let (k, i) := v.getD l default
    let (k', i') := v.getD (partner.getD l 0) default
    let t := if upper.testBit l then (if k' > k then k' else k) else (if k' < k then k' else k)
    (t, if t == k then i else i')).toArray

/-- The eight-lane sorting network. -/
def sortLanes (v : Lanes) : Lanes :=
  [(swapPairs, 0xAA), (reverseHalves, 0xCC), (swapPairs, 0xAA), (reverseAll, 0xF0),
    (swapByTwo, 0xCC), (swapPairs, 0xAA)].foldl (fun v (p, m) => exchange p m v) v

/-- The eight-lane merging network: it sorts a register whose lanes rise and then fall. -/
def mergeLanes (v : Lanes) : Lanes :=
  [(swapHalves, 0xF0), (swapByTwo, 0xCC), (swapPairs, 0xAA)].foldl (fun v (p, m) => exchange p m v) v

/-- Compare-exchange of two registers lane by lane: the smaller keys go to the first;
positions follow their keys and stay where the keys are equal. -/
def exchangeRegisters (a b : Lanes) : Lanes × Lanes :=
  let pairs := (List.range 8).map fun l =>
    let (k, i) := a.getD l default
    let (k', i') := b.getD l default
    let keep := !(k' < k)
    ((if keep then k else k', if keep then i else i'), (if keep then k' else k, if keep then i' else i))
  ((pairs.map (·.1)).toArray, (pairs.map (·.2)).toArray)

/-- Compare-exchange of registers `x` and `y`; with `flip`, `y` is compared reversed. -/
def exchangeAt (regs : Array Lanes) (x y : Nat) (flip : Bool) : Array Lanes :=
  let turn := fun (v : Lanes) => if flip then permute reverseAll v else v
  let (a, b) := exchangeRegisters (regs.getD x #[]) (turn (regs.getD y #[]))
  (regs.setIfInBounds x a).setIfInBounds y (turn b)

/-- The widths `w / 2, w / 4, …, 2` of the cleaning rounds of a group of `w ≤ 64` registers. -/
def cleanWidths (w : Nat) : List Nat :=
  ((List.range 6).map fun e => w / Nat.pow 2 (e + 1)).filter (· ≥ 2)

/-- Merges the group of `size` sorted registers starting at `start` into one sorted run. -/
def mergeGroup (regs : Array Lanes) (start size : Nat) : Array Lanes :=
  let regs := (List.range (size / 2)).foldl
    (fun r i => exchangeAt r (start + i) (start + size - 1 - i) true) regs
  let regs := (cleanWidths size).foldl (fun r w =>
    ((List.range (size / w)).flatMap fun j => (List.range (w / 2)).map fun i => start + j * w + i).foldl
      (fun r x => exchangeAt r x (x + w / 2) false) r) regs
  (List.range size).foldl (fun r q => r.modify (start + q) mergeLanes) regs

/-- The group sizes `2, 4, …, count` of the merging rounds, for `count ≤ 64` registers. -/
def groupSizes (count : Nat) : List Nat :=
  ((List.range 6).map fun e => Nat.pow 2 (e + 1)).filter (· ≤ count)

/-- The number of registers for `n` keys: the least power of two whose registers hold them. -/
def registerCount (n : Nat) : Nat :=
  ((List.range 6).map (Nat.pow 2 ·)).find? (fun c => n ≤ 8 * c) |>.getD 32

/-- The position given to the lanes left over. -/
def padPosition : Nat := Nat.pow 2 64 - 1

/-- Positions sorted by the network, for at most 256 keys. -/
def networkOrder (keys : List Float) : List Nat :=
  let n := keys.length
  let count := registerCount n
  let lane := fun (j : Nat) => if j < n then (keys.getD j 0, j) else ((1 : Float) / 0, padPosition)
  let regs := ((List.range count).map fun r => sortLanes ((List.range 8).map (fun l => lane (8 * r + l))).toArray).toArray
  let regs := (groupSizes count).foldl
    (fun rs size => (List.range (count / size)).foldl (fun rs g => mergeGroup rs (g * size) size) rs) regs
  (regs.toList.flatMap (·.toList)).take n |>.map (·.2)

/-- The positions of `keys` in increasing order of key. -/
def argsortByNetwork (keys : List Float) : List Nat :=
  if keys.length < 2 then List.range keys.length
  else if keys.length ≤ 256 then networkOrder keys
  else (List.range keys.length).mergeSort fun a b => keys.getD a 0 ≤ keys.getD b 0

end OnnxFusion.Order

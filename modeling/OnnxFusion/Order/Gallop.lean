/-!
# Galloping searches and the merge of two runs

The second stage of the adaptive merge sort of `Order/Sort`, consulting only a less-than
test `lt`:

* `gallopLeft lt key get n hint` is the place of `key` in the run `get 0, …, get (n - 1)`
  before the items equal to it, and `gallopRight` the place after them. Both start at
  `hint`, step away from it by 1, 3, 7, 15, … while the run keeps falling on the same side
  of `key`, and then halve the last stretch (`gallopSteps`, `halve`).
* `mergeLow lt a b gallop` merges a run `a` with the run `b` that follows it, writing from
  the front; `mergeHigh` writes from the back. Each compares the heads one pair at a time
  and, once one side has won `gallop` times in a row, gallops: it moves whole stretches found
  by the searches above, as long as a stretch of at least seven items moves on one side or
  the other. The threshold drops by one for every galloping round and rises by one when the
  merge falls back to single steps; the merge returns it for the next merge.

Every test is made in a fixed sequence, so the result is fixed even when `lt` is not a
strict weak order; and every item of the two runs lands exactly once in the result.
-/

set_option autoImplicit false

namespace OnnxFusion.Order

variable {α : Type}

/-- The gallop threshold at the start of a sort, and the stretch that keeps a merge
galloping. -/
def minGallop : Nat := 7

/-- Steps away from a hint by 1, 3, 7, … while `further` holds at the step. Returns the
last step at which it held (0 when none) and the first at which it did not, capped at
`limit`; `fuel` bounds the number of steps. -/
def gallopSteps (further : Nat → Bool) (limit : Nat) : Nat → Nat → Nat → Nat × Nat
  | 0, last, ofs => (last, min ofs limit)
  | fuel + 1, last, ofs =>
    if ofs < limit then
      if further ofs then gallopSteps further limit fuel ofs (2 * ofs + 1) else (last, ofs)
    else (last, min ofs limit)

/-- The first place in `[lo, hi)` at which `before` fails, found by halving; `fuel` bounds
the number of halvings. -/
def halve (before : Nat → Bool) : Nat → Nat → Nat → Nat
  | 0, lo, _ => lo
  | fuel + 1, lo, hi =>
    if lo < hi then
      let m := lo + (hi - lo) / 2
      if before m then halve before fuel (m + 1) hi else halve before fuel lo m
    else lo

/-- The place of `key` in the run `get 0, …, get (n - 1)` before the items equal to it,
searched from `hint`. -/
def gallopLeft (lt : α → α → Bool) (key : α) (get : Nat → α) (n hint : Nat) : Nat :=
  if lt (get hint) key then
    let (last, ofs) := gallopSteps (fun o => lt (get (hint + o)) key) (n - hint) (n + 1) 0 1
    halve (fun m => lt (get m) key) (n + 1) (hint + last + 1) (hint + ofs)
  else
    let (last, ofs) := gallopSteps (fun o => !lt (get (hint - o)) key) (hint + 1) (n + 1) 0 1
    halve (fun m => lt (get m) key) (n + 1) (hint + 1 - ofs) (hint - last)

/-- The place of `key` in the run `get 0, …, get (n - 1)` after the items equal to it,
searched from `hint`. -/
def gallopRight (lt : α → α → Bool) (key : α) (get : Nat → α) (n hint : Nat) : Nat :=
  if lt key (get hint) then
    let (last, ofs) := gallopSteps (fun o => lt key (get (hint - o))) (hint + 1) (n + 1) 0 1
    halve (fun m => !lt key (get m)) (n + 1) (hint + 1 - ofs) (hint - last)
  else
    let (last, ofs) := gallopSteps (fun o => !lt key (get (hint + o))) (n - hint) (n + 1) 0 1
    halve (fun m => !lt key (get m)) (n + 1) (hint + last + 1) (hint + ofs)

/-- How a merge goes on: one item at a time, counting the wins in a row of each run, or by
galloping. -/
inductive Pace
  | steady (aWins bWins : Nat)
  | galloping

/-- A merge from the front: the merged items so far, the next item of each run, and the
gallop threshold. -/
structure FrontMerge (α : Type) where
  out : Array α
  ia : Nat
  ib : Nat
  gallop : Nat

/-- The merged items, then what is left of the first run and of the second (one of them
is empty). -/
def FrontMerge.finish (a b : Array α) (st : FrontMerge α) : Array α × Nat :=
  (st.out ++ a.extract st.ia a.size ++ b.extract st.ib b.size, st.gallop)

/-- The merged items, then what is left of the second run, then the last item of the first. -/
def FrontMerge.lastFromA (a b : Array α) (st : FrontMerge α) : Array α × Nat :=
  (st.out ++ b.extract st.ib b.size ++ a.extract st.ia a.size, st.gallop)

/-- The steps of a merge from the front; each step takes at least one item, so the two
lengths are fuel enough. -/
def frontSteps [Inhabited α] (lt : α → α → Bool) (a b : Array α) :
    Nat → FrontMerge α → Pace → Array α × Nat
  | 0, st, _ => st.finish a b
  | fuel + 1, st, .steady aw bw =>
    let x := a.getD st.ia default
    let y := b.getD st.ib default
    if lt y x then
      let st := { st with out := st.out.push y, ib := st.ib + 1 }
      if st.ib == b.size then st.finish a b
      else if bw + 1 ≥ st.gallop then frontSteps lt a b fuel { st with gallop := st.gallop + 1 } .galloping
      else frontSteps lt a b fuel st (.steady 0 (bw + 1))
    else
      let st := { st with out := st.out.push x, ia := st.ia + 1 }
      if a.size - st.ia == 1 then st.lastFromA a b
      else if aw + 1 ≥ st.gallop then frontSteps lt a b fuel { st with gallop := st.gallop + 1 } .galloping
      else frontSteps lt a b fuel st (.steady (aw + 1) 0)
  | fuel + 1, st, .galloping =>
    let g := if st.gallop > 1 then st.gallop - 1 else st.gallop
    let k := gallopRight lt (b.getD st.ib default) (fun i => a.getD (st.ia + i) default) (a.size - st.ia) 0
    let st := { st with out := st.out ++ a.extract st.ia (st.ia + k), ia := st.ia + k, gallop := g }
    if a.size - st.ia == 1 then st.lastFromA a b
    else if a.size - st.ia == 0 then st.finish a b
    else
      let st := { st with out := st.out.push (b.getD st.ib default), ib := st.ib + 1 }
      if st.ib == b.size then st.finish a b
      else
        let k' := gallopLeft lt (a.getD st.ia default) (fun i => b.getD (st.ib + i) default) (b.size - st.ib) 0
        let st := { st with out := st.out ++ b.extract st.ib (st.ib + k'), ib := st.ib + k' }
        if st.ib == b.size then st.finish a b
        else
          let st := { st with out := st.out.push (a.getD st.ia default), ia := st.ia + 1 }
          if a.size - st.ia == 1 then st.lastFromA a b
          else if k ≥ minGallop || k' ≥ minGallop then frontSteps lt a b fuel st .galloping
          else frontSteps lt a b fuel { st with gallop := g + 1 } (.steady 0 0)

/-- Merges the nonempty run `a` with the nonempty run `b` after it, writing from the front;
returns the merged run and the new gallop threshold. -/
def mergeLow [Inhabited α] (lt : α → α → Bool) (a b : Array α) (gallop : Nat) : Array α × Nat :=
  let st : FrontMerge α := ⟨#[b.getD 0 default], 0, 1, gallop⟩
  if b.size == 1 then st.finish a b
  else if a.size == 1 then st.lastFromA a b
  else frontSteps lt a b (a.size + b.size + 1) st (.steady 0 0)

/-- A merge from the back: the merged items so far (the largest last), how many items of
each run are left, and the gallop threshold. -/
structure BackMerge (α : Type) where
  back : List α
  na : Nat
  nb : Nat
  gallop : Nat

/-- What is left of the first run and of the second (one of them is empty), then the merged
items. -/
def BackMerge.finish (a b : Array α) (st : BackMerge α) : Array α × Nat :=
  (a.extract 0 st.na ++ b.extract 0 st.nb ++ st.back.toArray, st.gallop)

/-- The first item of the second run, then what is left of the first, then the merged
items. -/
def BackMerge.firstFromB (a b : Array α) (st : BackMerge α) : Array α × Nat :=
  (b.extract 0 st.nb ++ a.extract 0 st.na ++ st.back.toArray, st.gallop)

/-- The steps of a merge from the back; each step takes at least one item, so the two
lengths are fuel enough. -/
def backSteps [Inhabited α] (lt : α → α → Bool) (a b : Array α) :
    Nat → BackMerge α → Pace → Array α × Nat
  | 0, st, _ => st.finish a b
  | fuel + 1, st, .steady aw bw =>
    let x := a.getD (st.na - 1) default
    let y := b.getD (st.nb - 1) default
    if lt y x then
      let st := { st with back := x :: st.back, na := st.na - 1 }
      if st.na == 0 then st.finish a b
      else if aw + 1 ≥ st.gallop then backSteps lt a b fuel { st with gallop := st.gallop + 1 } .galloping
      else backSteps lt a b fuel st (.steady (aw + 1) 0)
    else
      let st := { st with back := y :: st.back, nb := st.nb - 1 }
      if st.nb == 1 then st.firstFromB a b
      else if bw + 1 ≥ st.gallop then backSteps lt a b fuel { st with gallop := st.gallop + 1 } .galloping
      else backSteps lt a b fuel st (.steady 0 (bw + 1))
  | fuel + 1, st, .galloping =>
    let g := if st.gallop > 1 then st.gallop - 1 else st.gallop
    let k := st.na - gallopRight lt (b.getD (st.nb - 1) default) (fun i => a.getD i default) st.na (st.na - 1)
    let st := { st with back := (a.extract (st.na - k) st.na).toList ++ st.back, na := st.na - k, gallop := g }
    if st.na == 0 then st.finish a b
    else
      let st := { st with back := b.getD (st.nb - 1) default :: st.back, nb := st.nb - 1 }
      if st.nb == 1 then st.firstFromB a b
      else
        let k' := st.nb - gallopLeft lt (a.getD (st.na - 1) default) (fun i => b.getD i default) st.nb (st.nb - 1)
        let st := { st with back := (b.extract (st.nb - k') st.nb).toList ++ st.back, nb := st.nb - k' }
        if st.nb == 1 then st.firstFromB a b
        else if st.nb == 0 then st.finish a b
        else
          let st := { st with back := a.getD (st.na - 1) default :: st.back, na := st.na - 1 }
          if st.na == 0 then st.finish a b
          else if k ≥ minGallop || k' ≥ minGallop then backSteps lt a b fuel st .galloping
          else backSteps lt a b fuel { st with gallop := g + 1 } (.steady 0 0)

/-- Merges the nonempty run `a` with the nonempty run `b` after it, writing from the back;
returns the merged run and the new gallop threshold. -/
def mergeHigh [Inhabited α] (lt : α → α → Bool) (a b : Array α) (gallop : Nat) : Array α × Nat :=
  let st : BackMerge α := ⟨[a.getD (a.size - 1) default], a.size - 1, b.size, gallop⟩
  if st.na == 0 then st.finish a b
  else if b.size == 1 then st.firstFromB a b
  else backSteps lt a b (a.size + b.size + 1) st (.steady 0 0)

end OnnxFusion.Order

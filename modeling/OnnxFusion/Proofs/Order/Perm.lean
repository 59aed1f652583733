import Mathlib.Data.List.Basic
import OnnxFusion.Order.Sort
/-!
# The adaptive merge sort only moves items

`Order.sortBy` cuts a list into runs, puts each run in order where it stands and merges
neighbouring runs, all inside one array. No step copies or drops an item, whatever the
less-than test answers: `sortBy_perm` states that the result is a permutation of the input,
and `sortDescendingBy_perm` the same of the descending sort.

* `writeAt_toList`, `writeAt_perm`: writing a list into an array from a position replaces that
  stretch; writing a permutation of a stretch back permutes the array.
* `insertionSort_perm`, `frontRun_le`: binary insertion keeps the items, and the front run
  is no longer than the list.
* `gallopLeft_le`: a galloping search from the front of a run lands inside it.
* `FrontMerge.Keeps`, `BackMerge.Keeps`: what a merge has written, with what is left of the
  two runs, is a permutation of the two runs. `mergeLow_perm` and `mergeHigh_perm` follow
  from one lemma per kind of move.
* `Stacked`: the pending runs lie side by side from the front of the array, each nonempty,
  and the items are a permutation of the input. `mergeAt`, both collapses, `pushRun` and
  `cutRuns` keep it.
-/

set_option autoImplicit false

namespace OnnxFusion.Order

open List

variable {α : Type}

/-! ### Writing into an array -/

/-- Setting the item at `i` changes the first `i + 1` items only in their last. -/
theorem take_set_succ (l : List α) (i : Nat) (x : α) (h : i < l.length) :
    (l.set i x).take (i + 1) = l.take i ++ [x] := by
  have hi : (l.take i).length = i := by simp; omega
  rw [set_eq_take_append_cons_drop, if_pos h, take_append, take_of_length_le (by omega), hi,
    Nat.add_sub_cancel_left]
  simp

theorem drop_set_succ (l : List α) (i m : Nat) (x : α) :
    (l.set i x).drop (i + 1 + m) = l.drop (i + 1 + m) := by
  rw [drop_set, if_pos (by omega)]

/-- The fold behind `writeAt`, from the `n`-th item of the written list on. -/
theorem foldl_setIfInBounds_zipIdx (xs : List α) (arr : Array α) (start n : Nat)
    (h : start + n + xs.length ≤ arr.size) :
    ((xs.zipIdx n).foldl (fun acc (p : α × Nat) => acc.setIfInBounds (start + p.2) p.1)
        arr).toList =
      arr.toList.take (start + n) ++ xs ++ arr.toList.drop (start + n + xs.length) := by
  induction xs generalizing arr n with
  | nil => simp
  | cons x rest ih =>
    rw [zipIdx_cons, foldl_cons]
    have hlt : start + n < arr.toList.length := by simp at h ⊢; omega
    -- the head goes to `start + n`, the rest from `start + n + 1` on
    rw [ih _ (n + 1) (by simp at h ⊢; omega), Array.toList_setIfInBounds, ← Nat.add_assoc,
      take_set_succ _ _ _ hlt, drop_set_succ]
    simp [Nat.add_assoc, Nat.add_comm 1]

/-- Writing a list into an array from `start` replaces that stretch when it fits. -/
theorem writeAt_toList (arr : Array α) (start : Nat) (xs : List α)
    (h : start + xs.length ≤ arr.size) :
    (writeAt arr start xs).toList =
      arr.toList.take start ++ xs ++ arr.toList.drop (start + xs.length) :=
  foldl_setIfInBounds_zipIdx xs arr start 0 h

@[simp]
theorem size_writeAt (arr : Array α) (start : Nat) (xs : List α) :
    (writeAt arr start xs).size = arr.size := by
  unfold writeAt
  generalize xs.zipIdx = ps
  induction ps generalizing arr with
  | nil => rfl
  | cons p ps ih => simp [foldl_cons, ih]

/-- Writing back a permutation of a stretch of an array permutes the array. -/
theorem writeAt_perm (arr : Array α) (start m : Nat) {xs : List α}
    (hp : xs ~ (arr.toList.drop start).take m) : (writeAt arr start xs).toList ~ arr.toList := by
  have hlen : xs.length = min m (arr.size - start) := by simp [hp.length_eq]
  by_cases hs : start ≤ arr.size
  · rw [writeAt_toList arr start xs (by omega)]
    -- the array is its head, the stretch of the written length, and its tail
    have hsplit : arr.toList = arr.toList.take start ++ (arr.toList.drop start).take xs.length ++
        arr.toList.drop (start + xs.length) := by
      rw [append_assoc, ← drop_drop, take_append_drop, take_append_drop]
    have hseg : (arr.toList.drop start).take m = (arr.toList.drop start).take xs.length := by
      rw [take_eq_take_iff]
      simp only [length_drop, Array.length_toList]
      omega
    conv => rhs; rw [hsplit]
    exact (hp.trans (by rw [hseg])).append_left _ |>.append_right _
  · have hnil : xs = [] := by
      apply eq_nil_of_length_eq_zero
      omega
    subst hnil
    rfl

/-! ### Runs and binary insertion -/

theorem fallingRun_le (lt : α → α → Bool) (prev : α) (xs : List α) :
    fallingRun lt prev xs ≤ xs.length := by
  induction xs generalizing prev with
  | nil => simp [fallingRun]
  | cons x rest ih =>
    simp only [fallingRun, length_cons]
    split <;> grind

theorem risingRun_le (lt : α → α → Bool) (prev : α) (xs : List α) :
    risingRun lt prev xs ≤ xs.length := by
  induction xs generalizing prev with
  | nil => simp [risingRun]
  | cons x rest ih =>
    simp only [risingRun, length_cons]
    split <;> grind

/-- The front run of a nonempty list has at least one item and at most all of them. -/
theorem frontRun_le (lt : α → α → Bool) (xs : List α) :
    (frontRun lt xs).1 ≤ xs.length ∧ (0 < xs.length → 0 < (frontRun lt xs).1) := by
  match xs with
  | [] => simp [frontRun]
  | [_] => simp [frontRun]
  | a :: b :: rest =>
    simp only [frontRun, length_cons]
    split
    · have := fallingRun_le lt b rest
      simp only
      omega
    · have := risingRun_le lt b rest
      simp only
      omega

/-- Inserting an item puts it somewhere among the others. -/
theorem binaryInsert_perm (lt : α → α → Bool) (sorted : List α) (pivot : α) :
    binaryInsert lt sorted pivot ~ pivot :: sorted := by
  unfold binaryInsert
  exact perm_middle.trans (.cons _ (by rw [take_append_drop]))

theorem foldl_binaryInsert_perm (lt : α → α → Bool) (ys acc : List α) :
    ys.foldl (binaryInsert lt) acc ~ acc ++ ys := by
  induction ys generalizing acc with
  | nil => simp
  | cons y rest ih =>
    rw [foldl_cons]
    refine (ih _).trans ?_
    have : binaryInsert lt acc y ~ acc ++ [y] :=
      (binaryInsert_perm lt acc y).trans (@perm_append_comm _ [y] acc)
    simpa using this.append_right rest

theorem insertionSort_perm (lt : α → α → Bool) (xs : List α) : insertionSort lt xs ~ xs := by
  unfold insertionSort
  -- whatever the front run is found to be, it is put back in front of the rest
  generalize frontRun lt xs = p
  obtain ⟨n, falling⟩ := p
  refine (foldl_binaryInsert_perm lt _ _).trans ?_
  conv => rhs; rw [← take_append_drop n xs]
  cases falling
  · exact .refl _
  · exact (reverse_perm _).append_right _

/-! ### Galloping searches stay inside the run -/

/-- The steps of a gallop end past their last success and at most at the limit. -/
theorem gallopSteps_lt (further : Nat → Bool) (limit : Nat) :
    ∀ (fuel last ofs : Nat), last < ofs → last < limit →
      (gallopSteps further limit fuel last ofs).1 < (gallopSteps further limit fuel last ofs).2 ∧
        (gallopSteps further limit fuel last ofs).2 ≤ limit := by
  intro fuel
  induction fuel with
  | zero => intro last ofs h1 h2; simp only [gallopSteps]; omega
  | succ fuel ih =>
    intro last ofs h1 h2
    simp only [gallopSteps]
    split
    · split
      · exact ih ofs (2 * ofs + 1) (by omega) (by omega)
      · simp only; omega
    · simp only; omega

/-- Halving ends between its bounds, or at the lower one when they are the wrong way round. -/
theorem halve_le (before : Nat → Bool) :
    ∀ (fuel lo hi : Nat), halve before fuel lo hi ≤ max lo hi := by
  intro fuel
  induction fuel with
  | zero => intro lo hi; simp only [halve]; omega
  | succ fuel ih =>
    intro lo hi
    simp only [halve]
    split
    · split
      · have := ih (lo + (hi - lo) / 2 + 1) hi; omega
      · have := ih lo (lo + (hi - lo) / 2); omega
    · omega

/-- The place found for a key in a run of `n` items, from a hint inside it, is at most `n`. -/
theorem gallopLeft_le (lt : α → α → Bool) (key : α) (get : Nat → α) {n hint : Nat}
    (h : hint < n) : gallopLeft lt key get n hint ≤ n := by
  unfold gallopLeft
  split
  · -- stepping up from the hint, never past the end of the run
    generalize hg : gallopSteps (fun o => lt (get (hint + o)) key) (n - hint) (n + 1) 0 1 = p
    obtain ⟨last, ofs⟩ := p
    have hb := gallopSteps_lt (fun o => lt (get (hint + o)) key) (n - hint) (n + 1) 0 1
      (by omega) (by omega)
    rw [hg] at hb
    have := halve_le (fun m => lt (get m) key) (n + 1) (hint + last + 1) (hint + ofs)
    simp only at hb ⊢
    omega
  · -- stepping down from the hint, never below the start of the run
    generalize hg : gallopSteps (fun o => !lt (get (hint - o)) key) (hint + 1) (n + 1) 0 1 = p
    obtain ⟨last, ofs⟩ := p
    have hb := gallopSteps_lt (fun o => !lt (get (hint - o)) key) (hint + 1) (n + 1) 0 1
      (by omega) (by omega)
    rw [hg] at hb
    have := halve_le (fun m => lt (get m) key) (n + 1) (hint + 1 - ofs) (hint - last)
    simp only at hb ⊢
    omega

/-! ### Merging from the front -/

/-- The items of an array from position `i` on. -/
@[simp]
theorem toList_extract_size (a : Array α) (i : Nat) :
    (a.extract i a.size).toList = a.toList.drop i := by
  simp only [Array.toList_extract, extract_eq_take_drop]
  exact take_of_length_le (by simp)

/-- The items of an array from position `i` on, the one at `i` first. -/
theorem drop_eq_getD_cons [Inhabited α] (a : Array α) {i : Nat} (h : i < a.size) :
    a.toList.drop i = a.getD i default :: a.toList.drop (i + 1) := by
  rw [drop_eq_getElem_cons (by simpa using h)]
  simp [Array.getD_eq_getD_getElem?, h]

/-- What a merge from the front has written, then what is left of the first run and of the
second, are the two runs' items. -/
def FrontMerge.Keeps (a b : Array α) (st : FrontMerge α) : Prop :=
  st.out.toList ++ a.toList.drop st.ia ++ b.toList.drop st.ib ~ a.toList ++ b.toList

namespace FrontMerge.Keeps

variable {a b : Array α} {st : FrontMerge α}

theorem finish (h : Keeps a b st) : (st.finish a b).1.toList ~ a.toList ++ b.toList := by
  simp only [FrontMerge.finish, Array.toList_append, toList_extract_size]
  exact h

theorem lastFromA (h : Keeps a b st) : (st.lastFromA a b).1.toList ~ a.toList ++ b.toList := by
  simp only [FrontMerge.lastFromA, Array.toList_append, toList_extract_size, append_assoc]
  exact (perm_append_comm.append_left _).trans (by simpa [Keeps] using h)

/-- Moving the next item of the first run. -/
theorem pushA [Inhabited α] (hia : st.ia < a.size) (h : Keeps a b st) :
    Keeps a b { st with out := st.out.push (a.getD st.ia default), ia := st.ia + 1 } := by
  unfold Keeps at h ⊢
  rw [drop_eq_getD_cons a hia] at h
  simpa using h

/-- Moving the next item of the second run. -/
theorem pushB [Inhabited α] (hib : st.ib < b.size) (h : Keeps a b st) :
    Keeps a b { st with out := st.out.push (b.getD st.ib default), ib := st.ib + 1 } := by
  unfold Keeps at h ⊢
  rw [drop_eq_getD_cons b hib] at h
  refine Perm.trans ?_ h
  simpa using (@perm_middle _ _ (a.toList.drop st.ia) _).symm.append_left st.out.toList

/-- Moving the next `k` items of the first run, or all that are left. -/
theorem takeA (k : Nat) (h : Keeps a b st) :
    Keeps a b { st with out := st.out ++ a.extract st.ia (st.ia + k), ia := st.ia + k } := by
  refine (Perm.of_eq ?_).trans h
  simp only [Array.toList_append, Array.toList_extract, extract_eq_take_drop,
    Nat.add_sub_cancel_left, ← drop_drop, append_assoc, take_append_drop]

/-- Moving the next `k` items of the second run, or all that are left. -/
theorem takeB (k : Nat) (h : Keeps a b st) :
    Keeps a b { st with out := st.out ++ b.extract st.ib (st.ib + k), ib := st.ib + k } := by
  refine Perm.trans ?_ h
  simp only [Array.toList_append, Array.toList_extract, extract_eq_take_drop,
    Nat.add_sub_cancel_left, ← drop_drop, append_assoc]
  refine Perm.append_left _ ((perm_append_comm_assoc _ _ _).trans ?_)
  rw [take_append_drop]

end FrontMerge.Keeps

/-- A merge from the front outputs every item of the two runs once: at every step at least
two items of the first run and one of the second are left, so the next items it reads are
there. -/
theorem frontSteps_perm [Inhabited α] (lt : α → α → Bool) (a b : Array α) :
    ∀ (fuel : Nat) (st : FrontMerge α) (pace : Pace), FrontMerge.Keeps a b st →
      st.ia + 2 ≤ a.size → st.ib < b.size →
      (frontSteps lt a b fuel st pace).1.toList ~ a.toList ++ b.toList := by
  intro fuel
  induction fuel with
  | zero => intro st pace h _ _; exact h.finish
  | succ fuel ih =>
    intro st pace h hia hib
    cases pace with
    | steady aw bw =>
      simp only [frontSteps]
      by_cases hlt : lt (b.getD st.ib default) (a.getD st.ia default) = true
      · -- the head of the second run goes first
        have h' := h.pushB hib
        rw [if_pos hlt]
        by_cases hend : st.ib + 1 = b.size
        · rw [if_pos (by simpa using hend)]
          exact h'.finish
        · rw [if_neg (by simpa using hend)]
          by_cases hg : bw + 1 ≥ st.gallop
          · rw [if_pos hg]
            exact ih _ _ h' hia (by simp; omega)
          · rw [if_neg hg]
            exact ih _ _ h' hia (by simp; omega)
      · have h' := h.pushA (by omega)
        rw [if_neg hlt]
        by_cases hend : a.size - (st.ia + 1) = 1
        · rw [if_pos (by simpa using hend)]
          exact h'.lastFromA
        · rw [if_neg (by simpa using hend)]
          by_cases hg : aw + 1 ≥ st.gallop
          · rw [if_pos hg]
            exact ih _ _ h' (by simp; omega) hib
          · rw [if_neg hg]
            exact ih _ _ h' (by simp; omega) hib
    | galloping =>
      simp only [frontSteps]
      generalize gallopRight lt (b.getD st.ib default) (fun i => a.getD (st.ia + i) default)
        (a.size - st.ia) 0 = k
      -- a stretch of the first run, then the head of the second
      have h1 := h.takeA k
      by_cases e1 : a.size - (st.ia + k) = 1
      · rw [if_pos (by simpa using e1)]
        exact h1.lastFromA
      rw [if_neg (by simpa using e1)]
      by_cases e2 : a.size - (st.ia + k) = 0
      · rw [if_pos (by simpa using e2)]
        exact h1.finish
      rw [if_neg (by simpa using e2)]
      have h2 := h1.pushB (by exact hib)
      by_cases e3 : st.ib + 1 = b.size
      · rw [if_pos (by simpa using e3)]
        exact h2.finish
      rw [if_neg (by simpa using e3)]
      -- a stretch of the second run, which the search keeps inside it, then the head of the first
      have hk : gallopLeft lt (a.getD (st.ia + k) default) (fun i => b.getD (st.ib + 1 + i) default)
          (b.size - (st.ib + 1)) 0 ≤ b.size - (st.ib + 1) :=
        gallopLeft_le lt _ _ (by omega)
      generalize gallopLeft lt (a.getD (st.ia + k) default) (fun i => b.getD (st.ib + 1 + i) default)
        (b.size - (st.ib + 1)) 0 = k' at hk ⊢
      have h3 := h2.takeB k'
      by_cases e4 : st.ib + 1 + k' = b.size
      · rw [if_pos (by simpa using e4)]
        exact h3.finish
      rw [if_neg (by simpa using e4)]
      have h4 := h3.pushA (by simp; omega)
      by_cases e5 : a.size - (st.ia + k + 1) = 1
      · rw [if_pos (by simpa using e5)]
        exact h4.lastFromA
      rw [if_neg (by simpa using e5)]
      by_cases e6 : (k ≥ minGallop || k' ≥ minGallop) = true
      · rw [if_pos e6]
        exact ih _ _ h4 (by simp; omega) (by simp; omega)
      · rw [if_neg e6]
        exact ih _ _ h4 (by simp; omega) (by simp; omega)

/-- A merge from the front outputs every item of two nonempty runs once. -/
theorem mergeLow_perm [Inhabited α] (lt : α → α → Bool) {a b : Array α} (gallop : Nat)
    (ha : 0 < a.size) (hb : 0 < b.size) :
    (mergeLow lt a b gallop).1.toList ~ a.toList ++ b.toList := by
  -- the head of the second run is written first: the merge is called when it must be
  have h0 : FrontMerge.Keeps a b ⟨#[b.getD 0 default], 0, 1, gallop⟩ := by
    have hb0 := drop_eq_getD_cons b hb
    rw [drop_zero] at hb0
    unfold FrontMerge.Keeps
    conv => rhs; rw [hb0]
    simpa using (@perm_middle _ _ a.toList _).symm
  unfold mergeLow
  by_cases e1 : b.size = 1
  · rw [if_pos (by simpa using e1)]
    exact h0.finish
  rw [if_neg (by simpa using e1)]
  by_cases e2 : a.size = 1
  · rw [if_pos (by simpa using e2)]
    exact h0.lastFromA
  rw [if_neg (by simpa using e2)]
  exact frontSteps_perm lt a b _ _ _ h0 (by simp; omega) (by simp; omega)

/-! ### Merging from the back -/

/-- What is left of the first run and of the second, then what a merge from the back has
written, are the two runs' items. -/
def BackMerge.Keeps (a b : Array α) (st : BackMerge α) : Prop :=
  a.toList.take st.na ++ b.toList.take st.nb ++ st.back ~ a.toList ++ b.toList

/-- The first `i + 1` items of an array, the one at `i` last. -/
theorem take_eq_take_append_getD [Inhabited α] (a : Array α) {i : Nat} (h : i < a.size) :
    a.toList.take (i + 1) = a.toList.take i ++ [a.getD i default] := by
  rw [take_add_one, getElem?_eq_getElem (by simpa using h)]
  simp [Array.getD_eq_getD_getElem?, h]

/-- The first `n` items of a list, cut `k` items before the end. -/
theorem take_eq_take_sub_append (l : List α) {n k : Nat} (h : k ≤ n) :
    l.take n = l.take (n - k) ++ (l.drop (n - k)).take k := by
  conv => lhs; rw [show n = (n - k) + k by omega]
  exact take_add

namespace BackMerge.Keeps

variable {a b : Array α} {st : BackMerge α}

theorem finish (h : Keeps a b st) : (st.finish a b).1.toList ~ a.toList ++ b.toList := by
  simpa [BackMerge.finish, extract_eq_take_drop, Keeps] using h

theorem firstFromB (h : Keeps a b st) :
    (st.firstFromB a b).1.toList ~ a.toList ++ b.toList := by
  refine Perm.trans ?_ h
  simpa [BackMerge.firstFromB, extract_eq_take_drop] using
    (@perm_append_comm _ (b.toList.take st.nb) _).append_right st.back

/-- Moving the last item left of the first run. -/
theorem popA [Inhabited α] (hna : 0 < st.na) (hle : st.na ≤ a.size) (h : Keeps a b st) :
    Keeps a b { st with back := a.getD (st.na - 1) default :: st.back, na := st.na - 1 } := by
  unfold Keeps at h ⊢
  rw [show st.na = st.na - 1 + 1 by omega, take_eq_take_append_getD a (by omega)] at h
  refine Perm.trans ?_ h
  simpa using perm_append_comm_assoc (b.toList.take st.nb) [a.getD (st.na - 1) default] st.back
    |>.append_left _

/-- Moving the last item left of the second run. -/
theorem popB [Inhabited α] (hnb : 0 < st.nb) (hle : st.nb ≤ b.size) (h : Keeps a b st) :
    Keeps a b { st with back := b.getD (st.nb - 1) default :: st.back, nb := st.nb - 1 } := by
  unfold Keeps at h ⊢
  rw [show st.nb = st.nb - 1 + 1 by omega, take_eq_take_append_getD b (by omega)] at h
  simpa using h

/-- Moving the last `k` items left of the first run. -/
theorem takeA (k : Nat) (hk : k ≤ st.na) (h : Keeps a b st) :
    Keeps a b { st with back := (a.extract (st.na - k) st.na).toList ++ st.back,
                        na := st.na - k } := by
  unfold Keeps at h ⊢
  rw [take_eq_take_sub_append a.toList hk] at h
  refine Perm.trans ?_ h
  simp only [Array.toList_extract, extract_eq_take_drop, Nat.sub_sub_self hk, append_assoc]
  exact (perm_append_comm_assoc _ _ _).append_left _

/-- Moving the last `k` items left of the second run. -/
theorem takeB (k : Nat) (hk : k ≤ st.nb) (h : Keeps a b st) :
    Keeps a b { st with back := (b.extract (st.nb - k) st.nb).toList ++ st.back,
                        nb := st.nb - k } := by
  unfold Keeps at h ⊢
  rw [take_eq_take_sub_append b.toList hk] at h
  simpa [extract_eq_take_drop, Nat.sub_sub_self hk] using h

end BackMerge.Keeps

/-- A merge from the back outputs every item of the two runs once: at every step at least
one item of the first run and two of the second are left, so the items it reads are
there. -/
theorem backSteps_perm [Inhabited α] (lt : α → α → Bool) (a b : Array α) :
    ∀ (fuel : Nat) (st : BackMerge α) (pace : Pace), BackMerge.Keeps a b st →
      0 < st.na → st.na ≤ a.size → 2 ≤ st.nb → st.nb ≤ b.size →
      (backSteps lt a b fuel st pace).1.toList ~ a.toList ++ b.toList := by
  intro fuel
  induction fuel with
  | zero => intro st pace h _ _ _ _; exact h.finish
  | succ fuel ih =>
    intro st pace h hna hla hnb hlb
    cases pace with
    | steady aw bw =>
      simp only [backSteps]
      by_cases hlt : lt (b.getD (st.nb - 1) default) (a.getD (st.na - 1) default) = true
      · -- the last item of the first run goes last
        have h' := h.popA hna hla
        rw [if_pos hlt]
        by_cases hend : st.na - 1 = 0
        · rw [if_pos (by simpa using hend)]
          exact h'.finish
        · rw [if_neg (by simpa using hend)]
          by_cases hg : aw + 1 ≥ st.gallop
          · rw [if_pos hg]
            exact ih _ _ h' (by simp; omega) (by simp; omega) hnb hlb
          · rw [if_neg hg]
            exact ih _ _ h' (by simp; omega) (by simp; omega) hnb hlb
      · have h' := h.popB (by omega) hlb
        rw [if_neg hlt]
        by_cases hend : st.nb - 1 = 1
        · rw [if_pos (by simpa using hend)]
          exact h'.firstFromB
        · rw [if_neg (by simpa using hend)]
          by_cases hg : bw + 1 ≥ st.gallop
          · rw [if_pos hg]
            exact ih _ _ h' hna hla (by simp; omega) (by simp; omega)
          · rw [if_neg hg]
            exact ih _ _ h' hna hla (by simp; omega) (by simp; omega)
    | galloping =>
      simp only [backSteps]
      -- the counts of moved items are differences, so they never exceed what is left
      generalize gallopRight lt (b.getD (st.nb - 1) default) (fun i => a.getD i default) st.na
        (st.na - 1) = r
      have h1 := h.takeA (st.na - r) (Nat.sub_le _ _)
      by_cases e1 : st.na - (st.na - r) = 0
      · rw [if_pos (by simpa using e1)]
        exact h1.finish
      rw [if_neg (by simpa using e1)]
      have h2 := h1.popB (by simp; omega) (by simp; omega)
      by_cases e2 : st.nb - 1 = 1
      · rw [if_pos (by simpa using e2)]
        exact h2.firstFromB
      rw [if_neg (by simpa using e2)]
      generalize gallopLeft lt (a.getD (st.na - (st.na - r) - 1) default) (fun i => b.getD i default)
        (st.nb - 1) (st.nb - 1 - 1) = r'
      have h3 := h2.takeB (st.nb - 1 - r') (Nat.sub_le _ _)
      by_cases e3 : st.nb - 1 - (st.nb - 1 - r') = 1
      · rw [if_pos (by simpa using e3)]
        exact h3.firstFromB
      rw [if_neg (by simpa using e3)]
      by_cases e4 : st.nb - 1 - (st.nb - 1 - r') = 0
      · rw [if_pos (by simpa using e4)]
        exact h3.finish
      rw [if_neg (by simpa using e4)]
      have h4 := h3.popA (by simp; omega) (by simp; omega)
      by_cases e5 : st.na - (st.na - r) - 1 = 0
      · rw [if_pos (by simpa using e5)]
        exact h4.finish
      rw [if_neg (by simpa using e5)]
      by_cases e6 : (st.na - r ≥ minGallop || st.nb - 1 - r' ≥ minGallop) = true
      · rw [if_pos e6]
        exact ih _ _ h4 (by simp; omega) (by simp; omega) (by simp; omega) (by simp; omega)
      · rw [if_neg e6]
        exact ih _ _ h4 (by simp; omega) (by simp; omega) (by simp; omega) (by simp; omega)

/-- A merge from the back outputs every item of two nonempty runs once. -/
theorem mergeHigh_perm [Inhabited α] (lt : α → α → Bool) {a b : Array α} (gallop : Nat)
    (ha : 0 < a.size) (hb : 0 < b.size) :
    (mergeHigh lt a b gallop).1.toList ~ a.toList ++ b.toList := by
  -- the last item of the first run is written last: the merge is called when it must be
  have h0 : BackMerge.Keeps a b ⟨[a.getD (a.size - 1) default], a.size - 1, b.size, gallop⟩ := by
    have ha0 := take_eq_take_append_getD a (i := a.size - 1) (by omega)
    rw [Nat.sub_add_cancel ha, take_of_length_le (by simp)] at ha0
    have hb' : b.toList.take b.size = b.toList := take_of_length_le (by simp)
    unfold BackMerge.Keeps
    conv => rhs; rw [ha0]
    rw [hb', append_assoc, append_assoc]
    exact (@perm_append_comm _ _ [a.getD (a.size - 1) default]).append_left _
  unfold mergeHigh
  by_cases e1 : a.size - 1 = 0
  · rw [if_pos (by simpa using e1)]
    exact h0.finish
  rw [if_neg (by simpa using e1)]
  by_cases e2 : b.size = 1
  · rw [if_pos (by simpa using e2)]
    exact h0.firstFromB
  rw [if_neg (by simpa using e2)]
  exact backSteps_perm lt a b _ _ _ h0 (by simp; omega) (by simp) (by simp; omega) (by simp)

/-! ### The stack of pending runs -/

/-- The runs lie side by side from `lo` to `hi`, each nonempty. -/
def Covers : List Run → Nat → Nat → Prop
  | [], lo, hi => lo = hi
  | r :: rs, lo, hi => r.start = lo ∧ 0 < r.length ∧ Covers rs (lo + r.length) hi

namespace Covers

theorem le : ∀ {rs : List Run} {lo hi : Nat}, Covers rs lo hi → lo ≤ hi
  | [], _, _, h => Nat.le_of_eq h
  | _ :: _, _, _, ⟨_, _, h⟩ => by have := le h; omega

/-- A new nonempty run after the last one. -/
theorem append {k : Nat} (p : Nat) (hk : 0 < k) :
    ∀ {rs : List Run} {lo mid : Nat}, Covers rs lo mid → Covers (rs ++ [⟨mid, k, p⟩]) lo (mid + k)
  | [], _, _, h => by subst h; exact ⟨rfl, hk, rfl⟩
  | _ :: _, _, _, ⟨hs, hl, h⟩ => ⟨hs, hl, append p hk h⟩

/-- Two neighbouring runs: the second starts where the first ends, is nonempty and ends
inside the covered stretch. -/
theorem neighbours {rs : List Run} {lo hi i : Nat} (h : Covers rs lo hi)
    (hi' : i + 1 < rs.length) :
    lo ≤ (rs.getD i default).start ∧
      (rs.getD i default).start + (rs.getD i default).length = (rs.getD (i + 1) default).start ∧
      0 < (rs.getD (i + 1) default).length ∧
      (rs.getD (i + 1) default).start + (rs.getD (i + 1) default).length ≤ hi := by
  induction rs generalizing lo i with
  | nil => simp at hi'
  | cons r0 rest ih =>
    obtain ⟨h0, -, h⟩ := h
    cases i with
    | zero =>
      cases rest with
      | nil => simp at hi'
      | cons r1 rest =>
        obtain ⟨h1, hl1, h⟩ := h
        have := h.le
        simp only [getD_cons_zero, getD_cons_succ]
        omega
    | succ i =>
      have := ih h (by simp at hi'; omega)
      simp only [getD_cons_succ]
      omega

/-- Merging two neighbouring runs into the first keeps the runs side by side. -/
theorem merge {rs : List Run} {lo hi i : Nat} (h : Covers rs lo hi) (hi' : i + 1 < rs.length) :
    Covers ((rs.set i { rs.getD i default with
        length := (rs.getD i default).length + (rs.getD (i + 1) default).length }).eraseIdx (i + 1))
      lo hi := by
  induction rs generalizing lo i with
  | nil => simp at hi'
  | cons r0 rest ih =>
    obtain ⟨h0, hl0, h⟩ := h
    cases i with
    | zero =>
      cases rest with
      | nil => simp at hi'
      | cons r1 rest =>
        obtain ⟨-, -, h⟩ := h
        simp only [getD_cons_zero, getD_cons_succ, set_cons_zero, eraseIdx_cons_succ,
          eraseIdx_cons_zero]
        exact ⟨h0, Nat.add_pos_left hl0 _, by rwa [Nat.add_assoc] at h⟩
    | succ i =>
      simp only [getD_cons_succ, set_cons_succ, eraseIdx_cons_succ]
      exact ⟨h0, hl0, ih h (by simp at hi'; omega)⟩

/-- Changing the power of a run keeps the runs side by side. -/
theorem modify_power (p : Nat) : ∀ {rs : List Run} {lo hi : Nat} (j : Nat), Covers rs lo hi →
    Covers (rs.modify j fun r => { r with power := p }) lo hi
  | [], _, _, _, h => by simpa using h
  | _ :: _, _, _, 0, ⟨hs, hl, h⟩ => by rw [modify_zero_cons]; exact ⟨hs, hl, h⟩
  | _ :: _, _, _, j + 1, ⟨hs, hl, h⟩ => by
    rw [modify_succ_cons]; exact ⟨hs, hl, modify_power p j h⟩

end Covers

/-- A sort part way: the items are a permutation of the input, and the pending runs lie side
by side from the front of the array up to `pos`, inside it. -/
structure Stacked (xs : List α) (s : Sorting α) (pos : Nat) : Prop where
  perm : s.items.toList ~ xs
  covers : Covers s.runs 0 pos
  within : pos ≤ s.items.size

namespace Stacked

variable {xs : List α} {s : Sorting α} {pos : Nat}

/-- Merging two neighbouring runs keeps the sort's invariant: the merged stretch is the two
runs side by side, and a merge permutes it. -/
theorem mergeAt [Inhabited α] (lt : α → α → Bool) {i : Nat} (h : Stacked xs s pos)
    (hi : i + 1 < s.runs.length) : Stacked xs (Order.mergeAt lt s i) pos := by
  obtain ⟨-, hab, hb0, hbend⟩ := h.covers.neighbours hi
  have hruns := h.covers.merge hi
  unfold Order.mergeAt
  simp only
  set ra := s.runs.getD i default
  set rb := s.runs.getD (i + 1) default
  -- whatever the searches find, the stretch merged is the two runs side by side
  generalize gallopRight lt (s.items.getD rb.start default)
    (fun j => s.items.getD (ra.start + j) default) ra.length 0 = k
  have hkeep : Stacked xs { s with runs := (s.runs.set i
      { start := ra.start, length := ra.length + rb.length, power := ra.power }).eraseIdx (i + 1) }
      pos := ⟨h.perm, hruns, h.within⟩
  by_cases hna : ra.length - k = 0
  · rw [if_pos (by simpa using hna)]
    exact hkeep
  rw [if_neg (by simpa using hna)]
  generalize gallopLeft lt (s.items.getD (ra.start + k + (ra.length - k) - 1) default)
    (fun j => s.items.getD (rb.start + j) default) rb.length (rb.length - 1) = nb
  by_cases hnb : nb = 0
  · rw [if_pos (by simpa using hnb)]
    exact hkeep
  rw [if_neg (by simpa using hnb)]
  have hsize := h.within
  set a := s.items.extract (ra.start + k) (ra.start + k + (ra.length - k))
  set b := s.items.extract rb.start (rb.start + nb)
  have ha : 0 < a.size := by simp [a, Array.size_extract]; omega
  have hb : 0 < b.size := by simp [b, Array.size_extract]; omega
  have hm : (if ra.length - k ≤ nb then mergeLow lt a b s.gallop
      else mergeHigh lt a b s.gallop).1.toList ~ a.toList ++ b.toList := by
    split
    · exact mergeLow_perm lt s.gallop ha hb
    · exact mergeHigh_perm lt s.gallop ha hb
  generalize (if ra.length - k ≤ nb then mergeLow lt a b s.gallop
      else mergeHigh lt a b s.gallop) = res at hm ⊢
  refine ⟨(writeAt_perm s.items (ra.start + k) (ra.length - k + nb) (hm.trans (.of_eq ?_))).trans
    h.perm, hruns, by simpa using hsize⟩
  have hrb : rb.start = ra.start + k + (ra.length - k) := by omega
  simp only [a, b, Array.toList_extract, extract_eq_take_drop, take_add, drop_drop, hrb,
    Nat.add_sub_cancel_left]

theorem collapseAbove [Inhabited α] (lt : α → α → Bool) (power : Nat) :
    ∀ (fuel : Nat) {s : Sorting α}, Stacked xs s pos →
      Stacked xs (Order.collapseAbove lt power fuel s) pos := by
  intro fuel
  induction fuel with
  | zero => intro s h; exact h
  | succ fuel ih =>
    intro s h
    simp only [Order.collapseAbove]
    split
    · rename_i hc
      simp only [Bool.and_eq_true, decide_eq_true_eq] at hc
      exact ih (h.mergeAt lt (by omega))
    · exact h

theorem collapseAll [Inhabited α] (lt : α → α → Bool) :
    ∀ (fuel : Nat) {s : Sorting α}, Stacked xs s pos →
      Stacked xs (Order.collapseAll lt fuel s) pos := by
  intro fuel
  induction fuel with
  | zero => intro s h; exact h
  | succ fuel ih =>
    intro s h
    simp only [Order.collapseAll]
    split
    · rename_i hc
      -- the runs merged are the top two or the two below them
      refine ih (h.mergeAt lt ?_)
      split <;> omega
    · exact h

/-- Pushing a nonempty run that starts where the stack ends and ends inside the array. -/
theorem pushRun [Inhabited α] (lt : α → α → Bool) (total : Nat) {start k : Nat}
    (h : Stacked xs s start) (hk : 0 < k) (hend : start + k ≤ s.items.size) :
    Stacked xs (Order.pushRun lt total s start k) (start + k) := by
  unfold Order.pushRun
  split
  · rename_i hnone
    have hstart : start = 0 := by
      have hc := h.covers
      rw [getLast?_eq_none_iff.1 hnone] at hc
      exact hc.symm
    subst hstart
    exact ⟨h.perm, ⟨rfl, hk, rfl⟩, hend⟩
  · rename_i top _
    have h' := h.collapseAbove lt (runPower top.start top.length k total) s.runs.length
    refine ⟨h'.perm, ?_, ?_⟩
    · exact ((Covers.modify_power _ _ h'.covers).append 0 hk)
    · have := h'.perm.length_eq
      have := h.perm.length_eq
      simp only [Array.length_toList] at *
      omega

end Stacked

/-- Cutting the next run: the items are permuted and the run is nonempty and no longer than
what is left. -/
theorem cutRun_spec (lt : α → α → Bool) (least : Nat) (items : Array α) (start left : Nat)
    (hleft : start + left = items.size) (hl : 0 < left) (hleast : 0 < least) :
    (cutRun lt least items start left).1.toList ~ items.toList ∧
      0 < (cutRun lt least items start left).2 ∧ (cutRun lt least items start left).2 ≤ left := by
  unfold cutRun
  simp only
  have hrest : (items.extract start (start + left)).toList = items.toList.drop start := by
    rw [hleft]
    exact toList_extract_size items start
  rw [hrest]
  have hlen : (items.toList.drop start).length = left := by simp; omega
  obtain ⟨hle, hpos⟩ := frontRun_le lt (items.toList.drop start)
  generalize frontRun lt (items.toList.drop start) = p at hle hpos
  obtain ⟨n, falling⟩ := p
  simp only at hle hpos ⊢
  split
  · -- a short run is made up to the minimum by insertion
    refine ⟨writeAt_perm items start (min left least) (insertionSort_perm lt _), ?_, ?_⟩ <;> omega
  · refine ⟨writeAt_perm items start n ?_, by omega, by omega⟩
    cases falling
    · exact .refl _
    · exact reverse_perm _

/-- The minimum run length is positive for a nonempty list. -/
theorem minRunFrom_pos : ∀ (fuel n r : Nat), 0 < n → 0 < minRunFrom fuel n r
  | 0, n, r, h => by simp only [minRunFrom]; omega
  | fuel + 1, n, r, h => by
    simp only [minRunFrom]
    split
    · exact minRunFrom_pos fuel _ _ (by omega)
    · omega

/-- Cutting the whole list into runs keeps the sort's invariant. -/
theorem cutRuns_stacked [Inhabited α] (lt : α → α → Bool) {xs : List α} {total least : Nat}
    (htotal : xs.length = total) (hleast : 0 < least) :
    ∀ (fuel : Nat) (s : Sorting α) (start : Nat), Stacked xs s start →
      ∃ pos, Stacked xs (cutRuns lt total least fuel s start) pos := by
  intro fuel
  induction fuel with
  | zero => intro s start h; exact ⟨start, h⟩
  | succ fuel ih =>
    intro s start h
    simp only [cutRuns]
    split
    · rename_i hlt
      have hsize : s.items.size = total := by
        rw [← htotal, ← h.perm.length_eq, Array.length_toList]
      obtain ⟨hp, hk, hkl⟩ := cutRun_spec lt least s.items start (total - start) (by omega)
        (by omega) hleast
      generalize cutRun lt least s.items start (total - start) = c at hp hk hkl
      obtain ⟨items, k⟩ := c
      simp only at hp hk hkl ⊢
      have hs : items.size = s.items.size := by simpa using hp.length_eq
      have h' : Stacked xs { s with items := items } start :=
        ⟨hp.trans h.perm, h.covers, by simp only [hs]; omega⟩
      exact ih _ _ (h'.pushRun lt total hk (by simp only [hs]; omega))
    · exact ⟨start, h⟩

/-- The adaptive merge sort returns a permutation of its input, whatever the less-than
test. -/
theorem sortBy_perm [Inhabited α] (lt : α → α → Bool) (xs : List α) : sortBy lt xs ~ xs := by
  unfold sortBy
  simp only
  split
  · exact .refl _
  · rename_i hn
    have h0 : Stacked xs ⟨xs.toArray, [], minGallop⟩ 0 := ⟨by simp, rfl, by simp⟩
    obtain ⟨pos, h⟩ := cutRuns_stacked lt rfl (minRunFrom_pos xs.length xs.length 0 (by omega)) _ _ _ h0
    exact (h.collapseAll lt _).perm

/-- The descending sort returns a permutation of its input. -/
theorem sortDescendingBy_perm [Inhabited α] (lt : α → α → Bool) (xs : List α) :
    sortDescendingBy lt xs ~ xs :=
  (reverse_perm _).trans ((sortBy_perm lt _).trans (reverse_perm _))

end OnnxFusion.Order

import Mathlib.Data.List.Nodup
import OnnxFusion.Dataflow.Dict
/-!
# Dictionaries by their keys and lookups

Each operation of an insertion-ordered dictionary is described by what it does to the key
list and to lookups, and a dictionary is fixed by those two (`eq_of_keys_get?`). Lookups rest
on one fact: with distinct keys, the value under a key is the one its entry holds
(`get?_eq_some_iff`). Setting a present key keeps the key list (`keys_set_of_mem`), setting a
new one appends it (`entries_set_of_not_mem`); deleting filters it out (`keys_erase`);
updating in place keeps the key list (`keys_modify`).

Over a loop of assignments, the key list grows by first insertion (`keys_foldl_set`, through
`insertKeys`) and the value under a key is the last one assigned to it (`get?_foldl_set`); a
loop of updates in place updates each key by its own assignments, in order
(`get?_foldl_modify`).
-/

set_option autoImplicit false

namespace OnnxFusion.Dataflow.Dict

open List

variable {κ ν : Type}

@[ext] theorem ext {d d' : Dict κ ν} (h : d.entries = d'.entries) : d = d' := by
  cases d
  cases d'
  simp only at h
  subst h
  rfl

@[simp] theorem keys_empty : (empty : Dict κ ν).keys = [] := rfl

@[simp] theorem size_eq (d : Dict κ ν) : d.size = d.keys.length := by
  simp [size, keys]

variable [DecidableEq κ] {d : Dict κ ν} {k k' : κ} {v w : ν}

/-! ### Lookups -/

/-- With distinct keys, the value under a key is the one its entry holds. -/
theorem get?_eq_some_iff : d.get? k = some v ↔ (k, v) ∈ d.entries := by
  obtain ⟨entries, hnd⟩ := d
  simp only [get?]
  induction entries with
  | nil => simp
  | cons e rest ih =>
    rw [map_cons, nodup_cons] at hnd
    by_cases he : e.1 = k
    · -- the head holds the key, and no later entry does
      subst he
      have hrest : (e.1, v) ∉ rest := fun h => hnd.1 (mem_map_of_mem (f := (·.1)) h)
      rw [find?_cons_of_pos (by simp), mem_cons]
      simp only [Option.map_some, Option.some.injEq, hrest, or_false]
      exact ⟨fun h => by rw [← h], fun h => (congrArg Prod.snd h).symm⟩
    · rw [find?_cons_of_neg (by simpa using he), ih hnd.2, mem_cons]
      refine ⟨Or.inr, fun h => h.resolve_left fun h' => he (by rw [← h'])⟩

theorem get?_eq_none_iff : d.get? k = none ↔ k ∉ d.keys := by
  rw [← not_iff_not, not_not, ← ne_eq, Option.ne_none_iff_exists']
  constructor
  · rintro ⟨v, hv⟩
    exact mem_map.2 ⟨(k, v), get?_eq_some_iff.1 hv, rfl⟩
  · intro hk
    obtain ⟨⟨k₀, v⟩, hmem, rfl⟩ := mem_map.1 hk
    exact ⟨v, get?_eq_some_iff.2 hmem⟩

theorem contains_iff : d.contains k = true ↔ k ∈ d.keys := List.contains_iff_mem

@[simp] theorem get?_empty : (empty : Dict κ ν).get? k = none := rfl

/-- The entries of a dictionary are its keys, each with the value under it. -/
theorem entries_eq_filterMap (d : Dict κ ν) :
    d.entries = d.keys.filterMap fun k => (d.get? k).map (k, ·) := by
  rw [keys, filterMap_map]
  conv_lhs => rw [← filterMap_some (l := d.entries)]
  refine filterMap_congr fun e he => ?_
  rw [Function.comp_apply, get?_eq_some_iff.2 he]
  rfl

/-- A dictionary whose keys are those of a list and whose lookups agree with it has the list
as its entries. -/
theorem entries_eq_of_keys {l : List (κ × ν)} (hk : d.keys = l.map (·.1))
    (hg : ∀ e ∈ l, d.get? e.1 = some e.2) : d.entries = l := by
  rw [entries_eq_filterMap, hk, filterMap_map]
  conv_rhs => rw [← filterMap_some (l := l)]
  refine filterMap_congr fun e he => ?_
  rw [Function.comp_apply, hg e he]
  rfl

/-- Two dictionaries with the same keys in the same order and the same lookups are equal. -/
theorem eq_of_keys_get? {d d' : Dict κ ν} (hk : d.keys = d'.keys)
    (hg : ∀ k, d.get? k = d'.get? k) : d = d' := by
  ext1
  rw [entries_eq_filterMap d, entries_eq_filterMap d', hk]
  exact filterMap_congr fun k _ => by rw [hg k]

/-! ### Setting, deleting and updating -/

/-- Rewriting the values in place keeps every search by key. -/
theorem get?_map_of_fst {f : κ × ν → κ × ν} (hf : ∀ e, (f e).1 = e.1) (l : List (κ × ν)) :
    ((l.map f).find? (·.1 == k')).map (·.2) = (l.find? (·.1 == k')).map fun e => (f e).2 := by
  rw [find?_map, Option.map_map]
  have hp : ((fun e : κ × ν => e.1 == k') ∘ f) = (·.1 == k') := funext fun e => by
    simp only [Function.comp_apply, hf]
  rw [hp]
  rfl

theorem entries_set_of_not_mem (h : k ∉ d.keys) : (d.set k v).entries = d.entries ++ [(k, v)] := by
  have hc : d.contains k = false := by
    rw [Bool.eq_false_iff, ne_eq, contains_iff]
    exact h
  simp only [set, hc]
  rfl

theorem keys_set_of_not_mem (h : k ∉ d.keys) : (d.set k v).keys = d.keys ++ [k] := by
  simp [keys, entries_set_of_not_mem h]

theorem keys_set_of_mem (h : k ∈ d.keys) : (d.set k v).keys = d.keys := by
  have hc : d.contains k = true := contains_iff.2 h
  simp only [set, hc, dite_true, keys, map_map]
  exact map_congr_left fun e _ => by
    simp only [Function.comp_apply]
    split <;> rfl

@[simp] theorem get?_set : (d.set k v).get? k' = if k' = k then some v else d.get? k' := by
  by_cases hk : k ∈ d.keys
  · have hc : d.contains k = true := contains_iff.2 hk
    simp only [set, hc, dite_true, get?]
    rw [get?_map_of_fst (fun e => by split <;> rfl)]
    split
    · -- the entry of `k` now holds `v`
      rename_i hk'
      subst hk'
      obtain ⟨e₀, he₀, hk₀⟩ := mem_map.1 hk
      obtain ⟨e, he⟩ := Option.isSome_iff_exists.1
        ((find?_isSome (p := fun e : κ × ν => e.1 == k')).2 ⟨e₀, he₀, by simp [hk₀]⟩)
      have hek : e.1 = k' := by simpa using find?_some he
      simp [he, hek]
    · -- every entry found for another key is left as it was
      rename_i hk'
      refine Option.map_congr fun e he => ?_
      have hek : e.1 = k' := by simpa using find?_some he
      simp [hek, hk']
  · simp only [get?, entries_set_of_not_mem hk, find?_append]
    split
    · rename_i hk'
      subst hk'
      have hnone : d.entries.find? (·.1 == k') = none := by
        rw [find?_eq_none]
        intro e he hek
        exact hk (by simpa [keys, (beq_iff_eq.1 hek).symm] using mem_map_of_mem (f := (·.1)) he)
      simp [hnone]
    · rename_i hk'
      simp [Ne.symm hk']

@[simp] theorem keys_erase : (d.erase k).keys = d.keys.filter (· != k) := by
  simp [erase, keys, filter_map, Function.comp_def]

@[simp] theorem get?_erase : (d.erase k).get? k' = if k' = k then none else d.get? k' := by
  simp only [get?, erase, find?_filter]
  split
  · rename_i hk
    subst hk
    simp
  · rename_i hk
    congr 2
    funext e
    by_cases he : e.1 = k' <;> simp [he, hk]

theorem entries_erase : (d.erase k).entries = d.entries.filter (·.1 != k) := rfl

/-- Deleting a key that is absent changes nothing. -/
theorem erase_of_not_mem (h : k ∉ d.keys) : d.erase k = d := by
  ext1
  refine filter_eq_self.2 fun e he => ?_
  have hne : e.1 ≠ k := fun hk => h (hk ▸ mem_map_of_mem (f := fun e : κ × ν => e.1) he)
  simpa using hne

@[simp] theorem erase_erase : (d.erase k).erase k = d.erase k := by
  ext1
  simp [entries_erase, filter_filter]

/-- Deleting a key at each of its occurrences in a list deletes it once, if it occurs. -/
theorem foldl_erase_filter {k' : κ} (l : List κ) (d : Dict κ ν) :
    (l.filter (· == k')).foldl (fun d _ => d.erase k) d = if k' ∈ l then d.erase k else d := by
  induction l generalizing d with
  | nil => simp
  | cons a l ih =>
    by_cases ha : a = k'
    · subst ha
      rw [filter_cons_of_pos (by simp), foldl_cons, ih, if_pos mem_cons_self]
      split <;> simp
    · rw [filter_cons_of_neg (by simpa using ha), ih]
      simp [Ne.symm ha]

@[simp] theorem keys_modify (f : ν → ν) : (d.modify k f).keys = d.keys := by
  simp only [modify, keys, map_map]
  exact map_congr_left fun e _ => by
    simp only [Function.comp_apply]
    split <;> rfl

theorem entries_modify (f : ν → ν) :
    (d.modify k f).entries = d.entries.map fun e => if e.1 = k then (e.1, f e.2) else e := by
  simp only [modify]
  exact map_congr_left fun e _ => by simp

@[simp] theorem get?_modify (f : ν → ν) :
    (d.modify k f).get? k' = if k' = k then (d.get? k).map f else d.get? k' := by
  simp only [modify, get?]
  rw [get?_map_of_fst (fun e => by split <;> rfl)]
  split
  · rename_i hk
    subst hk
    rw [Option.map_map]
    refine Option.map_congr fun e he => ?_
    have hek : e.1 = k' := by simpa using find?_some he
    simp [hek]
  · rename_i hk
    refine Option.map_congr fun e he => ?_
    have hek : e.1 = k' := by simpa using find?_some he
    simp [hek, hk]

/-! ### Loops of assignments -/

/-- The key list after inserting the keys `new` in turn: a key already listed stays where it
is, a new one goes last. -/
def insertKeys (ks new : List κ) : List κ :=
  new.foldl (fun ks k => if k ∈ ks then ks else ks ++ [k]) ks

@[simp] theorem insertKeys_nil (ks : List κ) : insertKeys ks [] = ks := rfl

theorem insertKeys_cons (ks : List κ) (k : κ) (new : List κ) :
    insertKeys ks (k :: new) = insertKeys (if k ∈ ks then ks else ks ++ [k]) new := rfl

theorem insertKeys_append (ks new new' : List κ) :
    insertKeys ks (new ++ new') = insertKeys (insertKeys ks new) new' := by
  simp [insertKeys, foldl_append]

/-- Inserting a key that is listed changes nothing. -/
theorem insertKeys_of_mem {ks : List κ} (hk : k ∈ ks) (n : Nat) :
    insertKeys ks (replicate n k) = ks := by
  induction n with
  | zero => rfl
  | succ n ih => rw [replicate_succ, insertKeys_cons, if_pos hk, ih]

/-- Every key listed stays listed. -/
theorem subset_insertKeys (ks new : List κ) : ks ⊆ insertKeys ks new := by
  induction new generalizing ks with
  | nil => exact fun _ h => h
  | cons k new ih =>
    rw [insertKeys_cons]
    refine fun x hx => ih _ ?_
    split
    · exact hx
    · exact mem_append_left _ hx

/-- Assigning values in turn lists the keys by first insertion. -/
theorem keys_foldl_set (l : List (κ × ν)) (d : Dict κ ν) :
    (l.foldl (fun d e => d.set e.1 e.2) d).keys = insertKeys d.keys (l.map (·.1)) := by
  induction l generalizing d with
  | nil => rfl
  | cons e l ih =>
    rw [foldl_cons, ih, map_cons, insertKeys_cons]
    congr 1
    split
    · rename_i he
      exact keys_set_of_mem he
    · rename_i he
      exact keys_set_of_not_mem he

/-- Assigning values to new keys, distinct among themselves, appends them in turn. -/
theorem entries_foldl_set_of_nodup (l : List (κ × ν)) (d : Dict κ ν)
    (h : (d.keys ++ l.map (·.1)).Nodup) :
    (l.foldl (fun d e => d.set e.1 e.2) d).entries = d.entries ++ l := by
  induction l generalizing d with
  | nil => simp
  | cons e l ih =>
    have he : e.1 ∉ d.keys := fun he =>
      disjoint_of_nodup_append h he (mem_map_of_mem (f := fun x : κ × ν => x.1) mem_cons_self)
    have h' : ((d.set e.1 e.2).keys ++ l.map (·.1)).Nodup := by
      rw [keys_set_of_not_mem he, append_assoc, singleton_append]
      simpa using h
    rw [foldl_cons, ih _ h', entries_set_of_not_mem he, append_assoc, singleton_append]

/-- Assigning values in turn leaves under each key the last value assigned to it. -/
theorem get?_foldl_set (l : List (κ × ν)) (d : Dict κ ν) (k : κ) :
    (l.foldl (fun d e => d.set e.1 e.2) d).get? k =
      ((l.filter (·.1 == k)).getLast?.map (·.2)).or (d.get? k) := by
  induction l generalizing d with
  | nil => rfl
  | cons e l ih =>
    rw [foldl_cons, ih, get?_set, filter_cons]
    by_cases hk : k = e.1
    · -- the assignment is to `k`: a later one to `k` overrides it
      have he : (e.1 == k) = true := beq_iff_eq.2 hk.symm
      rw [if_pos hk, if_pos he, getLast?_cons]
      cases (l.filter (·.1 == k)).getLast? <;> rfl
    · have he : ¬ (e.1 == k) = true := fun he => hk (beq_iff_eq.1 he).symm
      rw [if_neg hk, if_neg he]

@[simp] theorem keys_foldl_modify {α : Type} (l : List α) (key : α → κ) (f : α → ν → ν)
    (d : Dict κ ν) : (l.foldl (fun d x => d.modify (key x) (f x)) d).keys = d.keys := by
  induction l generalizing d with
  | nil => rfl
  | cons x l ih => rw [foldl_cons, ih, keys_modify]

/-- Updating in place in turn updates each key by the updates made to it, in order. -/
theorem get?_foldl_modify {α : Type} (l : List α) (key : α → κ) (f : α → ν → ν)
    (d : Dict κ ν) (k : κ) :
    (l.foldl (fun d x => d.modify (key x) (f x)) d).get? k =
      (d.get? k).map fun v => (l.filter (key · == k)).foldl (fun v x => f x v) v := by
  induction l generalizing d with
  | nil => simp
  | cons x l ih =>
    rw [foldl_cons, ih, get?_modify, filter_cons]
    split
    · rename_i hk
      subst hk
      simp [Option.map_map, Function.comp_def]
    · rename_i hk
      have hne : (key x == k) = false := by simpa using Ne.symm hk
      simp [hne]

/-- Updating in place in turn updates each entry by the updates made to its key, in order. -/
theorem entries_foldl_modify {α : Type} (l : List α) (key : α → κ) (f : α → ν → ν)
    (d : Dict κ ν) : (l.foldl (fun d x => d.modify (key x) (f x)) d).entries =
      d.entries.map fun e => (e.1, (l.filter (key · == e.1)).foldl (fun v x => f x v) e.2) := by
  induction l generalizing d with
  | nil => simp
  | cons x l ih =>
    rw [foldl_cons, ih, entries_modify, map_map]
    refine map_congr_left fun e _ => ?_
    by_cases he : e.1 = key x
    · simp [he]
    · have hb : (key x == e.1) = false := by simpa using Ne.symm he
      simp [he, hb]

/-- Assigning values to one new key in turn appends it once, with the last value. -/
theorem entries_foldl_set_new {c : κ} (hc : c ∉ d.keys) (vs : List ν) :
    ((vs.map (c, ·)).foldl (fun d e => d.set e.1 e.2) d).entries =
      d.entries ++ (vs.getLast?.map (c, ·)).toList := by
  cases hvs : vs.getLast? with
  | none =>
    rw [getLast?_eq_none_iff.1 hvs]
    simp
  | some v =>
    have hne : vs ≠ [] := fun h => by simp [h] at hvs
    refine entries_eq_of_keys ?_ fun e he => ?_
    · -- the key goes last, once
      rw [keys_foldl_set, map_map]
      obtain ⟨n, hn⟩ : ∃ n, vs.length = n + 1 := ⟨vs.length - 1, by
        have := length_pos_iff.2 hne
        omega⟩
      have hrep : vs.map ((·.1) ∘ (c, ·)) = replicate (n + 1) c := by
        rw [← hn]
        exact eq_replicate_iff.2 ⟨length_map _, fun x hx => by
          obtain ⟨_, _, rfl⟩ := mem_map.1 hx
          rfl⟩
      rw [hrep, replicate_succ, insertKeys_cons, if_neg hc,
        insertKeys_of_mem (mem_append_right _ (mem_singleton_self c))]
      simp [keys]
    · rw [get?_foldl_set]
      rcases mem_append.1 he with he | he
      · -- an old entry: its key is not `c`, so nothing was assigned to it
        have hk : e.1 ≠ c := fun h => hc (h ▸ mem_map_of_mem (f := (·.1)) he)
        have hnone : (vs.map (c, ·)).filter (·.1 == e.1) = [] := by
          rw [filter_eq_nil_iff]
          intro x hx
          obtain ⟨_, _, rfl⟩ := mem_map.1 hx
          simpa using Ne.symm hk
        rw [hnone, getLast?_nil, Option.map_none, Option.none_or, get?_eq_some_iff.2 he]
      · simp only [Option.map_some, Option.toList_some, mem_singleton] at he
        subst he
        have hall : (vs.map (c, ·)).filter (·.1 == c) = vs.map (c, ·) :=
          filter_eq_self.2 fun x hx => by
            obtain ⟨_, _, rfl⟩ := mem_map.1 hx
            simp
        rw [hall, getLast?_map, hvs]
        rfl

end OnnxFusion.Dataflow.Dict

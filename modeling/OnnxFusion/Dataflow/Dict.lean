/-!
# Dictionaries that remember insertion order

A `Dict` is a dictionary as a Python program sees one: its entries in the order their keys
were first set, each key once. Setting a key that is present replaces its value in place;
setting a new key puts it last; deleting a key keeps the order of the others. Iterating over
a dictionary (`keys`, `values`) follows its entries.

The distinctness of the keys is part of the type, so every operation proves it keeps it and
no later proof needs to.
-/

set_option autoImplicit false

namespace OnnxFusion.Dataflow

/-- An insertion-ordered dictionary: its entries, no key twice. -/
structure Dict (κ ν : Type) where
  entries : List (κ × ν)
  keys_nodup : (entries.map (·.1)).Nodup

namespace Dict

variable {κ ν : Type}

/-- The empty dictionary. -/
def empty : Dict κ ν := ⟨[], List.nodup_nil⟩

/-- The keys, in insertion order. -/
def keys (d : Dict κ ν) : List κ := d.entries.map (·.1)

/-- The values, in the order of their keys. -/
def values (d : Dict κ ν) : List ν := d.entries.map (·.2)

/-- The number of entries. -/
def size (d : Dict κ ν) : Nat := d.entries.length

/-- Changing the values only keeps the keys. -/
private theorem map_keys_of_fst {f : κ × ν → κ × ν} (hf : ∀ e, (f e).1 = e.1) (l : List (κ × ν)) :
    (l.map f).map (·.1) = l.map (·.1) := by
  rw [List.map_map]
  exact List.map_congr_left fun e _ => hf e

variable [DecidableEq κ]

/-- The value under a key. -/
def get? (d : Dict κ ν) (k : κ) : Option ν := (d.entries.find? (·.1 == k)).map (·.2)

/-- Whether a key is present. -/
def contains (d : Dict κ ν) (k : κ) : Bool := d.keys.contains k

/-- `d[k] = v`: a key that is present keeps its place, a new key goes last. -/
def set (d : Dict κ ν) (k : κ) (v : ν) : Dict κ ν :=
  if h : d.contains k then
    ⟨d.entries.map (fun e => if e.1 == k then (e.1, v) else e), by
      rw [map_keys_of_fst (fun e => by split <;> rfl)]
      exact d.keys_nodup⟩
  else
    ⟨d.entries ++ [(k, v)], by
      rw [List.map_append, List.nodup_append]
      refine ⟨d.keys_nodup, List.nodup_cons.2 ⟨List.not_mem_nil, List.nodup_nil⟩, ?_⟩
      intro a ha b hb hab
      rw [List.map_cons, List.map_nil, List.mem_singleton] at hb
      subst hb hab
      exact h (List.contains_iff_mem.2 ha)⟩

/-- `del d[k]`: the other keys keep their order; a key that is absent changes nothing. -/
def erase (d : Dict κ ν) (k : κ) : Dict κ ν :=
  ⟨d.entries.filter (·.1 != k), d.keys_nodup.sublist (List.filter_sublist.map _)⟩

/-- Updates the value under a key in place; a key that is absent changes nothing. -/
def modify (d : Dict κ ν) (k : κ) (f : ν → ν) : Dict κ ν :=
  ⟨d.entries.map (fun e => if e.1 == k then (e.1, f e.2) else e), by
    rw [map_keys_of_fst (fun e => by split <;> rfl)]
    exact d.keys_nodup⟩

end Dict

end OnnxFusion.Dataflow

import OnnxFusion.Proofs.Order.Stages
/-!
# The sorting network sorts

`Order.networkOrder` loads the keys into registers, sorts each register and merges the
registers pairwise, four by four, and so on. Every one of these steps is a run of layers on
the wires of the registers (`Holds`): the register sort is three merging stages inside the
registers (`holds_sortLanes`), and merging a group of registers is one merging stage of its
wires (`holds_mergeGroup`). So

* the slots are only moved among the wires, and the pads stay past the keys (`Kept`);
* read through any threshold, the stages sort longer and longer blocks
  (`mergeLayers_rising`), until the whole row rises.

`networkOrder_sorted` puts the two together: the positions it returns are those of the
keys, each once, in an order of non-decreasing key. With the short lists it leaves alone and
the long ones it sorts stably, `argsortByNetwork_sorted` says the same of every list of
numeric keys.
-/

set_option autoImplicit false

namespace OnnxFusion.Order

/-! ### Registers and wires -/

/-- What the network keeps of its registers against the slots `W₀` it was loaded with:
`c` registers of eight lanes, the pads in place, and the slots of `W₀` moved among the
wires. -/
structure Kept (c n : Nat) (W₀ : Nat → Slot) (regs : Array Lanes) : Prop where
  shaped : Shaped c regs
  padded : Padded (8 * c) n (wire regs)
  perm : ((List.range (8 * c)).map (wire regs)).Perm ((List.range (8 * c)).map W₀)

/-- A step that holds a run of layers of the registers before it keeps what the network
keeps. -/
theorem Kept.step {c n : Nat} {W₀ : Nat → Slot} {regs regs' : Array Lanes}
    (hk : Kept c n W₀ regs) (hs : Shaped c regs') (Ls : List (Layer (8 * c)))
    (hW : Holds c regs' (Layer.run Ls (wire regs))) : Kept c n W₀ regs' := by
  have hmap : (List.range (8 * c)).map (wire regs') =
      (List.range (8 * c)).map (Layer.run Ls (wire regs)) :=
    List.map_congr_left fun w hw => hW w (List.mem_range.1 hw)
  constructor
  · exact hs
  · have hp := Layer.run_padded Ls hk.padded
    exact ⟨fun w hw => by rw [hW w hw]; exact hp.1 w hw,
      fun w hnw hw => by rw [hW w hw]; exact hp.2 w hnw hw⟩
  · rw [hmap]
    exact (Layer.run_perm Ls _).trans hk.perm

/-! ### Loading -/

/-- The slot loaded into wire `j`: key `j` with its position, or the pad past the keys. -/
def loadSlot (keys : List Float) (j : Nat) : Slot :=
  if j < keys.length then (keys.getD j 0, j) else padSlot

/-- The `c` registers the keys are loaded into. -/
def loaded (keys : List Float) (c : Nat) : Array Lanes :=
  ((List.range c).map fun r => ((List.range 8).map fun l => loadSlot keys (8 * r + l)).toArray).toArray

theorem holds_loaded (keys : List Float) (c : Nat) : Holds c (loaded keys c) (loadSlot keys) := by
  intro w hw
  have hl : w % 8 < 8 := Nat.mod_lt w (by decide)
  simp only [wire, loaded, Array.getD_eq_getD_getElem?, List.getElem?_toArray, List.getElem?_map,
    List.getElem?_range (show w / 8 < c by omega), List.getElem?_range hl, Option.map_some,
    Option.getD_some]
  rw [Nat.div_add_mod]

theorem shaped_loaded (keys : List Float) (c : Nat) : Shaped c (loaded keys c) := by
  refine ⟨by simp [loaded], fun r hr => ?_⟩
  simp [loaded, Array.getD_eq_getD_getElem?, List.getElem?_range hr]

/-- With numeric keys, the loaded wires hold numeric keys and the pads past them. -/
theorem loadSlot_padded {keys : List Float} (hk : ∀ x ∈ keys, x.isNaN = false) (N : Nat) :
    Padded N keys.length (loadSlot keys) := by
  refine ⟨fun w _ => ?_, fun w hnw _ => ?_⟩
  · unfold loadSlot
    split_ifs with h
    · rw [List.getD_eq_getElem _ _ h]
      exact hk _ (List.getElem_mem h)
    · rfl
  · simp [loadSlot, Nat.not_lt.2 hnw]

theorem kept_loaded {keys : List Float} (hk : ∀ x ∈ keys, x.isNaN = false) (c : Nat) :
    Kept c keys.length (loadSlot keys) (loaded keys c) := by
  have hW := holds_loaded keys c
  have hP := loadSlot_padded hk (8 * c)
  refine ⟨shaped_loaded keys c, ⟨fun w hw => by rw [hW w hw]; exact hP.1 w hw,
    fun w hnw hw => by rw [hW w hw]; exact hP.2 w hnw hw⟩, ?_⟩
  rw [List.map_congr_left fun w hw => hW w (List.mem_range.1 hw)]

/-! ### Sorting the registers -/

section Steps

variable {c n : Nat} {W₀ : Nat → Slot} {regs : Array Lanes}

theorem shaped_map_sortLanes (hs : Shaped c regs) : Shaped c (regs.map sortLanes) :=
  ⟨by rw [Array.size_map, hs.1], fun r hr => by
    rw [Array.getD_eq_getD_getElem?, Array.getElem?_map,
      Array.getElem?_eq_getElem (by rw [hs.1]; exact hr), Option.map_some, Option.getD_some]
    exact size_exchange _ _ _⟩

theorem kept_sortLanes (hk : Kept c n W₀ regs) : Kept c n W₀ (regs.map sortLanes) :=
  hk.step (shaped_map_sortLanes hk.shaped) _
    (holds_sortLanes hk.shaped.1 (holds_wire c regs) hk.padded)

/-- After the register sort, read through any threshold, every register rises. -/
theorem sortLanes_rising (hk : Kept c n W₀ regs) (θ : Lex (Int × Lex (Int × Int))) :
    ∀ b < c, Rising (bits θ (wire (regs.map sortLanes))) (b * 8) 8 := by
  have hP := hk.padded
  -- single wires into pairs, pairs into fours, fours into registers
  have h1 := mergeLayers_rising θ hP (S := 0) (m := 4 * c) (e := 0) (h := by omega)
    fun _ _ => rising_one
  have h2 := mergeLayers_rising θ (Layer.run_padded _ hP) (S := 0) (m := 2 * c) (e := 1)
    (h := by omega) fun b hb => h1 b (by omega)
  have h3 := mergeLayers_rising θ (Layer.run_padded _ (Layer.run_padded _ hP)) (S := 0) (m := c)
    (e := 2) (h := by omega) fun b hb => h2 b (by omega)
  have hW := holds_sortLanes hk.shaped.1 (holds_wire c regs) hP
  intro b hb
  have hr := h3 b hb
  rw [show 0 + b * 2 ^ (2 + 1) = b * 8 by ring] at hr
  refine Rising.congr (fun i hi => ?_) hr
  have hbi : b * 8 + i < 8 * c := by omega
  simp only [bits]
  rw [hW _ hbi, sortLayers, Layer.run_append, Layer.run_append]

/-! ### Merging a group -/

theorem eight_mul_le {s j : Nat} (hz : s + 2 ^ j ≤ c) : 8 * s + 1 * 2 ^ (j + 2 + 1) ≤ 8 * c := by
  rw [show 2 ^ (j + 2 + 1) = 8 * 2 ^ j by ring]
  omega

theorem kept_mergeGroup (hk : Kept c n W₀ regs) {s j : Nat} (hj : 1 ≤ j) (hj6 : j < 6)
    (hz : s + 2 ^ j ≤ c) : Kept c n W₀ (mergeGroup regs s (2 ^ j)) :=
  hk.step (shaped_mergeGroup hk.shaped hz) _
    (holds_mergeGroup hk.shaped.1 (holds_wire c regs) hk.padded hj hj6 hz (h := eight_mul_le hz))

/-- Merging a group of registers whose halves rise makes it rise. -/
theorem mergeGroup_rising (hk : Kept c n W₀ regs) {s j : Nat} (hj : 1 ≤ j) (hj6 : j < 6)
    (hz : s + 2 ^ j ≤ c) (θ : Lex (Int × Lex (Int × Int)))
    (hlo : Rising (bits θ (wire regs)) (8 * s) (2 ^ (j + 2)))
    (hhi : Rising (bits θ (wire regs)) (8 * s + 2 ^ (j + 2)) (2 ^ (j + 2))) :
    Rising (bits θ (wire (mergeGroup regs s (2 ^ j)))) (8 * s) (2 ^ (j + 3)) := by
  have hW := holds_mergeGroup hk.shaped.1 (holds_wire c regs) hk.padded hj hj6 hz
    (h := eight_mul_le hz)
  have hr := mergeLayers_rising θ hk.padded (h := eight_mul_le hz) (fun b hb => by
    rcases (show b = 0 ∨ b = 1 by omega) with rfl | rfl
    · simpa using hlo
    · simpa using hhi) 0 (by decide)
  rw [show 8 * s + 0 * 2 ^ (j + 2 + 1) = 8 * s by ring] at hr
  refine Rising.congr (fun i hi => ?_) hr
  have h8 : 2 ^ (j + 3) = 8 * 2 ^ j := by ring
  simp only [bits]
  rw [hW _ (by omega)]

/-- Merging a group of registers leaves the wires outside it as they were. -/
theorem wire_mergeGroup_out (hk : Kept c n W₀ regs) {s j : Nat} (hj : 1 ≤ j) (hj6 : j < 6)
    (hz : s + 2 ^ j ≤ c) {w : Nat} (hw : w < 8 * c) (hout : w < 8 * s ∨ 8 * s + 2 ^ (j + 3) ≤ w) :
    wire (mergeGroup regs s (2 ^ j)) w = wire regs w := by
  rw [holds_mergeGroup hk.shaped.1 (holds_wire c regs) hk.padded hj hj6 hz (h := eight_mul_le hz)
    w hw]
  exact mergeLayers_out (by rw [Nat.one_mul]; exact hout)

end Steps

/-! ### Rounds of merges -/

/-- Read through every threshold, the `k` blocks of `B` wires from the first rise. -/
def RisingBlocks (regs : Array Lanes) (B k : Nat) : Prop :=
  ∀ θ, ∀ b < k, Rising (bits θ (wire regs)) (b * B) B

theorem block_lt {b k B i : Nat} (hb : b < k) (hi : i < B) : b * B + i < k * B := by
  have := Nat.mul_le_mul_right B (Nat.succ_le_of_lt hb)
  rw [Nat.succ_mul] at this
  omega

section Rounds

variable {c n : Nat} {W₀ : Nat → Slot}

/-- Merging the groups of `2 ^ j` registers one after the other, halves that rose rise as
whole groups: after `G` groups, the merged ones rise and the halves of the others still do. -/
theorem mergeGroups_rising {j M : Nat} (hj : 1 ≤ j) (hj6 : j < 6) (hM : M * 2 ^ j ≤ c)
    {regs : Array Lanes} (hk : Kept c n W₀ regs) (hr : RisingBlocks regs (2 ^ (j + 2)) (2 * M)) :
    ∀ G ≤ M, Kept c n W₀ ((List.range G).foldl (fun rs g => mergeGroup rs (g * 2 ^ j) (2 ^ j)) regs) ∧
      ∀ θ, (∀ b < G, Rising (bits θ (wire ((List.range G).foldl
          (fun rs g => mergeGroup rs (g * 2 ^ j) (2 ^ j)) regs))) (b * 2 ^ (j + 3)) (2 ^ (j + 3))) ∧
        ∀ b, 2 * G ≤ b → b < 2 * M → Rising (bits θ (wire ((List.range G).foldl
          (fun rs g => mergeGroup rs (g * 2 ^ j) (2 ^ j)) regs))) (b * 2 ^ (j + 2)) (2 ^ (j + 2)) := by
  intro G
  induction G with
  | zero => exact fun _ => ⟨hk, fun θ => ⟨fun b hb => absurd hb (Nat.not_lt_zero b),
      fun b _ hb => hr θ b hb⟩⟩
  | succ G ih =>
    intro hG
    obtain ⟨hkG, hrG⟩ := ih (by omega)
    rw [List.range_succ, List.foldl_append, List.foldl_cons, List.foldl_nil]
    generalize (List.range G).foldl (fun rs g => mergeGroup rs (g * 2 ^ j) (2 ^ j)) regs = rs
      at hkG hrG
    -- group `G` is the registers from `G 2 ^ j`, the wires from `8 G 2 ^ j`
    have hz : G * 2 ^ j + 2 ^ j ≤ c := by
      have := Nat.mul_le_mul_right (2 ^ j) hG
      rw [Nat.succ_mul] at this
      omega
    have hS : 8 * (G * 2 ^ j) = G * 2 ^ (j + 3) := by ring
    have hP : 0 < 2 ^ j := Nat.two_pow_pos j
    have hS' : 8 * (M * 2 ^ j) = 2 * M * 2 ^ (j + 2) := by ring
    refine ⟨kept_mergeGroup hkG hj hj6 hz, fun θ => ⟨fun b hb => ?_, fun b hb hbM => ?_⟩⟩
    · rcases Nat.lt_succ_iff_lt_or_eq.1 hb with hb | rfl
      · -- a group merged before lies below this one
        refine Rising.congr (fun i hi => ?_) ((hrG θ).1 b hb)
        have := block_lt hb hi
        simp only [bits]
        rw [wire_mergeGroup_out hkG hj hj6 hz (by omega) (.inl (by omega))]
      · have hlo := (hrG θ).2 (2 * b) le_rfl (by omega)
        have hhi := (hrG θ).2 (2 * b + 1) (by omega) (by omega)
        rw [show 2 * b * 2 ^ (j + 2) = 8 * (b * 2 ^ j) by ring] at hlo
        rw [show (2 * b + 1) * 2 ^ (j + 2) = 8 * (b * 2 ^ j) + 2 ^ (j + 2) by ring] at hhi
        rw [← hS]
        exact mergeGroup_rising hkG hj hj6 hz θ hlo hhi
    · -- a half not yet merged lies above this group
      refine Rising.congr (fun i hi => ?_) ((hrG θ).2 b (by omega) hbM)
      have habove := Nat.mul_le_mul_right (2 ^ (j + 2)) hb
      rw [show 2 * (G + 1) * 2 ^ (j + 2) = 8 * (G * 2 ^ j) + 2 ^ (j + 3) by ring] at habove
      have := block_lt hbM hi
      simp only [bits]
      rw [wire_mergeGroup_out hkG hj hj6 hz (by omega) (.inr (by omega))]

/-- The merging rounds of group sizes `2, 4, …, 2 ^ r` over `2 ^ q` sorted registers leave
blocks of `2 ^ r` registers that rise. -/
theorem rounds_rising {q : Nat} (hq : q < 6) {regs : Array Lanes} (hk : Kept (2 ^ q) n W₀ regs)
    (hr : RisingBlocks regs 8 (2 ^ q)) :
    ∀ r ≤ q, Kept (2 ^ q) n W₀ (((List.range r).map fun e => 2 ^ (e + 1)).foldl (fun rs size =>
        (List.range (2 ^ q / size)).foldl (fun rs g => mergeGroup rs (g * size) size) rs) regs) ∧
      RisingBlocks (((List.range r).map fun e => 2 ^ (e + 1)).foldl (fun rs size =>
        (List.range (2 ^ q / size)).foldl (fun rs g => mergeGroup rs (g * size) size) rs) regs)
        (2 ^ (r + 3)) (2 ^ (q - r)) := by
  intro r
  induction r with
  | zero => exact fun _ => ⟨hk, hr⟩
  | succ r ih =>
    intro hrq
    obtain ⟨hkr, hrr⟩ := ih (by omega)
    rw [List.range_succ, List.map_append, List.foldl_append, List.map_cons, List.map_nil,
      List.foldl_cons, List.foldl_nil]
    generalize ((List.range r).map fun e => 2 ^ (e + 1)).foldl (fun rs size =>
        (List.range (2 ^ q / size)).foldl (fun rs g => mergeGroup rs (g * size) size) rs) regs = rs
      at hkr hrr
    -- round `r + 1` merges the `2 ^ (q - r - 1)` groups of `2 ^ (r + 1)` registers
    have hcount : 2 ^ q / 2 ^ (r + 1) = 2 ^ (q - (r + 1)) := Nat.pow_div hrq (by decide)
    have hM : 2 ^ (q - (r + 1)) * 2 ^ (r + 1) ≤ 2 ^ q := by
      rw [← Nat.pow_add, Nat.sub_add_cancel hrq]
    have hhalves : 2 * 2 ^ (q - (r + 1)) = 2 ^ (q - r) := by
      rw [← Nat.pow_succ']
      congr 1
      omega
    rw [hcount]
    obtain ⟨hk', hr'⟩ := mergeGroups_rising (by omega) (by omega) hM hkr (by rwa [hhalves])
      _ le_rfl
    exact ⟨hk', fun θ b hb => (hr' θ).1 b hb⟩

end Rounds

/-! ### The order read off the wires -/

/-- The merging rounds of the network over `count` registers. -/
def mergeRounds (count : Nat) (regs : Array Lanes) : Array Lanes :=
  (groupSizes count).foldl (fun rs size =>
    (List.range (count / size)).foldl (fun rs g => mergeGroup rs (g * size) size) rs) regs

/-- The positions of the lanes on the first `n` wires. -/
def positions (regs : Array Lanes) (n : Nat) : List Nat :=
  ((regs.toList.flatMap fun v : Lanes => v.toList).take n).map (·.2)

/-- The network loads the keys, sorts each register, runs the merging rounds and reads the
positions of the first wires. -/
theorem networkOrder_eq (keys : List Float) :
    networkOrder keys = positions (mergeRounds (registerCount keys.length)
      ((loaded keys (registerCount keys.length)).map sortLanes)) keys.length := by
  simp only [networkOrder, loaded, List.map_toArray, List.map_map, positions, mergeRounds, loadSlot,
    padSlot, Function.comp_def]

/-- Up to 256 keys take a power of two of registers, at most 32. -/
theorem registerCount_spec {n : Nat} (hn : n ≤ 256) :
    ∃ q < 6, registerCount n = 2 ^ q ∧ n ≤ 8 * 2 ^ q := by
  by_cases h1 : n ≤ 8
  · exact ⟨0, by decide, by simp [registerCount, List.range_succ, h1], by omega⟩
  by_cases h2 : n ≤ 16
  · exact ⟨1, by decide, by simp [registerCount, List.range_succ, h1, h2], by omega⟩
  by_cases h3 : n ≤ 32
  · exact ⟨2, by decide, by simp [registerCount, List.range_succ, h1, h2, h3], by omega⟩
  by_cases h4 : n ≤ 64
  · exact ⟨3, by decide, by simp [registerCount, List.range_succ, h1, h2, h3, h4], by omega⟩
  by_cases h5 : n ≤ 128
  · exact ⟨4, by decide, by simp [registerCount, List.range_succ, h1, h2, h3, h4, h5], by omega⟩
  · exact ⟨5, by decide, by simp [registerCount, List.range_succ, h1, h2, h3, h4, h5, hn], by omega⟩

theorem groupSizes_pow {q : Nat} (hq : q < 6) :
    groupSizes (2 ^ q) = (List.range q).map fun e => 2 ^ (e + 1) := by
  have key : ∀ q < 6, groupSizes (2 ^ q) = (List.range q).map fun e => 2 ^ (e + 1) := by decide
  exact key q hq

theorem flatMap_range_eight {α : Type} (f : Nat → α) (c : Nat) :
    (List.range c).flatMap (fun r => (List.range 8).map fun l => f (8 * r + l)) =
      (List.range (8 * c)).map f := by
  induction c with
  | zero => rfl
  | succ c ih =>
    rw [List.range_succ (n := c), List.flatMap_append, ih, show 8 * (c + 1) = 8 * c + 8 by ring,
      List.range_add, List.map_append, List.map_map]
    simp

theorem toList_eq_map_getD {α : Type} (v : Array α) (d : α) :
    v.toList = (List.range v.size).map fun i => v.getD i d := by
  apply List.ext_getElem (by simp)
  intro i h _
  rw [List.getElem_map, List.getElem_range, Array.getD_eq_getD_getElem?,
    Array.getElem?_eq_getElem (by simpa using h)]
  rfl

section Reading

variable {c n : Nat} {keys : List Float} {rs : Array Lanes}

/-- The lanes of `c` registers, one after the other, are the wires. -/
theorem flatMap_toList (hs : Shaped c rs) :
    (rs.toList.flatMap fun v : Lanes => v.toList) = (List.range (8 * c)).map (wire rs) := by
  rw [toList_eq_map_getD rs #[], hs.1, List.flatMap_map, ← flatMap_range_eight]
  refine List.flatMap_congr fun r hr => ?_
  rw [toList_eq_map_getD _ default, hs.2 r (List.mem_range.1 hr)]
  exact List.map_congr_left fun l hl => (wire_eight rs r (List.mem_range.1 hl)).symm

theorem positions_eq (hs : Shaped c rs) (hn : n ≤ 8 * c) :
    positions rs n = (List.range n).map fun w => (wire rs w).2 := by
  rw [positions, flatMap_toList hs, ← List.map_take, List.take_range, Nat.min_eq_left hn,
    List.map_map]
  rfl

/-- The wires below the number of keys hold the keys with their positions, in some order. -/
theorem wires_perm (hk : Kept c keys.length (loadSlot keys) rs) (hn : keys.length ≤ 8 * c) :
    ((List.range keys.length).map (wire rs)).Perm ((List.range keys.length).map (loadSlot keys)) := by
  have hp := hk.perm
  rw [show 8 * c = keys.length + (8 * c - keys.length) by omega, List.range_add, List.map_append,
    List.map_append] at hp
  -- past the keys, both hold the pad
  have hpads : ((List.range (8 * c - keys.length)).map (keys.length + ·)).map (wire rs) =
      ((List.range (8 * c - keys.length)).map (keys.length + ·)).map (loadSlot keys) := by
    refine List.map_congr_left fun w hw => ?_
    obtain ⟨i, hi, rfl⟩ := List.mem_map.1 hw
    rw [hk.padded.2 _ (by omega) (by have := List.mem_range.1 hi; omega), loadSlot, if_neg (by omega)]
  rw [hpads] at hp
  exact (List.perm_append_right_iff _).1 hp

theorem wire_key (hperm : ((List.range keys.length).map (wire rs)).Perm
      ((List.range keys.length).map (loadSlot keys))) {w : Nat} (hw : w < keys.length) :
    (wire rs w).1 = keys.getD (wire rs w).2 0 := by
  obtain ⟨j, hj, e⟩ := List.mem_map.1
    (hperm.subset (List.mem_map.2 ⟨w, List.mem_range.2 hw, rfl⟩))
  rw [← e, loadSlot, if_pos (List.mem_range.1 hj)]

/-- Rising at every threshold, the wires hold keys of non-decreasing rank. -/
theorem floatRank_le_of_rising {W : Nat → Slot} {N : Nat}
    (h : ∀ θ, Rising (bits θ W) 0 N) {a b : Nat} (hab : a ≤ b) (hb : b < N) :
    floatRank (W a).1 ≤ floatRank (W b).1 := by
  have := h (floatRank (W a).1) a b hab hb (by simp [bits, bit])
  simpa [bits, bit] using this

end Reading

/-- The network puts the positions of numeric keys in an order of non-decreasing key. -/
theorem networkOrder_sorted {keys : List Float} (hk : ∀ x ∈ keys, x.isNaN = false)
    (hn : keys.length ≤ 256) :
    (networkOrder keys).Perm (List.range keys.length) ∧
      (networkOrder keys).Pairwise fun a b => floatRank (keys.getD a 0) ≤ floatRank (keys.getD b 0) := by
  obtain ⟨q, hq, hcount, hfit⟩ := registerCount_spec hn
  have hk₀ := kept_loaded hk (2 ^ q)
  obtain ⟨hkf, hrf⟩ := rounds_rising hq (kept_sortLanes hk₀) (fun θ => sortLanes_rising hk₀ θ) q
    le_rfl
  rw [networkOrder_eq, hcount, mergeRounds, groupSizes_pow hq]
  generalize ((List.range q).map fun e => 2 ^ (e + 1)).foldl (fun rs size =>
    (List.range (2 ^ q / size)).foldl (fun rs g => mergeGroup rs (g * size) size) rs)
      ((loaded keys (2 ^ q)).map sortLanes) = rs at hkf hrf
  have hperm := wires_perm hkf hfit
  rw [positions_eq hkf.shaped hfit]
  constructor
  · -- the positions held are those of the keys
    have hsnd := hperm.map Prod.snd
    rw [List.map_map, List.map_map] at hsnd
    refine hsnd.trans (List.Perm.of_eq ?_)
    refine (List.map_congr_left fun j hj => ?_).trans (List.map_id _)
    simp [loadSlot, List.mem_range.1 hj]
  · -- the whole row rises at every threshold
    have hrise : ∀ θ, Rising (bits θ (wire rs)) 0 (2 ^ (q + 3)) := fun θ => by
      simpa using hrf θ 0 (by simp)
    rw [List.pairwise_map]
    refine List.pairwise_lt_range.imp_of_mem fun {a b} ha hb hab => ?_
    have hb' := List.mem_range.1 hb
    rw [← wire_key hperm (List.mem_range.1 ha), ← wire_key hperm hb']
    exact floatRank_le_of_rising hrise hab.le (by rw [show 2 ^ (q + 3) = 8 * 2 ^ q by ring]; omega)

/-! ### Every length -/

/-- A key read at any position, in the list or past it, is a number when the keys are. -/
theorem getD_isNaN {keys : List Float} (hk : ∀ x ∈ keys, x.isNaN = false) (a : Nat) :
    (keys.getD a 0).isNaN = false := by
  rw [List.getD_eq_getElem?_getD]
  cases h : keys[a]? with
  | none => decide
  | some x => exact hk x (List.mem_of_getElem? h)

/-- `argsortByNetwork` lists the positions of numeric keys, each once, in an order of
non-decreasing key, whatever their number. -/
theorem argsortByNetwork_sorted {keys : List Float} (hk : ∀ x ∈ keys, x.isNaN = false) :
    (argsortByNetwork keys).Perm (List.range keys.length) ∧
      (argsortByNetwork keys).Pairwise fun a b => keys.getD a 0 ≤ keys.getD b 0 := by
  have hle : ∀ a b, keys.getD a 0 ≤ keys.getD b 0 ↔
      floatRank (keys.getD a 0) ≤ floatRank (keys.getD b 0) := fun a b =>
    le_iff_floatRank (getD_isNaN hk a) (getD_isNaN hk b)
  unfold argsortByNetwork
  split_ifs with h₁ h₂
  · -- at most one position
    refine ⟨List.Perm.refl _, ?_⟩
    rcases (show keys.length = 0 ∨ keys.length = 1 by omega) with h | h <;> simp [h]
  · obtain ⟨hp, hs⟩ := networkOrder_sorted hk h₂
    exact ⟨hp, hs.imp fun h => (hle _ _).2 h⟩
  · -- the stable sort, by a total order on the positions' keys
    refine ⟨List.mergeSort_perm _ _, ?_⟩
    have hs : ((List.range keys.length).mergeSort fun a b => decide (keys.getD a 0 ≤ keys.getD b 0)).Pairwise
        fun a b => decide (keys.getD a 0 ≤ keys.getD b 0) = true :=
      List.pairwise_mergeSort
        (fun a b c hab hbc => by
          simp only [decide_eq_true_eq, hle] at hab hbc ⊢
          exact le_trans hab hbc)
        (fun a b => by
          simp only [Bool.or_eq_true, decide_eq_true_eq, hle]
          exact le_total _ _)
        (List.range keys.length)
    exact hs.imp fun h => of_decide_eq_true h

end OnnxFusion.Order

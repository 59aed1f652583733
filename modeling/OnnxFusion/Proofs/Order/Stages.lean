import OnnxFusion.Proofs.Order.Merge
import OnnxFusion.Proofs.Order.Registers
/-!
# The steps of the sorting network as merging stages

Each step of `Order.networkOrder` on its registers holds a run of layers of the wires
(`Holds`), and the runs are merging stages (`mergeLayers`):

* sorting every register (`sortLanes`) is three merging stages inside the registers, of
  single wires into pairs, pairs into fours and fours into registers (`holds_sortLanes`);
* merging a group of `2 ^ j` registers (`mergeGroup`) is one merging stage of the group's
  wires: the flip of the group is a fold of register exchanges, and so is each of its
  half-cleaners down to half a register, the last three being inside the registers
  (`holds_mergeGroup`).

The exchanges inside a register decide which position a lane keeps by comparing keys, so
these steps are read on wires whose keys are numbers.
-/

set_option autoImplicit false

namespace OnnxFusion.Order

/-! ### Sorting each register -/

section Lanes

variable {c n : Nat} {regs : Array Lanes} {W : Nat → Slot}

/-- Registers that each went through `exchange p m` hold a layer that pairs lane `l` of
every register with lane `p l`. -/
theorem holds_map_exchange (hsize : regs.size = c) (hW : Holds c regs W)
    (hnan : ∀ w < 8 * c, (W w).1.isNaN = false) {p : List Nat} {m : Nat} (G : Layer (8 * c))
    (hp : ∀ l < 8, p.getD l 0 < 8) (hm : ∀ l < 8, m.testBit l = decide (p.getD l 0 < l))
    (hG : ∀ r < c, ∀ l < 8, G.partner (8 * r + l) = 8 * r + p.getD l 0) :
    Holds c (regs.map (exchange p m)) (G.apply W) := by
  intro w hw
  rw [wire_exchange (fun _ => True) G (fun w hw => by rw [hW w hw]; exact hnan w hw)
    (fun r hr => by simp [Array.getD_eq_getD_getElem?, hsize, hr]) hp hm
    (fun r hr l hl => by rw [hG r hr l hl, if_pos trivial]) hw]
  exact Layer.apply_congr hW hw

/-- The layers of `sortLanes`, in every one of `c` registers: merges of single wires into
pairs, of pairs into fours, of fours into registers. -/
def sortLayers (c : Nat) : List (Layer (8 * c)) :=
  mergeLayers 0 (4 * c) 0 (by omega) ++ mergeLayers 0 (2 * c) 1 (by omega) ++
    mergeLayers 0 c 2 (by omega)

/-- Registers that each went through `exchange p m` hold a layer of blocks inside the
registers, given by its partners on one register. -/
theorem holds_map_lanes (hsize : regs.size = c) (hW : Holds c regs W)
    (hnan : ∀ w < 8 * c, (W w).1.isNaN = false) (G : Layer (8 * c)) {p : List Nat}
    {m B q K : Nat} {f : Nat → Nat} (hGp : G.partner = blockPartner 0 B K f) (hB : q * B = 8)
    (hK : K = c * q) (hlanes : ∀ l < 8, blockPartner 0 B q f l = p.getD l 0)
    (hp : ∀ l < 8, p.getD l 0 < 8) (hm : ∀ l < 8, m.testBit l = decide (p.getD l 0 < l)) :
    Holds c (regs.map (exchange p m)) (G.apply W) :=
  holds_map_exchange hsize hW hnan G hp hm fun r hr l hl => by
    rw [hGp, blockPartner_register f (s := 0) (z := c) rfl hK hB (by omega) hl, hlanes l hl]

theorem holds_sortLanes (hsize : regs.size = c) (hW : Holds c regs W) (hP : Padded (8 * c) n W) :
    Holds c (regs.map sortLanes) (Layer.run (sortLayers c) W) := by
  have hmap : regs.map sortLanes = ((((((regs.map (exchange swapPairs 0xAA)).map
      (exchange reverseHalves 0xCC)).map (exchange swapPairs 0xAA)).map
      (exchange reverseAll 0xF0)).map (exchange swapByTwo 0xCC)).map (exchange swapPairs 0xAA)) := by
    simp only [Array.map_map]
    rfl
  have hs : ∀ (f : Lanes → Lanes) (a : Array Lanes), a.size = c → (a.map f).size = c :=
    fun f a ha => by rw [Array.size_map, ha]
  rw [hmap]
  simp only [sortLayers, mergeLayers, cleanLayers, powsBelow, List.map_cons, List.map_nil,
    List.cons_append, List.nil_append, Layer.run_cons, Layer.run_nil]
  -- the six layers one after the other, the keys staying numbers
  have h1 := holds_map_lanes hsize hW hP.1 (Layer.flip 0 (2 ^ 0) (4 * c) (by omega))
    (p := swapPairs) (m := 0xAA) (q := 4) rfl (by decide) (by ring) (by decide) (by decide)
    (by decide)
  have hP1 := Layer.apply_padded (L := Layer.flip 0 (2 ^ 0) (4 * c) (by omega)) hP
  have h2 := holds_map_lanes (hs _ _ hsize) h1 hP1.1 (Layer.flip 0 (2 ^ 1) (2 * c) (by omega))
    (p := reverseHalves) (m := 0xCC) (q := 2) rfl (by decide) (by ring) (by decide) (by decide)
    (by decide)
  have hP2 := Layer.apply_padded (L := Layer.flip 0 (2 ^ 1) (2 * c) (by omega)) hP1
  have h3 := holds_map_lanes (hs _ _ (hs _ _ hsize)) h2 hP2.1
    (Layer.clean 0 (2 ^ 0) (2 * c * 2 ^ (1 + 1) / (2 * 2 ^ 0)) (by omega))
    (p := swapPairs) (m := 0xAA) (q := 4) rfl (by decide) (by omega) (by decide) (by decide)
    (by decide)
  have hP3 := Layer.apply_padded
    (L := Layer.clean 0 (2 ^ 0) (2 * c * 2 ^ (1 + 1) / (2 * 2 ^ 0)) (by omega)) hP2
  have h4 := holds_map_lanes (hs _ _ (hs _ _ (hs _ _ hsize))) h3 hP3.1
    (Layer.flip 0 (2 ^ 2) c (by omega))
    (p := reverseAll) (m := 0xF0) (q := 1) rfl (by decide) (by ring) (by decide) (by decide)
    (by decide)
  have hP4 := Layer.apply_padded (L := Layer.flip 0 (2 ^ 2) c (by omega)) hP3
  have h5 := holds_map_lanes (hs _ _ (hs _ _ (hs _ _ (hs _ _ hsize)))) h4 hP4.1
    (Layer.clean 0 (2 ^ 1) (c * 2 ^ (2 + 1) / (2 * 2 ^ 1)) (by omega))
    (p := swapByTwo) (m := 0xCC) (q := 2) rfl (by decide) (by omega) (by decide) (by decide)
    (by decide)
  have hP5 := Layer.apply_padded
    (L := Layer.clean 0 (2 ^ 1) (c * 2 ^ (2 + 1) / (2 * 2 ^ 1)) (by omega)) hP4
  exact holds_map_lanes (hs _ _ (hs _ _ (hs _ _ (hs _ _ (hs _ _ hsize))))) h5 hP5.1
    (Layer.clean 0 (2 ^ 0) (c * 2 ^ (2 + 1) / (2 * 2 ^ 0)) (by omega))
    (p := swapPairs) (m := 0xAA) (q := 4) rfl (by decide) (by omega) (by decide) (by decide)
    (by decide)

end Lanes

/-! ### Merging a group of registers -/

section Group

variable {c n : Nat} {regs : Array Lanes} {W : Nat → Slot}

theorem size_turned (flip : Bool) {v : Lanes} (hv : v.size = 8) : (turned flip v).size = 8 := by
  cases flip
  · exact hv
  · simp [turned, permute, reverseAll]

theorem shaped_exchangeAt (flip : Bool) (hs : Shaped c regs) {x y : Nat} (hx : x < c)
    (hy : y < c) : Shaped c (exchangeAt regs x y flip) := by
  refine ⟨by rw [size_exchangeAt, hs.1], fun r hr => ?_⟩
  rw [getD_exchangeAt flip regs (by rw [hs.1]; exact hx) (by rw [hs.1]; exact hy)]
  split_ifs
  · exact size_turned flip (by simp [exchangeRegisters])
  · simp [exchangeRegisters]
  · exact hs.2 r hr

theorem shaped_foldl_exchangeAt (lo hi : Nat → Nat) (flip : Bool) (xs : List Nat)
    (hxs : ∀ i ∈ xs, lo i < c ∧ hi i < c) (hs : Shaped c regs) :
    Shaped c (xs.foldl (fun r i => exchangeAt r (lo i) (hi i) flip) regs) := by
  induction xs generalizing regs with
  | nil => exact hs
  | cons i xs ih =>
    rw [List.foldl_cons]
    exact ih (fun j hj => hxs j (List.mem_cons_of_mem i hj))
      (shaped_exchangeAt flip hs (hxs i List.mem_cons_self).1 (hxs i List.mem_cons_self).2)

theorem getD_modify (f : Lanes → Lanes) (regs : Array Lanes) {x : Nat} (hx : x < regs.size)
    (r : Nat) :
    (regs.modify x f).getD r #[] = if x = r then f (regs.getD r #[]) else regs.getD r #[] := by
  simp only [Array.getD_eq_getD_getElem?, Array.getElem?_modify]
  split_ifs with h
  · subst h
    rw [Array.getElem?_eq_getElem hx]
    rfl
  · rfl

theorem size_foldl_modify (f : Lanes → Lanes) (s : Nat) (regs : Array Lanes) (z : Nat) :
    ((List.range z).foldl (fun a q => a.modify (s + q) f) regs).size = regs.size := by
  induction z with
  | zero => rfl
  | succ z ih =>
    rw [List.range_succ, List.foldl_append, List.foldl_cons, List.foldl_nil, Array.size_modify, ih]

/-- Changing the registers from `s` to `s + z` one after the other changes each of them once. -/
theorem getD_foldl_modify (f : Lanes → Lanes) (s : Nat) (regs : Array Lanes) {z : Nat}
    (hz : s + z ≤ regs.size) (r : Nat) :
    ((List.range z).foldl (fun a q => a.modify (s + q) f) regs).getD r #[] =
      if s ≤ r ∧ r < s + z then f (regs.getD r #[]) else regs.getD r #[] := by
  induction z with
  | zero => simp
  | succ z ih =>
    rw [List.range_succ, List.foldl_append, List.foldl_cons, List.foldl_nil,
      getD_modify f _ (by rw [size_foldl_modify]; omega), ih (by omega)]
    by_cases hr : s + z = r
    · rw [if_pos hr, if_neg (by omega), if_pos (by omega)]
    · rw [if_neg hr]
      exact if_congr (by omega) rfl rfl

/-- The registers from `s` to `s + z` that each went through `exchange p m` hold a layer of
blocks inside them, given by its partners on one register. -/
theorem holds_modify_lanes (hsize : regs.size = c) (hW : Holds c regs W)
    (hnan : ∀ w < 8 * c, (W w).1.isNaN = false) {s z : Nat} (hz : s + z ≤ c) (G : Layer (8 * c))
    {p : List Nat} {m B q K : Nat} {f : Nat → Nat} (hGp : G.partner = blockPartner (8 * s) B K f)
    (hB : q * B = 8) (hK : K = z * q) (hlanes : ∀ l < 8, blockPartner 0 B q f l = p.getD l 0)
    (hp : ∀ l < 8, p.getD l 0 < 8) (hm : ∀ l < 8, m.testBit l = decide (p.getD l 0 < l)) :
    Holds c ((List.range z).foldl (fun a i => a.modify (s + i) (exchange p m)) regs) (G.apply W) := by
  intro w hw
  rw [wire_exchange (fun r => s ≤ r ∧ r < s + z) G (fun w hw => by rw [hW w hw]; exact hnan w hw)
    (fun r _ => getD_foldl_modify _ s regs (by omega) r) hp hm (fun r _ l hl => ?_) hw]
  · exact Layer.apply_congr hW hw
  · rw [hGp]
    split_ifs with hR
    · rw [blockPartner_register f rfl hK hB hR hl, hlanes l hl]
    · exact blockPartner_register_out f rfl hK hB hR hl

/-- Finishing each register of a group with `mergeLanes` is three layers of half-cleaners
inside the registers. -/
theorem holds_mergeLanes (hsize : regs.size = c) (hW : Holds c regs W) (hP : Padded (8 * c) n W)
    {s z K₁ K₂ K₃ : Nat} (hz : s + z ≤ c) (hK₁ : K₁ = z * 1) (hK₂ : K₂ = z * 2) (hK₃ : K₃ = z * 4)
    {h₁ : 8 * s + K₁ * (2 * 4) ≤ 8 * c} {h₂ : 8 * s + K₂ * (2 * 2) ≤ 8 * c}
    {h₃ : 8 * s + K₃ * (2 * 1) ≤ 8 * c} :
    Holds c ((List.range z).foldl (fun a i => a.modify (s + i) mergeLanes) regs)
      (Layer.run [Layer.clean (8 * s) 4 K₁ h₁, Layer.clean (8 * s) 2 K₂ h₂,
        Layer.clean (8 * s) 1 K₃ h₃] W) := by
  -- the fold of `mergeLanes` is the three folds of its exchanges
  let step := fun (p : List Nat) (m : Nat) (a : Array Lanes) =>
    (List.range z).foldl (fun a i => a.modify (s + i) (exchange p m)) a
  have hs : ∀ p m (a : Array Lanes), (step p m a).size = a.size := fun p m a =>
    size_foldl_modify _ s a z
  have hsplit : ∀ r, ((List.range z).foldl (fun a i => a.modify (s + i) mergeLanes) regs).getD r #[] =
      (step swapPairs 0xAA (step swapByTwo 0xCC (step swapHalves 0xF0 regs))).getD r #[] := by
    intro r
    simp only [step]
    have hfit : ∀ a : Array Lanes, a.size = c → s + z ≤ a.size := fun a ha => by omega
    rw [getD_foldl_modify _ s _ (hfit _ hsize), getD_foldl_modify _ s _ (hfit _ (by
      simp only [size_foldl_modify, hsize])), getD_foldl_modify _ s _ (hfit _ (by
      simp only [size_foldl_modify, hsize])), getD_foldl_modify _ s _ (hfit _ hsize)]
    split_ifs <;> rfl
  intro w hw
  rw [wire, hsplit, ← wire]
  simp only [Layer.run_cons, Layer.run_nil]
  have h1 := holds_modify_lanes hsize hW hP.1 hz (Layer.clean (8 * s) 4 K₁ h₁)
    (p := swapHalves) (m := 0xF0) (q := 1) rfl (by decide) hK₁ (by decide) (by decide) (by decide)
  have hP1 := Layer.apply_padded (L := Layer.clean (8 * s) 4 K₁ h₁) hP
  have h2 := holds_modify_lanes (by rw [hs, hsize]) h1 hP1.1 hz (Layer.clean (8 * s) 2 K₂ h₂)
    (p := swapByTwo) (m := 0xCC) (q := 2) rfl (by decide) hK₂ (by decide) (by decide) (by decide)
  have hP2 := Layer.apply_padded (L := Layer.clean (8 * s) 2 K₂ h₂) hP1
  exact holds_modify_lanes (by rw [hs, hs, hsize]) h2 hP2.1 hz (Layer.clean (8 * s) 1 K₃ h₃)
    (p := swapPairs) (m := 0xAA) (q := 4) rfl (by decide) hK₃ (by decide) (by decide) (by decide) w hw

/-- The flip of a group of `z` registers from `s`: register `s + i` against register
`s + z - 1 - i` reversed, for the lower half of the group. -/
theorem holds_flipFold (hsize : regs.size = c) (hW : Holds c regs W) {s z H : Nat}
    (hz2 : z % 2 = 0) (hz : s + z ≤ c) (hH : H = 4 * z) {h : 8 * s + 1 * (2 * H) ≤ 8 * c} :
    Holds c ((List.range (z / 2)).foldl (fun r i => exchangeAt r (s + i) (s + z - 1 - i) true) regs)
      ((Layer.flip (8 * s) H 1 h).apply W) := by
  intro w hw
  rw [wire_foldl_exchangeAt (fun i => s + i) (fun i => s + z - 1 - i) true regs hsize
    (List.nodup_range.map fun a b e => Nat.add_left_cancel e) ?lt ?partner ?out hw]
  · exact Layer.apply_congr hW hw
  case lt =>
    intro i hi
    have := List.mem_range.1 hi
    omega
  case partner =>
    -- lane `l` of register `s + i` is wire `8 i + l` of the group's one block
    intro i hi l hl
    have hi' := List.mem_range.1 hi
    show blockPartner (8 * s) (2 * H) 1 (Layer.flipOffset H) (8 * (s + i) + l) = _
    rw [show 8 * (s + i) + l = 8 * s + 0 * (2 * H) + (8 * i + l) by ring,
      blockPartner_at (by decide) (by omega), Layer.flipOffset, turnLane, if_pos rfl]
    omega
  case out =>
    -- every register of the group is in a pair, as the lower or as the upper one
    intro u _ hfar
    apply blockPartner_out
    intro hin
    by_cases hlow : u / 8 - s < z / 2
    · exact (hfar (u / 8 - s) (List.mem_range.2 hlow)).1 (by omega)
    · exact (hfar (s + z - 1 - u / 8) (List.mem_range.2 (by omega))).2 (by omega)

/-- The registers a cleaning round of width `w` compares with the one `w / 2` above: the
lower half of each block of `w` registers. -/
theorem mem_cleanStarts {s z w x : Nat} :
    x ∈ (List.range (z / w)).flatMap (fun j => (List.range (w / 2)).map fun i => s + j * w + i) ↔
      ∃ j < z / w, ∃ i < w / 2, x = s + j * w + i := by
  simp only [List.mem_flatMap, List.mem_map, List.mem_range]
  constructor
  · rintro ⟨j, hj, i, hi, rfl⟩
    exact ⟨j, hj, i, hi, rfl⟩
  · rintro ⟨j, hj, i, hi, rfl⟩
    exact ⟨j, hj, i, hi, rfl⟩

theorem nodup_cleanStarts (s z w : Nat) :
    ((List.range (z / w)).flatMap fun j => (List.range (w / 2)).map fun i => s + j * w + i).Nodup := by
  refine List.nodup_flatMap.2 ⟨fun j _ => List.nodup_range.map fun a b e => ?_, ?_⟩
  · exact Nat.add_left_cancel e
  · refine List.pairwise_lt_range.imp fun {a b} hab => ?_
    refine List.disjoint_left.2 fun x hx hx' => ?_
    obtain ⟨i, hi, rfl⟩ := List.mem_map.1 hx
    obtain ⟨i', hi', e⟩ := List.mem_map.1 hx'
    have := Nat.mul_le_mul_right w (Nat.succ_le_of_lt hab)
    rw [Nat.succ_mul] at this
    have := List.mem_range.1 hi
    have := List.mem_range.1 hi'
    omega

/-- The register `w / 2` above one of a cleaning round's lies in the group. -/
theorem lt_of_mem_cleanStarts {s z w x : Nat}
    (hx : x ∈ (List.range (z / w)).flatMap fun j => (List.range (w / 2)).map fun i => s + j * w + i) :
    x + w / 2 < s + z := by
  obtain ⟨j, hj, i, hi, rfl⟩ := mem_cleanStarts.1 hx
  have hjw := Nat.mul_le_mul_right w (Nat.succ_le_of_lt hj)
  rw [Nat.succ_mul] at hjw
  have := Nat.div_mul_le_self z w
  omega

/-- A cleaning round of width `w` over a group of `z = K w` registers from `s` is a layer of
half-cleaners of half-width `4 w` wires. -/
theorem holds_cleanRound (hsize : regs.size = c) (hW : Holds c regs W) {s z w K H : Nat}
    (hw : 2 ≤ w) (hw2 : w % 2 = 0) (hK : K * w = z) (hH : H = 4 * w) (hz : s + z ≤ c)
    {h : 8 * s + K * (2 * H) ≤ 8 * c} :
    Holds c (((List.range (z / w)).flatMap fun j => (List.range (w / 2)).map fun i => s + j * w + i).foldl
        (fun r x => exchangeAt r x (x + w / 2) false) regs)
      ((Layer.clean (8 * s) H K h).apply W) := by
  have hzw : z / w = K := by rw [← hK, Nat.mul_div_cancel _ (by omega)]
  intro u hu
  rw [wire_foldl_exchangeAt (fun x => x) (fun x => x + w / 2) false regs hsize
    (by rw [List.map_id']; exact nodup_cleanStarts s z w) ?lt ?partner ?out hu]
  · exact Layer.apply_congr hW hu
  case lt =>
    intro x hx
    have := lt_of_mem_cleanStarts hx
    omega
  case partner =>
    -- lane `l` of register `s + j w + i` is wire `8 i + l` of block `j`, in its lower half
    intro x hx l hl
    obtain ⟨j, hj, i, hi, rfl⟩ := mem_cleanStarts.1 hx
    rw [hzw] at hj
    show blockPartner (8 * s) (2 * H) K (Layer.cleanOffset H) (8 * (s + j * w + i) + l) = _
    rw [show 8 * (s + j * w + i) + l = 8 * s + j * (2 * H) + (8 * i + l) by rw [hH]; ring,
      blockPartner_at hj (by omega), Layer.cleanOffset, if_pos (by omega), turnLane, if_neg (by decide),
      hH]
    ring_nf
    omega
  case out =>
    -- every register of the group is in a pair: the lower half of its block, or the upper
    intro v _ hfar
    apply blockPartner_out
    intro hin
    have hKw : v / 8 - s < K * w := by
      have : K * (2 * H) = 8 * (K * w) := by rw [hH]; ring
      omega
    have hj : (v / 8 - s) / w < K := (Nat.div_lt_iff_lt_mul (by omega)).2 hKw
    have hdm := Nat.div_add_mod (v / 8 - s) w
    have hmod := Nat.mod_lt (v / 8 - s) (show 0 < w by omega)
    rw [Nat.mul_comm] at hdm
    by_cases hlow : (v / 8 - s) % w < w / 2
    · exact (hfar _ (mem_cleanStarts.2 ⟨_, hzw ▸ hj, _, hlow, rfl⟩)).1 (by omega)
    · exact (hfar _ (mem_cleanStarts.2 ⟨_, hzw ▸ hj, (v / 8 - s) % w - w / 2, by omega, rfl⟩)).2
        (by omega)

theorem size_exchange (p : List Nat) (m : Nat) (v : Lanes) : (exchange p m v).size = 8 := by
  simp [exchange]

theorem size_foldl_rounds (s z : Nat) (ws : List Nat) (regs : Array Lanes) :
    (ws.foldl (fun r w =>
      ((List.range (z / w)).flatMap fun j => (List.range (w / 2)).map fun i => s + j * w + i).foldl
        (fun r x => exchangeAt r x (x + w / 2) false) r) regs).size = regs.size := by
  induction ws generalizing regs with
  | nil => rfl
  | cons w ws ih => rw [List.foldl_cons, ih, size_foldl_exchangeAt]

/-- The cleaning rounds of `mergeGroup` keep `c` registers of eight lanes. -/
theorem shaped_foldl_rounds {s z : Nat} (hz : s + z ≤ c) (ws : List Nat) :
    ∀ regs : Array Lanes, Shaped c regs → Shaped c (ws.foldl (fun r w =>
      ((List.range (z / w)).flatMap fun j => (List.range (w / 2)).map fun i => s + j * w + i).foldl
        (fun r x => exchangeAt r x (x + w / 2) false) r) regs) := by
  induction ws with
  | nil => exact fun _ hs => hs
  | cons w ws ih =>
    intro regs hs
    rw [List.foldl_cons]
    refine ih _ (shaped_foldl_exchangeAt _ _ false _ (fun x hx => ?_) hs)
    have := lt_of_mem_cleanStarts hx
    omega

/-- Merging a group of registers keeps `c` registers of eight lanes. -/
theorem shaped_mergeGroup (hs : Shaped c regs) {s z : Nat} (hz : s + z ≤ c) :
    Shaped c (mergeGroup regs s z) := by
  simp only [mergeGroup]
  have hflip := shaped_foldl_exchangeAt (fun i => s + i) (fun i => s + z - 1 - i) true
    (List.range (z / 2)) (fun i hi => by have := List.mem_range.1 hi; omega) hs
  have hrounds := shaped_foldl_rounds hz (cleanWidths z) _ hflip
  refine ⟨by rw [size_foldl_modify, hrounds.1], fun r hr => ?_⟩
  rw [getD_foldl_modify _ s _ (by rw [hrounds.1]; omega)]
  split_ifs
  · exact size_exchange _ _ _
  · exact hrounds.2 r hr

/-- The cleaning rounds of widths `ws` over a group of `z` registers from `s` are the
half-cleaners of half-widths `4 w` of a merging stage on the group's wires. -/
theorem holds_cleanWidths {s z S m e : Nat} (hS : S = 8 * s) (hmz : m * 2 ^ (e + 1) = 8 * z)
    (hz : s + z ≤ c) {h : S + m * 2 ^ (e + 1) ≤ 8 * c} :
    ∀ ws : List Nat, (∀ w ∈ ws, 2 ≤ w ∧ w % 2 = 0 ∧ z % w = 0) →
      ∀ (regs : Array Lanes) (W : Nat → Slot), regs.size = c → Holds c regs W →
      Holds c (ws.foldl (fun r w =>
          ((List.range (z / w)).flatMap fun j => (List.range (w / 2)).map fun i => s + j * w + i).foldl
            (fun r x => exchangeAt r x (x + w / 2) false) r) regs)
        (Layer.run (cleanLayers S m e h (ws.map (4 * ·))) W) := by
  subst hS
  intro ws
  induction ws with
  | nil => intro _ regs W _ hW; exact hW
  | cons w ws ih =>
    intro hws regs W hsize hW
    obtain ⟨hw, hw2, hzw⟩ := hws w List.mem_cons_self
    -- the round of width `w` cleans blocks of `8 w` wires, `z / w` of them
    have hK : m * 2 ^ (e + 1) / (2 * (4 * w)) * w = z := by
      rw [hmz, show 2 * (4 * w) = 8 * w by ring, Nat.mul_div_mul_left _ _ (by decide),
        Nat.div_mul_cancel (Nat.dvd_of_mod_eq_zero hzw)]
    rw [List.foldl_cons, List.map_cons]
    exact ih (fun w' hw' => hws w' (List.mem_cons_of_mem w hw')) _ _
      (by rw [size_foldl_exchangeAt, hsize]) (holds_cleanRound hsize hW hw hw2 hK rfl hz)

/-- Merging a group of `2 ^ j` registers from `s` is one merging stage of the group's wires,
for the group sizes of the network. -/
theorem holds_mergeGroup (hsize : regs.size = c) (hW : Holds c regs W) (hP : Padded (8 * c) n W)
    {s j : Nat} (hj : 1 ≤ j) (hj6 : j < 6) (hz : s + 2 ^ j ≤ c)
    {h : 8 * s + 1 * 2 ^ (j + 2 + 1) ≤ 8 * c} :
    Holds c (mergeGroup regs s (2 ^ j)) (Layer.run (mergeLayers (8 * s) 1 (j + 2) h) W) := by
  -- the half-cleaners of the stage: the rounds between registers, then three inside them
  have hpows : powsBelow (j + 2) = (cleanWidths (2 ^ j)).map (4 * ·) ++ [4, 2, 1] := by
    have key : ∀ j < 6, 1 ≤ j →
        powsBelow (j + 2) = (cleanWidths (2 ^ j)).map (4 * ·) ++ [4, 2, 1] := by decide
    exact key j hj6 hj
  have hwidths : ∀ w ∈ cleanWidths (2 ^ j), 2 ≤ w ∧ w % 2 = 0 ∧ 2 ^ j % w = 0 := by
    have key : ∀ j < 6, ∀ w ∈ cleanWidths (2 ^ j), 2 ≤ w ∧ w % 2 = 0 ∧ 2 ^ j % w = 0 := by
      decide
    exact key j hj6
  have h8 : 2 ^ (j + 2 + 1) = 8 * 2 ^ j := by ring
  have hz2 : 2 ^ j % 2 = 0 := by
    rw [show j = j - 1 + 1 by omega, Nat.pow_succ]
    exact Nat.mul_mod_left _ _
  have happ : cleanLayers (8 * s) 1 (j + 2) h ((cleanWidths (2 ^ j)).map (4 * ·) ++ [4, 2, 1]) =
      cleanLayers (8 * s) 1 (j + 2) h ((cleanWidths (2 ^ j)).map (4 * ·)) ++
        cleanLayers (8 * s) 1 (j + 2) h [4, 2, 1] := List.map_append
  rw [mergeLayers, Layer.run_cons, hpows, happ, Layer.run_append]
  simp only [mergeGroup]
  have h1 := holds_flipFold hsize hW (H := 2 ^ (j + 2)) hz2 hz (by ring)
    (h := by rwa [← Nat.pow_succ'])
  have h2 := holds_cleanWidths (s := s) rfl (by rw [h8, Nat.one_mul]) hz (h := h)
    (cleanWidths (2 ^ j)) hwidths _ _ (by rw [size_foldl_exchangeAt, hsize]) h1
  exact holds_mergeLanes (by rw [size_foldl_rounds, size_foldl_exchangeAt, hsize]) h2 (Layer.run_padded _ (Layer.apply_padded hP))
    hz (by rw [h8]; omega) (by rw [h8]; omega) (by rw [h8]; omega)

end Group

end OnnxFusion.Order

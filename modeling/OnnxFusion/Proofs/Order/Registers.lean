import OnnxFusion.Proofs.Order.Layers
/-!
# The registers of the sorting network as a row of wires

`Order.networkOrder` keeps its lanes in an array of registers of eight lanes; wire `w` is lane
`w % 8` of register `w / 8` (`wire`). This module reads each step of the network on registers
as a `Layer` of the row of wires, so that everything about layers applies to it.

* `exchange p m`, the compare-exchange inside a register, pairs lane `l` with lane `p l` and
  lets the lanes of `m` take the larger key (`exchange_getD`). Applied to some of the
  registers, it is a layer whose partners stay inside those registers (`wire_exchange`);
  `blockPartner_register` turns the partners of a layer of blocks inside registers into lane
  partners.
* `exchangeAt regs x y flip`, the compare-exchange of two registers lane by lane, lane `l` of
  `x` with lane `l` of `y` (or `7 - l` with `flip`), is `wire_exchangeAt`. A fold of them over
  disjoint pairs of registers is one layer (`wire_foldl_exchangeAt`).

The keys of `exchange` must be numbers: it decides which position a lane keeps by comparing
the key it took with its own, and a NaN key equals nothing, not even itself.
-/

set_option autoImplicit false

namespace OnnxFusion.Order

/-- Wire `w` of a row of registers: lane `w % 8` of register `w / 8`. -/
def wire (regs : Array Lanes) (w : Nat) : Slot := (regs.getD (w / 8) #[]).getD (w % 8) default

theorem wire_eight (regs : Array Lanes) (r : Nat) {l : Nat} (hl : l < 8) :
    wire regs (8 * r + l) = (regs.getD r #[]).getD l default := by
  rw [wire, show (8 * r + l) / 8 = r by omega, show (8 * r + l) % 8 = l by omega]

/-- The registers hold the slots `W` on their `8 * c` wires. -/
def Holds (c : Nat) (regs : Array Lanes) (W : Nat → Slot) : Prop := ∀ w < 8 * c, wire regs w = W w

/-- `c` registers of eight lanes each. -/
def Shaped (c : Nat) (regs : Array Lanes) : Prop :=
  regs.size = c ∧ ∀ r < c, (regs.getD r #[]).size = 8

theorem holds_wire (c : Nat) (regs : Array Lanes) : Holds c regs (wire regs) := fun _ _ => rfl

/-! ### Inside a register -/

section Lanes

theorem exchange_getD (p : List Nat) (m : Nat) (v : Lanes) {l : Nat} (hl : l < 8)
    (hk : (v.getD l default).1.isNaN = false) :
    (exchange p m v).getD l default =
      if m.testBit l then highSlot (v.getD l default) (v.getD (p.getD l 0) default)
      else lowSlot (v.getD l default) (v.getD (p.getD l 0) default) := by
  simp only [exchange, Array.getD_eq_getD_getElem?, List.getElem?_toArray, List.getElem?_map,
    List.getElem?_range hl, Option.map_some, Option.getD_some] at hk ⊢
  generalize v[l]?.getD default = a at hk ⊢
  generalize v[p.getD l 0]?.getD default = b
  obtain ⟨k, i⟩ := a
  obtain ⟨k', i'⟩ := b
  dsimp only at hk ⊢
  -- the position follows the key a lane keeps, which is told by comparing it with its own
  cases m.testBit l
  · by_cases h : k' < k
    · simp [lowSlot, h, beq_eq_false_of_lt h]
    · simp [lowSlot, h, self_beq hk]
  · by_cases h : k < k'
    · simp [highSlot, h, beq_eq_false_of_gt h]
    · simp [highSlot, h, self_beq hk]

/-- Registers in which those of `R` went through `exchange p m` read as a layer that pairs,
in those registers, lane `l` with lane `p l`, the lanes of `m` being the upper ones. -/
theorem wire_exchange {c : Nat} {regs regs' : Array Lanes} (R : Nat → Prop) [DecidablePred R]
    {p : List Nat} {m : Nat} (G : Layer (8 * c))
    (hW : ∀ w < 8 * c, (wire regs w).1.isNaN = false)
    (h' : ∀ r < c, regs'.getD r #[] =
      if R r then exchange p m (regs.getD r #[]) else regs.getD r #[])
    (hp : ∀ l < 8, p.getD l 0 < 8) (hm : ∀ l < 8, m.testBit l = decide (p.getD l 0 < l))
    (hG : ∀ r < c, ∀ l < 8, G.partner (8 * r + l) =
      if R r then 8 * r + p.getD l 0 else 8 * r + l)
    {w : Nat} (hw : w < 8 * c) : wire regs' w = G.apply (wire regs) w := by
  have hl : w % 8 < 8 := Nat.mod_lt w (by decide)
  have hr : w / 8 < c := by omega
  have hwe : w = 8 * (w / 8) + w % 8 := (Nat.div_add_mod w 8).symm
  rw [hwe, wire_eight regs' _ hl, h' _ hr]
  by_cases hR : R (w / 8)
  · have hk := hW w hw
    rw [hwe, wire_eight regs _ hl] at hk
    rw [if_pos hR, exchange_getD p m _ hl hk, Layer.apply, hG _ hr _ hl, if_pos hR, hm _ hl,
      wire_eight regs _ hl, wire_eight regs _ (hp _ hl)]
    simp
  · rw [if_neg hR, Layer.apply_of_partner_eq (by rw [hG _ hr _ hl, if_neg hR]), wire_eight regs _ hl]

/-- A layer of blocks lying inside the registers from `s` to `s + z` pairs the lanes of each
of them as the same layer does on one register. -/
theorem blockPartner_register {S K s z q B r l : Nat} (f : Nat → Nat) (hS : S = 8 * s)
    (hK : K = z * q) (hB : q * B = 8) (hr : s ≤ r ∧ r < s + z) (hl : l < 8) :
    blockPartner S B K f (8 * r + l) = 8 * r + blockPartner 0 B q f l := by
  subst hS hK
  obtain ⟨b, hb, i, hi, rfl⟩ := exists_block (S := 0) (show 0 ≤ l ∧ l < 0 + q * B by omega)
  obtain ⟨d, rfl⟩ : ∃ d, r = s + d := ⟨r - s, by omega⟩
  have hsplit : 8 * (s + d) + (0 + b * B + i) = 8 * s + (d * q + b) * B + i := by
    rw [Nat.add_mul, Nat.mul_assoc, hB]
    ring
  have hdq : d * q + b < z * q := by
    have := Nat.mul_le_mul_right q (show d + 1 ≤ z by omega)
    rw [Nat.succ_mul] at this
    omega
  rw [hsplit, blockPartner_at hdq hi, blockPartner_at hb hi, Nat.add_mul, Nat.mul_assoc, hB]
  ring

/-- Outside the registers from `s` to `s + z`, a layer of blocks inside them pairs each wire
with itself. -/
theorem blockPartner_register_out {S K s z q B r l : Nat} (f : Nat → Nat) (hS : S = 8 * s)
    (hK : K = z * q) (hB : q * B = 8) (hr : ¬ (s ≤ r ∧ r < s + z)) (hl : l < 8) :
    blockPartner S B K f (8 * r + l) = 8 * r + l := by
  apply blockPartner_out
  rw [hS, hK, Nat.mul_assoc, hB]
  omega

end Lanes

/-! ### Between registers -/

/-- The lane of the second register that lane `l` of the first meets in `exchangeAt`. -/
def turnLane (flip : Bool) (l : Nat) : Nat := if flip then 7 - l else l

/-- A register as `exchangeAt` reads the second one. -/
def turned (flip : Bool) (v : Lanes) : Lanes := if flip then permute reverseAll v else v

section Pairs

variable (flip : Bool)

theorem turnLane_lt {l : Nat} (hl : l < 8) : turnLane flip l < 8 := by
  unfold turnLane
  split <;> omega

theorem turnLane_turnLane {l : Nat} (hl : l < 8) : turnLane flip (turnLane flip l) = l := by
  unfold turnLane
  split <;> omega

theorem turned_getD (v : Lanes) {l : Nat} (hl : l < 8) :
    (turned flip v).getD l default = v.getD (turnLane flip l) default := by
  cases flip
  · rfl
  · have hrev : reverseAll.getD l 0 = 7 - l := by interval_cases l <;> rfl
    simp only [turned, turnLane, if_true, permute, Array.getD_eq_getD_getElem?,
      List.getElem?_toArray, List.getElem?_map]
    rw [List.getElem?_eq_getElem (by simp [reverseAll]; omega), Option.map_some,
      Option.getD_some, ← List.getD_eq_getElem (d := 0), hrev]

theorem exchangeRegisters_fst (a b : Lanes) {l : Nat} (hl : l < 8) :
    (exchangeRegisters a b).1.getD l default = lowSlot (a.getD l default) (b.getD l default) := by
  simp only [exchangeRegisters, Array.getD_eq_getD_getElem?, List.getElem?_toArray,
    List.getElem?_map, List.getElem?_range hl, Option.map_some, Option.getD_some, lowSlot]
  generalize a[l]?.getD default = x
  generalize b[l]?.getD default = y
  obtain ⟨k, i⟩ := x
  obtain ⟨k', i'⟩ := y
  by_cases h : k' < k <;> simp [h]

theorem exchangeRegisters_snd (a b : Lanes) {l : Nat} (hl : l < 8) :
    (exchangeRegisters a b).2.getD l default = highSlot (b.getD l default) (a.getD l default) := by
  simp only [exchangeRegisters, Array.getD_eq_getD_getElem?, List.getElem?_toArray,
    List.getElem?_map, List.getElem?_range hl, Option.map_some, Option.getD_some, highSlot]
  generalize a[l]?.getD default = x
  generalize b[l]?.getD default = y
  obtain ⟨k, i⟩ := x
  obtain ⟨k', i'⟩ := y
  by_cases h : k' < k <;> simp [h]

theorem size_exchangeAt (regs : Array Lanes) (x y : Nat) :
    (exchangeAt regs x y flip).size = regs.size := by
  simp [exchangeAt]

theorem getD_exchangeAt (regs : Array Lanes) {x y : Nat} (hx : x < regs.size)
    (hy : y < regs.size) (r : Nat) :
    (exchangeAt regs x y flip).getD r #[] =
      if r = y then
        turned flip (exchangeRegisters (regs.getD x #[]) (turned flip (regs.getD y #[]))).2
      else if r = x then (exchangeRegisters (regs.getD x #[]) (turned flip (regs.getD y #[]))).1
      else regs.getD r #[] := by
  simp only [exchangeAt, turned, Array.getD_eq_getD_getElem?, Array.getElem?_setIfInBounds,
    Array.size_setIfInBounds]
  by_cases hry : r = y
  · subst hry
    simp [hy]
  · by_cases hrx : r = x
    · subst hrx
      simp [hx, Ne.symm hry, hry]
    · simp [Ne.symm hry, Ne.symm hrx, hry, hrx]

/-- The registers other than the two exchanged are left as they were. -/
theorem getD_exchangeAt_of_ne (regs : Array Lanes) {x y r : Nat} (hx : r ≠ x) (hy : r ≠ y) :
    (exchangeAt regs x y flip).getD r #[] = regs.getD r #[] := by
  simp [exchangeAt, Array.getD_eq_getD_getElem?, Ne.symm hx, Ne.symm hy]

/-- The compare-exchange of two registers, wire by wire: the first register keeps the smaller
keys, the second the larger. -/
theorem wire_exchangeAt (regs : Array Lanes) {x y : Nat} (hx : x < regs.size)
    (hy : y < regs.size) (hxy : x ≠ y) (w : Nat) :
    wire (exchangeAt regs x y flip) w =
      if w / 8 = x then lowSlot (wire regs w) (wire regs (8 * y + turnLane flip (w % 8)))
      else if w / 8 = y then highSlot (wire regs w) (wire regs (8 * x + turnLane flip (w % 8)))
      else wire regs w := by
  have hl : w % 8 < 8 := Nat.mod_lt w (by decide)
  have ht := turnLane_lt flip hl
  rw [wire_eight regs _ ht, wire_eight regs _ ht, wire, wire, getD_exchangeAt flip regs hx hy]
  by_cases hwx : w / 8 = x
  · rw [if_neg (by omega), if_pos hwx, if_pos hwx, exchangeRegisters_fst _ _ hl,
      turned_getD flip _ hl, hwx]
  · by_cases hwy : w / 8 = y
    · rw [if_pos hwy, if_neg hwx, if_pos hwy, turned_getD flip _ hl,
        exchangeRegisters_snd _ _ ht, turned_getD flip _ ht, turnLane_turnLane flip hl, hwy]
    · rw [if_neg hwy, if_neg hwx, if_neg hwx, if_neg hwy]

end Pairs

section Fold

variable (lo hi : Nat → Nat) (flip : Bool)

/-- A fold of register exchanges leaves the registers it does not touch as they were. -/
theorem wire_foldl_exchangeAt_of_not_mem (xs : List Nat) (regs : Array Lanes) {w : Nat}
    (hw : ∀ i ∈ xs, w / 8 ≠ lo i ∧ w / 8 ≠ hi i) :
    wire (xs.foldl (fun r i => exchangeAt r (lo i) (hi i) flip) regs) w = wire regs w := by
  induction xs generalizing regs with
  | nil => rfl
  | cons i xs ih =>
    rw [List.foldl_cons, ih _ fun j hj => hw j (List.mem_cons_of_mem i hj), wire, wire,
      getD_exchangeAt_of_ne flip regs (hw i List.mem_cons_self).1 (hw i List.mem_cons_self).2]

theorem size_foldl_exchangeAt (xs : List Nat) (regs : Array Lanes) :
    (xs.foldl (fun r i => exchangeAt r (lo i) (hi i) flip) regs).size = regs.size := by
  induction xs generalizing regs with
  | nil => rfl
  | cons i xs ih => rw [List.foldl_cons, ih, size_exchangeAt]

variable {c : Nat} {xs : List Nat} {G : Layer (8 * c)}

/-- Where a layer pairs each lane of register `lo i` with a lane of register `hi i`, above
it, two indices whose registers differ in their lower register share no register. -/
theorem registers_apart
    (hlt : ∀ i ∈ xs, lo i < hi i ∧ hi i < c)
    (hG : ∀ i ∈ xs, ∀ l < 8, G.partner (8 * lo i + l) = 8 * hi i + turnLane flip l)
    {i j : Nat} (hi' : i ∈ xs) (hj : j ∈ xs) (hne : lo i ≠ lo j) :
    lo i ≠ hi j ∧ hi i ≠ lo j ∧ hi i ≠ hi j := by
  -- the wire of lane `turnLane flip 0` in the upper register of `k` meets lane `0` below it
  have hdown : ∀ k ∈ xs, G.partner (8 * hi k + 0) = 8 * lo k + turnLane flip 0 := by
    intro k hk
    have e := hG k hk (turnLane flip 0) (turnLane_lt flip (by decide))
    rw [turnLane_turnLane flip (by decide)] at e
    have hbound : 8 * lo k + turnLane flip 0 < 8 * c := by
      have := turnLane_lt flip (l := 0) (by decide)
      have := hlt k hk
      omega
    rw [← e, G.partner_partner _ hbound]
  have hup : ∀ k ∈ xs, G.partner (8 * lo k + 0) = 8 * hi k + turnLane flip 0 := fun k hk =>
    hG k hk 0 (by decide)
  have t0 := turnLane_lt flip (l := 0) (by decide)
  refine ⟨fun h => ?_, fun h => ?_, fun h => ?_⟩
  · have e1 := hup i hi'
    rw [h, hdown j hj] at e1
    have := (hlt i hi').1
    have := (hlt j hj).1
    omega
  · have e1 := hup j hj
    rw [← h, hdown i hi'] at e1
    have := (hlt i hi').1
    have := (hlt j hj).1
    omega
  · have e1 := hdown i hi'
    rw [h, hdown j hj] at e1
    exact hne (by omega)

/-- A fold of register exchanges over pairs that share no register is one layer, given the
layer's partners: lane `l` of `lo i` meets lane `turnLane flip l` of `hi i`, and the wires of
the registers no pair touches meet themselves. -/
theorem wire_foldl_exchangeAt (regs : Array Lanes) (hsize : regs.size = c)
    (hnd : (xs.map lo).Nodup) (hlt : ∀ i ∈ xs, lo i < hi i ∧ hi i < c)
    (hG : ∀ i ∈ xs, ∀ l < 8, G.partner (8 * lo i + l) = 8 * hi i + turnLane flip l)
    (hout : ∀ w < 8 * c, (∀ i ∈ xs, w / 8 ≠ lo i ∧ w / 8 ≠ hi i) → G.partner w = w)
    {w : Nat} (hw : w < 8 * c) :
    wire (xs.foldl (fun r i => exchangeAt r (lo i) (hi i) flip) regs) w =
      G.apply (wire regs) w := by
  by_cases htouch : ∃ i ∈ xs, w / 8 = lo i ∨ w / 8 = hi i
  swap
  · have hfar : ∀ i ∈ xs, w / 8 ≠ lo i ∧ w / 8 ≠ hi i := fun i hi' =>
      ⟨fun h => htouch ⟨i, hi', .inl h⟩, fun h => htouch ⟨i, hi', .inr h⟩⟩
    rw [wire_foldl_exchangeAt_of_not_mem lo hi flip xs regs hfar,
      Layer.apply_of_partner_eq (hout w hw hfar)]
  obtain ⟨i, hi', hwi⟩ := htouch
  obtain ⟨pre, post, rfl⟩ := List.append_of_mem hi'
  -- the other pairs share no register with pair `i`
  have hnd' : lo i ∉ (pre ++ post).map lo := by
    rw [List.map_append, List.map_cons] at hnd
    rw [List.map_append]
    exact (List.nodup_cons.1 (List.nodup_middle.1 hnd)).1
  have hsep : ∀ j ∈ pre ++ post, lo j ≠ lo i ∧ lo j ≠ hi i ∧ hi j ≠ lo i ∧ hi j ≠ hi i := by
    intro j hj
    have hj' : j ∈ pre ++ i :: post := by
      rcases List.mem_append.1 hj with h | h
      · exact List.mem_append_left _ h
      · exact List.mem_append_right _ (List.mem_cons_of_mem _ h)
    have hne : lo j ≠ lo i := fun h => hnd' (List.mem_map.2 ⟨j, hj, h⟩)
    obtain ⟨a, b, c'⟩ := registers_apart lo hi flip hlt hG hj' hi' hne
    exact ⟨hne, a, b, c'⟩
  have hfree : ∀ u, (u / 8 = lo i ∨ u / 8 = hi i) → ∀ ys : List Nat, (∀ j ∈ ys, j ∈ pre ++ post) →
      ∀ rs : Array Lanes, wire (ys.foldl (fun r i => exchangeAt r (lo i) (hi i) flip) rs) u =
        wire rs u := by
    intro u hu ys hys rs
    refine wire_foldl_exchangeAt_of_not_mem lo hi flip ys rs fun j hj => ?_
    obtain ⟨a, b, c', d⟩ := hsep j (hys j hj)
    rcases hu with hu | hu <;> rw [hu]
    · exact ⟨Ne.symm a, Ne.symm c'⟩
    · exact ⟨Ne.symm b, Ne.symm d⟩
  have hpre : ∀ j ∈ pre, j ∈ pre ++ post := fun j hj => List.mem_append_left _ hj
  have hpost : ∀ j ∈ post, j ∈ pre ++ post := fun j hj => List.mem_append_right _ hj
  have hl : w % 8 < 8 := Nat.mod_lt w (by decide)
  have ht := turnLane_lt flip hl
  have hsz : (pre.foldl (fun r i => exchangeAt r (lo i) (hi i) flip) regs).size = c := by
    rw [size_foldl_exchangeAt, hsize]
  have hlti := hlt i hi'
  rw [List.foldl_append, List.foldl_cons, hfree w hwi post hpost,
    wire_exchangeAt flip _ (by omega) (by omega) (by omega)]
  rcases hwi with hwl | hwh
  · -- `w` lies in the lower register of its pair
    have hpw : G.partner w = 8 * hi i + turnLane flip (w % 8) := by
      rw [← hG i hi' _ hl, ← hwl, Nat.div_add_mod]
    rw [if_pos hwl, hfree w (.inl hwl) pre hpre, hfree _ (.inr (by omega)) pre hpre, Layer.apply,
      if_neg (by omega), hpw]
  · -- `w` lies in the upper register, and meets the lane `turnLane flip` of its own below
    have hpw : G.partner w = 8 * lo i + turnLane flip (w % 8) := by
      have e := hG i hi' _ ht
      rw [turnLane_turnLane flip hl, ← hwh, Nat.div_add_mod] at e
      calc G.partner w = G.partner (G.partner (8 * lo i + turnLane flip (w % 8))) := by rw [e]
        _ = 8 * lo i + turnLane flip (w % 8) := G.partner_partner _ (by omega)
    rw [if_neg (by omega), if_pos hwh, hfree w (.inr hwh) pre hpre,
      hfree _ (.inl (by omega)) pre hpre, Layer.apply, if_pos (by omega), hpw]

end Fold

end OnnxFusion.Order

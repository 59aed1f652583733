import OnnxFusion.Order.Bitonic
import OnnxFusion.Proofs.Order.FloatRank
import OnnxFusion.Proofs.Order.ZeroOne
/-!
# Layers of compare-exchanges on wires

The registers of `Order.argsortByNetwork` are read here as one row of wires, wire `w` holding
a slot (a key and the position it came from). Every step of the network is a `Layer`: wire
`w` meets wire `partner w`, the partner relation an involution, and of two met wires the lower
keeps the slot with the smaller key (`lowSlot`) and the upper the other (`highSlot`); a wire
that meets itself keeps its slot.

Three facts carry every layer, whatever its partners:

* its slots are those it was given, moved between wires (`Layer.perm`);
* with numeric keys and the pad in the wires from `n` on, it leaves the pads where they are
  (`Layer.apply_padded`), since no key is above the pad's infinite one;
* read through a threshold (`bit`), the lower wire of a pair takes the `and` of the two bits
  and the upper the `or` (`Layer.bit_apply`): the 0-1 steps of `Proofs.Order.ZeroOne`.

The layers of the network are all of one kind, `Layer.blocks`: the same partners in each of a
row of equal blocks. The half-cleaner (`Layer.clean`) and the flip (`Layer.flip`) are the two
used, and their bits are `Cleaned` and `Flipped` (`Layer.clean_cleaned`, `Layer.flip_flipped`).
-/

set_option autoImplicit false

namespace OnnxFusion.Order

/-! ### Slots -/

/-- The slot the lower wire of a compare-exchange keeps: the other one when its key is
smaller. -/
def lowSlot (own other : Slot) : Slot := if other.1 < own.1 then other else own

/-- The slot the upper wire of a compare-exchange keeps: the other one when its own key is
smaller. -/
def highSlot (own other : Slot) : Slot := if own.1 < other.1 then other else own

/-- The bit of a slot at threshold `θ`: whether its key reaches `θ`. -/
def bit (θ : Lex (Int × Lex (Int × Int))) (s : Slot) : Bool := decide (θ ≤ floatRank s.1)

/-- The slot of the lanes left over: an infinite key and a position past every real one. -/
def padSlot : Slot := ((1 : Float) / 0, padPosition)

section Bits

variable {a b : Slot} (θ : Lex (Int × Lex (Int × Int)))

theorem bit_lowSlot (ha : a.1.isNaN = false) (hb : b.1.isNaN = false) :
    bit θ (lowSlot a b) = (bit θ a && bit θ b) := by
  unfold lowSlot
  rw [Bool.eq_iff_iff]
  split_ifs with h
  · rw [lt_iff_floatRank hb ha] at h
    simp only [bit, Bool.and_eq_true, decide_eq_true_eq]
    exact ⟨fun hθ => ⟨hθ.trans h.le, hθ⟩, And.right⟩
  · rw [lt_iff_floatRank hb ha, not_lt] at h
    simp only [bit, Bool.and_eq_true, decide_eq_true_eq]
    exact ⟨fun hθ => ⟨hθ, hθ.trans h⟩, And.left⟩

theorem bit_highSlot (ha : a.1.isNaN = false) (hb : b.1.isNaN = false) :
    bit θ (highSlot a b) = (bit θ a || bit θ b) := by
  unfold highSlot
  rw [Bool.eq_iff_iff]
  split_ifs with h
  · rw [lt_iff_floatRank ha hb] at h
    simp only [bit, Bool.or_eq_true, decide_eq_true_eq]
    exact ⟨Or.inr, fun hθ => hθ.elim (fun h' => h'.trans h.le) id⟩
  · rw [lt_iff_floatRank ha hb, not_lt] at h
    simp only [bit, Bool.or_eq_true, decide_eq_true_eq]
    exact ⟨Or.inl, fun hθ => hθ.elim id (fun h' => h'.trans h)⟩

end Bits

/-! ### Layers -/

/-- A layer of compare-exchanges on the first `N` wires: wire `w` meets wire `partner w`. -/
structure Layer (N : Nat) where
  partner : Nat → Nat
  partner_lt : ∀ w < N, partner w < N
  partner_partner : ∀ w < N, partner (partner w) = w

namespace Layer

variable {N : Nat} (L : Layer N) (W : Nat → Slot)

/-- The slots after a layer: of two met wires the lower keeps the smaller key. -/
def apply (w : Nat) : Slot :=
  if L.partner w < w then highSlot (W w) (W (L.partner w)) else lowSlot (W w) (W (L.partner w))

/-- A layer exchanges the slots of a pair when the upper one holds the smaller key. -/
def swaps (w : Nat) : Prop := (W (max w (L.partner w))).1 < (W (min w (L.partner w))).1

instance (w : Nat) : Decidable (L.swaps W w) := by unfold swaps; infer_instance

/-- The wire whose slot a layer brings to `w`. -/
def source (w : Nat) : Nat := if L.swaps W w then L.partner w else w

variable {L W}

theorem apply_eq_source (w : Nat) : L.apply W w = W (L.source W w) := by
  unfold apply source swaps highSlot lowSlot
  rcases lt_trichotomy (L.partner w) w with h | h | h
  · simp only [h, if_true, max_eq_left h.le, min_eq_right h.le]
    exact (apply_ite W _ _ _).symm
  · simp [h]
  · simp only [Nat.not_lt.2 h.le, if_false, max_eq_right h.le, min_eq_left h.le]
    exact (apply_ite W _ _ _).symm

theorem apply_of_partner_eq {w : Nat} (h : L.partner w = w) : L.apply W w = W w := by
  simp [apply, h, lowSlot]

/-- A layer reads only the first `N` wires to fill them. -/
theorem apply_congr {W' : Nat → Slot} (h : ∀ w < N, W w = W' w) {w : Nat} (hw : w < N) :
    L.apply W w = L.apply W' w := by
  rw [apply, apply, h w hw, h _ (L.partner_lt w hw)]

theorem swaps_partner {w : Nat} (hw : w < N) : L.swaps W (L.partner w) ↔ L.swaps W w := by
  unfold swaps
  rw [L.partner_partner w hw, max_comm, min_comm]

theorem source_lt {w : Nat} (hw : w < N) : L.source W w < N := by
  unfold source
  split_ifs
  exacts [L.partner_lt w hw, hw]

/-- Two wires never take their slots from one wire: the exchanges are of disjoint pairs. -/
theorem source_inj {a b : Nat} (ha : a < N) (hb : b < N) (h : L.source W a = L.source W b) :
    a = b := by
  unfold source at h
  by_cases sa : L.swaps W a <;> by_cases sb : L.swaps W b <;> simp only [sa, sb, if_true,
    if_false] at h
  · rw [← L.partner_partner a ha, h, L.partner_partner b hb]
  · -- `b` is the partner of `a`, so the pair is exchanged at both or at neither
    rw [← h, swaps_partner ha] at sb
    exact absurd sa sb
  · rw [h, swaps_partner hb] at sa
    exact absurd sb sa
  · exact h

end Layer

/-- A map of the first `N` wires into themselves, one to one, permutes them. -/
theorem range_map_perm {N : Nat} (σ : Nat → Nat) (hlt : ∀ w < N, σ w < N)
    (hinj : ∀ a < N, ∀ b < N, σ a = σ b → a = b) :
    ((List.range N).map σ).Perm (List.range N) := by
  have hnd : ((List.range N).map σ).Nodup :=
    List.Nodup.map_on (fun a ha b hb => hinj a (List.mem_range.1 ha) b (List.mem_range.1 hb))
      List.nodup_range
  refine (hnd.subperm fun w hw => ?_).perm_of_length_le (by simp)
  obtain ⟨v, hv, rfl⟩ := List.mem_map.1 hw
  exact List.mem_range.2 (hlt v (List.mem_range.1 hv))

namespace Layer

variable {N : Nat} {L : Layer N} {W : Nat → Slot}

/-- A layer moves the slots of the first `N` wires among them. -/
theorem perm : ((List.range N).map (L.apply W)).Perm ((List.range N).map W) := by
  have h : (List.range N).map (L.apply W) = ((List.range N).map (L.source W)).map W := by
    rw [List.map_map]
    exact List.map_congr_left fun w _ => apply_eq_source w
  rw [h]
  exact (range_map_perm _ (fun w hw => source_lt hw) fun a ha b hb => source_inj ha hb).map W

end Layer

/-- The first `N` wires hold numeric keys, and those from `n` on hold the pad. -/
def Padded (N n : Nat) (W : Nat → Slot) : Prop :=
  (∀ w < N, (W w).1.isNaN = false) ∧ ∀ w, n ≤ w → w < N → W w = padSlot

namespace Layer

variable {N n : Nat} {L : Layer N} {W : Nat → Slot}

/-- A layer leaves the pads where they are: no key is above the pad's. -/
theorem apply_padded (hW : Padded N n W) : Padded N n (L.apply W) := by
  refine ⟨fun w hw => ?_, fun w hnw hw => ?_⟩
  · rw [apply_eq_source]
    exact hW.1 _ (source_lt hw)
  · have hpad : (padSlot.1 : Float) = (1 : Float) / 0 := rfl
    have hkeep : ¬ L.swaps W w := by
      unfold swaps
      rcases lt_or_ge (L.partner w) w with h | h
      · rw [max_eq_left h.le, hW.2 w hnw hw, hpad]
        exact not_infinity_lt _
      · -- the partner is above a pad, so it is a pad too
        rw [max_eq_right h, hW.2 _ (by omega) (L.partner_lt w hw), hpad]
        exact not_infinity_lt _
    rw [apply_eq_source, source, if_neg hkeep, hW.2 w hnw hw]

/-- Read through a threshold, the lower wire of a pair takes the `and` of the two bits and the
upper wire the `or`. -/
theorem bit_apply (θ : Lex (Int × Lex (Int × Int))) (hW : ∀ w < N, (W w).1.isNaN = false)
    {w : Nat} (hw : w < N) :
    bit θ (L.apply W w) = if L.partner w < w then (bit θ (W w) || bit θ (W (L.partner w)))
      else (bit θ (W w) && bit θ (W (L.partner w))) := by
  have hp := hW _ (L.partner_lt w hw)
  unfold apply
  split_ifs
  · exact bit_highSlot θ (hW w hw) hp
  · exact bit_lowSlot θ (hW w hw) hp

end Layer

/-! ### Layers of blocks -/

/-- Offset `i` of each of the `k` blocks of `B` wires from `S` meets offset `f i` of its
block; the wires outside the blocks meet themselves. -/
def blockPartner (S B k : Nat) (f : Nat → Nat) (w : Nat) : Nat :=
  if S ≤ w ∧ w < S + k * B then S + (w - S) / B * B + f ((w - S) % B) else w

section BlockPartner

variable {S B k : Nat} {f : Nat → Nat}

theorem blockPartner_at {b i : Nat} (hb : b < k) (hi : i < B) :
    blockPartner S B k f (S + b * B + i) = S + b * B + f i := by
  have hkB : (b + 1) * B ≤ k * B := Nat.mul_le_mul_right B hb
  have hdiv : (b * B + i) / B = b := by
    rw [Nat.add_comm, Nat.add_mul_div_right _ _ (by omega), Nat.div_eq_of_lt hi, Nat.zero_add]
  have hmod : (b * B + i) % B = i := by rw [Nat.add_comm, Nat.add_mul_mod_self_right,
    Nat.mod_eq_of_lt hi]
  rw [blockPartner, if_pos (by rw [Nat.succ_mul] at hkB; omega), show S + b * B + i - S = b * B + i
    by omega, hdiv, hmod]

theorem blockPartner_out {w : Nat} (hw : ¬ (S ≤ w ∧ w < S + k * B)) :
    blockPartner S B k f w = w := if_neg hw

/-- Every wire of the blocks is an offset of one of them. -/
theorem exists_block {w : Nat} (hw : S ≤ w ∧ w < S + k * B) :
    ∃ b < k, ∃ i < B, w = S + b * B + i := by
  obtain ⟨hb, hi, he⟩ := block_of (S := S) (show w - S < k * B by omega)
  exact ⟨_, hb, _, hi, by omega⟩

end BlockPartner

namespace Layer

variable {N : Nat}

/-- The layer with the same partners in each of the `k` blocks of `B` wires from `S`. -/
def blocks (S B k : Nat) (f : Nat → Nat) (hf : ∀ i < B, f i < B ∧ f (f i) = i)
    (h : S + k * B ≤ N) : Layer N where
  partner := blockPartner S B k f
  partner_lt w hw := by
    by_cases hin : S ≤ w ∧ w < S + k * B
    · obtain ⟨b, hb, i, hi, rfl⟩ := exists_block hin
      rw [blockPartner_at hb hi]
      have := Nat.mul_le_mul_right B (Nat.succ_le_of_lt hb)
      rw [Nat.succ_mul] at this
      have := (hf i hi).1
      omega
    · rw [blockPartner_out hin]
      exact hw
  partner_partner w _ := by
    by_cases hin : S ≤ w ∧ w < S + k * B
    · obtain ⟨b, hb, i, hi, rfl⟩ := exists_block hin
      rw [blockPartner_at hb hi, blockPartner_at hb (hf i hi).1, (hf i hi).2]
    · rw [blockPartner_out hin, blockPartner_out hin]

/-- The half-cleaner's partner in a block of `2 H`: the offset `H` away. -/
def cleanOffset (H i : Nat) : Nat := if i < H then H + i else i - H

/-- The flip's partner in a block of `2 H`: the offset as far from the top. -/
def flipOffset (H i : Nat) : Nat := 2 * H - 1 - i

theorem cleanOffset_pairs (H : Nat) : ∀ i < 2 * H, cleanOffset H i < 2 * H ∧
    cleanOffset H (cleanOffset H i) = i := by
  intro i hi
  unfold cleanOffset
  split_ifs <;> omega

theorem flipOffset_pairs (H : Nat) : ∀ i < 2 * H, flipOffset H i < 2 * H ∧
    flipOffset H (flipOffset H i) = i := by
  intro i hi
  unfold flipOffset
  omega

/-- Half-cleaners on the `k` blocks of `2 H` wires from `S`. -/
def clean (S H k : Nat) (h : S + k * (2 * H) ≤ N) : Layer N :=
  blocks S (2 * H) k (cleanOffset H) (cleanOffset_pairs H) h

/-- Flips of the `k` blocks of `2 H` wires from `S`. -/
def flip (S H k : Nat) (h : S + k * (2 * H) ≤ N) : Layer N :=
  blocks S (2 * H) k (flipOffset H) (flipOffset_pairs H) h

variable {S H k : Nat} {h : S + k * (2 * H) ≤ N} {W : Nat → Slot}
  (θ : Lex (Int × Lex (Int × Int)))

/-- Through a threshold, a layer of half-cleaners cleans each of its blocks. -/
theorem clean_cleaned (hW : ∀ w < N, (W w).1.isNaN = false) {b : Nat} (hb : b < k) :
    Cleaned (fun w => bit θ (W w)) (fun w => bit θ ((clean S H k h).apply W w))
      (S + b * (2 * H)) H := by
  intro i hi
  have hkB := Nat.mul_le_mul_right (2 * H) (Nat.succ_le_of_lt hb)
  rw [Nat.succ_mul] at hkB
  have hlo : (clean S H k h).partner (S + b * (2 * H) + i) = S + b * (2 * H) + H + i := by
    simp only [clean, blocks, blockPartner_at hb (show i < 2 * H by omega), cleanOffset, if_pos hi]
    omega
  have hhi : (clean S H k h).partner (S + b * (2 * H) + H + i) = S + b * (2 * H) + i := by
    rw [show S + b * (2 * H) + H + i = S + b * (2 * H) + (H + i) by omega]
    simp only [clean, blocks, blockPartner_at hb (show H + i < 2 * H by omega), cleanOffset,
      if_neg (show ¬ H + i < H by omega)]
    omega
  constructor
  · dsimp only
    rw [bit_apply θ hW (by omega), hlo, if_neg (by omega)]
  · dsimp only
    rw [bit_apply θ hW (by omega), hhi, if_pos (by omega), Bool.or_comm]

/-- Through a threshold, a layer of flips flips each of its blocks. -/
theorem flip_flipped (hW : ∀ w < N, (W w).1.isNaN = false) {b : Nat} (hb : b < k) :
    Flipped (fun w => bit θ (W w)) (fun w => bit θ ((flip S H k h).apply W w))
      (S + b * (2 * H)) H := by
  intro i hi
  have hkB := Nat.mul_le_mul_right (2 * H) (Nat.succ_le_of_lt hb)
  rw [Nat.succ_mul] at hkB
  have hlo : (flip S H k h).partner (S + b * (2 * H) + i) = S + b * (2 * H) + (2 * H - 1 - i) := by
    simp only [flip, blocks, blockPartner_at hb (show i < 2 * H by omega), flipOffset]
  have hhi : (flip S H k h).partner (S + b * (2 * H) + (2 * H - 1 - i)) = S + b * (2 * H) + i := by
    simp only [flip, blocks, blockPartner_at hb (show 2 * H - 1 - i < 2 * H by omega), flipOffset]
    omega
  constructor
  · dsimp only
    rw [bit_apply θ hW (by omega), hlo, if_neg (by omega)]
  · dsimp only
    rw [bit_apply θ hW (by omega), hhi, if_pos (by omega), Bool.or_comm]

end Layer

/-! ### Runs of layers -/

namespace Layer

variable {N n : Nat}

/-- The slots after a run of layers, the first applied first. -/
def run (Ls : List (Layer N)) (W : Nat → Slot) : Nat → Slot :=
  Ls.foldl (fun W L => L.apply W) W

@[simp] theorem run_nil (W : Nat → Slot) : run ([] : List (Layer N)) W = W := rfl

@[simp] theorem run_cons (L : Layer N) (Ls : List (Layer N)) (W : Nat → Slot) :
    run (L :: Ls) W = run Ls (L.apply W) := rfl

/-- A wire that every layer of a run pairs with itself keeps its slot. -/
theorem run_of_partner_eq {Ls : List (Layer N)} {w : Nat} (h : ∀ L ∈ Ls, L.partner w = w)
    (W : Nat → Slot) : run Ls W w = W w := by
  induction Ls generalizing W with
  | nil => rfl
  | cons L Ls ih =>
    rw [run_cons, ih (fun L' hL' => h L' (List.mem_cons_of_mem L hL')),
      apply_of_partner_eq (h L List.mem_cons_self)]

@[simp] theorem run_append (Ls Ks : List (Layer N)) (W : Nat → Slot) :
    run (Ls ++ Ks) W = run Ks (run Ls W) := List.foldl_append

/-- A run of layers moves the slots of the first `N` wires among them. -/
theorem run_perm (Ls : List (Layer N)) (W : Nat → Slot) :
    ((List.range N).map (run Ls W)).Perm ((List.range N).map W) := by
  induction Ls generalizing W with
  | nil => exact List.Perm.refl _
  | cons L Ls ih => exact (ih (L.apply W)).trans perm

/-- A run of layers leaves the pads where they are. -/
theorem run_padded (Ls : List (Layer N)) {W : Nat → Slot} (hW : Padded N n W) :
    Padded N n (run Ls W) := by
  induction Ls generalizing W with
  | nil => exact hW
  | cons L Ls ih => exact ih (apply_padded hW)

end Layer

end OnnxFusion.Order

import OnnxFusion.Proofs.Order.Layers
/-!
# Merging stages, read through a threshold

A stage of the sorting network merges, in each of `m` groups of `2 ^ (e + 1)` wires, two
halves sorted before: a flip of each group, then half-cleaners of half-widths
`2 ^ (e - 1), …, 2, 1` over all the groups (`mergeLayers`). Read through any threshold, it
turns rising halves into rising groups (`mergeLayers_rising`). The proof follows the blocks:
the flip leaves two bitonic halves, the lower below the upper (`flip_merging`), and each
half-cleaner halves the blocks of that invariant (`Merging.clean`) until they are single
wires.

A stage touches only the wires of its groups (`mergeLayers_out`).
-/

set_option autoImplicit false

namespace OnnxFusion.Order

variable {N : Nat}

/-- The bits of the wires at threshold `θ`. -/
def bits (θ : Lex (Int × Lex (Int × Int))) (W : Nat → Slot) (w : Nat) : Bool := bit θ (W w)

/-- The half-widths `2 ^ (e - 1), …, 2, 1` of the half-cleaners that finish a merge whose
blocks are `2 ^ e` wires. -/
def powsBelow : Nat → List Nat
  | 0 => []
  | e + 1 => 2 ^ e :: powsBelow e

theorem two_pow_split {e i : Nat} (h : i ≤ e) : 2 ^ (e + 1) = 2 * 2 ^ i * 2 ^ (e - i) := by
  rw [Nat.mul_assoc, ← Nat.pow_add, ← Nat.pow_succ', Nat.add_sub_cancel' h]

/-- The half-cleaners of half-widths `Hs` over the `m` groups of `2 ^ (e + 1)` wires from
`S`. -/
def cleanLayers (S m e : Nat) (h : S + m * 2 ^ (e + 1) ≤ N) (Hs : List Nat) : List (Layer N) :=
  Hs.map fun H => Layer.clean S H (m * 2 ^ (e + 1) / (2 * H))
    (le_trans (Nat.add_le_add_left (Nat.div_mul_le_self _ _) S) h)

/-- The layers that merge the two sorted halves of each of the `m` groups of `2 ^ (e + 1)`
wires from `S`. -/
def mergeLayers (S m e : Nat) (h : S + m * 2 ^ (e + 1) ≤ N) : List (Layer N) :=
  Layer.flip S (2 ^ e) m (by rwa [← Nat.pow_succ']) :: cleanLayers S m e h (powsBelow e)

section Stage

variable (θ : Lex (Int × Lex (Int × Int))) {n : Nat} {W : Nat → Slot}

/-- A layer of half-cleaners over every group cleans the blocks inside each group. -/
theorem clean_cleaned_group {S H K : Nat} {h : S + K * (2 * H) ≤ N}
    (hW : ∀ w < N, (W w).1.isNaN = false) {g k G b : Nat} (hG : G = 2 * H * k)
    (hK : g * k + k ≤ K) (hb : b < k) :
    Cleaned (bits θ W) (bits θ ((Layer.clean S H K h).apply W)) (S + g * G + b * (2 * H)) H := by
  have e := Layer.clean_cleaned (h := h) θ hW (b := g * k + b) (by omega)
  rwa [show S + (g * k + b) * (2 * H) = S + g * G + b * (2 * H) by rw [hG]; ring] at e

/-- The half-cleaners of a merge take each group from blocks of `2 ^ i` to single wires. -/
theorem cleanLayers_rising {S m e : Nat} {h : S + m * 2 ^ (e + 1) ≤ N} :
    ∀ i ≤ e, ∀ W : Nat → Slot, Padded N n W →
      (∀ g < m, Merging (bits θ W) (S + g * 2 ^ (e + 1)) (2 ^ i) (2 ^ (e + 1 - i))) →
      ∀ g < m, Rising (bits θ (Layer.run (cleanLayers S m e h (powsBelow i)) W))
        (S + g * 2 ^ (e + 1)) (2 ^ (e + 1)) := by
  intro i
  induction i with
  | zero =>
    intro _ W _ hm g hg
    simpa [powsBelow, cleanLayers] using (hm g hg).rising
  | succ i ih =>
    intro hi W hW hm g hg
    -- the half-cleaner of half-width `2 ^ i` over all groups, with `2 ^ (e - i)` blocks each
    have hsplit := two_pow_split (show i ≤ e by omega)
    have hK : m * 2 ^ (e + 1) / (2 * 2 ^ i) = m * 2 ^ (e - i) := by
      rw [hsplit, ← Nat.mul_assoc, Nat.mul_comm m, Nat.mul_assoc, Nat.mul_div_cancel_left _
        (by positivity)]
    have hcount : 2 ^ (e + 1 - (i + 1)) = 2 ^ (e - i) := by
      rw [show e + 1 - (i + 1) = e - i by omega]
    have hcount' : 2 * 2 ^ (e - i) = 2 ^ (e + 1 - i) := by
      rw [← Nat.pow_succ']
      congr 1
      omega
    show Rising (bits θ (Layer.run (cleanLayers S m e h (powsBelow i))
      ((Layer.clean S (2 ^ i) (m * 2 ^ (e + 1) / (2 * 2 ^ i)) _).apply W))) _ _
    refine ih (by omega) _ (Layer.apply_padded hW) (fun g' hg' => ?_) g hg
    have hm' := hm g' hg'
    rw [show 2 ^ (i + 1) = 2 * 2 ^ i from Nat.pow_succ', hcount] at hm'
    rw [← hcount']
    refine hm'.clean fun b hb => ?_
    exact clean_cleaned_group θ hW.1 hsplit (by rw [hK]; nlinarith) hb

/-- A merging stage turns sorted halves into sorted groups. -/
theorem mergeLayers_rising {S m e : Nat} {h : S + m * 2 ^ (e + 1) ≤ N} (hW : Padded N n W)
    (hr : ∀ b < 2 * m, Rising (bits θ W) (S + b * 2 ^ e) (2 ^ e)) :
    ∀ g < m, Rising (bits θ (Layer.run (mergeLayers S m e h) W))
      (S + g * 2 ^ (e + 1)) (2 ^ (e + 1)) := by
  rw [mergeLayers, Layer.run_cons]
  refine cleanLayers_rising θ e le_rfl _ (Layer.apply_padded hW) fun g hg => ?_
  -- the flip makes each group a merge of two blocks of `2 ^ e`
  have hlo := hr (2 * g) (by omega)
  have hhi := hr (2 * g + 1) (by omega)
  have hflip := Layer.flip_flipped (h := by rwa [← Nat.pow_succ']) θ hW.1 hg
  have hgroup : S + g * (2 * 2 ^ e) = S + g * 2 ^ (e + 1) := by rw [← Nat.pow_succ']
  rw [hgroup] at hflip
  rw [show S + 2 * g * 2 ^ e = S + g * 2 ^ (e + 1) by rw [Nat.pow_succ']; ring] at hlo
  rw [show S + (2 * g + 1) * 2 ^ e = S + g * 2 ^ (e + 1) + 2 ^ e by rw [Nat.pow_succ']; ring]
    at hhi
  rw [Nat.add_sub_cancel_left, Nat.pow_one]
  exact flip_merging hlo hhi hflip

/-- The wires outside the groups of a merging stage keep their slots. -/
theorem mergeLayers_out {S m e : Nat} {h : S + m * 2 ^ (e + 1) ≤ N} {w : Nat}
    (hw : w < S ∨ S + m * 2 ^ (e + 1) ≤ w) :
    Layer.run (mergeLayers S m e h) W w = W w := by
  apply Layer.run_of_partner_eq
  intro L hL
  rcases List.mem_cons.1 hL with rfl | hL
  · exact blockPartner_out (by rw [show 2 * 2 ^ e = 2 ^ (e + 1) from Nat.pow_succ'.symm]; omega)
  · obtain ⟨H, -, rfl⟩ := List.mem_map.1 hL
    have := Nat.div_mul_le_self (m * 2 ^ (e + 1)) (2 * H)
    exact blockPartner_out (by omega)

end Stage

end OnnxFusion.Order

import Mathlib
/-!
# Merging 0-1 sequences with half-cleaners

The sorting network of `Order.argsortByNetwork` is analysed on sequences of bits, one bit per
wire (the 0-1 principle turns the result into one about keys). Here are the facts about bits.

A block of `n` wires from `P` is `Bitonic` when its ones fill an interval of offsets, or all
but one. Two steps of the network act on blocks:

* the *flip* of a block of `2 H` wires pairs wire `i` of the lower half with wire `2 H - 1 - i`,
  the lower wire taking the smaller bit (the `and`) and the upper the larger (the `or`);
* the *half-cleaner* pairs wire `i` with wire `H + i`, in the same way.

The flip of two rising halves (`flip_merge`) and the half-cleaner of a bitonic block
(`halfClean`) both leave two bitonic halves, every bit of the lower at most every bit of the
upper (`Below`). A rising lower and upper half so ordered make a rising block
(`rising_of_below`). `Keeps` says what later steps inside a block preserve of `Below`.
-/

set_option autoImplicit false

namespace OnnxFusion.Order

/-- The bit of offset `i` in the 0-1 indicator of the offsets `[a, b)`. -/
def ind (a b i : Nat) : Bool := decide (a ≤ i ∧ i < b)

/-- The `n` wires from `P` rise: no one stands before a zero. -/
def Rising (x : Nat → Bool) (P n : Nat) : Prop :=
  ∀ i j, i ≤ j → j < n → x (P + i) = true → x (P + j) = true

/-- The `n` wires from `P` are bitonic: their ones fill an interval of offsets, or all of the
block but one interval. -/
def Bitonic (x : Nat → Bool) (P n : Nat) : Prop :=
  ∃ a b, (∀ i < n, x (P + i) = ind a b i) ∨ (∀ i < n, x (P + i) = !ind a b i)

/-- Every bit of the `n` wires from `P` is at most every bit of the `n` wires from `Q`. -/
def Below (x : Nat → Bool) (P Q n : Nat) : Prop :=
  ∀ i < n, ∀ j < n, x (P + i) = true → x (Q + j) = true

/-- On the `n` wires from `P`, `y` has a one only if `x` had one, and all ones if `x` had. -/
def Keeps (x y : Nat → Bool) (P n : Nat) : Prop :=
  ((∃ i < n, y (P + i) = true) → ∃ i < n, x (P + i) = true) ∧
    ((∀ i < n, x (P + i) = true) → ∀ i < n, y (P + i) = true)

section Bits

variable {x y : Nat → Bool} {P Q n H : Nat}

theorem Bitonic.congr (h : ∀ i < n, y (Q + i) = x (P + i)) (hx : Bitonic x P n) :
    Bitonic y Q n := by
  obtain ⟨a, b, hab | hab⟩ := hx
  · exact ⟨a, b, .inl fun i hi => (h i hi).trans (hab i hi)⟩
  · exact ⟨a, b, .inr fun i hi => (h i hi).trans (hab i hi)⟩

theorem Rising.congr (h : ∀ i < n, y (P + i) = x (P + i)) (hx : Rising x P n) :
    Rising y P n := by
  intro i j hij hj hy
  rw [h j hj]
  exact hx i j hij hj (by rwa [← h i (by omega)])

/-- A single wire rises. -/
theorem rising_one : Rising x P 1 := by
  intro i j hij hj hi
  rwa [show j = i by omega]

/-- The complement of a bitonic block is bitonic. -/
theorem Bitonic.not (hx : Bitonic x P n) : Bitonic (fun w => !x w) P n := by
  obtain ⟨a, b, hab | hab⟩ := hx
  · exact ⟨a, b, .inr fun i hi => by show (!x (P + i)) = _; rw [hab i hi]⟩
  · exact ⟨a, b, .inl fun i hi => by show (!x (P + i)) = _; rw [hab i hi, Bool.not_not]⟩

/-- A rising block is zeros and then ones. -/
theorem Rising.exists_ind (hx : Rising x P n) : ∃ a, ∀ i < n, x (P + i) = ind a n i := by
  by_cases hone : ∃ i < n, x (P + i) = true
  · -- the first one marks where the ones start
    let a := Nat.find hone
    have ha : a < n ∧ x (P + a) = true := Nat.find_spec hone
    refine ⟨a, fun i hi => ?_⟩
    by_cases hai : a ≤ i
    · rw [hx a i hai hi ha.2]
      simp [ind, hai, hi]
    · have hnot : ¬ (i < n ∧ x (P + i) = true) := Nat.find_min hone (by omega)
      simp only [ind, hai, false_and, decide_false]
      simpa [hi] using hnot
  · refine ⟨n, fun i hi => ?_⟩
    simp only [not_exists, not_and, Bool.not_eq_true] at hone
    simp [ind, hone i hi, Nat.not_le.2 hi]

theorem Rising.bitonic (hx : Rising x P n) : Bitonic x P n := by
  obtain ⟨a, ha⟩ := hx.exists_ind
  exact ⟨a, n, .inl ha⟩

/-- A rising lower half below a rising upper half make a rising block. -/
theorem rising_of_below (h₁ : Rising x P H) (h₂ : Rising x (P + H) H)
    (hb : Below x P (P + H) H) : Rising x P (2 * H) := by
  intro i j hij hj hi
  by_cases hjH : j < H
  · exact h₁ i j hij hjH hi
  · have hj' : P + j = P + H + (j - H) := by omega
    rw [hj']
    by_cases hiH : i < H
    · exact hb i hiH (j - H) (by omega) hi
    · exact h₂ (i - H) (j - H) (by omega) (by omega) (by rwa [show P + H + (i - H) = P + i by omega])

theorem Below.keeps (hb : Below x P Q n) (hP : Keeps x y P n) (hQ : Keeps x y Q n) :
    Below y P Q n := by
  intro i hi j hj hy
  obtain ⟨i', hi', hx⟩ := hP.1 ⟨i, hi, hy⟩
  exact hQ.2 (fun j' hj' => hb i' hi' j' hj' hx) j hj

theorem Keeps.trans {z : Nat → Bool} (h₁ : Keeps x y P n) (h₂ : Keeps y z P n) :
    Keeps x z P n :=
  ⟨fun h => h₁.1 (h₂.1 h), fun h => h₂.2 (h₁.2 h)⟩

theorem Keeps.refl : Keeps x x P n := ⟨id, id⟩

end Bits

/-! ### The half-cleaner and the flip -/

section Steps

variable {x y : Nat → Bool} {P H : Nat}

/-- The half-cleaner of the indicator of `[a, b)` on `2 H` wires: both halves are bitonic and
the lower is below the upper. The witnesses follow where the interval lies against the middle. -/
theorem halfClean_ind (a b H : Nat) :
    Bitonic (fun i => ind a b i && ind a b (H + i)) 0 H ∧
      Bitonic (fun i => ind a b i || ind a b (H + i)) 0 H ∧
      ∀ i < H, ∀ j < H, (ind a b i && ind a b (H + i)) = true →
        (ind a b j || ind a b (H + j)) = true := by
  refine ⟨⟨a, b - H, .inl fun i _ => ?_⟩, ?_, ?_⟩
  · simp only [ind, Nat.zero_add]
    by_cases h1 : a ≤ i <;> by_cases h2 : i < b - H <;> simp [h1, h2] <;> omega
  · by_cases h1 : H ≤ a
    · exact ⟨a - H, b - H, .inl fun i _ => by
        simp only [ind, Nat.zero_add]
        by_cases h2 : a - H ≤ i <;> by_cases h3 : i < b - H <;> simp [h2, h3] <;> omega⟩
    by_cases h2 : b ≤ H
    · exact ⟨a, b, .inl fun i _ => by
        simp only [ind, Nat.zero_add]
        by_cases h3 : a ≤ i <;> by_cases h4 : i < b <;> simp [h3, h4] <;> omega⟩
    by_cases h3 : a ≤ b - H
    · exact ⟨0, H, .inl fun i hi => by
        simp only [ind, Nat.zero_add]
        by_cases h4 : a ≤ i <;> simp [h4, hi] <;> omega⟩
    · exact ⟨b - H, a, .inr fun i _ => by
        simp only [ind, Nat.zero_add]
        by_cases h4 : b - H ≤ i <;> by_cases h5 : i < a <;> simp [h4, h5] <;> omega⟩
  · intro i _ j _
    simp only [ind, Bool.and_eq_true, Bool.or_eq_true, decide_eq_true_eq]
    omega

/-- `y` is the half-cleaner of the `2 H` wires of `x` from `P`: wire `i` of the lower half is
paired with wire `i` of the upper, the lower taking the `and` and the upper the `or`. -/
def Cleaned (x y : Nat → Bool) (P H : Nat) : Prop :=
  ∀ i < H, y (P + i) = (x (P + i) && x (P + H + i)) ∧
    y (P + H + i) = (x (P + i) || x (P + H + i))

/-- The half-cleaner of a bitonic block leaves two bitonic halves, the lower below the upper. -/
theorem halfClean (hx : Bitonic x P (2 * H)) (hy : Cleaned x y P H) :
    Bitonic y P H ∧ Bitonic y (P + H) H ∧ Below y P (P + H) H := by
  obtain ⟨a, b, hab | hab⟩ := hx
  · -- ones on an interval: read the halves off the indicator
    have hlo : ∀ i < H, y (P + i) = (ind a b i && ind a b (H + i)) := fun i hi => by
      rw [(hy i hi).1, hab i (by omega), show P + H + i = P + (H + i) by omega, hab _ (by omega)]
    have hhi : ∀ i < H, y (P + H + i) = (ind a b i || ind a b (H + i)) := fun i hi => by
      rw [(hy i hi).2, hab i (by omega), show P + H + i = P + (H + i) by omega, hab _ (by omega)]
    obtain ⟨h₁, h₂, h₃⟩ := halfClean_ind a b H
    refine ⟨h₁.congr fun i hi => ?_, h₂.congr fun i hi => ?_, fun i hi j hj hyi => ?_⟩
    · rw [hlo i hi, Nat.zero_add]
    · rw [hhi i hi, Nat.zero_add]
    · rw [hhi j hj]
      exact h₃ i hi j hj (by rwa [← hlo i hi])
  · -- ones off an interval: the complement, whose halves trade places
    have hlo : ∀ i < H, y (P + i) = !(ind a b i || ind a b (H + i)) := fun i hi => by
      rw [(hy i hi).1, hab i (by omega), show P + H + i = P + (H + i) by omega, hab _ (by omega),
        Bool.not_or]
    have hhi : ∀ i < H, y (P + H + i) = !(ind a b i && ind a b (H + i)) := fun i hi => by
      rw [(hy i hi).2, hab i (by omega), show P + H + i = P + (H + i) by omega, hab _ (by omega),
        Bool.not_and]
    obtain ⟨h₁, h₂, h₃⟩ := halfClean_ind a b H
    refine ⟨h₂.not.congr fun i hi => ?_, h₁.not.congr fun i hi => ?_, fun i hi j hj hyi => ?_⟩
    · rw [hlo i hi, Nat.zero_add]
    · rw [hhi i hi, Nat.zero_add]
    · rw [hhi j hj, Bool.not_eq_true']
      by_contra hj'
      rw [hlo i hi] at hyi
      simp only [Bool.not_eq_false] at hj'
      simp [h₃ j hj i hi hj'] at hyi

/-- `y` is the flip of the `2 H` wires of `x` from `P`: wire `i` of the lower half is paired
with wire `2 H - 1 - i`, the lower taking the `and` and the upper the `or`. -/
def Flipped (x y : Nat → Bool) (P H : Nat) : Prop :=
  ∀ i < H, y (P + i) = (x (P + i) && x (P + (2 * H - 1 - i))) ∧
    y (P + (2 * H - 1 - i)) = (x (P + i) || x (P + (2 * H - 1 - i)))

/-- The flip of two rising halves leaves two bitonic halves, the lower below the upper. -/
theorem flip_merge (h₁ : Rising x P H) (h₂ : Rising x (P + H) H) (hy : Flipped x y P H) :
    Bitonic y P H ∧ Bitonic y (P + H) H ∧ Below y P (P + H) H := by
  obtain ⟨A, hA⟩ := h₁.exists_ind
  obtain ⟨B, hB⟩ := h₂.exists_ind
  -- the partner of lower wire `i` is wire `H - 1 - i` of the upper half
  have hpart : ∀ i < H, P + (2 * H - 1 - i) = P + H + (H - 1 - i) := fun i hi => by omega
  have hlo : ∀ i < H, y (P + i) = ind A (H - B) i := fun i hi => by
    rw [(hy i hi).1, hA i hi, hpart i hi, hB _ (by omega), Bool.eq_iff_iff]
    simp only [ind, Bool.and_eq_true, decide_eq_true_eq]
    omega
  have hhi : ∀ j < H, y (P + H + j) = !ind (H - A) B j := fun j hj => by
    have e := (hy (H - 1 - j) (by omega)).2
    rw [hpart _ (by omega), show H - 1 - (H - 1 - j) = j by omega] at e
    rw [e, hA _ (by omega), hB j hj, Bool.eq_iff_iff]
    simp only [ind, Bool.or_eq_true, Bool.not_eq_true', decide_eq_true_eq, decide_eq_false_iff_not]
    omega
  refine ⟨⟨A, H - B, .inl hlo⟩, ⟨H - A, B, .inr hhi⟩, fun i hi j hj hyi => ?_⟩
  rw [hlo i hi] at hyi
  rw [hhi j hj]
  simp only [ind, decide_eq_true_eq, Bool.not_eq_true', decide_eq_false_iff_not] at hyi ⊢
  omega

/-- Both steps keep the ones of their block. -/
theorem Cleaned.keeps (hy : Cleaned x y P H) : Keeps x y P (2 * H) := by
  refine ⟨fun ⟨i, hi, hyi⟩ => ?_, fun hall i hi => ?_⟩
  · by_cases hiH : i < H
    · rw [(hy i hiH).1, Bool.and_eq_true] at hyi
      exact ⟨i, by omega, hyi.1⟩
    · have e := (hy (i - H) (by omega)).2
      rw [show P + H + (i - H) = P + i by omega] at e
      rw [e, Bool.or_eq_true] at hyi
      rcases hyi with h | h
      · exact ⟨i - H, by omega, h⟩
      · exact ⟨i, hi, h⟩
  · by_cases hiH : i < H
    · rw [(hy i hiH).1, hall i hi, show P + H + i = P + (H + i) by omega, hall _ (by omega)]
      rfl
    · have e := (hy (i - H) (by omega)).2
      rw [show P + H + (i - H) = P + i by omega] at e
      rw [e, hall i hi, Bool.or_true]

theorem Flipped.keeps (hy : Flipped x y P H) : Keeps x y P (2 * H) := by
  refine ⟨fun ⟨i, hi, hyi⟩ => ?_, fun hall i hi => ?_⟩
  · by_cases hiH : i < H
    · rw [(hy i hiH).1, Bool.and_eq_true] at hyi
      exact ⟨i, by omega, hyi.1⟩
    · have e := (hy (2 * H - 1 - i) (by omega)).2
      rw [show 2 * H - 1 - (2 * H - 1 - i) = i by omega] at e
      rw [e, Bool.or_eq_true] at hyi
      rcases hyi with h | h
      · exact ⟨_, by omega, h⟩
      · exact ⟨i, hi, h⟩
  · by_cases hiH : i < H
    · rw [(hy i hiH).1, hall i hi, hall _ (by omega)]
      rfl
    · have e := (hy (2 * H - 1 - i) (by omega)).2
      rw [show 2 * H - 1 - (2 * H - 1 - i) = i by omega] at e
      rw [e, hall i hi, Bool.or_true]

end Steps

/-! ### Merging blocks -/

section Blocks

variable {x y : Nat → Bool} {S B H k : Nat}

/-- Offset `i` of the `k * B` wires from `S` is offset `i % B` of block `i / B`. -/
theorem block_of {i : Nat} (hi : i < k * B) :
    i / B < k ∧ i % B < B ∧ S + i = S + i / B * B + i % B := by
  have hB : 0 < B := Nat.pos_of_ne_zero (by rintro rfl; simp at hi)
  exact ⟨(Nat.div_lt_iff_lt_mul hB).2 hi, Nat.mod_lt i hB, by
    rw [Nat.add_assoc, Nat.div_add_mod']⟩

theorem Below.mono {P Q n a c m : Nat} (hb : Below x P Q n) (ha : a + m ≤ n) (hc : c + m ≤ n) :
    Below x (P + a) (Q + c) m := by
  intro i hi j hj h
  rw [Nat.add_assoc] at h ⊢
  exact hb (a + i) (by omega) (c + j) (by omega) h

/-- What every block keeps, their union keeps. -/
theorem Keeps.blocks (h : ∀ b < k, Keeps x y (S + b * B) B) : Keeps x y S (k * B) := by
  refine ⟨fun ⟨i, hi, hyi⟩ => ?_, fun hall i hi => ?_⟩
  · obtain ⟨hb, hr, he⟩ := block_of (S := S) hi
    rw [he] at hyi
    obtain ⟨j, hj, hxj⟩ := (h _ hb).1 ⟨i % B, hr, hyi⟩
    refine ⟨i / B * B + j, ?_, by rwa [← Nat.add_assoc]⟩
    have := Nat.mul_le_mul_right B (Nat.succ_le_of_lt hb)
    rw [Nat.succ_mul] at this
    omega
  · obtain ⟨hb, hr, he⟩ := block_of (S := S) hi
    rw [he]
    refine (h _ hb).2 (fun j hj => ?_) _ hr
    have := Nat.mul_le_mul_right B (Nat.succ_le_of_lt hb)
    rw [Nat.succ_mul] at this
    rw [Nat.add_assoc]
    exact hall _ (by omega)

/-- Rising blocks, each below every later one, make a rising run. -/
theorem rising_of_blocks (hr : ∀ b < k, Rising x (S + b * B) B)
    (hb : ∀ b c, b < c → c < k → Below x (S + b * B) (S + c * B) B) : Rising x S (k * B) := by
  intro i j hij hj hi
  obtain ⟨hbi, hri, hei⟩ := block_of (S := S) (show i < k * B by omega)
  obtain ⟨hbj, hrj, hej⟩ := block_of (S := S) hj
  rw [hei] at hi
  rw [hej]
  rcases Nat.lt_or_ge (i / B) (j / B) with hlt | hge
  · exact hb _ _ hlt hbj _ hri _ hrj hi
  · -- the same block: offsets inside it keep their order
    have hq : i / B = j / B := le_antisymm (Nat.div_le_div_right hij) hge
    rw [hq] at hi
    refine hr _ hbj _ _ ?_ hrj hi
    have := Nat.div_add_mod i B
    have := Nat.div_add_mod j B
    rw [hq] at *
    omega

/-- The `k` blocks of `B` wires from `S` are each bitonic and each below every later one: what
the half-cleaners of a merge keep, halving the blocks as they go. -/
def Merging (x : Nat → Bool) (S B k : Nat) : Prop :=
  (∀ b < k, Bitonic x (S + b * B) B) ∧ ∀ b c, b < c → c < k → Below x (S + b * B) (S + c * B) B

/-- A flip of two rising halves starts a merge. -/
theorem flip_merging (h₁ : Rising x S H) (h₂ : Rising x (S + H) H) (hy : Flipped x y S H) :
    Merging y S H 2 := by
  obtain ⟨hlo, hhi, hb⟩ := flip_merge h₁ h₂ hy
  refine ⟨fun b hb' => ?_, fun b c hbc hc => ?_⟩
  · rcases (show b = 0 ∨ b = 1 by omega) with rfl | rfl
    · simpa using hlo
    · simpa using hhi
  · obtain ⟨rfl, rfl⟩ : b = 0 ∧ c = 1 := by omega
    simpa using hb

/-- A layer of half-cleaners halves the blocks of a merge. -/
theorem Merging.clean (hx : Merging x S (2 * H) k)
    (hy : ∀ b < k, Cleaned x y (S + b * (2 * H)) H) : Merging y S H (2 * k) := by
  -- block `2 b + r` of `H` wires is half `r` of block `b` of `2 H` wires
  have hhalf : ∀ b r, S + (2 * b + r) * H = S + b * (2 * H) + r * H := fun b r => by ring
  refine ⟨fun c hc => ?_, fun c c' hcc hc' => ?_⟩
  · obtain ⟨b, rfl | rfl⟩ := Nat.even_or_odd' c
    · rw [show S + 2 * b * H = S + b * (2 * H) by ring]
      exact (halfClean (hx.1 b (by omega)) (hy b (by omega))).1
    · rw [hhalf b 1, Nat.one_mul]
      exact (halfClean (hx.1 b (by omega)) (hy b (by omega))).2.1
  · obtain ⟨b, hb⟩ := Nat.even_or_odd' c
    obtain ⟨b', hb'⟩ := Nat.even_or_odd' c'
    obtain ⟨r, hr, rfl⟩ : ∃ r < 2, c = 2 * b + r := by rcases hb with rfl | rfl <;> simp
    obtain ⟨r', hr', rfl⟩ : ∃ r < 2, c' = 2 * b' + r := by rcases hb' with rfl | rfl <;> simp
    rw [hhalf b r, hhalf b' r']
    rcases Nat.lt_or_ge b b' with hlt | hge
    · -- halves of two blocks: the blocks were ordered, and the cleaners kept what they hold
      have hk := fun b hb => (hy b hb).keeps
      have hbl := (hx.2 b b' hlt (by omega)).keeps (hk b (by omega)) (hk b' (by omega))
      exact hbl.mono (by interval_cases r <;> omega) (by interval_cases r' <;> omega)
    · -- the two halves of one block
      obtain ⟨rfl, rfl, rfl⟩ : b = b' ∧ r = 0 ∧ r' = 1 := by omega
      simpa using (halfClean (hx.1 b (by omega)) (hy b (by omega))).2.2

/-- A merge down to single wires has sorted its run. -/
theorem Merging.rising (hx : Merging x S 1 k) : Rising x S k := by
  intro i j hij hj hi
  rcases Nat.lt_or_eq_of_le hij with hlt | rfl
  · simpa using hx.2 i j hlt hj 0 Nat.one_pos 0 Nat.one_pos (by simpa using hi)
  · exact hi

/-- A merge whose blocks are each sorted in place, keeping their ones, has sorted its run. -/
theorem Merging.sorted (hx : Merging x S B k) (hr : ∀ b < k, Rising y (S + b * B) B)
    (hk : ∀ b < k, Keeps x y (S + b * B) B) : Rising y S (k * B) :=
  rising_of_blocks hr fun b c hbc hc => (hx.2 b c hbc hc).keeps (hk b (by omega)) (hk c hc)

end Blocks

end OnnxFusion.Order

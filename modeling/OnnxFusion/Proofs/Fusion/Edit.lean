import OnnxFusion.Fusion.Executor
import OnnxFusion.Proofs.Netlist.Links
/-!
# Running edits

An `Edit` runs on a netlist and ends with a result or a fault, and with the netlist as it
then stands: the tool edits its graph in place, so a fusion stopped by a fault keeps what it
had changed. `Edit.exec` gives both. This module reads runs step by step.

* `exec_lift`, `exec_get`, `exec_pure`, `exec_modify`, `exec_throw`, `exec_detach`, `exec_bind`,
  `exec_map`: what one step does. A step lifted from `Outcome` reads nothing and changes nothing;
  `detach` unlinks a tensor that was found and faults, changing nothing, on one that was not.
* `exec_bind_eq_ok` and the `_eq_ok` forms of the steps: a run that ends with a result ran
  each of its steps to a result. Together with `simp` they turn a successful run of a
  fusion's preparation into the list of what each step returned, ending in the netlist it
  leaves.
* `Edit.Keeps names x`: every run of `x`, ended by a result or by a fault, leaves a netlist
  `Unlinked` from the one it started on. Reading steps and `detach` keep it, and so does a
  bind of edits that keep it (`Keeps.bind`).
* `exec_ran_eq_ok`: a fusion followed by the report `true` ran to its end.
  `Executor.execute_eq_ok`: a replacement carried out to a result is the edit of the
  executor's netlist, which the executor then holds unless the replacement was declined.
* `exec_bind_eq_error`: when the rest of an edit cannot fault, the edit faults only where
  its first part faults, and leaves the netlist that part left.
-/

set_option autoImplicit false

namespace OnnxFusion

namespace Edit

variable {α β : Type}

/-! ### One step -/

@[simp] theorem exec_lift (o : Outcome α) (g : Netlist) : (liftM o : Edit α).exec g = (o, g) := by
  cases o <;> rfl

@[simp] theorem exec_get (g : Netlist) : (get : Edit Netlist).exec g = (.ok g, g) := rfl

@[simp] theorem exec_pure (a : α) (g : Netlist) : (pure a : Edit α).exec g = (.ok a, g) := rfl

@[simp] theorem exec_modify (f : Netlist → Netlist) (g : Netlist) :
    (modify f : Edit PUnit).exec g = (.ok (), f g) := rfl

@[simp] theorem exec_throw (e : Fault) (g : Netlist) : (throw e : Edit α).exec g = (.error e, g) :=
  rfl

theorem exec_detach (t? : Option Nat) (side : Side) (names : List String) (g : Netlist) :
    (Fusion.detach t? side names).exec g = match t? with
      | some t => (.ok t, Fusion.unlink g side t names)
      | none => (.error (.noAttribute "NoneType" side.attribute), g) := by
  cases t? <;> rfl

/-- A bound edit runs its first part, then, on a result, the rest from the netlist the first
part left; a fault of the first part ends the run there. -/
theorem exec_bind (x : Edit α) (f : α → Edit β) (g : Netlist) :
    (x >>= f).exec g = match x.exec g with
      | (.ok a, g') => (f a).exec g'
      | (.error e, g') => (.error e, g') := by
  show ((ExceptT.bind x f).run).run g = _
  simp only [ExceptT.bind, ExceptT.run, ExceptT.mk, ExceptT.bindCont, bind, StateT.bind,
    StateT.run, exec]
  generalize x g = p
  rcases p with ⟨_ | a, g'⟩ <;> rfl

/-- Mapping the result of an edit leaves its netlist as it is. -/
@[simp] theorem exec_map (f : α → β) (x : Edit α) (g : Netlist) :
    (f <$> x).exec g = ((x.exec g).1.map f, (x.exec g).2) := by
  show ((ExceptT.map f x).run).run g = _
  simp only [ExceptT.map, ExceptT.run, ExceptT.mk, bind, StateT.bind, StateT.run, exec]
  generalize x g = p
  rcases p with ⟨_ | a, g'⟩ <;> rfl

/-! ### Runs that end with a result -/

theorem exec_bind_eq_ok {x : Edit α} {f : α → Edit β} {g g'' : Netlist} {b : β} :
    (x >>= f).exec g = (.ok b, g'') ↔
      ∃ a g', x.exec g = (.ok a, g') ∧ (f a).exec g' = (.ok b, g'') := by
  rw [exec_bind]
  rcases x.exec g with ⟨e | a, g'⟩
  · simp
  · constructor
    · intro h
      exact ⟨a, g', rfl, h⟩
    · rintro ⟨a', g₁, h₁, h₂⟩
      simp only [Prod.mk.injEq, Except.ok.injEq] at h₁
      obtain ⟨rfl, rfl⟩ := h₁
      exact h₂

theorem exec_lift_eq_ok {o : Outcome α} {g g' : Netlist} {a : α} :
    (liftM o : Edit α).exec g = (.ok a, g') ↔ o = .ok a ∧ g = g' := by
  rw [exec_lift, Prod.mk.injEq]

theorem exec_get_eq_ok {g g' a : Netlist} :
    (get : Edit Netlist).exec g = (.ok a, g') ↔ g = a ∧ g = g' := by
  rw [exec_get, Prod.mk.injEq, Except.ok.injEq]

theorem exec_pure_eq_ok {a b : α} {g g' : Netlist} :
    (pure a : Edit α).exec g = (.ok b, g') ↔ a = b ∧ g = g' := by
  rw [exec_pure, Prod.mk.injEq, Except.ok.injEq]

theorem exec_detach_eq_ok {t? : Option Nat} {side : Side} {names : List String}
    {g g' : Netlist} {t : Nat} :
    (Fusion.detach t? side names).exec g = (.ok t, g') ↔
      t? = some t ∧ Fusion.unlink g side t names = g' := by
  rw [exec_detach]
  cases t? with
  | none => simp
  | some u =>
    simp only [Prod.mk.injEq, Except.ok.injEq, Option.some.injEq]
    constructor
    · rintro ⟨rfl, h⟩
      exact ⟨rfl, h⟩
    · rintro ⟨rfl, h⟩
      exact ⟨rfl, h⟩

/-- An edit that runs a fusion and then reports `true` reported `true` and ran the fusion to
its end. -/
theorem exec_ran_eq_ok {x : Edit Unit} {g g' : Netlist} {ok : Bool}
    (h : (x >>= fun _ => pure true).exec g = (.ok ok, g')) :
    ok = true ∧ ∃ u, x.exec g = (.ok u, g') := by
  obtain ⟨u, g₁, hx, hpure⟩ := exec_bind_eq_ok.1 h
  obtain ⟨rfl, rfl⟩ := exec_pure_eq_ok.1 hpure
  exact ⟨rfl, u, hx⟩

/-- When the rest of an edit cannot fault, the edit faults only where its first part does,
and then leaves what that part left. -/
theorem exec_bind_eq_error {x : Edit α} {f : α → Edit β} {g g' : Netlist} {e : Fault}
    (hf : ∀ a g₁, ∃ b g₂, (f a).exec g₁ = (.ok b, g₂))
    (h : (x >>= f).exec g = (.error e, g')) : x.exec g = (.error e, g') := by
  rw [exec_bind] at h
  rcases hxg : x.exec g with ⟨e' | a, g₁⟩ <;> rw [hxg] at h
  · simpa using h
  · obtain ⟨b, g₂, hb⟩ := hf a g₁
    simp [hb] at h

/-! ### Edits that only take links away -/

/-- Every run of `x`, ended by a result or by a fault, leaves a netlist that is the one it
started on with some links of the nodes named in `names` taken away. -/
def Keeps (names : List String) (x : Edit α) : Prop :=
  ∀ g, Netlist.Unlinked names g (x.exec g).2

variable {names : List String}

theorem Keeps.bind {x : Edit α} {f : α → Edit β} (hx : Keeps names x)
    (hf : ∀ a, Keeps names (f a)) : Keeps names (x >>= f) := by
  intro g
  rw [exec_bind]
  rcases hxg : x.exec g with ⟨e | a, g₁⟩
  · -- the first part faulted and its netlist is the last one
    simpa [hxg] using hx g
  · have h₁ : Netlist.Unlinked names g g₁ := by simpa [hxg] using hx g
    exact h₁.trans (hf a g₁)

@[simp] theorem keeps_lift (o : Outcome α) : Keeps names (liftM o : Edit α) := fun g => by
  simpa using Netlist.Unlinked.refl names g

@[simp] theorem keeps_get : Keeps names (get : Edit Netlist) := fun g => by
  simpa using Netlist.Unlinked.refl names g

@[simp] theorem keeps_pure (a : α) : Keeps names (pure a : Edit α) := fun g => by
  simpa using Netlist.Unlinked.refl names g

@[simp] theorem keeps_throw (e : Fault) : Keeps names (throw e : Edit α) := fun g => by
  simpa using Netlist.Unlinked.refl names g

@[simp] theorem keeps_map (f : α → β) (x : Edit α) : Keeps names (f <$> x) ↔ Keeps names x := by
  simp only [Keeps, exec_map]

@[simp] theorem keeps_detach (t? : Option Nat) (side : Side) :
    Keeps names (Fusion.detach t? side names) := fun g => by
  rw [exec_detach]
  cases t? with
  | none => exact Netlist.Unlinked.refl names g
  | some t => exact Netlist.unlink_unlinked g side t names

end Edit

namespace Executor

/-- A replacement the executor carried out to a result was edited into its netlist: declined,
the executor is as it was; carried out, it holds the netlist the edit left. -/
theorem execute_eq_ok {e e' : Executor} {G : Netlist} {r : Replacement} {ok : Bool}
    (hg : e.graph = some G) (h : e.execute r = .ok (e', ok)) :
    ∃ G', r.edit.exec G = (.ok ok, G') ∧ (ok = false → e' = e) ∧
      (ok = true → e'.graph = some G') := by
  unfold execute run at h
  rw [hg] at h
  dsimp only at h
  rcases hx : r.edit.exec G with ⟨f | ok', G'⟩ <;> rw [hx] at h
  · -- a fault is not a result
    simp at h
  · cases ok' <;> simp only [Except.ok.injEq, Prod.mk.injEq] at h <;> obtain ⟨rfl, rfl⟩ := h
    · exact ⟨G', rfl, fun _ => rfl, nofun⟩
    · exact ⟨G', rfl, nofun, fun _ => rfl⟩

end Executor

end OnnxFusion

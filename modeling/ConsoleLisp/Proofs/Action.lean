/-!
# Running actions

Actions on a heap, on a store and on a session are all functions of a state that give a result or
an error, and the state behind it. These lemmas run a composite action one part at a time.
-/

namespace ConsoleLisp

/-- Actions on a state `σ` that may end in an error `ε`. -/
abbrev Act (ε σ α : Type) := ExceptT ε (StateM σ) α

/-- Checks one after another have all passed. -/
theorem exists_of_except_bind {ε α β : Type} {x : Except ε α} {f : α → Except ε β} {b : β}
    (h : x >>= f = .ok b) : ∃ a, x = .ok a ∧ f a = .ok b := by
  cases x with
  | error e => cases h
  | ok a => exact ⟨a, rfl, h⟩

/-- A result that is there is what it is taken for. -/
theorem eq_ok_get_toOption {ε α : Type} {result : Except ε α}
    (h : result.toOption.isSome = true) : result = .ok (result.toOption.get h) := by
  cases result with
  | error e => cases h
  | ok a => rfl

namespace Act

variable {ε σ α β : Type}

theorem run_throw (e : ε) (s : σ) : (throw e : Act ε σ α) s = (.error e, s) := rfl

theorem run_get (s : σ) : (get : Act ε σ σ) s = (.ok s, s) := rfl

theorem run_modify (f : σ → σ) (s : σ) : (modify f : Act ε σ PUnit) s = (.ok ⟨⟩, f s) := rfl

/-- A sequence goes on from where its first part ends. -/
theorem run_bind (x : Act ε σ α) (f : α → Act ε σ β) (s : σ) :
    (x >>= f) s = match x s with
      | (.ok a, s') => f a s'
      | (.error e, s') => (.error e, s') := by
  show ExceptT.bindCont f (x s).1 (x s).2 = _
  rcases x s with ⟨_ | _, _⟩ <;> rfl

/-- A sequence of actions that leave the state alone does so too. -/
theorem run_bind_state {x : Act ε σ α} {f : α → Act ε σ β} {s : σ} (hx : (x s).2 = s)
    (hf : ∀ a, (f a s).2 = s) : ((x >>= f) s).2 = s := by
  rw [run_bind]
  rcases hrun : x s with ⟨_ | a, s'⟩
  · rwa [hrun] at hx
  · rw [hrun] at hx
    cases hx
    exact hf a

theorem run_bind_ok {x : Act ε σ α} {f : α → Act ε σ β} {s s' : σ} {a : α}
    (h : x s = (.ok a, s')) : (x >>= f) s = f a s' := by
  rw [run_bind, h]

theorem run_bind_error {x : Act ε σ α} {f : α → Act ε σ β} {s s' : σ} {e : ε}
    (h : x s = (.error e, s')) : (x >>= f) s = (.error e, s') := by
  rw [run_bind, h]

/-- A sequence that returns has been through both of its parts. -/
theorem exists_of_run_bind {x : Act ε σ α} {f : α → Act ε σ β} {s t : σ} {b : β}
    (h : (x >>= f) s = (.ok b, t)) : ∃ a s', x s = (.ok a, s') ∧ f a s' = (.ok b, t) := by
  rw [run_bind] at h
  rcases hx : x s with ⟨_ | a, s'⟩
  · rw [hx] at h
    cases h
  · rw [hx] at h
    exact ⟨a, s', rfl, h⟩

theorem run_map_ok {x : Act ε σ α} {f : α → β} {s s' : σ} {a : α}
    (h : x s = (.ok a, s')) : (f <$> x) s = (.ok (f a), s') := by
  show (x >>= fun a => pure (f a)) s = _
  rw [run_bind_ok h]
  rfl

theorem run_map_error {x : Act ε σ α} {f : α → β} {s s' : σ} {e : ε}
    (h : x s = (.error e, s')) : (f <$> x) s = (.error e, s') := by
  show (x >>= fun a => pure (f a)) s = _
  rw [run_bind_error h]

/-- What is made of a result leaves the state alone. -/
theorem run_map_state (x : Act ε σ α) (f : α → β) (s : σ) : ((f <$> x) s).2 = (x s).2 := by
  rcases hrun : x s with ⟨_ | a, s'⟩
  · rw [run_map_error hrun]
  · rw [run_map_ok hrun]

theorem run_map_congr {x y : Act ε σ α} {f : α → β} {s : σ} (h : x s = y s) :
    (f <$> x) s = (f <$> y) s := by
  show (x >>= fun a => pure (f a)) s = (y >>= fun a => pure (f a)) s
  rw [run_bind, run_bind, h]

end Act

/-! ## Relations across actions -/

section Across

variable {ε σ α β : Type}

/-- The relation holds across the action, however it ends. -/
def Across (R : σ → σ → Prop) (x : Act ε σ α) : Prop := ∀ s, R s (x s).2

namespace Across

variable {R : σ → σ → Prop} {f : α → Act ε σ β}

/-- It holds across what follows an action, if anything does. -/
theorem tail (hrefl : ∀ s, R s s) (x : Act ε σ α) (hf : ∀ a, Across R (f a)) (s : σ) :
    R (x s).2 ((x >>= f) s).2 := by
  rw [Act.run_bind]
  rcases x s with ⟨_ | a, s'⟩
  · exact hrefl s'
  · exact hf a s'

theorem bind (hrefl : ∀ s, R s s) (htrans : ∀ {s s' s''}, R s s' → R s' s'' → R s s'')
    {x : Act ε σ α} (hx : Across R x) (hf : ∀ a, Across R (f a)) : Across R (x >>= f) :=
  fun s => htrans (hx s) (tail hrefl x hf s)

end Across

end Across

end ConsoleLisp

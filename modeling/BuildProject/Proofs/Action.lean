/-!
# Running actions

Edits, actions on projects and actions on a workspace have one form: they take a state, answer or
fail, and leave a state either way. Here is what each part of such an action does when it is run,
and when an action keeps a property of the state (`Keeps`).
-/

namespace BuildProject

variable {ε ε' σ α β : Type}

/-! ## Steps that succeed -/

/-- Two steps succeed together if the first does and the second goes on from its answer. -/
theorem bind_eq_ok {first : Except ε α} {rest : α → Except ε β} {b : β} :
    first >>= rest = .ok b ↔ ∃ a, first = .ok a ∧ rest a = .ok b := by
  cases first with
  | error fault =>
    show Except.error fault = .ok b ↔ _
    simp
  | ok a =>
    show rest a = .ok b ↔ _
    simp

theorem map_eq_ok {f : α → β} {step : Except ε α} {b : β} :
    step.map f = .ok b ↔ ∃ a, step = .ok a ∧ f a = b := by
  cases step with
  | error fault =>
    show Except.error fault = .ok b ↔ _
    simp
  | ok a =>
    show Except.ok (f a) = .ok b ↔ _
    simp

theorem mapError_eq_ok {f : ε → ε'} {step : Except ε α} {a : α} :
    step.mapError f = .ok a ↔ step = .ok a := by
  cases step with
  | error fault =>
    show Except.error (f fault) = .ok a ↔ Except.error fault = .ok a
    simp
  | ok answer =>
    show Except.ok answer = .ok a ↔ Except.ok answer = .ok a
    simp

theorem toOption_eq_some {step : Except ε α} {a : α} :
    step.toOption = some a ↔ step = .ok a := by
  cases step with
  | error fault =>
    show none = some a ↔ Except.error fault = .ok a
    simp
  | ok answer =>
    show some answer = some a ↔ Except.ok answer = .ok a
    simp

theorem pure_eq_ok {a b : α} : (pure a : Except ε α) = .ok b ↔ a = b :=
  ⟨fun h => Except.ok.inj h, fun h => congrArg Except.ok h⟩

/-! ## Results -/

@[simp] theorem run_pure (a : α) (s : σ) :
    (pure a : ExceptT ε (StateM σ) α).run.run s = (.ok a, s) := rfl

@[simp] theorem run_throw (fault : ε) (s : σ) :
    (throw fault : ExceptT ε (StateM σ) α).run.run s = (.error fault, s) := rfl

@[simp] theorem run_get (s : σ) :
    (get : ExceptT ε (StateM σ) σ).run.run s = (.ok s, s) := rfl

@[simp] theorem run_modify (f : σ → σ) (s : σ) :
    (modify f : ExceptT ε (StateM σ) PUnit).run.run s = (.ok ⟨⟩, f s) := rfl

/-- An action goes on with the answer of its first part. -/
theorem run_bind_ok {first : ExceptT ε (StateM σ) α} {rest : α → ExceptT ε (StateM σ) β}
    {s s' : σ} {a : α} (h : first.run.run s = (.ok a, s')) :
    (first >>= rest).run.run s = (rest a).run.run s' := by
  show (first s >>= fun (answer, s') => ExceptT.bindCont rest answer s') = _
  have hfirst : first s = (.ok a, s') := h
  rw [hfirst]
  rfl

/-- An action ends with the fault of its first part. -/
theorem run_bind_error {first : ExceptT ε (StateM σ) α} {rest : α → ExceptT ε (StateM σ) β}
    {s s' : σ} {fault : ε} (h : first.run.run s = (.error fault, s')) :
    (first >>= rest).run.run s = (.error fault, s') := by
  show (first s >>= fun (answer, s') => ExceptT.bindCont rest answer s') = _
  have hfirst : first s = (.error fault, s') := h
  rw [hfirst]
  rfl

/-- Two parts of an action answer together if the first does and the second goes on from its answer
and from the state that it leaves. -/
theorem run_bind_eq_ok {first : ExceptT ε (StateM σ) α} {rest : α → ExceptT ε (StateM σ) β}
    {s t : σ} {b : β} : (first >>= rest).run.run s = (.ok b, t) ↔
      ∃ a s', first.run.run s = (.ok a, s') ∧ (rest a).run.run s' = (.ok b, t) := by
  cases hrun : first.run.run s with
  | mk answer s' =>
    cases answer with
    | ok a =>
      rw [run_bind_ok hrun]
      constructor
      · exact fun h => ⟨a, s', rfl, h⟩
      · rintro ⟨a', t', heq, h⟩
        obtain ⟨ha, rfl⟩ := Prod.mk.inj heq
        exact Except.ok.inj ha ▸ h
    | error fault =>
      rw [run_bind_error hrun]
      constructor
      · exact fun h => absurd (Prod.mk.inj h).1 (by simp)
      · rintro ⟨a', t', heq, -⟩
        exact absurd (Prod.mk.inj heq).1 (by simp)

/-- An action that starts by looking at the state. -/
theorem run_get_bind (rest : σ → ExceptT ε (StateM σ) β) (s : σ) :
    (get >>= rest).run.run s = (rest s).run.run s :=
  run_bind_ok (run_get s)

/-- What an action answers in the end does not matter for the state it leaves. -/
theorem run_bind_pure_state (action : ExceptT ε (StateM σ) α) (f : α → β) (s : σ) :
    ((action >>= fun a => pure (f a)).run.run s).2 = (action.run.run s).2 := by
  cases hrun : action.run.run s with
  | mk answer s' =>
    cases answer with
    | ok a =>
      rw [run_bind_ok hrun]
      rfl
    | error fault => rw [run_bind_error hrun]

/-- Where the answer is known, what is left need not be computed. -/
theorem exists_run_eq {outcome : Except ε α × σ} {answer : Except ε α} (h : outcome.1 = answer) :
    ∃ s, outcome = (answer, s) :=
  ⟨outcome.2, Prod.ext h rfl⟩

/-! ## Kept properties -/

/-- An action keeps a property of the state, whether it answers or fails. -/
def Keeps (P : σ → Prop) (action : ExceptT ε (StateM σ) α) : Prop :=
  ∀ s, P s → P (action.run.run s).2

variable {P : σ → Prop}

theorem keeps_pure (a : α) : Keeps P (pure a : ExceptT ε (StateM σ) α) :=
  fun _ h => h

theorem keeps_throw (fault : ε) : Keeps P (throw fault : ExceptT ε (StateM σ) α) :=
  fun _ h => h

theorem keeps_get : Keeps P (get : ExceptT ε (StateM σ) σ) :=
  fun _ h => h

/-- Two actions one after the other keep what both keep. -/
theorem keeps_bind {first : ExceptT ε (StateM σ) α} {rest : α → ExceptT ε (StateM σ) β}
    (hfirst : Keeps P first) (hrest : ∀ a, Keeps P (rest a)) : Keeps P (first >>= rest) := by
  intro s h
  have hkept := hfirst s h
  cases hrun : first.run.run s with
  | mk answer s' =>
    rw [hrun] at hkept
    cases answer with
    | ok a =>
      rw [run_bind_ok hrun]
      exact hrest a s' hkept
    | error fault =>
      rw [run_bind_error hrun]
      exact hkept

end BuildProject

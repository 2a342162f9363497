import Mathlib

/-! Loops that stop at the first failure and keep the state they had reached
by then, with the rules for what holds after any stop and after a full pass. -/
namespace Attempt

variable {σ ε α : Type}

/-- The state a computation leaves behind, failed or not. -/
def final : Except (ε × σ) σ → σ
  | .ok s => s
  | .error (_, s) => s

theorem eq_ok_final {x : Except (ε × σ) σ} (h : x.isOk = true) : x = .ok (final x) := by
  cases x with
  | ok s => rfl
  | error e => cases h

theorem eq_error_final {x : Except (ε × σ) σ} (h : x.isOk = false) :
    ∃ e, x = .error (e, final x) := by
  cases x with
  | ok s => cases h
  | error e => exact ⟨e.1, rfl⟩

theorem final_bind {inv : σ → Prop} {x : Except (ε × σ) σ} {f : σ → Except (ε × σ) σ}
    (h : inv (final x)) (next : ∀ s, inv s → inv (final (f s))) : inv (final (x >>= f)) := by
  cases x with
  | ok s => exact next s h
  | error e => exact h

/-- An invariant of every step survives a stop anywhere in the loop. -/
theorem final_foldlM {inv : σ → Prop} {f : σ → α → Except (ε × σ) σ} {l : List α}
    (step : ∀ s, ∀ x ∈ l, inv s → inv (final (f s x))) {s : σ} (h : inv s) :
    inv (final (l.foldlM f s)) := by
  induction l generalizing s with
  | nil => exact h
  | cons x l ih =>
    rw [List.foldlM_cons]
    apply final_bind (step s x List.mem_cons_self h)
    intro s' h'
    exact ih (fun t y hy => step t y (List.mem_cons_of_mem x hy)) h'

theorem bind_ok {x : Except (ε × σ) σ} {f : σ → Except (ε × σ) σ} {t : σ}
    (h : x >>= f = .ok t) : ∃ s, x = .ok s ∧ f s = .ok t := by
  cases x with
  | ok s => exact ⟨s, rfl, h⟩
  | error e => cases h

/-- After a pass without failure every element has had its effect, where an
effect once there stays. -/
theorem foldlM_ok (effect : α → σ → Prop) {inv : σ → Prop} {f : σ → α → Except (ε × σ) σ}
    {l : List α}
    (step : ∀ s, ∀ x ∈ l, ∀ t, inv s → f s x = .ok t →
      inv t ∧ effect x t ∧ ∀ y, effect y s → effect y t)
    {s t : σ} (h : inv s) (ok : l.foldlM f s = .ok t) :
    (∀ x ∈ l, effect x t) ∧ ∀ y, effect y s → effect y t := by
  induction l generalizing s with
  | nil =>
    cases ok
    exact ⟨by simp, fun _ hy => hy⟩
  | cons x l ih =>
    rw [List.foldlM_cons] at ok
    obtain ⟨u, hu, ok⟩ := bind_ok ok
    obtain ⟨hinv, now, stays⟩ := step s x List.mem_cons_self u h hu
    obtain ⟨rest, kept⟩ := ih (fun t y hy => step t y (List.mem_cons_of_mem x hy)) hinv ok
    constructor
    · intro y hy
      cases hy with
      | head => exact kept x now
      | tail _ hy => exact rest y hy
    · intro y hy
      exact kept y (stays y hy)

/-- What every step adds to a counter adds up. -/
theorem foldlM_count (count : σ → Nat) (add : α → Nat) {inv : σ → Prop}
    {f : σ → α → Except (ε × σ) σ} {l : List α}
    (step : ∀ s, ∀ x ∈ l, ∀ t, inv s → f s x = .ok t → inv t ∧ count t = count s + add x)
    {s t : σ} (h : inv s) (ok : l.foldlM f s = .ok t) : count t = count s + (l.map add).sum := by
  induction l generalizing s with
  | nil => cases ok; simp
  | cons x l ih =>
    rw [List.foldlM_cons] at ok
    obtain ⟨u, hu, ok⟩ := bind_ok ok
    obtain ⟨hinv, hc⟩ := step s x List.mem_cons_self u h hu
    rw [ih (fun t y hy => step t y (List.mem_cons_of_mem x hy)) hinv ok, hc, List.map_cons,
      List.sum_cons]
    omega

/-- How a computation may end: with `good` on success, with `bad` at a failure. -/
def Ends (good bad : σ → Prop) : Except (ε × σ) σ → Prop
  | .ok s => good s
  | .error (_, s) => bad s

theorem Ends.imp {good good' bad bad' : σ → Prop} {x : Except (ε × σ) σ} (h : Ends good bad x)
    (hg : ∀ s, good s → good' s) (hb : ∀ s, bad s → bad' s) : Ends good' bad' x := by
  cases x with
  | ok s => exact hg s h
  | error e => exact hb e.2 h

theorem Ends.final {good bad : σ → Prop} {x : Except (ε × σ) σ} (h : Ends good bad x) :
    good (final x) ∨ bad (final x) := by
  cases x with
  | ok s => exact .inl h
  | error e => exact .inr h

theorem Ends.bind {good mid bad : σ → Prop} {x : Except (ε × σ) σ} {f : σ → Except (ε × σ) σ}
    (h : Ends mid bad x) (next : ∀ s, mid s → Ends good bad (f s)) : Ends good bad (x >>= f) := by
  cases x with
  | ok s => exact next s h
  | error e => exact h

/-- The rule of a loop whose invariant speaks of the elements still to come. -/
theorem Ends.foldlM (inv : List α → σ → Prop) {bad : σ → Prop} {f : σ → α → Except (ε × σ) σ}
    (step : ∀ x rest s, inv (x :: rest) s → Ends (inv rest) bad (f s x)) {l : List α} {s : σ}
    (h : inv l s) : Ends (inv []) bad (l.foldlM f s) := by
  induction l generalizing s with
  | nil => exact h
  | cons x l ih =>
    rw [List.foldlM_cons]
    exact (step x l s h).bind fun _ => ih

end Attempt

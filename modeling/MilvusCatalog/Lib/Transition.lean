import Mathlib

/-! Labelled transition systems: an executable step, a condition on which steps
the environment takes, and the induction rules for reachable states and runs. -/
namespace Transition

variable {S A : Type}

/-- A step whose label the condition allows in the state before it. -/
def Next (exec : S → A → Option S) (allowed : S → A → Prop) (s t : S) : Prop :=
  ∃ a, allowed s a ∧ exec s a = some t

inductive Reachable (start : S → Prop) (next : S → S → Prop) : S → Prop
  | start {s : S} : start s → Reachable start next s
  | step {s t : S} : Reachable start next s → next s t → Reachable start next t

section
variable {exec : S → A → Option S} {allowed allowed' : S → A → Prop} {start start' : S → Prop}

/-- What holds at the start and along every allowed step holds everywhere. -/
theorem Reachable.invariant {inv : S → Prop} (initial : ∀ s, start s → inv s)
    (preserved : ∀ s a t, inv s → allowed s a → exec s a = some t → inv t) {s : S}
    (h : Reachable start (Next exec allowed) s) : inv s := by
  induction h with
  | start h => exact initial _ h
  | step _ next ih =>
    obtain ⟨a, ha, step⟩ := next
    exact preserved _ a _ ih ha step

theorem Reachable.mono (starts : ∀ s, start s → start' s)
    (weaker : ∀ s a, allowed s a → allowed' s a) {s : S}
    (h : Reachable start (Next exec allowed) s) : Reachable start' (Next exec allowed') s := by
  induction h with
  | start h => exact .start (starts _ h)
  | step _ next ih =>
    obtain ⟨a, ha, step⟩ := next
    exact .step ih ⟨a, weaker _ a ha, step⟩

end

/-- Execute a list of labels, checking the condition before each. -/
def execute (exec : S → A → Option S) (allowed : S → A → Bool) : S → List A → Option S
  | s, [] => some s
  | s, a :: as =>
    if allowed s a then (exec s a).bind fun t => execute exec allowed t as else none

theorem reachable_of_execute {exec : S → A → Option S} {allowed : S → A → Bool} {as : List A}
    {s t : S} (h : execute exec allowed s as = some t) :
    Reachable (· = s) (Next exec fun s a => allowed s a = true) t := by
  have go : ∀ (as : List A) (u : S), Reachable (· = s) (Next exec fun s a => allowed s a = true) u →
      execute exec allowed u as = some t →
      Reachable (· = s) (Next exec fun s a => allowed s a = true) t := by
    intro as
    induction as with
    | nil => intro u hu h; exact Option.some.inj h ▸ hu
    | cons a as ih =>
      intro u hu h
      simp only [execute] at h
      split at h
      · next ha =>
        obtain ⟨v, hv, h⟩ := Option.bind_eq_some_iff.mp h
        exact ih v (.step hu ⟨a, ha, hv⟩) h
      · cases h
  exact go as s (.start rfl) h

/-- An infinite run; a finite one is continued by steps that change nothing. -/
structure Run (exec : S → A → Option S) (allowed : S → A → Prop) where
  state : Nat → S
  action : Nat → A
  permitted : ∀ t, allowed (state t) (action t)
  step : ∀ t, exec (state t) (action t) = some (state (t + 1))

theorem Run.keeps {exec : S → A → Option S} {allowed : S → A → Prop} (run : Run exec allowed)
    (inv : S → Prop) {t u : Nat} (htu : t ≤ u)
    (preserved : ∀ i, t ≤ i → i < u → inv (run.state i) → inv (run.state (i + 1)))
    (h : inv (run.state t)) : inv (run.state u) := by
  induction htu with
  | refl => exact h
  | @step u htu ih =>
    exact preserved u htu (Nat.lt_succ_self u)
      (ih fun i hi hu => preserved i hi (Nat.lt_succ_of_lt hu))

/-- A run from a reachable state stays among the reachable ones. -/
theorem Run.reachable {exec : S → A → Option S} {allowed allowed' : S → A → Prop}
    {start : S → Prop} (run : Run exec allowed) (weaker : ∀ s a, allowed s a → allowed' s a)
    (h : Reachable start (Next exec allowed') (run.state 0)) (t : Nat) :
    Reachable start (Next exec allowed') (run.state t) := by
  induction t with
  | zero => exact h
  | succ t ih => exact .step ih ⟨run.action t, weaker _ _ (run.permitted t), run.step t⟩

/-- The run from time `T` on. -/
def Run.shift {exec : S → A → Option S} {allowed : S → A → Prop} (run : Run exec allowed)
    (T : Nat) : Run exec allowed where
  state t := run.state (T + t)
  action t := run.action (T + t)
  permitted t := run.permitted (T + t)
  step t := run.step (T + t)

/-- A run with one step more before it. -/
theorem Run.exists_cons {exec : S → A → Option S} {allowed : S → A → Prop} (run : Run exec allowed)
    {s : S} {a : A} (permitted : allowed s a) (step : exec s a = some (run.state 0)) :
    ∃ longer : Run exec allowed, longer.state 0 = s ∧ longer.action 0 = a ∧
      ∀ t, longer.action (t + 1) = run.action t := by
  refine ⟨⟨fun t => Nat.casesOn t s run.state, fun t => Nat.casesOn t a run.action, ?_, ?_⟩, rfl,
    rfl, fun _ => rfl⟩
  · intro t
    cases t with
    | zero => exact permitted
    | succ t => exact run.permitted t
  · intro t
    cases t with
    | zero => exact step
    | succ t => exact run.step t

/-- The states along a sequence of labels. -/
def along (exec : S → A → Option S) (act : Nat → A) (s : S) : Nat → S
  | 0 => s
  | t + 1 => (exec (along exec act s t) (act t)).getD s

/-- The run along a sequence of labels that are all possible. -/
def Run.along {exec : S → A → Option S} {allowed : S → A → Prop} (act : Nat → A) (s : S)
    (next : ∀ t, allowed (Transition.along exec act s t) (act t) ∧
      (exec (Transition.along exec act s t) (act t)).isSome) : Run exec allowed where
  state := Transition.along exec act s
  action := act
  permitted t := (next t).1
  step t := by
    obtain ⟨v, step⟩ := Option.isSome_iff_exists.mp (next t).2
    rw [Transition.along, step, Option.getD_some]

/-- The states along a list of labels, and then along one label over and over. -/
def padded (exec : S → A → Option S) (pad : A) (as : List A) (s : S) : Nat → S :=
  along exec (fun t => as[t]?.getD pad) s

section
variable {exec : S → A → Option S} {allowed : S → A → Bool} {pad : A} {as : List A} {s u : S}

theorem padded_execute (h : execute exec allowed s as = some u) (pad : A) {t : Nat}
    (ht : t ≤ as.length) :
    execute exec allowed (padded exec pad as s t) (as.drop t) = some u := by
  induction t with
  | zero => exact h
  | succ t ih =>
    have before := ih (by omega)
    rw [List.drop_eq_getElem_cons (by omega), execute] at before
    split at before
    · obtain ⟨v, step, rest⟩ := Option.bind_eq_some_iff.mp before
      rw [padded, along, List.getElem?_eq_getElem (by omega), Option.getD_some]
      rw [padded] at step
      rwa [step]
    · cases before

theorem padded_length (h : execute exec allowed s as = some u) (pad : A) :
    padded exec pad as s as.length = u := by
  have ended := padded_execute h pad (Nat.le_refl as.length)
  rw [List.drop_length, execute] at ended
  exact Option.some.inj ended

/-- A finite run, continued by a label that is always possible. -/
def Run.padded (h : execute exec allowed s as = some u)
    (always : ∀ s, allowed s pad = true ∧ (exec s pad).isSome) :
    Run exec fun s a => allowed s a = true :=
  .along (fun t => as[t]?.getD pad) s fun t => by
    by_cases ht : t < as.length
    · have before := padded_execute h pad (Nat.le_of_lt ht)
      rw [List.drop_eq_getElem_cons ht, execute] at before
      rw [List.getElem?_eq_getElem ht, Option.getD_some]
      split at before
      · next ok =>
        obtain ⟨v, step, -⟩ := Option.bind_eq_some_iff.mp before
        exact ⟨ok, Option.isSome_iff_exists.mpr ⟨v, step⟩⟩
      · cases before
    · rw [List.getElem?_eq_none (by omega), Option.getD_none]
      exact always _

end

/-- A rank that every step of one party lowers and that no other step changes, when
the party keeps taking steps, leads to the goal. -/
theorem Run.eventually {exec : S → A → Option S} {allowed : S → A → Prop} {ι : Type} [Preorder ι]
    [WellFoundedLT ι] (run : Run exec allowed) {goal : S → Prop} {mine : A → Prop} (rank : S → ι)
    (others : ∀ t, ¬ mine (run.action t) → rank (run.state (t + 1)) = rank (run.state t))
    (drops : ∀ t, mine (run.action t) → rank (run.state (t + 1)) < rank (run.state t))
    (fair : ∀ t, ¬ goal (run.state t) → ∃ n, mine (run.action (t + n))) (t : Nat) :
    ∃ u, t ≤ u ∧ goal (run.state u) := by
  generalize level : rank (run.state t) = i
  induction i using WellFoundedLT.induction generalizing t with
  | ind i ih =>
    by_cases reached : goal (run.state t)
    · exact ⟨t, Nat.le_refl t, reached⟩
    obtain ⟨n, acts⟩ := fair t reached
    -- Up to its next step the rank stays, and there it falls.
    induction n generalizing t with
    | zero =>
      obtain ⟨u, later, h⟩ := ih _ (level ▸ drops t acts) (t + 1) rfl
      exact ⟨u, by omega, h⟩
    | succ n next =>
      by_cases now : mine (run.action t)
      · obtain ⟨u, later, h⟩ := ih _ (level ▸ drops t now) (t + 1) rfl
        exact ⟨u, by omega, h⟩
      by_cases reached' : goal (run.state (t + 1))
      · exact ⟨t + 1, by omega, reached'⟩
      · obtain ⟨u, later, h⟩ := next (t + 1) ((others t now).trans level) reached'
          (by rwa [Nat.add_assoc, Nat.add_comm 1])
        exact ⟨u, by omega, h⟩

/-- What lowers a number that nothing raises happens only finitely often. -/
theorem eventually_never (rank : Nat → Nat) {P : Nat → Prop}
    (falls : ∀ t, rank (t + 1) ≤ rank t) (drops : ∀ t, P t → rank (t + 1) < rank t) :
    ∃ T, ∀ t, T ≤ t → ¬ P t := by
  obtain ⟨T, constant⟩ := WellFoundedLT.antitone_chain_condition (antitone_nat_of_succ_le falls)
  refine ⟨T, fun t later happens => ?_⟩
  have before : rank T = rank t := constant t later
  have after : rank T = rank (t + 1) := constant (t + 1) (by omega)
  have := drops t happens
  omega

/-- Finitely many properties that each hold from some time on hold together. -/
theorem eventually_all {n : Nat} {P : Nat → Nat → Prop}
    (h : ∀ i < n, ∃ T, ∀ t, T ≤ t → P i t) : ∃ T, ∀ i < n, ∀ t, T ≤ t → P i t := by
  choose! T hT using h
  refine ⟨(Finset.range n).sup T, fun i hi t ht => hT i hi t ?_⟩
  exact (Finset.le_sup (Finset.mem_range.mpr hi)).trans ht

section
variable {exec : S → A → Option S} {allowed : S → A → Prop} {goal : S → Prop} {s : S}

/-- Whatever labels the environment picks among those allowed, every step is
possible and a state with `goal` is reached. -/
inductive Surely (exec : S → A → Option S) (allowed : S → A → Prop) (goal : S → Prop) : S → Prop
  | now {s : S} (reached : goal s) : Surely exec allowed goal s
  | later {s : S} (runs : ∀ a, allowed s a → ∃ t, exec s a = some t)
      (next : ∀ a t, allowed s a → exec s a = some t → Surely exec allowed goal t) :
      Surely exec allowed goal s

theorem Surely.step
    (next : ∀ a, allowed s a → ∃ t, exec s a = some t ∧ Surely exec allowed goal t) :
    Surely exec allowed goal s := by
  apply Surely.later
  · intro a ha
    obtain ⟨t, step, -⟩ := next a ha
    exact ⟨t, step⟩
  · intro a t ha step
    obtain ⟨t', step', h⟩ := next a ha
    rw [step] at step'
    exact Option.some.inj step' ▸ h

theorem Surely.bind {mid : S → Prop} (h : Surely exec allowed mid s)
    (onward : ∀ t, mid t → Surely exec allowed goal t) : Surely exec allowed goal s := by
  induction h with
  | now reached => exact onward _ reached
  | later runs _ ih => exact .later runs ih

/-- The state after `n` steps under one choice of labels. -/
def after (exec : S → A → Option S) (env : Nat → S → A) (s : S) : Nat → Option S
  | 0 => some s
  | n + 1 => (after exec env s n).bind fun t => exec t (env n t)

theorem Surely.reached {env : Nat → S → A} {start : S} (h : Surely exec allowed goal s) {n : Nat}
    (at_ : after exec env start n = some s)
    (permitted : ∀ m t, after exec env start m = some t → allowed t (env m t)) :
    ∃ m t, after exec env start m = some t ∧ goal t := by
  induction h generalizing n with
  | now reached => exact ⟨n, _, at_, reached⟩
  | @later s runs _ ih =>
    obtain ⟨t, step⟩ := runs (env n s) (permitted n s at_)
    apply ih (env n s) t (permitted n s at_) step (n := n + 1)
    rw [after, at_]
    exact step

end

end Transition

import Mathlib

/-! A cell whose content is read off a journal, oldest entry first. Some entries
set the cell whatever it holds, some clear it depending on what it holds, and the
others say nothing about it. -/
namespace Journal

structure Cell (A V : Type) where
  sets : A → Option V
  clears : A → V → Bool

namespace Cell

variable {A V : Type} (c : Cell A V)

def step (held : Option V) (a : A) : Option V :=
  match c.sets a with
  | some v => some v
  | none => held.filter fun v => !c.clears a v

/-- What the cell holds after the journal. -/
def value (journal : List A) : Option V := journal.foldl c.step none

/-- The last entry that sets the cell sets it to `v`, and no later one clears that. -/
def Stands (journal : List A) (v : V) : Prop :=
  ∃ before a after, journal = before ++ a :: after ∧ c.sets a = some v ∧
    ∀ b ∈ after, c.sets b = none ∧ c.clears b v = false

@[simp] theorem value_nil : c.value [] = none := rfl

theorem value_concat (journal : List A) (a : A) :
    c.value (journal ++ [a]) = c.step (c.value journal) a := by
  simp [value, List.foldl_append]

variable {c} {held : Option V} {a : A} {v : V}

theorem step_set (h : c.sets a = some v) : c.step held a = some v := by
  rw [step, h]

theorem step_unset (h : c.sets a = none) :
    c.step held a = held.filter fun v => !c.clears a v := by
  rw [step, h]

/-- An entry that neither sets the cell nor clears what it holds. -/
theorem step_silent (h : c.sets a = none) (keeps : ∀ v ∈ held, c.clears a v = false) :
    c.step held a = held := by
  rw [step_unset h]
  cases held with
  | none => rfl
  | some v => simp [keeps v rfl]

theorem step_eq_some : c.step held a = some v ↔
    c.sets a = some v ∨ c.sets a = none ∧ held = some v ∧ c.clears a v = false := by
  cases h : c.sets a with
  | some w => simp [step_set h]
  | none => simp [step_unset h, Option.filter_eq_some_iff]

theorem stands_concat {journal : List A} : c.Stands (journal ++ [a]) v ↔
    c.sets a = some v ∨ c.sets a = none ∧ c.Stands journal v ∧ c.clears a v = false := by
  constructor
  · rintro ⟨before, b, after, split, set, later⟩
    -- Either the last entry of the journal set the cell, or it is one of the later ones.
    cases after using List.reverseRecOn with
    | nil =>
      obtain ⟨-, last⟩ := List.append_inj' split rfl
      rw [List.cons.injEq] at last
      exact .inl (last.1 ▸ set)
    | append_singleton after z =>
      rw [← List.cons_append, ← List.append_assoc] at split
      obtain ⟨rfl, last⟩ := List.append_inj' split rfl
      rw [List.cons.injEq] at last
      obtain ⟨unset, kept⟩ := later a (by simp [last.1])
      refine .inr ⟨unset, ⟨before, b, after, rfl, set, ?_⟩, kept⟩
      intro x hx
      exact later x (List.mem_append_left _ hx)
  · rintro (set | ⟨unset, ⟨before, b, after, rfl, set, later⟩, kept⟩)
    · exact ⟨journal, a, [], rfl, set, by simp⟩
    · refine ⟨before, b, after ++ [a], by simp, set, ?_⟩
      intro x hx
      cases List.mem_append.mp hx with
      | inl old => exact later x old
      | inr new => exact List.mem_singleton.mp new ▸ ⟨unset, kept⟩

/-- The cell holds what stands in the journal. -/
theorem value_eq_some_iff {journal : List A} : c.value journal = some v ↔ c.Stands journal v := by
  induction journal using List.reverseRecOn with
  | nil =>
    constructor
    · intro h
      cases h
    · rintro ⟨before, b, after, split, -⟩
      simp at split
  | append_singleton journal a ih => rw [value_concat, step_eq_some, stands_concat, ih]

theorem value_eq_none_iff {journal : List A} :
    c.value journal = none ↔ ∀ v, ¬ c.Stands journal v := by
  rw [Option.eq_none_iff_forall_ne_some]
  exact forall_congr' fun v => not_congr value_eq_some_iff

end Cell

end Journal

import MilvusCatalog.Migration.Diff

/-! The number of keys that a copy reports, against the keys in the `MultiSave`
calls that succeeded. The counter advances by key, the writes by batch. -/
namespace MilvusCatalog.Migration
open Go Attempt

/-- The keys in the saves that succeeded. -/
def written (saves : List (Map × Saved)) : Nat :=
  (saves.map fun s => if s.2 = .ok then s.1.size else 0).sum

/-- No save has failed; what is pending and what is written has been counted,
except for the last `late` keys. -/
structure Owing (late : Nat) (c : Copying) : Prop where
  saved : ∀ s ∈ c.saves, s.2 = .ok
  count : c.copied + late = written c.saves + c.batch.size

/-- A save has failed, and some keys are counted that were not written. -/
structure Short (c : Copying) : Prop where
  failed : ∃ s ∈ c.saves, s.2 ≠ .ok
  count : written c.saves < c.copied

section
variable (env : Env) {c : Copying}

/-- A flush pays for the whole batch or for nothing of it. -/
theorem flush_ends {late : Nat} (h : Owing late c) (small : late < c.batch.size ∨ late = 0) :
    Ends (fun c' => Owing late c' ∧ c'.batch = ∅) Short (flush env c) := by
  have count := h.count
  unfold flush
  split
  · next empty => exact ⟨h, Map.eq_empty_of_size empty⟩
  · next nonempty =>
    dsimp only
    split
    · next ok =>
      refine ⟨⟨?_, ?_⟩, rfl⟩
      · intro s hs
        cases List.mem_append.mp hs with
        | inl old => exact h.saved s old
        | inr new => rw [List.mem_singleton.mp new, ok]
      · rw [count]
        simp [written, ok]
    all_goals
      next failed =>
      refine ⟨⟨_, List.mem_append_right _ (List.mem_singleton_self _), by simp [failed]⟩, ?_⟩
      have unpaid : written c.saves < c.copied := by omega
      simpa [written, failed] using unpaid

/-- Between two turns of the loop over a map. -/
structure Turning (rest : List (Str × Str)) (c : Copying) : Prop where
  owing : Owing 0 c
  ahead : Ahead rest c.batch

theorem copyKey_ends {e : Str × Str} {rest : List (Str × Str)} (h : Turning (e :: rest) c) :
    Ends (Turning rest) Short (copyKey env c e) := by
  obtain ⟨size, ahead⟩ := h.ahead.insert
  -- The key just added is pending but not counted before the next line runs.
  have late : Owing 1 { c with batch := c.batch.insert e.1 e.2 } :=
    ⟨h.owing.saved, by
      have count := h.owing.count
      simp only [size]
      omega⟩
  unfold copyKey flushFull
  split
  · next full =>
    apply (flush_ends env late (.inl (lt_of_lt_of_le (by decide) full))).bind
    rintro s ⟨paid, empty⟩
    exact ⟨⟨paid.saved, paid.count⟩, empty ▸ h.ahead.flushed⟩
  · exact ⟨⟨late.saved, late.count⟩, ahead⟩

/-- Between two roots everything counted is written. -/
structure Level (c : Copying) : Prop where
  saved : ∀ s ∈ c.saves, s.2 = .ok
  count : c.copied = written c.saves

theorem copyRoot_ends (root : Str) (h : Level c) :
    Ends Level (fun c' => Level c' ∨ Short c') (copyRoot env c root) := by
  unfold copyRoot
  split
  · exact .inl ⟨h.saved, h.count⟩
  · next logical ok =>
    have started : Turning ((env.order c.loads).visit logical.toList)
        { c with batch := ∅, loads := c.loads + 1 } :=
      ⟨⟨h.saved, h.count⟩, .start (env.order c.loads) logical⟩
    have loop := Ends.foldlM Turning (fun e rest s => copyKey_ends env) started
    have whole := loop.bind fun s turning => flush_ends env turning.owing (.inr rfl)
    apply whole.imp
    · rintro s ⟨paid, empty⟩
      exact ⟨paid.saved, by simpa [empty] using paid.count⟩
    · exact fun s => .inr

theorem copyPrefixes_ends (src dst : MetaKv) (roots : List Str) :
    Level (final (copyPrefixes env src dst roots)) ∨
      Short (final (copyPrefixes env src dst roots)) := by
  have started : Level ⟨src, dst, ∅, 0, 0, []⟩ := ⟨by simp, rfl⟩
  have ends : Ends Level (fun c => Level c ∨ Short c) (copyPrefixes env src dst roots) :=
    Ends.foldlM (fun _ => Level) (fun root _ s => copyRoot_ends env root) started
  cases ends.final with
  | inl level => exact .inl level
  | inr stopped => exact stopped

end

/-- The number that a copy returns is that of the keys it has written exactly
when none of its saves failed. -/
theorem copied_written_iff (env : Env) (src dst : MetaKv) (roots : List Str) :
    (final (copyPrefixes env src dst roots)).copied =
        written (final (copyPrefixes env src dst roots)).saves ↔
      ∀ s ∈ (final (copyPrefixes env src dst roots)).saves, s.2 = .ok := by
  constructor
  · intro equal
    cases copyPrefixes_ends env src dst roots with
    | inl level => exact level.saved
    | inr short => exact absurd equal short.count.ne'
  · intro saved
    cases copyPrefixes_ends env src dst roots with
    | inl level => exact level.count
    | inr short =>
      obtain ⟨s, hs, failed⟩ := short.failed
      exact absurd (saved s hs) failed

/-- One key, whose only save fails without effect. -/
theorem copied_not_written :
    let env : Env := ⟨fun _ => true, fun _ => ⟨id, .refl⟩, fun _ => .failed false⟩
    let src : MetaKv := ⟨str "by-dev", .ofList [(str "by-dev/db/1", str "x")]⟩
    let dst : MetaKv := ⟨str "pooled", ∅⟩
    let c := final (copyPrefixes env src dst [str "db"])
    (copyPrefixes env src dst [str "db"]).isOk = false ∧ c.copied = 1 ∧ written c.saves = 0 ∧
      c.dst.entries = ∅ := by
  decide +kernel

end MilvusCatalog.Migration

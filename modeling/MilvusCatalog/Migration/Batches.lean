import MilvusCatalog.Migration.Diff

/-! The `MultiSave` calls of a copy. A backend bounds the size of one transaction,
and a copy that has failed writes nothing any more. -/
namespace MilvusCatalog.Migration
open Go Attempt

/-- A batch that may be sent. -/
def Sized (batch : Map) : Prop := 0 < batch.size ∧ batch.size ≤ multiSaveBatch

/-- No save has failed so far. -/
def Clear (c : Copying) : Prop := ∀ s ∈ c.saves, Sized s.1 ∧ s.2 = .ok

/-- The copy has stopped: nothing was sent after a save that failed. -/
structure Stopped (c : Copying) : Prop where
  sized : ∀ s ∈ c.saves, Sized s.1
  clear : ∀ s ∈ c.saves.dropLast, s.2 = .ok

theorem Clear.stopped {c : Copying} (h : Clear c) : Stopped c :=
  ⟨fun s hs => (h s hs).1, fun s hs => (h s (List.mem_of_mem_dropLast hs)).2⟩

/-- The fewest batches that hold so many keys. -/
def batches (keys : Nat) : Nat := (keys + (multiSaveBatch - 1)) / multiSaveBatch

section
variable (env : Env) {c : Copying}

/-- A flush sends what is pending, if anything is. -/
theorem flush_sends (h : Clear c) (small : c.batch.size ≤ multiSaveBatch) :
    Ends (fun c' => Clear c' ∧ c'.src = c.src ∧ c'.batch = ∅ ∧
      c'.saves.length = c.saves.length + min c.batch.size 1) Stopped (flush env c) := by
  unfold flush
  split
  · next empty => exact ⟨h, rfl, Map.eq_empty_of_size empty, by simp [empty]⟩
  · next nonempty =>
    have sized : Sized c.batch := ⟨Nat.pos_of_ne_zero nonempty, small⟩
    have sent (o : Saved) : ∀ s ∈ c.saves ++ [(c.batch, o)], Sized s.1 := by
      intro s hs
      cases List.mem_append.mp hs with
      | inl old => exact (h s old).1
      | inr new => exact List.mem_singleton.mp new ▸ sized
    dsimp only
    split
    · next ok =>
      refine ⟨fun s hs => ⟨sent _ s hs, ?_⟩, rfl, rfl, ?_⟩
      · cases List.mem_append.mp hs with
        | inl old => exact (h s old).2
        | inr new => rw [List.mem_singleton.mp new, ok]
      · have : min c.batch.size 1 = 1 := by omega
        simp [this]
    all_goals
      refine ⟨sent _, ?_⟩
      rw [List.dropLast_concat]
      exact fun s hs => (h s hs).2

/-- In the loop over a map of `keys` entries, when `start` saves had been made before
it: every save in the loop is a full one. -/
structure Filling (start keys : Nat) (src : MetaKv) (rest : List (Str × Str)) (c : Copying) :
    Prop where
  clear : Clear c
  source : c.src = src
  small : c.batch.size < multiSaveBatch
  ahead : Ahead rest c.batch
  count : multiSaveBatch * start + keys =
    multiSaveBatch * c.saves.length + c.batch.size + rest.length

theorem copyKey_fills {start keys : Nat} {src : MetaKv} {e : Str × Str}
    {rest : List (Str × Str)} (h : Filling start keys src (e :: rest) c) :
    Ends (Filling start keys src rest) Stopped (copyKey env c e) := by
  obtain ⟨size, ahead⟩ := h.ahead.insert
  have small := h.small
  have count := h.count
  rw [List.length_cons] at count
  unfold copyKey flushFull
  split
  · next full =>
    simp only [size] at full
    have inserted : Clear { c with batch := c.batch.insert e.1 e.2 } := h.clear
    apply (flush_sends env inserted (by simp only [size]; omega)).bind
    rintro s ⟨clear, source, empty, saves⟩
    refine ⟨clear, source.trans h.source, by simp [empty, multiSaveBatch],
      empty ▸ h.ahead.flushed, ?_⟩
    simp only [size, multiSaveBatch] at saves full count small ⊢
    simp only [empty, Std.ExtTreeMap.size_empty]
    omega
  · next room =>
    refine ⟨h.clear, h.source, Nat.lt_of_not_le room, ahead, ?_⟩
    simp only [size]
    omega

/-- The number of keys that a copy of the root visits. -/
def visits (src : MetaKv) (root : Str) : Nat :=
  match loadLogical true src root with
  | .ok logical => logical.size
  | .error _ => 0

/-- Between two roots, when `total` saves are to be made in all. -/
structure Pacing (src : MetaKv) (total : Nat) (rest : List Str) (c : Copying) : Prop where
  clear : Clear c
  source : c.src = src
  count : c.saves.length + (rest.map fun root => batches (visits src root)).sum = total

theorem copyRoot_paces {src : MetaKv} {total : Nat} {root : Str} {rest : List Str}
    (h : Pacing src total (root :: rest) c) :
    Ends (Pacing src total rest) Stopped (copyRoot env c root) := by
  unfold copyRoot
  split
  · exact Clear.stopped h.clear
  · next logical ok =>
    have visited : visits src root = logical.size := by
      cases answers : env.answers c.loads with
      | true =>
        rw [answers, h.source] at ok
        rw [visits, ok]
      | false =>
        rw [answers] at ok
        cases ok
    have length : ((env.order c.loads).visit logical.toList).length = logical.size := by
      rw [((env.order c.loads).perm logical.toList).length_eq, Std.ExtTreeMap.length_toList]
    have started : Filling c.saves.length logical.size src
        ((env.order c.loads).visit logical.toList) { c with batch := ∅, loads := c.loads + 1 } :=
      ⟨h.clear, h.source, by simp [multiSaveBatch], .start (env.order c.loads) logical,
        by simp [length]⟩
    have loop := Ends.foldlM (Filling c.saves.length logical.size src)
      (fun e rest s => copyKey_fills env) started
    apply loop.bind
    intro s filling
    apply (flush_sends env filling.clear (Nat.le_of_lt filling.small)).imp
    · rintro s' ⟨clear, source, -, saves⟩
      refine ⟨clear, source.trans filling.source, ?_⟩
      have count := filling.count
      have small := filling.small
      have paid : c.saves.length + batches logical.size = s'.saves.length := by
        simp only [batches, multiSaveBatch, List.length_nil] at count small ⊢
        omega
      have total := h.count
      rw [List.map_cons, List.sum_cons, visited] at total
      omega
    · exact fun _ stopped => stopped

end

/-- Every `MultiSave` of a copy has between one key and a full batch, wherever the copy
stops; only the last one may have failed; and a copy that succeeds has made the fewest
calls that this leaves possible. -/
theorem copy_batches (env : Env) (src dst : MetaKv) (roots : List Str) :
    (∀ s ∈ (final (copyPrefixes env src dst roots)).saves,
      0 < s.1.size ∧ s.1.size ≤ multiSaveBatch) ∧
    (∀ s ∈ (final (copyPrefixes env src dst roots)).saves.dropLast, s.2 = .ok) ∧
    ((copyPrefixes env src dst roots).isOk = true →
      (final (copyPrefixes env src dst roots)).saves.length =
        (roots.map fun root => batches (visits src root)).sum) := by
  have started : Pacing src (roots.map fun root => batches (visits src root)).sum roots
      ⟨src, dst, ∅, 0, 0, []⟩ := ⟨by simp [Clear], rfl, by simp⟩
  have ends : Ends (Pacing src _ []) Stopped (copyPrefixes env src dst roots) :=
    Ends.foldlM (Pacing src _) (fun root rest s => copyRoot_paces env) started
  have stopped : Stopped (final (copyPrefixes env src dst roots)) := by
    cases ends.final with
    | inl pacing => exact pacing.clear.stopped
    | inr stopped => exact stopped
  refine ⟨stopped.sized, stopped.clear, fun ok => ?_⟩
  rw [eq_ok_final ok] at ends
  simpa using ends.count

/-- Seventy keys under one root and three under another: a full batch, and two that
are not. -/
theorem copy_batches_two_roots :
    let env : Env := ⟨fun _ => true, fun _ => ⟨id, .refl⟩, fun _ => .ok⟩
    let keys (root : String) (n : Nat) : List (Str × Str) :=
      (List.range n).map fun i => (str root ++ [UInt8.ofNat (48 + i)], str "x")
    let src : MetaKv := ⟨str "by-dev", .ofList (keys "by-dev/db/" 70 ++ keys "by-dev/kv/" 3)⟩
    let dst : MetaKv := ⟨str "pooled", ∅⟩
    let roots := [str "db", str "kv"]
    (copyPrefixes env src dst roots).isOk = true ∧
      (final (copyPrefixes env src dst roots)).saves.map (fun s => s.1.size) = [64, 6, 3] ∧
      (final (copyPrefixes env src dst roots)).saves.length = batches 70 + batches 3 := by
  intro env keys src dst roots
  have ok : (copyPrefixes env src dst roots).isOk = true := by decide +kernel
  refine ⟨ok, by decide +kernel, ((copy_batches env src dst roots).2.2 ok).trans ?_⟩
  decide +kernel

end MilvusCatalog.Migration

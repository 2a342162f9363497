import MilvusCatalog.Lib.GoString

/-! Which node should own which shard: `routing/placement.go` and
`routing/reconcile.go`. The hash is xxhash, of which nothing is assumed. -/
namespace MilvusCatalog
open Go

def shardCount : Nat := 256

section
variable (xxhash : Str → UInt64)

def shardOf (ns : Str) : Nat := (xxhash ns).toNat % shardCount

/-- The eight bytes of a shard number, lowest first. -/
def shardBytes (shard : Nat) : Str :=
  (List.range 8).map fun i => UInt8.ofNat (shard >>> (8 * i))

def weight (member : Str) (shard : Nat) : UInt64 := xxhash (member ++ shardBytes shard)

end

theorem shardOf_lt (xxhash : Str → UInt64) (ns : Str) : shardOf xxhash ns < shardCount :=
  Nat.mod_lt _ (by decide)

/-- One member of the maximum scan. The empty string stands for no best yet. -/
def better (w : Str → Nat → UInt64) (shard : Nat) (best : Str × UInt64) (m : Str) : Str × UInt64 :=
  let score := w m shard
  if best.1 = [] ∨ score > best.2 then (m, score) else best

def rendezvous (w : Str → Nat → UInt64) (shard : Nat) (members : List Str) : Str :=
  (members.foldl (better w shard) ([], 0)).1

theorem better_mem (w : Str → Nat → UInt64) (shard : Nat) (members : List Str)
    (best : Str × UInt64) :
    (members.foldl (better w shard) best).1 ∈ members ∨
      (members.foldl (better w shard) best).1 = best.1 := by
  induction members generalizing best with
  | nil => exact .inr rfl
  | cons m ms ih =>
    rw [List.foldl_cons]
    rcases ih (better w shard best m) with h | h
    · exact .inl (List.mem_cons_of_mem m h)
    · unfold better at h ⊢
      dsimp only at h ⊢
      split at h
      · next hb => rw [if_pos hb]; exact .inl (h ▸ List.mem_cons_self)
      · next hb => rw [if_neg hb]; exact .inr h

theorem better_nonempty (w : Str → Nat → UInt64) (shard : Nat) (members : List Str)
    (named : ∀ m ∈ members, m ≠ []) (best : Str × UInt64) (h : best.1 ≠ []) :
    (members.foldl (better w shard) best).1 ≠ [] := by
  rcases better_mem w shard members best with hm | hb
  · exact named _ hm
  · exact hb ▸ h

/-- The suggested owner is always one of the live members. -/
theorem rendezvous_mem (w : Str → Nat → UInt64) (shard : Nat) {members : List Str}
    (hne : members ≠ []) (named : ∀ m ∈ members, m ≠ []) :
    rendezvous w shard members ∈ members := by
  obtain ⟨m, ms, rfl⟩ := List.exists_cons_of_ne_nil hne
  rcases better_mem w shard (m :: ms) ([], 0) with h | h
  · exact h
  · have first : better w shard ([], 0) m = (m, w m shard) := by simp [better]
    have := better_nonempty w shard ms (fun x hx => named x (List.mem_cons_of_mem m hx))
      (m, w m shard) (named m List.mem_cons_self)
    rw [List.foldl_cons, first] at h
    exact absurd h this

/-- One shard of `Reconcile`: the shards to claim, then the shards to release. -/
def reconcileStep (w : Str → Nat → UInt64) (me : Str) (members : List Str) (shardMap : Nat → Str)
    (acc : List Nat × List Nat) (s : Nat) : List Nat × List Nat :=
  let suggested := rendezvous w s members
  let actual := shardMap s
  if actual = me ∧ suggested ≠ me then (acc.1, acc.2 ++ [s])
  else if actual = [] ∧ suggested = me then (acc.1 ++ [s], acc.2)
  else acc

def reconcile (w : Str → Nat → UInt64) (me : Str) (members : List Str) (shardMap : Nat → Str) :
    List Nat × List Nat :=
  (List.range shardCount).foldl (reconcileStep w me members shardMap) ([], [])

theorem reconcile_mem (w : Str → Nat → UInt64) (me : Str) (members : List Str)
    (shardMap : Nat → Str) (s : Nat) :
    (s ∈ (reconcile w me members shardMap).1 ↔
      s < shardCount ∧ shardMap s = [] ∧ rendezvous w s members = me) ∧
    (s ∈ (reconcile w me members shardMap).2 ↔
      s < shardCount ∧ shardMap s = me ∧ rendezvous w s members ≠ me) := by
  have scan : ∀ (todo : List Nat) (acc : List Nat × List Nat),
      (s ∈ (todo.foldl (reconcileStep w me members shardMap) acc).1 ↔
        s ∈ acc.1 ∨ s ∈ todo ∧ shardMap s = [] ∧ rendezvous w s members = me) ∧
      (s ∈ (todo.foldl (reconcileStep w me members shardMap) acc).2 ↔
        s ∈ acc.2 ∨ s ∈ todo ∧ shardMap s = me ∧ rendezvous w s members ≠ me) := by
    intro todo
    induction todo with
    | nil => intro acc; simp
    | cons x xs ih =>
      intro acc
      obtain ⟨hc, hr⟩ := ih (reconcileStep w me members shardMap acc x)
      rw [List.foldl_cons, hc, hr]
      unfold reconcileStep
      dsimp only
      split
      · grind
      · split <;> grind
  have h := scan (List.range shardCount) ([], [])
  simpa only [reconcile, List.not_mem_nil, false_or, List.mem_range] using h

theorem mem_claim {w : Str → Nat → UInt64} {me : Str} {members : List Str} {shardMap : Nat → Str}
    {s : Nat} : s ∈ (reconcile w me members shardMap).1 ↔
      s < shardCount ∧ shardMap s = [] ∧ rendezvous w s members = me :=
  (reconcile_mem w me members shardMap s).1

theorem mem_release {w : Str → Nat → UInt64} {me : Str} {members : List Str}
    {shardMap : Nat → Str} {s : Nat} : s ∈ (reconcile w me members shardMap).2 ↔
      s < shardCount ∧ shardMap s = me ∧ rendezvous w s members ≠ me :=
  (reconcile_mem w me members shardMap s).2

end MilvusCatalog

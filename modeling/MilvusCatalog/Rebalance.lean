import MilvusCatalog.Placement

/-! What a change of membership moves. Over members in key order the maximum scan
picks the top of one total order, the same order for every list, so its choices
over two lists can be compared. -/
namespace MilvusCatalog
open Go

/-- Members in the order of their etcd keys. -/
def InOrder (members : List Str) : Prop := members.Pairwise fun a b => compare a b = .lt

instance : DecidablePred InOrder := fun members =>
  inferInstanceAs (Decidable (members.Pairwise fun a b => compare a b = .lt))

section
variable {w : Str → Nat → UInt64} {s : Nat}

/-- `a` is chosen over `b`: by weight, and on a tie by its place in the list. -/
def Beats (w : Str → Nat → UInt64) (s : Nat) (a b : Str) : Prop :=
  (w b s).toNat < (w a s).toNat ∨ (w b s).toNat = (w a s).toNat ∧ compare a b = .lt

theorem Beats.trans {a b c : Str} (hab : Beats w s a b) (hbc : Beats w s b c) : Beats w s a c := by
  cases hab with
  | inl hab =>
    left
    cases hbc <;> omega
  | inr hab =>
    cases hbc with
    | inl hbc => left; omega
    | inr hbc => exact .inr ⟨hbc.1.trans hab.1, Std.TransCmp.lt_trans hab.2 hbc.2⟩

theorem Beats.asymm {a b : Str} (hab : Beats w s a b) : ¬ Beats w s b a := by
  intro hba
  cases hab with
  | inl hab => cases hba <;> omega
  | inr hab =>
    cases hba with
    | inl hba => omega
    | inr hba => exact Std.OrientedCmp.not_lt_of_lt hab.2 hba.2

/-- `m` is first among `members`. -/
def Top (w : Str → Nat → UInt64) (s : Nat) (members : List Str) (m : Str) : Prop :=
  ∀ x ∈ members, x = m ∨ Beats w s m x

/-- The first of two lists' common members is the same in both. -/
theorem Top.unique {a b : Str} {members members' : List Str} (ha : Top w s members a)
    (hb : Top w s members' b) (hab : b ∈ members) (hba : a ∈ members') : a = b := by
  cases ha b hab with
  | inl same => exact same.symm
  | inr beats =>
    cases hb a hba with
    | inl same => exact same
    | inr beaten => exact absurd beaten beats.asymm

theorem Top.of_beats {members : List Str} {a b m : Str} (h : Top w s (a :: members) m)
    (beats : Beats w s a b) : Beats w s m b := by
  cases h a List.mem_cons_self with
  | inl same => exact same ▸ beats
  | inr above => exact above.trans beats

/-- The scan from `best` on ends with the first of `best` and the members left. -/
theorem better_top {members : List Str} (named : ∀ m ∈ members, m ≠ []) {best : Str}
    (h : best ≠ []) (sorted : InOrder (best :: members)) :
    Top w s (best :: members) (members.foldl (better w s) (best, w best s)).1 := by
  induction members generalizing best with
  | nil =>
    intro x hx
    exact .inl (List.mem_singleton.mp hx)
  | cons m ms ih =>
    obtain ⟨least, sorted⟩ := List.pairwise_cons.mp sorted
    have named' : ∀ x ∈ ms, x ≠ [] := fun x hx => named x (List.mem_cons_of_mem m hx)
    rw [List.foldl_cons]
    unfold better
    dsimp only
    split
    · next wins =>
      -- `m` comes later in the list, so only a higher weight replaces `best`.
      have above : Beats w s m best := .inl (UInt64.lt_iff_toNat_lt.mp (wins.resolve_left h))
      have top := ih named' (named m List.mem_cons_self) sorted
      intro x hx
      cases hx with
      | head => exact .inr (top.of_beats above)
      | tail _ hx => exact top x hx
    · next loses =>
      have first : compare best m = .lt := least m List.mem_cons_self
      have above : Beats w s best m := by
        have le := UInt64.lt_iff_toNat_lt.not.mp (not_or.mp loses).2
        rcases Nat.lt_or_eq_of_le (Nat.le_of_not_lt le) with lt | eq
        · exact .inl lt
        · exact .inr ⟨eq, first⟩
      have top := ih named' h (List.pairwise_cons.mpr
        ⟨fun x hx => least x (List.mem_cons_of_mem m hx), (List.pairwise_cons.mp sorted).2⟩)
      intro x hx
      cases hx with
      | head => exact top best List.mem_cons_self
      | tail _ hx =>
        cases hx with
        | head => exact .inr (top.of_beats above)
        | tail _ hx => exact top x (List.mem_cons_of_mem best hx)

theorem rendezvous_top {members : List Str} (sorted : InOrder members)
    (named : ∀ m ∈ members, m ≠ []) : Top w s members (rendezvous w s members) := by
  cases members with
  | nil =>
    intro x hx
    cases hx
  | cons m ms =>
    have first : better w s ([], 0) m = (m, w m s) := by simp [better]
    rw [rendezvous, List.foldl_cons, first]
    exact better_top (fun x hx => named x (List.mem_cons_of_mem m hx))
      (named m List.mem_cons_self) sorted

end

/-- The shard map that was settled for `members`, after the keys of those that
are not in `members'` are gone. -/
def blanked (w : Str → Nat → UInt64) (members members' : List Str) (s : Nat) : Str :=
  if rendezvous w s members ∈ members' then rendezvous w s members else []

section
variable {w : Str → Nat → UInt64} {members members' : List Str} {s : Nat} {n : Str}

/-- The holder of a shard was chosen over the old members and is still there. -/
theorem blanked_holder (named : ∀ m ∈ members, m ≠ []) (h : blanked w members members' s = n)
    (hn : n ≠ []) : rendezvous w s members = n ∧ n ∈ members ∧ n ∈ members' := by
  unfold blanked at h
  split at h
  · next stays =>
    subst h
    refine ⟨rfl, rendezvous_mem w s ?_ named, stays⟩
    rintro rfl
    exact hn rfl
  · exact absurd h.symm hn

/-- A holder is not overtaken by a member that was there before. -/
theorem blanked_suggested (sorted : InOrder members) (sorted' : InOrder members')
    (named : ∀ m ∈ members, m ≠ []) (named' : ∀ m ∈ members', m ≠ [])
    (h : blanked w members members' s = n) (hn : n ≠ []) (old : rendezvous w s members' ∈ members) :
    rendezvous w s members' = n := by
  obtain ⟨rfl, -, stays⟩ := blanked_holder named h hn
  exact ((rendezvous_top sorted named).unique (rendezvous_top sorted' named') old stays).symm

end

/-- A change of membership moves shards to newcomers only, and the shards of
departed members each to one claimant as long as a member is left. -/
theorem membership_change_minimal {w : Str → Nat → UInt64} {members members' : List Str}
    (sorted : InOrder members) (sorted' : InOrder members')
    (named : ∀ m ∈ members, m ≠ []) (named' : ∀ m ∈ members', m ≠ []) :
    (∀ n ∈ members', ∀ s,
      (s ∈ (reconcile w n members' (blanked w members members')).2 ↔
        s < shardCount ∧ blanked w members members' s = n ∧
          rendezvous w s members' ∈ members' ∧ rendezvous w s members' ∉ members) ∧
      (s ∈ (reconcile w n members' (blanked w members members')).1 ↔
        s < shardCount ∧ blanked w members members' s = [] ∧ rendezvous w s members' = n)) ∧
    (∀ s, ∀ a b, a ∈ members → a ∈ members' → b ∈ members → b ∈ members' →
      blanked w members members' s = a → rendezvous w s members' = b → a = b) ∧
    (members' ≠ [] → ∀ s < shardCount, blanked w members members' s = [] →
      ∃! n, n ∈ members' ∧ s ∈ (reconcile w n members' (blanked w members members')).1) := by
  refine ⟨fun n hn s => ⟨?_, mem_claim⟩, ?_, ?_⟩
  · have suggested := rendezvous_mem w s (List.ne_nil_of_mem hn) named'
    rw [mem_release]
    constructor
    · rintro ⟨hs, holds, other⟩
      refine ⟨hs, holds, suggested, ?_⟩
      intro old
      exact other (blanked_suggested sorted sorted' named named' holds (named' n hn) old)
    · rintro ⟨hs, holds, -, newcomer⟩
      refine ⟨hs, holds, ?_⟩
      rintro rfl
      exact newcomer (blanked_holder named holds (named' _ hn)).2.1
  · intro s a b _ ha hb _ holds chosen
    subst chosen
    exact (blanked_suggested sorted sorted' named named' holds (named' a ha) hb).symm
  · intro left s hs blank
    refine ⟨rendezvous w s members', ⟨rendezvous_mem w s left named', ?_⟩, ?_⟩
    · exact mem_claim.mpr ⟨hs, blank, rfl⟩
    · rintro n ⟨-, claims⟩
      exact (mem_claim.mp claims).2.2.symm

/-- `b` stays, `a` leaves and `c` joins; ties everywhere. -/
theorem membership_change_minimal_tie :
    let w : Str → Nat → UInt64 := fun _ _ => 0
    0 ∈ (reconcile w (str "b") [str "b", str "c"]
      (blanked w [str "a", str "b"] [str "b", str "c"])).1 ∧
    ∃! n, n ∈ [str "b", str "c"] ∧ 0 ∈ (reconcile w n [str "b", str "c"]
      (blanked w [str "a", str "b"] [str "b", str "c"])).1 := by
  intro w
  have moves := @membership_change_minimal w [str "a", str "b"] [str "b", str "c"] (by decide)
    (by decide) (by decide) (by decide)
  exact ⟨((moves.1 (str "b") (by decide) 0).2).mpr (by decide +kernel),
    moves.2.2 (by decide) 0 (by decide) (by decide +kernel)⟩

/-- When the last member leaves, its shards are blanked and nobody claims them. -/
theorem last_member_leaves :
    let w : Str → Nat → UInt64 := fun _ _ => 0
    blanked w [str "a"] [] 0 = [] ∧
    ¬ ∃ n, n ∈ ([] : List Str) ∧ 0 ∈ (reconcile w n [] (blanked w [str "a"] [])).1 := by
  refine ⟨by decide +kernel, ?_⟩
  rintro ⟨n, hn, -⟩
  cases hn

end MilvusCatalog

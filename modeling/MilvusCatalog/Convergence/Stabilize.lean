import MilvusCatalog.Convergence.Rounds

/-! From any point of a round. The members may stand anywhere in their rounds,
with any lists, maps and marks left over; once their calls succeed, each of them
comes to plan by the members of the run and completes round after round. -/
namespace MilvusCatalog.Convergence
open Go Etcd Transition

/-- Every member has one running node with a live lease, wherever in a round it
stands, and no shard is owned by anyone else. -/
structure Members (cfg : Config) (M : List Str) (σ : Cluster) : Prop where
  named : ∀ m ∈ M, m ≠ []
  layout : Layout cfg.pfx σ.etcd
  members : listMembers cfg.pfx σ.etcd = M
  node : ∀ (p : Nat) (c : Coordinator), σ.procs[p]? = some c →
    c.nodeID ∈ M ∧ c.leaseID ∈ σ.etcd.leases ∧ c.pc.running
  ids : ∀ (p q : Nat) (c d : Coordinator), σ.procs[p]? = some c → σ.procs[q]? = some d →
    c.nodeID = d.nodeID → p = q
  all : ∀ m ∈ M, ∃ (p : Nat) (c : Coordinator), σ.procs[p]? = some c ∧ c.nodeID = m
  owners : ∀ s < shardCount, ∀ m, shardOwner cfg.pfx σ.etcd s = some m → m ∈ M

theorem writes_owner {pc : Pc} {nodeID m : Str} {owner : Nat → Option Str} {s : Nat}
    (h : writes pc nodeID owner s = some m) : owner s = some m ∨ m = nodeID := by
  unfold writes at h
  split at h
  · split at h
    · exact .inr (Option.some.inj h).symm
    · exact .inl h
  · split at h
    · cases h
    · exact .inl h
  · exact .inl h

theorem resume_running (cfg : Config) {c : Coordinator} (e : Store) (now : Nat)
    (run : c.pc.running) : (c.resume cfg e now .ok).pc.running ∧
      (c.resume cfg e now .ok).leaseID = c.leaseID := by
  have kept : (c.resume cfg e now .ok).leaseID = c.leaseID := by
    refine congrArg Membership.leaseID (Coordinator.resume_membership fun l hpc => ?_)
    rw [hpc] at run
    cases run
  refine ⟨?_, kept⟩
  cases hpc : c.pc with
  | granting | putting | keepingAlive | revoking | stopped => rw [hpc] at run; cases run
  | claiming todo | marking todo | releasing todo | rebinding todo =>
    cases todo <;> simp [Coordinator.resume, hpc, Pc.running]
  | _ => simp [Coordinator.resume, hpc, Pc.running, Coordinator.install]

/-- The steps of a run, as one node sees them. -/
theorem stepped_moves {cfg : Config} {σ : Cluster} {p : Nat} {c d : Coordinator} {a : Action}
    (ha : allowed a = true) (stepped : Stepped cfg σ p c a d) :
    (a = .call p .ok ∧ d = c.resume cfg σ.etcd σ.now .ok) ∨
      a ≠ .call p .ok ∧
        ∃ last, d = { c with membership := { c.membership with lastKeepAlive := last } } := by
  cases stepped with
  | stays other => exact .inr ⟨fun own => other (own ▸ rfl), c.membership.lastKeepAlive, rfl⟩
  | records => exact .inr ⟨nofun, σ.now, rfl⟩
  | @calls o =>
    cases o with
    | ok => exact .inl ⟨rfl, rfl⟩
    | failed | late => cases ha
  | _ => cases ha

theorem step_members {cfg : Config} {M : List Str} {σ σ' : Cluster} {a : Action}
    (h : Members cfg M σ) (ha : allowed a = true) (step : exec cfg σ a = some σ') :
    Members cfg M σ' := by
  obtain ⟨_, moved, -⟩ := exec_moved step
  have store : σ'.etcd = σ.etcd ∨ ∃ (q : Nat) (c : Coordinator), σ.procs[q]? = some c ∧
      σ'.etcd = (c.issue cfg σ.etcd .ok).etcd := by
    cases exec_step step with
    | @call q o c hq =>
      cases o with
      | ok => exact .inr ⟨q, c, hq, rfl⟩
      | failed | late => cases ha
    | tick | keepAlive | routeMembers | routeMap => exact .inl rfl
    | _ => cases ha
  have kept : listMembers cfg.pfx σ'.etcd = listMembers cfg.pfx σ.etcd ∧
      σ'.etcd.leases = σ.etcd.leases := by
    obtain same | ⟨q, c, hq, same⟩ := store
    · rw [same]
      exact ⟨rfl, rfl⟩
    · rw [same]
      exact issue_members (h.node q c hq).2.2 .ok
  have before {q : Nat} {d : Coordinator} (hq : σ'.procs[q]? = some d) :
      ∃ c, σ.procs[q]? = some c ∧ Stepped cfg σ q c a d := by
    obtain old | ⟨_, _, rfl, -, -⟩ := exec_node step hq
    · exact old
    · cases ha
  refine ⟨h.named, moved_layout h.layout moved, kept.1.trans h.members, ?_, ?_, ?_, ?_⟩
  · intro p d hp
    obtain ⟨c, hc, stepped⟩ := before hp
    obtain ⟨mem, live, running⟩ := h.node p c hc
    rw [kept.2, stepped.nodeID]
    obtain ⟨-, rfl⟩ | ⟨-, last, rfl⟩ := stepped_moves ha stepped
    · obtain ⟨still, same⟩ := resume_running cfg σ.etcd σ.now running
      exact ⟨mem, same ▸ live, still⟩
    · exact ⟨mem, live, running⟩
  · intro p q c' d' hp hq same
    obtain ⟨c, hc, left⟩ := before hp
    obtain ⟨d, hd, right⟩ := before hq
    apply h.ids p q c d hc hd
    rw [← left.nodeID, same, right.nodeID]
  · intro m hm
    obtain ⟨p, c, hp, name⟩ := h.all m hm
    obtain ⟨d, hd, stepped⟩ := exec_survives step hp
    exact ⟨p, d, hd, stepped.nodeID.trans name⟩
  · intro s hs m own
    obtain same | ⟨q, c, hq, same⟩ := store
    · exact h.owners s hs m (same ▸ own)
    · obtain ⟨mem, live, running⟩ := h.node q c hq
      rw [same, issue_owner live running] at own
      cases writes_owner own with
      | inl old => exact h.owners s hs m old
      | inr new => exact new ▸ mem

section Runs

variable {cfg : Config} {M : List Str} (run : Rounds cfg)

theorem members_at (start : Members cfg M (run.state 0)) (t : Nat) :
    Members cfg M (run.state t) := by
  induction t with
  | zero => exact start
  | succ t ih => exact step_members ih (run.permitted t) (run.step t)

/-- Between two rounds a node has nothing planned, and what it plans from then on
is by the members of the run. -/
theorem plan_from_idle (members : ∀ t, Members cfg M (run.state t)) {p t : Nat} {c : Coordinator}
    (hc : (run.state t).procs[p]? = some c) (idle : c.pc = .idle) {u : Nat} (later : t ≤ u) :
    ∃ d, (run.state u).procs[p]? = some d ∧ Plan cfg M d := by
  refine node_keeps run (P := fun c _ => Plan cfg M c) later hc ?_ ?_
  · constructor <;> simp [idle, Pc.running, planned]
  · intro i _ c d _ stepped plan
    obtain ⟨-, rfl⟩ | ⟨-, last, rfl⟩ := stepped_moves (run.permitted i) stepped
    · exact resume_plan (members i).members plan
    · exact ⟨plan.running, plan.members, plan.claims, plan.releases, plan.due⟩

/-- Whatever the nodes were about to do, in the end they act by the members. -/
theorem eventually_world (start : Members cfg M (run.state 0))
    (fair : ∀ p < (run.state 0).procs.length, Fair run p) :
    ∃ T, ∀ t, T ≤ t → World cfg M (run.state t) := by
  have members := members_at run start
  obtain ⟨T, planned⟩ : ∃ T, ∀ p < (run.state 0).procs.length, ∀ t, T ≤ t →
      ∃ d, (run.state t).procs[p]? = some d ∧ Plan cfg M d := by
    apply eventually_all
    intro p hp
    obtain ⟨c, hc⟩ := node_at run p hp 0
    obtain ⟨u, d, -, hd, idle⟩ := comes_idle run (fair p hp) hc (start.node p c hc).2.2
    exact ⟨u, fun t later => plan_from_idle run members hd idle later⟩
  refine ⟨T, fun t later => ?_⟩
  obtain ⟨named, layout, listed, node, ids, all, owners⟩ := members t
  refine ⟨named, layout, listed, fun p c hc => ?_, ids, all, owners⟩
  obtain ⟨mem, live, -⟩ := node p c hc
  have there : p < (run.state 0).procs.length :=
    procs_length run t ▸ (List.getElem?_eq_some_iff.mp hc).1
  obtain ⟨d, hd, plan⟩ := planned p there t later
  obtain rfl := Option.some.inj (hc.symm.trans hd)
  exact ⟨mem, live, plan⟩

theorem Completes.lt {run : Rounds cfg} {p t u : Nat} (h : Completes run p t u) : t < u := by
  obtain ⟨i, j, hti, hij, hju, -⟩ := h
  omega

end Runs

end MilvusCatalog.Convergence

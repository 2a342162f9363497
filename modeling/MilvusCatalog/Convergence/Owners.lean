import MilvusCatalog.Cluster

/-! Who owns which shard while the membership is fixed and calls succeed: what a
node's call does to the owners, and what holds all through a run. -/
namespace MilvusCatalog.Convergence
open Go Etcd Transition

/-! ## Owners -/

/-- What a node's call does to the owners, where it stands. -/
def writes (pc : Pc) (nodeID : Str) (owner : Nat → Option Str) (s : Nat) : Option Str :=
  match pc with
  | .claiming (x :: _) => if s = x ∧ owner s = none then some nodeID else owner s
  | .releasing (x :: _) => if s = x ∧ owner s = some nodeID then none else owner s
  | _ => owner s

theorem loadShardMap_owner {pfx : Str} {e : Store} (layout : Layout pfx e) {s : Nat}
    (hs : s < shardCount) : loadShardMap pfx e s = (shardOwner pfx e s).getD [] :=
  loadShardMap_eq layout hs

theorem loadOwnershipMap_owner {pfx : Str} {e : Store} (layout : Layout pfx e) {s : Nat}
    (hs : s < shardCount) : (loadOwnershipMap pfx e s).owner = (shardOwner pfx e s).getD [] := by
  rw [loadOwnershipMap_eq layout hs, shardOwner]
  cases e.get (shardKey pfx s) <;> rfl

theorem wrote_owner {pfx : Str} {e e' : Store} {x : Nat} {kv : Option KeyValue}
    (wrote : e.Wrote e' (shardKey pfx x) kv) (s : Nat) :
    shardOwner pfx e' s = if s = x then kv.map KeyValue.value else shardOwner pfx e s := by
  unfold shardOwner
  rw [wrote.get]
  by_cases h : s = x
  · rw [if_pos h, if_pos (by rw [h])]
  · rw [if_neg h, if_neg (by simpa using h)]

theorem claim_owner {pfx : Str} {e : Store} {nodeID : Str} {l : Nat} (live : l ∈ e.leases)
    (x s : Nat) : shardOwner pfx (claimShard pfx e x nodeID l).1 s =
      if s = x ∧ shardOwner pfx e s = none then some nodeID else shardOwner pfx e s := by
  by_cases absent : e.get (shardKey pfx x) = none
  · have succeeds : (claimShard pfx e x nodeID l).1 ≠ e := by
      simp only [claimShard, Store.createRevision_eq_zero, absent, if_true]
      cases hput : e.put (shardKey pfx x) nodeID l with
      | none =>
        have := (e.put_isSome (shardKey pfx x) nodeID l).mpr (.inr live)
        simp [hput] at this
      | some e' =>
        intro same
        have := (Store.put_wrote hput).2.revision
        simp only at same
        rw [same] at this
        omega
    rcases claimShard_cases pfx e x nodeID l with ⟨-, -, -, wrote⟩ | ⟨same, -⟩
    · rw [wrote_owner wrote]
      by_cases h : s = x
      · subst h
        simp [shardOwner, absent]
      · simp [h]
    · exact absurd same succeeds
  · have present : ¬ (s = x ∧ shardOwner pfx e s = none) := by
      rintro ⟨rfl, none⟩
      exact absent (Option.map_eq_none_iff.mp none)
    rw [if_neg present]
    rcases claimShard_cases pfx e x nodeID l with ⟨none, -⟩ | ⟨same, -⟩
    · exact absurd none absent
    · rw [same]

theorem release_owner (pfx : Str) (e : Store) (nodeID : Str) (x s : Nat) :
    shardOwner pfx (releaseShard pfx e x nodeID) s =
      if s = x ∧ shardOwner pfx e s = some nodeID then none else shardOwner pfx e s := by
  rcases releaseShard_cases pfx e x nodeID with ⟨kv, hk, value, wrote⟩ | ⟨same, other⟩
  · rw [wrote_owner wrote]
    by_cases h : s = x
    · subst h
      simp [shardOwner, hk, value]
    · simp [h]
  · have foreign : ¬ (s = x ∧ shardOwner pfx e s = some nodeID) := by
      rintro ⟨rfl, own⟩
      obtain ⟨kv, hk, value⟩ := Option.map_eq_some_iff.mp own
      exact other kv hk value
    rw [same, if_neg foreign]

/-- A rebind changes the lease and never the owner. -/
theorem rebind_owner (pfx : Str) (e : Store) (nodeID : Str) (l x s : Nat) :
    shardOwner pfx (rebindShard pfx e x nodeID l).1 s = shardOwner pfx e s := by
  rcases rebindShard_cases pfx e x nodeID l with ⟨kv, hk, value, -, -, wrote⟩ | ⟨same, -⟩
  · rw [wrote_owner wrote]
    by_cases h : s = x
    · subst h
      simp [shardOwner, hk, value]
    · simp [h]
  · rw [same]

theorem issue_owner {cfg : Config} {c : Coordinator} {e : Store} (live : c.leaseID ∈ e.leases)
    (run : c.pc.running) (s : Nat) : shardOwner cfg.pfx (c.issue cfg e .ok).etcd s =
      writes c.pc c.nodeID (shardOwner cfg.pfx e) s := by
  cases hpc : c.pc with
  | granting | putting | keepingAlive | revoking | stopped => rw [hpc] at run; cases run
  | claiming todo =>
    cases todo with
    | nil => simp [Coordinator.issue, Coordinator.request, hpc, writes, Issued.quiet]
    | cons x todo =>
      simpa [Coordinator.issue, Coordinator.request, hpc, writes, Request.issue, Request.apply]
        using claim_owner live x s
  | releasing todo =>
    cases todo with
    | nil => simp [Coordinator.issue, Coordinator.request, hpc, writes, Issued.quiet]
    | cons x todo =>
      simpa [Coordinator.issue, Coordinator.request, hpc, writes, Request.issue, Request.apply]
        using release_owner cfg.pfx e c.nodeID x s
  | rebinding todo =>
    cases todo with
    | nil => simp [Coordinator.issue, Coordinator.request, hpc, writes, Issued.quiet]
    | cons x todo =>
      simpa [Coordinator.issue, Coordinator.request, hpc, writes, Request.issue, Request.apply]
        using rebind_owner cfg.pfx e c.nodeID c.leaseID x s
  | _ => simp [Coordinator.issue, Coordinator.request, hpc, writes, Issued.quiet]

theorem issue_members {cfg : Config} {c : Coordinator} {e : Store} (run : c.pc.running)
    (o : Outcome) : listMembers cfg.pfx (c.issue cfg e o).etcd = listMembers cfg.pfx e ∧
      (c.issue cfg e o).etcd.leases = e.leases := by
  rcases c.issue_cases cfg e o with ⟨he, -⟩ | ⟨hpc, -⟩ | ⟨l, hpc, -⟩ | ⟨r, hr, ha⟩
  · rw [he]
    exact ⟨rfl, rfl⟩
  · rw [hpc] at run; cases run
  · rw [hpc] at run; cases run
  · refine ⟨?_, ha.leases.1⟩
    have listed {x : Nat} {kv : Option KeyValue}
        (wrote : e.Wrote (c.issue cfg e o).etcd (shardKey cfg.pfx x) kv) :
        listMembers cfg.pfx (c.issue cfg e o).etcd = listMembers cfg.pfx e := by
      rw [listMembers, wrote.getPrefix (shardKey_not_member cfg.pfx x), listMembers]
    generalize (c.issue cfg e o).etcd = e' at ha listed
    generalize (c.issue cfg e o).commits = cs at ha
    cases ha with
    | refused => rfl
    | claim _ _ wrote => exact listed wrote
    | rebind _ _ _ wrote => exact listed wrote
    | release _ _ wrote => exact listed wrote
    | register =>
      unfold Coordinator.request at hr
      split at hr <;> cases hr
      next hpc => rw [hpc] at run; cases run

/-! ## The runs -/

/-- Calls succeed; time passes, keepalives are recorded and clients read. -/
def allowed : Action → Bool
  | .call _ .ok | .tick _ | .keepAlive _ | .routeMembers | .routeMap _ => true
  | _ => false

/-- The shard lists a round works through. -/
def planned : Pc → Prop
  | .claiming _ | .marking _ | .releasing _ => True
  | _ => False

/-- A node claims only shards that are to be its own and releases only others. -/
structure Plan (cfg : Config) (M : List Str) (c : Coordinator) : Prop where
  running : c.pc.running
  members : c.pc = .loadShardMap → c.round.members = M
  claims : ∀ todo, c.pc = .claiming todo → ∀ s ∈ todo, cfg.rendezvous s M = c.nodeID
  releases : planned c.pc → ∀ s ∈ c.round.release, cfg.rendezvous s M ≠ c.nodeID
  due : ∀ todo, c.pc = .marking todo ∨ c.pc = .releasing todo → ∀ s ∈ todo, s ∈ c.round.release

theorem resume_plan {cfg : Config} {M : List Str} {c : Coordinator} {e : Store} {now : Nat}
    (members : listMembers cfg.pfx e = M) (h : Plan cfg M c) :
    Plan cfg M (c.resume cfg e now .ok) := by
  have due := Coordinator.resume_due cfg e now .ok h.due
  cases hpc : c.pc with
  | granting | putting | keepingAlive | revoking | stopped =>
    have := h.running
    rw [hpc] at this
    cases this
  | loadShardMap =>
    have same := h.members hpc
    refine ⟨?_, ?_, ?_, ?_, due⟩
    all_goals simp only [Coordinator.resume, hpc, if_true]
    · trivial
    · intro h; cases h
    · intro todo ht s hs
      rw [Pc.claiming.injEq] at ht
      rw [← ht] at hs
      have := (mem_claim.mp hs).2.2
      rwa [same] at this
    · intro _ s hs
      have := (mem_release.mp hs).2.2
      rwa [same] at this
  | claiming todo =>
    have claims := h.claims todo hpc
    have releases := h.releases (hpc ▸ trivial)
    cases todo with
    | nil =>
      refine ⟨?_, ?_, ?_, ?_, due⟩ <;> simp_all [Coordinator.resume, planned, Pc.running]
    | cons x todo =>
      refine ⟨?_, ?_, ?_, ?_, due⟩ <;> simp_all [Coordinator.resume, planned, Pc.running]
  | marking todo | releasing todo =>
    have releases := h.releases (hpc ▸ trivial)
    cases todo <;> refine ⟨?_, ?_, ?_, ?_, due⟩ <;>
      simp_all [Coordinator.resume, planned, Pc.running, Coordinator.markReleasing]
  | rebinding todo =>
    cases todo <;> refine ⟨?_, ?_, ?_, ?_, due⟩ <;>
      simp_all [Coordinator.resume, planned, Pc.running]
  | _ =>
    refine ⟨?_, ?_, ?_, ?_, due⟩ <;>
      simp_all [Coordinator.resume, planned, Pc.running, Coordinator.install]

/-- What holds all through a run. -/
structure World (cfg : Config) (M : List Str) (σ : Cluster) : Prop where
  named : ∀ m ∈ M, m ≠ []
  layout : Layout cfg.pfx σ.etcd
  members : listMembers cfg.pfx σ.etcd = M
  node : ∀ (p : Nat) (c : Coordinator), σ.procs[p]? = some c →
    c.nodeID ∈ M ∧ c.leaseID ∈ σ.etcd.leases ∧ Plan cfg M c
  ids : ∀ (p q : Nat) (c d : Coordinator), σ.procs[p]? = some c → σ.procs[q]? = some d →
    c.nodeID = d.nodeID → p = q
  all : ∀ m ∈ M, ∃ (p : Nat) (c : Coordinator), σ.procs[p]? = some c ∧ c.nodeID = m
  owners : ∀ s < shardCount, ∀ m, shardOwner cfg.pfx σ.etcd s = some m → m ∈ M

theorem Plan.writes {cfg : Config} {M : List Str} {c : Coordinator} (h : Plan cfg M c)
    (owner : Nat → Option Str) (s : Nat) :
    writes c.pc c.nodeID owner s = owner s ∨
    (owner s = none ∧ writes c.pc c.nodeID owner s = some c.nodeID ∧
      cfg.rendezvous s M = c.nodeID) ∨
    (owner s = some c.nodeID ∧ writes c.pc c.nodeID owner s = none ∧
      cfg.rendezvous s M ≠ c.nodeID) := by
  unfold Convergence.writes
  split
  · next x todo hpc =>
    split
    · next guard =>
      have mine := h.claims _ hpc x List.mem_cons_self
      exact .inr (.inl ⟨guard.2, rfl, guard.1 ▸ mine⟩)
    · exact .inl rfl
  · next x todo hpc =>
    split
    · next guard =>
      have due := h.due _ (.inr hpc) x List.mem_cons_self
      exact .inr (.inr ⟨guard.2, rfl, guard.1 ▸ h.releases (hpc ▸ trivial) x due⟩)
    · exact .inl rfl
  · exact .inl rfl

/-- What a step does to the owners: nothing, or what one node's call writes. -/
theorem step_owner {cfg : Config} {M : List Str} {σ σ' : Cluster} {a : Action}
    (world : World cfg M σ) (ha : allowed a = true) (step : exec cfg σ a = some σ') :
    σ'.etcd = σ.etcd ∨ ∃ (q : Nat) (c : Coordinator), a = .call q .ok ∧ σ.procs[q]? = some c ∧
      σ'.etcd = (c.issue cfg σ.etcd .ok).etcd ∧ ∀ s, shardOwner cfg.pfx σ'.etcd s =
        writes c.pc c.nodeID (shardOwner cfg.pfx σ.etcd) s := by
  cases exec_step step with
  | @call q o c hq =>
    obtain ⟨-, live, plan⟩ := world.node q c hq
    cases o with
    | ok => exact .inr ⟨q, c, rfl, hq, rfl, issue_owner live plan.running⟩
    | failed | late => cases ha
  | tick | keepAlive | routeMembers | routeMap => exact .inl rfl
  | _ => cases ha

/-- A shard that has reached its rendezvous owner stays there. -/
theorem owner_stays {cfg : Config} {M : List Str} {σ σ' : Cluster} {a : Action}
    (world : World cfg M σ) (ha : allowed a = true) (step : exec cfg σ a = some σ') {s : Nat}
    (h : shardOwner cfg.pfx σ.etcd s = some (cfg.rendezvous s M)) :
    shardOwner cfg.pfx σ'.etcd s = some (cfg.rendezvous s M) := by
  rcases step_owner world ha step with same | ⟨q, c, -, hq, -, owner⟩
  · rwa [same]
  · rw [owner s]
    obtain ⟨-, -, plan⟩ := world.node q c hq
    rcases plan.writes (shardOwner cfg.pfx σ.etcd) s with same | ⟨none, -⟩ | ⟨other, -, wrong⟩
    · rw [same, h]
    · rw [none] at h; cases h
    · rw [h, Option.some.injEq] at other
      exact absurd other wrong

/-- A node gets no shard that is not to be its own. -/
theorem owner_new {cfg : Config} {M : List Str} {σ σ' : Cluster} {a : Action}
    (world : World cfg M σ) (ha : allowed a = true) (step : exec cfg σ a = some σ') {s : Nat}
    {m : Str} (h : shardOwner cfg.pfx σ'.etcd s = some m) :
    shardOwner cfg.pfx σ.etcd s = some m ∨ cfg.rendezvous s M = m ∧ m ∈ M := by
  rcases step_owner world ha step with same | ⟨q, c, -, hq, -, owner⟩
  · exact .inl (same ▸ h)
  · obtain ⟨mem, -, plan⟩ := world.node q c hq
    rw [owner s] at h
    rcases plan.writes (shardOwner cfg.pfx σ.etcd) s with same | ⟨-, new, mine⟩ | ⟨-, none, -⟩
    · exact .inl (same ▸ h)
    · rw [new, Option.some.injEq] at h
      exact .inr ⟨mine.trans h, h ▸ mem⟩
    · rw [none] at h; cases h

theorem step_world {cfg : Config} {M : List Str} {σ σ' : Cluster} {a : Action}
    (world : World cfg M σ) (ha : allowed a = true) (step : exec cfg σ a = some σ') :
    World cfg M σ' := by
  obtain ⟨_, moved, -⟩ := exec_moved step
  have kept : listMembers cfg.pfx σ'.etcd = listMembers cfg.pfx σ.etcd ∧
      σ'.etcd.leases = σ.etcd.leases := by
    rcases step_owner world ha step with same | ⟨q, c, -, hq, same, -⟩
    · rw [same]
      exact ⟨rfl, rfl⟩
    · rw [same]
      exact issue_members (world.node q c hq).2.2.running .ok
  have before {q : Nat} {d : Coordinator} (hq : σ'.procs[q]? = some d) :
      ∃ c, σ.procs[q]? = some c ∧ Stepped cfg σ q c a d := by
    rcases exec_node step hq with old | ⟨_, _, rfl, -, -⟩
    · exact old
    · cases ha
  refine ⟨world.named, moved_layout world.layout moved, kept.1.trans world.members, ?_, ?_, ?_, ?_⟩
  · intro p d hp
    obtain ⟨c, hc, stepped⟩ := before hp
    obtain ⟨mem, live, plan⟩ := world.node p c hc
    rw [kept.2, stepped.nodeID]
    refine ⟨mem, ?_⟩
    cases stepped with
    | stays => exact ⟨live, plan⟩
    | records =>
      exact ⟨live, plan.running, plan.members, plan.claims, plan.releases, plan.due⟩
    | @calls o =>
      cases o with
      | ok =>
        refine ⟨?_, resume_plan world.members plan⟩
        rw [Coordinator.leaseID, Coordinator.resume_membership]
        · exact live
        · intro l hpc
          have := plan.running
          rw [hpc] at this
          cases this
      | failed | late => cases ha
    | _ => cases ha
  · intro p q c' d' hp hq same
    obtain ⟨c, hc, left⟩ := before hp
    obtain ⟨d, hd, right⟩ := before hq
    apply world.ids p q c d hc hd
    rw [← left.nodeID, same, right.nodeID]
  · intro m hm
    obtain ⟨p, c, hp, name⟩ := world.all m hm
    obtain ⟨d, hd, stepped⟩ := exec_survives step hp
    exact ⟨p, d, hd, stepped.nodeID.trans name⟩
  · intro s hs m hm
    rcases owner_new world ha step hm with old | ⟨-, mem⟩
    · exact world.owners s hs m old
    · exact mem

end MilvusCatalog.Convergence

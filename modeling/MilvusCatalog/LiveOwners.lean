import MilvusCatalog.Cluster

/-! Every owner is a live member. Ownership keys ride the lease of their node's
member key, so both go together, whatever calls fail, arrive late or come from an
incarnation that is gone. -/
namespace MilvusCatalog.LiveOwners
open Go Etcd Transition

/-- The lease that a node is registered under or is still to register; zero for a
node that will not register any more. -/
def candidate (c : Coordinator) : Nat :=
  match c.pc with
  | .putting l | .keepingAlive l => l
  | .granting | .revoking _ => 0
  | _ => c.leaseID

/-- The incarnation has no live lease and will not get one. -/
def retired (e : Store) (c : Coordinator) : Bool := c.pc ≠ .granting ∧ candidate c ∉ e.leases

/-- A member `Put` of the id that etcd would still accept. -/
def pending (e : Store) (nodeID : Str) : Request → Bool
  | .register id l => id = nodeID ∧ l ∈ e.leases
  | _ => false

/-- An id is used again only when its earlier incarnations are retired and none
of them has a member `Put` under way, and only nodes write. Calls may fail or be
applied late, leases end and nodes close at any time. -/
def allowed (σ : Cluster) : Action → Bool
  | .spawn nodeID _ => nodeID ≠ [] ∧ (∀ c ∈ σ.procs, c.nodeID = nodeID → retired σ.etcd c) ∧
      ∀ r ∈ σ.inflight, pending σ.etcd nodeID r = false
  | .request _ _ => false
  | _ => true

/-! ## Leases of one node -/

structure Local (e : Store) (c : Coordinator) : Prop where
  named : c.nodeID ≠ []
  joining : c.pc.joining → c.leaseID = 0
  asked : ∀ l, c.pc = .putting l ∨ c.pc = .keepingAlive l → l ≠ 0
  running : c.pc.running → c.leaseID ≠ 0
  known : candidate c < e.nextLease

/-- A node that holds a lease has it for its candidate. -/
theorem Local.candidate_eq {e : Store} {c : Coordinator} (h : Local e c) (nonzero : c.leaseID ≠ 0) :
    candidate c = c.leaseID ∧ ∀ l, c.pc ≠ .putting l := by
  have joined : ¬ c.pc.joining := fun joining => nonzero (h.joining joining)
  cases hpc : c.pc with
  | granting | putting | keepingAlive | revoking => exact absurd (hpc ▸ trivial) joined
  | _ => exact ⟨by simp only [candidate, hpc], nofun⟩

/-- A node keeps its candidate, gives it up, or is granted a new one. -/
theorem stepped_candidate {cfg : Config} {σ : Cluster} {q : Nat} {c d : Coordinator} {a : Action}
    (h : Stepped cfg σ q c a d) (hc : Local σ.etcd c) :
    candidate d = candidate c ∨ candidate d = 0 ∨
      candidate d = σ.etcd.nextLease ∧ a = .call q .ok ∧ c.pc = .granting := by
  cases h with
  | @calls o =>
    cases hpc : c.pc with
    | granting =>
      by_cases ok : o = .ok
      · subst ok
        exact .inr (.inr ⟨by simp [Coordinator.resume, hpc, candidate, Store.grant], rfl, rfl⟩)
      · refine .inr (.inl ?_)
        simp only [Coordinator.resume, hpc, if_neg ok]
        exact hc.joining (hpc ▸ trivial)
    | putting l =>
      simp only [Coordinator.resume, hpc]
      split
      · exact .inl (by simp [candidate, hpc])
      · exact .inr (.inl (by simp [candidate]))
    | keepingAlive l =>
      simp only [Coordinator.resume, hpc]
      split
      · exact .inl (by simp [candidate, hpc, Coordinator.leaseID])
      · exact .inr (.inl (by simp [candidate]))
    | revoking l =>
      refine .inr (.inl ?_)
      simp only [Coordinator.resume, hpc]
      exact hc.joining (hpc ▸ trivial)
    | claiming todo | marking todo | releasing todo | rebinding todo =>
      refine .inl ?_
      cases todo <;> simp [Coordinator.resume, hpc, candidate] <;> rfl
    | _ =>
      refine .inl ?_
      simp only [Coordinator.resume, hpc]
      try split
      all_goals simp [candidate, hpc, Coordinator.install]; rfl
  | exits idle => exact .inl (by simp [candidate, idle]; rfl)
  | _ => exact .inl rfl

theorem stepped_granting {cfg : Config} {σ : Cluster} {q : Nat} {c d : Coordinator} {a : Action}
    (h : Stepped cfg σ q c a d) (granting : d.pc = .granting) : c.pc = .granting := by
  cases h with
  | calls =>
    unfold Coordinator.resume at granting
    split at granting <;> (try split at granting) <;> simp_all [Coordinator.install]
  | exits => cases granting
  | _ => exact granting

/-- The end of a member `Put`: the key is there, or the node gives the lease up. -/
theorem stepped_put {cfg : Config} {σ : Cluster} {q l : Nat} {c d : Coordinator} {a : Action}
    (h : Stepped cfg σ q c a d) (hpc : c.pc = .putting l) :
    d.pc = .putting l ∨ candidate d = 0 ∨ candidate d = l ∧ a = .call q .ok ∧
      (register cfg.pfx σ.etcd c.nodeID l).isSome := by
  cases h with
  | @calls o =>
    simp only [Coordinator.resume, hpc]
    split
    · next put =>
      obtain ⟨rfl, done⟩ := put
      exact .inr (.inr ⟨by simp [candidate], rfl, done⟩)
    · exact .inr (.inl (by simp [candidate]))
  | exits idle => rw [hpc] at idle; cases idle
  | _ => exact .inl hpc

/-! ## The member key -/

/-- The member key of the id is bound to lease `l`. -/
def Rides (pfx : Str) (e : Store) (nodeID : Str) (l : Nat) : Prop :=
  ∃ kv, e.get (memberKey pfx nodeID) = some kv ∧ kv.lease = l

theorem applied_member {pfx : Str} {e e' : Store} {r : Request} {cs : List Commit}
    (ha : Applied pfx e r e' cs) (nodeID : Str) :
    e'.get (memberKey pfx nodeID) = e.get (memberKey pfx nodeID) ∨
      ∃ l, r = .register nodeID l := by
  cases ha with
  | refused => exact .inl rfl
  | claim _ _ wrote | rebind _ _ _ wrote | release _ _ wrote =>
    exact .inl (wrote.get_ne (memberKey_ne_shardKey pfx nodeID _).symm)
  | @register id l _ _ wrote =>
    by_cases same : nodeID = id
    · exact .inr ⟨l, by rw [same]⟩
    · exact .inl (wrote.get_ne (by simpa using same))

theorem register_isSome {pfx nodeID : Str} {e : Store} {l : Nat} (nonzero : l ≠ 0) :
    (register pfx e nodeID l).isSome ↔ l ∈ e.leases := by
  rw [register, Store.put_isSome]
  exact or_iff_right nonzero

/-- A member key stays on its lease unless a `Put` of the same id is accepted. -/
theorem Rides.issue {pfx nodeID : Str} {e : Store} {l : Nat} (h : Rides pfx e nodeID l)
    (r : Request) (o : Outcome)
    (dead : ∀ l', r = .register nodeID l' → l' ≠ 0 ∧ l' ∉ e.leases) :
    Rides pfx (r.issue pfx e o).etcd nodeID l := by
  have applied : Rides pfx (r.apply pfx e).1 nodeID l := by
    obtain ⟨kv, hk, lease⟩ := h
    cases applied_member (r.applied pfx e) nodeID with
    | inl same => exact ⟨kv, same.trans hk, lease⟩
    | inr put =>
      obtain ⟨l', rfl⟩ := put
      obtain ⟨nonzero, gone⟩ := dead l' rfl
      have refused : register pfx e nodeID l' = none := by
        rw [← Option.not_isSome_iff_eq_none, register_isSome nonzero]
        exact gone
      exact ⟨kv, by rw [Request.apply, refused]; exact hk, lease⟩
  cases o with
  | ok => exact applied
  | late => exact h
  | failed took =>
    cases took with
    | true => exact applied
    | false => exact h

theorem Rides.revoke {pfx nodeID : Str} {e : Store} {l l' : Nat} (h : Rides pfx e nodeID l)
    (live : l ∈ (e.revoke l').leases) : Rides pfx (e.revoke l') nodeID l := by
  obtain ⟨kv, hk, lease⟩ := h
  have other : l ≠ l' := ((e.mem_leases_revoke l' l).mp live).2
  refine ⟨kv, ?_, lease⟩
  rw [Store.get_revoke_other (by simpa [hk, lease] using other), hk]

theorem Rides.called {cfg : Config} {nodeID : Str} {e : Store} {l : Nat} {c : Coordinator}
    {o : Outcome} (h : Rides cfg.pfx e nodeID l) (live : l ∈ (c.issue cfg e o).etcd.leases)
    (dead : ∀ l', c.pc = .putting l' → c.nodeID = nodeID → l' ≠ 0 ∧ l' ∉ e.leases) :
    Rides cfg.pfx (c.issue cfg e o).etcd nodeID l := by
  cases hr : c.request with
  | some r =>
    rw [Coordinator.issue_request cfg hr]
    apply h.issue r o
    rintro l' rfl
    unfold Coordinator.request at hr
    split at hr <;> cases hr
    next hpc => exact dead l' hpc rfl
  | none =>
    obtain ⟨same, -⟩ | ⟨-, granted, -⟩ | ⟨l', -, revoked, -⟩ | ⟨r, sends, -⟩ :=
      c.issue_cases cfg e o
    · rwa [same]
    · rw [granted]
      exact h
    · rw [revoked] at live ⊢
      exact h.revoke live
    · rw [hr] at sends
      cases sends

/-- The member `Put` that `Start` has seen succeed. -/
theorem rides_registered {cfg : Config} {e : Store} {c : Coordinator} {l : Nat}
    (hpc : c.pc = .putting l) (done : (register cfg.pfx e c.nodeID l).isSome) :
    Rides cfg.pfx (c.issue cfg e .ok).etcd c.nodeID l := by
  obtain ⟨e', put⟩ := Option.isSome_iff_exists.mp done
  have wrote := (Store.put_wrote put).2
  have issue : (c.issue cfg e .ok).etcd = e' := by
    simp [Coordinator.issue, Coordinator.request, hpc, Request.issue, Request.apply, put]
  exact ⟨_, issue ▸ wrote.get_self, rfl⟩

/-! ## The runs -/

/-- What a request in flight rests on: ownership writes carry the lease of a node
of that id, and while a member `Put` may still be accepted, no node of that id is
registered or will be. -/
def Sent (σ : Cluster) : Request → Prop
  | .claim _ nodeID l | .rebind _ nodeID l => ∃ (q : Nat) (c : Coordinator),
      σ.procs[q]? = some c ∧ c.nodeID = nodeID ∧ c.leaseID = l ∧ l ≠ 0
  | .register nodeID l => l ≠ 0 ∧ l < σ.etcd.nextLease ∧
      (l ∈ σ.etcd.leases → ∀ c ∈ σ.procs, c.nodeID = nodeID → retired σ.etcd c = true)
  | .release _ _ _ => True

structure Inv (cfg : Config) (σ : Cluster) : Prop where
  node : ∀ (q : Nat) (c : Coordinator), σ.procs[q]? = some c → Local σ.etcd c
  ids : ∀ (p q : Nat) (c d : Coordinator), σ.procs[p]? = some c → σ.procs[q]? = some d →
    c.nodeID = d.nodeID → retired σ.etcd c = false → retired σ.etcd d = false → p = q
  member : ∀ (q : Nat) (c : Coordinator), σ.procs[q]? = some c → (∀ l, c.pc ≠ .putting l) →
    candidate c ∈ σ.etcd.leases → Rides cfg.pfx σ.etcd c.nodeID (candidate c)
  sent : ∀ r ∈ σ.inflight, Sent σ r
  keys : ∀ (s : Nat) (kv : KeyValue), σ.etcd.get (shardKey cfg.pfx s) = some kv →
    ∃ (q : Nat) (c : Coordinator), σ.procs[q]? = some c ∧ c.nodeID = kv.value ∧
      c.leaseID = kv.lease ∧ kv.lease ≠ 0

theorem live_candidate {e : Store} {c : Coordinator} (live : candidate c ∈ e.leases) :
    retired e c = false := by
  simp [retired, live]

/-- Leases do not come back. -/
theorem moved_live {pfx : Str} {e e' : Store} {cs : List Commit} (moved : Moved pfx e e' cs)
    {l : Nat} (known : l < e.nextLease) (live : l ∈ e'.leases) : l ∈ e.leases := by
  cases moved with
  | same => exact live
  | grant =>
    cases List.mem_cons.mp live with
    | inl new => omega
    | inr old => exact old
  | revoke l' => exact ((e.mem_leases_revoke l' l).mp live).1
  | applied ha => exact ha.leases.1 ▸ live

section
variable {cfg : Config} {σ σ' : Cluster} {a : Action}

theorem stepped_retired {q : Nat} {c d : Coordinator} (step : exec cfg σ a = some σ')
    (stepped : Stepped cfg σ q c a d) (hc : Local σ.etcd c) (h : retired σ.etcd c = true) :
    retired σ'.etcd d = true := by
  simp only [retired, decide_eq_true_eq] at h ⊢
  obtain ⟨joined, gone⟩ := h
  obtain ⟨_, moved, -⟩ := exec_moved step
  refine ⟨fun granting => joined (stepped_granting stepped granting), fun live => ?_⟩
  obtain same | zero | ⟨-, -, granting⟩ := stepped_candidate stepped hc
  · rw [same] at live
    exact gone (moved_live moved hc.known live)
  · exact Store.ne_zero_of_live live zero
  · exact joined granting

/-- What a call leaves of the facts about a node alone. -/
theorem resume_local (cfg : Config) {c : Coordinator} {e : Store} {now : Nat} {o : Outcome}
    (h : Local e c) :
    let d := c.resume cfg e now o
    (d.pc.joining → d.leaseID = 0) ∧ (∀ l, d.pc = .putting l ∨ d.pc = .keepingAlive l → l ≠ 0) ∧
      (d.pc.running → d.leaseID ≠ 0) := by
  have joining := h.joining
  have asked := h.asked
  have running := h.running
  have positive := e.positive
  cases hpc : c.pc with
  | claiming todo | marking todo | releasing todo | rebinding todo =>
    cases todo <;> simp_all [Coordinator.resume, Pc.joining, Pc.running, Coordinator.leaseID,
      Coordinator.markReleasing]
  | granting =>
    by_cases ok : o = .ok <;> simp_all [Coordinator.resume, Pc.joining, Pc.running,
      Coordinator.leaseID, Store.grant]
    omega
  | _ =>
    simp only [Coordinator.resume, hpc]
    try split
    all_goals simp_all [Pc.joining, Pc.running, Coordinator.leaseID, Coordinator.install]

theorem step_known (inv : Inv cfg σ) (step : exec cfg σ a = some σ') {q : Nat} {c d : Coordinator}
    (hc : σ.procs[q]? = some c) (stepped : Stepped cfg σ q c a d) :
    candidate d < σ'.etcd.nextLease := by
  obtain ⟨_, moved, -⟩ := exec_moved step
  have le := moved.nextLease_le
  have known := (inv.node q c hc).known
  have positive := σ'.etcd.positive
  obtain same | zero | ⟨new, rfl, granting⟩ := stepped_candidate stepped (inv.node q c hc)
  · omega
  · omega
  · rw [new]
    cases exec_step step with
    | call hp =>
      obtain rfl := Option.some.inj (hp.symm.trans hc)
      simp [Coordinator.issue, granting, Cluster.update, Cluster.wrote, Issued.quiet]

theorem step_local (inv : Inv cfg σ) (ha : allowed σ a = true) (step : exec cfg σ a = some σ')
    (q : Nat) (d : Coordinator) (hq : σ'.procs[q]? = some d) : Local σ'.etcd d := by
  obtain ⟨c, hc, stepped⟩ | ⟨nodeID, ttl, rfl, -, rfl⟩ := exec_node step hq
  · have known := step_known inv step hc stepped
    obtain ⟨named, joining, asked, running, -⟩ := inv.node q c hc
    rw [← stepped.nodeID] at named
    cases stepped with
    | calls =>
      obtain ⟨joining, asked, running⟩ := resume_local cfg (inv.node q c hc)
      exact ⟨named, joining, asked, running, known⟩
    | exits => exact ⟨named, nofun, nofun, nofun, known⟩
    | _ => exact ⟨named, joining, asked, running, known⟩
  · simp only [allowed, decide_eq_true_eq] at ha
    exact ⟨ha.1, fun _ => rfl, by simp [newCoordinator], nofun, σ'.etcd.positive⟩

theorem step_ids (inv : Inv cfg σ) (ha : allowed σ a = true) (step : exec cfg σ a = some σ')
    (p q : Nat) (c' d' : Coordinator) (hp : σ'.procs[p]? = some c') (hq : σ'.procs[q]? = some d')
    (same : c'.nodeID = d'.nodeID) (left : retired σ'.etcd c' = false)
    (right : retired σ'.etcd d' = false) : p = q := by
  have before {r : Nat} {b b' : Coordinator} (hb : σ.procs[r]? = some b)
      (stepped : Stepped cfg σ r b a b') (active : retired σ'.etcd b' = false) :
      retired σ.etcd b = false := by
    cases gone : retired σ.etcd b with
    | false => rfl
    | true =>
      rw [stepped_retired step stepped (inv.node r b hb) gone] at active
      cases active
  -- A node that has just started meets no earlier incarnation that is not retired.
  have first {nodeID : Str} {ttl : Int} {r : Nat} {b b' : Coordinator}
      (spawn : a = .spawn nodeID ttl) (hb : σ.procs[r]? = some b)
      (stepped : Stepped cfg σ r b a b') (active : retired σ'.etcd b' = false) :
      b'.nodeID ≠ nodeID := by
    intro name
    have active := before hb stepped active
    subst spawn
    simp only [allowed, decide_eq_true_eq] at ha
    rw [ha.2.1 b (List.mem_of_getElem? hb) (stepped.nodeID ▸ name)] at active
    cases active
  obtain ⟨c, hc, stepC⟩ | ⟨i, _, hi, hp', rfl⟩ := exec_node step hp
  · obtain ⟨d, hd, stepD⟩ | ⟨j, _, hj, -, rfl⟩ := exec_node step hq
    · apply inv.ids p q c d hc hd _ (before hc stepC left) (before hd stepD right)
      rw [← stepC.nodeID, same, stepD.nodeID]
    · exact absurd same (first hj hc stepC left)
  · obtain ⟨d, hd, stepD⟩ | ⟨j, _, -, hq', -⟩ := exec_node step hq
    · exact absurd same.symm (first hi hd stepD right)
    · omega

/-- No step takes the member key of a registered node off its lease. -/
theorem step_rides (inv : Inv cfg σ) (ha : allowed σ a = true) (step : exec cfg σ a = some σ')
    {q : Nat} {c : Coordinator} (hq : σ.procs[q]? = some c) (put : ∀ l, c.pc ≠ .putting l)
    (live : candidate c ∈ σ'.etcd.leases) : Rides cfg.pfx σ'.etcd c.nodeID (candidate c) := by
  obtain ⟨_, moved, -⟩ := exec_moved step
  have before := moved_live moved (inv.node q c hq).known live
  have active := live_candidate before
  have rides := inv.member q c hq put before
  cases exec_step step with
  | @call p o b hp =>
    apply rides.called live
    intro l hpc name
    have asked := (inv.node p b hp).asked l (.inl hpc)
    refine ⟨asked, fun accepted => ?_⟩
    -- The node that puts is not retired, so it is this one, which has put already.
    have putting : retired σ.etcd b = false :=
      live_candidate (by simpa [candidate, hpc] using accepted)
    obtain rfl := inv.ids p q b c hp hq name putting active
    obtain rfl := Option.some.inj (hp.symm.trans hq)
    exact put l hpc
  | @deliver k r hk =>
    apply rides.issue r .ok
    rintro l rfl
    obtain ⟨nonzero, -, alone⟩ := inv.sent _ (List.mem_of_getElem? hk)
    refine ⟨nonzero, fun accepted => ?_⟩
    rw [alone accepted c (List.mem_of_getElem? hq) rfl] at active
    cases active
  | expire | revoked => exact rides.revoke live
  | request => cases ha
  | _ => exact rides

theorem step_member (inv : Inv cfg σ) (ha : allowed σ a = true) (step : exec cfg σ a = some σ')
    (q : Nat) (d : Coordinator) (hq : σ'.procs[q]? = some d) (put : ∀ l, d.pc ≠ .putting l)
    (live : candidate d ∈ σ'.etcd.leases) : Rides cfg.pfx σ'.etcd d.nodeID (candidate d) := by
  obtain ⟨c, hc, stepped⟩ | ⟨_, _, -, -, rfl⟩ := exec_node step hq
  · rw [stepped.nodeID]
    by_cases before : ∃ l, c.pc = .putting l
    · obtain ⟨l, hpc⟩ := before
      obtain still | zero | ⟨now, rfl, done⟩ := stepped_put stepped hpc
      · exact absurd still (put l)
      · exact absurd zero (Store.ne_zero_of_live live)
      · cases exec_step step with
        | call hp =>
          obtain rfl := Option.some.inj (hp.symm.trans hc)
          exact now ▸ rides_registered hpc done
    · rw [not_exists] at before
      obtain same | zero | ⟨-, rfl, granting⟩ := stepped_candidate stepped (inv.node q c hc)
      · rw [same] at live ⊢
        exact step_rides inv ha step hc before live
      · exact absurd zero (Store.ne_zero_of_live live)
      · cases stepped with
        | stays other => exact absurd rfl other
        | calls => exact absurd (by simp [Coordinator.resume, granting]) (put σ.etcd.grant.2)
  · exact absurd rfl (Store.ne_zero_of_live live)

/-- The holder of a lease keeps it. -/
theorem step_holder (inv : Inv cfg σ) (step : exec cfg σ a = some σ') {q : Nat} {c : Coordinator}
    (hq : σ.procs[q]? = some c) (nonzero : c.leaseID ≠ 0) :
    ∃ d, σ'.procs[q]? = some d ∧ d.nodeID = c.nodeID ∧ d.leaseID = c.leaseID := by
  obtain ⟨d, hd, stepped⟩ := exec_survives step hq
  refine ⟨d, hd, stepped.nodeID, ?_⟩
  cases stepped with
  | calls =>
    refine congrArg Membership.leaseID (Coordinator.resume_membership fun l hpc => ?_)
    exact absurd ((inv.node q c hq).joining (hpc ▸ trivial)) nonzero
  | _ => rfl

theorem step_keys (inv : Inv cfg σ) (ha : allowed σ a = true) (step : exec cfg σ a = some σ')
    (s : Nat) (kv : KeyValue) (hk : σ'.etcd.get (shardKey cfg.pfx s) = some kv) :
    ∃ (q : Nat) (d : Coordinator), σ'.procs[q]? = some d ∧ d.nodeID = kv.value ∧
      d.leaseID = kv.lease ∧ kv.lease ≠ 0 := by
  have holder : ∃ (q : Nat) (c : Coordinator), σ.procs[q]? = some c ∧ c.nodeID = kv.value ∧
      c.leaseID = kv.lease ∧ kv.lease ≠ 0 := by
    cases exec_step step with
    | @call p o c hp =>
      cases (c.issue_moved cfg σ.etcd o).record hk with
      | inl old => exact inv.keys s kv old
      | inr new =>
        obtain ⟨owner, lease, at_⟩ := Coordinator.issue_commits new
        dsimp only at owner lease
        have running : c.pc.running := by
          obtain ⟨_, hpc⟩ | ⟨_, hpc⟩ := at_ <;> exact hpc ▸ trivial
        exact ⟨p, c, hp, owner.symm, lease.symm, lease ▸ (inv.node p c hp).running running⟩
    | @deliver k r hr =>
      have applied := r.applied cfg.pfx σ.etcd
      cases (Moved.applied applied).record hk with
      | inl old => exact inv.keys s kv old
      | inr new =>
        have sent := inv.sent r (List.mem_of_getElem? hr)
        obtain rfl | rfl := applied.commits new <;> exact sent
    | expire | revoked => exact inv.keys s kv (Store.get_of_revoke hk)
    | request => cases ha
    | _ => exact inv.keys s kv hk
  obtain ⟨q, c, hq, value, lease, nonzero⟩ := holder
  obtain ⟨d, hd, name, kept⟩ := step_holder inv step hq (lease ▸ nonzero)
  exact ⟨q, d, hd, name.trans value, kept.trans lease, nonzero⟩

/-- What a request in flight rests on stays. -/
theorem Sent.step {r : Request} (h : Sent σ r) (inv : Inv cfg σ) (ha : allowed σ a = true)
    (step : exec cfg σ a = some σ') (old : r ∈ σ.inflight) : Sent σ' r := by
  obtain ⟨_, moved, -⟩ := exec_moved step
  cases r with
  | release => trivial
  | claim s id l | rebind s id l =>
    obtain ⟨q, c, hq, name, lease, nonzero⟩ := h
    obtain ⟨d, hd, name', kept⟩ := step_holder inv step hq (lease ▸ nonzero)
    exact ⟨q, d, hd, name'.trans name, kept.trans lease, nonzero⟩
  | register id l =>
    obtain ⟨nonzero, known, alone⟩ := h
    refine ⟨nonzero, Nat.lt_of_lt_of_le known moved.nextLease_le, fun live d hd name => ?_⟩
    have live := moved_live moved known live
    obtain ⟨q, hq⟩ := List.mem_iff_getElem?.mp hd
    obtain ⟨c, hc, stepped⟩ | ⟨nodeID, ttl, rfl, -, rfl⟩ := exec_node step hq
    · apply stepped_retired step stepped (inv.node q c hc)
      exact alone live c (List.mem_of_getElem? hc) (stepped.nodeID ▸ name)
    · simp only [allowed, decide_eq_true_eq] at ha
      have := ha.2.2 _ old
      simp only [pending, live, and_true, decide_eq_false_iff_not] at this
      exact absurd name.symm this

/-- A call that ends before its request leaves a node that does not use it. -/
theorem sent_now (inv : Inv cfg σ) {p : Nat} {c : Coordinator} (hp : σ.procs[p]? = some c)
    (step : exec cfg σ (.call p .late) = some σ') {r : Request} (hr : c.request = some r) :
    Sent σ' r := by
  have hc := inv.node p c hp
  have own {l : Nat} (running : c.pc.running) (lease : l = c.leaseID) : ∃ (q : Nat)
      (d : Coordinator), σ'.procs[q]? = some d ∧ d.nodeID = c.nodeID ∧ d.leaseID = l ∧ l ≠ 0 := by
    have nonzero := hc.running running
    obtain ⟨d, hd, name, kept⟩ := step_holder inv step hp nonzero
    exact ⟨p, d, hd, name, kept.trans lease.symm, lease ▸ nonzero⟩
  unfold Coordinator.request at hr
  split at hr <;> cases hr
  · next l hpc =>
    obtain ⟨_, moved, -⟩ := exec_moved step
    have known : l < σ.etcd.nextLease := by simpa [candidate, hpc] using hc.known
    refine ⟨hc.asked l (.inl hpc), Nat.lt_of_lt_of_le known moved.nextLease_le, ?_⟩
    intro live d hd name
    have live := moved_live moved known live
    have active : retired σ.etcd c = false := live_candidate (by simpa [candidate, hpc] using live)
    obtain ⟨q, hq⟩ := List.mem_iff_getElem?.mp hd
    obtain ⟨b, hb, stepped⟩ | ⟨_, _, spawn, -⟩ := exec_node step hq
    · by_cases same : q = p
      · subst same
        obtain rfl := Option.some.inj (hp.symm.trans hb)
        cases stepped with
        | stays other => exact absurd rfl other
        | calls =>
          have zero : 0 ∉ σ'.etcd.leases := fun live => Store.ne_zero_of_live live rfl
          simpa [Coordinator.resume, hpc, retired, candidate] using zero
      · apply stepped_retired step stepped (inv.node q b hb)
        cases gone : retired σ.etcd b with
        | true => rfl
        | false => exact absurd (inv.ids q p b c hb hp (stepped.nodeID ▸ name) gone active) same
    · cases spawn
  · next hpc => exact own (hpc ▸ trivial) rfl
  · trivial
  · next hpc => exact own (hpc ▸ trivial) rfl

theorem step_sent (inv : Inv cfg σ) (ha : allowed σ a = true) (step : exec cfg σ a = some σ')
    (r : Request) (hr : r ∈ σ'.inflight) : Sent σ' r := by
  have from_old (old : r ∈ σ.inflight) := (inv.sent r old).step inv ha step old
  cases exec_step step with
  | @call p o c hp =>
    cases List.mem_append.mp hr with
    | inl old => exact from_old old
    | inr new =>
      obtain ⟨rfl, request⟩ := Coordinator.mem_issue_sent new
      exact sent_now inv hp step request
  | deliver => exact from_old (List.mem_of_mem_eraseIdx hr)
  | request => cases ha
  | _ => exact from_old hr

theorem step_inv (inv : Inv cfg σ) (ha : allowed σ a = true) (step : exec cfg σ a = some σ') :
    Inv cfg σ' where
  node := step_local inv ha step
  ids := step_ids inv ha step
  member := step_member inv ha step
  sent := step_sent inv ha step
  keys := step_keys inv ha step

end

/-- Runs in which ids are used again only after their earlier incarnations. -/
abbrev Allowed (cfg : Config) : Cluster → Cluster → Prop :=
  Next (exec cfg) fun σ a => allowed σ a = true

theorem initial_inv {cfg : Config} {σ : Cluster} (h : Initial cfg σ) : Inv cfg σ where
  node := by simp [h.procs]
  ids := by simp [h.procs]
  member := by simp [h.procs]
  sent := by simp [h.inflight]
  keys := fun s kv hk => by rw [h.unowned _ (shardBase_isPrefix cfg.pfx s)] at hk; cases hk

theorem reachable_inv {cfg : Config} {σ : Cluster} (h : Reachable (Initial cfg) (Allowed cfg) σ) :
    Inv cfg σ :=
  h.invariant (fun _ => initial_inv) fun _ _ _ => step_inv

/-- An ownership record and its owner's member key ride the same live lease. -/
theorem Inv.owner_rides {cfg : Config} {σ : Cluster} (inv : Inv cfg σ) {s : Nat} {kv : KeyValue}
    (hk : σ.etcd.get (shardKey cfg.pfx s) = some kv) :
    kv.lease ∈ σ.etcd.leases ∧ Rides cfg.pfx σ.etcd kv.value kv.lease := by
  obtain ⟨q, c, hq, name, lease, nonzero⟩ := inv.keys s kv hk
  have live := ((σ.etcd.sound _ kv hk).bound).resolve_left nonzero
  obtain ⟨holds, put⟩ := (inv.node q c hq).candidate_eq (lease ▸ nonzero)
  have rides := inv.member q c hq put (by rwa [holds, lease])
  rw [holds, lease, name] at rides
  exact ⟨live, rides⟩

/-- **Every owner is a live member.** Whatever calls fail or are applied late,
whenever leases end, nodes close and ids are used again by later incarnations:
the owner of a shard is a listed member, and its member key rides the live lease
that the ownership key rides. -/
theorem owner_is_member {cfg : Config} {σ : Cluster} (h : Reachable (Initial cfg) (Allowed cfg) σ)
    {s : Nat} {kv : KeyValue} (hk : σ.etcd.get (shardKey cfg.pfx s) = some kv) :
    kv.value ∈ listMembers cfg.pfx σ.etcd ∧ kv.lease ∈ σ.etcd.leases ∧
      ∃ member, σ.etcd.get (memberKey cfg.pfx kv.value) = some member ∧
        member.lease = kv.lease := by
  obtain ⟨live, member, hm, lease⟩ := (reachable_inv h).owner_rides hk
  exact ⟨mem_listMembers.mpr ⟨member, hm⟩, live, member, hm, lease⟩

/-- Node `a` claims shards until its lease ends, and a claim of it is still under
way. It starts again, claims anew, and then that claim arrives. -/
def aRestarts : List Action :=
  sampleJoin 0 "a" ++ List.replicate 3 (.call 0 .ok) ++ [.call 0 .late, .expire 1] ++
    sampleJoin 1 "a" ++ List.replicate 3 (.call 1 .ok) ++ [.deliver 0]

theorem owner_is_member_aRestarts : ∃ (σ : Cluster) (kv : KeyValue),
    Reachable (Initial sample) (Allowed sample) σ ∧ σ.procs.length = 2 ∧
    σ.etcd.get (shardKey sample.pfx 0) = some kv ∧ kv.value ∈ listMembers sample.pfx σ.etcd := by
  have run : (execute (exec sample) allowed sampleStart aRestarts).any (fun σ =>
      σ.procs.length = 2 ∧ (σ.etcd.get (shardKey sample.pfx 0)).isSome) = true := by decide +kernel
  obtain ⟨σ, hσ, test⟩ := (Option.any_eq_true _ _).mp run
  obtain ⟨two, owned⟩ := of_decide_eq_true test
  obtain ⟨kv, hk⟩ := Option.isSome_iff_exists.mp owned
  have reach := sample_reachable hσ
  exact ⟨σ, kv, reach, two, hk, (owner_is_member reach hk).1⟩

end MilvusCatalog.LiveOwners

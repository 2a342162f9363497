import MilvusCatalog.Convergence.Settle
import MilvusCatalog.LiveOwners

/-! A crew of nodes that is left to itself. The members are the nodes of the crew,
wherever in their rounds they stand. The others may go on calling under leases
that are gone, their leases may end, and what the crew has sent earlier may still
arrive: all this happens only finitely often, or changes nothing. -/
namespace MilvusCatalog.Convergence
open Go Etcd Transition

instance : DecidablePred Pc.running := fun pc => by
  cases pc <;> simp only [Pc.running] <;> infer_instance

/-- The node's loop runs and its lease is alive. -/
def up (e : Store) (c : Coordinator) : Bool := c.pc.running ∧ c.leaseID ∈ e.leases

theorem up_iff {e : Store} {c : Coordinator} :
    up e c = true ↔ c.pc.running ∧ c.leaseID ∈ e.leases :=
  decide_eq_true_iff

/-- A request that is too late to change anything: its lease is gone, or it
releases a shard under an id that no member has. -/
def outdated (cfg : Config) (e : Store) : Request → Bool
  | .claim _ _ l | .rebind _ _ l | .register _ l => l ≠ 0 ∧ ∀ live ∈ e.leases, live ≠ l
  | .release s nodeID _ => s < shardCount ∧ ∀ m ∈ listMembers cfg.pfx e, m ≠ nodeID

/-- A claim, rebind or release under the id of a member. -/
def ofMember (cfg : Config) (e : Store) : Request → Bool
  | .claim _ nodeID _ | .rebind _ nodeID _ | .release _ nodeID _ =>
    ∃ m ∈ listMembers cfg.pfx e, m = nodeID
  | .register _ _ => false

/-- No more faults in the crew: its calls succeed, its nodes stay and keep their
leases, and no node starts. The loops of other nodes may run on and send what is
outdated, and their leases may end. -/
def calm (cfg : Config) (crew : List Nat) (σ : Cluster) : Action → Bool
  | .call p o => (p ∈ crew ∧ o = .ok) ∨ (p ∉ crew ∧ ∀ c ∈ σ.procs[p]?,
      (c.pc.running ∨ c.pc = .stopped) ∧ ∀ r ∈ c.request, outdated cfg σ.etcd r)
  | .deliver k => ∀ r ∈ σ.inflight[k]?, outdated cfg σ.etcd r ∨ ofMember cfg σ.etcd r
  | .expire l => spared l
  | .revoke p _ => ∀ d ∈ σ.procs[p]?, spared d.leaseID
  | .keepAliveEnds p | .exitLoop p | .close p | .leave p => p ∉ crew
  | .tick _ | .keepAlive _ | .routeMembers | .routeMap _ => true
  | .spawn _ _ | .request _ _ => false
where
  /-- The lease is none of the crew's. -/
  spared (l : Nat) : Bool := ∀ p ∈ crew, ∀ c ∈ σ.procs[p]?, c.leaseID ≠ l

/-- The nodes of the crew are up, one for each id, and each has its member key under
its lease; nobody else is listed, and whoever owns a shard is. -/
structure Manned (cfg : Config) (crew : List Nat) (σ : Cluster) : Prop where
  distinct : crew.Nodup
  node : ∀ p ∈ crew, ∃ c, σ.procs[p]? = some c ∧ up σ.etcd c = true ∧ c.nodeID ≠ [] ∧
    LiveOwners.Rides cfg.pfx σ.etcd c.nodeID c.leaseID
  ids : ∀ p ∈ crew, ∀ q ∈ crew, ∀ c, σ.procs[p]? = some c → ∀ d, σ.procs[q]? = some d →
    c.nodeID = d.nodeID → p = q
  listed : ∀ m ∈ listMembers cfg.pfx σ.etcd, ∃ p ∈ crew, ∃ c, σ.procs[p]? = some c ∧ c.nodeID = m
  owners : ∀ s < shardCount, ∀ m, shardOwner cfg.pfx σ.etcd s = some m →
    m ∈ listMembers cfg.pfx σ.etcd

instance (cfg : Config) (crew : List Nat) (σ : Cluster) : Decidable (Manned cfg crew σ) :=
  decidable_of_iff (crew.Nodup ∧
    (∀ p ∈ crew, ∃ c ∈ σ.procs[p]?, up σ.etcd c = true ∧ c.nodeID ≠ [] ∧
      ∃ kv ∈ σ.etcd.get (memberKey cfg.pfx c.nodeID), kv.lease = c.leaseID) ∧
    (∀ p ∈ crew, ∀ q ∈ crew, ∀ c ∈ σ.procs[p]?, ∀ d ∈ σ.procs[q]?, c.nodeID = d.nodeID → p = q) ∧
    (∀ m ∈ listMembers cfg.pfx σ.etcd, ∃ p ∈ crew, ∃ c ∈ σ.procs[p]?, c.nodeID = m) ∧
    ∀ s < shardCount, ∀ m ∈ shardOwner cfg.pfx σ.etcd s,
      ∃ m' ∈ listMembers cfg.pfx σ.etcd, m' = m) <| by
  simp only [exists_eq_right]
  constructor
  · rintro ⟨distinct, node, ids, listed, owners⟩
    exact ⟨distinct, node, ids, listed, owners⟩
  · rintro ⟨distinct, node, ids, listed, owners⟩
    exact ⟨distinct, node, ids, listed, owners⟩

section
variable {cfg : Config} {crew : List Nat} {σ σ' : Cluster} {a : Action} {e : Store}

theorem Manned.member (manned : Manned cfg crew σ) {p : Nat} {c : Coordinator} (hp : p ∈ crew)
    (hc : σ.procs[p]? = some c) : c.nodeID ∈ listMembers cfg.pfx σ.etcd := by
  obtain ⟨d, hd, -, -, kv, hk, -⟩ := manned.node p hp
  obtain rfl := Option.some.inj (hc.symm.trans hd)
  exact mem_listMembers.mpr ⟨kv, hk⟩

theorem Manned.up (manned : Manned cfg crew σ) {p : Nat} {c : Coordinator} (hp : p ∈ crew)
    (hc : σ.procs[p]? = some c) : c.pc.running ∧ c.leaseID ∈ σ.etcd.leases := by
  obtain ⟨d, hd, here, -⟩ := manned.node p hp
  obtain rfl := Option.some.inj (hc.symm.trans hd)
  exact up_iff.mp here

theorem Manned.there (manned : Manned cfg crew σ) {p : Nat} (hp : p ∈ crew) :
    p < σ.procs.length := by
  obtain ⟨c, hc, -⟩ := manned.node p hp
  exact (List.getElem?_eq_some_iff.mp hc).1

theorem Manned.nonempty (manned : Manned cfg crew σ) (nonempty : crew ≠ []) :
    listMembers cfg.pfx σ.etcd ≠ [] := by
  obtain ⟨p, hp⟩ := List.exists_mem_of_ne_nil crew nonempty
  obtain ⟨c, hc, -⟩ := manned.node p hp
  exact List.ne_nil_of_mem (manned.member hp hc)

/-- Every member key rides the lease of its node in the crew. -/
theorem Manned.rides (manned : Manned cfg crew σ) {m : Str} {kv : KeyValue}
    (hk : σ.etcd.get (memberKey cfg.pfx m) = some kv) :
    ∃ p ∈ crew, ∃ c, σ.procs[p]? = some c ∧ kv.lease = c.leaseID := by
  obtain ⟨p, hp, c, hc, rfl⟩ := manned.listed m (mem_listMembers.mpr ⟨kv, hk⟩)
  obtain ⟨d, hd, -, -, kv', hk', lease⟩ := manned.node p hp
  obtain rfl := Option.some.inj (hc.symm.trans hd)
  obtain rfl := Option.some.inj (hk.symm.trans hk')
  exact ⟨p, hp, c, hc, lease⟩

theorem Manned.named (manned : Manned cfg crew σ) : ∀ m ∈ listMembers cfg.pfx σ.etcd, m ≠ [] := by
  intro m hm
  obtain ⟨p, hp, c, hc, rfl⟩ := manned.listed m hm
  obtain ⟨d, hd, -, named, -⟩ := manned.node p hp
  exact Option.some.inj (hc.symm.trans hd) ▸ named

/-! ## What a step does to the store -/

theorem listMembers_congr {pfx : Str} {e e' : Store}
    (same : ∀ m, e'.get (memberKey pfx m) = e.get (memberKey pfx m)) :
    listMembers pfx e' = listMembers pfx e := by
  unfold listMembers
  rw [Store.getPrefix_congr]
  rintro k ⟨m, rfl⟩
  exact same m

theorem apply_outdated {r : Request} (old : outdated cfg e r = true)
    (owners : ∀ s < shardCount, ∀ m, shardOwner cfg.pfx e s = some m →
      m ∈ listMembers cfg.pfx e) : r.apply cfg.pfx e = (e, []) := by
  have dead {l : Nat} (h : l ≠ 0 ∧ ∀ live ∈ e.leases, live ≠ l) : ¬ (l = 0 ∨ l ∈ e.leases) := by
    rintro (zero | live)
    · exact h.1 zero
    · exact h.2 l live rfl
  cases r with
  | claim s nodeID l =>
    simp only [outdated, decide_eq_true_eq] at old
    cases claimShard_cases cfg.pfx e s nodeID l with
    | inl claimed => exact absurd claimed.2.1 (dead old)
    | inr refused => rw [Request.apply, refused.1, committed_eq_nil refused.2]
  | rebind s nodeID l =>
    simp only [outdated, decide_eq_true_eq] at old
    cases rebindShard_cases cfg.pfx e s nodeID l with
    | inl rebound =>
      obtain ⟨_, -, -, live, -⟩ := rebound
      exact absurd live (dead old)
    | inr refused => rw [Request.apply, refused.1, committed_eq_nil refused.2]
  | release s nodeID seen =>
    simp only [outdated, decide_eq_true_eq] at old
    cases releaseShard_cases cfg.pfx e s nodeID with
    | inl released =>
      obtain ⟨kv, hk, value, -⟩ := released
      have own : shardOwner cfg.pfx e s = some nodeID := by
        rw [shardOwner, hk, Option.map_some, value]
      exact absurd rfl (old.2 _ (owners s old.1 _ own))
    | inr refused => rw [Request.apply, refused.1]
  | register nodeID l =>
    simp only [outdated, decide_eq_true_eq] at old
    have refused : register cfg.pfx e nodeID l = none := by
      rw [← Option.not_isSome_iff_eq_none, register, Store.put_isSome]
      exact dead old
    rw [Request.apply, refused]
    rfl

/-- The call of a node whose request is outdated. -/
theorem issue_outdated {c : Coordinator} (rests : c.pc.running ∨ c.pc = .stopped)
    (old : ∀ r, c.request = some r → outdated cfg e r = true)
    (owners : ∀ s < shardCount, ∀ m, shardOwner cfg.pfx e s = some m →
      m ∈ listMembers cfg.pfx e) (o : Outcome) :
    (c.issue cfg e o).etcd = e ∧ (c.issue cfg e o).commits = [] := by
  cases hr : c.request with
  | none =>
    cases hpc : c.pc with
    | granting | revoking => simp [hpc, Pc.running] at rests
    | _ => simp [Coordinator.issue, hpc, hr, Issued.quiet]
  | some r =>
    have refused := apply_outdated (old r hr) owners
    have issued : c.issue cfg e o = r.issue cfg.pfx e o := by
      cases hpc : c.pc with
      | granting | revoking => simp [hpc, Pc.running] at rests
      | _ => simp [Coordinator.issue, hpc, hr]
    rw [issued]
    cases o with
    | ok => simp [Request.issue, refused]
    | late => simp [Request.issue]
    | failed applied => cases applied <;> simp [Request.issue, Issued.quiet, refused]

/-- How the store changes in a calm step. -/
inductive Changed (cfg : Config) (crew : List Nat) (σ : Cluster) : Action → Store → Prop
  | same {a : Action} : Changed cfg crew σ a σ.etcd
  | called {p : Nat} {c : Coordinator} (mem : p ∈ crew) (at_ : σ.procs[p]? = some c) :
      Changed cfg crew σ (.call p .ok) (c.issue cfg σ.etcd .ok).etcd
  | arrived {k : Nat} {r : Request} (at_ : σ.inflight[k]? = some r)
      (own : ofMember cfg σ.etcd r = true) :
      Changed cfg crew σ (.deliver k) (r.apply cfg.pfx σ.etcd).1
  | ended {a : Action} {l : Nat}
      (other : ∀ p ∈ crew, ∀ c, σ.procs[p]? = some c → c.leaseID ≠ l) :
      Changed cfg crew σ a (σ.etcd.revoke l)

theorem calm_call {p : Nat} {o : Outcome} {c : Coordinator}
    (ha : calm cfg crew σ (.call p o) = true) (hp : σ.procs[p]? = some c) :
    (p ∈ crew ∧ o = .ok) ∨ (p ∉ crew ∧ (c.pc.running ∨ c.pc = .stopped) ∧
      ∀ r, c.request = some r → outdated cfg σ.etcd r = true) := by
  simp only [calm, decide_eq_true_eq, Option.mem_def] at ha
  cases ha with
  | inl crews => exact .inl crews
  | inr other => exact .inr ⟨other.1, other.2 c hp⟩

theorem calm_crew {p : Nat} (hp : p ∈ crew) : calm cfg crew σ (.call p .ok) = true := by
  simp only [calm, decide_eq_true_eq]
  exact .inl ⟨hp, trivial⟩

theorem calm_changed (manned : Manned cfg crew σ) (ha : calm cfg crew σ a = true)
    (step : exec cfg σ a = some σ') : Changed cfg crew σ a σ'.etcd := by
  cases exec_step step with
  | @call p o c hp =>
    cases calm_call ha hp with
    | inl crews =>
      obtain ⟨mem, rfl⟩ := crews
      exact .called mem hp
    | inr other =>
      have quiet := (issue_outdated other.2.1 other.2.2 manned.owners o).1
      simp only [Cluster.update, Cluster.wrote, quiet]
      exact .same
  | @deliver k r hr =>
    simp only [calm, hr, Option.mem_def, Option.some.injEq, forall_eq', decide_eq_true_eq] at ha
    cases ha with
    | inl old =>
      rw [apply_outdated old manned.owners]
      exact .same
    | inr own => exact .arrived hr own
  | expire =>
    simp only [calm, calm.spared, decide_eq_true_eq, Option.mem_def] at ha
    exact .ended ha
  | revoked hp =>
    simp only [calm, calm.spared, hp, decide_eq_true_eq, Option.mem_def, Option.some.injEq,
      forall_eq'] at ha
    exact .ended ha
  | spawn | request => cases ha
  | _ => exact .same

theorem Changed.member (h : Changed cfg crew σ a e) (manned : Manned cfg crew σ) (m : Str) :
    e.get (memberKey cfg.pfx m) = σ.etcd.get (memberKey cfg.pfx m) := by
  cases h with
  | same => rfl
  | called mem at_ =>
    have running := (manned.up mem at_).1
    cases issue_running cfg running σ.etcd .ok with
    | inl quiet => rw [quiet.1]
    | inr sends =>
      obtain ⟨r, hr, applied⟩ := sends
      cases LiveOwners.applied_member applied m with
      | inl same => exact same
      | inr put =>
        obtain ⟨l, rfl⟩ := put
        unfold Coordinator.request at hr
        split at hr <;> cases hr
        next hpc => rw [hpc] at running; cases running
  | @arrived k r at_ own =>
    cases LiveOwners.applied_member (r.applied cfg.pfx σ.etcd) m with
    | inl same => exact same
    | inr put =>
      obtain ⟨l, rfl⟩ := put
      cases own
  | ended other =>
    refine Store.get_revoke_other fun kv hk => ?_
    obtain ⟨p, hp, c, hc, lease⟩ := manned.rides hk
    exact lease ▸ other p hp c hc

theorem Changed.leases (h : Changed cfg crew σ a e) (manned : Manned cfg crew σ) :
    e.leases.Sublist σ.etcd.leases ∧
      ∀ p ∈ crew, ∀ c, σ.procs[p]? = some c → c.leaseID ∈ e.leases := by
  have live (p : Nat) (hp : p ∈ crew) (c : Coordinator) (hc : σ.procs[p]? = some c) :=
    (manned.up hp hc).2
  cases h with
  | same => exact ⟨.refl _, live⟩
  | called mem at_ =>
    rw [(issue_members (manned.up mem at_).1 .ok).2]
    exact ⟨.refl _, live⟩
  | @arrived k r =>
    rw [(r.applied cfg.pfx σ.etcd).leases.1]
    exact ⟨.refl _, live⟩
  | @ended _ l other =>
    refine ⟨σ.etcd.leases_revoke_sublist l, fun p hp c hc => ?_⟩
    exact (σ.etcd.mem_leases_revoke l _).mpr ⟨live p hp c hc, other p hp c hc⟩

/-- Whoever comes to own a shard is a member. -/
theorem Changed.owner (h : Changed cfg crew σ a e) (manned : Manned cfg crew σ) {s : Nat}
    (hs : s < shardCount) {kv : KeyValue} (hk : e.get (shardKey cfg.pfx s) = some kv) :
    kv.value ∈ listMembers cfg.pfx σ.etcd := by
  have old (hk : σ.etcd.get (shardKey cfg.pfx s) = some kv) :
      kv.value ∈ listMembers cfg.pfx σ.etcd :=
    manned.owners s hs _ (by rw [shardOwner, hk, Option.map_some])
  have new {e' : Store} {r : Request} {cs : List Commit} (applied : Applied cfg.pfx σ.etcd r e' cs)
      (member : r.nodeID ∈ listMembers cfg.pfx σ.etcd)
      (hk : e'.get (shardKey cfg.pfx s) = some kv) : kv.value ∈ listMembers cfg.pfx σ.etcd := by
    cases (Moved.applied applied).record hk with
    | inl before => exact old before
    | inr commit => cases applied.commits commit <;> simp_all [Request.nodeID]
  cases h with
  | same => exact old hk
  | @called p c mem at_ =>
    cases issue_running cfg (manned.up mem at_).1 σ.etcd .ok with
    | inl quiet => exact old (quiet.1 ▸ hk)
    | inr sends =>
      obtain ⟨r, hr, applied⟩ := sends
      exact new applied (Coordinator.request_nodeID hr ▸ manned.member mem at_) hk
  | @arrived k r at_ own =>
    refine new (r.applied cfg.pfx σ.etcd) ?_ hk
    cases r with
    | register => cases own
    | _ =>
      simp only [ofMember, decide_eq_true_eq] at own
      obtain ⟨m, hm, rfl⟩ := own
      exact hm
  | ended => exact old (Store.get_of_revoke hk)

/-- The crew stays, and stays the members. -/
theorem step_manned (manned : Manned cfg crew σ) (ha : calm cfg crew σ a = true)
    (step : exec cfg σ a = some σ') :
    Manned cfg crew σ' ∧ listMembers cfg.pfx σ'.etcd = listMembers cfg.pfx σ.etcd := by
  have changed := calm_changed manned ha step
  have members := listMembers_congr (changed.member manned)
  have stays {p : Nat} (hp : p ∈ crew) {c d : Coordinator} (hc : σ.procs[p]? = some c)
      (stepped : Stepped cfg σ p c a d) : d.pc.running ∧ d.leaseID = c.leaseID := by
    obtain ⟨running, -⟩ := manned.up hp hc
    cases stepped with
    | calls =>
      cases calm_call ha hc with
      | inl crews =>
        obtain ⟨-, rfl⟩ := crews
        exact resume_running cfg σ.etcd σ.now running
      | inr other => exact absurd hp other.1
    | exits => simp [calm, hp] at ha
    | _ => exact ⟨running, rfl⟩
  have before {p : Nat} {d : Coordinator} (hp : p ∈ crew) (hd : σ'.procs[p]? = some d) :
      ∃ c, σ.procs[p]? = some c ∧ c.nodeID = d.nodeID := by
    obtain ⟨c, hc, -⟩ := manned.node p hp
    obtain ⟨d', hd', stepped⟩ := exec_survives step hc
    obtain rfl := Option.some.inj (hd.symm.trans hd')
    exact ⟨c, hc, stepped.nodeID.symm⟩
  refine ⟨⟨manned.distinct, ?_, ?_, ?_, ?_⟩, members⟩
  · intro p hp
    obtain ⟨c, hc, -, named, rides⟩ := manned.node p hp
    obtain ⟨d, hd, stepped⟩ := exec_survives step hc
    obtain ⟨running, lease⟩ := stays hp hc stepped
    have live := (changed.leases manned).2 p hp c hc
    refine ⟨d, hd, up_iff.mpr ⟨running, lease ▸ live⟩, stepped.nodeID ▸ named, ?_⟩
    rw [stepped.nodeID, lease, LiveOwners.Rides, changed.member manned]
    exact rides
  · intro p hp q hq c hc d hd same
    obtain ⟨c', hc', left⟩ := before hp hc
    obtain ⟨d', hd', right⟩ := before hq hd
    exact manned.ids p hp q hq c' hc' d' hd' (by rw [left, same, right])
  · intro m hm
    obtain ⟨p, hp, c, hc, name⟩ := manned.listed m (members ▸ hm)
    obtain ⟨d, hd, stepped⟩ := exec_survives step hc
    exact ⟨p, hp, d, hd, stepped.nodeID.trans name⟩
  · intro s hs m own
    obtain ⟨kv, hk, rfl⟩ := Option.map_eq_some_iff.mp own
    rw [members]
    exact changed.owner manned hs hk

/-! ## What happens only finitely often -/

/-- The step changes the store and is no call of the crew, or may be so. -/
def stirs (cfg : Config) (σ : Cluster) : Action → Prop
  | .deliver k => ∃ r, σ.inflight[k]? = some r ∧ outdated cfg σ.etcd r = false
  | .expire l => l ∈ σ.etcd.leases
  | .revoke p applied => applied = true ∧ ∃ c, σ.procs[p]? = some c ∧ c.leaseID ∈ σ.etcd.leases
  | _ => False

/-- The leases that may still end and the requests that may still arrive. -/
def unsettled (cfg : Config) (σ : Cluster) : Nat :=
  σ.etcd.leases.length + σ.inflight.countP fun r => !outdated cfg σ.etcd r

theorem outdated_stays {e e' : Store} (members : listMembers cfg.pfx e' = listMembers cfg.pfx e)
    (leases : e'.leases.Sublist e.leases) {r : Request} (old : outdated cfg e r = true) :
    outdated cfg e' r = true := by
  cases r with
  | release =>
    simp only [outdated, decide_eq_true_eq] at old ⊢
    rwa [members]
  | _ =>
    simp only [outdated, decide_eq_true_eq] at old ⊢
    exact ⟨old.1, fun l live => old.2 l (leases.subset live)⟩

theorem countP_outdated_le {e e' : Store} (members : listMembers cfg.pfx e' = listMembers cfg.pfx e)
    (leases : e'.leases.Sublist e.leases) (rs : List Request) :
    rs.countP (fun r => !outdated cfg e' r) ≤ rs.countP fun r => !outdated cfg e r := by
  refine List.countP_mono_left fun r _ live => ?_
  simp only [Bool.not_eq_true'] at live ⊢
  by_contra old
  rw [Bool.not_eq_false] at old
  rw [outdated_stays members leases old] at live
  cases live

/-- A request that arrives leaves the others under way. -/
theorem countP_eraseIdx {rs : List Request} {k : Nat} {r : Request} (hr : rs[k]? = some r)
    (p : Request → Bool) : rs.countP p = (rs.eraseIdx k).countP p + if p r then 1 else 0 := by
  obtain ⟨lt, rfl⟩ := List.getElem?_eq_some_iff.mp hr
  rw [← (List.getElem_cons_eraseIdx_perm lt).countP_eq, List.countP_cons]

theorem step_unsettled (manned : Manned cfg crew σ) (ha : calm cfg crew σ a = true)
    (step : exec cfg σ a = some σ') : unsettled cfg σ' ≤ unsettled cfg σ ∧
      (stirs cfg σ a → unsettled cfg σ' < unsettled cfg σ) := by
  have leases := ((calm_changed manned ha step).leases manned).1
  have settled : unsettled cfg σ' ≤ σ'.etcd.leases.length +
      σ'.inflight.countP (fun r => !outdated cfg σ.etcd r) :=
    Nat.add_le_add_left (countP_outdated_le (step_manned manned ha step).2 leases _) _
  have fewer := leases.length_le
  have now : unsettled cfg σ = σ.etcd.leases.length +
      σ.inflight.countP (fun r => !outdated cfg σ.etcd r) := rfl
  have quiet (same : σ'.inflight.countP (fun r => !outdated cfg σ.etcd r) =
      σ.inflight.countP fun r => !outdated cfg σ.etcd r) (still : ¬ stirs cfg σ a) :
      unsettled cfg σ' ≤ unsettled cfg σ ∧ (stirs cfg σ a → unsettled cfg σ' < unsettled cfg σ) :=
    ⟨by omega, fun h => absurd h still⟩
  cases exec_step step with
  | @call p o c hp =>
    refine quiet ?_ id
    have old : (c.issue cfg σ.etcd o).sent.countP (fun r => !outdated cfg σ.etcd r) = 0 := by
      rw [List.countP_eq_zero]
      intro r hr
      obtain ⟨late, sends⟩ := Coordinator.mem_issue_sent hr
      cases calm_call ha hp with
      | inl crews => rw [crews.2] at late; cases late
      | inr other => simp [other.2.2 r sends]
    simp only [Cluster.update, Cluster.wrote, List.countP_append, old, Nat.add_zero]
  | @deliver k r hr =>
    have count := countP_eraseIdx hr fun r => !outdated cfg σ.etcd r
    simp only at settled fewer
    refine ⟨by omega, ?_⟩
    rintro ⟨r', hr', live⟩
    obtain rfl := Option.some.inj (hr.symm.trans hr')
    simp only [live, Bool.not_false, if_true] at count
    omega
  | expire =>
    simp only at settled fewer
    refine ⟨by omega, fun live => ?_⟩
    have := Store.length_leases_revoke live
    omega
  | revoked hp =>
    simp only at settled fewer
    refine ⟨by omega, ?_⟩
    rintro ⟨-, c, hc, live⟩
    obtain rfl := Option.some.inj (hp.symm.trans hc)
    have := Store.length_leases_revoke live
    omega
  | unrevoked => exact quiet rfl (by simp [stirs])
  | spawn | request => cases ha
  | _ => exact quiet rfl id

end

/-! ## The nodes that are up -/

def survivors (σ : Cluster) : List Nat :=
  (List.range σ.procs.length).filter fun p => σ.procs[p]?.any (up σ.etcd)

theorem mem_survivors {σ : Cluster} {p : Nat} :
    p ∈ survivors σ ↔ ∃ c, σ.procs[p]? = some c ∧ up σ.etcd c = true := by
  simp only [survivors, List.mem_filter, List.mem_range, Option.any_eq_true]
  constructor
  · exact fun h => h.2
  · rintro ⟨c, hp, here⟩
    exact ⟨(List.getElem?_eq_some_iff.mp hp).1, c, hp, here⟩

/-- Where ids are used again only after their earlier incarnations, it is enough
that every listed member has a node that is up. -/
theorem survivors_manned {cfg : Config} {σ : Cluster}
    (history : Reachable (Initial cfg) (LiveOwners.Allowed cfg) σ)
    (alive : ∀ m ∈ listMembers cfg.pfx σ.etcd, ∃ p ∈ survivors σ, ∃ c, σ.procs[p]? = some c ∧
      c.nodeID = m) : Manned cfg (survivors σ) σ := by
  have inv := LiveOwners.reachable_inv history
  have live {p : Nat} {c : Coordinator} (mem : p ∈ survivors σ) (hp : σ.procs[p]? = some c) :
      LiveOwners.Rides cfg.pfx σ.etcd c.nodeID c.leaseID ∧
        LiveOwners.retired σ.etcd c = false ∧ up σ.etcd c = true := by
    obtain ⟨d, hd, here⟩ := mem_survivors.mp mem
    obtain rfl := Option.some.inj (hp.symm.trans hd)
    obtain ⟨running, live⟩ := up_iff.mp here
    have node := inv.node p c hp
    obtain ⟨holds, put⟩ := node.candidate_eq (node.running running)
    rw [← holds] at live ⊢
    exact ⟨inv.member p c hp put live, LiveOwners.live_candidate live, here⟩
  refine ⟨List.nodup_range.filter _, ?_, ?_, alive, ?_⟩
  · intro p mem
    obtain ⟨c, hp, here⟩ := mem_survivors.mp mem
    exact ⟨c, hp, here, (inv.node p c hp).named, (live mem hp).1⟩
  · intro p hp q hq c hc d hd same
    exact inv.ids p q c d hc hd same (live hp hc).2.1 (live hq hd).2.1
  · intro s _ m own
    obtain ⟨kv, hk, rfl⟩ := Option.map_eq_some_iff.mp own
    obtain ⟨-, member, hm, -⟩ := inv.owner_rides hk
    exact mem_listMembers.mpr ⟨member, hm⟩

end MilvusCatalog.Convergence

import MilvusCatalog.Convergence.Stabilize
import MilvusCatalog.SplitBrain

/-! Self-stabilisation. Once every shard is in its place, one more round of a node
binds its shards to its lease and leaves it nothing to write, and a further one
gives it their terms. -/
namespace MilvusCatalog.Convergence
open Go Etcd Transition

/-! ## Records in their place -/

def Placed (cfg : Config) (M : List Str) (e : Store) : Prop :=
  ∀ s < shardCount, shardOwner cfg.pfx e s = some (cfg.rendezvous s M)

theorem Placed.record {cfg : Config} {M : List Str} {e : Store} (h : Placed cfg M e) {s : Nat}
    (hs : s < shardCount) : ∃ kv, e.get (shardKey cfg.pfx s) = some kv ∧
      kv.value = cfg.rendezvous s M :=
  Option.map_eq_some_iff.mp (h s hs)

/-- A node whose loop runs neither grants nor revokes. -/
theorem issue_running (cfg : Config) {c : Coordinator} (running : c.pc.running) (e : Store)
    (o : Outcome) :
    ((c.issue cfg e o).etcd = e ∧ (c.issue cfg e o).commits = []) ∨
      ∃ r, c.request = some r ∧
        Applied cfg.pfx e r (c.issue cfg e o).etcd (c.issue cfg e o).commits := by
  obtain quiet | ⟨hpc, -⟩ | ⟨_, hpc, -⟩ | sends := c.issue_cases cfg e o
  · exact .inl quiet
  · rw [hpc] at running; cases running
  · rw [hpc] at running; cases running
  · exact .inr sends

/-- Of the records in their place, a step can at most rebind one. -/
theorem placed_record {cfg : Config} {M : List Str} {σ σ' : Cluster} {a : Action}
    (world : World cfg M σ) (placed : Placed cfg M σ.etcd) (ha : allowed a = true)
    (step : exec cfg σ a = some σ') {s : Nat} (hs : s < shardCount) :
    σ'.etcd.get (shardKey cfg.pfx s) = σ.etcd.get (shardKey cfg.pfx s) ∨
      ∃ (q : Nat) (c : Coordinator), a = .call q .ok ∧ σ.procs[q]? = some c ∧
        (∃ todo, c.pc = .rebinding (s :: todo)) ∧ cfg.rendezvous s M = c.nodeID := by
  obtain same | ⟨q, c, rfl, hq, same, -⟩ := step_owner world ha step
  · exact .inl (by rw [same])
  · obtain ⟨-, -, plan⟩ := world.node q c hq
    have running := plan.running
    obtain ⟨kv, hk, value⟩ := placed.record hs
    rw [same]
    obtain ⟨quiet, -⟩ | ⟨r, hr, applied⟩ := issue_running cfg running σ.etcd .ok
    · exact .inl (by rw [quiet])
    · by_cases aimed : r.rewrites = some (s, kv.value)
      · obtain ⟨own, ⟨todo, hpc⟩ | ⟨todo, hpc⟩⟩ := SplitBrain.request_rewrites hr s kv.value aimed
        · have due := plan.due _ (.inr hpc) s List.mem_cons_self
          exact absurd (value.symm.trans own) (plan.releases (hpc ▸ trivial) s due)
        · exact .inr ⟨q, c, rfl, hq, ⟨todo, hpc⟩, value.symm.trans own⟩
      · exact .inl (by rw [applied.kept hk aimed, hk])

/-- A rebind by the owner takes the record to its lease. -/
theorem rebind_lease {cfg : Config} {e : Store} {c : Coordinator} {s : Nat} {todo : List Nat}
    (hpc : c.pc = .rebinding (s :: todo)) (live : c.leaseID ∈ e.leases) {kv kv' : KeyValue}
    (own : e.get (shardKey cfg.pfx s) = some kv) (value : kv.value = c.nodeID)
    (hk : (c.issue cfg e .ok).etcd.get (shardKey cfg.pfx s) = some kv') :
    kv'.lease = c.leaseID := by
  have mine : e.valueIs (shardKey cfg.pfx s) c.nodeID = true :=
    (e.valueIs_iff _ _).mpr ⟨kv, own, value⟩
  obtain ⟨e', put⟩ := Option.isSome_iff_exists.mp
    ((e.put_isSome (shardKey cfg.pfx s) c.nodeID c.leaseID).mpr (.inr live))
  have issue : (c.issue cfg e .ok).etcd = e' := by
    simp [Coordinator.issue, Coordinator.request, hpc, Request.issue, Request.apply, rebindShard,
      mine, put]
  rw [issue, (Store.put_wrote put).2.get_self] at hk
  rw [← Option.some.inj hk]
  rfl

/-! ## Bound and silent -/

/-- The shards that are to be the node's ride its lease. -/
def Bound (cfg : Config) (M : List Str) (e : Store) (c : Coordinator) : Prop :=
  ∀ s < shardCount, cfg.rendezvous s M = c.nodeID → ∀ kv, e.get (shardKey cfg.pfx s) = some kv →
    kv.lease = c.leaseID

/-- What a round has left to rebind, once it has loaded the ownership map. -/
def toBind (c : Coordinator) : Option (List Nat) :=
  match c.pc with
  | .rebinding todo => some todo
  | .installing => some []
  | _ => none

/-- Every shard of the node that rides another lease is still to be rebound. -/
def Binding (cfg : Config) (M : List Str) (e : Store) (c : Coordinator) : Prop :=
  ∀ todo, toBind c = some todo → ∀ s < shardCount, cfg.rendezvous s M = c.nodeID →
    ∀ kv, e.get (shardKey cfg.pfx s) = some kv → kv.lease ≠ c.leaseID → s ∈ todo

/-- The round has nothing to write. -/
def Silent (c : Coordinator) : Prop :=
  match c.pc with
  | .claiming todo | .marking todo | .releasing todo | .rebinding todo => todo = []
  | _ => True

theorem Silent.request {c : Coordinator} (h : Silent c) (running : c.pc.running) :
    c.request = none := by
  unfold Coordinator.request
  split
  · next hpc => rw [hpc] at running; cases running
  all_goals first
    | rfl
    | next hpc =>
      unfold Silent at h
      rw [hpc] at h
      cases h

section
variable {cfg : Config} {M : List Str} {σ σ' : Cluster} {a : Action} {p : Nat} {c d : Coordinator}

theorem own_rebind (world : World cfg M σ) (placed : Placed cfg M σ.etcd)
    (step : exec cfg σ (.call p .ok) = some σ') (hp : σ.procs[p]? = some c) {s : Nat}
    (hs : s < shardCount) (mine : cfg.rendezvous s M = c.nodeID) {todo : List Nat}
    (hpc : c.pc = .rebinding (s :: todo)) {kv : KeyValue}
    (hk : σ'.etcd.get (shardKey cfg.pfx s) = some kv) : kv.lease = c.leaseID := by
  obtain ⟨kv₀, hk₀, value⟩ := placed.record hs
  cases exec_step step with
  | call hq =>
    obtain rfl := Option.some.inj (hp.symm.trans hq)
    exact rebind_lease hpc (world.node p c hp).2.1 hk₀ (value.trans mine) hk

/-- What a step does to the record of a shard that is to be the node's. -/
theorem own_record (world : World cfg M σ) (placed : Placed cfg M σ.etcd) (ha : allowed a = true)
    (step : exec cfg σ a = some σ') (hp : σ.procs[p]? = some c) {s : Nat} (hs : s < shardCount)
    (mine : cfg.rendezvous s M = c.nodeID) :
    σ'.etcd.get (shardKey cfg.pfx s) = σ.etcd.get (shardKey cfg.pfx s) ∨
      ∀ kv, σ'.etcd.get (shardKey cfg.pfx s) = some kv → kv.lease = c.leaseID := by
  obtain same | ⟨q, b, rfl, hq, ⟨todo, hpc⟩, theirs⟩ := placed_record world placed ha step hs
  · exact .inl same
  · obtain rfl := world.ids q p b c hq hp (theirs.symm.trans mine)
    obtain rfl := Option.some.inj (hq.symm.trans hp)
    exact .inr fun kv hk => own_rebind world placed step hq hs mine hpc hk

theorem step_leaseID (world : World cfg M σ) (ha : allowed a = true) (hp : σ.procs[p]? = some c)
    (stepped : Stepped cfg σ p c a d) : d.leaseID = c.leaseID := by
  obtain ⟨-, rfl⟩ | ⟨-, last, rfl⟩ := stepped_moves ha stepped
  · exact (resume_running cfg σ.etcd σ.now (world.node p c hp).2.2.running).2
  · rfl

theorem Bound.step (h : Bound cfg M σ.etcd c) (world : World cfg M σ)
    (placed : Placed cfg M σ.etcd) (ha : allowed a = true) (step : exec cfg σ a = some σ')
    (hp : σ.procs[p]? = some c) (stepped : Stepped cfg σ p c a d) : Bound cfg M σ'.etcd d := by
  intro s hs mine kv hk
  rw [stepped.nodeID] at mine
  rw [step_leaseID world ha hp stepped]
  obtain same | rebound := own_record world placed ha step hp hs mine
  · exact h s hs mine kv (same ▸ hk)
  · exact rebound kv hk

theorem Binding.step (h : Binding cfg M σ.etcd c) (aligning : Aligning cfg M c)
    (world : World cfg M σ) (placed : Placed cfg M σ.etcd) (ha : allowed a = true)
    (step : exec cfg σ a = some σ') (hp : σ.procs[p]? = some c)
    (stepped : Stepped cfg σ p c a d) : Binding cfg M σ'.etcd d := by
  intro todo htodo s hs mine kv hk other
  rw [stepped.nodeID] at mine
  rw [step_leaseID world ha hp stepped] at other
  -- A record on another lease has not been touched by this step.
  obtain same | rebound := own_record world placed ha step hp hs mine
  · have now := hk
    rw [same] at hk
    have before (l : List Nat) (hl : toBind c = some l) : s ∈ l := h l hl s hs mine kv hk other
    obtain ⟨rfl, rfl⟩ | ⟨-, last, rfl⟩ := stepped_moves ha stepped
    · cases hpc : c.pc with
      | loadOwnershipMap =>
        simp only [Coordinator.resume, hpc, if_true, toBind, Option.some.injEq] at htodo
        obtain ⟨kv', hk', value⟩ := placed.record hs
        obtain rfl := Option.some.inj (hk.symm.trans hk')
        have none := aligning.release (hpc ▸ trivial)
        simp only [← htodo, Coordinator.toRebind, List.mem_filter, List.mem_range,
          decide_eq_true_eq, loadOwnershipMap_eq world.layout hs, hk, Option.map_some,
          Option.getD_some, ownerInfo, none, List.not_mem_nil, not_false_eq_true, and_true]
        exact ⟨hs, value.trans mine, other⟩
      | rebinding l =>
        have mem := before l (by simp only [toBind, hpc])
        cases l with
        | nil => cases mem
        | cons x l =>
          simp only [Coordinator.resume, hpc, toBind, Option.some.injEq] at htodo
          cases List.mem_cons.mp mem with
          | inl head =>
            subst head
            exact absurd (own_rebind world placed step hp hs mine hpc now) other
          | inr mem => exact htodo ▸ mem
      | installing => simp [Coordinator.resume, hpc, toBind, Coordinator.install] at htodo
      | claiming l | marking l | releasing l =>
        cases l <;> simp [Coordinator.resume, hpc, toBind] at htodo
      | granting | putting | keepingAlive | revoking | stopped =>
        have := (world.node p c hp).2.2.running
        rw [hpc] at this
        cases this
      | _ => simp [Coordinator.resume, hpc, toBind] at htodo
    · exact before todo htodo
  · exact absurd (rebound kv hk) other

/-- With everything in its place and bound, a round finds nothing to write. -/
theorem resume_silent (layout : Layout cfg.pfx σ.etcd) (plan : Plan cfg M c)
    (placed : Placed cfg M σ.etcd) (named : ∀ s, cfg.rendezvous s M ≠ [])
    (aligning : Aligning cfg M c) (bound : Bound cfg M σ.etcd c) (h : Silent c) :
    Silent (c.resume cfg σ.etcd σ.now .ok) := by
  cases hpc : c.pc with
  | granting | putting | keepingAlive | revoking | stopped =>
    have := plan.running
    rw [hpc] at this
    cases this
  | loadShardMap =>
    simp only [Coordinator.resume, hpc, if_true, Silent]
    apply List.eq_nil_iff_forall_not_mem.mpr
    intro s hs
    obtain ⟨lt, free, -⟩ := mem_claim.mp hs
    rw [loadShardMap_owner layout lt, placed s lt] at free
    exact named s free
  | claiming todo =>
    simp only [Silent, hpc] at h
    subst h
    simp only [Coordinator.resume, hpc, Silent]
    exact aligning.release (hpc ▸ trivial)
  | marking todo | releasing todo | rebinding todo =>
    simp only [Silent, hpc] at h
    subst h
    simp only [Coordinator.resume, hpc, Silent]
  | loadOwnershipMap =>
    simp only [Coordinator.resume, hpc, if_true, Silent, Coordinator.toRebind,
      List.filter_eq_nil_iff, List.mem_range, decide_eq_true_eq]
    rintro s hs ⟨own, other, -⟩
    obtain ⟨kv, hk, value⟩ := placed.record hs
    rw [loadOwnershipMap_eq layout hs, hk] at own other
    exact other (bound s hs (value.symm.trans own) kv hk)
  | _ => simp [Coordinator.resume, hpc, Silent, Coordinator.install]

/-- A node that has been bound and has nothing to write. -/
structure Settled (cfg : Config) (M : List Str) (e : Store) (c : Coordinator) : Prop where
  aligning : Aligning cfg M c
  bound : Bound cfg M e c
  silent : Silent c

theorem Aligning.step (h : Aligning cfg M c) (world : World cfg M σ)
    (placed : Placed cfg M σ.etcd) (ha : allowed a = true) (hp : σ.procs[p]? = some c)
    (stepped : Stepped cfg σ p c a d) : Aligning cfg M d := by
  obtain ⟨-, rfl⟩ | ⟨-, last, rfl⟩ := stepped_moves ha stepped
  · exact resume_aligning world.layout (world.node p c hp).2.2 placed h
  · exact ⟨h.release, h.om⟩

theorem Settled.step (h : Settled cfg M σ.etcd c) (world : World cfg M σ)
    (placed : Placed cfg M σ.etcd) (named : ∀ s, cfg.rendezvous s M ≠ [])
    (ha : allowed a = true) (step : exec cfg σ a = some σ') (hp : σ.procs[p]? = some c)
    (stepped : Stepped cfg σ p c a d) : Settled cfg M σ'.etcd d where
  aligning := h.aligning.step world placed ha hp stepped
  bound := h.bound.step world placed ha step hp stepped
  silent := by
    obtain ⟨-, rfl⟩ | ⟨-, last, rfl⟩ := stepped_moves ha stepped
    · exact resume_silent world.layout (world.node p c hp).2.2 placed named h.aligning h.bound
        h.silent
    · exact h.silent

/-- When no node has anything to write, the store stays as it is. -/
theorem silent_store (world : World cfg M σ) (ha : allowed a = true)
    (step : exec cfg σ a = some σ')
    (silent : ∀ (p : Nat) (c : Coordinator), σ.procs[p]? = some c → Silent c) :
    σ'.etcd = σ.etcd := by
  obtain same | ⟨q, c, -, hq, same, -⟩ := step_owner world ha step
  · exact same
  · have running := (world.node q c hq).2.2.running
    have none := (silent q c hq).request running
    rw [same]
    obtain ⟨quiet, -⟩ | ⟨r, hr, -⟩ := issue_running cfg running σ.etcd .ok
    · exact quiet
    · rw [none] at hr; cases hr

/-! ## Terms -/

/-- The node serves exactly the shards that are to be its own, each under the
term of its record. -/
def Serves (cfg : Config) (M : List Str) (e : Store) (c : Coordinator) : Prop :=
  ∀ s, c.releasing s = false ∧ c.owned s =
    if s < shardCount ∧ cfg.rendezvous s M = c.nodeID then
      (e.get (shardKey cfg.pfx s)).map KeyValue.modRevision
    else none

/-- The loaded map is the one of the store. -/
def Current (cfg : Config) (e : Store) (c : Coordinator) : Prop :=
  c.pc.loaded → c.round.om = loadOwnershipMap cfg.pfx e

theorem resume_current {e : Store} {now : Nat} (running : c.pc.running) (h : Current cfg e c) :
    Current cfg e (c.resume cfg e now .ok) := by
  cases hpc : c.pc with
  | granting | putting | keepingAlive | revoking | stopped => rw [hpc] at running; cases running
  | rebinding todo =>
    have om := h (hpc ▸ trivial)
    cases todo <;> simpa [Current, Coordinator.resume, hpc, Pc.loaded] using om
  | claiming todo | marking todo | releasing todo =>
    cases todo <;> simp [Current, Coordinator.resume, hpc, Pc.loaded]
  | _ => simp [Current, Coordinator.resume, hpc, Pc.loaded, Coordinator.install]

theorem install_current {e : Store} (layout : Layout cfg.pfx e) (placed : Placed cfg M e)
    (aligning : Aligning cfg M c) (current : Current cfg e c) (hpc : c.pc = .installing) :
    Serves cfg M e c.install := by
  intro s
  have release := aligning.release (hpc ▸ trivial)
  have om := current (hpc ▸ trivial)
  refine ⟨by simp [Coordinator.install, Coordinator.loadedReleasing, release], ?_⟩
  simp only [Coordinator.install, Coordinator.loadedOwned, om]
  by_cases hs : s < shardCount
  · obtain ⟨kv, hk, value⟩ := placed.record hs
    simp [hs, loadOwnershipMap_eq layout hs, hk, ownerInfo, value]
  · simp [hs]

theorem resume_serves {e : Store} {now : Nat} (layout : Layout cfg.pfx e)
    (placed : Placed cfg M e) (plan : Plan cfg M c) (aligning : Aligning cfg M c)
    (silent : Silent c) (current : Current cfg e c) (h : Serves cfg M e c) :
    Serves cfg M e (c.resume cfg e now .ok) := by
  cases hpc : c.pc with
  | installing =>
    simpa only [Coordinator.resume, hpc] using install_current layout placed aligning current hpc
  | marking todo =>
    simp only [Silent, hpc] at silent
    subst silent
    simp only [Coordinator.resume, hpc]
    exact h
  | granting | putting | keepingAlive | revoking | stopped =>
    have := plan.running
    rw [hpc] at this
    cases this
  | claiming todo | releasing todo | rebinding todo =>
    cases todo <;> simp only [Coordinator.resume, hpc] <;> exact h
  | _ =>
    simp only [Coordinator.resume, hpc, if_true]
    exact h

theorem Current.step {e : Store} (h : Current cfg e c) (same : σ.etcd = e)
    (world : World cfg M σ) (ha : allowed a = true) (hp : σ.procs[p]? = some c)
    (stepped : Stepped cfg σ p c a d) : Current cfg e d := by
  obtain ⟨-, rfl⟩ | ⟨-, last, rfl⟩ := stepped_moves ha stepped
  · exact same ▸ resume_current (world.node p c hp).2.2.running (same ▸ h)
  · exact h

end

/-! ## The runs -/

section Runs

variable {cfg : Config} {M : List Str} (run : Rounds cfg)

/-- The third round of a node, once everything is in its place. -/
theorem settled_at (world : ∀ t, World cfg M (run.state t)) (named : ∀ s, cfg.rendezvous s M ≠ [])
    {U V : Nat} (placed : ∀ u, U ≤ u → Placed cfg M (run.state u).etcd) {p : Nat}
    (third : Completes run p U V) {u : Nat} (hu : V ≤ u) :
    ∃ c, (run.state u).procs[p]? = some c ∧ Settled cfg M (run.state u).etcd c := by
  obtain ⟨j, c, hj, hjv, act, hc, installing, aligning, binding⟩ := round_reaches run
    (P := fun σ c => Aligning cfg M c ∧ Binding cfg M σ.etcd c)
    (fun _ c hpc => ⟨⟨by simp [hpc, decided], by simp [hpc, Pc.loaded]⟩, by
      simp [Binding, toBind, hpc]⟩)
    (fun i hi c d hc stepped h => ⟨h.1.step (world i) (placed i hi) (run.permitted i) hc stepped,
      h.2.step h.1 (world i) (placed i hi) (run.permitted i) (run.step i) hc stepped⟩) third
  -- At the install nothing is left to rebind.
  have bound : Bound cfg M (run.state j).etcd c := by
    intro s hs mine kv hk
    by_contra other
    have := binding [] (by simp [toBind, installing]) s hs mine kv hk other
    cases this
  obtain ⟨d, hd, stepped⟩ := exec_survives (run.step j) hc
  have next := own_call run act hc
  obtain rfl := Option.some.inj (hd.symm.trans next)
  have settled : Settled cfg M (run.state (j + 1)).etcd _ :=
    ⟨aligning.step (world j) (placed j hj) (run.permitted j) hc stepped,
      bound.step (world j) (placed j hj) (run.permitted j) (run.step j) hc stepped,
      by simp [Silent, Coordinator.resume, installing, Coordinator.install]⟩
  refine node_keeps run (P := fun c σ => Settled cfg M σ.etcd c) (show j + 1 ≤ u by omega) hd
    settled fun i hi b b' hb stepped h => ?_
  exact h.step (world i) (placed i (by omega)) named (run.permitted i) (run.step i) hb stepped

/-- From then on the store stays the same. -/
theorem store_at (world : ∀ t, World cfg M (run.state t)) {V : Nat}
    (settled : ∀ u, V ≤ u → ∀ (p : Nat) (c : Coordinator), (run.state u).procs[p]? = some c →
      Settled cfg M (run.state u).etcd c) {u : Nat} (hu : V ≤ u) :
    (run.state u).etcd = (run.state V).etcd := by
  refine run.keeps (fun σ => σ.etcd = (run.state V).etcd) hu (fun i hi _ ih => ?_) rfl
  rw [← ih]
  exact silent_store (world i) (run.permitted i) (run.step i) fun p c hc =>
    (settled i hi p c hc).silent

/-- The fourth round of a node, once the store stays the same. -/
theorem serves_at (world : ∀ t, World cfg M (run.state t)) {V W : Nat} {e : Store}
    (placed : Placed cfg M e) (store : ∀ u, V ≤ u → (run.state u).etcd = e)
    (settled : ∀ u, V ≤ u → ∀ (p : Nat) (c : Coordinator), (run.state u).procs[p]? = some c →
      Settled cfg M (run.state u).etcd c)
    {p : Nat} (fourth : Completes run p V W) {u : Nat} (hu : W ≤ u) :
    ∃ c, (run.state u).procs[p]? = some c ∧ Serves cfg M e c := by
  have layout : Layout cfg.pfx e := store V (Nat.le_refl V) ▸ (world V).layout
  obtain ⟨j, c, hj, hjw, act, hc, installing, current⟩ := round_reaches run
    (P := fun _ c => Current cfg e c) (fun _ c hpc => by simp [Current, hpc, Pc.loaded])
    (fun i hi c d hc stepped h => h.step (store i hi) (world i) (run.permitted i) hc stepped) fourth
  obtain ⟨d, hd, stepped⟩ := exec_survives (run.step j) hc
  have next := own_call run act hc
  obtain rfl := Option.some.inj (hd.symm.trans next)
  have serves : Serves cfg M e (c.resume cfg (run.state j).etcd (run.state j).now .ok) := by
    simpa only [Coordinator.resume, installing] using
      install_current layout placed (settled j hj p c hc).aligning current installing
  have current := current.step (store j hj) (world j) (run.permitted j) hc stepped
  obtain ⟨f, hf, -, serves⟩ := node_keeps run (P := fun c _ => Current cfg e c ∧ Serves cfg M e c)
    (show j + 1 ≤ u by omega) hd ⟨current, serves⟩ (by
      rintro i hi b b' hb stepped ⟨current, serves⟩
      have later : V ≤ i := by omega
      refine ⟨current.step (store i later) (world i) (run.permitted i) hb stepped, ?_⟩
      obtain ⟨-, rfl⟩ | ⟨-, last, rfl⟩ := stepped_moves (run.permitted i) stepped
      · obtain ⟨aligning, -, silent⟩ := settled i later p b hb
        rw [store i later]
        exact resume_serves layout placed ((world i).node p b hb).2.2 aligning silent current serves
      · exact serves)
  exact ⟨f, hf, serves⟩

end Runs

/-- Every shard is owned by its rendezvous owner among the members, and every node
of the crew has its shards under its own lease and serves exactly these, under
their terms. -/
structure Converged (cfg : Config) (crew : List Nat) (M : List Str) (σ : Cluster) : Prop where
  members : listMembers cfg.pfx σ.etcd = M
  placed : Placed cfg M σ.etcd
  node : ∀ p ∈ crew, ∀ c, σ.procs[p]? = some c → Bound cfg M σ.etcd c ∧ Serves cfg M σ.etcd c

theorem Fair.shift {cfg : Config} {run : Rounds cfg} {p : Nat} (fair : Fair run p) (T : Nat) :
    Fair (run.shift T) p := by
  intro t
  obtain ⟨n, act⟩ := fair (T + t)
  exact ⟨n, by rwa [Nat.add_assoc] at act⟩

/-- Self-stabilisation. From any point of any rounds of the members' nodes,
with whatever they have listed, loaded, planned, marked and installed before, a
run in which every node is called again and again comes to a state from which on
nothing is written and the placement holds. -/
theorem stabilises {cfg : Config} {M : List Str} (run : Rounds cfg)
    (start : Members cfg M (run.state 0)) (nonempty : M ≠ [])
    (fair : ∀ p < (run.state 0).procs.length, Fair run p) :
    ∃ V, ∀ u, V ≤ u → (run.state u).etcd = (run.state V).etcd ∧
      Converged cfg (List.range (run.state 0).procs.length) M (run.state u) := by
  obtain ⟨T, world⟩ := eventually_world run start fair
  let rest := run.shift T
  have world : ∀ t, World cfg M (rest.state t) := fun t => world (T + t) (by omega)
  have fair : ∀ p < (rest.state 0).procs.length, Fair rest p := by
    intro p hp
    exact (fair p (procs_length run T ▸ hp)).shift T
  have named (s : Nat) : cfg.rendezvous s M ≠ [] :=
    start.named _ (rendezvous_mem _ _ nonempty start.named)
  obtain ⟨T₁, first⟩ := all_complete rest world fair 0
  obtain ⟨T₂, second⟩ := all_complete rest world fair T₁
  obtain ⟨T₃, third⟩ := all_complete rest world fair T₂
  obtain ⟨T₄, fourth⟩ := all_complete rest world fair T₃
  have cleared := fun u hu s hs m => cleared_at rest world first (u := u) hu (s := s) hs (m := m)
  have placed : ∀ u, T₂ ≤ u → Placed cfg M (rest.state u).etcd := fun u hu s hs =>
    placed_at rest world nonempty cleared second hu hs
  have node {u p : Nat} {c : Coordinator} (hc : (rest.state u).procs[p]? = some c) :
      ∃ c₀, (rest.state 0).procs[p]? = some c₀ :=
    node_at rest p (procs_length rest u ▸ (List.getElem?_eq_some_iff.mp hc).1) 0
  have settled : ∀ u, T₃ ≤ u → ∀ (p : Nat) (c : Coordinator), (rest.state u).procs[p]? = some c →
      Settled cfg M (rest.state u).etcd c := by
    intro u hu p c hc
    obtain ⟨c₀, h₀⟩ := node hc
    obtain ⟨d, hd, settled⟩ := settled_at rest world named placed (third p c₀ h₀) hu
    obtain rfl := Option.some.inj (hc.symm.trans hd)
    exact settled
  have store : ∀ u, T₃ ≤ u → (rest.state u).etcd = (rest.state T₃).etcd := fun u hu =>
    store_at rest world settled hu
  -- There is a member, so the phases follow each other.
  obtain ⟨m, hm⟩ := List.exists_mem_of_ne_nil M nonempty
  obtain ⟨p₀, c₀, h₀, -⟩ := (world 0).all m hm
  have after₃ := (third p₀ c₀ h₀).lt
  have after₄ := (fourth p₀ c₀ h₀).lt
  have converged : ∀ u, T₄ ≤ u →
      Converged cfg (List.range (run.state 0).procs.length) M (rest.state u) := by
    intro u hu
    have later : T₃ ≤ u := by omega
    refine ⟨(world u).members, placed u (by omega), fun p _ c hc => ?_⟩
    refine ⟨(settled u later p c hc).bound, ?_⟩
    obtain ⟨c₁, h₁⟩ := node hc
    obtain ⟨d, hd, serves⟩ := serves_at rest world (placed T₃ (by omega)) store settled
      (fourth p c₁ h₁) hu
    obtain rfl := Option.some.inj (hc.symm.trans hd)
    rwa [store u later]
  refine ⟨T + T₄, fun u hu => ?_⟩
  obtain ⟨w, rfl⟩ := Nat.exists_eq_add_of_le (show T ≤ u by omega)
  exact ⟨(store w (by omega)).trans (store T₄ (by omega)).symm, converged w (by omega)⟩

end MilvusCatalog.Convergence

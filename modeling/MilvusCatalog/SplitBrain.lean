import MilvusCatalog.Cluster

/-! No split brain. A node that passes its own gate has the record of the shard
in etcd, under its own id and its live lease, whatever rounds the nodes are in
the middle of and whatever calls have failed. -/
namespace MilvusCatalog.SplitBrain
open Go Etcd Transition

/-- The record of shard `s` is node `c`'s, under its current lease and term `t`. -/
def Holds (pfx : Str) (e : Store) (c : Coordinator) (s t : Nat) : Prop :=
  (e.get (shardKey pfx s)).map ownerInfo = some ⟨c.nodeID, t, c.leaseID⟩

/-- The lease a node has asked for, also while it is still joining. -/
def lease (c : Coordinator) : Nat :=
  match c.pc with
  | .putting l | .keepingAlive l | .revoking l => l
  | _ => c.leaseID

/-- What ties a node's program counter and its maps to the store. -/
structure Local (pfx : Str) (e : Store) (c : Coordinator) : Prop where
  named : c.nodeID ≠ []
  joining : c.pc.joining → c.leaseID = 0 ∧ ∀ s, c.owned s = none
  asked : ∀ l, c.pc = .putting l ∨ c.pc = .keepingAlive l → l ≠ 0
  running : c.pc.running → c.leaseID ≠ 0
  gate : ∀ s t, c.owned s = some t → c.releasing s = false → c.leaseID ∈ e.leases →
    Holds pfx e c s t
  marked : ∀ s todo, c.pc = .releasing (s :: todo) → c.releasing s = true
  loaded : c.pc.loaded → ∀ s < shardCount, (c.round.om s).owner = c.nodeID →
    c.leaseID ∈ e.leases → Holds pfx e c s (c.round.om s).term
  bound : ∀ todo, c.pc = .rebinding todo → todo = []

structure Inv (cfg : Config) (σ : Cluster) : Prop where
  layout : Layout cfg.pfx σ.etcd
  node : ∀ (q : Nat) (c : Coordinator), σ.procs[q]? = some c → Local cfg.pfx σ.etcd c
  stale : ∀ (q : Nat) (c : Coordinator), σ.procs[q]? = some c → c.leaseID ∉ σ.etcd.leases →
    c.fresh σ.now = false
  ids : ∀ (p q : Nat) (c d : Coordinator), σ.procs[p]? = some c → σ.procs[q]? = some d →
    c.nodeID = d.nodeID → p = q
  known : ∀ (q : Nat) (c : Coordinator), σ.procs[q]? = some c → lease c < σ.etcd.nextLease
  leases : ∀ (p q : Nat) (c d : Coordinator), σ.procs[p]? = some c → σ.procs[q]? = some d →
    lease c = lease d → lease c ≠ 0 → p = q
  keys : ∀ (s : Nat) (kv : KeyValue), σ.etcd.get (shardKey cfg.pfx s) = some kv →
    ∃ (q : Nat) (c : Coordinator), σ.procs[q]? = some c ∧ kv.value = c.nodeID ∧
      kv.lease = c.leaseID ∧ c.leaseID ≠ 0

/-- A store change that spares a node's records and brings back no lease of it
keeps everything the node relies on. -/
theorem Local.frame {pfx : Str} {e e' : Store} {c : Coordinator} (h : Local pfx e c)
    (live : c.leaseID ∈ e'.leases → c.leaseID ∈ e.leases)
    (kept : ∀ s t, c.leaseID ∈ e'.leases → Holds pfx e c s t → Holds pfx e' c s t) :
    Local pfx e' c where
  named := h.named
  joining := h.joining
  asked := h.asked
  running := h.running
  gate := fun s t own unmarked alive => kept s t alive (h.gate s t own unmarked (live alive))
  marked := h.marked
  loaded := fun hl s hs own alive => kept s _ alive (h.loaded hl s hs own (live alive))
  bound := h.bound

theorem Holds.record {pfx : Str} {e : Store} {c : Coordinator} {s t : Nat}
    (h : Holds pfx e c s t) : ∃ kv, e.get (shardKey pfx s) = some kv ∧ kv.value = c.nodeID ∧
      kv.lease = c.leaseID ∧ kv.modRevision = t := by
  obtain ⟨kv, hk, hi⟩ := Option.map_eq_some_iff.mp h
  rw [ownerInfo, OwnerInfo.mk.injEq] at hi
  exact ⟨kv, hk, hi.1, hi.2.2, hi.2.1⟩

theorem Holds.applied {pfx : Str} {e e' : Store} {c : Coordinator} {s t : Nat} {r : Request}
    {cs : List Commit} (h : Holds pfx e c s t) (ha : Applied pfx e r e' cs)
    (spared : r.rewrites ≠ some (s, c.nodeID)) : Holds pfx e' c s t := by
  obtain ⟨kv, hk, hv, -⟩ := h.record
  have := ha.kept hk (hv ▸ spared)
  unfold Holds at h ⊢
  rwa [this, ← hk]

theorem Holds.revoke {pfx : Str} {e : Store} {c : Coordinator} {s t l : Nat}
    (h : Holds pfx e c s t) (alive : c.leaseID ∈ (e.revoke l).leases) :
    Holds pfx (e.revoke l) c s t := by
  have ne : c.leaseID ≠ l := ((e.mem_leases_revoke l c.leaseID).mp alive).2
  obtain ⟨kv, hk, -, hlease, -⟩ := h.record
  unfold Holds at h ⊢
  rwa [Store.get_revoke_other (by simpa [hk, hlease] using ne)]

/-! ## The steps of one node -/

/-- A node that is not aiming at anyone else's record spares the other nodes. -/
theorem request_rewrites {c : Coordinator} {r : Request} (h : c.request = some r) (s : Nat)
    (id : Str) (hr : r.rewrites = some (s, id)) : id = c.nodeID ∧
      ((∃ todo, c.pc = .releasing (s :: todo)) ∨ ∃ todo, c.pc = .rebinding (s :: todo)) := by
  unfold Coordinator.request at h
  split at h <;> cases h <;> simp_all [Request.rewrites]

theorem leaseID_lt {cfg : Config} {σ : Cluster} (inv : Inv cfg σ) {q : Nat} {c : Coordinator}
    (hq : σ.procs[q]? = some c) : c.leaseID < σ.etcd.nextLease := by
  have known := inv.known q c hq
  have joining := (inv.node q c hq).joining
  have positive := σ.etcd.positive
  unfold lease at known
  split at known
  all_goals first
    | exact known
    | next hpc =>
      rw [hpc] at joining
      have := (joining trivial).1
      omega

/-- A step of node `p` keeps what every other node relies on. -/
theorem others_local {cfg : Config} {σ : Cluster} (inv : Inv cfg σ) {p q : Nat}
    {c d : Coordinator} (hp : σ.procs[p]? = some c) (hq : σ.procs[q]? = some d) (ne : q ≠ p)
    (o : Outcome) : Local cfg.pfx (c.issue cfg σ.etcd o).etcd d := by
  have hd := inv.node q d hq
  rcases c.issue_cases cfg σ.etcd o with ⟨he, -⟩ | ⟨-, he, -⟩ | ⟨l, -, he, -⟩ | ⟨r, hr, ha⟩
  · rw [he]; exact hd
  · rw [he]
    refine hd.frame (fun alive => ?_) fun _ _ _ h => h
    rcases List.mem_cons.mp alive with e | alive
    · have := leaseID_lt inv hq
      omega
    · exact alive
  · rw [he]
    exact hd.frame (fun alive => ((σ.etcd.mem_leases_revoke l _).mp alive).1)
      fun _ _ alive h => h.revoke alive
  · refine hd.frame (fun alive => ha.leases.1 ▸ alive) fun s t _ h => h.applied ha fun hs => ?_
    exact ne (inv.ids q p d c hq hp (request_rewrites hr s d.nodeID hs).1)

/-- Program counters at which nothing beyond the gate is promised. -/
def plain : Pc → Prop
  | .idle | .listMembers | .loadShardMap | .claiming _ | .marking _ | .loadOwnershipMap => True
  | _ => False

theorem Local.plain {pfx : Str} {e e' : Store} {c : Coordinator} (h : Local pfx e c)
    (run : c.pc.running) {pc : Pc} (hp : SplitBrain.plain pc) (round : Round)
    (gate : ∀ s t, c.owned s = some t → c.releasing s = false → c.leaseID ∈ e'.leases →
      Holds pfx e' c s t) :
    Local pfx e' { c with pc := pc, round := round } := by
  refine ⟨h.named, ?_, ?_, fun _ => h.running run, gate, ?_, ?_, ?_⟩
  all_goals cases pc <;> simp_all [SplitBrain.plain, Pc.joining, Pc.loaded]

/-- Loading the map finds every own record under the current lease, so nothing
is left to rebind. -/
theorem own_records {cfg : Config} {σ : Cluster} (inv : Inv cfg σ) {p : Nat} {c : Coordinator}
    (hp : σ.procs[p]? = some c) {s : Nat} (hs : s < shardCount)
    (own : (loadOwnershipMap cfg.pfx σ.etcd s).owner = c.nodeID) :
    Holds cfg.pfx σ.etcd c s (loadOwnershipMap cfg.pfx σ.etcd s).term ∧
      (loadOwnershipMap cfg.pfx σ.etcd s).lease = c.leaseID := by
  rw [loadOwnershipMap_eq inv.layout hs] at own ⊢
  cases hk : σ.etcd.get (shardKey cfg.pfx s) with
  | none =>
    rw [hk] at own
    exact absurd own.symm (inv.node p c hp).named
  | some kv =>
    rw [hk] at own
    obtain ⟨q, d, hq, hv, hl, -⟩ := inv.keys s kv hk
    have : q = p := inv.ids q p d c hq hp (hv.symm.trans own)
    subst this
    rw [hp, Option.some.injEq] at hq
    subst hq
    refine ⟨?_, hl⟩
    simp [Holds, hk, ownerInfo, hv, hl]

theorem toRebind_eq_nil {cfg : Config} {σ : Cluster} (inv : Inv cfg σ) {p : Nat}
    {c : Coordinator} (hp : σ.procs[p]? = some c) :
    c.toRebind (loadOwnershipMap cfg.pfx σ.etcd) = [] := by
  rw [Coordinator.toRebind, List.filter_eq_nil_iff]
  intro s hs
  simp only [decide_eq_true_eq, not_and]
  intro own other
  exact absurd (own_records inv hp (List.mem_range.mp hs) own).2 other

/-- Until `Start` has returned a node owns nothing, so the store is free to change. -/
theorem Local.joins {pfx : Str} {e e' : Store} {c : Coordinator} (h : Local pfx e c)
    (hj : c.pc.joining) {pc : Pc} (hpc : pc.joining ∨ pc = .stopped)
    (asked : ∀ l, pc = .putting l ∨ pc = .keepingAlive l → l ≠ 0) :
    Local pfx e' { c with pc := pc } := by
  obtain ⟨zero, none⟩ := h.joining hj
  refine ⟨h.named, fun _ => ⟨zero, none⟩, asked, ?_, fun s t own => ?_, ?_, ?_, ?_⟩
  · cases pc <;> simp_all [Pc.joining, Pc.running]
  · simp [none s] at own
  all_goals cases pc <;> simp_all [Pc.joining, Pc.loaded]

/-- A node's own write never touches a record behind its gate: claims find the
key absent, releases come after the mark, and there is nothing to rebind. -/
theorem own_gate {cfg : Config} {e : Store} {c : Coordinator} {o : Outcome}
    (h : Local cfg.pfx e c) {s t : Nat} (own : c.owned s = some t)
    (unmarked : c.releasing s = false) (alive : c.leaseID ∈ (c.issue cfg e o).etcd.leases) :
    Holds cfg.pfx (c.issue cfg e o).etcd c s t := by
  have joined : ¬ c.pc.joining := fun hj => by simp [(h.joining hj).2 s] at own
  rcases c.issue_cases cfg e o with ⟨he, -⟩ | ⟨hpc, -⟩ | ⟨l, hpc, -⟩ | ⟨r, hr, ha⟩
  · rw [he] at alive ⊢
    exact h.gate s t own unmarked alive
  · exact absurd (hpc ▸ trivial) joined
  · exact absurd (hpc ▸ trivial) joined
  · refine (h.gate s t own unmarked (ha.leases.1 ▸ alive)).applied ha fun hw => ?_
    obtain ⟨-, ⟨todo, hpc⟩ | ⟨todo, hpc⟩⟩ := request_rewrites hr s c.nodeID hw
    · rw [h.marked s todo hpc] at unmarked
      cases unmarked
    · cases h.bound _ hpc

/-- A step of a node keeps what the node itself relies on. -/
theorem own_local {cfg : Config} {σ : Cluster} (inv : Inv cfg σ) {p : Nat} {c : Coordinator}
    (hp : σ.procs[p]? = some c) (o : Outcome) :
    Local cfg.pfx (c.issue cfg σ.etcd o).etcd (c.resume cfg σ.etcd σ.now o) := by
  have h := inv.node p c hp
  have gate {s t : Nat} := own_gate (s := s) (t := t) (o := o) h
  have moves (run : c.pc.running) {pc : Pc} (hpc : plain pc) (round : Round) :
      Local cfg.pfx (c.issue cfg σ.etcd o).etcd { c with pc := pc, round := round } :=
    h.plain run hpc round fun _ _ => gate
  cases hpc : c.pc with
  | granting =>
    simp only [Coordinator.resume, hpc]
    refine h.joins (hpc ▸ trivial) ?_ fun l hl => ?_
    · split
      · exact .inl trivial
      · exact .inr rfl
    · split at hl <;> simp at hl
      exact hl ▸ Nat.ne_of_gt σ.etcd.positive
  | putting l =>
    simp only [Coordinator.resume, hpc]
    refine h.joins (hpc ▸ trivial) ?_ fun l' hl => ?_
    · split <;> exact .inl trivial
    · split at hl <;> simp at hl
      exact hl ▸ h.asked l (.inl hpc)
  | keepingAlive l =>
    simp only [Coordinator.resume, hpc]
    split
    · obtain ⟨-, none⟩ := h.joining (hpc ▸ trivial)
      refine ⟨h.named, False.elim, by simp, fun _ => h.asked l (.inr hpc), fun s t own => ?_,
        by simp, False.elim, by simp⟩
      simp [none s] at own
    · exact h.joins (hpc ▸ trivial) (.inl trivial) (by simp)
  | revoking l =>
    simp only [Coordinator.resume, hpc]
    exact h.joins (hpc ▸ trivial) (.inr rfl) (by simp)
  | stopped =>
    have he : (c.issue cfg σ.etcd o).etcd = σ.etcd := by
      simp [Coordinator.issue, Coordinator.request, hpc, Issued.quiet]
    rw [he]
    simpa only [Coordinator.resume, hpc] using h
  | idle =>
    simp only [Coordinator.resume, hpc]
    exact moves (hpc ▸ trivial) (by trivial) _
  | listMembers | loadShardMap =>
    simp only [Coordinator.resume, hpc]
    split <;> exact moves (hpc ▸ trivial) (by trivial) _
  | claiming todo =>
    cases todo <;> simp only [Coordinator.resume, hpc] <;>
      exact moves (hpc ▸ trivial) (by trivial) _
  | marking todo =>
    cases todo with
    | nil => simp only [Coordinator.resume, hpc]; exact moves (hpc ▸ trivial) (by trivial) _
    | cons s todo =>
      simp only [Coordinator.resume, hpc]
      refine ⟨h.named, False.elim, by simp, fun _ => h.running (hpc ▸ trivial), ?_, ?_, False.elim,
        by simp⟩
      · intro s' t own unmarked alive
        simp only [Coordinator.markReleasing, Function.update_apply] at unmarked
        split at unmarked
        · cases unmarked
        · exact gate own unmarked alive
      · intro s' todo' hr
        simp only [Pc.releasing.injEq, List.cons.injEq] at hr
        simp [Coordinator.markReleasing, hr.1]
  | releasing todo =>
    cases todo <;> simp only [Coordinator.resume, hpc] <;>
      exact moves (hpc ▸ trivial) (by trivial) _
  | loadOwnershipMap =>
    have he : (c.issue cfg σ.etcd o).etcd = σ.etcd := by
      simp [Coordinator.issue, Coordinator.request, hpc, Issued.quiet]
    simp only [Coordinator.resume, hpc]
    split
    · refine ⟨h.named, False.elim, by simp, fun _ => h.running (hpc ▸ trivial), fun _ _ => gate,
        by simp, fun _ s hs own _ => ?_, fun todo ht => ?_⟩
      · rw [he]
        exact (own_records inv hp hs own).1
      · rw [← Pc.rebinding.inj ht, toRebind_eq_nil inv hp]
    · exact moves (hpc ▸ trivial) (by trivial) _
  | rebinding todo =>
    have he : (c.issue cfg σ.etcd o).etcd = σ.etcd := by
      simp [Coordinator.issue, Coordinator.request, hpc, h.bound todo hpc, Issued.quiet]
    have nil := h.bound todo hpc
    subst nil
    simp only [Coordinator.resume, hpc, he]
    exact ⟨h.named, False.elim, by simp, fun _ => h.running (hpc ▸ trivial), h.gate, by simp,
      fun _ => h.loaded (hpc ▸ trivial), by simp⟩
  | installing =>
    have he : (c.issue cfg σ.etcd o).etcd = σ.etcd := by
      simp [Coordinator.issue, Coordinator.request, hpc, Issued.quiet]
    simp only [Coordinator.resume, hpc, he]
    refine ⟨h.named, False.elim, by simp [Coordinator.install], fun _ => h.running (hpc ▸ trivial),
      fun s t own _ alive => ?_, by simp [Coordinator.install], False.elim,
      by simp [Coordinator.install]⟩
    simp only [Coordinator.install, Coordinator.loadedOwned, Option.ite_none_right_eq_some,
      Option.some.injEq] at own
    obtain ⟨⟨hs, mine⟩, rfl⟩ := own
    exact h.loaded (hpc ▸ trivial) s hs mine alive

/-! ## The runs -/

/-- Ids are not empty and belong to one incarnation, a call that fails has taken
effect by then or never will, a lease ends only when its holder is not fresh and
keepalives are recorded for live leases only, nobody closes a node, and only
nodes write. -/
def allowed (σ : Cluster) : Action → Bool
  | .spawn nodeID _ => nodeID ≠ [] ∧ ∀ c ∈ σ.procs, c.nodeID ≠ nodeID
  | .call p o => o ≠ .late ∧ ∀ c ∈ σ.procs[p]?, o = .ok → records c.pc σ.etcd
  | .expire l => ∀ c ∈ σ.procs, c.leaseID = l → c.fresh σ.now = false
  | .keepAlive p => ∀ c ∈ σ.procs[p]?, c.leaseID ∈ σ.etcd.leases
  | .deliver _ | .close _ | .leave _ | .revoke _ _ | .request _ _ => false
  | .tick _ | .keepAliveEnds _ | .exitLoop _ | .routeMembers | .routeMap _ => true
where
  /-- `Start` records the first keepalive of a lease that is still there. -/
  records (pc : Pc) (e : Store) : Bool :=
    match pc with
    | .keepingAlive l => l ∈ e.leases
    | _ => true

theorem Local.lease_eq {pfx : Str} {e : Store} {c : Coordinator} (h : Local pfx e c)
    (nonzero : c.leaseID ≠ 0) : lease c = c.leaseID := by
  unfold lease
  split
  all_goals first
    | rfl
    | next hpc => exact absurd (h.joining (hpc ▸ trivial)).1 nonzero

/-- A lease, once joined with, stays. -/
theorem stepped_leaseID {cfg : Config} {σ : Cluster} {q : Nat} {c d : Coordinator} {a : Action}
    (h : Stepped cfg σ q c a d) (hc : Local cfg.pfx σ.etcd c) (nonzero : c.leaseID ≠ 0) :
    d.leaseID = c.leaseID := by
  cases h with
  | calls =>
    refine congrArg Membership.leaseID (Coordinator.resume_membership fun l hpc => ?_)
    exact absurd (hc.joining (hpc ▸ trivial)).1 nonzero
  | _ => rfl

/-- A node asks for a lease by being granted one. -/
theorem stepped_asked {cfg : Config} {σ : Cluster} {q : Nat} {c d : Coordinator} {a : Action}
    (h : Stepped cfg σ q c a d) : lease d = lease c ∨ lease d = c.leaseID ∨
      lease d = σ.etcd.nextLease ∧ a = .call q .ok ∧ c.pc = .granting := by
  cases h with
  | @calls o =>
    cases hpc : c.pc with
    | granting =>
      by_cases ok : o = .ok
      · subst ok
        exact .inr (.inr (by simp [Coordinator.resume, hpc, lease, Store.grant]))
      · refine .inr (.inl ?_)
        simp only [Coordinator.resume, hpc, if_neg ok]
        rfl
    | revoking l =>
      refine .inr (.inl ?_)
      simp only [Coordinator.resume, hpc]
      rfl
    | claiming todo | marking todo | releasing todo | rebinding todo =>
      refine .inl ?_
      cases todo <;> simp [Coordinator.resume, hpc, lease] <;> rfl
    | _ =>
      refine .inl ?_
      simp only [Coordinator.resume, hpc]
      try split
      all_goals simp [lease, hpc, Coordinator.install] <;> rfl
  | exits idle => exact .inl (by simp [lease, idle]; rfl)
  | _ => exact .inl rfl

theorem stepped_lease {cfg : Config} {σ : Cluster} {q : Nat} {c d : Coordinator} {a : Action}
    (h : Stepped cfg σ q c a d) (hc : Local cfg.pfx σ.etcd c) :
    lease d = lease c ∨ lease d = 0 ∨
      lease d = σ.etcd.nextLease ∧ a = .call q .ok ∧ c.pc = .granting := by
  rcases stepped_asked h with same | own | granted
  · exact .inl same
  · by_cases zero : c.leaseID = 0
    · exact .inr (.inl (own.trans zero))
    · exact .inl (own.trans (hc.lease_eq zero).symm)
  · exact .inr (.inr granted)

/-- A step that does not change a node keeps what the node relies on. -/
theorem stays_local {cfg : Config} {σ σ' : Cluster} {a : Action} (inv : Inv cfg σ)
    (step : exec cfg σ a = some σ') (ha : allowed σ a = true) {q : Nat} {c : Coordinator}
    (hq : σ.procs[q]? = some c) (other : a.changes ≠ some q) : Local cfg.pfx σ'.etcd c := by
  have hc := inv.node q c hq
  cases exec_step step with
  | @call p o _ hp =>
    exact others_local inv hp hq (fun e => other (congrArg some e.symm)) o
  | @expire l =>
    exact hc.frame (fun alive => ((σ.etcd.mem_leases_revoke l _).mp alive).1)
      fun _ _ alive h => h.revoke alive
  | deliver | close | leave | revoked | unrevoked | request => cases ha
  | _ => exact hc

theorem step_local {cfg : Config} {σ σ' : Cluster} {a : Action} (inv : Inv cfg σ)
    (step : exec cfg σ a = some σ') (ha : allowed σ a = true) {q : Nat} {d : Coordinator}
    (hq : σ'.procs[q]? = some d) : Local cfg.pfx σ'.etcd d := by
  rcases exec_node step hq with ⟨c, hc, stepped⟩ | ⟨nodeID, ttl, rfl, -, rfl⟩
  · have h := inv.node q c hc
    cases stepped with
    | stays other => exact stays_local inv step ha hc other
    | calls =>
      cases exec_step step with
      | call hp =>
        obtain rfl := Option.some.inj (hp.symm.trans hc)
        exact own_local inv hp _
    | records | ends =>
      cases exec_step step
      exact ⟨h.named, h.joining, h.asked, h.running, h.gate, h.marked, h.loaded, h.bound⟩
    | exits idle =>
      cases exec_step step
      exact ⟨h.named, False.elim, by simp, False.elim, h.gate, by simp, False.elim, by simp⟩
    | closes | leaves => cases ha
  · cases exec_step step
    simp only [allowed, decide_eq_true_eq] at ha
    exact ⟨ha.1, fun _ => ⟨rfl, fun _ => rfl⟩, by simp [newCoordinator], False.elim,
      fun s t own => by simp [newCoordinator] at own, by simp [newCoordinator], False.elim,
      by simp [newCoordinator]⟩

/-- When a node's lease is gone after a step, the node was not fresh before it. -/
theorem gone_not_fresh {cfg : Config} {σ σ' : Cluster} {a : Action} (inv : Inv cfg σ)
    (step : exec cfg σ a = some σ') (ha : allowed σ a = true) {q : Nat} {c : Coordinator}
    (hq : σ.procs[q]? = some c) (gone : c.leaseID ∉ σ'.etcd.leases) : c.fresh σ.now = false := by
  by_cases live : c.leaseID ∈ σ.etcd.leases
  · have nonzero : c.leaseID ≠ 0 := Store.ne_zero_of_live live
    cases exec_step step with
    | @call p o b hp =>
      simp only [Cluster.update, Cluster.wrote] at gone
      rcases b.issue_cases cfg σ.etcd o with ⟨he, -⟩ | ⟨-, he, -⟩ | ⟨l, hpc, he, -⟩ | ⟨r, -, happ⟩
      · rw [he] at gone
        exact absurd live gone
      · rw [he] at gone
        exact absurd (List.mem_cons_of_mem _ live) gone
      · -- Only the asker of a lease gives it up this way, before it has joined with it.
        simp only [he, Store.mem_leases_revoke, live, true_and, ne_eq, not_not] at gone
        have asked : lease b = lease c := by
          rw [(inv.node q c hq).lease_eq nonzero, gone]
          simp [lease, hpc]
        have := inv.leases p q b c hp hq asked
          (by rw [asked, (inv.node q c hq).lease_eq nonzero]; exact nonzero)
        subst this
        obtain rfl := Option.some.inj (hp.symm.trans hq)
        exact absurd ((inv.node p b hp).joining (hpc ▸ trivial)).1 nonzero
      · rw [happ.leases.1] at gone
        exact absurd live gone
    | @expire l =>
      simp only [Store.mem_leases_revoke, live, true_and, ne_eq, not_not] at gone
      simp only [allowed, decide_eq_true_eq] at ha
      exact ha c (List.mem_of_getElem? hq) gone
    | deliver | revoked | request => cases ha
    | _ => exact absurd live gone
  · exact inv.stale q c hq live

theorem step_stale {cfg : Config} {σ σ' : Cluster} {a : Action} (inv : Inv cfg σ)
    (step : exec cfg σ a = some σ') (ha : allowed σ a = true) {q : Nat} {d : Coordinator}
    (hq : σ'.procs[q]? = some d) (gone : d.leaseID ∉ σ'.etcd.leases) :
    d.fresh σ'.now = false := by
  rcases exec_node step hq with ⟨c, hc, stepped⟩ | ⟨nodeID, ttl, rfl, -, rfl⟩
  · have stays (same : d.membership = c.membership) (ttl : d.ttl = c.ttl) :
        d.fresh σ'.now = false := by
      have old := gone_not_fresh inv step ha hc (by
        rwa [Coordinator.leaseID, same] at gone)
      simp only [Coordinator.fresh, Coordinator.leaseWindow] at old ⊢
      rw [same, ttl]
      exact c.membership.fresh_antitone (exec_now step) _ old
    cases stepped with
    | @calls o =>
      by_cases first : ∃ l, c.pc = .keepingAlive l ∧ o = .ok
      · obtain ⟨l, hpc, rfl⟩ := first
        cases exec_step step with
        | call hp =>
          obtain rfl := Option.some.inj (hp.symm.trans hc)
          simp only [allowed, decide_eq_true_eq, hc, Option.mem_def, Option.some.injEq] at ha
          have live := ha.2 _ rfl trivial
          simp only [hpc, allowed.records, decide_eq_true_eq] at live
          refine absurd ?_ gone
          simpa [Coordinator.resume, Coordinator.issue, Coordinator.request, hpc, Issued.quiet,
            Cluster.update, Cluster.wrote, Coordinator.leaseID] using live
      · refine stays (Coordinator.resume_membership fun l hpc ok => ?_) (c.resume_ttl ..)
        exact first ⟨l, hpc, ok⟩
    | records =>
      cases exec_step step
      simp only [allowed, decide_eq_true_eq, hc, Option.mem_def, Option.some.injEq] at ha
      exact absurd (ha c rfl) gone
    | ends =>
      have old := gone_not_fresh inv step ha hc gone
      exact c.membership.fresh_antitone (exec_now step) _ old
    | stays | exits => exact stays rfl rfl
    | closes | leaves => cases ha
  · simp [newCoordinator, Coordinator.fresh, Membership.fresh, Membership.absent]

theorem step_known {cfg : Config} {σ σ' : Cluster} {a : Action} (inv : Inv cfg σ)
    (step : exec cfg σ a = some σ') {q : Nat} {d : Coordinator} (hq : σ'.procs[q]? = some d) :
    lease d < σ'.etcd.nextLease := by
  obtain ⟨_, moved, -⟩ := exec_moved step
  have le := moved.nextLease_le
  have positive := σ'.etcd.positive
  rcases exec_node step hq with ⟨c, hc, stepped⟩ | ⟨nodeID, ttl, rfl, -, rfl⟩
  · have known := inv.known q c hc
    rcases stepped_lease stepped (inv.node q c hc) with e | e | ⟨e, rfl, hpc⟩
    · omega
    · omega
    · rw [e]
      cases exec_step step with
      | call hp =>
        obtain rfl := Option.some.inj (hp.symm.trans hc)
        simp [Coordinator.issue, hpc, Cluster.update, Cluster.wrote, Issued.quiet]
  · exact positive

theorem step_leases {cfg : Config} {σ σ' : Cluster} {a : Action} (inv : Inv cfg σ)
    (step : exec cfg σ a = some σ') {p q : Nat} {c' d' : Coordinator}
    (hp : σ'.procs[p]? = some c') (hq : σ'.procs[q]? = some d') (same : lease c' = lease d')
    (nonzero : lease c' ≠ 0) : p = q := by
  rcases exec_node step hp with ⟨c, hc, left⟩ | ⟨_, _, -, -, rfl⟩
  · rcases exec_node step hq with ⟨d, hd, right⟩ | ⟨_, _, -, -, rfl⟩
    · have knownC := inv.known p c hc
      have knownD := inv.known q d hd
      rcases stepped_lease left (inv.node p c hc) with e | e | ⟨e, rfl, -⟩
      · rcases stepped_lease right (inv.node q d hd) with e' | e' | ⟨e', -⟩
        · exact inv.leases p q c d hc hd (by omega) (by omega)
        · omega
        · omega
      · omega
      · rcases stepped_lease right (inv.node q d hd) with e' | e' | ⟨-, ha, -⟩
        · omega
        · omega
        · exact (Action.call.inj ha).1
    · exact absurd (same.trans rfl) nonzero
  · exact absurd rfl nonzero

/-- Records are written by the nodes, under their ids and current leases. -/
theorem step_keys {cfg : Config} {σ σ' : Cluster} {a : Action} (inv : Inv cfg σ)
    (step : exec cfg σ a = some σ') (ha : allowed σ a = true) {s : Nat} {kv : KeyValue}
    (hk : σ'.etcd.get (shardKey cfg.pfx s) = some kv) :
    ∃ (q : Nat) (d : Coordinator), σ'.procs[q]? = some d ∧ kv.value = d.nodeID ∧
      kv.lease = d.leaseID ∧ d.leaseID ≠ 0 := by
  have holder : ∃ (q : Nat) (c : Coordinator), σ.procs[q]? = some c ∧ kv.value = c.nodeID ∧
      kv.lease = c.leaseID ∧ c.leaseID ≠ 0 := by
    cases exec_step step with
    | @call p o c hp =>
      rcases (c.issue_moved cfg σ.etcd o).record hk with old | new
      · exact inv.keys s kv old
      · obtain ⟨owner, lease, at_⟩ := Coordinator.issue_commits new
        refine ⟨p, c, hp, owner, lease, (inv.node p c hp).running ?_⟩
        rcases at_ with ⟨_, hpc⟩ | ⟨_, hpc⟩ <;> exact hpc ▸ trivial
    | expire => exact inv.keys s kv (Store.get_of_revoke hk)
    | deliver | close | leave | revoked | unrevoked | request => cases ha
    | _ => exact inv.keys s kv hk
  obtain ⟨q, c, hq, value, lease, nonzero⟩ := holder
  obtain ⟨d, hd, stepped⟩ := exec_survives step hq
  have kept := stepped_leaseID stepped (inv.node q c hq) nonzero
  exact ⟨q, d, hd, value.trans stepped.nodeID.symm, lease.trans kept.symm, kept ▸ nonzero⟩

theorem step_ids {cfg : Config} {σ σ' : Cluster} {a : Action} (inv : Inv cfg σ)
    (step : exec cfg σ a = some σ') (ha : allowed σ a = true) {p q : Nat} {c' d' : Coordinator}
    (hp : σ'.procs[p]? = some c') (hq : σ'.procs[q]? = some d') (same : c'.nodeID = d'.nodeID) :
    p = q := by
  have unused {nodeID : Str} {ttl : Int} {r : Nat} {b : Coordinator}
      (e : a = .spawn nodeID ttl) (hr : σ.procs[r]? = some b) : b.nodeID ≠ nodeID := by
    subst e
    simp only [allowed, decide_eq_true_eq] at ha
    exact ha.2 b (List.mem_of_getElem? hr)
  rcases exec_node step hp with ⟨c, hc, left⟩ | ⟨i, _, hi, hp', rfl⟩
  · rcases exec_node step hq with ⟨d, hd, right⟩ | ⟨j, _, hj, -, rfl⟩
    · exact inv.ids p q c d hc hd (by rw [← left.nodeID, same, right.nodeID])
    · exact absurd (left.nodeID.symm.trans same) (unused hj hc)
  · rcases exec_node step hq with ⟨d, hd, right⟩ | ⟨j, _, -, hq', -⟩
    · exact absurd (right.nodeID.symm.trans same.symm) (unused hi hd)
    · omega

theorem step_inv {cfg : Config} {σ σ' : Cluster} {a : Action} (inv : Inv cfg σ)
    (ha : allowed σ a = true) (step : exec cfg σ a = some σ') : Inv cfg σ' where
  layout := by
    obtain ⟨_, moved, -⟩ := exec_moved step
    exact moved_layout inv.layout moved
  node := fun _ _ => step_local inv step ha
  stale := fun _ _ => step_stale inv step ha
  ids := fun _ _ _ _ => step_ids inv step ha
  known := fun _ _ => step_known inv step
  leases := fun _ _ _ _ => step_leases inv step
  keys := fun _ _ => step_keys inv step ha

theorem initial_inv {cfg : Config} {σ : Cluster} (h : Initial cfg σ) : Inv cfg σ where
  layout := fun k kv hk hp => by rw [h.unowned k hp] at hk; cases hk
  node := by simp [h.procs]
  stale := by simp [h.procs]
  ids := by simp [h.procs]
  known := by simp [h.procs]
  leases := by simp [h.procs]
  keys := fun s kv hk => by rw [h.unowned _ (shardBase_isPrefix cfg.pfx s)] at hk; cases hk

/-- The runs without split brain. -/
abbrev Allowed (cfg : Config) : Cluster → Cluster → Prop :=
  Next (exec cfg) fun σ a => allowed σ a = true

theorem reachable_inv {cfg : Config} {σ : Cluster} (h : Reachable (Initial cfg) (Allowed cfg) σ) :
    Inv cfg σ :=
  h.invariant (fun _ => initial_inv) fun _ _ _ => step_inv

/-- A node that serves holds the record. -/
theorem servable_holds {cfg : Config} {σ : Cluster} (inv : Inv cfg σ) {p : Nat} {c : Coordinator}
    (hp : σ.procs[p]? = some c) {ns : Str} (serves : c.isServable cfg σ.now ns = true) :
    c.leaseID ∈ σ.etcd.leases ∧
      Holds cfg.pfx σ.etcd c (cfg.shardOf ns) (c.ownerTerm (cfg.shardOf ns)) := by
  simp only [Coordinator.isServable, Coordinator.serves, Bool.and_eq_true,
    Bool.not_eq_true'] at serves
  obtain ⟨⟨own, unmarked⟩, fresh⟩ := serves
  have live : c.leaseID ∈ σ.etcd.leases := by
    by_contra gone
    rw [inv.stale p c hp gone] at fresh
    cases fresh
  obtain ⟨t, ht⟩ := Option.isSome_iff_exists.mp own
  refine ⟨live, ?_⟩
  simpa [Coordinator.ownerTerm, ht] using (inv.node p c hp).gate _ t ht unmarked live

/-- There is one record, and ids are not shared. -/
theorem servable_unique {cfg : Config} {σ : Cluster} (inv : Inv cfg σ) {p q : Nat}
    {c d : Coordinator} (hp : σ.procs[p]? = some c) (hq : σ.procs[q]? = some d) {ns : Str}
    (serves : c.isServable cfg σ.now ns = true) (other : d.isServable cfg σ.now ns = true) :
    q = p := by
  obtain ⟨kv, hk, value, -⟩ := (servable_holds inv hp serves).2.record
  obtain ⟨kv', hk', value', -⟩ := (servable_holds inv hq other).2.record
  obtain rfl := Option.some.inj (hk.symm.trans hk')
  exact inv.ids q p d c hq hp (value'.symm.trans value)

/-- **No split brain.** In every run, a namespace is servable on at most one
node, and the record of its shard is then that node's, under its live lease and
with the term the node reports. -/
theorem no_split_brain {cfg : Config} {σ : Cluster} (h : Reachable (Initial cfg) (Allowed cfg) σ)
    (ns : Str) {p : Nat} {c : Coordinator} (hp : σ.procs[p]? = some c)
    (serves : c.isServable cfg σ.now ns = true) :
    (∀ (q : Nat) (d : Coordinator), σ.procs[q]? = some d → d.isServable cfg σ.now ns = true →
      q = p) ∧
    ∃ kv, σ.etcd.get (shardKey cfg.pfx (cfg.shardOf ns)) = some kv ∧ kv.value = c.nodeID ∧
      kv.lease = c.leaseID ∧ c.leaseID ∈ σ.etcd.leases ∧
      kv.modRevision = c.ownerTerm (cfg.shardOf ns) := by
  have inv := reachable_inv h
  obtain ⟨live, holds⟩ := servable_holds inv hp serves
  obtain ⟨kv, hk, value, lease, term⟩ := holds.record
  refine ⟨?_, kv, hk, value, lease, live, term⟩
  intro q d hq other
  exact servable_unique inv hp hq serves other

/-- Nodes `a` and `b` join and `a` runs a round. -/
def aServes : List Action :=
  sampleJoin 0 "a" ++ sampleJoin 1 "b" ++ List.replicate 8 (.call 0 .ok)

theorem no_split_brain_aServes : ∃ (σ : Cluster) (c : Coordinator),
    Reachable (Initial sample) (Allowed sample) σ ∧ σ.procs[0]? = some c ∧
    c.isServable sample σ.now (str "x") = true ∧
    ∀ (q : Nat) (d : Coordinator), σ.procs[q]? = some d →
      d.isServable sample σ.now (str "x") = true → q = 0 := by
  obtain ⟨σ, hσ⟩ : ∃ σ, execute (exec sample) allowed sampleStart aServes = some σ :=
    Option.isSome_iff_exists.mp (by decide +kernel)
  have facts : (execute (exec sample) allowed sampleStart aServes).map
      (fun σ => σ.procs[0]?.map fun c => c.isServable sample σ.now (str "x")) =
      some (some true) := by decide +kernel
  rw [hσ] at facts
  simp only [Option.map_some, Option.some.injEq, Option.map_eq_some_iff] at facts
  obtain ⟨c, hc, serves⟩ := facts
  have reach := sample_reachable hσ
  exact ⟨σ, c, reach, hc, serves, (no_split_brain reach (str "x") hc serves).1⟩

end MilvusCatalog.SplitBrain

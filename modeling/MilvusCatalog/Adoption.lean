import MilvusCatalog.Fencing

/-! A restarted node adopts the records of its previous incarnation and rebinds
them to its own lease. The round drops the results of the rebinds, so what it
installs rests on the new lease only if all of them have committed. -/
namespace MilvusCatalog.Adoption
open Go Etcd Transition

/-- The record of shard `s` names `id` and rides lease `l`. -/
def Bound (pfx : Str) (e : Store) (id : Str) (l s : Nat) : Prop :=
  ∃ kv, e.get (shardKey pfx s) = some kv ∧ kv.value = id ∧ kv.lease = l

/-- A request that cannot take a record of `id` off lease `l`, except for the
shards being released. -/
def Harmless (id : Str) (l : Nat) (release : List Nat) : Request → Prop
  | .claim _ nodeID l' | .rebind _ nodeID l' => nodeID = id → l' = l
  | .release s nodeID _ => nodeID = id → s ∈ release
  | .register _ _ => True

theorem harmless_of_ne {id : Str} {r : Request} (h : r.nodeID ≠ id) (l : Nat) (release : List Nat) :
    Harmless id l release r := by
  cases r with
  | register => trivial
  | _ => exact fun e => absurd e h

theorem Bound.applied {pfx : Str} {e e' : Store} {id : Str} {l s : Nat} {r : Request}
    {cs : List Commit} {release : List Nat} (h : Bound pfx e id l s) (ha : Applied pfx e r e' cs)
    (harmless : Harmless id l release r) (hs : s ∉ release) : Bound pfx e' id l s := by
  obtain ⟨kv, hk, rfl, rfl⟩ := h
  by_cases aimed : r.rewrites = some (s, kv.value)
  · cases ha with
    | refused => exact ⟨kv, hk, rfl, rfl⟩
    | claim | register => cases aimed
    | rebind _ _ _ wrote =>
      simp only [Request.rewrites, Option.some.injEq, Prod.mk.injEq] at aimed
      obtain ⟨rfl, rfl⟩ := aimed
      exact ⟨_, wrote.get_self, rfl, harmless rfl⟩
    | release =>
      simp only [Request.rewrites, Option.some.injEq, Prod.mk.injEq] at aimed
      exact absurd (aimed.1 ▸ harmless aimed.2) hs
  · exact ⟨kv, ha.kept hk aimed, rfl, rfl⟩

theorem Bound.revoke {pfx : Str} {e : Store} {id : Str} {l s l' : Nat} (h : Bound pfx e id l s)
    (other : l' ≠ l) : Bound pfx (e.revoke l') id l s := by
  obtain ⟨kv, hk, value, rfl⟩ := h
  refine ⟨kv, ?_, value, rfl⟩
  rw [Store.get_revoke_other (by simpa [hk] using other.symm), hk]

/-- The shard's record was written again, under `id` and `l`, since the load. -/
def Rewritten (id : Str) (l : Nat) (σ : Cluster) (round : Round) (s : Nat) : Prop :=
  ∃ k ∈ σ.commits, k.shard = s ∧ k.owner = id ∧ k.lease = l ∧ round.loadedAt < k.term

/-- The ownership map of a round against the store it was loaded from. -/
structure Loaded (pfx : Str) (id : Str) (l : Nat) (σ : Cluster) (round : Round) : Prop where
  before : round.loadedAt ≤ σ.etcd.revision
  kept : ∀ s ∉ round.release,
    (s < shardCount ∧ (round.om s).owner = id ∧ (round.om s).lease = l) ∨
      Rewritten id l σ round s → Bound pfx σ.etcd id l s
  origin : ∀ s kv, s < shardCount → σ.etcd.get (shardKey pfx s) = some kv →
    round.om s = ownerInfo kv ∨
      ⟨s, kv.value, kv.lease, kv.modRevision⟩ ∈ σ.commits ∧ round.loadedAt < kv.modRevision

theorem Loaded.step {pfx : Str} {id : Str} {l : Nat} {σ σ' : Cluster} {round : Round}
    {cs : List Commit} (h : Loaded pfx id l σ round) (moved : Moved pfx σ.etcd σ'.etcd cs)
    (commits : σ'.commits = σ.commits ++ cs)
    (bound : ∀ s ∉ round.release, Bound pfx σ.etcd id l s → Bound pfx σ'.etcd id l s) :
    Loaded pfx id l σ' round where
  before := Nat.le_trans h.before moved.revision_le
  kept := by
    rintro s hs (loaded | ⟨k, hk, rfl, rfl, rfl, later⟩)
    · exact bound s hs (h.kept s hs (.inl loaded))
    · rcases List.mem_append.mp (commits ▸ hk) with old | new
      · exact bound _ hs (h.kept _ hs (.inr ⟨k, old, rfl, rfl, rfl, later⟩))
      · obtain ⟨kv, get, info⟩ := Option.map_eq_some_iff.mp (moved.commit new).2.2
        rw [ownerInfo, OwnerInfo.mk.injEq] at info
        exact ⟨kv, get, info.1, info.2.2⟩
  origin := by
    intro s kv hs hk
    rw [commits]
    rcases moved.record hk with old | new
    · cases h.origin s kv hs old with
      | inl loaded => exact .inl loaded
      | inr since => exact .inr ⟨List.mem_append_left _ since.1, since.2⟩
    · have term := (moved.commit new).1
      have := h.before
      exact .inr ⟨List.mem_append_right _ new, by dsimp only at term; omega⟩

/-- A load sees exactly the records of its moment. -/
theorem loaded_now {pfx : Str} {id : Str} {l : Nat} {σ : Cluster} {round : Round}
    (layout : Layout pfx σ.etcd) (bounded : ∀ k ∈ σ.commits, k.term ≤ σ.etcd.revision)
    (live : l ≠ 0) : Loaded pfx id l σ
      { round with om := loadOwnershipMap pfx σ.etcd, loadedAt := σ.etcd.revision } where
  before := Nat.le_refl _
  kept := by
    rintro s - (⟨hs, owner, lease⟩ | ⟨k, hk, -, -, -, later⟩)
    · dsimp only at owner lease
      rw [loadOwnershipMap_eq layout hs] at owner lease
      cases hk : σ.etcd.get (shardKey pfx s) with
      | none =>
        rw [hk] at lease
        exact absurd lease.symm live
      | some kv =>
        rw [hk] at owner lease
        exact ⟨kv, hk, owner, lease⟩
    · have := bounded k hk
      dsimp only at later
      omega
  origin := by
    intro s kv hs hk
    refine .inl ?_
    dsimp only
    rw [loadOwnershipMap_eq layout hs, hk]
    rfl

/-! ## One round -/

/-- The steps around a round of node `p`, which has id `id` and lease `l`: its
own calls up to the end of the round, any steps of nodes with other ids, and the
end of any lease but its own. -/
def allowed (p : Nat) (id : Str) (l : Nat) (σ : Cluster) : Action → Bool
  | .call q _ => ∀ d ∈ σ.procs[q]?,
      if q = p then d.pc ≠ .idle else d.nodeID ≠ id ∧ d.pc ≠ .revoking l
  | .request r _ => r.nodeID ≠ id
  | .expire l' => l' ≠ l
  | .revoke q _ => ∀ d ∈ σ.procs[q]?, d.leaseID ≠ l
  | _ => true

/-- Nothing has been written in this round. -/
def early (pc : Pc) : Prop := pc = .listMembers ∨ pc = .loadShardMap

structure Local (pfx : Str) (σ : Cluster) (c : Coordinator) : Prop where
  joined : ¬ c.pc.joining
  early : early c.pc → ∀ r ∈ σ.inflight, r.nodeID ≠ c.nodeID
  due : ∀ todo, c.pc = .marking todo ∨ c.pc = .releasing todo → ∀ s ∈ todo, s ∈ c.round.release
  sent : ∀ r ∈ σ.inflight, Harmless c.nodeID c.leaseID c.round.release r
  loaded : c.pc.loaded → Loaded pfx c.nodeID c.leaseID σ c.round

theorem Local.request {pfx : Str} {σ : Cluster} {c : Coordinator} (h : Local pfx σ c) {r : Request}
    (hr : c.request = some r) : ¬ Adoption.early c.pc ∧
      Harmless c.nodeID c.leaseID c.round.release r := by
  unfold Coordinator.request at hr
  split at hr <;> cases hr
  · next hpc => exact absurd (hpc ▸ trivial) h.joined
  · next hpc => exact ⟨by simp [Adoption.early, hpc], fun _ => rfl⟩
  · next hpc => exact ⟨by simp [Adoption.early, hpc], fun _ => h.due _ (.inr hpc) _ (by simp)⟩
  · next hpc => exact ⟨by simp [Adoption.early, hpc], fun _ => rfl⟩

/-- No allowed step takes a record of the node off its lease, but for releases. -/
theorem step_bound {cfg : Config} {σ σ' : Cluster} {a : Action} {p : Nat} {c : Coordinator}
    (h : Local cfg.pfx σ c) (hp : σ.procs[p]? = some c)
    (ha : allowed p c.nodeID c.leaseID σ a = true) (step : exec cfg σ a = some σ') {s : Nat}
    (hs : s ∉ c.round.release) (bound : Bound cfg.pfx σ.etcd c.nodeID c.leaseID s) :
    Bound cfg.pfx σ'.etcd c.nodeID c.leaseID s := by
  cases exec_step step with
  | @call q o d hq =>
    simp only [allowed, hq, Option.mem_def, Option.some.injEq, forall_eq', decide_eq_true_eq] at ha
    simp only [Cluster.update, Cluster.wrote]
    rcases d.issue_cases cfg σ.etcd o with ⟨he, -⟩ | ⟨-, he, -⟩ | ⟨l, hpc, he, -⟩ | ⟨r, hr, happ⟩
    · rwa [he]
    · rw [he]; exact bound
    · rw [he]
      split at ha
      · next e =>
        subst e
        obtain rfl := Option.some.inj (hp.symm.trans hq)
        exact absurd (hpc ▸ trivial) h.joined
      · exact bound.revoke fun e => ha.2 (e ▸ hpc)
    · split at ha
      · next e =>
        subst e
        obtain rfl := Option.some.inj (hp.symm.trans hq)
        exact bound.applied happ (h.request hr).2 hs
      · refine bound.applied happ (harmless_of_ne ?_ _ _) hs
        rw [Coordinator.request_nodeID hr]
        exact ha.1
  | @deliver k r hk =>
    exact bound.applied (r.applied cfg.pfx σ.etcd) (h.sent r (List.mem_of_getElem? hk)) hs
  | expire =>
    simp only [allowed, decide_eq_true_eq] at ha
    exact bound.revoke ha
  | revoked hq =>
    simp only [allowed, hq, Option.mem_def, Option.some.injEq, forall_eq', decide_eq_true_eq] at ha
    exact bound.revoke ha
  | @request r o =>
    simp only [allowed, decide_eq_true_eq] at ha
    exact bound.applied (r.issued cfg.pfx σ.etcd o) (harmless_of_ne ha _ _) hs
  | _ => exact bound

theorem allowed_solo {p : Nat} {id : Str} {l : Nat} {σ : Cluster} {a : Action}
    (ha : allowed p id l σ a = true) : solo p id σ a = true := by
  cases a with
  | call q o =>
    simp only [allowed, solo, decide_eq_true_eq] at ha ⊢
    intro d hd
    have h := ha d hd
    split at h
    · rwa [if_pos ‹_›]
    · rw [if_neg ‹_›]
      exact h.1
  | request => exact ha
  | _ => rfl

/-- Where a node's own call leaves its round. -/
theorem resume_round (cfg : Config) (c : Coordinator) (e : Store) (now : Nat) (o : Outcome)
    (joined : ¬ c.pc.joining) (busy : c.pc ≠ .idle) :
    ¬ (c.resume cfg e now o).pc.joining ∧
    (early (c.resume cfg e now o).pc → early c.pc) ∧
    (early c.pc ∨ (c.resume cfg e now o).round.release = c.round.release) ∧
    ((c.resume cfg e now o).pc.loaded →
      c.pc.loaded ∧ (c.resume cfg e now o).round = c.round ∨
      (c.resume cfg e now o).round =
        { c.round with om := loadOwnershipMap cfg.pfx e, loadedAt := e.revision }) := by
  cases hpc : c.pc with
  | granting | putting | keepingAlive | revoking => exact absurd (hpc ▸ trivial) joined
  | idle => exact absurd hpc busy
  | listMembers | loadShardMap | loadOwnershipMap =>
    by_cases ok : o = .ok <;>
      simp [Coordinator.resume, hpc, ok, Pc.joining, Pc.loaded, early]
  | claiming todo | marking todo | releasing todo | rebinding todo =>
    cases todo <;>
      simp [Coordinator.resume, hpc, Pc.joining, Pc.loaded, early, Coordinator.markReleasing]
  | stopped | installing =>
    simp [Coordinator.resume, hpc, Pc.joining, Pc.loaded, early, Coordinator.install]

/-- A step around the round, whether or not it changes the node. -/
theorem step_local {cfg : Config} {σ σ' : Cluster} {a : Action} {p : Nat} {c d : Coordinator}
    (layout : Layout cfg.pfx σ.etcd) (bounded : ∀ k ∈ σ.commits, k.term ≤ σ.etcd.revision)
    (live : c.leaseID ≠ 0) (h : Local cfg.pfx σ c) (hp : σ.procs[p]? = some c)
    (ha : allowed p c.nodeID c.leaseID σ a = true) (step : exec cfg σ a = some σ')
    (stepped : Stepped cfg σ p c a d) : d.leaseID = c.leaseID ∧ Local cfg.pfx σ' d := by
  obtain ⟨cs, moved, commits⟩ := exec_moved step
  have bound := fun s hs => step_bound h hp ha step (s := s) hs
  have flight := fun r hr => solo_inflight hp (allowed_solo ha) step (r := r) hr
  have next := fun hl => (h.loaded hl).step moved commits bound
  have untouched (he : early c.pc) : ∀ r ∈ σ'.inflight, r.nodeID ≠ c.nodeID := by
    intro r hr
    rcases flight r hr with old | ne | own
    · exact h.early he r old
    · exact ne
    · exact absurd he (h.request own).1
  have sent : ∀ r ∈ σ'.inflight, Harmless c.nodeID c.leaseID c.round.release r := by
    intro r hr
    rcases flight r hr with old | ne | own
    · exact h.sent r old
    · exact harmless_of_ne ne _ _
    · exact (h.request own).2
  cases stepped with
  | stays | records | ends | closes | leaves =>
    exact ⟨rfl, h.joined, untouched, h.due, sent, next⟩
  | exits =>
    exact ⟨rfl, False.elim, by simp [early], by simp, sent, False.elim⟩
  | @calls o =>
    simp only [allowed, hp, Option.mem_def, Option.some.injEq, forall_eq', if_true,
      decide_eq_true_eq] at ha
    obtain ⟨joined, first, release, loaded⟩ :=
      resume_round cfg c σ.etcd σ.now o h.joined ha
    have member : (c.resume cfg σ.etcd σ.now o).membership = c.membership :=
      Coordinator.resume_membership fun l hpc _ => h.joined (hpc ▸ trivial)
    have lease : (c.resume cfg σ.etcd σ.now o).leaseID = c.leaseID := congrArg (·.leaseID) member
    refine ⟨lease, joined, fun he => ?_, Coordinator.resume_due cfg σ.etcd σ.now o h.due,
      fun r hr => ?_, fun hl => ?_⟩
    · rw [Coordinator.resume_nodeID]
      exact untouched (first he)
    · rw [Coordinator.resume_nodeID, lease]
      rcases release with he | same
      · exact harmless_of_ne (untouched he r hr) _ _
      · exact same ▸ sent r hr
    · rw [Coordinator.resume_nodeID, lease]
      rcases loaded hl with ⟨before, same⟩ | fresh
      · exact same ▸ next before
      · rw [fresh]
        exact (loaded_now layout bounded live).step moved commits bound

/-- What holds all through the round. -/
structure Inv (cfg : Config) (p : Nat) (id : Str) (l : Nat) (σ : Cluster) : Prop where
  history : Fencing.Inv cfg σ
  node : ∃ c, σ.procs[p]? = some c ∧ c.nodeID = id ∧ c.leaseID = l ∧ Local cfg.pfx σ c

theorem step_inv {cfg : Config} {σ σ' : Cluster} {a : Action} {p : Nat} {id : Str} {l : Nat}
    (live : l ≠ 0) (inv : Inv cfg p id l σ) (ha : allowed p id l σ a = true)
    (step : exec cfg σ a = some σ') : Inv cfg p id l σ' := by
  obtain ⟨c, hp, rfl, rfl, h⟩ := inv.node
  obtain ⟨d, hd, stepped⟩ := exec_survives step hp
  have recorded := inv.history.recorded
  obtain ⟨lease, next⟩ := step_local recorded.layout (fun k hk => (recorded.bounded k hk).2)
    live h hp ha step stepped
  exact ⟨Fencing.step_inv inv.history step, d, hd, stepped.nodeID, lease, next⟩

/-- The start of a round: the node has the members to list next, its lease is
live and none of its writes is under way. What the store holds is the outcome of
any history, earlier incarnations of the node included. -/
structure Start (cfg : Config) (σ : Cluster) (p : Nat) (c : Coordinator) : Prop where
  history : Reachable (Initial cfg) (Any cfg) σ
  at_ : σ.procs[p]? = some c
  pc : c.pc = .listMembers
  live : c.leaseID ∈ σ.etcd.leases
  idle : ∀ r ∈ σ.inflight, r.nodeID ≠ c.nodeID

/-- The states that a round of node `p` passes through. -/
def InRound (cfg : Config) (p : Nat) (c₀ : Coordinator) (σ₀ : Cluster) : Cluster → Prop :=
  Reachable (· = σ₀) (Next (exec cfg) fun σ a => allowed p c₀.nodeID c₀.leaseID σ a = true)

theorem round_inv {cfg : Config} {σ₀ σ : Cluster} {p : Nat} {c₀ : Coordinator}
    (start : Start cfg σ₀ p c₀) (run : InRound cfg p c₀ σ₀ σ) :
    Inv cfg p c₀.nodeID c₀.leaseID σ := by
  have nonzero : c₀.leaseID ≠ 0 := Store.ne_zero_of_live start.live
  refine run.invariant (fun σ e => ?_) fun _ _ _ => step_inv nonzero
  subst e
  have hpc := start.pc
  refine ⟨Fencing.reachable_inv start.history, c₀, start.at_, rfl, rfl, ?_⟩
  refine ⟨by simp [hpc, Pc.joining], fun _ => start.idle, by simp [hpc], fun r hr => ?_,
    by simp [hpc, Pc.loaded]⟩
  exact harmless_of_ne (start.idle r hr) _ _

/-- **Adopted shards rest on the current lease exactly when every rebind of the
round has committed** by the time the round installs its view. -/
theorem installed_bound_iff {cfg : Config} {σ₀ σ : Cluster} {p : Nat} {c₀ c : Coordinator}
    (start : Start cfg σ₀ p c₀) (run : InRound cfg p c₀ σ₀ σ) (hp : σ.procs[p]? = some c)
    (hpc : c.pc = .installing) :
    (∀ s, (c.install.owned s).isSome → c.install.releasing s = false →
      Bound cfg.pfx σ.etcd c.nodeID c.leaseID s) ↔
    ∀ s ∈ c.toRebind c.round.om, Rewritten c.nodeID c.leaseID σ c.round s := by
  obtain ⟨d, hd, -, -, h⟩ := (round_inv start run).node
  obtain rfl := Option.some.inj (hp.symm.trans hd)
  have loaded := h.loaded (hpc ▸ trivial)
  have gate (s : Nat) : ((c.install.owned s).isSome ∧ c.install.releasing s = false) ↔
      s < shardCount ∧ (c.round.om s).owner = c.nodeID ∧ s ∉ c.round.release := by
    rw [← c.install_serves s, Coordinator.serves, Bool.and_eq_true, Bool.not_eq_true']
  have rebinds (s : Nat) : s ∈ c.toRebind c.round.om ↔ s < shardCount ∧
      (c.round.om s).owner = c.nodeID ∧ (c.round.om s).lease ≠ c.leaseID ∧ s ∉ c.round.release := by
    simp [Coordinator.toRebind]
  constructor
  · intro all s hs
    obtain ⟨lt, owner, lease, kept⟩ := (rebinds s).mp hs
    obtain ⟨own, unmarked⟩ := (gate s).mpr ⟨lt, owner, kept⟩
    obtain ⟨kv, hk, value, bound⟩ := all s own unmarked
    rcases loaded.origin s kv lt hk with same | ⟨mem, later⟩
    · rw [same] at lease
      exact absurd bound lease
    · exact ⟨_, mem, rfl, value, bound, later⟩
  · intro all s own unmarked
    obtain ⟨lt, owner, kept⟩ := (gate s).mp ⟨own, unmarked⟩
    refine loaded.kept s kept ?_
    by_cases lease : (c.round.om s).lease = c.leaseID
    · exact .inl ⟨lt, owner, lease⟩
    · exact .inr (all s ((rebinds s).mpr ⟨lt, owner, lease, kept⟩))

/-- Node `a` claims shard 0 and is started again, while `b` is a member too. -/
def restart : List Action :=
  sampleJoin 0 "a" ++ sampleJoin 1 "b" ++ [.request (.claim 0 (str "a") 1) .ok] ++
    sampleJoin 2 "a"

/-- The round of the new incarnation up to its install; its one rebind ends in `o`. -/
def adopt (o : Outcome) : List Action :=
  List.replicate 5 (.call 2 .ok) ++ [.call 2 o, .call 2 .ok]

/-- The two ends of that round. -/
theorem adopt_run {o : Outcome} (ho : o = .ok ∨ o = .failed false) :
    ∃ (σ₀ σ : Cluster) (c₀ c : Coordinator), Start sample σ₀ 2 c₀ ∧ InRound sample 2 c₀ σ₀ σ ∧
      σ.procs[2]? = some c ∧ c.pc = .installing ∧ c.nodeID = str "a" ∧ c.leaseID = 3 ∧
      (c.install.owned 0).isSome ∧ c.install.releasing 0 = false ∧
      (σ.etcd.get (shardKey sample.pfx 0)).map (·.lease) = some (if o = .ok then 3 else 1) ∧
      c.toRebind c.round.om = [0] ∧
      (o = .ok → ⟨0, str "a", 3, 6⟩ ∈ σ.commits ∧ c.round.loadedAt < 6) := by
  have before : (execute (exec sample) (fun _ _ => true) sampleStart restart).any (fun σ =>
      σ.inflight = [] ∧ σ.procs[2]?.any fun c => c.nodeID = str "a" ∧ c.leaseID = 3 ∧
        c.pc = .listMembers ∧ c.leaseID ∈ σ.etcd.leases) = true := by decide +kernel
  obtain ⟨σ₀, hσ₀, start⟩ := (Option.any_eq_true _ _).mp before
  simp only [decide_eq_true_eq, Option.any_eq_true] at start
  obtain ⟨idle, c₀, hc₀, name, lease, pc, live⟩ := start
  have after : ((execute (exec sample) (fun _ _ => true) sampleStart restart).bind fun σ₀ =>
      execute (exec sample) (allowed 2 (str "a") 3) σ₀ (adopt o)).any (fun σ =>
        (σ.etcd.get (shardKey sample.pfx 0)).map (·.lease) = some (if o = .ok then 3 else 1) ∧
        σ.procs[2]?.any fun c => c.pc = .installing ∧ c.nodeID = str "a" ∧ c.leaseID = 3 ∧
          (c.install.owned 0).isSome ∧ c.install.releasing 0 = false ∧
          c.toRebind c.round.om = [0] ∧
          (o = .ok → ⟨0, str "a", 3, 6⟩ ∈ σ.commits ∧ c.round.loadedAt < 6)) = true := by
    rcases ho with rfl | rfl <;> decide +kernel
  rw [hσ₀, Option.bind_some] at after
  obtain ⟨σ, hσ, facts⟩ := (Option.any_eq_true _ _).mp after
  simp only [decide_eq_true_eq, Option.any_eq_true] at facts
  obtain ⟨record, c, hc, hpc, name', lease', own, unmarked, rebinds, again⟩ := facts
  refine ⟨σ₀, σ, c₀, c, ⟨sample_any hσ₀, hc₀, pc, live, by simp [idle]⟩, ?_, hc, hpc, name', lease',
    own, unmarked, record, rebinds, again⟩
  rw [InRound, name, lease]
  exact reachable_of_execute hσ

/-- The rebind goes through, and the adopted shard rides the new lease. -/
theorem installed_bound_iff_adopt : ∃ (σ₀ σ : Cluster) (c₀ c : Coordinator),
    Start sample σ₀ 2 c₀ ∧ InRound sample 2 c₀ σ₀ σ ∧ σ.procs[2]? = some c ∧
    c.pc = .installing ∧ (c.install.owned 0).isSome ∧
    Bound sample.pfx σ.etcd c.nodeID c.leaseID 0 := by
  obtain ⟨σ₀, σ, c₀, c, start, run, hc, hpc, name, lease, own, unmarked, -, rebinds, again⟩ :=
    adopt_run (.inl rfl)
  refine ⟨σ₀, σ, c₀, c, start, run, hc, hpc, own, ?_⟩
  refine (installed_bound_iff start run hc hpc).mpr (fun s hs => ?_) 0 own unmarked
  rw [rebinds, List.mem_singleton] at hs
  exact ⟨_, (again rfl).1, hs.symm, name.symm, lease.symm, (again rfl).2⟩

/-- The rebind fails, and the adopted shard is installed all the same. -/
theorem failed_rebind_installed : ∃ (σ₀ σ : Cluster) (c₀ c : Coordinator),
    Start sample σ₀ 2 c₀ ∧ InRound sample 2 c₀ σ₀ σ ∧ σ.procs[2]? = some c ∧
    c.pc = .installing ∧ (c.install.owned 0).isSome ∧ c.install.releasing 0 = false ∧
    ¬ Bound sample.pfx σ.etcd c.nodeID c.leaseID 0 := by
  obtain ⟨σ₀, σ, c₀, c, start, run, hc, hpc, -, lease, own, unmarked, record, -⟩ :=
    adopt_run (o := .failed false) (.inr rfl)
  refine ⟨σ₀, σ, c₀, c, start, run, hc, hpc, own, unmarked, ?_⟩
  rintro ⟨kv, hk, -, bound⟩
  rw [hk, Option.map_some, Option.some.injEq, bound, lease] at record
  cases record

end MilvusCatalog.Adoption

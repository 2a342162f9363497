import MilvusCatalog.SplitBrain

/-! Several deployments over one etcd. Each has its own nodes and its own key prefix;
they share the store with its revisions and leases, and the clock. One of them is
watched; the others may do whatever they like. -/
namespace MilvusCatalog.Isolation
open Go Etcd Transition

/-! ## What a request writes -/

theorem dir_memberKey (pfx nodeID : Str) : dir pfx <+: memberKey pfx nodeID := by
  rw [memberKey, membersPrefix_eq, List.append_assoc]
  exact List.prefix_append ..

theorem dir_shardBase (pfx : Str) : dir pfx <+: shardBase pfx := by
  rw [shardBase_eq]
  exact List.prefix_append ..

theorem dir_shardKey (pfx : Str) (s : Nat) : dir pfx <+: shardKey pfx s :=
  (dir_shardBase pfx).trans (shardBase_isPrefix pfx s)

/-- A request writes one key, under the deployment's directory. -/
theorem applied_outside {pfx : Str} {e e' : Store} {r : Request} {cs : List Commit}
    (ha : Applied pfx e r e' cs) {k : Str} (outside : ¬ dir pfx <+: k) : e'.get k = e.get k := by
  cases ha with
  | refused => rfl
  | @claim s _ _ _ _ _ wrote | @rebind s _ _ _ _ _ _ _ wrote | @release s _ _ _ _ _ _ wrote =>
    exact wrote.get_ne fun eq => outside (eq ▸ dir_shardKey pfx s)
  | @register nodeID _ _ _ wrote =>
    exact wrote.get_ne fun eq => outside (eq ▸ dir_memberKey pfx nodeID)

/-- The lease that a request binds its key to. -/
def binds : Request → Option Nat
  | .claim _ _ l | .rebind _ _ l | .register _ l => some l
  | .release _ _ _ => none

theorem apply_binds {pfx : Str} {e : Store} {r : Request} {k : Str} {kv : KeyValue}
    (hk : (r.apply pfx e).1.get k = some kv) : e.get k = some kv ∨ binds r = some kv.lease := by
  have write {e' : Store} {k' : Str} {kv' : KeyValue} (wrote : e.Wrote e' k' (some kv'))
      (hk : e'.get k = some kv) : e.get k = some kv ∨ some kv'.lease = some kv.lease := by
    rw [wrote.get] at hk
    split at hk
    · exact .inr (by rw [Option.some.inj hk])
    · exact .inl hk
  cases r with
  | claim s nodeID l =>
    rcases claimShard_cases pfx e s nodeID l with ⟨-, -, -, wrote⟩ | ⟨same, -⟩
    · exact write wrote hk
    · exact .inl (same ▸ hk)
  | rebind s nodeID l =>
    rcases rebindShard_cases pfx e s nodeID l with ⟨_, -, -, -, -, wrote⟩ | ⟨same, -⟩
    · exact write wrote hk
    · exact .inl (same ▸ hk)
  | release s nodeID seen =>
    rcases releaseShard_cases pfx e s nodeID with ⟨_, -, -, wrote⟩ | ⟨same, -⟩
    · simp only [Request.apply, wrote.get] at hk
      split at hk
      · cases hk
      · exact .inl hk
    · exact .inl (same ▸ hk)
  | register nodeID l =>
    cases put : register pfx e nodeID l with
    | none =>
      rw [Request.apply, put] at hk
      exact .inl hk
    | some e' =>
      rw [Request.apply, put] at hk
      exact write (Store.put_wrote put).2 hk

/-- A node binds what it writes to its own lease. -/
theorem request_binds {c : Coordinator} {r : Request} (h : c.request = some r) {l : Nat}
    (hl : binds r = some l) : l = SplitBrain.lease c := by
  unfold Coordinator.request at h
  split at h <;> cases h
  case h_1 hpc => simpa [binds, SplitBrain.lease, hpc] using hl.symm
  all_goals simp_all [binds, SplitBrain.lease]

/-! ## What a step does to the store -/

/-- Where a request that etcd applies in a step comes from. -/
inductive Source (σ : Cluster) (a : Action) (r : Request) : Prop
  | node {c : Coordinator} (mem : c ∈ σ.procs) (request : c.request = some r) : Source σ a r
  | sent (mem : r ∈ σ.inflight) : Source σ a r
  | outside {o : Outcome} (eq : a = .request r o) : Source σ a r

/-- A lease that the node holds or has asked for. -/
def Has (c : Coordinator) (l : Nat) : Prop := l ≠ 0 ∧ (l = c.leaseID ∨ l = SplitBrain.lease c)

/-- What a step does to the store: nothing, a grant, the end of a lease or a write. -/
inductive Effect (cfg : Config) (σ : Cluster) (a : Action) : Store → Prop
  | same : Effect cfg σ a σ.etcd
  | grant : Effect cfg σ a σ.etcd.grant.1
  | ends {l : Nat} (own : l = 0 ∨ (∃ c ∈ σ.procs, Has c l) ∨ a = .expire l) :
      Effect cfg σ a (σ.etcd.revoke l)
  | writes {r : Request} (source : Source σ a r) : Effect cfg σ a (r.apply cfg.pfx σ.etcd).1

theorem issue_effect {cfg : Config} {σ : Cluster} {a : Action} {r : Request} (o : Outcome)
    (source : Source σ a r) : Effect cfg σ a (r.issue cfg.pfx σ.etcd o).etcd := by
  cases o with
  | ok => exact .writes source
  | late => exact .same
  | failed applied =>
    cases applied with
    | true => exact .writes source
    | false => exact .same

theorem exec_effect {cfg : Config} {σ τ : Cluster} {a : Action}
    (step : MilvusCatalog.exec cfg σ a = some τ) : Effect cfg σ a τ.etcd := by
  have held {c : Coordinator} (hc : c ∈ σ.procs) {l : Nat} (own : l = c.leaseID ∨
      l = SplitBrain.lease c) : l = 0 ∨ (∃ c ∈ σ.procs, Has c l) ∨ a = .expire l := by
    by_cases zero : l = 0
    · exact .inl zero
    · exact .inr (.inl ⟨c, hc, zero, own⟩)
  cases exec_step step with
  | @call p o c hp =>
    have hc := List.mem_of_getElem? hp
    simp only [Cluster.update, Cluster.wrote]
    cases hr : c.request with
    | some r =>
      rw [Coordinator.issue_request cfg hr]
      exact issue_effect o (.node hc hr)
    | none =>
      rcases c.issue_cases cfg σ.etcd o with ⟨he, -⟩ | ⟨-, he, -⟩ | ⟨l, hpc, he, -⟩ | ⟨r, sends, -⟩
      · rw [he]
        exact .same
      · rw [he]
        exact .grant
      · rw [he]
        exact .ends (held hc (.inr (by simp [SplitBrain.lease, hpc])))
      · rw [hr] at sends
        cases sends
  | deliver hr => exact .writes (.sent (List.mem_of_getElem? hr))
  | expire => exact .ends (.inr (.inr rfl))
  | revoked hp => exact .ends (held (List.mem_of_getElem? hp) (.inl rfl))
  | @request r o => exact issue_effect o (.outside rfl)
  | _ => exact .same

theorem exec_sent {cfg : Config} {σ τ : Cluster} {a : Action}
    (step : MilvusCatalog.exec cfg σ a = some τ) {r : Request} (hr : r ∈ τ.inflight) :
    Source σ a r := by
  cases exec_step step with
  | call hp =>
    cases List.mem_append.mp hr with
    | inl old => exact .sent old
    | inr new => exact .node (List.mem_of_getElem? hp) (Coordinator.mem_issue_sent new).2
  | deliver => exact .sent (List.mem_of_mem_eraseIdx hr)
  | @request _ o =>
    cases List.mem_append.mp hr with
    | inl old => exact .sent old
    | inr new =>
      obtain ⟨-, rfl⟩ := Request.issue_sent new
      exact .outside rfl
  | _ => exact .sent hr

/-- A node joins with the lease that it has asked for. -/
theorem stepped_joined {cfg : Config} {σ : Cluster} {q : Nat} {c d : Coordinator} {a : Action}
    (stepped : Stepped cfg σ q c a d) :
    d.leaseID = c.leaseID ∨ d.leaseID = SplitBrain.lease c := by
  cases stepped with
  | @calls o =>
    by_cases first : ∃ l, c.pc = .keepingAlive l ∧ o = .ok
    · obtain ⟨l, hpc, rfl⟩ := first
      exact .inr (by simp [Coordinator.resume, hpc, Coordinator.leaseID, SplitBrain.lease])
    · exact .inl (congrArg Membership.leaseID
        (Coordinator.resume_membership fun l hpc ok => first ⟨l, hpc, ok⟩))
  | _ => exact .inl rfl

/-- A node comes to a lease by being granted it. -/
theorem stepped_has {cfg : Config} {σ : Cluster} {q l : Nat} {c d : Coordinator} {a : Action}
    (stepped : Stepped cfg σ q c a d) (h : Has d l) :
    Has c l ∨ l = σ.etcd.nextLease ∧ a = .call q .ok ∧ c.pc = .granting := by
  obtain ⟨nonzero, rfl | rfl⟩ := h
  · exact .inl ⟨nonzero, stepped_joined stepped⟩
  · rcases SplitBrain.stepped_asked stepped with same | own | granted
    · exact .inl ⟨nonzero, .inr same⟩
    · exact .inl ⟨nonzero, .inl own⟩
    · exact .inr granted

theorem exec_has {cfg : Config} {σ τ : Cluster} {a : Action} {l : Nat} {d : Coordinator}
    (step : MilvusCatalog.exec cfg σ a = some τ) (hd : d ∈ τ.procs) (h : Has d l) :
    (∃ c ∈ σ.procs, Has c l) ∨ l = σ.etcd.nextLease ∧ l < τ.etcd.nextLease := by
  obtain ⟨q, hq⟩ := List.mem_iff_getElem?.mp hd
  cases exec_node step hq with
  | inl before =>
    obtain ⟨c, hc, stepped⟩ := before
    rcases stepped_has stepped h with old | ⟨rfl, rfl, granting⟩
    · exact .inl ⟨c, List.mem_of_getElem? hc, old⟩
    · refine .inr ⟨rfl, ?_⟩
      cases exec_step step with
      | call hp =>
        obtain rfl := Option.some.inj (hp.symm.trans hc)
        simp [Coordinator.issue, granting, Cluster.update, Cluster.wrote, Issued.quiet]
  | inr spawned =>
    obtain ⟨_, _, -, -, rfl⟩ := spawned
    obtain ⟨nonzero, rfl | rfl⟩ := h
    · exact absurd rfl nonzero
    · exact absurd rfl nonzero

/-! ## The deployments -/

section
variable {ι : Type}

/-- A step of one deployment. All of them see the store and the clock that it leaves. -/
def exec [DecidableEq ι] (cfg : ι → Config) (σ : ι → Cluster) (x : ι × Action) :
    Option (ι → Cluster) :=
  (MilvusCatalog.exec (cfg x.1) (σ x.1) x.2).map fun τ j =>
    if j = x.1 then τ else { σ j with etcd := τ.etcd, now := τ.now }

def ends : Action → Bool
  | .expire _ => true
  | _ => false

/-- Only nodes write the keys of deployment `i`. -/
def byNodes (i : ι) (_ : ι → Cluster) (x : ι × Action) : Prop := ∀ r o, x ≠ (i, .request r o)

/-- Deployment `i` keeps to the conditions of the runs without split brain, which the
end of a lease always concerns. The other deployments may do anything. -/
def guarded (i : ι) (σ : ι → Cluster) (x : ι × Action) : Prop :=
  x.1 = i ∨ ends x.2 = true → SplitBrain.allowed (σ i) x.2 = true

instance [DecidableEq ι] (i : ι) (σ : ι → Cluster) : DecidablePred (guarded i σ) :=
  fun x => inferInstanceAs (Decidable (x.1 = i ∨ ends x.2 = true → _))

theorem guarded_byNodes {i : ι} {σ : ι → Cluster} {x : ι × Action} (h : guarded i σ x) :
    byNodes i σ x := by
  rintro r o rfl
  cases h (.inl rfl)

structure Initial (cfg : ι → Config) (σ : ι → Cluster) : Prop where
  each : ∀ i, MilvusCatalog.Initial (cfg i) (σ i)
  shared : ∀ i j, (σ i).etcd = (σ j).etcd ∧ (σ i).now = (σ j).now

/-- A lease of a node of another deployment than `i`. -/
def Foreign (i : ι) (σ : ι → Cluster) (l : Nat) : Prop := ∃ j, j ≠ i ∧ ∃ d ∈ (σ j).procs, Has d l

/-- No node, no key and no request under way of deployment `i` is bound to a lease of
another deployment. -/
structure Apart (cfg : ι → Config) (i : ι) (σ : ι → Cluster) : Prop where
  shared : ∀ j, (σ j).etcd = (σ i).etcd ∧ (σ j).now = (σ i).now
  known : ∀ j, ∀ c ∈ (σ j).procs, ∀ l, Has c l → l < (σ i).etcd.nextLease
  node : ∀ c ∈ (σ i).procs, ∀ l, Has c l → ¬ Foreign i σ l
  keys : ∀ k kv, dir (cfg i).pfx <+: k → (σ i).etcd.get k = some kv → ¬ Foreign i σ kv.lease
  sent : ∀ r ∈ (σ i).inflight, ∀ l, binds r = some l →
    l < (σ i).etcd.nextLease ∧ ¬ Foreign i σ l

/-- A change of the store that a deployment does not notice. -/
structure Spared (cfg : Config) (σ : Cluster) (e : Store) : Prop where
  get : ∀ k, dir cfg.pfx <+: k → e.get k = σ.etcd.get k
  live : ∀ c ∈ σ.procs, ∀ l, Has c l → (l ∈ e.leases ↔ l ∈ σ.etcd.leases)
  nextLease : σ.etcd.nextLease ≤ e.nextLease

theorem Spared.refl (cfg : Config) (σ : Cluster) : Spared cfg σ σ.etcd :=
  ⟨fun _ _ => rfl, fun _ _ _ _ => Iff.rfl, Nat.le_refl _⟩

theorem Spared.reads {cfg : Config} {σ : Cluster} {e : Store} (h : Spared cfg σ e) :
    listMembers cfg.pfx e = listMembers cfg.pfx σ.etcd ∧
      loadShardMap cfg.pfx e = loadShardMap cfg.pfx σ.etcd ∧
      loadOwnershipMap cfg.pfx e = loadOwnershipMap cfg.pfx σ.etcd := by
  have members : e.getPrefix (membersPrefix cfg.pfx) = σ.etcd.getPrefix (membersPrefix cfg.pfx) :=
    Store.getPrefix_congr fun k hk =>
      h.get k ((membersPrefix_eq cfg.pfx ▸ List.prefix_append ..).trans hk)
  have shards : e.getPrefix (shardBase cfg.pfx) = σ.etcd.getPrefix (shardBase cfg.pfx) :=
    Store.getPrefix_congr fun k hk => h.get k ((dir_shardBase cfg.pfx).trans hk)
  simp only [listMembers, loadShardMap, loadOwnershipMap, members, shards, and_self]

theorem Spared.inv {cfg : Config} {σ : Cluster} {e : Store} (h : Spared cfg σ e)
    (inv : SplitBrain.Inv cfg σ) : SplitBrain.Inv cfg { σ with etcd := e } := by
  have get (s : Nat) : e.get (shardKey cfg.pfx s) = σ.etcd.get (shardKey cfg.pfx s) :=
    h.get _ (dir_shardKey cfg.pfx s)
  have live {q : Nat} {c : Coordinator} (hq : σ.procs[q]? = some c) :
      c.leaseID ∈ e.leases ↔ c.leaseID ∈ σ.etcd.leases := by
    by_cases zero : c.leaseID = 0
    · rw [zero]
      exact iff_of_false (fun live => Store.ne_zero_of_live live rfl)
        fun live => Store.ne_zero_of_live live rfl
    · exact h.live c (List.mem_of_getElem? hq) c.leaseID ⟨zero, .inl rfl⟩
  refine ⟨fun k kv hk hp => ?_, fun q c hq => ?_, fun q c hq gone => ?_, inv.ids,
    fun q c hq => Nat.lt_of_lt_of_le (inv.known q c hq) h.nextLease, inv.leases,
    fun s kv hk => inv.keys s kv (get s ▸ hk)⟩
  · exact inv.layout k kv (h.get k ((dir_shardBase cfg.pfx).trans hp) ▸ hk) hp
  · refine (inv.node q c hq).frame (live hq).mp fun s t _ holds => ?_
    rw [SplitBrain.Holds, get s]
    exact holds
  · exact inv.stale q c hq fun alive => gone ((live hq).mpr alive)

section Step
variable [DecidableEq ι] {cfg : ι → Config} {i : ι} {σ τ : ι → Cluster} {x : ι × Action}

theorem exec_some (step : exec cfg σ x = some τ) :
    MilvusCatalog.exec (cfg x.1) (σ x.1) x.2 = some (τ x.1) ∧
      ∀ j, j ≠ x.1 → τ j = { σ j with etcd := (τ x.1).etcd, now := (τ x.1).now } := by
  obtain ⟨next, own, rfl⟩ := Option.map_eq_some_iff.mp step
  exact ⟨by simpa using own, fun j ne => by simp [ne]⟩

theorem exec_shared (step : exec cfg σ x = some τ) (j : ι) :
    (τ j).etcd = (τ x.1).etcd ∧ (τ j).now = (τ x.1).now := by
  by_cases same : j = x.1
  · rw [same]
    exact ⟨rfl, rfl⟩
  · rw [(exec_some step).2 j same]
    exact ⟨rfl, rfl⟩

/-- The leases that nodes have after a step: those from before it, and a new one. -/
theorem exec_lease (apart : Apart cfg i σ) (step : exec cfg σ x = some τ) {j : ι}
    {c : Coordinator} {l : Nat} (hc : c ∈ (τ j).procs) (h : Has c l) :
    (∃ b ∈ (σ j).procs, Has b l) ∨
      j = x.1 ∧ l = (σ i).etcd.nextLease ∧ l < (τ i).etcd.nextLease := by
  obtain ⟨own, others⟩ := exec_some step
  by_cases same : j = x.1
  · subst same
    rw [(exec_shared step i).1, ← (apart.shared x.1).1]
    exact (exec_has own hc h).imp id fun new => ⟨rfl, new⟩
  · rw [others j same] at hc
    exact .inl ⟨c, hc, h⟩

theorem exec_foreign (apart : Apart cfg i σ) (step : exec cfg σ x = some τ) {l : Nat}
    (h : Foreign i τ l) : (Foreign i σ l ∧ l < (σ i).etcd.nextLease) ∨
      x.1 ≠ i ∧ l = (σ i).etcd.nextLease := by
  obtain ⟨j, ne, d, hd, has⟩ := h
  rcases exec_lease apart step hd has with ⟨b, hb, old⟩ | ⟨rfl, new, -⟩
  · exact .inl ⟨⟨j, ne, b, hb, old⟩, apart.known j b hb l old⟩
  · exact .inr ⟨ne, new⟩

omit [DecidableEq ι] in
/-- What a deployment's own nodes send is bound to no other deployment's lease. -/
theorem source_own (apart : Apart cfg i σ) {a : Action} {r : Request} {l : Nat}
    (source : Source (σ i) a r) (own : ∀ o, a ≠ .request r o) (hl : binds r = some l) :
    l < (σ i).etcd.nextLease ∧ ¬ Foreign i σ l := by
  cases source with
  | @node c mem request =>
    by_cases zero : l = 0
    · subst zero
      refine ⟨(σ i).etcd.positive, ?_⟩
      rintro ⟨_, -, _, -, nonzero, -⟩
      exact nonzero rfl
    · have has : Has c l := ⟨zero, .inr (request_binds request hl)⟩
      exact ⟨apart.known i c mem l has, apart.node c mem l has⟩
  | sent mem => exact apart.sent r mem l hl
  | outside eq => exact absurd eq (own _)

variable (dirs : ∀ i j, i ≠ j → ¬ dir (cfg i).pfx <+: dir (cfg j).pfx)

omit [DecidableEq ι] in
include dirs in
/-- No key is under the directories of two deployments. -/
theorem under_unique {i j : ι} {k : Str} (hi : dir (cfg i).pfx <+: k)
    (hj : dir (cfg j).pfx <+: k) : i = j := by
  by_contra ne
  cases List.prefix_or_prefix_of_prefix hi hj with
  | inl inside => exact dirs i j ne inside
  | inr inside => exact dirs j i (Ne.symm ne) inside

include dirs in
/-- What a step leaves under the directory of a deployment was there before it, or its
own nodes have sent it. -/
theorem exec_binds (apart : Apart cfg i σ) (nodes : byNodes i σ x) (step : exec cfg σ x = some τ)
    {k : Str} {kv : KeyValue} (hk : dir (cfg i).pfx <+: k) (found : (τ i).etcd.get k = some kv) :
    (σ i).etcd.get k = some kv ∨
      x.1 = i ∧ kv.lease < (σ i).etcd.nextLease ∧ ¬ Foreign i σ kv.lease := by
  rw [(exec_shared step i).1] at found
  have effect := exec_effect (exec_some step).1
  rw [← (apart.shared x.1).1]
  generalize (τ x.1).etcd = e at effect found
  cases effect with
  | same => exact .inl found
  | grant => exact .inl (by rwa [Store.get_grant] at found)
  | ends => exact .inl (Store.get_of_revoke found)
  | @writes r source =>
    by_cases own : x.1 = i
    · cases apply_binds found with
      | inl old => exact .inl old
      | inr bound =>
        subst own
        refine .inr ⟨rfl, source_own apart source (fun o eq => ?_) bound⟩
        exact nodes r o (Prod.ext rfl eq)
    · rw [applied_outside (r.applied (cfg x.1).pfx (σ x.1).etcd)
        fun other => own (under_unique dirs other hk)] at found
      exact .inl found

include dirs in
theorem step_apart (apart : Apart cfg i σ) (nodes : byNodes i σ x)
    (step : exec cfg σ x = some τ) : Apart cfg i τ := by
  obtain ⟨own, others⟩ := exec_some step
  have grows : (σ i).etcd.nextLease ≤ (τ i).etcd.nextLease := by
    obtain ⟨_, moved, -⟩ := exec_moved own
    rw [(exec_shared step i).1, ← (apart.shared x.1).1]
    exact moved.nextLease_le
  -- What was no other deployment's and has been granted before does not become one's.
  have stays {l : Nat} (known : l < (σ i).etcd.nextLease) (no : ¬ Foreign i σ l) :
      ¬ Foreign i τ l := by
    intro foreign
    rcases exec_foreign apart step foreign with ⟨old, -⟩ | ⟨-, new⟩
    · exact no old
    · omega
  refine ⟨fun j => ?_, fun j c hc l has => ?_, fun c hc l has => ?_, fun k kv hk found => ?_,
    fun r hr l hl => ?_⟩
  · rw [(exec_shared step j).1, (exec_shared step j).2, (exec_shared step i).1,
      (exec_shared step i).2]
    exact ⟨rfl, rfl⟩
  · rcases exec_lease apart step hc has with ⟨b, hb, old⟩ | ⟨-, -, lt⟩
    · exact Nat.lt_of_lt_of_le (apart.known j b hb l old) grows
    · exact lt
  · rcases exec_lease apart step hc has with ⟨b, hb, old⟩ | ⟨same, new, -⟩
    · exact stays (apart.known i b hb l old) (apart.node b hb l old)
    · intro foreign
      rcases exec_foreign apart step foreign with ⟨-, lt⟩ | ⟨other, -⟩
      · omega
      · exact other same.symm
  · rcases exec_binds dirs apart nodes step hk found with old | ⟨-, known, no⟩
    · rcases ((σ i).etcd.sound k kv old).bound with zero | live
      · rintro ⟨_, -, _, -, nonzero, -⟩
        exact nonzero zero
      · exact stays ((σ i).etcd.granted _ live).2 (apart.keys k kv hk old)
    · exact stays known no
  · have sent : l < (σ i).etcd.nextLease ∧ ¬ Foreign i σ l := by
      by_cases same : i = x.1
      · subst same
        exact source_own apart (exec_sent own hr) (fun o eq => nodes r o (Prod.ext rfl eq)) hl
      · rw [others i same] at hr
        exact apart.sent r hr l hl
    exact ⟨Nat.lt_of_lt_of_le sent.1 grows, stays sent.1 sent.2⟩

include dirs in
/-- No step of another deployment is noticed, short of the end of a lease that is not
that deployment's. -/
theorem step_spared (apart : Apart cfg i σ) (ne : x.1 ≠ i) (step : exec cfg σ x = some τ)
    (own : ∀ l, x.2 = .expire l → ∃ d ∈ (σ x.1).procs, Has d l) :
    Spared (cfg i) (σ i) (τ i).etcd := by
  have effect := exec_effect (exec_some step).1
  rw [(exec_shared step i).1]
  have shared := (apart.shared x.1).1
  generalize (τ x.1).etcd = e at effect
  cases effect with
  | same => exact shared ▸ .refl (cfg i) (σ i)
  | grant =>
    rw [shared]
    refine ⟨fun _ _ => rfl, fun c hc l has => ?_, Nat.le_succ _⟩
    have known := apart.known i c hc l has
    exact ⟨fun live => (List.mem_cons.mp live).resolve_left (by omega), List.mem_cons_of_mem _⟩
  | @ends l held =>
    rw [shared]
    by_cases zero : l = 0
    · rw [zero, Store.revoke_zero]
      exact .refl (cfg i) (σ i)
    have foreign : Foreign i σ l := by
      rcases held with none | has | expires
      · exact absurd none zero
      · exact ⟨x.1, ne, has⟩
      · exact ⟨x.1, ne, own l expires⟩
    refine ⟨fun k hk => ?_, fun c hc l' has => ?_, Nat.le_of_eq (Store.nextLease_revoke ..).symm⟩
    · exact Store.get_revoke_other fun kv found same => apart.keys k kv hk found (same ▸ foreign)
    · rw [Store.mem_leases_revoke, and_iff_left]
      exact fun same => apart.node c hc l' has (same ▸ foreign)
  | @writes r source =>
    have applied := r.applied (cfg x.1).pfx (σ x.1).etcd
    refine ⟨fun k hk => ?_, fun _ _ _ _ => ?_, ?_⟩
    · rw [applied_outside applied fun other => ne (under_unique dirs other hk), shared]
    · rw [applied.leases.1, shared]
    · rw [applied.leases.2, shared]

include dirs in
theorem step_guarded (apart : Apart cfg i σ) (inv : SplitBrain.Inv (cfg i) (σ i))
    (ha : guarded i σ x) (step : exec cfg σ x = some τ) : SplitBrain.Inv (cfg i) (τ i) := by
  obtain ⟨own, others⟩ := exec_some step
  by_cases ne : x.1 = i
  · subst ne
    exact SplitBrain.step_inv inv (ha (.inl rfl)) own
  have spared := step_spared dirs apart ne step
  rw [(exec_shared step i).1] at spared
  rw [others i (Ne.symm ne)]
  obtain ⟨etcd, now⟩ := apart.shared x.1
  obtain ⟨j, a⟩ := x
  generalize τ j = τj at own spared
  cases exec_step own with
  | @expire l =>
    -- The end of the lease is a step of the watched deployment too.
    refine SplitBrain.step_inv inv (ha (.inr rfl)) ?_
    simp only [MilvusCatalog.exec, etcd, now]
  | @tick d =>
    refine SplitBrain.step_inv (a := .tick d) inv rfl ?_
    simp only [MilvusCatalog.exec, etcd, now]
  | _ =>
    have kept := (spared fun l expires => by cases expires).inv inv
    rwa [← now] at kept

end Step

variable [DecidableEq ι] {cfg : ι → Config} {σ : ι → Cluster}

omit [DecidableEq ι] in
theorem initial_apart (start : Initial cfg σ) (i : ι) : Apart cfg i σ := by
  have none (j : ι) := (start.each j).procs
  have no (l : Nat) : ¬ Foreign i σ l := by
    rintro ⟨j, -, d, hd, -⟩
    simp [none j] at hd
  exact ⟨fun j => start.shared j i, by simp [none], by simp [none], fun _ _ _ _ => no _,
    by simp [(start.each i).inflight]⟩

/-- Runs in which only nodes write the keys of deployment `i`. -/
abbrev ByNodes (cfg : ι → Config) (i : ι) : (ι → Cluster) → (ι → Cluster) → Prop :=
  Next (exec cfg) (byNodes i)

/-- Runs in which deployment `i` keeps to the conditions without split brain. -/
abbrev Guarded (cfg : ι → Config) (i : ι) : (ι → Cluster) → (ι → Cluster) → Prop :=
  Next (exec cfg) (guarded i)

theorem reachable_apart (dirs : ∀ i j, i ≠ j → ¬ dir (cfg i).pfx <+: dir (cfg j).pfx) {i : ι}
    (h : Reachable (Initial cfg) (ByNodes cfg i) σ) : Apart cfg i σ :=
  h.invariant (fun _ start => initial_apart start i) fun _ _ _ => step_apart dirs

theorem reachable_inv (dirs : ∀ i j, i ≠ j → ¬ dir (cfg i).pfx <+: dir (cfg j).pfx) {i : ι}
    (h : Reachable (Initial cfg) (Guarded cfg i) σ) : SplitBrain.Inv (cfg i) (σ i) := by
  induction h with
  | start initial => exact SplitBrain.initial_inv (initial.each i)
  | step reached next ih =>
    obtain ⟨x, ha, step⟩ := next
    have apart := reachable_apart dirs (reached.mono (fun _ h => h) fun _ _ => guarded_byNodes)
    exact step_guarded dirs apart ih ha step

/-- **Isolation.** Any number of deployments run over one etcd, and of their
directories none is inside another. A deployment that keeps to the conditions without
split brain has none, whatever the others do: a namespace is servable on at most one
of its nodes, which then holds the record of the shard under its live lease and the
term it reports. And as long as only nodes write its keys, no step of another
deployment, the end of a lease of its nodes included, changes what the nodes of this
one read or ends a lease of them. -/
theorem deployments_isolated (dirs : ∀ i j, i ≠ j → ¬ dir (cfg i).pfx <+: dir (cfg j).pfx)
    (i : ι) :
    (Reachable (Initial cfg) (Guarded cfg i) σ →
      ∀ (ns : Str) (p : Nat) (c : Coordinator), (σ i).procs[p]? = some c →
      c.isServable (cfg i) (σ i).now ns = true →
      (∀ (q : Nat) (d : Coordinator), (σ i).procs[q]? = some d →
        d.isServable (cfg i) (σ i).now ns = true → q = p) ∧
      ∃ kv, (σ i).etcd.get (shardKey (cfg i).pfx ((cfg i).shardOf ns)) = some kv ∧
        kv.value = c.nodeID ∧ kv.lease = c.leaseID ∧ c.leaseID ∈ (σ i).etcd.leases ∧
        kv.modRevision = c.ownerTerm ((cfg i).shardOf ns)) ∧
    (Reachable (Initial cfg) (ByNodes cfg i) σ →
      ∀ (j : ι) (a : Action) (τ : ι → Cluster), j ≠ i → exec cfg σ (j, a) = some τ →
      (∀ l, a = .expire l → ∃ d ∈ (σ j).procs, Has d l) →
      (τ i).procs = (σ i).procs ∧
      listMembers (cfg i).pfx (τ i).etcd = listMembers (cfg i).pfx (σ i).etcd ∧
      loadShardMap (cfg i).pfx (τ i).etcd = loadShardMap (cfg i).pfx (σ i).etcd ∧
      loadOwnershipMap (cfg i).pfx (τ i).etcd = loadOwnershipMap (cfg i).pfx (σ i).etcd ∧
      ∀ c ∈ (σ i).procs, ∀ l, Has c l → (l ∈ (τ i).etcd.leases ↔ l ∈ (σ i).etcd.leases)) := by
  constructor
  · intro h ns p c hp serves
    have inv := reachable_inv dirs h
    obtain ⟨live, holds⟩ := SplitBrain.servable_holds inv hp serves
    obtain ⟨kv, hk, value, lease, term⟩ := holds.record
    exact ⟨fun q d hq other => SplitBrain.servable_unique inv hp hq serves other,
      kv, hk, value, lease, live, term⟩
  · intro h j a τ ne step ends
    have spared := step_spared dirs (reachable_apart dirs h) ne step ends
    obtain ⟨members, shards, owners⟩ := spared.reads
    have same : (τ i).procs = (σ i).procs := by rw [(exec_some step).2 i ne.symm]
    exact ⟨same, members, shards, owners, spared.live⟩

-- Inside another deployment's directory a node would be listed as a member there.
example : memberKey (str "p/members") (str "n") = memberKey (str "p") (str "members/n") := by
  decide +kernel

/-- Two deployments with the same hash. -/
def samplePair (left : Bool) : Config := { sample with pfx := if left then str "p" else str "q" }

/-- Both have nodes `a` and `b`, and node `a` of each runs a round, step by step in
turn. Then one of them has a claim arrive late and closes its node `a`. -/
def oneCloses : List (Bool × Action) :=
  (SplitBrain.aServes.flatMap fun a => [(true, a), (false, a)]) ++
    [.call 1 .ok, .call 1 .ok, .call 1 .late, .close 0, .exitLoop 0, .deliver 0, .leave 0].map
      fun a => (false, a)

theorem samplePair_initial : Initial samplePair fun _ => sampleStart :=
  ⟨fun _ => ⟨rfl, rfl, rfl, rfl, rfl, fun _ _ => Std.ExtTreeMap.getElem?_empty⟩,
    fun _ _ => ⟨rfl, rfl⟩⟩

/-- The lease of the closed node is revoked, which only its own deployment notices. -/
theorem deployments_isolated_oneCloses : ∃ (σ τ : Bool → Cluster) (c : Coordinator),
    Reachable (Initial samplePair) (Guarded samplePair true) σ ∧
    (σ true).procs[0]? = some c ∧ c.isServable (samplePair true) (σ true).now (str "x") = true ∧
    exec samplePair σ (false, .revoke 0 true) = some τ ∧
    listMembers (samplePair false).pfx (σ false).etcd = [str "a", str "b"] ∧
    listMembers (samplePair false).pfx (τ false).etcd = [str "b"] ∧
    (∀ (q : Nat) (d : Coordinator), (σ true).procs[q]? = some d →
      d.isServable (samplePair true) (σ true).now (str "x") = true → q = 0) ∧
    listMembers (samplePair true).pfx (τ true).etcd =
      listMembers (samplePair true).pfx (σ true).etcd ∧
    loadOwnershipMap (samplePair true).pfx (τ true).etcd =
      loadOwnershipMap (samplePair true).pfx (σ true).etcd := by
  have ran : (execute (exec samplePair) (fun σ x => decide (guarded true σ x))
      (fun _ => sampleStart) oneCloses).any (fun σ =>
        listMembers (samplePair false).pfx (σ false).etcd = [str "a", str "b"] ∧
        ((σ true).procs[0]?.any fun c =>
          c.isServable (samplePair true) (σ true).now (str "x")) ∧
        (exec samplePair σ (false, .revoke 0 true)).any fun τ =>
          listMembers (samplePair false).pfx (τ false).etcd = [str "b"]) = true := by decide +kernel
  obtain ⟨σ, hσ, test⟩ := (Option.any_eq_true _ _).mp ran
  simp only [decide_eq_true_eq, Option.any_eq_true] at test
  obtain ⟨before, ⟨c, hc, serves⟩, τ, step, after⟩ := test
  have reach : Reachable (Initial samplePair) (Guarded samplePair true) σ :=
    (reachable_of_execute hσ).mono (fun _ e => e ▸ samplePair_initial)
      fun _ _ permitted => of_decide_eq_true permitted
  have nodes : Reachable (Initial samplePair) (ByNodes samplePair true) σ :=
    reach.mono (fun _ h => h) fun _ _ => guarded_byNodes
  have dirs : ∀ i j, i ≠ j → ¬ dir (samplePair i).pfx <+: dir (samplePair j).pfx := by
    decide +kernel
  obtain ⟨alone, spared⟩ := deployments_isolated (σ := σ) dirs true
  obtain ⟨-, members, -, owners, -⟩ := spared nodes false _ τ (by decide) step nofun
  exact ⟨σ, τ, c, reach, hc, serves, step, before, after, (alone reach _ 0 c hc serves).1, members,
    owners⟩

end

end MilvusCatalog.Isolation

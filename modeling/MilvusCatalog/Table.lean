import MilvusCatalog.Cluster
import MilvusCatalog.Lib.Journal

/-! The ownership table and the members as the history of calls gives them, and
that the keys in etcd hold just that. The history is a log of what etcd has
applied, in the order in which it did. -/
namespace MilvusCatalog.Table
open Go Etcd Transition Journal

/-- What a log keeps: a claim or rebind that succeeded, a release, whether or not
it found a record of its node, a registration, and the end of a lease. -/
inductive Event
  | owns (k : Commit)
  | released (shard : Nat) (nodeID : Str)
  | registered (nodeID : Str) (lease : Nat)
  | ended (lease : Nat)
  deriving DecidableEq, Repr

def info (k : Commit) : OwnerInfo := ⟨k.owner, k.term, k.lease⟩

/-- One shard of the table. Its owner's release and the end of its lease clear it. -/
def shard (s : Nat) : Cell Event OwnerInfo where
  sets
    | .owns k => if k.shard = s then some (info k) else none
    | _ => none
  clears
    | .released s' nodeID, i => s' = s ∧ nodeID = i.owner
    | .ended l, i => i.lease = l
    | _, _ => false

/-- The lease of a node's latest registration, alive or not. -/
def registration (nodeID : Str) : Cell Event Nat where
  sets
    | .registered id l => if id = nodeID then some l else none
    | _ => none
  clears _ _ := false

/-- A key can be bound to the lease. Lease zero stands for none and does not end. -/
def alive (e : Store) (l : Nat) : Bool := l = 0 ∨ l ∈ e.leases

/-! ## The log -/

def ended (e : Store) (l : Nat) : List Event := if l ∈ e.leases then [.ended l] else []

/-- What is logged when etcd applies a request. -/
def logged (pfx : Str) (e : Store) (r : Request) : List Event :=
  match r with
  | .claim _ _ _ | .rebind _ _ _ => (r.apply pfx e).2.map .owns
  | .release s nodeID _ => [.released s nodeID]
  | .register nodeID l => if (register pfx e nodeID l).isSome then [.registered nodeID l] else []

def issued (pfx : Str) (e : Store) (r : Request) : Outcome → List Event
  | .ok | .failed true => logged pfx e r
  | .failed false | .late => []

def called (cfg : Config) (c : Coordinator) (e : Store) (o : Outcome) : List Event :=
  match c.pc with
  | .revoking l => if o = .ok ∨ o = .failed true then ended e l else []
  | _ => match c.request with
    | some r => issued cfg.pfx e r o
    | none => []

/-- What a step of the cluster adds to the log. -/
def events (cfg : Config) (σ : Cluster) : Action → List Event
  | .call p o => (σ.procs[p]?).elim [] fun c => called cfg c σ.etcd o
  | .deliver k => (σ.inflight[k]?).elim [] (logged cfg.pfx σ.etcd)
  | .expire l => ended σ.etcd l
  | .revoke p true => (σ.procs[p]?).elim [] fun c => ended σ.etcd c.leaseID
  | .request r o => issued cfg.pfx σ.etcd r o
  | _ => []

/-- A cluster with the log of its run. -/
structure Logged where
  cluster : Cluster
  log : List Event

def Logged.exec (cfg : Config) (τ : Logged) (a : Action) : Option Logged :=
  (MilvusCatalog.exec cfg τ.cluster a).map fun cluster =>
    ⟨cluster, τ.log ++ events cfg τ.cluster a⟩

/-- Nothing has been called yet, and the store has neither ownership nor member
keys under the prefix. -/
structure Start (cfg : Config) (τ : Logged) : Prop where
  cluster : Initial cfg τ.cluster
  members : ∀ k, membersPrefix cfg.pfx <+: k → τ.cluster.etcd.get k = none
  log : τ.log = []

/-! ## What a step does to the store and to the log -/

inductive Effect (pfx : Str) (e : Store) : Store → List Event → Prop
  | quiet : Effect pfx e e []
  | granted : Effect pfx e e.grant.1 []
  | ended {l : Nat} (live : l ∈ e.leases) : Effect pfx e (e.revoke l) [.ended l]
  | owns {k : Commit} {kv : KeyValue} {e' : Store} (read : ownerInfo kv = info k)
      (wrote : e.Wrote e' (shardKey pfx k.shard) (some kv)) : Effect pfx e e' [.owns k]
  | released {s : Nat} {kv : KeyValue} {e' : Store} (own : e.get (shardKey pfx s) = some kv)
      (wrote : e.Wrote e' (shardKey pfx s) none) : Effect pfx e e' [.released s kv.value]
  | spared {s : Nat} {nodeID : Str}
      (other : ∀ kv, e.get (shardKey pfx s) = some kv → kv.value ≠ nodeID) :
      Effect pfx e e [.released s nodeID]
  | registered {nodeID : Str} {kv : KeyValue} {e' : Store} (live : alive e kv.lease = true)
      (wrote : e.Wrote e' (memberKey pfx nodeID) (some kv)) :
      Effect pfx e e' [.registered nodeID kv.lease]

section
variable {cfg : Config} {pfx : Str} {e e' : Store}

theorem ended_effect (l : Nat) : Effect pfx e (e.revoke l) (ended e l) := by
  by_cases live : l ∈ e.leases
  · rw [ended, if_pos live]
    exact .ended live
  · rw [ended, if_neg live, Store.revoke, if_neg live]
    exact .quiet

theorem request_effect (r : Request) : Effect pfx e (r.apply pfx e).1 (logged pfx e r) := by
  cases r with
  | claim s nodeID l =>
    simp only [logged, Request.apply]
    obtain ⟨-, -, ok, wrote⟩ | ⟨same, failed⟩ := claimShard_cases pfx e s nodeID l
    · rw [ok]
      exact .owns rfl wrote
    · rw [same, committed_eq_nil failed]
      exact .quiet
  | rebind s nodeID l =>
    simp only [logged, Request.apply]
    obtain ⟨kv, -, -, -, ok, wrote⟩ | ⟨same, failed⟩ := rebindShard_cases pfx e s nodeID l
    · rw [ok]
      exact .owns rfl wrote
    · rw [same, committed_eq_nil failed]
      exact .quiet
  | release s nodeID seen =>
    simp only [logged, Request.apply]
    obtain ⟨kv, own, rfl, wrote⟩ | ⟨same, other⟩ := releaseShard_cases pfx e s nodeID
    · exact .released own wrote
    · rw [same]
      exact .spared other
  | register nodeID l =>
    simp only [logged, Request.apply]
    cases put : register pfx e nodeID l with
    | none => exact .quiet
    | some e' =>
      obtain ⟨live, wrote⟩ := Store.put_wrote put
      exact .registered (decide_eq_true live) wrote

theorem issued_effect (r : Request) (o : Outcome) :
    Effect pfx e (r.issue pfx e o).etcd (issued pfx e r o) := by
  cases o with
  | ok => exact request_effect r
  | late => exact .quiet
  | failed applied =>
    cases applied with
    | true => exact request_effect r
    | false => exact .quiet

theorem called_effect (c : Coordinator) (o : Outcome) :
    Effect cfg.pfx e (c.issue cfg e o).etcd (called cfg c e o) := by
  unfold Coordinator.issue called
  cases hpc : c.pc with
  | granting =>
    simp only [Coordinator.request, hpc]
    by_cases takes : o = .ok ∨ o = .failed true
    · rw [if_pos takes]
      exact .granted
    · rw [if_neg takes]
      exact .quiet
  | revoking l =>
    by_cases takes : o = .ok ∨ o = .failed true
    · simp only [if_pos takes]
      exact ended_effect l
    · simp only [if_neg takes]
      exact .quiet
  | _ =>
    cases c.request with
    | none => exact .quiet
    | some r => exact issued_effect r o

theorem exec_effect {σ σ' : Cluster} {a : Action} (step : exec cfg σ a = some σ') :
    Effect cfg.pfx σ.etcd σ'.etcd (events cfg σ a) := by
  cases exec_step step with
  | call hp =>
    simp only [events, hp, Option.elim_some]
    exact called_effect _ _
  | deliver hk =>
    simp only [events, hk, Option.elim_some]
    exact request_effect _
  | expire => exact ended_effect _
  | revoked hp =>
    simp only [events, hp, Option.elim_some]
    exact ended_effect _
  | request => exact issued_effect _ _
  | _ => exact .quiet

/-! ## The store holds what the log says -/

theorem alive_wrote {k : Str} {kv : Option KeyValue} (h : e.Wrote e' k kv) :
    alive e' = alive e := by
  funext l
  rw [alive, alive, h.leases]

theorem alive_grant {l : Nat} (h : l < e.nextLease) : alive e.grant.1 l = alive e l := by
  simp only [alive, Store.grant, List.mem_cons]
  have : l ≠ e.nextLease := by omega
  simp [this]

theorem alive_revoke {l l' : Nat} (live : l ∈ e.leases) :
    alive (e.revoke l) l' = (alive e l' && l' != l) := by
  simp only [alive, Store.mem_leases_revoke]
  by_cases none : l' = 0
  · simp [none, (Store.ne_zero_of_live live).symm]
  · simp [none, bne, beq_eq_decide]

theorem alive_lt {l : Nat} (live : alive e l = true) : l < e.nextLease := by
  cases of_decide_eq_true live with
  | inl zero => exact zero ▸ e.positive
  | inr granted => exact (e.granted l granted).2

/-- A shard's key carries what the table has for it, and a member key the lease
of its latest registration as long as that lives. Node ids register only under
leases granted before. -/
structure Refines (pfx : Str) (e : Store) (log : List Event) : Prop where
  shards : ∀ s, (e.get (shardKey pfx s)).map ownerInfo = (shard s).value log
  members : ∀ id, (e.get (memberKey pfx id)).map KeyValue.lease =
    ((registration id).value log).filter (alive e)
  granted : ∀ id l, (registration id).value log = some l → l < e.nextLease

variable {log new : List Event}

theorem shards_step (refines : Refines pfx e log) (effect : Effect pfx e e' new) (s : Nat) :
    (e'.get (shardKey pfx s)).map ownerInfo = (shard s).value (log ++ new) := by
  have old := refines.shards s
  cases effect with
  | quiet => rwa [List.append_nil]
  | granted => rwa [List.append_nil, Store.get_grant]
  | @ended l live =>
    rw [Cell.value_concat, ← old, e.get_revoke l _ (Store.ne_zero_of_live live),
      Cell.step_unset rfl, Option.filter_map]
    rfl
  | @owns k kv _ read wrote =>
    rw [Cell.value_concat, ← old]
    by_cases same : k.shard = s
    · subst same
      rw [wrote.get_self, Option.map_some, read, Cell.step_set]
      simp [shard]
    · rw [wrote.get_ne (by simpa using Ne.symm same), Cell.step_silent]
      · simp [shard, same]
      · simp [shard]
  | @released s' kv _ own wrote =>
    rw [Cell.value_concat, ← old]
    by_cases same : s' = s
    · subst same
      rw [wrote.get_self, own, Cell.step_unset rfl]
      simp [shard, ownerInfo, Option.filter_some]
    · rw [wrote.get_ne (by simpa using Ne.symm same), Cell.step_silent rfl]
      simp [shard, same]
  | @spared s' nodeID other =>
    rw [Cell.value_concat, ← old, Cell.step_silent rfl]
    intro i held
    -- The release of a node that does not own the shard clears nothing.
    obtain ⟨kv, stored, rfl⟩ := Option.mem_map.mp held
    simp only [shard, decide_eq_false_iff_not]
    rintro ⟨rfl, mine⟩
    exact other kv stored mine.symm
  | @registered nodeID kv _ live wrote =>
    rw [Cell.value_concat, ← old, wrote.get_ne (memberKey_ne_shardKey pfx nodeID s),
      Cell.step_silent rfl]
    simp [shard]

theorem registration_step {id : Str} {ev : Event} (other : ∀ l, ev ≠ .registered id l) :
    (registration id).value (log ++ [ev]) = (registration id).value log := by
  rw [Cell.value_concat, Cell.step_silent _ fun _ _ => rfl]
  cases ev with
  | registered id' l =>
    have : id' ≠ id := by
      rintro rfl
      exact other l rfl
    simp [registration, this]
  | _ => rfl

theorem registration_registered (id : Str) (l : Nat) :
    (registration id).value (log ++ [.registered id l]) = some l := by
  rw [Cell.value_concat, Cell.step_set]
  simp [registration]

theorem members_step (refines : Refines pfx e log) (effect : Effect pfx e e' new) (id : Str) :
    (e'.get (memberKey pfx id)).map KeyValue.lease =
      ((registration id).value (log ++ new)).filter (alive e') := by
  have old := refines.members id
  cases effect with
  | quiet => rwa [List.append_nil]
  | granted =>
    -- The new lease has an id that nobody registered under, so it brings no member back.
    rw [List.append_nil, Store.get_grant, old]
    cases latest : (registration id).value log with
    | none => rfl
    | some l =>
      rw [Option.filter_some, Option.filter_some, alive_grant (refines.granted id l latest)]
  | @ended l live =>
    have survives : alive (e.revoke l) = fun l' => alive e l' && l' != l :=
      funext fun _ => alive_revoke live
    rw [registration_step (by simp), e.get_revoke l _ (Store.ne_zero_of_live live), survives,
      ← Option.filter_filter, ← old, Option.filter_map]
    rfl
  | @owns k kv _ read wrote =>
    rw [registration_step (by simp), wrote.get_ne (memberKey_ne_shardKey pfx id _).symm, old,
      alive_wrote wrote]
  | @released s' kv _ own wrote =>
    rw [registration_step (by simp), wrote.get_ne (memberKey_ne_shardKey pfx id _).symm, old,
      alive_wrote wrote]
  | @spared s' nodeID other => rw [registration_step (by simp), old]
  | @registered nodeID kv _ live wrote =>
    rw [alive_wrote wrote]
    by_cases same : nodeID = id
    · subst same
      rw [wrote.get_self, registration_registered, Option.map_some, Option.filter_some, if_pos live]
    · rw [wrote.get_ne (by simpa using Ne.symm same), old, registration_step (by simp [same])]

theorem granted_step (refines : Refines pfx e log) (effect : Effect pfx e e' new) {id : Str}
    {l : Nat} (latest : (registration id).value (log ++ new) = some l) : l < e'.nextLease := by
  cases effect with
  | quiet => exact refines.granted id l (by rwa [List.append_nil] at latest)
  | granted =>
    rw [List.append_nil] at latest
    exact Nat.lt_succ_of_lt (refines.granted id l latest)
  | ended =>
    rw [registration_step (by simp)] at latest
    rw [Store.nextLease_revoke]
    exact refines.granted id l latest
  | owns _ wrote | released _ wrote =>
    rw [registration_step (by simp)] at latest
    exact wrote.nextLease ▸ refines.granted id l latest
  | spared => exact refines.granted id l (by rwa [registration_step (by simp)] at latest)
  | @registered nodeID kv _ live wrote =>
    rw [wrote.nextLease]
    by_cases same : nodeID = id
    · subst same
      rw [registration_registered, Option.some.injEq] at latest
      exact latest ▸ alive_lt live
    · exact refines.granted id l (by rwa [registration_step (by simp [same])] at latest)

theorem effect_refines (refines : Refines pfx e log) (effect : Effect pfx e e' new) :
    Refines pfx e' (log ++ new) :=
  ⟨shards_step refines effect, members_step refines effect, fun _ _ => granted_step refines effect⟩

end

/-- Any steps of any nodes and clients, in any order. -/
abbrev Runs (cfg : Config) : Logged → Logged → Prop := Next (Logged.exec cfg) fun _ _ => True

section
variable {cfg : Config} {τ : Logged}

theorem logged_exec {τ' : Logged} {a : Action} (step : τ.exec cfg a = some τ') :
    exec cfg τ.cluster a = some τ'.cluster ∧ τ'.log = τ.log ++ events cfg τ.cluster a := by
  obtain ⟨σ, stepped, rfl⟩ := Option.map_eq_some_iff.mp step
  exact ⟨stepped, rfl⟩

theorem reachable_refines (h : Reachable (Start cfg) (Runs cfg) τ) :
    Refines cfg.pfx τ.cluster.etcd τ.log := by
  induction h with
  | start start =>
    rw [start.log]
    have unowned s := start.cluster.unowned _ (shardBase_isPrefix cfg.pfx s)
    have absent id := start.members (memberKey cfg.pfx id) (List.prefix_append ..)
    exact ⟨fun s => by rw [unowned]; rfl, fun id => by rw [absent]; rfl, by simp⟩
  | step _ next refines =>
    obtain ⟨a, _, step⟩ := next
    obtain ⟨step, log⟩ := logged_exec step
    rw [log]
    exact effect_refines refines (exec_effect step)

/-- The log watches a run and does not change it. -/
theorem reachable_cluster (h : Reachable (Start cfg) (Runs cfg) τ) :
    Reachable (Initial cfg) (Any cfg) τ.cluster := by
  induction h with
  | start start => exact .start start.cluster
  | step _ next reached =>
    obtain ⟨a, _, step⟩ := next
    exact .step reached ⟨a, trivial, (logged_exec step).1⟩

/-! ## The readers -/

/-- The three readers of a shard agree, whatever the prefix. -/
theorem owned_read (h : Reachable (Start cfg) (Runs cfg) τ) {s : Nat} (small : s < shardCount)
    {i : OwnerInfo} (stands : (shard s).Stands τ.log i) :
    loadOwnershipMap cfg.pfx τ.cluster.etcd s = i ∧
      loadShardMap cfg.pfx τ.cluster.etcd s = i.owner ∧
      shardOwner cfg.pfx τ.cluster.etcd s = some i.owner := by
  have layout := reachable_layout (reachable_cluster h)
  have held := (reachable_refines h).shards s
  rw [Cell.value_eq_some_iff.mpr stands, Option.map_eq_some_iff] at held
  obtain ⟨kv, stored, rfl⟩ := held
  rw [loadOwnershipMap_eq layout small, loadShardMap_eq layout small, shardOwner, stored]
  exact ⟨rfl, rfl, rfl⟩

theorem unowned_iff (h : Reachable (Start cfg) (Runs cfg) τ) (s : Nat) :
    τ.cluster.etcd.get (shardKey cfg.pfx s) = none ↔ ∀ i, ¬ (shard s).Stands τ.log i := by
  rw [← Cell.value_eq_none_iff, ← (reachable_refines h).shards s, Option.map_eq_none_iff]

theorem unowned_read (h : Reachable (Start cfg) (Runs cfg) τ) {s : Nat} (small : s < shardCount)
    (unowned : ∀ i, ¬ (shard s).Stands τ.log i) :
    loadOwnershipMap cfg.pfx τ.cluster.etcd s = .zero ∧
      loadShardMap cfg.pfx τ.cluster.etcd s = [] ∧
      shardOwner cfg.pfx τ.cluster.etcd s = none := by
  have layout := reachable_layout (reachable_cluster h)
  rw [loadOwnershipMap_eq layout small, loadShardMap_eq layout small, shardOwner,
    (unowned_iff h s).mpr unowned]
  exact ⟨rfl, rfl, rfl⟩

theorem claimed_iff (h : Reachable (Start cfg) (Runs cfg) τ) (s : Nat) (nodeID : Str) (l : Nat) :
    (∃ term, (claimShard cfg.pfx τ.cluster.etcd s nodeID l).2 = .ok (true, term)) ↔
      (∀ i, ¬ (shard s).Stands τ.log i) ∧ alive τ.cluster.etcd l = true := by
  rw [claimShard_ok_iff, unowned_iff h, alive, decide_eq_true_iff]

theorem listed_iff (h : Reachable (Start cfg) (Runs cfg) τ) (id : Str) :
    id ∈ listMembers cfg.pfx τ.cluster.etcd ↔
      ∃ l, (registration id).Stands τ.log l ∧ alive τ.cluster.etcd l = true := by
  have held := (reachable_refines h).members id
  rw [mem_listMembers, ← Option.isSome_iff_exists, ← Option.isSome_map, held,
    Option.isSome_iff_exists]
  simp only [Option.filter_eq_some_iff, Cell.value_eq_some_iff]

/-- After any run the keys in etcd read as the table that the calls and the ends
of leases leave, and the next claim is decided by that table. -/
theorem store_refines_table (h : Reachable (Start cfg) (Runs cfg) τ) :
    (∀ s < shardCount,
      (∀ i, (shard s).Stands τ.log i →
        loadOwnershipMap cfg.pfx τ.cluster.etcd s = i ∧
        loadShardMap cfg.pfx τ.cluster.etcd s = i.owner ∧
        shardOwner cfg.pfx τ.cluster.etcd s = some i.owner) ∧
      ((∀ i, ¬ (shard s).Stands τ.log i) →
        loadOwnershipMap cfg.pfx τ.cluster.etcd s = .zero ∧
        loadShardMap cfg.pfx τ.cluster.etcd s = [] ∧
        shardOwner cfg.pfx τ.cluster.etcd s = none) ∧
      ∀ nodeID l,
        (∃ term, (claimShard cfg.pfx τ.cluster.etcd s nodeID l).2 = .ok (true, term)) ↔
          (∀ i, ¬ (shard s).Stands τ.log i) ∧ alive τ.cluster.etcd l = true) ∧
    (listMembers cfg.pfx τ.cluster.etcd).Nodup ∧
    ∀ id, id ∈ listMembers cfg.pfx τ.cluster.etcd ↔
      ∃ l, (registration id).Stands τ.log l ∧ alive τ.cluster.etcd l = true := by
  refine ⟨?_, listMembers_nodup _ _, listed_iff h⟩
  intro s small
  exact ⟨fun _ => owned_read h small, unowned_read h small, claimed_iff h s⟩

end

theorem sample_logged {as : List Action} {τ : Logged}
    (h : execute (Logged.exec sample) (fun _ _ => true) ⟨sampleStart, []⟩ as = some τ) :
    Reachable (Start sample) (Runs sample) τ := by
  have start : Start sample ⟨sampleStart, []⟩ :=
    ⟨sampleStart_initial, fun _ _ => Std.ExtTreeMap.getElem?_empty, rfl⟩
  exact (reachable_of_execute h).mono (fun _ e => e ▸ start) fun _ _ _ => trivial

/-- A second incarnation of `x/y` joins and rebinds shard 3 to its own lease. The
end of the first lease then takes neither the shard nor the member away. -/
theorem store_refines_table_rejoined : ∃ τ, Reachable (Start sample) (Runs sample) τ ∧
    loadOwnershipMap sample.pfx τ.cluster.etcd 3 = ⟨str "x/y", 5, 2⟩ ∧
    str "x/y" ∈ listMembers sample.pfx τ.cluster.etcd := by
  have run : (execute (Logged.exec sample) (fun _ _ => true) ⟨sampleStart, []⟩
      (sampleJoin 0 "x/y" ++ [.request (.claim 3 (str "x/y") 1) .ok] ++ sampleJoin 1 "x/y" ++
        [.request (.rebind 3 (str "x/y") 2) .ok, .expire 1])).any (fun τ =>
      (shard 3).value τ.log = some ⟨str "x/y", 5, 2⟩ ∧
      (registration (str "x/y")).value τ.log = some 2 ∧ alive τ.cluster.etcd 2 = true) = true := by
    decide +kernel
  obtain ⟨τ, run, facts⟩ := (Option.any_eq_true _ _).mp run
  obtain ⟨owned, latest, live⟩ := of_decide_eq_true facts
  obtain ⟨shards, -, listed⟩ := store_refines_table (sample_logged run)
  exact ⟨τ, sample_logged run,
    ((shards 3 (by decide)).1 _ (Cell.value_eq_some_iff.mp owned)).1,
    (listed _).mpr ⟨2, Cell.value_eq_some_iff.mp latest, live⟩⟩

/-- A node that claims under a lease which has ended is refused, although nobody
owns the shard. -/
theorem unowned_claim_refused : ∃ τ, Reachable (Start sample) (Runs sample) τ ∧
    (∀ i, ¬ (shard 0).Stands τ.log i) ∧
    (claimShard sample.pfx τ.cluster.etcd 0 (str "a") 1).2 = .error .leaseNotFound := by
  have run : (execute (Logged.exec sample) (fun _ _ => true) ⟨sampleStart, []⟩
      (sampleJoin 0 "a" ++ [.expire 1])).any (fun τ =>
      (shard 0).value τ.log = none ∧
      (claimShard sample.pfx τ.cluster.etcd 0 (str "a") 1).2 = .error .leaseNotFound) = true := by
    decide +kernel
  obtain ⟨τ, run, facts⟩ := (Option.any_eq_true _ _).mp run
  obtain ⟨unowned, refused⟩ := of_decide_eq_true facts
  exact ⟨τ, sample_logged run, Cell.value_eq_none_iff.mp unowned, refused⟩

end MilvusCatalog.Table

import MilvusCatalog.Membership

/-! One catalog node: `routing/coordinator.go`. A node is a program counter over
`Start`, the loop and `reconcileOnce`, and takes one etcd call or one locked
section at a time, so that any interleaving of nodes is a list of such steps. -/
namespace MilvusCatalog
open Go Etcd

/-- What all nodes share: the key prefix and the hash. -/
structure Config where
  pfx : Str
  xxhash : Str → UInt64

def Config.shardOf (cfg : Config) (ns : Str) : Nat := MilvusCatalog.shardOf cfg.xxhash ns

def Config.rendezvous (cfg : Config) (shard : Nat) (members : List Str) : Str :=
  MilvusCatalog.rendezvous (weight cfg.xxhash) shard members

/-! ## Requests -/

/-- A successful claim or rebind, in the order etcd commits them. -/
structure Commit where
  shard : Nat
  owner : Str
  lease : Nat
  term : Nat
  deriving DecidableEq, Repr

/-- The writes nodes send. `seen` is not sent: it records under which term the
round that issues a release had loaded the shard. -/
inductive Request
  | claim (shard : Nat) (nodeID : Str) (lease : Nat)
  | rebind (shard : Nat) (nodeID : Str) (lease : Nat)
  | release (shard : Nat) (nodeID : Str) (seen : Nat)
  | register (nodeID : Str) (lease : Nat)
  deriving DecidableEq, Repr

def Request.nodeID : Request → Str
  | .claim _ nodeID _ | .rebind _ nodeID _ | .release _ nodeID _ | .register nodeID _ => nodeID

/-- How a call ends: with the server's answer, with an error after or without
taking effect, or with an error while the request is still under way. -/
inductive Outcome
  | ok
  | failed (applied : Bool)
  | late
  deriving DecidableEq, Repr

def committed (shard : Nat) (owner : Str) (lease : Nat) :
    Except EtcdError (Bool × Nat) → List Commit
  | .ok (true, term) => [⟨shard, owner, lease, term⟩]
  | _ => []

/-- etcd applies a request. -/
def Request.apply (pfx : Str) (e : Store) : Request → Store × List Commit
  | .claim s nodeID l =>
    let r := claimShard pfx e s nodeID l
    (r.1, committed s nodeID l r.2)
  | .rebind s nodeID l =>
    let r := rebindShard pfx e s nodeID l
    (r.1, committed s nodeID l r.2)
  | .release s nodeID _ => (releaseShard pfx e s nodeID, [])
  | .register nodeID l => ((MilvusCatalog.register pfx e nodeID l).getD e, [])

/-- What a step leaves in etcd, what it committed and what is still in flight. -/
structure Issued where
  etcd : Store
  commits : List Commit
  sent : List Request

/-- A step that writes nothing. -/
def Issued.quiet (e : Store) : Issued := ⟨e, [], []⟩

def Request.issue (pfx : Str) (e : Store) (r : Request) : Outcome → Issued
  | .ok | .failed true => ⟨(r.apply pfx e).1, (r.apply pfx e).2, []⟩
  | .failed false => .quiet e
  | .late => ⟨e, [], [r]⟩

/-- Only a call that ends before its request leaves it in flight. -/
theorem Request.issue_sent {pfx : Str} {e : Store} {r r' : Request} {o : Outcome}
    (h : r ∈ (r'.issue pfx e o).sent) : o = .late ∧ r = r' := by
  cases o with
  | late => exact ⟨rfl, List.mem_singleton.mp h⟩
  | ok => cases h
  | failed applied => cases applied <;> cases h

/-- Everything etcd can do with a request, with the guard it checked. -/
inductive Applied (pfx : Str) (e : Store) : Request → Store → List Commit → Prop
  | refused (r : Request) : Applied pfx e r e []
  | claim {s : Nat} {nodeID : Str} {l : Nat} {e' : Store}
      (absent : e.get (shardKey pfx s) = none) (live : l = 0 ∨ l ∈ e.leases)
      (wrote : e.Wrote e' (shardKey pfx s) (some ⟨nodeID, e.revision + 1, e.revision + 1, l⟩)) :
      Applied pfx e (.claim s nodeID l) e' [⟨s, nodeID, l, e.revision + 1⟩]
  | rebind {s : Nat} {nodeID : Str} {l : Nat} {e' : Store} {kv : KeyValue}
      (own : e.get (shardKey pfx s) = some kv) (value : kv.value = nodeID)
      (live : l = 0 ∨ l ∈ e.leases)
      (wrote : e.Wrote e' (shardKey pfx s) (some ⟨nodeID, kv.createRevision, e.revision + 1, l⟩)) :
      Applied pfx e (.rebind s nodeID l) e' [⟨s, nodeID, l, e.revision + 1⟩]
  | release {s : Nat} {nodeID : Str} {seen : Nat} {e' : Store} {kv : KeyValue}
      (own : e.get (shardKey pfx s) = some kv) (value : kv.value = nodeID)
      (wrote : e.Wrote e' (shardKey pfx s) none) :
      Applied pfx e (.release s nodeID seen) e' []
  | register {nodeID : Str} {l : Nat} {e' : Store} {kv : KeyValue}
      (wrote : e.Wrote e' (memberKey pfx nodeID) (some kv)) :
      Applied pfx e (.register nodeID l) e' []

theorem committed_eq_nil {s : Nat} {owner : Str} {l : Nat} {r : Except EtcdError (Bool × Nat)}
    (h : ∀ t, r ≠ .ok (true, t)) : committed s owner l r = [] := by
  unfold committed
  split
  · next t => exact absurd rfl (h t)
  · rfl

theorem Request.applied (pfx : Str) (e : Store) (r : Request) :
    Applied pfx e r (r.apply pfx e).1 (r.apply pfx e).2 := by
  cases r with
  | claim s nodeID l =>
    simp only [apply]
    rcases claimShard_cases pfx e s nodeID l with ⟨absent, live, ok, wrote⟩ | ⟨same, failed⟩
    · rw [ok]; exact .claim absent live wrote
    · rw [same, committed_eq_nil failed]; exact .refused _
  | rebind s nodeID l =>
    simp only [apply]
    rcases rebindShard_cases pfx e s nodeID l with ⟨kv, own, value, live, ok, wrote⟩ |
      ⟨same, failed⟩
    · rw [ok]; exact .rebind own value live wrote
    · rw [same, committed_eq_nil failed]; exact .refused _
  | release s nodeID seen =>
    simp only [apply]
    rcases releaseShard_cases pfx e s nodeID with ⟨kv, own, value, wrote⟩ | ⟨same, -⟩
    · exact .release own value wrote
    · rw [same]; exact .refused _
  | register nodeID l =>
    simp only [apply]
    cases h : MilvusCatalog.register pfx e nodeID l with
    | none => exact .refused _
    | some e' => exact .register (Store.put_wrote h).2

theorem Request.issued (pfx : Str) (e : Store) (r : Request) (o : Outcome) :
    Applied pfx e r (r.issue pfx e o).etcd (r.issue pfx e o).commits := by
  cases o with
  | ok => exact r.applied pfx e
  | failed applied => cases applied with
    | false => exact .refused _
    | true => exact r.applied pfx e
  | late => exact .refused _

/-- Everything a step can do to the store. -/
inductive Moved (pfx : Str) (e : Store) : Store → List Commit → Prop
  | same : Moved pfx e e []
  | grant : Moved pfx e e.grant.1 []
  | revoke (l : Nat) : Moved pfx e (e.revoke l) []
  | applied {r : Request} {e' : Store} {cs : List Commit} :
      Applied pfx e r e' cs → Moved pfx e e' cs

theorem Applied.leases {pfx : Str} {e e' : Store} {r : Request} {cs : List Commit}
    (ha : Applied pfx e r e' cs) : e'.leases = e.leases ∧ e'.nextLease = e.nextLease := by
  cases ha with
  | refused => exact ⟨rfl, rfl⟩
  | claim _ _ wrote | rebind _ _ _ wrote | release _ _ wrote | register wrote =>
    exact ⟨wrote.leases, wrote.nextLease⟩

theorem Applied.commits {pfx : Str} {e e' : Store} {r : Request} {cs : List Commit}
    (ha : Applied pfx e r e' cs) {k : Commit} (hk : k ∈ cs) :
    r = .claim k.shard k.owner k.lease ∨ r = .rebind k.shard k.owner k.lease := by
  cases ha with
  | refused | release | register => cases hk
  | claim =>
    rw [List.mem_singleton] at hk
    exact .inl (hk ▸ rfl)
  | rebind =>
    rw [List.mem_singleton] at hk
    exact .inr (hk ▸ rfl)

theorem Moved.nextLease_le {pfx : Str} {e e' : Store} {cs : List Commit}
    (moved : Moved pfx e e' cs) : e.nextLease ≤ e'.nextLease := by
  cases moved with
  | same => exact Nat.le_refl _
  | grant => exact Nat.le_succ _
  | revoke l => exact Nat.le_of_eq (e.nextLease_revoke l).symm
  | applied ha => exact Nat.le_of_eq ha.leases.2.symm

/-- Every record of a step's end was there before it or is one of its commits. -/
theorem Moved.record {pfx : Str} {e e' : Store} {cs : List Commit} (moved : Moved pfx e e' cs)
    {s : Nat} {kv : KeyValue} (hk : e'.get (shardKey pfx s) = some kv) :
    e.get (shardKey pfx s) = some kv ∨ ⟨s, kv.value, kv.lease, kv.modRevision⟩ ∈ cs := by
  have write {s' : Nat} {kv' : Option KeyValue} (wrote : e.Wrote e' (shardKey pfx s') kv') :
      e.get (shardKey pfx s) = some kv ∨ s = s' ∧ kv' = some kv := by
    rw [wrote.get] at hk
    split at hk
    · next es => exact .inr ⟨by simpa using es, hk⟩
    · exact .inl hk
  cases moved with
  | same | grant => exact .inl hk
  | revoke l => exact .inl (Store.get_of_revoke hk)
  | applied ha =>
    cases ha with
    | refused => exact .inl hk
    | claim _ _ wrote | rebind _ _ _ wrote =>
      obtain old | ⟨rfl, new⟩ := write wrote
      · exact .inl old
      · obtain rfl := Option.some.inj new
        exact .inr (List.mem_singleton.mpr rfl)
    | release _ _ wrote =>
      obtain old | ⟨-, new⟩ := write wrote
      · exact .inl old
      · cases new
    | @register nodeID _ _ _ wrote =>
      rw [wrote.get_ne (memberKey_ne_shardKey pfx nodeID s)] at hk
      exact .inl hk

/-- What a commit leaves in the store. -/
theorem Moved.commit {pfx : Str} {e e' : Store} {cs : List Commit} (moved : Moved pfx e e' cs)
    {k : Commit} (hk : k ∈ cs) : k.term = e.revision + 1 ∧ e'.revision = e.revision + 1 ∧
      (e'.get (shardKey pfx k.shard)).map ownerInfo = some ⟨k.owner, k.term, k.lease⟩ := by
  cases moved with
  | same | grant | revoke => cases hk
  | applied ha =>
    cases ha with
    | refused | release | register => cases hk
    | claim _ _ wrote | rebind _ _ _ wrote =>
      rw [List.mem_singleton] at hk
      subst hk
      exact ⟨rfl, wrote.revision, by rw [wrote.get_self]; rfl⟩

theorem Moved.pairwise {pfx : Str} {e e' : Store} {cs : List Commit} (moved : Moved pfx e e' cs)
    {rel : Commit → Commit → Prop} : cs.Pairwise rel := by
  cases moved with
  | same | grant | revoke => exact .nil
  | applied ha =>
    cases ha with
    | refused | release | register => exact .nil
    | claim | rebind => exact List.pairwise_singleton rel _

theorem Moved.revision_le {pfx : Str} {e e' : Store} {cs : List Commit}
    (moved : Moved pfx e e' cs) : e.revision ≤ e'.revision := by
  cases moved with
  | same | grant => exact Nat.le_refl _
  | revoke l => exact e.revision_revoke_le l
  | applied ha =>
    cases ha with
    | refused => exact Nat.le_refl _
    | claim _ _ wrote | rebind _ _ _ wrote | release _ _ wrote | register wrote =>
      exact wrote.revision ▸ Nat.le_succ _

/-- The record a request may replace or delete. -/
def Request.rewrites : Request → Option (Nat × Str)
  | .rebind s nodeID _ | .release s nodeID _ => some (s, nodeID)
  | _ => none

/-- A request spares every record that it is not aimed at. -/
theorem Applied.kept {pfx : Str} {e e' : Store} {r : Request} {cs : List Commit}
    (ha : Applied pfx e r e' cs) {s : Nat} {kv : KeyValue} (hk : e.get (shardKey pfx s) = some kv)
    (spared : r.rewrites ≠ some (s, kv.value)) : e'.get (shardKey pfx s) = some kv := by
  have ne {s' : Nat} {kv' : Option KeyValue} (wrote : e.Wrote e' (shardKey pfx s') kv')
      (h : s ≠ s') : e'.get (shardKey pfx s) = some kv := by
    rw [wrote.get_ne (by simpa using h), hk]
  cases ha with
  | refused => exact hk
  | claim absent live wrote =>
    refine ne wrote fun es => ?_
    rw [← es, hk] at absent
    cases absent
  | rebind own value live wrote | release own value wrote =>
    refine ne wrote fun es => ?_
    rw [← es, hk, Option.some.injEq] at own
    rw [← es, ← value, ← own] at spared
    exact spared rfl
  | @register nodeID _ _ _ wrote => rw [wrote.get_ne (memberKey_ne_shardKey pfx nodeID s), hk]

theorem layout_wrote {pfx : Str} {e e' : Store} {k : Str} {kv : Option KeyValue}
    (h : Layout pfx e) (wrote : e.Wrote e' k kv)
    (key : shardBase pfx <+: k → ∃ s, k = shardKey pfx s) : Layout pfx e' := by
  intro k' kv' hk' hp
  by_cases e : k' = k
  · subst e; exact key hp
  · rw [wrote.get_ne e] at hk'
    exact h k' kv' hk' hp

/-- No step puts a key into the ownership directory that a load would misread. -/
theorem moved_layout {pfx : Str} {e e' : Store} {cs : List Commit} (h : Layout pfx e)
    (moved : Moved pfx e e' cs) : Layout pfx e' := by
  cases moved with
  | same | grant => exact h
  | revoke l => exact fun k kv hk hp => h k kv (Store.get_of_revoke hk) hp
  | applied ha =>
    cases ha with
    | refused => exact h
    | @claim s _ _ _ _ _ wrote => exact layout_wrote h wrote fun _ => ⟨s, rfl⟩
    | @rebind s _ _ _ _ _ _ _ wrote => exact layout_wrote h wrote fun _ => ⟨s, rfl⟩
    | @release s _ _ _ _ _ _ wrote => exact layout_wrote h wrote fun _ => ⟨s, rfl⟩
    | @register nodeID _ _ _ wrote =>
      exact layout_wrote h wrote fun hp => absurd hp (memberKey_not_owned pfx nodeID)

/-! ## The node -/

/-- Where a node stands. The lists hold the shards a loop has still to visit. -/
inductive Pc
  | granting
  | putting (lease : Nat)
  | keepingAlive (lease : Nat)
  | revoking (lease : Nat)
  | stopped
  | idle
  | listMembers
  | loadShardMap
  | claiming (todo : List Nat)
  | marking (todo : List Nat)
  | releasing (todo : List Nat)
  | loadOwnershipMap
  | rebinding (todo : List Nat)
  | installing
  deriving DecidableEq, Repr

/-- `Start` has not returned yet. -/
def Pc.joining : Pc → Prop
  | .granting | .putting _ | .keepingAlive _ | .revoking _ => True
  | _ => False

/-- The loop runs. -/
def Pc.running : Pc → Prop
  | .granting | .putting _ | .keepingAlive _ | .revoking _ | .stopped => False
  | _ => True

/-- Between the load of the ownership map and its install. -/
def Pc.loaded : Pc → Prop
  | .rebinding _ | .installing => True
  | _ => False

/-- The local variables of a round. `seen` and `loadedAt` are bookkeeping of the
model: the terms behind the loaded shard map, and the store revision at which
the ownership map was loaded. -/
structure Round where
  members : List Str
  release : List Nat
  om : Nat → OwnerInfo
  seen : Nat → Nat
  loadedAt : Nat

def Round.empty : Round := ⟨[], [], fun _ => .zero, fun _ => 0, 0⟩

structure Coordinator where
  nodeID : Str
  ttl : Int
  membership : Membership
  owned : Nat → Option Nat
  releasing : Nat → Bool
  cancelled : Bool
  pc : Pc
  round : Round

/-- `NewCoordinator`, with `Start` about to be called. -/
def newCoordinator (nodeID : Str) (ttlSeconds : Int) : Coordinator where
  nodeID := nodeID
  ttl := ttlSeconds
  membership := .absent
  owned := fun _ => none
  releasing := fun _ => false
  cancelled := false
  pc := .granting
  round := .empty

namespace Coordinator

/-- Half the TTL, in nanoseconds. -/
def leaseWindow (c : Coordinator) : Int := (c.ttl * 1000000000).tdiv 2

def leaseID (c : Coordinator) : Nat := c.membership.leaseID

def fresh (c : Coordinator) (now : Nat) : Bool := c.membership.fresh now c.leaseWindow

/-- The gate on a shard, before freshness. -/
def serves (c : Coordinator) (shard : Nat) : Bool := (c.owned shard).isSome && !c.releasing shard

def isServable (cfg : Config) (c : Coordinator) (now : Nat) (ns : Str) : Bool :=
  c.serves (cfg.shardOf ns) && c.fresh now

/-- Zero when the shard is not owned. -/
def ownerTerm (c : Coordinator) (shard : Nat) : Nat := (c.owned shard).getD 0

def shardTerm (cfg : Config) (c : Coordinator) (ns : Str) : Nat := c.ownerTerm (cfg.shardOf ns)

/-- In ascending order, where `range` over the map has no order. -/
def ownedShards (c : Coordinator) : List Nat :=
  (List.range shardCount).filter fun s => (c.owned s).isSome

def markReleasing (c : Coordinator) (shard : Nat) : Coordinator :=
  { c with releasing := Function.update c.releasing shard true }

/-- The shards of the loaded map whose key rides another lease than the
current one, less those being released. -/
def toRebind (c : Coordinator) (om : Nat → OwnerInfo) : List Nat :=
  (List.range shardCount).filter fun s =>
    (om s).owner = c.nodeID ∧ (om s).lease ≠ c.leaseID ∧ s ∉ c.round.release

/-- The owned map a round builds from what it loaded. -/
def loadedOwned (c : Coordinator) (s : Nat) : Option Nat :=
  if s < shardCount ∧ (c.round.om s).owner = c.nodeID then some (c.round.om s).term else none

/-- The marks a round keeps: shards it tried to release and still owns. -/
def loadedReleasing (c : Coordinator) (s : Nat) : Bool :=
  decide (s ∈ c.round.release) && (c.loadedOwned s).isSome

/-- The locked section that ends a round. -/
def install (c : Coordinator) : Coordinator :=
  { c with owned := c.loadedOwned, releasing := c.loadedReleasing, pc := .idle }

/-- Behind the gate after the install: loaded as the node's, and not up for release. -/
theorem install_serves (c : Coordinator) (s : Nat) : c.install.serves s = true ↔
    s < shardCount ∧ (c.round.om s).owner = c.nodeID ∧ s ∉ c.round.release := by
  simp only [serves, install, loadedReleasing, loadedOwned]
  by_cases hs : s < shardCount ∧ (c.round.om s).owner = c.nodeID
  · simp [hs]
  · simp [hs]
    tauto

/-- The write a node issues where it stands. -/
def request (c : Coordinator) : Option Request :=
  match c.pc with
  | .putting l => some (.register c.nodeID l)
  | .claiming (s :: _) => some (.claim s c.nodeID c.leaseID)
  | .releasing (s :: _) => some (.release s c.nodeID (c.round.seen s))
  | .rebinding (s :: _) => some (.rebind s c.nodeID c.leaseID)
  | _ => none

/-- What a step does to etcd: `Start` grants and on failure revokes the lease,
every other write is a request. -/
def issue (cfg : Config) (c : Coordinator) (e : Store) (o : Outcome) : Issued :=
  match c.pc with
  | .granting => if o = .ok ∨ o = .failed true then .quiet e.grant.1 else .quiet e
  | .revoking l => if o = .ok ∨ o = .failed true then .quiet (e.revoke l) else .quiet e
  | _ => match c.request with
    | some r => r.issue cfg.pfx e o
    | none => .quiet e

/-- What a step does to the node, on the store `e` it found. Failed reads end
the round; the results of claims, releases and rebinds are only logged. -/
def resume (cfg : Config) (c : Coordinator) (e : Store) (now : Nat) (o : Outcome) : Coordinator :=
  match c.pc with
  | .granting => { c with pc := if o = .ok then .putting e.grant.2 else .stopped }
  | .putting l =>
    { c with
      pc := if o = .ok ∧ (register cfg.pfx e c.nodeID l).isSome then .keepingAlive l
        else .revoking l }
  | .keepingAlive l =>
    if o = .ok then
      { c with membership := ⟨l, now, false, false, true⟩, pc := .listMembers }
    else { c with pc := .revoking l }
  | .revoking _ => { c with pc := .stopped }
  | .stopped => c
  | .idle => { c with pc := .listMembers }
  | .listMembers =>
    if o = .ok then
      { c with
        pc := .loadShardMap
        round := { Round.empty with members := MilvusCatalog.listMembers cfg.pfx e } }
    else { c with pc := .idle }
  | .loadShardMap =>
    if o = .ok then
      let shardMap := MilvusCatalog.loadShardMap cfg.pfx e
      let delta := reconcile (weight cfg.xxhash) c.nodeID c.round.members shardMap
      { c with
        pc := .claiming delta.1
        round :=
          { c.round with
            release := delta.2
            seen := fun s => (MilvusCatalog.loadOwnershipMap cfg.pfx e s).term } }
    else { c with pc := .idle }
  | .claiming [] => { c with pc := .marking c.round.release }
  | .claiming (_ :: todo) => { c with pc := .claiming todo }
  | .marking [] => { c with pc := .loadOwnershipMap }
  | .marking (s :: todo) => { c.markReleasing s with pc := .releasing (s :: todo) }
  | .releasing [] => { c with pc := .loadOwnershipMap }
  | .releasing (_ :: todo) => { c with pc := .marking todo }
  | .loadOwnershipMap =>
    if o = .ok then
      let om := MilvusCatalog.loadOwnershipMap cfg.pfx e
      { c with
        pc := .rebinding (c.toRebind om)
        round := { c.round with om := om, loadedAt := e.revision } }
    else { c with pc := .idle }
  | .rebinding [] => { c with pc := .installing }
  | .rebinding (_ :: todo) => { c with pc := .rebinding todo }
  | .installing => c.install

@[simp] theorem resume_nodeID (cfg : Config) (c : Coordinator) (e : Store) (now : Nat)
    (o : Outcome) : (c.resume cfg e now o).nodeID = c.nodeID := by
  unfold resume
  split <;> (try split) <;> rfl

@[simp] theorem resume_ttl (cfg : Config) (c : Coordinator) (e : Store) (now : Nat)
    (o : Outcome) : (c.resume cfg e now o).ttl = c.ttl := by
  unfold resume
  split <;> (try split) <;> rfl

/-- Only the end of `Start` replaces the membership. -/
theorem resume_membership {cfg : Config} {c : Coordinator} {e : Store} {now : Nat} {o : Outcome}
    (h : ∀ l, c.pc = .keepingAlive l → o ≠ .ok) :
    (c.resume cfg e now o).membership = c.membership := by
  unfold resume
  split <;> (try split) <;> simp_all [install, markReleasing]

/-- Only the locked section at the end of a round replaces the owned map. -/
theorem resume_owned (cfg : Config) (c : Coordinator) (e : Store) (now : Nat) (o : Outcome) :
    (c.resume cfg e now o).owned = if c.pc = .installing then c.loadedOwned else c.owned := by
  unfold resume
  split <;> (try split) <;> simp_all [install, markReleasing]

/-- The ownership map of a round is either the one it started with or one load. -/
theorem resume_om (cfg : Config) (c : Coordinator) (e : Store) (now : Nat) (o : Outcome) :
    (c.resume cfg e now o).round.om = c.round.om ∨
      (c.resume cfg e now o).round.om = (fun _ => .zero) ∨
      (c.resume cfg e now o).round.om = MilvusCatalog.loadOwnershipMap cfg.pfx e := by
  unfold resume
  split <;> (try split) <;> simp [install, markReleasing, Round.empty]

/-- The shards a node has still to release are those its round decided on. -/
theorem resume_due (cfg : Config) {c : Coordinator} (e : Store) (now : Nat) (o : Outcome)
    (h : ∀ todo, c.pc = .marking todo ∨ c.pc = .releasing todo → ∀ s ∈ todo, s ∈ c.round.release)
    (todo : List Nat) (hpc : (c.resume cfg e now o).pc = .marking todo ∨
      (c.resume cfg e now o).pc = .releasing todo) :
    ∀ s ∈ todo, s ∈ (c.resume cfg e now o).round.release := by
  unfold resume at hpc ⊢
  split at hpc <;> (try split at hpc) <;> simp_all [install, markReleasing]
  subst hpc
  simpa using h

/-- What a node's step can do to the store, with where the node stands. -/
theorem issue_cases (cfg : Config) (c : Coordinator) (e : Store) (o : Outcome) :
    ((c.issue cfg e o).etcd = e ∧ (c.issue cfg e o).commits = []) ∨
    (c.pc = .granting ∧ (c.issue cfg e o).etcd = e.grant.1 ∧ (c.issue cfg e o).commits = []) ∨
    (∃ l, c.pc = .revoking l ∧ (c.issue cfg e o).etcd = e.revoke l ∧
      (c.issue cfg e o).commits = []) ∨
    ∃ r, c.request = some r ∧
      Applied cfg.pfx e r (c.issue cfg e o).etcd (c.issue cfg e o).commits := by
  unfold issue
  split
  · next hpc =>
    split
    · exact .inr (.inl ⟨hpc, rfl, rfl⟩)
    · exact .inl ⟨rfl, rfl⟩
  · next l hpc =>
    split
    · exact .inr (.inr (.inl ⟨l, hpc, rfl, rfl⟩))
    · exact .inl ⟨rfl, rfl⟩
  · split
    · next r hr => exact .inr (.inr (.inr ⟨r, hr, r.issued cfg.pfx e o⟩))
    · exact .inl ⟨rfl, rfl⟩

theorem issue_request (cfg : Config) {c : Coordinator} {r : Request} (hr : c.request = some r)
    (e : Store) (o : Outcome) : c.issue cfg e o = r.issue cfg.pfx e o := by
  unfold issue
  split
  · next hpc => simp [request, hpc] at hr
  · next hpc => simp [request, hpc] at hr
  · rw [hr]

theorem issue_moved (cfg : Config) (c : Coordinator) (e : Store) (o : Outcome) :
    Moved cfg.pfx e (c.issue cfg e o).etcd (c.issue cfg e o).commits := by
  rcases c.issue_cases cfg e o with ⟨he, hc⟩ | ⟨-, he, hc⟩ | ⟨l, -, he, hc⟩ | ⟨r, -, ha⟩
  · rw [he, hc]; exact .same
  · rw [he, hc]; exact .grant
  · rw [he, hc]; exact .revoke l
  · exact .applied ha

theorem request_nodeID {c : Coordinator} {r : Request} (h : c.request = some r) :
    r.nodeID = c.nodeID := by
  unfold request at h
  split at h <;> cases h <;> rfl

theorem mem_issue_sent {cfg : Config} {c : Coordinator} {e : Store} {o : Outcome} {r : Request}
    (h : r ∈ (c.issue cfg e o).sent) : o = .late ∧ c.request = some r := by
  unfold issue at h
  split at h
  · split at h <;> cases h
  · split at h <;> cases h
  · split at h
    · next r' hr =>
      obtain ⟨late, rfl⟩ := Request.issue_sent h
      exact ⟨late, hr⟩
    · cases h

/-- A node commits under its own id and its current lease. -/
theorem issue_commits {cfg : Config} {c : Coordinator} {e : Store} {o : Outcome} {k : Commit}
    (h : k ∈ (c.issue cfg e o).commits) : k.owner = c.nodeID ∧ k.lease = c.leaseID ∧
      ((∃ todo, c.pc = .claiming (k.shard :: todo)) ∨
        ∃ todo, c.pc = .rebinding (k.shard :: todo)) := by
  rcases c.issue_cases cfg e o with ⟨-, hc⟩ | ⟨-, -, hc⟩ | ⟨_, -, -, hc⟩ | ⟨r, hr, ha⟩
  · simp [hc] at h
  · simp [hc] at h
  · simp [hc] at h
  · unfold request at hr
    rcases ha.commits h with rfl | rfl <;> split at hr <;> simp_all

end Coordinator

/-! ## Discovery -/

def ownerOf (cfg : Config) (e : Store) (ns : Str) : Option Str :=
  shardOwner cfg.pfx e (cfg.shardOf ns)

structure RouteMap where
  members : List Str
  shardOwner : Nat → Option Str
  shardTerm : Nat → Option Nat

/-- `Coordinator.RouteMap`, from the members and the ownership map it read. -/
def routeMap (members : List Str) (om : Nat → OwnerInfo) : RouteMap where
  members := members
  shardOwner := fun s => if s < shardCount ∧ (om s).owner ≠ [] then some (om s).owner else none
  shardTerm := fun s => if s < shardCount ∧ (om s).owner ≠ [] then some (om s).term else none

end MilvusCatalog

import MilvusCatalog.Coordinator
import MilvusCatalog.Lib.Transition

/-! Any number of nodes over one etcd store. A step is one call of one node, a
request that etcd applies late, the end of a lease, the passing of time, or a
read by a client. -/
namespace MilvusCatalog
open Go Etcd Transition

/-- `procs` are the incarnations started so far; ids may repeat. `readers` are
route-map reads that have their members and not yet the ownership map.
`commits` and `routeMaps` are what callers were given, oldest first. -/
structure Cluster where
  etcd : Store
  now : Nat
  procs : List Coordinator
  inflight : List Request
  readers : List (List Str)
  commits : List Commit
  routeMaps : List RouteMap

inductive Action
  | spawn (nodeID : Str) (ttlSeconds : Int)
  | call (p : Nat) (o : Outcome)
  | deliver (k : Nat)
  | expire (lease : Nat)
  | tick (d : Nat)
  | keepAlive (p : Nat)
  | keepAliveEnds (p : Nat)
  | exitLoop (p : Nat)
  | close (p : Nat)
  | leave (p : Nat)
  | revoke (p : Nat) (applied : Bool)
  | request (r : Request) (o : Outcome)
  | routeMembers
  | routeMap (k : Nat)
  deriving DecidableEq, Repr

namespace Cluster

/-- Replace what a step changed in etcd. -/
def wrote (σ : Cluster) (i : Issued) : Cluster :=
  { σ with
    etcd := i.etcd
    inflight := σ.inflight ++ i.sent
    commits := σ.commits ++ i.commits }

def update (σ : Cluster) (p : Nat) (c : Coordinator) : Cluster :=
  { σ with procs := σ.procs.set p c }

/-- Change the membership of one node, if `guard` allows it there. -/
def member (σ : Cluster) (p : Nat) (guard : Coordinator → Bool)
    (f : Membership → Membership) : Option Cluster :=
  match σ.procs[p]? with
  | none => none
  | some c => if guard c then some (σ.update p { c with membership := f c.membership }) else none

end Cluster

/-- One step. `Close` cancels the loop, waits for it to end, marks the membership
as closing and only then revokes. -/
def exec (cfg : Config) (σ : Cluster) : Action → Option Cluster
  | .spawn nodeID ttl => some { σ with procs := σ.procs ++ [newCoordinator nodeID ttl] }
  | .call p o =>
    match σ.procs[p]? with
    | none => none
    | some c => some ((σ.wrote (c.issue cfg σ.etcd o)).update p (c.resume cfg σ.etcd σ.now o))
  | .deliver k =>
    match σ.inflight[k]? with
    | none => none
    | some r =>
      some (({ σ with inflight := σ.inflight.eraseIdx k } : Cluster).wrote
        (r.issue cfg.pfx σ.etcd .ok))
  | .expire l => some { σ with etcd := σ.etcd.revoke l }
  | .tick d => some { σ with now := σ.now + d }
  | .keepAlive p => σ.member p (·.membership.watching) (·.record σ.now)
  | .keepAliveEnds p => σ.member p (·.membership.watching) Membership.ended
  | .exitLoop p =>
    match σ.procs[p]? with
    | none => none
    | some c =>
      if c.pc = .idle ∧ (c.cancelled ∨ c.membership.lost) then
        some (σ.update p { c with pc := .stopped })
      else none
  | .close p =>
    match σ.procs[p]? with
    | none => none
    | some c => if c.leaseID ≠ 0 then some (σ.update p { c with cancelled := true }) else none
  | .leave p =>
    σ.member p (fun c => c.cancelled && c.pc = .stopped) ({ · with closing := true })
  | .revoke p applied =>
    match σ.procs[p]? with
    | none => none
    | some c =>
      if c.membership.closing then
        some (if applied then { σ with etcd := σ.etcd.revoke c.leaseID } else σ)
      else none
  | .request r o => some (σ.wrote (r.issue cfg.pfx σ.etcd o))
  | .routeMembers => some { σ with readers := σ.readers ++ [listMembers cfg.pfx σ.etcd] }
  | .routeMap k =>
    match σ.readers[k]? with
    | none => none
    | some members =>
      some { σ with
        readers := σ.readers.eraseIdx k
        routeMaps := σ.routeMaps ++ [routeMap members (loadOwnershipMap cfg.pfx σ.etcd)] }

/-- Everything a step can be, with the guards it passed. -/
inductive Step (cfg : Config) (σ : Cluster) : Action → Cluster → Prop
  | spawn {nodeID : Str} {ttl : Int} :
      Step cfg σ (.spawn nodeID ttl) { σ with procs := σ.procs ++ [newCoordinator nodeID ttl] }
  | call {p : Nat} {o : Outcome} {c : Coordinator} (at_ : σ.procs[p]? = some c) :
      Step cfg σ (.call p o)
        ((σ.wrote (c.issue cfg σ.etcd o)).update p (c.resume cfg σ.etcd σ.now o))
  | deliver {k : Nat} {r : Request} (at_ : σ.inflight[k]? = some r) :
      Step cfg σ (.deliver k)
        { σ with
          etcd := (r.apply cfg.pfx σ.etcd).1
          inflight := σ.inflight.eraseIdx k
          commits := σ.commits ++ (r.apply cfg.pfx σ.etcd).2 }
  | expire {l : Nat} : Step cfg σ (.expire l) { σ with etcd := σ.etcd.revoke l }
  | tick {d : Nat} : Step cfg σ (.tick d) { σ with now := σ.now + d }
  | keepAlive {p : Nat} {c : Coordinator} (at_ : σ.procs[p]? = some c)
      (watching : c.membership.watching = true) :
      Step cfg σ (.keepAlive p) (σ.update p { c with membership := c.membership.record σ.now })
  | keepAliveEnds {p : Nat} {c : Coordinator} (at_ : σ.procs[p]? = some c)
      (watching : c.membership.watching = true) :
      Step cfg σ (.keepAliveEnds p) (σ.update p { c with membership := c.membership.ended })
  | exitLoop {p : Nat} {c : Coordinator} (at_ : σ.procs[p]? = some c) (idle : c.pc = .idle)
      (told : c.cancelled = true ∨ c.membership.lost = true) :
      Step cfg σ (.exitLoop p) (σ.update p { c with pc := .stopped })
  | close {p : Nat} {c : Coordinator} (at_ : σ.procs[p]? = some c) (joined : c.leaseID ≠ 0) :
      Step cfg σ (.close p) (σ.update p { c with cancelled := true })
  | leave {p : Nat} {c : Coordinator} (at_ : σ.procs[p]? = some c) (cancelled : c.cancelled = true)
      (stopped : c.pc = .stopped) :
      Step cfg σ (.leave p)
        (σ.update p { c with membership := { c.membership with closing := true } })
  | revoked {p : Nat} {c : Coordinator} (at_ : σ.procs[p]? = some c)
      (closing : c.membership.closing = true) :
      Step cfg σ (.revoke p true) { σ with etcd := σ.etcd.revoke c.leaseID }
  | unrevoked {p : Nat} {c : Coordinator} (at_ : σ.procs[p]? = some c)
      (closing : c.membership.closing = true) : Step cfg σ (.revoke p false) σ
  | request {r : Request} {o : Outcome} :
      Step cfg σ (.request r o) (σ.wrote (r.issue cfg.pfx σ.etcd o))
  | routeMembers :
      Step cfg σ .routeMembers { σ with readers := σ.readers ++ [listMembers cfg.pfx σ.etcd] }
  | routeMap {k : Nat} {members : List Str} (at_ : σ.readers[k]? = some members) :
      Step cfg σ (.routeMap k)
        { σ with
          readers := σ.readers.eraseIdx k
          routeMaps := σ.routeMaps ++
            [MilvusCatalog.routeMap members (loadOwnershipMap cfg.pfx σ.etcd)] }

theorem exec_step {cfg : Config} {σ σ' : Cluster} {a : Action} (h : exec cfg σ a = some σ') :
    Step cfg σ a σ' := by
  have member {p : Nat} {guard : Coordinator → Bool} {f : Membership → Membership}
      (h : σ.member p guard f = some σ') : ∃ c, σ.procs[p]? = some c ∧ guard c = true ∧
        σ' = σ.update p { c with membership := f c.membership } := by
    unfold Cluster.member at h
    split at h
    · cases h
    · next c hp =>
      rw [Option.ite_none_right_eq_some, Option.some.injEq] at h
      exact ⟨c, hp, h.1, h.2.symm⟩
  cases a with
  | spawn nodeID ttl => cases h; exact .spawn
  | expire l => cases h; exact .expire
  | tick d => cases h; exact .tick
  | request r o => cases h; exact .request
  | routeMembers => cases h; exact .routeMembers
  | call p o =>
    simp only [exec] at h
    split at h
    · cases h
    · next hp => cases h; exact .call hp
  | deliver k =>
    simp only [exec] at h
    split at h
    · cases h
    · next hk => cases h; simpa [Cluster.wrote, Request.issue] using .deliver hk
  | keepAlive p =>
    simp only [exec] at h
    obtain ⟨c, hp, watching, rfl⟩ := member h
    exact .keepAlive hp watching
  | keepAliveEnds p =>
    simp only [exec] at h
    obtain ⟨c, hp, watching, rfl⟩ := member h
    exact .keepAliveEnds hp watching
  | leave p =>
    simp only [exec] at h
    obtain ⟨c, hp, guard, rfl⟩ := member h
    rw [Bool.and_eq_true, decide_eq_true_eq] at guard
    exact .leave hp guard.1 guard.2
  | exitLoop p =>
    simp only [exec] at h
    split at h
    · cases h
    · next hp =>
      split at h
      · next guard => cases h; exact .exitLoop hp guard.1 guard.2
      · cases h
  | close p =>
    simp only [exec] at h
    split at h
    · cases h
    · next hp =>
      split at h
      · next joined => cases h; exact .close hp joined
      · cases h
  | revoke p applied =>
    simp only [exec] at h
    split at h
    · cases h
    · next hp =>
      split at h
      · next closing =>
        cases applied
        · cases h; exact .unrevoked hp closing
        · cases h; exact .revoked hp closing
      · cases h
  | routeMap k =>
    simp only [exec] at h
    split at h
    · cases h
    · next hk => cases h; exact .routeMap hk

/-- Every step moves the store and the commits together. -/
theorem exec_moved {cfg : Config} {σ σ' : Cluster} {a : Action} (h : exec cfg σ a = some σ') :
    ∃ cs, Moved cfg.pfx σ.etcd σ'.etcd cs ∧ σ'.commits = σ.commits ++ cs := by
  cases exec_step h with
  | call => exact ⟨_, Coordinator.issue_moved cfg _ _ _, rfl⟩
  | @deliver _ r => exact ⟨_, .applied (r.applied cfg.pfx σ.etcd), rfl⟩
  | expire | revoked => exact ⟨[], .revoke _, by simp⟩
  | @request r o => exact ⟨_, .applied (r.issued cfg.pfx σ.etcd o), rfl⟩
  | _ => exact ⟨[], .same, by simp [Cluster.update]⟩

theorem exec_now {cfg : Config} {σ σ' : Cluster} {a : Action} (h : exec cfg σ a = some σ') :
    σ.now ≤ σ'.now := by
  cases exec_step h with
  | tick => exact Nat.le_add_right _ _
  | _ => exact Nat.le_refl _

theorem exec_routeMaps {cfg : Config} {σ σ' : Cluster} {a : Action} (h : exec cfg σ a = some σ') :
    σ'.routeMaps = σ.routeMaps ∨ ∃ members, σ'.etcd = σ.etcd ∧
      σ'.routeMaps = σ.routeMaps ++ [routeMap members (loadOwnershipMap cfg.pfx σ.etcd)] := by
  cases exec_step h with
  | @routeMap _ members => exact .inr ⟨members, rfl, rfl⟩
  | _ => exact .inl rfl

/-- The node whose own state an action changes. -/
def Action.changes : Action → Option Nat
  | .call p _ | .keepAlive p | .keepAliveEnds p | .exitLoop p | .close p | .leave p => some p
  | _ => none

/-- Everything a step can do to a node that was there before it. -/
inductive Stepped (cfg : Config) (σ : Cluster) (q : Nat) (c : Coordinator) :
    Action → Coordinator → Prop
  | stays {a : Action} (other : a.changes ≠ some q) : Stepped cfg σ q c a c
  | calls {o : Outcome} : Stepped cfg σ q c (.call q o) (c.resume cfg σ.etcd σ.now o)
  | records (watching : c.membership.watching = true) :
      Stepped cfg σ q c (.keepAlive q) { c with membership := c.membership.record σ.now }
  | ends (watching : c.membership.watching = true) :
      Stepped cfg σ q c (.keepAliveEnds q) { c with membership := c.membership.ended }
  | exits (idle : c.pc = .idle) : Stepped cfg σ q c (.exitLoop q) { c with pc := .stopped }
  | closes : Stepped cfg σ q c (.close q) { c with cancelled := true }
  | leaves (stopped : c.pc = .stopped) :
      Stepped cfg σ q c (.leave q) { c with membership := { c.membership with closing := true } }

theorem Stepped.nodeID {cfg : Config} {σ : Cluster} {q : Nat} {c d : Coordinator} {a : Action}
    (h : Stepped cfg σ q c a d) : d.nodeID = c.nodeID := by
  cases h with
  | calls => exact c.resume_nodeID cfg σ.etcd σ.now _
  | _ => rfl

/-- A step keeps the list of nodes, replaces one or adds one. -/
theorem exec_procs {cfg : Config} {σ σ' : Cluster} {a : Action} (h : exec cfg σ a = some σ') :
    (a.changes = none ∧ σ'.procs = σ.procs) ∨
    (∃ p c d, σ.procs[p]? = some c ∧ a.changes = some p ∧ Stepped cfg σ p c a d ∧
      σ'.procs = σ.procs.set p d) ∨
    ∃ nodeID ttl, a = .spawn nodeID ttl ∧ σ'.procs = σ.procs ++ [newCoordinator nodeID ttl] := by
  cases exec_step h with
  | spawn => exact .inr (.inr ⟨_, _, rfl, rfl⟩)
  | call hp => exact .inr (.inl ⟨_, _, _, hp, rfl, .calls, rfl⟩)
  | keepAlive hp watching => exact .inr (.inl ⟨_, _, _, hp, rfl, .records watching, rfl⟩)
  | keepAliveEnds hp watching => exact .inr (.inl ⟨_, _, _, hp, rfl, .ends watching, rfl⟩)
  | exitLoop hp idle => exact .inr (.inl ⟨_, _, _, hp, rfl, .exits idle, rfl⟩)
  | close hp => exact .inr (.inl ⟨_, _, _, hp, rfl, .closes, rfl⟩)
  | leave hp _ stopped => exact .inr (.inl ⟨_, _, _, hp, rfl, .leaves stopped, rfl⟩)
  | _ => exact .inl ⟨rfl, rfl⟩

theorem exec_node {cfg : Config} {σ σ' : Cluster} {a : Action} (h : exec cfg σ a = some σ')
    {q : Nat} {d : Coordinator} (hq : σ'.procs[q]? = some d) :
    (∃ c, σ.procs[q]? = some c ∧ Stepped cfg σ q c a d) ∨
      ∃ nodeID ttl, a = .spawn nodeID ttl ∧ q = σ.procs.length ∧ d = newCoordinator nodeID ttl := by
  rcases exec_procs h with ⟨none, procs⟩ | ⟨p, c, d', hp, changes, stepped, procs⟩ |
    ⟨nodeID, ttl, rfl, procs⟩
  · exact .inl ⟨d, procs ▸ hq, .stays (by simp [none])⟩
  · rw [procs] at hq
    by_cases e : p = q
    · subst e
      rw [List.getElem?_set_self (List.getElem?_eq_some_iff.mp hp).1, Option.some.injEq] at hq
      exact .inl ⟨c, hp, hq ▸ stepped⟩
    · rw [List.getElem?_set_ne e] at hq
      exact .inl ⟨d, hq, .stays (by simpa [changes] using e)⟩
  · rw [procs, List.getElem?_append] at hq
    split at hq
    · exact .inl ⟨d, hq, .stays (by simp [Action.changes])⟩
    · obtain ⟨hlt, hd⟩ := List.getElem?_eq_some_iff.mp hq
      simp only [List.length_singleton] at hlt
      exact .inr ⟨nodeID, ttl, rfl, by omega, by simpa using hd.symm⟩

/-- No step forgets a node. -/
theorem exec_survives {cfg : Config} {σ σ' : Cluster} {a : Action} (h : exec cfg σ a = some σ')
    {q : Nat} {c : Coordinator} (hq : σ.procs[q]? = some c) :
    ∃ d, σ'.procs[q]? = some d ∧ Stepped cfg σ q c a d := by
  have lt := (List.getElem?_eq_some_iff.mp hq).1
  have le : σ.procs.length ≤ σ'.procs.length := by
    rcases exec_procs h with ⟨-, procs⟩ | ⟨_, _, _, -, -, -, procs⟩ | ⟨_, _, -, procs⟩ <;>
      simp [procs]
  have hd := List.getElem?_eq_getElem (Nat.lt_of_lt_of_le lt le)
  rcases exec_node h hd with ⟨c', hc', stepped⟩ | ⟨_, _, -, eq, -⟩
  · rw [hq, Option.some.injEq] at hc'
    exact ⟨_, hd, hc' ▸ stepped⟩
  · omega

/-- The steps around a round of node `p`, which alone acts under `id`: its own
calls up to the end of the round, and any steps under other ids. -/
def solo (p : Nat) (id : Str) (σ : Cluster) : Action → Bool
  | .call q _ => ∀ d ∈ σ.procs[q]?, if q = p then d.pc ≠ .idle else d.nodeID ≠ id
  | .request r _ => r.nodeID ≠ id
  | _ => true

/-- Where a request in flight comes from. -/
theorem solo_inflight {cfg : Config} {σ σ' : Cluster} {a : Action} {p : Nat} {c : Coordinator}
    (hp : σ.procs[p]? = some c) (ha : solo p c.nodeID σ a = true)
    (step : exec cfg σ a = some σ') {r : Request} (hr : r ∈ σ'.inflight) :
    r ∈ σ.inflight ∨ r.nodeID ≠ c.nodeID ∨ c.request = some r := by
  cases exec_step step with
  | @call q o d hq =>
    simp only [solo, hq, Option.mem_def, Option.some.injEq, forall_eq', decide_eq_true_eq] at ha
    rcases List.mem_append.mp hr with old | new
    · exact .inl old
    · have hd := (Coordinator.mem_issue_sent new).2
      split at ha
      · next e =>
        subst e
        obtain rfl := Option.some.inj (hp.symm.trans hq)
        exact .inr (.inr hd)
      · exact .inr (.inl (by rwa [Coordinator.request_nodeID hd]))
  | deliver => exact .inl (List.mem_of_mem_eraseIdx hr)
  | @request r' o =>
    simp only [solo, decide_eq_true_eq] at ha
    rcases List.mem_append.mp hr with old | new
    · exact .inl old
    · exact .inr (.inl ((Request.issue_sent new).2 ▸ ha))
  | _ => exact .inl hr

/-- No node yet, nothing read and nothing in flight, over a store that has no
ownership keys. Other keys may be there. -/
structure Initial (cfg : Config) (σ : Cluster) : Prop where
  procs : σ.procs = []
  inflight : σ.inflight = []
  readers : σ.readers = []
  commits : σ.commits = []
  routeMaps : σ.routeMaps = []
  unowned : ∀ k, shardBase cfg.pfx <+: k → σ.etcd.get k = none

/-- Any steps of any nodes and clients, in any order. -/
abbrev Any (cfg : Config) : Cluster → Cluster → Prop := Next (exec cfg) fun _ _ => True

/-- In every run the ownership directory holds only keys that a load reads right. -/
theorem reachable_layout {cfg : Config} {σ : Cluster} (h : Reachable (Initial cfg) (Any cfg) σ) :
    Layout cfg.pfx σ.etcd := by
  induction h with
  | start initial =>
    intro k kv hk hp
    rw [initial.unowned k hp] at hk
    cases hk
  | step _ next layout =>
    obtain ⟨_, _, step⟩ := next
    obtain ⟨_, moved, -⟩ := exec_moved step
    exact moved_layout layout moved

/-! ## A deployment for concrete runs -/

/-- Of two members `a` and `b`, shard 0 goes to `a` and every other one to `b`;
a namespace that does not start with `b` is in shard 0. -/
def sample : Config where
  pfx := str "p"
  xxhash := fun b => if b.head? = some 98 ∧ b.tail ≠ shardBytes 0 then 1 else 0

def sampleStart : Cluster := ⟨.empty, 1, [], [], [], [], []⟩

theorem sampleStart_initial : Initial sample sampleStart :=
  ⟨rfl, rfl, rfl, rfl, rfl, fun _ _ => Std.ExtTreeMap.getElem?_empty⟩

/-- Start node `p` with a TTL of ten seconds, up to its first round. -/
def sampleJoin (p : Nat) (nodeID : String) : List Action :=
  .spawn (str nodeID) 10 :: List.replicate 3 (.call p .ok)

theorem sample_reachable {allowed : Cluster → Action → Bool} {as : List Action} {σ : Cluster}
    (h : execute (exec sample) allowed sampleStart as = some σ) :
    Reachable (Initial sample) (Next (exec sample) fun σ a => allowed σ a = true) σ :=
  (reachable_of_execute h).mono (fun _ e => e ▸ sampleStart_initial) fun _ _ h => h

theorem sample_any {as : List Action} {σ : Cluster}
    (h : execute (exec sample) (fun _ _ => true) sampleStart as = some σ) :
    Reachable (Initial sample) (Any sample) σ :=
  (sample_reachable h).mono (fun _ h => h) fun _ _ _ => trivial

end MilvusCatalog

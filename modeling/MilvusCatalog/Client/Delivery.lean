import MilvusCatalog.Client.Recovery
import MilvusCatalog.Client.Stamps
import MilvusCatalog.Convergence.Failover

/-! Calls into a cluster that has converged. However stale a router is, the call
gets to a node that runs under a live lease, serves the namespace while its
keepalive is fresh, and holds the term that the call is stamped with. -/
namespace MilvusCatalog
open Go Etcd Transition Convergence

namespace Client

variable {E R : Type} {cfg : Config}

/-- The nodes as a call for the namespace meets them: every answer to `GetRouteMap`
is one read of the ownership keys as they are. -/
def World.ofStore (cfg : Config) (e : Store) (ns good : Str) : World :=
  let rm := routeMap (listMembers cfg.pfx e) (loadOwnershipMap cfg.pfx e)
  ⟨tabulate rm.shardOwner shardCount, tabulate rm.shardTerm shardCount,
    (rm.shardOwner (cfg.shardOf ns)).getD [], (rm.shardTerm (cfg.shardOf ns)).getD 0, good⟩

/-- What the maps of one read say about a shard that is owned. -/
theorem World.ofStore_owned {e : Store} (layout : Layout cfg.pfx e) {ns : Str} (good : Str)
    {kv : KeyValue} (record : e.get (shardKey cfg.pfx (cfg.shardOf ns)) = some kv)
    (named : kv.value ≠ []) :
    (World.ofStore cfg e ns good).owner = kv.value ∧
      (World.ofStore cfg e ns good).term = kv.modRevision ∧
      (World.ofStore cfg e ns good).Owned cfg ns := by
  have hs : cfg.shardOf ns < shardCount := shardOf_lt cfg.xxhash ns
  have load : loadOwnershipMap cfg.pfx e (cfg.shardOf ns) = ownerInfo kv := by
    rw [loadOwnershipMap_eq layout hs, record]
    rfl
  let rm := routeMap (listMembers cfg.pfx e) (loadOwnershipMap cfg.pfx e)
  have owner : rm.shardOwner (cfg.shardOf ns) = some kv.value := by
    simp [rm, routeMap, hs, load, ownerInfo, named]
  have term : rm.shardTerm (cfg.shardOf ns) = some kv.modRevision := by
    simp [rm, routeMap, hs, load, ownerInfo, named]
  have owner' : (World.ofStore cfg e ns good).owner = kv.value :=
    congrArg (Option.getD · []) owner
  have term' : (World.ofStore cfg e ns good).term = kv.modRevision :=
    congrArg (Option.getD · 0) term
  refine ⟨owner', term', ?_, ?_, owner' ▸ named⟩
  · rw [owner']
    exact (tabulate_get rm.shardOwner shardCount _).trans ((if_pos hs).trans owner)
  · rw [term']
    exact (tabulate_get rm.shardTerm shardCount _).trans ((if_pos hs).trans term)

/-- **Failover is transparent.** In a cluster that has converged, for every
namespace there is a node of the crew that is up and serves it whenever its
keepalive is fresh, the one that `OwnerOf` names; and a call through `Do`, from
whatever route maps, comes to be invoked at that node with that node's term, at
the second invocation at the latest. -/
theorem converged_delivers (er : Errors E R) {crew : List Nat} {M : List Str} {σ : Cluster}
    (history : Reachable (MilvusCatalog.Initial cfg) (Any cfg) σ)
    (converged : Converged cfg crew M σ) (manned : Manned cfg crew σ) (nonempty : crew ≠ [])
    {r : Router} (pool : r.Keyed) {good : Str} (answers : good ∈ r.bootstrap) (ns : Str) :
    ∃ p ∈ crew, ∃ d, σ.procs[p]? = some d ∧ up σ.etcd d = true ∧
      d.isServable cfg σ.now ns = d.fresh σ.now ∧ ownerOf cfg σ.etcd ns = some d.nodeID ∧
      Arrives (World.ofStore cfg σ.etcd ns good) er cfg (fun s => ∃ conn,
        s.2.pc = .invoking conn (d.shardTerm cfg ns) ∧ conn.addr = d.nodeID ∧ s.2.ns = ns ∧
        s.2.replies.length ≤ 1) r (.start ns .idempotent : Call E R) := by
  have hs : cfg.shardOf ns < shardCount := shardOf_lt cfg.xxhash ns
  obtain ⟨p, hp, d, kv, hd, -, record, value, -, held, serves⟩ :=
    converged.chosen manned nonempty hs
  have named : kv.value ≠ [] := value ▸ manned.named _ (manned.member hp hd)
  obtain ⟨owner, term, known⟩ :=
    World.ofStore_owned (reachable_layout history) good record named
  refine ⟨p, hp, d, hd, up_iff.mpr (manned.up hp hd), ?_, ?_, ?_⟩
  · rw [Coordinator.isServable, serves, Bool.true_and]
  · rw [ownerOf, shardOwner, record, Option.map_some, value]
  · have arrives : Arrives _ er cfg _ r _ := start_arrives ⟨pool, answers⟩ known
    refine arrives.bind ?_
    rintro s ⟨conn, pc, addr, same, few⟩
    rw [term, ← held] at pc
    exact .now ⟨conn, pc, addr.trans (owner.trans value), same, few⟩

/-- Node `c` has claimed shards when nodes `a` and `b` have joined and its lease
ends, with a claim of it still under way. -/
def cFails : List MilvusCatalog.Action :=
  sampleJoin 0 "c" ++ List.replicate 4 (.call 0 .ok) ++ sampleJoin 1 "a" ++ sampleJoin 2 "b" ++
    [.call 0 .late, .expire 1]

/-- A router that has `c` for the owner of every shard and a connection to it. -/
def cRouted : Router where
  bootstrap := [str "seed"]
  shardOwner := tabulate (fun _ => some (str "c")) shardCount
  shardTerm := tabulate (fun _ => some 4) shardCount
  conns := (∅ : Std.ExtTreeMap Str Conn).insert (str "c") ⟨0, str "c"⟩
  dialed := 1
  closed := []

theorem cRouted_keyed : cRouted.Keyed := by
  intro addr conn found
  simp only [cRouted, Std.ExtTreeMap.getElem?_insert] at found
  split at found
  · next same =>
    rw [← Option.some.inj found]
    exact Std.LawfulEqCmp.eq_of_compare same
  · simp at found

/-- After `a` and `b` have taken over, calls of the router that still has `c`. -/
theorem converged_delivers_cFails : ∃ σ : Cluster, Manned sample [1, 2] σ ∧
    ∀ ns ∈ [str "x", str "bx"], cRouted.routeFor sample ns = (str "c", 4) ∧
      ∃ p ∈ [1, 2], ∃ d, σ.procs[p]? = some d ∧ ownerOf sample σ.etcd ns = some d.nodeID ∧
        d.isServable sample σ.now ns = d.fresh σ.now ∧
        Arrives (World.ofStore sample σ.etcd ns (str "seed")) sampleErrors sample
          (fun s => ∃ conn, s.2.pc = .invoking conn (d.shardTerm sample ns) ∧
            conn.addr = d.nodeID ∧ s.2.ns = ns ∧ s.2.replies.length ≤ 1)
          cRouted (.start ns .idempotent) := by
  have fails : (execute (MilvusCatalog.exec sample) LiveOwners.allowed sampleStart cFails).any
      (fun σ => survivors σ = [1, 2] ∧ σ.procs.length = 3 ∧
        ∀ m ∈ listMembers sample.pfx σ.etcd, ∃ p ∈ survivors σ, ∃ c ∈ σ.procs[p]?, c.nodeID = m) =
      true := by decide +kernel
  obtain ⟨σ, hσ, test⟩ := (Option.any_eq_true _ _).mp fails
  simp only [decide_eq_true_eq, Option.mem_def] at test
  obtain ⟨crew, nodes, alive⟩ := test
  have reach : Reachable (MilvusCatalog.Initial sample) (LiveOwners.Allowed sample) σ :=
    sample_reachable hσ
  have manned := survivors_manned reach alive
  rw [crew] at manned
  obtain ⟨run, rfl, fair⟩ : ∃ run : Run (MilvusCatalog.exec sample) fun σ a =>
      calm sample [1, 2] σ a = true, run.state 0 = σ ∧
      ∀ p ∈ [1, 2], ∀ t, ∃ n, run.action (t + n) = .call p .ok :=
    exists_turns (by simp) (fun σ p hp => calm_crew hp) (by simp [nodes])
  have history : Reachable (MilvusCatalog.Initial sample) (Any sample) (run.state 0) :=
    reach.mono (fun _ start => start) fun _ _ _ => trivial
  obtain ⟨V, stable⟩ := crew_converges run history manned (by simp) fair
  have mannedV := (manned_at run manned V).1
  have stale : ∀ ns ∈ [str "x", str "bx"], cRouted.routeFor sample ns = (str "c", 4) := by
    decide +kernel
  refine ⟨run.state V, mannedV, fun ns hns => ⟨stale ns hns, ?_⟩⟩
  have answers : str "seed" ∈ cRouted.bootstrap := List.mem_singleton.mpr rfl
  obtain ⟨p, hp, d, hd, -, serves, owner, arrives⟩ := converged_delivers sampleErrors
    (run.reachable (fun _ _ _ => trivial) history V) (stable V (Nat.le_refl V)).2 mannedV (by simp)
    cRouted_keyed answers ns
  exact ⟨p, hp, d, hd, owner, serves, arrives⟩

end Client

end MilvusCatalog

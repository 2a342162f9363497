import MilvusCatalog.Client.Discovery
import MilvusCatalog.Fencing
import MilvusCatalog.Nsmeta
import MilvusCatalog.Tenure

/-! Stamps against the node that serves. What a client stamps on a request comes
from etcd over a route map, two router maps and the request's metadata, and may be
stale by then; the node that serves compares it with its own term. -/
namespace MilvusCatalog
open Go Etcd Transition

namespace Client

variable {E R : Type} {er : Errors E R} {cfg : Config}

/-- The nodes take the steps of runs without split brain, and the process any. -/
def serving (σ : System E R) (e : Event E R) : Prop :=
  ships σ e ∧ ∀ a, e = .cluster a → SplitBrain.allowed σ.cluster a = true

/-- The nodes of a system run by themselves. -/
theorem cluster_reachable {σ : System E R}
    (h : Reachable (System.Initial cfg) (Transition.Next (System.exec er cfg) serving) σ) :
    Reachable (MilvusCatalog.Initial cfg) (SplitBrain.Allowed cfg) σ.cluster := by
  induction h with
  | start initial => exact .start initial.cluster
  | step _ next ih =>
    obtain ⟨event, ⟨-, allowed⟩, step⟩ := next
    cases event with
    | cluster a =>
      obtain ⟨cluster, ran, rfl⟩ := Option.map_eq_some_iff.mp step
      exact .step ih ⟨a, allowed a rfl, ran⟩
    | process a =>
      obtain ⟨process, -, rfl⟩ := Option.map_eq_some_iff.mp step
      exact ih

/-- Some claim or rebind of the shard has been committed with this owner and term. -/
def Committed (σ : Cluster) (s : Nat) (owner : Str) (term : Nat) : Prop :=
  ∃ lease, ⟨s, owner, lease, term⟩ ∈ σ.commits

theorem committed_now {σ : Cluster} (h : Fencing.Inv cfg σ) (s : Nat) (kv : KeyValue)
    (record : σ.etcd.get (shardKey cfg.pfx s) = some kv) : Committed σ s kv.value kv.modRevision :=
  ⟨kv.lease, (h.recorded.current s kv record).1⟩

/-- Whatever the client holds has been committed. -/
theorem reachable_committed {σ : System E R}
    (h : Reachable (System.Initial cfg) (Transition.Next (System.exec er cfg) serving) σ) :
    Real (Committed σ.cluster) cfg σ := by
  induction h with
  | start initial => exact initial_real initial
  | @step σ σ' reached next ih =>
    have inv : Fencing.Inv cfg σ.cluster :=
      Fencing.reachable_inv ((cluster_reachable reached).mono (fun _ h => h) fun _ _ _ => trivial)
    obtain ⟨event, ⟨shipped, -⟩, step⟩ := next
    cases event with
    | cluster a =>
      obtain ⟨cluster, ran, rfl⟩ := Option.map_eq_some_iff.mp step
      have grows {s : Nat} {owner : Str} {term : Nat} (h : Committed σ.cluster s owner term) :
          Committed cluster s owner term := by
        obtain ⟨cs, -, commits⟩ := exec_moved ran
        obtain ⟨lease, mem⟩ := h
        exact ⟨lease, commits ▸ List.mem_append_left cs mem⟩
      exact cluster_real (ih.mono fun _ _ _ => grows) ran fun s kv record =>
        grows (committed_now inv s kv record)
    | process a =>
      obtain ⟨process, ran, rfl⟩ := Option.map_eq_some_iff.mp step
      exact process_real ih ran shipped

/-- A commit is at most as new as the record, and as new only if it is the record. -/
theorem Committed.fenced {σ : Cluster} (inv : Fencing.Inv cfg σ) {s : Nat} {kv : KeyValue}
    (record : σ.etcd.get (shardKey cfg.pfx s) = some kv) {owner : Str} {term : Nat}
    (h : Committed σ s owner term) :
    term ≤ kv.modRevision ∧ (term = kv.modRevision → owner = kv.value) := by
  obtain ⟨lease, mem⟩ := h
  obtain ⟨current, last⟩ := inv.recorded.current s kv record
  refine ⟨last _ mem rfl, fun same => ?_⟩
  exact congrArg Commit.owner (inv.recorded.unique mem current same)

/-- **Stale stamps are older.** When a request that a client has routed meets a node
that serves its namespace, the service reads back the namespace and a term that is
at most the node's own, and it is the node's own exactly when the request was
routed by the record that is in force, which is then that node's. -/
theorem stamped_term_fenced {σ : System E R}
    (h : Reachable (System.Initial cfg) (Transition.Next (System.exec er cfg) serving) σ)
    {c : Call E R} (hc : c ∈ σ.process.calls) {conn : Conn} {term : Nat}
    (pc : c.pc = .invoking conn term) (named : c.ns ≠ []) {p : Nat} {d : Coordinator}
    (hp : σ.cluster.procs[p]? = some d) (serves : d.isServable cfg σ.cluster.now c.ns = true)
    (ctx : Nsmeta.Metadata) (noKey : Nsmeta.get ctx Nsmeta.key = [])
    (noTerm : Nsmeta.get ctx Nsmeta.termKey = []) (bounded : d.shardTerm cfg c.ns < 2 ^ 63) :
    let stamp := some (Nsmeta.withTerm ctx c.ns term)
    Nsmeta.from_ stamp = c.ns ∧ Nsmeta.termFrom stamp ≤ d.shardTerm cfg c.ns ∧
      (Nsmeta.termFrom stamp = d.shardTerm cfg c.ns ↔
        ∃ kv, σ.cluster.etcd.get (shardKey cfg.pfx (cfg.shardOf c.ns)) = some kv ∧
          kv.value = conn.addr ∧ kv.modRevision = term ∧ conn.addr = d.nodeID) := by
  have reach := cluster_reachable h
  have inv : Fencing.Inv cfg σ.cluster :=
    Fencing.reachable_inv (reach.mono (fun _ h => h) fun _ _ _ => trivial)
  obtain ⟨-, holds⟩ := SplitBrain.servable_holds (SplitBrain.reachable_inv reach) hp serves
  obtain ⟨kv, record, value, -, revision⟩ := holds.record
  have stamped : Committed σ.cluster (cfg.shardOf c.ns) conn.addr term := by
    have real := (reachable_committed h).calls c hc
    simpa only [CallReal, pc] using real
  obtain ⟨le, same⟩ := stamped.fenced inv record
  rw [revision] at le same
  have read : Nsmeta.termFrom (some (Nsmeta.withTerm ctx c.ns term)) = term := by
    rw [Coordinator.shardTerm] at bounded
    rw [Nsmeta.termFrom_withTerm ctx (by omega) (by omega), if_pos noTerm]
  dsimp only
  rw [read, Nsmeta.from_withTerm ctx named, if_pos noKey]
  refine ⟨rfl, by exact_mod_cast le, ?_⟩
  constructor
  · intro equal
    have equal : term = d.ownerTerm (cfg.shardOf c.ns) := by exact_mod_cast equal
    have addr := same equal
    exact ⟨kv, record, addr.symm, revision.trans equal.symm, addr.trans value⟩
  · rintro ⟨kv', record', -, rfl, -⟩
    obtain rfl := Option.some.inj (record.symm.trans record')
    rw [revision]
    rfl

instance (σ : System E R) : DecidablePred (serving σ)
  | .cluster a => decidable_of_iff (SplitBrain.allowed σ.cluster a = true) (by
      simp [serving, ships])
  | .process a => decidable_of_iff (ships σ (.process a)) (by simp [serving])

/-- The shard moves while a call is on its way to its former owner. -/
theorem stamped_term_fenced_moved : ∃ (σ : System Unit Unit) (c : Call Unit Unit)
    (d : Coordinator), Reachable (System.Initial sample)
      (Transition.Next (System.exec sampleUnit sample) serving) σ ∧
    c ∈ σ.process.calls ∧ c.pc = .invoking ⟨0, str "a"⟩ 4 ∧
    σ.cluster.procs[2]? = some d ∧ d.isServable sample σ.cluster.now c.ns = true ∧
    Nsmeta.termFrom (some (Nsmeta.withTerm [] c.ns 4)) < d.shardTerm sample c.ns := by
  have ran : (execute (System.exec sampleUnit sample) (fun σ e => decide (serving σ e)) sampleSystem
      (firstCall ++ movesToA.map .cluster)).any (fun σ =>
        σ.process.calls.any (fun c => c.stamped = some (⟨0, str "a"⟩, 4) ∧
        c.ns = str "x") ∧
      σ.cluster.procs[2]?.any fun d => d.nodeID = str "A" ∧ d.shardTerm sample (str "x") < 2 ^ 63 ∧
        d.isServable sample σ.cluster.now (str "x") = true) = true := by
    decide +kernel
  obtain ⟨σ, hσ, test⟩ := (Option.any_eq_true _ _).mp ran
  simp only [decide_eq_true_eq, Option.any_eq_true, List.any_eq_true] at test
  obtain ⟨⟨c, hc, stamp, ns⟩, d, hd, name, bounded, serves⟩ := test
  have pc := Call.stamped_eq_some.mp stamp
  rw [← ns] at bounded serves
  have reached : Reachable (System.Initial sample)
      (Transition.Next (System.exec sampleUnit sample) serving) σ :=
    (reachable_of_execute hσ).mono (fun _ hs => hs ▸ sampleSystem_initial)
      fun _ _ => of_decide_eq_true
  have named : c.ns ≠ [] := by
    rw [ns]
    decide +kernel
  obtain ⟨-, le, current⟩ := stamped_term_fenced reached hc pc named hd serves [] rfl rfl
    bounded
  refine ⟨σ, c, d, reached, hc, pc, hd, serves, lt_of_le_of_ne le fun equal => ?_⟩
  obtain ⟨-, -, -, -, addr⟩ := current.mp equal
  rw [name] at addr
  exact absurd addr (by decide +kernel)

end Client

end MilvusCatalog

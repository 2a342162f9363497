import MilvusCatalog.SplitBrain

/-! What an unchanged term says about the time in between. The service keeps what it
has read of a namespace for as long as `ShardTerm` gives the same answer, so nobody
else may have served the namespace meanwhile. -/
namespace MilvusCatalog.Tenure
open Go Etcd Transition

/-- A record that is not newer than the store before a step was there before it. -/
theorem moved_back {pfx : Str} {e e' : Store} {cs : List Commit} (moved : Moved pfx e e' cs)
    {s : Nat} {kv : KeyValue} (hk : e'.get (shardKey pfx s) = some kv)
    (old : kv.modRevision ≤ e.revision) : e.get (shardKey pfx s) = some kv := by
  cases moved.record hk with
  | inl same => exact same
  | inr new =>
    have term : kv.modRevision = e.revision + 1 := (moved.commit new).1
    omega

section
variable {cfg : Config} (run : Run (exec cfg) fun σ a => SplitBrain.allowed σ a = true)

theorem revision_le {u v : Nat} (later : u ≤ v) :
    (run.state u).etcd.revision ≤ (run.state v).etcd.revision := by
  induction later with
  | refl => exact Nat.le_refl _
  | @step v _ ih =>
    obtain ⟨_, moved, -⟩ := exec_moved (run.step v)
    exact ih.trans moved.revision_le

/-- A record that is not newer than some time has been there since. -/
theorem record_since {s : Nat} {kv : KeyValue} {u w v : Nat} (huw : u ≤ w) (hwv : w ≤ v)
    (old : kv.modRevision ≤ (run.state u).etcd.revision)
    (hk : (run.state v).etcd.get (shardKey cfg.pfx s) = some kv) :
    (run.state w).etcd.get (shardKey cfg.pfx s) = some kv := by
  induction hwv with
  | refl => exact hk
  | @step v hwv ih =>
    obtain ⟨_, moved, -⟩ := exec_moved (run.step v)
    exact ih (moved_back moved hk (old.trans (revision_le run (huw.trans hwv))))

theorem node_at {u w p : Nat} {c : Coordinator} (huw : u ≤ w)
    (hp : (run.state u).procs[p]? = some c) :
    ∃ d, (run.state w).procs[p]? = some d ∧ d.nodeID = c.nodeID := by
  induction huw with
  | refl => exact ⟨c, hp, rfl⟩
  | @step w _ ih =>
    obtain ⟨b, hb, name⟩ := ih
    obtain ⟨d, hd, stepped⟩ := exec_survives (run.step w) hb
    exact ⟨d, hd, stepped.nodeID.trans name⟩

end

/-- **Same term, same tenure.** When a namespace is servable at two times of a run under
the same `ShardTerm`, then on the same node, and at every time in between the record of
the shard was the same one and the namespace was servable on no other node. -/
theorem same_term_exclusive {cfg : Config}
    (run : Run (exec cfg) fun σ a => SplitBrain.allowed σ a = true)
    (history : Reachable (Initial cfg) (SplitBrain.Allowed cfg) (run.state 0)) {ns : Str}
    {u v p q : Nat} {c d : Coordinator} (huv : u ≤ v) (hp : (run.state u).procs[p]? = some c)
    (hq : (run.state v).procs[q]? = some d)
    (first : c.isServable cfg (run.state u).now ns = true)
    (again : d.isServable cfg (run.state v).now ns = true)
    (same : d.shardTerm cfg ns = c.shardTerm cfg ns) :
    q = p ∧ ∀ w, u ≤ w → w ≤ v →
      (run.state w).etcd.get (shardKey cfg.pfx (cfg.shardOf ns)) =
        (run.state u).etcd.get (shardKey cfg.pfx (cfg.shardOf ns)) ∧
      ∀ (r : Nat) (b : Coordinator), (run.state w).procs[r]? = some b →
        b.isServable cfg (run.state w).now ns = true → r = p := by
  have inv (t : Nat) : SplitBrain.Inv cfg (run.state t) :=
    SplitBrain.reachable_inv (run.reachable (fun _ _ allowed => allowed) history t)
  obtain ⟨kv, hk, value, -, term⟩ := (SplitBrain.servable_holds (inv u) hp first).2.record
  obtain ⟨kv', hk', -, -, term'⟩ := (SplitBrain.servable_holds (inv v) hq again).2.record
  have old : kv'.modRevision ≤ (run.state u).etcd.revision := by
    rw [term', show d.ownerTerm _ = c.ownerTerm _ from same, ← term]
    exact ((run.state u).etcd.sound _ kv hk).modified
  have between {w : Nat} (huw : u ≤ w) (hwv : w ≤ v) := record_since run huw hwv old hk'
  obtain rfl := Option.some.inj (hk.symm.trans (between (Nat.le_refl u) huv))
  have only (w : Nat) (huw : u ≤ w) (hwv : w ≤ v) (r : Nat) (b : Coordinator)
      (hr : (run.state w).procs[r]? = some b)
      (serves : b.isServable cfg (run.state w).now ns = true) : r = p := by
    obtain ⟨kv', hk', value', -⟩ := (SplitBrain.servable_holds (inv w) hr serves).2.record
    obtain rfl := Option.some.inj ((between huw hwv).symm.trans hk')
    obtain ⟨c', hc', name⟩ := node_at run huw hp
    exact (inv w).ids r p b c' hr hc' (value'.symm.trans (value.trans name.symm))
  exact ⟨only v huv (Nat.le_refl v) q d hq again, fun w huw hwv =>
    ⟨(between huw hwv).trans hk.symm, only w huw hwv⟩⟩

/-- After its round node `a` runs another one, while `b` runs its first. -/
def aRunsAgain : List Action :=
  SplitBrain.aServes ++ (List.replicate 8 [.call 1 .ok, .call 0 .ok]).flatten

theorem same_term_exclusive_aRunsAgain :
    ∃ (run : Run (exec sample) fun σ a => SplitBrain.allowed σ a = true) (c d : Coordinator),
      (run.state 16).procs[0]? = some c ∧ (run.state 32).procs[0]? = some d ∧
      d.isServable sample (run.state 32).now (str "x") = true ∧
      (run.state 24).etcd.get (shardKey sample.pfx (sample.shardOf (str "x"))) =
        (run.state 16).etcd.get (shardKey sample.pfx (sample.shardOf (str "x"))) := by
  have ran : (execute (exec sample) SplitBrain.allowed sampleStart aRunsAgain).isSome := by
    decide +kernel
  obtain ⟨τ, hτ⟩ := Option.isSome_iff_exists.mp ran
  obtain ⟨run, states⟩ : ∃ run : Run (exec sample) fun σ a => SplitBrain.allowed σ a = true,
      padded (exec sample) (.tick 0) aRunsAgain sampleStart = run.state :=
    ⟨.padded hτ fun _ => ⟨rfl, rfl⟩, rfl⟩
  have serves : ∀ t ∈ [16, 32],
      (padded (exec sample) (.tick 0) aRunsAgain sampleStart t).procs[0]?.any (fun c =>
        c.isServable sample 1 (str "x") ∧ c.shardTerm sample (str "x") = 4) = true ∧
      (padded (exec sample) (.tick 0) aRunsAgain sampleStart t).now = 1 := by decide +kernel
  simp only [states, List.forall_mem_cons, Option.any_eq_true, decide_eq_true_eq] at serves
  obtain ⟨⟨⟨c, hc, first, term⟩, start⟩, ⟨⟨d, hd, again, same⟩, ended⟩, -⟩ := serves
  have history : Initial sample (run.state 0) := states ▸ sampleStart_initial
  have exclusive := same_term_exclusive run (.start history) (by decide) hc hd
    (start.symm ▸ first) (ended.symm ▸ again) (same.trans term.symm)
  exact ⟨run, c, d, hc, hd, ended.symm ▸ again, (exclusive.2 24 (by decide) (by decide)).1⟩

end MilvusCatalog.Tenure

import MilvusCatalog.Convergence.Crew

/-! Failover. Once a crew of nodes is left to itself, it takes over every shard: the
run of the crew by itself is one of the runs that stabilise. -/
namespace MilvusCatalog.Convergence
open Go Etcd Transition

/-! ## The crew by itself -/

section Step

variable {cfg : Config} {σ σ' : Cluster} {a : Action} {p : Nat} {c d : Coordinator}

/-- The cluster with only the nodes of the list, and no clients. -/
def only (crew : List Nat) (σ : Cluster) : Cluster :=
  { σ with
    procs := crew.map fun p => (σ.procs[p]?).getD (newCoordinator [] 0)
    inflight := []
    readers := []
    routeMaps := [] }

/-- An action as the chosen nodes see it. -/
def seenBy (crew : List Nat) : Action → Action
  | .call p o => if p ∈ crew then .call (crew.idxOf p) o else .tick 0
  | .keepAlive p => if p ∈ crew then .keepAlive (crew.idxOf p) else .tick 0
  | .tick d => .tick d
  | _ => .tick 0

theorem only_procs {crew : List Nat} (there : ∀ p ∈ crew, p < σ.procs.length) {i : Nat} :
    (only crew σ).procs[i]? = some c ↔ ∃ p, crew[i]? = some p ∧ σ.procs[p]? = some c := by
  simp only [only, List.getElem?_map, Option.map_eq_some_iff]
  constructor
  · rintro ⟨p, hi, hc⟩
    have lt := there p (List.mem_of_getElem? hi)
    rw [List.getElem?_eq_getElem lt, Option.getD_some] at hc
    exact ⟨p, hi, hc ▸ List.getElem?_eq_getElem lt⟩
  · rintro ⟨p, hi, hc⟩
    exact ⟨p, hi, by rw [hc, Option.getD_some]⟩

theorem only_update_of_mem {crew : List Nat} (nodup : crew.Nodup) (mem : p ∈ crew)
    (hp : σ.procs[p]? = some c) :
    only crew (σ.update p d) = (only crew σ).update (crew.idxOf p) d := by
  have lt := (List.getElem?_eq_some_iff.mp hp).1
  suffices (only crew (σ.update p d)).procs = (only crew σ).procs.set (crew.idxOf p) d by
    simpa [only, Cluster.update] using this
  refine List.ext_getElem (by simp [only]) fun i hi _ => ?_
  have bound : i < crew.length := by simpa [only] using hi
  simp only [only, Cluster.update, List.getElem_map, List.getElem_set]
  by_cases same : crew.idxOf p = i
  · have : crew[i] = p := by
      subst same
      exact List.getElem_idxOf bound
    simp [this, same, lt]
  · have : p ≠ crew[i] := by
      rintro rfl
      exact same (nodup.idxOf_getElem i bound)
    rw [if_neg same, List.getElem?_set_ne this]

theorem only_update_of_not_mem {crew : List Nat} (other : p ∉ crew) :
    only crew (σ.update p d) = only crew σ := by
  suffices (only crew (σ.update p d)).procs = (only crew σ).procs by
    simpa [only, Cluster.update] using this
  refine List.map_congr_left fun q hq => ?_
  have : p ≠ q := fun same => other (same ▸ hq)
  simp only [Cluster.update, List.getElem?_set_ne this]

/-- Once nothing stirs, every step is one of the crew by itself, or none to it. -/
theorem only_step {crew : List Nat} (manned : Manned cfg crew σ) (ha : calm cfg crew σ a = true)
    (still : ¬ stirs cfg σ a) (step : exec cfg σ a = some σ') :
    allowed (seenBy crew a) = true ∧
      exec cfg (only crew σ) (seenBy crew a) = some (only crew σ') := by
  have there : ∀ p ∈ crew, p < σ.procs.length := fun p hp => manned.there hp
  have at_ {p : Nat} {c : Coordinator} (hp : σ.procs[p]? = some c) (mem : p ∈ crew) :
      (only crew σ).procs[crew.idxOf p]? = some c :=
    (only_procs there).mpr ⟨p, List.getElem?_idxOf mem, hp⟩
  cases exec_step step with
  | @call p o c hp =>
    cases calm_call ha hp with
    | inl crews =>
      obtain ⟨mem, rfl⟩ := crews
      have quiet : (c.issue cfg σ.etcd .ok).sent = [] := by
        refine List.eq_nil_iff_forall_not_mem.mpr fun r hr => ?_
        cases (Coordinator.mem_issue_sent hr).1
      simp only [seenBy, if_pos mem]
      refine ⟨rfl, ?_⟩
      have set := only_update_of_mem (σ := σ.wrote (c.issue cfg σ.etcd .ok))
        (d := c.resume cfg σ.etcd σ.now .ok) manned.distinct mem hp
      rw [set]
      simp only [exec, at_ hp mem]
      simp [only, Cluster.wrote, quiet]
    | inr others =>
      obtain ⟨other, rests, old⟩ := others
      obtain ⟨same, commits⟩ := issue_outdated rests old manned.owners o
      rw [only_update_of_not_mem other]
      simp [seenBy, other, allowed, exec, only, Cluster.wrote, same, commits]
  | @deliver k r hr =>
    have old : outdated cfg σ.etcd r = true := by
      by_contra live
      exact still ⟨r, hr, by simpa using live⟩
    simp [seenBy, allowed, exec, only, apply_outdated old manned.owners]
  | tick => exact ⟨rfl, rfl⟩
  | @keepAlive p c hp watching =>
    by_cases mem : p ∈ crew
    · rw [only_update_of_mem manned.distinct mem hp]
      simp only [seenBy, if_pos mem]
      refine ⟨rfl, ?_⟩
      simp only [exec, Cluster.member, at_ hp mem, if_pos watching]
      rfl
    · rw [only_update_of_not_mem mem]
      simp only [seenBy, if_neg mem]
      exact ⟨rfl, rfl⟩
  | keepAliveEnds | exitLoop | close | leave =>
    simp only [calm, decide_eq_true_eq] at ha
    rw [only_update_of_not_mem ha]
    exact ⟨rfl, rfl⟩
  | expire =>
    rw [Store.revoke_dead still]
    exact ⟨rfl, rfl⟩
  | revoked hp =>
    rw [Store.revoke_dead fun live => still ⟨rfl, _, hp, live⟩]
    exact ⟨rfl, rfl⟩
  | unrevoked | routeMembers | routeMap => exact ⟨rfl, rfl⟩
  | spawn | request => cases ha

/-- The crew by itself are the members, wherever in their rounds they stand. -/
theorem only_members {crew : List Nat} (manned : Manned cfg crew σ)
    (layout : Layout cfg.pfx σ.etcd) :
    Members cfg (listMembers cfg.pfx σ.etcd) (only crew σ) := by
  have there : ∀ p ∈ crew, p < σ.procs.length := fun p hp => manned.there hp
  refine ⟨manned.named, layout, rfl, ?_, ?_, ?_, ?_⟩
  · intro i c hi
    obtain ⟨p, at_, hp⟩ := (only_procs there).mp hi
    have mem := List.mem_of_getElem? at_
    obtain ⟨running, live⟩ := manned.up mem hp
    exact ⟨manned.member mem hp, live, running⟩
  · intro i j c d hi hj same
    obtain ⟨p, left, hp⟩ := (only_procs there).mp hi
    obtain ⟨q, right, hq⟩ := (only_procs there).mp hj
    obtain rfl := manned.ids p (List.mem_of_getElem? left) q (List.mem_of_getElem? right) c hp d hq
      same
    exact (List.getElem?_inj (List.getElem?_eq_some_iff.mp left).1 manned.distinct).mp
      (left.trans right.symm)
  · intro m hm
    obtain ⟨p, mem, c, hp, name⟩ := manned.listed m hm
    exact ⟨_, c, (only_procs there).mpr ⟨p, List.getElem?_idxOf mem, hp⟩, name⟩
  · intro s hs m own
    exact manned.owners s hs m own

end Step

/-! ## The runs -/

section Runs

variable {cfg : Config} {crew : List Nat}
  (run : Run (exec cfg) fun σ a => calm cfg crew σ a = true)

theorem manned_at (manned : Manned cfg crew (run.state 0)) (t : Nat) :
    Manned cfg crew (run.state t) ∧
      listMembers cfg.pfx (run.state t).etcd = listMembers cfg.pfx (run.state 0).etcd := by
  induction t with
  | zero => exact ⟨manned, rfl⟩
  | succ t ih =>
    obtain ⟨stays, members⟩ := step_manned ih.1 (run.permitted t) (run.step t)
    exact ⟨stays, members.trans ih.2⟩

/-- In the end only the crew writes. -/
theorem eventually_still (manned : Manned cfg crew (run.state 0)) :
    ∃ T, ∀ t, T ≤ t → ¬ stirs cfg (run.state t) (run.action t) := by
  have falls (t : Nat) :=
    step_unsettled (manned_at run manned t).1 (run.permitted t) (run.step t)
  exact eventually_never (fun t => unsettled cfg (run.state t)) (fun t => (falls t).1)
    fun t => (falls t).2

/-- The run of the crew by itself, from the time on when nothing stirs. -/
def onlyRun (manned : Manned cfg crew (run.state 0)) {T : Nat}
    (still : ∀ t, T ≤ t → ¬ stirs cfg (run.state t) (run.action t)) : Rounds cfg where
  state t := only crew (run.state (T + t))
  action t := seenBy crew (run.action (T + t))
  permitted t := (only_step (manned_at run manned (T + t)).1 (run.permitted (T + t))
    (still (T + t) (Nat.le_add_right T t)) (run.step (T + t))).1
  step t := (only_step (manned_at run manned (T + t)).1 (run.permitted (T + t))
    (still (T + t) (Nat.le_add_right T t)) (run.step (T + t))).2

/-- The crew comes to hold and serve the placement among its nodes. -/
theorem crew_converges (history : Reachable (Initial cfg) (Any cfg) (run.state 0))
    (manned : Manned cfg crew (run.state 0)) (nonempty : crew ≠ [])
    (fair : ∀ p ∈ crew, ∀ t, ∃ n, run.action (t + n) = .call p .ok) :
    ∃ V, ∀ u, V ≤ u → (run.state u).etcd = (run.state V).etcd ∧
      Converged cfg crew (listMembers cfg.pfx (run.state 0).etcd) (run.state u) := by
  obtain ⟨T, still⟩ := eventually_still run manned
  obtain ⟨mannedT, members⟩ := manned_at run manned T
  have layout := reachable_layout (run.reachable (fun _ _ _ => trivial) history T)
  have start := only_members mannedT layout
  rw [members] at start
  obtain ⟨V, stable⟩ := stabilises (onlyRun run manned still) start (manned.nonempty nonempty) (by
    intro i hi t
    have hi : i < crew.length := by simpa [onlyRun, only] using hi
    obtain ⟨n, act⟩ := fair _ (List.getElem_mem hi) (T + t)
    refine ⟨n, ?_⟩
    rw [Nat.add_assoc] at act
    simp only [onlyRun, act, seenBy, if_pos (List.getElem_mem hi)]
    rw [manned.distinct.idxOf_getElem i hi])
  refine ⟨T + V, fun u hu => ?_⟩
  obtain ⟨w, rfl⟩ := Nat.exists_eq_add_of_le (show T ≤ u by omega)
  obtain ⟨same, listed, placed, node⟩ := stable w (by omega)
  refine ⟨same, listed, placed, fun p hp c hc => ?_⟩
  have mannedU := (manned_at run manned (T + w)).1
  refine node (crew.idxOf p) ?_ c ?_
  · have := List.idxOf_lt_length_iff.mpr hp
    simpa [onlyRun, only] using this
  · exact (only_procs fun q hq => mannedU.there hq).mpr ⟨p, List.getElem?_idxOf hp, hc⟩

end Runs

/-- In a cluster that has converged the node that rendezvous chooses for a shard has
its record, and passes the gate whenever its keepalive is fresh. -/
theorem Converged.chosen {cfg : Config} {crew : List Nat} {M : List Str} {σ : Cluster}
    (converged : Converged cfg crew M σ) (manned : Manned cfg crew σ) (nonempty : crew ≠ [])
    {s : Nat} (hs : s < shardCount) : ∃ p ∈ crew, ∃ c kv, σ.procs[p]? = some c ∧
      c.nodeID = cfg.rendezvous s M ∧ σ.etcd.get (shardKey cfg.pfx s) = some kv ∧
      kv.value = c.nodeID ∧ kv.lease = c.leaseID ∧ c.ownerTerm s = kv.modRevision ∧
      c.serves s = true := by
  have members := converged.members
  have mem : cfg.rendezvous s M ∈ M := by
    rw [← members]
    exact rendezvous_mem (weight cfg.xxhash) s (manned.nonempty nonempty) manned.named
  obtain ⟨p, hp, c, hc, name⟩ := manned.listed (cfg.rendezvous s M) (by rwa [members])
  obtain ⟨kv, record, value⟩ := converged.placed.record hs
  obtain ⟨bound, serves⟩ := converged.node p hp c hc
  obtain ⟨unmarked, owned⟩ := serves s
  rw [if_pos ⟨hs, name.symm⟩, record, Option.map_some] at owned
  refine ⟨p, hp, c, kv, hc, name, record, value.trans name.symm, bound s hs name.symm kv record,
    ?_, ?_⟩
  · rw [Coordinator.ownerTerm, owned, Option.getD_some]
  · simp [Coordinator.serves, owned, unmarked]

/-- **Failover.** After any history, once the listed members are the nodes of a crew
that run under live leases and the crew has no more faults, there is a time from
which on etcd is not written again, each node of the crew owns the shards that
rendezvous chooses it for, and every shard has exactly one node of the crew that
serves it, whenever its keepalive is fresh, under the term of a record that rides
this node's lease. -/
theorem survivors_take_over {cfg : Config} {crew : List Nat}
    (run : Run (exec cfg) fun σ a => calm cfg crew σ a = true)
    (history : Reachable (Initial cfg) (Any cfg) (run.state 0))
    (manned : Manned cfg crew (run.state 0)) (nonempty : crew ≠ [])
    (fair : ∀ p ∈ crew, ∀ t, ∃ n, run.action (t + n) = .call p .ok) :
    ∃ V, ∀ u, V ≤ u → (run.state u).etcd = (run.state V).etcd ∧
      (∀ p ∈ crew, ∀ c, (run.state u).procs[p]? = some c →
        c.ownedShards = (List.range shardCount).filter fun s =>
          cfg.rendezvous s (listMembers cfg.pfx (run.state 0).etcd) = c.nodeID) ∧
      ∀ s < shardCount, ∃ p ∈ crew, ∃ (c : Coordinator) (kv : KeyValue),
        (run.state u).procs[p]? = some c ∧ c.leaseID ∈ (run.state u).etcd.leases ∧
        c.nodeID = cfg.rendezvous s (listMembers cfg.pfx (run.state 0).etcd) ∧
        (run.state u).etcd.get (shardKey cfg.pfx s) = some kv ∧ kv.value = c.nodeID ∧
        kv.lease = c.leaseID ∧ c.ownerTerm s = kv.modRevision ∧
        (∀ ns, cfg.shardOf ns = s →
          c.isServable cfg (run.state u).now ns = c.fresh (run.state u).now) ∧
        ∀ q ∈ crew, ∀ d, (run.state u).procs[q]? = some d → d.serves s = true → q = p := by
  obtain ⟨V, stable⟩ := crew_converges run history manned nonempty fair
  refine ⟨V, fun u hu => ?_⟩
  obtain ⟨same, converged⟩ := stable u hu
  have mannedU := (manned_at run manned u).1
  refine ⟨same, fun p hp c hc => ?_, fun s hs => ?_⟩
  · refine List.filter_congr fun s hs => ?_
    obtain ⟨kv, record, -⟩ := converged.placed.record (List.mem_range.mp hs)
    rw [((converged.node p hp c hc).2 s).2, record]
    split <;> simp_all
  obtain ⟨p, hp, c, kv, hc, name, record, value, lease, term, serves⟩ :=
    converged.chosen mannedU nonempty hs
  refine ⟨p, hp, c, kv, hc, (mannedU.up hp hc).2, name, record, value, lease, term, ?_, ?_⟩
  · rintro ns rfl
    rw [Coordinator.isServable, serves, Bool.true_and]
  · intro q hq d hd served
    -- Whoever serves the shard has the id that rendezvous chooses, and ids are unique.
    have mine : cfg.rendezvous s (listMembers cfg.pfx (run.state 0).etcd) = d.nodeID := by
      by_contra other
      have := ((converged.node q hq d hd).2 s).2
      rw [if_neg fun both => other both.2] at this
      simp [Coordinator.serves, this] at served
    exact mannedU.ids q hq p hp d hd c hc (mine.symm.trans name.symm)

/-- Node `c` owns shard 0 when its lease ends. Node `b` has claimed one shard, has
another claim under way, and is started again at once, under a new lease. -/
def bRestarts : List Action :=
  sampleJoin 0 "c" ++ List.replicate 3 (.call 0 .ok) ++ sampleJoin 1 "a" ++ sampleJoin 2 "b" ++
    List.replicate 3 (.call 2 .ok) ++ [.call 2 .late, .expire 1] ++ sampleJoin 3 "b"

/-- The loop of `c` runs on, the claim of the earlier `b` arrives, and then `a` and
the later `b` are called in turn. -/
theorem survivors_take_over_bRestarts :
    ∃ (run : Run (exec sample) fun σ a => calm sample [1, 3] σ a = true) (V : Nat),
      run.action 0 = .call 0 .ok ∧ run.action 1 = .deliver 0 ∧
      shardOwner sample.pfx (run.state 0).etcd 0 = none ∧
      (∃ kv, (run.state 0).etcd.get (shardKey sample.pfx 1) = some kv ∧ kv.value = str "b" ∧
        kv.lease = 3) ∧
      ∀ s < shardCount, ∃ p ∈ [1, 3], ∃ (c : Coordinator) (kv : KeyValue),
        (run.state V).procs[p]? = some c ∧ c.nodeID = sample.rendezvous s [str "a", str "b"] ∧
        (run.state V).etcd.get (shardKey sample.pfx s) = some kv ∧ kv.lease = c.leaseID ∧
        c.ownerTerm s = kv.modRevision := by
  have fails : (execute (exec sample) (fun _ _ => true) sampleStart bRestarts).any (fun σ =>
      Manned sample [1, 3] σ ∧ listMembers sample.pfx σ.etcd = [str "a", str "b"] ∧
      shardOwner sample.pfx σ.etcd 0 = none ∧
      (σ.etcd.get (shardKey sample.pfx 1)).any (fun kv => kv.value = str "b" ∧ kv.lease = 3) ∧
      calm sample [1, 3] σ (.call 0 .ok) ∧ (exec sample σ (.call 0 .ok)).any fun σ₁ =>
        calm sample [1, 3] σ₁ (.deliver 0) ∧ (exec sample σ₁ (.deliver 0)).any fun σ₂ =>
          σ₂.procs.length = 4) = true := by decide +kernel
  obtain ⟨σ, hσ, test⟩ := (Option.any_eq_true _ _).mp fails
  simp only [decide_eq_true_eq, Option.any_eq_true] at test
  obtain ⟨manned, members, free, rides, calm₀, σ₁, first, calm₁, σ₂, second, nodes⟩ := test
  obtain ⟨turns, rfl, fair⟩ : ∃ run : Run (exec sample) fun σ a => calm sample [1, 3] σ a = true,
      run.state 0 = σ₂ ∧ ∀ p ∈ [1, 3], ∀ t, ∃ n, run.action (t + n) = .call p .ok :=
    exists_turns (by simp) (fun σ p hp => calm_crew hp) (by simp [nodes])
  obtain ⟨later, rfl, act₁, acts₁⟩ := turns.exists_cons calm₁ second
  obtain ⟨run, rfl, act₀, acts₀⟩ := later.exists_cons calm₀ first
  obtain ⟨V, stable⟩ := survivors_take_over run (sample_any hσ) manned (by simp) (by
    intro p hp t
    obtain ⟨n, act⟩ := fair p hp t
    exact ⟨n + 2, by rw [← Nat.add_assoc, acts₀, acts₁, act]⟩)
  refine ⟨run, V, act₀, (acts₀ 0).trans act₁, free, rides, fun s hs => ?_⟩
  obtain ⟨p, hp, c, kv, hc, -, name, record, -, lease, term, -⟩ :=
    (stable V (Nat.le_refl V)).2.2 s hs
  exact ⟨p, hp, c, kv, hc, members ▸ name, record, lease, term⟩

end MilvusCatalog.Convergence

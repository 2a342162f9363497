import MilvusCatalog.Cluster

/-! Leaving and losing the lease. Neither `Close` nor a lost membership touches
the gate, so a departed node keeps serving until its window has run out; the
gate is shut in time if the node was shut before it departed. -/
namespace MilvusCatalog.Departure
open Go Etcd Transition

/-- The lease has been given up by `Close`, or its loss has been signalled. -/
def departed (e : Store) (c : Coordinator) : Bool :=
  c.membership.lost || (c.membership.closing && decide (c.leaseID ∉ e.leases))

/-- The loop has ended and every shard still in the owned map is marked. -/
def drained (c : Coordinator) : Bool :=
  decide (c.pc = .stopped) && (List.range shardCount).all fun s => !c.serves s

def shut (c : Coordinator) (now : Nat) : Bool := !c.fresh now || drained c

/-- A step is guarded if every node that it makes departed is shut before it, and
no keepalive is recorded for a departed node that has not drained. -/
def guarded (cfg : Config) (σ : Cluster) (a : Action) : Bool :=
  match exec cfg σ a with
  | none => true
  | some σ' => ∀ p < σ.procs.length, ∀ c ∈ σ.procs[p]?, ∀ d ∈ σ'.procs[p]?,
      (departed σ'.etcd d → departed σ.etcd c ∨ shut c σ.now) ∧
      (a = .keepAlive p → departed σ.etcd c → drained c)

theorem drained_resume {cfg : Config} {c : Coordinator} {e : Store} {now : Nat} {o : Outcome}
    (h : drained c = true) : c.resume cfg e now o = c := by
  simp only [drained, Bool.and_eq_true, decide_eq_true_eq] at h
  simp only [Coordinator.resume, h.1]

/-- A node that is shut stays so, as long as no keepalive reopens its window. -/
theorem stepped_shut {cfg : Config} {σ σ' : Cluster} {a : Action} {q : Nat} {c d : Coordinator}
    (stepped : Stepped cfg σ q c a d) (later : σ.now ≤ σ'.now) (h : shut c σ.now = true)
    (gone : departed σ'.etcd d = true) (recorded : a = .keepAlive q → drained c = true) :
    shut d σ'.now = true := by
  simp only [shut, Bool.or_eq_true, Bool.not_eq_true'] at h ⊢
  have ages {m : Membership} {w : Int} (stale : m.fresh σ.now w = false) :
      m.fresh σ'.now w = false := m.fresh_antitone later w stale
  cases stepped with
  | stays | closes => exact h.imp ages id
  | ends | leaves => exact h.imp ages id
  | records => exact .inr (recorded rfl)
  | exits idle =>
    refine h.imp ages fun quiet => ?_
    simp [drained, idle] at quiet
  | @calls o =>
    rcases h with stale | quiet
    · refine .inl ?_
      have same : (c.resume cfg σ.etcd σ.now o).membership = c.membership := by
        refine Coordinator.resume_membership fun l hpc ok => ?_
        -- A node that has only just joined is not departed.
        simp [departed, Coordinator.resume, hpc, ok] at gone
      simp only [Coordinator.fresh, Coordinator.leaseWindow, same, Coordinator.resume_ttl]
      exact ages stale
    · exact .inr (by rwa [drained_resume quiet])

def Inv (σ : Cluster) : Prop :=
  ∀ (q : Nat) (c : Coordinator), σ.procs[q]? = some c → departed σ.etcd c = true →
    shut c σ.now = true

theorem step_inv {cfg : Config} {σ σ' : Cluster} {a : Action} (inv : Inv σ)
    (ha : guarded cfg σ a = true) (step : exec cfg σ a = some σ') : Inv σ' := by
  intro q d hq gone
  rcases exec_node step hq with ⟨c, hc, stepped⟩ | ⟨_, _, -, -, rfl⟩
  · simp only [guarded, step, decide_eq_true_eq] at ha
    obtain ⟨before, recorded⟩ := ha q (List.getElem?_eq_some_iff.mp hc).1 c hc d hq
    rcases before gone with old | closed
    · exact stepped_shut stepped (exec_now step) (inv q c hc old) gone fun e => recorded e old
    · refine stepped_shut stepped (exec_now step) closed gone fun e => recorded e ?_
      -- Recording changes neither end of the membership, so the node had departed before.
      subst e
      cases stepped with
      | stays other => exact absurd rfl other
      | records =>
        cases exec_step step
        exact gone
  · simp [departed, newCoordinator, Membership.absent] at gone

/-- Runs all of whose steps are guarded. -/
abbrev Guarded (cfg : Config) : Cluster → Cluster → Prop :=
  Next (exec cfg) fun σ a => guarded cfg σ a = true

theorem reachable_inv {cfg : Config} {σ : Cluster} (h : Reachable (Initial cfg) (Guarded cfg) σ) :
    Inv σ := by
  refine h.invariant (fun σ start => ?_) fun _ _ _ => step_inv
  intro q c hq
  simp [start.procs] at hq

theorem shut_not_servable (cfg : Config) {c : Coordinator} {now : Nat} (h : shut c now = true)
    (ns : Str) : c.isServable cfg now ns = false := by
  simp only [shut, Bool.or_eq_true, Bool.not_eq_true'] at h
  simp only [Coordinator.isServable, Bool.and_eq_false_iff]
  refine h.symm.imp (fun quiet => ?_) id
  simp only [drained, Bool.and_eq_true, decide_eq_true_eq, List.all_eq_true,
    Bool.not_eq_true'] at quiet
  exact quiet.2 _ (List.mem_range.mpr (shardOf_lt cfg.xxhash ns))

/-- **A departed node stops serving**, in every run in which nodes depart only
once they are shut: it serves no namespace, so whoever serves one of its shards
is another node. -/
theorem departed_not_servable {cfg : Config} {σ : Cluster}
    (h : Reachable (Initial cfg) (Guarded cfg) σ) {p : Nat} {c : Coordinator}
    (hp : σ.procs[p]? = some c) (gone : departed σ.etcd c = true) (ns : Str) :
    c.isServable cfg σ.now ns = false ∧
      ∀ (q : Nat) (d : Coordinator), σ.procs[q]? = some d → d.isServable cfg σ.now ns = true →
        q ≠ p := by
  have closed := shut_not_servable cfg (reachable_inv h p c hp gone) ns
  refine ⟨closed, fun q d hq serves e => ?_⟩
  subst e
  obtain rfl := Option.some.inj (hp.symm.trans hq)
  rw [closed] at serves
  cases serves

/-- Node `a` serves shard 0, waits for `d` nanoseconds and closes. -/
def aCloses (d : Nat) : List Action :=
  sampleJoin 0 "a" ++ sampleJoin 1 "b" ++ List.replicate 8 (.call 0 .ok) ++
    [.tick d, .close 0, .exitLoop 0, .leave 0, .revoke 0 true]

/-- Half of ten seconds after its last keepalive a node may leave. -/
theorem departed_not_servable_aCloses : ∃ (σ : Cluster) (c : Coordinator),
    Reachable (Initial sample) (Guarded sample) σ ∧ σ.procs[0]? = some c ∧
    departed σ.etcd c = true ∧ c.serves 0 = true ∧
    c.isServable sample σ.now (str "x") = false := by
  obtain ⟨σ, hσ⟩ : ∃ σ, execute (exec sample) (guarded sample) sampleStart
      (aCloses 5000000000) = some σ := Option.isSome_iff_exists.mp (by decide +kernel)
  have facts : (execute (exec sample) (guarded sample) sampleStart (aCloses 5000000000)).map
      (fun σ => σ.procs[0]?.map fun c => (departed σ.etcd c, c.serves 0)) =
      some (some (true, true)) := by decide +kernel
  rw [hσ] at facts
  simp only [Option.map_some, Option.some.injEq, Option.map_eq_some_iff, Prod.mk.injEq] at facts
  obtain ⟨c, hc, gone, serves⟩ := facts
  have reach := sample_reachable hσ
  exact ⟨σ, c, reach, hc, gone, serves, (departed_not_servable reach hc gone (str "x")).1⟩

/-- A node that closes at once has no lease and still serves. -/
theorem closed_node_serves : ∃ (σ : Cluster) (c : Coordinator),
    Reachable (Initial sample) (Any sample) σ ∧ σ.procs[0]? = some c ∧
    departed σ.etcd c = true ∧ c.isServable sample σ.now (str "x") = true := by
  obtain ⟨σ, hσ⟩ : ∃ σ, execute (exec sample) (fun _ _ => true) sampleStart (aCloses 0) = some σ :=
    Option.isSome_iff_exists.mp (by decide +kernel)
  have facts : (execute (exec sample) (fun _ _ => true) sampleStart (aCloses 0)).map
      (fun σ => σ.procs[0]?.map fun c => (departed σ.etcd c, c.isServable sample σ.now (str "x"))) =
      some (some (true, true)) := by decide +kernel
  rw [hσ] at facts
  simp only [Option.map_some, Option.some.injEq, Option.map_eq_some_iff, Prod.mk.injEq] at facts
  obtain ⟨c, hc, gone, serves⟩ := facts
  exact ⟨σ, c, sample_any hσ, hc, gone, serves⟩

end MilvusCatalog.Departure

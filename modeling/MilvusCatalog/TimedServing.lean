import MilvusCatalog.LeaseWindow

/-! No split brain by the clock. That a lease ends only when its holder is no
longer fresh is here not assumed but follows from prompt recordings. -/
namespace MilvusCatalog.TimedServing
open Go Etcd Transition LeaseWindow

/-- Ids are not empty and belong to one incarnation, TTLs are positive, a call
that fails has taken effect by then or never will, nobody closes a node, and only
nodes write. -/
def orderly (σ : Cluster) : Action → Bool
  | .spawn nodeID ttl => nodeID ≠ [] ∧ 0 < ttl ∧ ∀ c ∈ σ.procs, c.nodeID ≠ nodeID
  | .call _ o => o ≠ .late
  | .deliver _ | .close _ | .leave _ | .revoke _ _ | .request _ _ => false
  | _ => true

/-- Nothing is asked of the end of a lease but that its deadline has passed. -/
def allowed (τ : Timed) (a : TimedAction) : Bool :=
  prompt τ a && match a with
    | .act a => orderly τ.cluster a
    | .renew _ => true

structure Inv (cfg : Config) (τ : Timed) : Prop where
  window : LeaseWindow.Inv τ
  serving : SplitBrain.Inv cfg τ.cluster
  ttl : ∀ (q : Nat) (c : Coordinator), τ.cluster.procs[q]? = some c → 0 < c.ttl
  answers : ∀ l ∈ τ.responses, l ≠ 0
  ended : ∀ (q : Nat) (c : Coordinator), τ.cluster.procs[q]? = some c → SplitBrain.lease c ≠ 0 →
    SplitBrain.lease c ∉ τ.cluster.etcd.leases → τ.deadline (SplitBrain.lease c) ≤ τ.now

theorem leaseWindow_pos {c : Coordinator} (h : 0 < c.ttl) : 0 < c.leaseWindow := by
  unfold Coordinator.leaseWindow
  rw [Int.tdiv_eq_ediv_of_nonneg (by omega)]
  omega

section
variable {cfg : Config} {τ : Timed} {a : Action} {σ : Cluster}

/-- A lease with a window left is alive. -/
theorem Inv.live (inv : Inv cfg τ) {q : Nat} {c : Coordinator}
    (hq : τ.cluster.procs[q]? = some c) (nonzero : SplitBrain.lease c ≠ 0)
    (left : τ.now + c.leaseWindow ≤ τ.deadline (SplitBrain.lease c)) :
    SplitBrain.lease c ∈ τ.cluster.etcd.leases := by
  by_contra gone
  have ended := inv.ended q c hq nonzero gone
  have window := leaseWindow_pos (inv.ttl q c hq)
  omega

/-- The clock gives what the runs without split brain ask of each step. -/
theorem Inv.step_allowed (inv : Inv cfg τ) (ha : allowed τ (.act a) = true)
    (ready : τ.ready a = true) : SplitBrain.allowed τ.cluster a = true := by
  simp only [allowed, Bool.and_eq_true] at ha
  obtain ⟨prompt, orderly⟩ := ha
  cases a with
  | spawn nodeID ttl =>
    simp only [TimedServing.orderly, SplitBrain.allowed, decide_eq_true_eq] at orderly ⊢
    exact ⟨orderly.1, orderly.2.2⟩
  | call p o =>
    simp only [TimedServing.orderly, SplitBrain.allowed, decide_eq_true_eq] at orderly ⊢
    refine ⟨orderly, ?_⟩
    rintro c hc rfl
    cases hpc : c.pc with
    | keepingAlive l =>
      have asked : SplitBrain.lease c = l := by simp only [SplitBrain.lease, hpc]
      have nonzero := (inv.serving.node p c hc).asked l (.inr hpc)
      simp only [LeaseWindow.prompt, decide_eq_true_eq] at prompt
      have left := prompt c hc
      simp only [LeaseWindow.prompt.joins, hpc, decide_eq_true_eq] at left
      have live := inv.live hc (asked ▸ nonzero) (by rwa [asked])
      simpa only [SplitBrain.allowed.records, asked, decide_eq_true_eq] using live
    | _ => rfl
  | expire l => exact inv.window.expire_allowed ready
  | keepAlive p =>
    simp only [SplitBrain.allowed, LeaseWindow.prompt, Timed.ready,
      decide_eq_true_eq] at prompt ready ⊢
    intro c hc
    have nonzero := inv.answers _ (ready c hc)
    have asked := (inv.serving.node p c hc).lease_eq nonzero
    have live := inv.live hc (by rwa [asked]) (by rw [asked]; exact prompt c hc)
    rwa [asked] at live
  | deliver | close | leave | revoke | request => cases orderly
  | _ => rfl

theorem stepped_ttl {q : Nat} {c d : Coordinator} {σ : Cluster} (h : Stepped cfg σ q c a d) :
    d.ttl = c.ttl := by
  cases h with
  | calls => exact c.resume_ttl cfg σ.etcd σ.now _
  | _ => rfl

/-- Where a lease that a node still counts on has gone in one step. -/
theorem lost_lease (inv : Inv cfg τ) (ha : allowed τ (.act a) = true)
    (step : exec cfg τ.cluster a = some σ) {q : Nat} {c d : Coordinator}
    (hc : τ.cluster.procs[q]? = some c) (stepped : Stepped cfg τ.cluster q c a d)
    (kept : SplitBrain.lease d = SplitBrain.lease c) (nonzero : SplitBrain.lease c ≠ 0)
    (live : SplitBrain.lease c ∈ τ.cluster.etcd.leases)
    (gone : SplitBrain.lease c ∉ σ.etcd.leases) : a = .expire (SplitBrain.lease c) := by
  simp only [allowed, Bool.and_eq_true] at ha
  obtain ⟨-, orderly⟩ := ha
  cases exec_step step with
  | @call p o b hp =>
    simp only [Cluster.update, Cluster.wrote] at gone
    obtain ⟨same, -⟩ | ⟨-, granted, -⟩ | ⟨l, hpc, revoked, -⟩ | ⟨r, -, applied⟩ :=
      b.issue_cases cfg τ.cluster.etcd o
    · rw [same] at gone
      exact absurd live gone
    · rw [granted] at gone
      exact absurd (List.mem_cons_of_mem _ live) gone
    · -- A start that fails gives up its own lease, and then counts on none.
      simp only [revoked, Store.mem_leases_revoke, live, true_and, ne_eq, not_not] at gone
      have asked : SplitBrain.lease b = SplitBrain.lease c := by
        rw [gone]
        simp only [SplitBrain.lease, hpc]
      obtain rfl := inv.serving.leases p q b c hp hc asked (asked ▸ nonzero)
      obtain rfl := Option.some.inj (hp.symm.trans hc)
      have none := ((inv.serving.node p b hp).joining (hpc ▸ trivial)).1
      cases stepped with
      | stays other => exact absurd rfl other
      | calls =>
        refine absurd ?_ nonzero
        rw [← kept]
        simp only [Coordinator.resume, hpc]
        exact none
    · rw [applied.leases.1] at gone
      exact absurd live gone
  | @expire l =>
    simp only [Store.mem_leases_revoke, live, true_and, ne_eq, not_not] at gone
    rw [gone]
  | deliver | revoked | request => cases orderly
  | _ => exact absurd live gone

/-- After a step, a lease that a node counts on and that is gone was granted
before the step and has reached its deadline. -/
theorem step_ended (inv : Inv cfg τ) (ha : allowed τ (.act a) = true) (ready : τ.ready a = true)
    (step : exec cfg τ.cluster a = some σ) {q : Nat} {d : Coordinator}
    (hq : σ.procs[q]? = some d) (nonzero : SplitBrain.lease d ≠ 0)
    (gone : SplitBrain.lease d ∉ σ.etcd.leases) :
    SplitBrain.lease d < τ.cluster.etcd.nextLease ∧ τ.deadline (SplitBrain.lease d) ≤ τ.now := by
  obtain ⟨c, hc, stepped⟩ | ⟨_, _, -, -, rfl⟩ := exec_node step hq
  · obtain kept | zero | ⟨new, rfl, granting⟩ :=
      SplitBrain.stepped_lease stepped (inv.serving.node q c hc)
    · rw [kept] at nonzero gone ⊢
      refine ⟨inv.serving.known q c hc, ?_⟩
      by_cases live : SplitBrain.lease c ∈ τ.cluster.etcd.leases
      · obtain rfl := lost_lease inv ha step hc stepped kept nonzero live gone
        simpa only [Timed.ready, decide_eq_true_eq] using ready
      · exact inv.ended q c hc nonzero live
    · exact absurd zero nonzero
    · cases exec_step step with
      | call hp =>
        obtain rfl := Option.some.inj (hp.symm.trans hc)
        refine absurd ?_ gone
        simp [new, Coordinator.issue, granting, Cluster.update, Cluster.wrote, Issued.quiet,
          Store.grant]
  · exact absurd rfl nonzero

theorem step_ttl (inv : Inv cfg τ) (ha : allowed τ (.act a) = true)
    (step : exec cfg τ.cluster a = some σ) (q : Nat) (d : Coordinator)
    (hq : σ.procs[q]? = some d) : 0 < d.ttl := by
  obtain ⟨c, hc, stepped⟩ | ⟨nodeID, ttl, rfl, -, rfl⟩ := exec_node step hq
  · rw [stepped_ttl stepped]
    exact inv.ttl q c hc
  · simp only [allowed, orderly, Bool.and_eq_true, decide_eq_true_eq] at ha
    exact ha.2.2.1

theorem mem_unread {l : Nat} (h : l ∈ τ.unread a) : l ∈ τ.responses := by
  cases a with
  | keepAlive p =>
    simp only [Timed.unread] at h
    split at h
    · exact List.mem_of_mem_erase h
    · exact h
  | _ => exact h

end

theorem step_inv {cfg : Config} {τ τ' : Timed} {a : TimedAction} (inv : Inv cfg τ)
    (ha : allowed τ a = true) (timed : timedExec cfg τ a = some τ') : Inv cfg τ' := by
  have window := LeaseWindow.step_inv inv.window ((Bool.and_eq_true _ _).mp ha).1 timed
  cases timedExec_step timed with
  | act ready _ step =>
    refine ⟨window, SplitBrain.step_inv inv.serving (inv.step_allowed ha ready) step,
      step_ttl inv ha step, fun l hl => inv.answers l (mem_unread hl), ?_⟩
    intro q d hq nonzero gone
    obtain ⟨-, past⟩ := step_ended inv ha ready step hq nonzero gone
    have later := exec_now step
    simp only [Timed.now] at past ⊢
    omega
  | grant ready _ step =>
    refine ⟨window, SplitBrain.step_inv inv.serving (inv.step_allowed ha ready) step,
      step_ttl inv ha step, fun l hl => inv.answers l (mem_unread hl), ?_⟩
    intro q d hq nonzero gone
    obtain ⟨known, past⟩ := step_ended inv ha ready step hq nonzero gone
    have later := exec_now step
    simp only [Timed.now, Function.update_of_ne (Nat.ne_of_lt known)] at past ⊢
    omega
  | @renew l live early =>
    refine ⟨window, inv.serving, inv.ttl, ?_, ?_⟩
    · intro l' hl
      cases List.mem_append.mp hl with
      | inl old => exact inv.answers l' old
      | inr new => exact List.mem_singleton.mp new ▸ Store.ne_zero_of_live live
    · intro q c hq nonzero gone
      have other : SplitBrain.lease c ≠ l := fun same => gone (same ▸ live)
      simpa only [Timed.now, Function.update_of_ne other] using inv.ended q c hq nonzero gone

/-- Before any node has started and any answer has been sent. -/
structure Start (cfg : Config) (τ : Timed) : Prop extends TimedInitial cfg τ where
  quiet : τ.responses = []

abbrev Allowed (cfg : Config) : Timed → Timed → Prop :=
  Next (timedExec cfg) fun τ a => allowed τ a = true

theorem reachable_inv {cfg : Config} {τ : Timed} (h : Reachable (Start cfg) (Allowed cfg) τ) :
    Inv cfg τ := by
  refine h.invariant (fun τ start => ?_) fun _ _ _ => step_inv
  have none := start.cluster.procs
  exact ⟨⟨by simp [none], by simp [none], start.capped⟩, SplitBrain.initial_inv start.cluster,
    by simp [none], by simp [start.quiet], by simp [none]⟩

/-- **No split brain, by the clock.** In every run in which a node records a
keepalive only while its lease has a whole window left, and leases end no sooner
than their deadline: a namespace is servable on at most one node, the record of
its shard is then that node's, under its live lease and with the term the node
reports, and that lease has time left. -/
theorem one_server {cfg : Config} {τ : Timed} (h : Reachable (Start cfg) (Allowed cfg) τ)
    (ns : Str) {p : Nat} {c : Coordinator} (hp : τ.cluster.procs[p]? = some c)
    (serves : c.isServable cfg τ.now ns = true) :
    (∀ (q : Nat) (d : Coordinator), τ.cluster.procs[q]? = some d →
      d.isServable cfg τ.now ns = true → q = p) ∧
    τ.now < τ.deadline c.leaseID ∧
    ∃ kv, τ.cluster.etcd.get (shardKey cfg.pfx (cfg.shardOf ns)) = some kv ∧
      kv.value = c.nodeID ∧ kv.lease = c.leaseID ∧ c.leaseID ∈ τ.cluster.etcd.leases ∧
      kv.modRevision = c.ownerTerm (cfg.shardOf ns) := by
  have inv := reachable_inv h
  obtain ⟨live, holds⟩ := SplitBrain.servable_holds inv.serving hp serves
  obtain ⟨kv, hk, value, lease, term⟩ := holds.record
  have fresh : c.fresh τ.now = true := by
    simp only [Coordinator.isServable, Bool.and_eq_true] at serves
    exact serves.2
  exact ⟨fun q d hq other => SplitBrain.servable_unique inv.serving hp hq serves other,
    inv.window.fresh hp fresh, kv, hk, value, lease, live, term⟩

theorem sampleTimed_start : Start sample sampleTimed := ⟨sampleTimed_initial, rfl⟩

/-- Node `a` serves shard 0 and reads one renewal; the lease of `b` runs out. -/
def bEnds : List TimedAction :=
  SplitBrain.aServes.map .act ++ [.act (.tick 4000000000), .renew 1, .act (.keepAlive 0),
    .act (.tick 3000000000), .renew 1, .act (.keepAlive 0), .act (.tick 4000000000),
    .act (.expire 2)]

theorem one_server_bEnds : ∃ (τ : Timed) (c : Coordinator),
    Reachable (Start sample) (Allowed sample) τ ∧ τ.cluster.procs[0]? = some c ∧
    c.isServable sample τ.now (str "x") = true ∧ 2 ∉ τ.cluster.etcd.leases ∧
    ∀ (q : Nat) (d : Coordinator), τ.cluster.procs[q]? = some d →
      d.isServable sample τ.now (str "x") = true → q = 0 := by
  have run : (execute (timedExec sample) allowed sampleTimed bEnds).any (fun τ =>
      2 ∉ τ.cluster.etcd.leases ∧
        τ.cluster.procs[0]?.any fun c => c.isServable sample τ.now (str "x")) = true := by
    decide +kernel
  obtain ⟨τ, hτ, test⟩ := (Option.any_eq_true _ _).mp run
  obtain ⟨gone, test⟩ := of_decide_eq_true test
  obtain ⟨c, hc, serves⟩ := (Option.any_eq_true _ _).mp test
  have reach : Reachable (Start sample) (Allowed sample) τ :=
    (reachable_of_execute hτ).mono (fun _ e => e ▸ sampleTimed_start) fun _ _ allowed => allowed
  exact ⟨τ, c, reach, hc, serves, gone, (one_server reach (str "x") hc serves).1⟩

end MilvusCatalog.TimedServing

import MilvusCatalog.SplitBrain

/-! The freshness window against the lease. etcd counts a lease's TTL from the
last grant or renewal it processed, a node counts its window from when it got to
the response. Both are here on one clock, and any response can be late. -/
namespace MilvusCatalog.LeaseWindow
open Go Etcd Transition

/-- `deadline l` is when lease `l` ends unless it is renewed, and `ttl l` what a
renewal adds to the time, in nanoseconds. `responses` are the answers to
keepalives that nodes have not read yet, by lease. -/
structure Timed where
  cluster : Cluster
  ttl : Nat → Int
  deadline : Nat → Int
  responses : List Nat

namespace Timed

def now (τ : Timed) : Nat := τ.cluster.now

/-- The TTL of the lease that a step has etcd grant. -/
def grants (τ : Timed) : Action → Option Int
  | .call p o =>
    match τ.cluster.procs[p]? with
    | some c =>
      if c.pc = .granting ∧ (o = .ok ∨ o = .failed true) then some (c.ttl * 1000000000) else none
    | none => none
  | _ => none

/-- A keepalive is recorded when an answer for the lease is there to read; a
lease ends once its deadline has passed. -/
def ready (τ : Timed) : Action → Bool
  | .keepAlive p => ∀ c ∈ τ.cluster.procs[p]?, c.leaseID ∈ τ.responses
  | .expire l => τ.deadline l ≤ τ.now
  | _ => true

/-- The answers left to read. -/
def unread (τ : Timed) : Action → List Nat
  | .keepAlive p =>
    match τ.cluster.procs[p]? with
    | some c => τ.responses.erase c.leaseID
    | none => τ.responses
  | _ => τ.responses

end Timed

inductive TimedAction
  | act (a : Action)
  | renew (lease : Nat)

/-- One step with the clock: a step of the cluster, or etcd renews a lease that
has not ended and sends the answer. -/
def timedExec (cfg : Config) (τ : Timed) : TimedAction → Option Timed
  | .act a =>
    if τ.ready a then
      match exec cfg τ.cluster a with
      | none => none
      | some σ =>
        let l := τ.cluster.etcd.nextLease
        match τ.grants a with
        | none => some { τ with cluster := σ, responses := τ.unread a }
        | some ttl =>
          some
            { cluster := σ
              ttl := Function.update τ.ttl l ttl
              deadline := Function.update τ.deadline l (τ.now + ttl)
              responses := τ.unread a }
    else none
  | .renew l =>
    if l ∈ τ.cluster.etcd.leases ∧ (τ.now : Int) < τ.deadline l then
      some
        { τ with
          deadline := Function.update τ.deadline l (τ.now + τ.ttl l)
          responses := τ.responses ++ [l] }
    else none

/-- Wherever a node records a keepalive, or the initial registration, its lease
still has the whole window ahead of it in etcd. -/
def prompt (τ : Timed) : TimedAction → Bool
  | .act (.keepAlive p) => ∀ c ∈ τ.cluster.procs[p]?, τ.now + c.leaseWindow ≤ τ.deadline c.leaseID
  | .act (.call p .ok) => ∀ c ∈ τ.cluster.procs[p]?, joins c
  | _ => true
where
  /-- `JoinMembership` stores the time when it has everything else. -/
  joins (c : Coordinator) : Bool :=
    match c.pc with
    | .keepingAlive l => τ.now + c.leaseWindow ≤ τ.deadline l
    | _ => true

/-- Everything a timed step can be. -/
inductive TimedStep (cfg : Config) (τ : Timed) : TimedAction → Timed → Prop
  | act {a : Action} {σ : Cluster} (ready : τ.ready a = true) (none : τ.grants a = none)
      (step : exec cfg τ.cluster a = some σ) :
      TimedStep cfg τ (.act a) { τ with cluster := σ, responses := τ.unread a }
  | grant {a : Action} {σ : Cluster} {ttl : Int} (ready : τ.ready a = true)
      (some_ : τ.grants a = some ttl) (step : exec cfg τ.cluster a = some σ) :
      TimedStep cfg τ (.act a)
        { cluster := σ
          ttl := Function.update τ.ttl τ.cluster.etcd.nextLease ttl
          deadline := Function.update τ.deadline τ.cluster.etcd.nextLease (τ.now + ttl)
          responses := τ.unread a }
  | renew {l : Nat} (live : l ∈ τ.cluster.etcd.leases) (early : (τ.now : Int) < τ.deadline l) :
      TimedStep cfg τ (.renew l)
        { τ with
          deadline := Function.update τ.deadline l (τ.now + τ.ttl l)
          responses := τ.responses ++ [l] }

theorem timedExec_step {cfg : Config} {τ τ' : Timed} {a : TimedAction}
    (h : timedExec cfg τ a = some τ') : TimedStep cfg τ a τ' := by
  cases a with
  | act a =>
    simp only [timedExec] at h
    split at h
    · next ready =>
      split at h
      · cases h
      · next step =>
        split at h
        · next none => cases h; exact .act ready none step
        · next some_ => cases h; exact .grant ready some_ step
    · cases h
  | renew l =>
    simp only [timedExec] at h
    split at h
    · next guard => cases h; exact .renew guard.1 guard.2
    · cases h

structure Inv (τ : Timed) : Prop where
  known : ∀ (q : Nat) (c : Coordinator), τ.cluster.procs[q]? = some c →
    c.leaseID < τ.cluster.etcd.nextLease ∧ SplitBrain.lease c < τ.cluster.etcd.nextLease
  covered : ∀ (q : Nat) (c : Coordinator), τ.cluster.procs[q]? = some c →
    c.membership.lastKeepAlive ≠ 0 →
    c.membership.lastKeepAlive + c.leaseWindow ≤ τ.deadline c.leaseID
  capped : ∀ l, τ.deadline l ≤ τ.now + τ.ttl l

/-- A node changes its lease and its last keepalive by joining or recording. -/
theorem stepped_recorded {cfg : Config} {σ : Cluster} {q : Nat} {c d : Coordinator} {a : Action}
    (stepped : Stepped cfg σ q c a d) : d.leaseWindow = c.leaseWindow ∧
    (d.leaseID = c.leaseID ∧ d.membership.lastKeepAlive = c.membership.lastKeepAlive ∨
    a = .keepAlive q ∧ d.leaseID = c.leaseID ∧ d.membership.lastKeepAlive = σ.now ∨
    a = .call q .ok ∧ c.pc = .keepingAlive d.leaseID ∧ d.membership.lastKeepAlive = σ.now) := by
  cases stepped with
  | records => exact ⟨rfl, .inr (.inl ⟨rfl, rfl, rfl⟩)⟩
  | @calls o =>
    refine ⟨by simp [Coordinator.leaseWindow], ?_⟩
    by_cases first : ∃ l, c.pc = .keepingAlive l ∧ o = .ok
    · obtain ⟨l, hpc, rfl⟩ := first
      exact .inr (.inr (by simp [Coordinator.resume, hpc, Coordinator.leaseID]))
    · have same : (c.resume cfg σ.etcd σ.now o).membership = c.membership :=
        Coordinator.resume_membership fun l hpc ok => first ⟨l, hpc, ok⟩
      exact .inl (by simp [Coordinator.leaseID, same])
  | _ => exact ⟨rfl, .inl ⟨rfl, rfl⟩⟩

/-- A node joins with a lease that was granted before. -/
theorem step_leaseID {cfg : Config} {τ : Timed} {a : Action} {σ : Cluster} (inv : Inv τ)
    (step : exec cfg τ.cluster a = some σ) (q : Nat) (d : Coordinator)
    (hq : σ.procs[q]? = some d) : d.leaseID < τ.cluster.etcd.nextLease := by
  rcases exec_node step hq with ⟨c, hc, stepped⟩ | ⟨_, _, -, -, rfl⟩
  · obtain ⟨own, asked⟩ := inv.known q c hc
    rcases (stepped_recorded stepped).2 with ⟨e, -⟩ | ⟨-, e, -⟩ | ⟨-, hpc, -⟩
    · omega
    · omega
    · simpa only [SplitBrain.lease, hpc] using asked
  · exact τ.cluster.etcd.positive

theorem step_known {cfg : Config} {τ : Timed} {a : Action} {σ : Cluster} (inv : Inv τ)
    (step : exec cfg τ.cluster a = some σ) (q : Nat) (d : Coordinator)
    (hq : σ.procs[q]? = some d) :
    d.leaseID < σ.etcd.nextLease ∧ SplitBrain.lease d < σ.etcd.nextLease := by
  obtain ⟨_, moved, -⟩ := exec_moved step
  have le := moved.nextLease_le
  refine ⟨Nat.lt_of_lt_of_le (step_leaseID inv step q d hq) le, ?_⟩
  rcases exec_node step hq with ⟨c, hc, stepped⟩ | ⟨_, _, -, -, rfl⟩
  · obtain ⟨own, asked⟩ := inv.known q c hc
    rcases SplitBrain.stepped_asked stepped with e | e | ⟨e, rfl, hpc⟩
    · omega
    · omega
    · rw [e]
      cases exec_step step with
      | call hp =>
        obtain rfl := Option.some.inj (hp.symm.trans hc)
        simp [Coordinator.issue, hpc, Cluster.update, Cluster.wrote, Issued.quiet]
  · exact σ.etcd.positive

/-- After a prompt step every recorded time is covered by the lease's deadline. -/
theorem step_covered {cfg : Config} {τ : Timed} {a : Action} {σ : Cluster} (inv : Inv τ)
    (hp : prompt τ (.act a) = true) (step : exec cfg τ.cluster a = some σ) (q : Nat)
    (d : Coordinator) (hq : σ.procs[q]? = some d) (once : d.membership.lastKeepAlive ≠ 0) :
    d.membership.lastKeepAlive + d.leaseWindow ≤ τ.deadline d.leaseID := by
  rcases exec_node step hq with ⟨c, hc, stepped⟩ | ⟨_, _, -, -, rfl⟩
  · obtain ⟨window, same | read | joined⟩ := stepped_recorded stepped
    · rw [window, same.1, same.2]
      exact inv.covered q c hc (same.2 ▸ once)
    · obtain ⟨rfl, lease, last⟩ := read
      simp only [prompt, hc, Option.mem_def, Option.some.injEq, forall_eq', decide_eq_true_eq] at hp
      rw [window, lease, last]
      exact hp
    · obtain ⟨rfl, hpc, last⟩ := joined
      simp only [prompt, hc, Option.mem_def, Option.some.injEq, forall_eq', decide_eq_true_eq,
        prompt.joins, hpc] at hp
      rw [window, last]
      exact hp
  · exact absurd rfl once

theorem step_inv {cfg : Config} {τ τ' : Timed} {a : TimedAction} (inv : Inv τ)
    (hp : prompt τ a = true) (timed : timedExec cfg τ a = some τ') : Inv τ' := by
  cases timedExec_step timed with
  | act _ _ step =>
    have later := exec_now step
    refine ⟨step_known inv step, fun q d => step_covered inv hp step q d, fun l => ?_⟩
    have := inv.capped l
    simp only [Timed.now] at this ⊢
    omega
  | grant _ _ step =>
    have later := exec_now step
    refine ⟨step_known inv step, fun q d hq once => ?_, fun l => ?_⟩
    · have other := Nat.ne_of_lt (step_leaseID inv step q d hq)
      simpa [Function.update_of_ne other] using step_covered inv hp step q d hq once
    · have := inv.capped l
      simp only [Timed.now, Function.update_apply] at this ⊢
      split <;> omega
  | @renew l _ _ =>
    refine ⟨inv.known, fun q d hq once => ?_, fun l' => ?_⟩
    · have covered := inv.covered q d hq once
      have := inv.capped l
      simp only [Function.update_apply]
      split
      · next e => rw [e] at covered; omega
      · exact covered
    · have := inv.capped l'
      simp only [Timed.now, Function.update_apply] at this ⊢
      split
      · next e => rw [e]
      · exact this

/-- Before any node has started. -/
structure TimedInitial (cfg : Config) (τ : Timed) : Prop where
  cluster : Initial cfg τ.cluster
  capped : ∀ l, τ.deadline l ≤ τ.now + τ.ttl l

/-- Runs in which responses are recorded promptly. -/
abbrev Prompt (cfg : Config) : Timed → Timed → Prop :=
  Next (timedExec cfg) fun τ a => prompt τ a = true

theorem reachable_inv {cfg : Config} {τ : Timed}
    (h : Reachable (TimedInitial cfg) (Prompt cfg) τ) : Inv τ := by
  refine h.invariant (fun τ start => ?_) fun _ _ _ => step_inv
  exact ⟨by simp [start.cluster.procs], by simp [start.cluster.procs], start.capped⟩

theorem Inv.fresh {τ : Timed} (inv : Inv τ) {p : Nat} {c : Coordinator}
    (hp : τ.cluster.procs[p]? = some c) (fresh : c.fresh τ.now = true) :
    τ.now < τ.deadline c.leaseID := by
  simp only [Coordinator.fresh, Membership.fresh, Bool.and_eq_true, bne_iff_ne,
    decide_eq_true_eq] at fresh
  have covered := inv.covered p c hp fresh.1
  omega

/-- What the runs without split brain ask of the end of a lease. -/
theorem Inv.expire_allowed {τ : Timed} (inv : Inv τ) {l : Nat}
    (ready : τ.ready (.expire l) = true) :
    SplitBrain.allowed τ.cluster (.expire l) = true := by
  simp only [Timed.ready, SplitBrain.allowed, decide_eq_true_eq] at ready ⊢
  rintro c hc rfl
  obtain ⟨p, hp⟩ := List.mem_iff_getElem?.mp hc
  cases fresh : c.fresh τ.cluster.now with
  | false => rfl
  | true =>
    have := inv.fresh hp fresh
    omega

/-- **The window closes before the lease does**, in every run in which a node
records a keepalive only while its lease has a whole window left. -/
theorem fresh_before_deadline {cfg : Config} {τ : Timed}
    (h : Reachable (TimedInitial cfg) (Prompt cfg) τ) {p : Nat} {c : Coordinator}
    (hp : τ.cluster.procs[p]? = some c) (fresh : c.fresh τ.now = true) :
    τ.now < τ.deadline c.leaseID :=
  (reachable_inv h).fresh hp fresh

def sampleTimed : Timed := ⟨sampleStart, fun _ => 0, fun _ => 0, []⟩

theorem sampleTimed_initial : TimedInitial sample sampleTimed :=
  ⟨sampleStart_initial, fun _ => Int.le_of_lt Int.one_pos⟩

/-- A renewal is read one second after etcd made it. -/
def readsSoon : List TimedAction :=
  (sampleJoin 0 "a").map .act ++ [.act (.tick 3000000000), .renew 1, .act (.tick 1000000000),
    .act (.keepAlive 0), .act (.tick 4000000000)]

theorem fresh_before_deadline_readsSoon : ∃ (τ : Timed) (c : Coordinator),
    Reachable (TimedInitial sample) (Prompt sample) τ ∧ τ.cluster.procs[0]? = some c ∧
    c.fresh τ.now = true ∧ τ.now < τ.deadline c.leaseID := by
  have run : (execute (timedExec sample) prompt sampleTimed readsSoon).any (fun τ =>
      τ.cluster.procs[0]?.any fun c => c.fresh τ.now) = true := by decide +kernel
  obtain ⟨τ, hτ, test⟩ := (Option.any_eq_true _ _).mp run
  obtain ⟨c, hc, fresh⟩ := (Option.any_eq_true _ _).mp test
  have reach : Reachable (TimedInitial sample) (Prompt sample) τ :=
    (reachable_of_execute hτ).mono (fun _ e => e ▸ sampleTimed_initial) fun _ _ prompt => prompt
  exact ⟨τ, c, reach, hc, fresh, fresh_before_deadline reach hc fresh⟩

/-- The answer to the member `Put` takes eleven seconds. -/
def readsLate : List TimedAction :=
  [.spawn (str "a") 10, .call 0 .ok, .call 0 .ok, .tick 11000000000, .expire 1,
    .call 0 .ok].map .act

theorem fresh_after_deadline : ∃ (τ : Timed) (c : Coordinator),
    Reachable (TimedInitial sample) (Next (timedExec sample) fun _ _ => True) τ ∧
    τ.cluster.procs[0]? = some c ∧ c.fresh τ.now = true ∧ τ.deadline c.leaseID ≤ τ.now ∧
    c.leaseID ∉ τ.cluster.etcd.leases := by
  have run : (execute (timedExec sample) (fun _ _ => true) sampleTimed readsLate).any (fun τ =>
      τ.cluster.procs[0]?.any fun c => c.fresh τ.now ∧ τ.deadline c.leaseID ≤ τ.now ∧
        c.leaseID ∉ τ.cluster.etcd.leases) = true := by decide +kernel
  obtain ⟨τ, hτ, test⟩ := (Option.any_eq_true _ _).mp run
  obtain ⟨c, hc, facts⟩ := (Option.any_eq_true _ _).mp test
  have reach := (reachable_of_execute hτ).mono (fun _ e => e ▸ sampleTimed_initial)
    fun _ _ _ => trivial
  exact ⟨τ, c, reach, hc, of_decide_eq_true facts⟩

end MilvusCatalog.LeaseWindow

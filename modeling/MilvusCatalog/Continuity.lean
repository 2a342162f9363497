import MilvusCatalog.SplitBrain
import MilvusCatalog.Convergence.Phases

/-! Service without interruption. While a node's lease lives and every list of
members that it reads chooses it for a shard, no round takes the shard from behind
its gate or changes its term, whatever nodes join, leave or fail elsewhere. -/
namespace MilvusCatalog.Continuity
open Go Etcd Transition SplitBrain Convergence

/-- The steps of the runs without split brain, when the lease of node `p` does not
end and the lists of members that `p` reads choose `p` for shard `s`. -/
def steady (cfg : Config) (p s : Nat) (σ : Cluster) (a : Action) : Bool :=
  SplitBrain.allowed σ a && keeps a
where
  keeps : Action → Bool
    | .call q .ok => q = p → ∀ c ∈ σ.procs[q]?, c.pc = .listMembers →
        cfg.rendezvous s (listMembers cfg.pfx σ.etcd) = c.nodeID
    | .expire l => ∀ c ∈ σ.procs[p]?, c.leaseID ≠ l
    | _ => true

/-- A shard behind the gate under term `t`, and what a round has found out about
it so far. -/
structure Steady (cfg : Config) (s t : Nat) (e : Store) (c : Coordinator) : Prop where
  served : c.owned s = some t ∧ c.releasing s = false
  live : c.leaseID ∈ e.leases
  listed : c.pc = .loadShardMap → cfg.rendezvous s c.round.members = c.nodeID
  spared : decided c.pc → s ∉ c.round.release
  due : ∀ todo, c.pc = .marking todo ∨ c.pc = .releasing todo → ∀ x ∈ todo, x ∈ c.round.release
  loaded : c.pc.loaded → (c.round.om s).owner = c.nodeID ∧ (c.round.om s).term = t

section
variable {cfg : Config} {σ σ' : Cluster} {a : Action} {p s t : Nat} {c d : Coordinator}

/-- The lease of a node ends only by its time. -/
theorem lease_stays (inv : Inv cfg σ) (ha : SplitBrain.allowed σ a = true)
    (step : exec cfg σ a = some σ') (hp : σ.procs[p]? = some c)
    (kept : ∀ l, a = .expire l → c.leaseID ≠ l) (live : c.leaseID ∈ σ.etcd.leases) :
    c.leaseID ∈ σ'.etcd.leases := by
  have nonzero : c.leaseID ≠ 0 := Store.ne_zero_of_live live
  have asked := (inv.node p c hp).lease_eq nonzero
  cases exec_step step with
  | @call q o b hq =>
    change c.leaseID ∈ (b.issue cfg σ.etcd o).etcd.leases
    obtain ⟨same, -⟩ | ⟨-, same, -⟩ | ⟨l, hpc, same, -⟩ | ⟨r, -, applied⟩ :=
      b.issue_cases cfg σ.etcd o
    · rwa [same]
    · rw [same]
      exact List.mem_cons_of_mem _ live
    · -- A node gives up a lease only before it has joined with it.
      rw [same, Store.mem_leases_revoke]
      refine ⟨live, fun given => ?_⟩
      have both : lease b = lease c := by
        rw [asked, given]
        simp [lease, hpc]
      obtain rfl := inv.leases q p b c hq hp both (by rwa [both, asked])
      obtain rfl := Option.some.inj (hp.symm.trans hq)
      exact nonzero ((inv.node q c hq).joining (hpc ▸ trivial)).1
    · rwa [applied.leases.1]
  | @expire l => exact (σ.etcd.mem_leases_revoke l _).mpr ⟨live, kept l rfl⟩
  | deliver | revoked | request => cases ha
  | _ => exact live

/-- One call of the node's own. -/
theorem Steady.call (h : Steady cfg s t σ.etcd c) (inv : Inv cfg σ) (hp : σ.procs[p]? = some c)
    (hs : s < shardCount) {o : Outcome}
    (chosen : o = .ok → c.pc = .listMembers →
      cfg.rendezvous s (listMembers cfg.pfx σ.etcd) = c.nodeID)
    {e : Store} (live : (c.resume cfg σ.etcd σ.now o).leaseID ∈ e.leases) :
    Steady cfg s t e (c.resume cfg σ.etcd σ.now o) := by
  have due := Coordinator.resume_due cfg (c := c) σ.etcd σ.now o h.due
  have hold := (inv.node p c hp).gate s t h.served.1 h.served.2 h.live
  have joined : ¬ c.pc.joining := by
    intro joining
    have := h.served.1
    rw [((inv.node p c hp).joining joining).2 s] at this
    cases this
  obtain ⟨⟨own, unmarked⟩, -, listed, spared, due₀, loaded⟩ := h
  cases hpc : c.pc with
  | granting | putting | keepingAlive | revoking => exact absurd (hpc ▸ trivial) joined
  | stopped | idle =>
    refine ⟨?_, live, ?_, ?_, due, ?_⟩ <;>
      simp [Coordinator.resume, hpc, decided, Pc.loaded, own, unmarked]
  | listMembers =>
    by_cases ok : o = .ok
    · have chosen := chosen ok hpc
      refine ⟨?_, live, ?_, ?_, due, ?_⟩ <;>
        simp [Coordinator.resume, hpc, ok, decided, Pc.loaded, own, unmarked, chosen]
    · refine ⟨?_, live, ?_, ?_, due, ?_⟩ <;>
        simp [Coordinator.resume, hpc, ok, decided, Pc.loaded, own, unmarked]
  | loadShardMap =>
    by_cases ok : o = .ok
    · have chosen := listed hpc
      refine ⟨?_, live, ?_, ?_, due, ?_⟩ <;>
        simp [Coordinator.resume, hpc, ok, Pc.loaded, own, unmarked, mem_release]
      intro _ _ _
      exact chosen
    · refine ⟨?_, live, ?_, ?_, due, ?_⟩ <;>
        simp [Coordinator.resume, hpc, ok, decided, Pc.loaded, own, unmarked]
  | claiming todo | releasing todo =>
    have spared := spared (hpc ▸ trivial)
    refine ⟨?_, live, ?_, ?_, due, ?_⟩ <;> cases todo <;>
      simp [Coordinator.resume, hpc, Pc.loaded, own, unmarked, spared]
  | marking todo =>
    have spared := spared (hpc ▸ trivial)
    cases todo with
    | nil =>
      refine ⟨?_, live, ?_, ?_, due, ?_⟩ <;>
        simp [Coordinator.resume, hpc, Pc.loaded, own, unmarked, spared]
    | cons x todo =>
      have other : s ≠ x := by
        rintro rfl
        exact spared (due₀ _ (.inl hpc) s List.mem_cons_self)
      refine ⟨?_, live, ?_, ?_, due, ?_⟩ <;>
        simp [Coordinator.resume, hpc, Pc.loaded, own, unmarked, spared, Coordinator.markReleasing,
          Function.update_of_ne other]
  | loadOwnershipMap =>
    have spared := spared (hpc ▸ trivial)
    have record : loadOwnershipMap cfg.pfx σ.etcd s = ⟨c.nodeID, t, c.leaseID⟩ := by
      rw [loadOwnershipMap_eq inv.layout hs, hold, Option.getD_some]
    by_cases ok : o = .ok
    · refine ⟨?_, live, ?_, ?_, due, ?_⟩ <;>
        simp [Coordinator.resume, hpc, ok, own, unmarked, spared, record]
    · refine ⟨?_, live, ?_, ?_, due, ?_⟩ <;>
        simp [Coordinator.resume, hpc, ok, decided, Pc.loaded, own, unmarked]
  | rebinding todo =>
    have spared := spared (hpc ▸ trivial)
    have loaded := loaded (hpc ▸ trivial)
    refine ⟨?_, live, ?_, ?_, due, ?_⟩ <;> cases todo <;>
      simp [Coordinator.resume, hpc, own, unmarked, spared, loaded]
  | installing =>
    have spared := spared (hpc ▸ trivial)
    obtain ⟨owner, term⟩ := loaded (hpc ▸ trivial)
    refine ⟨?_, live, ?_, ?_, due, ?_⟩ <;>
      simp [Coordinator.resume, hpc, Coordinator.install, Coordinator.loadedOwned,
        Coordinator.loadedReleasing, decided, Pc.loaded, spared, owner, term, hs]

theorem Steady.step (h : Steady cfg s t σ.etcd c) (inv : Inv cfg σ) (hp : σ.procs[p]? = some c)
    (hs : s < shardCount) (ha : steady cfg p s σ a = true) (step : exec cfg σ a = some σ')
    (stepped : Stepped cfg σ p c a d) : Steady cfg s t σ'.etcd d := by
  simp only [steady, Bool.and_eq_true] at ha
  obtain ⟨ha, keeps⟩ := ha
  have kept : ∀ l, a = .expire l → c.leaseID ≠ l := by
    rintro l rfl
    simp only [steady.keeps, decide_eq_true_eq] at keeps
    exact keeps c hp
  have before := h.live
  have live := lease_stays inv ha step hp kept before
  rw [← stepped_leaseID stepped (inv.node p c hp) (Store.ne_zero_of_live before)] at live
  obtain ⟨served, -, listed, spared, due, loaded⟩ := h
  cases stepped with
  | @calls o =>
    refine Steady.call ⟨served, before, listed, spared, due, loaded⟩ inv hp hs ?_ live
    rintro rfl hpc
    simp only [steady.keeps, decide_eq_true_eq] at keeps
    exact keeps trivial c hp hpc
  | exits => exact ⟨served, live, nofun, nofun, nofun, nofun⟩
  | _ => exact ⟨served, live, listed, spared, due, loaded⟩

end

/-- **Service without interruption.** From any point between two rounds at which
a node serves a shard under a live lease, the shard stays behind the node's gate
and under the same term in every later state, through every round of its own and
every change elsewhere, as long as its lease lives and the members that it lists
choose it. -/
theorem keeps_serving {cfg : Config} {σ τ : Cluster} {p s t : Nat} {c : Coordinator}
    (history : Reachable (Initial cfg) (Allowed cfg) σ) (hp : σ.procs[p]? = some c)
    (idle : c.pc = .idle) (live : c.leaseID ∈ σ.etcd.leases) (hs : s < shardCount)
    (serves : c.serves s = true) (term : c.ownerTerm s = t)
    (run : Reachable (· = σ) (Next (exec cfg) fun σ a => steady cfg p s σ a = true) τ) :
    ∃ d, τ.procs[p]? = some d ∧ d.serves s = true ∧ d.ownerTerm s = t ∧
      Holds cfg.pfx τ.etcd d s t := by
  have served : c.owned s = some t ∧ c.releasing s = false := by
    simp only [Coordinator.serves, Bool.and_eq_true, Bool.not_eq_true'] at serves
    obtain ⟨own, unmarked⟩ := serves
    obtain ⟨t', own⟩ := Option.isSome_iff_exists.mp own
    rw [Coordinator.ownerTerm, own, Option.getD_some] at term
    exact ⟨term ▸ own, unmarked⟩
  obtain ⟨inv, d, hd, h⟩ : Inv cfg τ ∧ ∃ d, τ.procs[p]? = some d ∧ Steady cfg s t τ.etcd d := by
    induction run with
    | start same =>
      rw [same]
      refine ⟨reachable_inv history, c, hp, served, live, ?_, ?_, ?_, ?_⟩ <;>
        simp [idle, decided, Pc.loaded]
    | step _ next ih =>
      obtain ⟨inv, b, hb, h⟩ := ih
      obtain ⟨a, ha, step⟩ := next
      obtain ⟨d, hd, stepped⟩ := exec_survives step hb
      have allowed := ha
      simp only [steady, Bool.and_eq_true] at allowed
      exact ⟨step_inv inv allowed.1 step, d, hd, h.step inv hb hs ha step stepped⟩
  obtain ⟨own, unmarked⟩ := h.served
  refine ⟨d, hd, ?_, ?_, (inv.node p d hd).gate s t own unmarked h.live⟩
  · simp [Coordinator.serves, own, unmarked]
  · rw [Coordinator.ownerTerm, own, Option.getD_some]

/-- Node `c` joins, `b` runs a round and `a` a further one, with a failed call. -/
def cJoins : List Action :=
  sampleJoin 2 "c" ++ List.replicate 8 (.call 1 .ok) ++ [.call 0 .ok, .call 0 (.failed false)] ++
    List.replicate 8 (.call 0 .ok)

theorem keeps_serving_cJoins : ∃ (σ τ : Cluster) (c d : Coordinator),
    Reachable (Initial sample) (Allowed sample) σ ∧ σ.procs[0]? = some c ∧
    τ.procs[0]? = some d ∧ τ.procs.length = 3 ∧ d.round.members.length = 3 ∧
    d.serves 0 = true ∧ d.ownerTerm 0 = c.ownerTerm 0 := by
  have first : (execute (exec sample) SplitBrain.allowed sampleStart aServes).any (fun σ =>
      (σ.procs[0]?.any fun c => c.pc = .idle ∧ c.leaseID ∈ σ.etcd.leases ∧ c.serves 0 = true) ∧
      (execute (exec sample) (steady sample 0 0) σ cJoins).any fun τ =>
        τ.procs.length = 3 ∧ τ.procs[0]?.any fun d => d.round.members.length = 3) = true := by
    decide +kernel
  obtain ⟨σ, hσ, test⟩ := (Option.any_eq_true _ _).mp first
  simp only [decide_eq_true_eq, Option.any_eq_true] at test
  obtain ⟨⟨c, hc, idle, live, serves⟩, τ, hτ, three, d, hd, members⟩ := test
  have history := sample_reachable hσ
  obtain ⟨d', hd', still, term, -⟩ := keeps_serving history hc idle live (by decide) serves rfl
    (reachable_of_execute hτ)
  obtain rfl := Option.some.inj (hd.symm.trans hd')
  exact ⟨σ, τ, c, d, history, hc, hd, three, members, still, term⟩

end MilvusCatalog.Continuity

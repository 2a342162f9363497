import MilvusCatalog.Convergence.Owners

/-! The three phases of a node: one round clears the shards that it should not
hold, a second fills the free shards that are to be its own, and a third brings
its maps in line with the store. -/
namespace MilvusCatalog.Convergence
open Go Etcd Transition

/-- What a round has left to release, once it has decided. -/
def toRelease (c : Coordinator) : Option (List Nat) :=
  match c.pc with
  | .listMembers | .loadShardMap => none
  | .claiming _ => some c.round.release
  | .marking todo | .releasing todo => some todo
  | _ => some []

/-- Every shard that the node holds and should not hold is still to be released. -/
def Clearing (cfg : Config) (M : List Str) (σ : Cluster) (c : Coordinator) : Prop :=
  ∀ todo, toRelease c = some todo → ∀ s < shardCount,
    shardOwner cfg.pfx σ.etcd s = some c.nodeID → cfg.rendezvous s M ≠ c.nodeID → s ∈ todo

theorem resume_clearing {cfg : Config} {M : List Str} {σ σ' : Cluster} {c : Coordinator}
    (layout : Layout cfg.pfx σ.etcd) (plan : Plan cfg M c)
    (owner : ∀ s, shardOwner cfg.pfx σ'.etcd s =
      writes c.pc c.nodeID (shardOwner cfg.pfx σ.etcd) s)
    (h : Clearing cfg M σ c) : Clearing cfg M σ' (c.resume cfg σ.etcd σ.now .ok) := by
  intro todo htodo s hs own wrong
  rw [Coordinator.resume_nodeID] at own wrong
  have old : shardOwner cfg.pfx σ.etcd s = some c.nodeID := by
    rw [owner s] at own
    rcases plan.writes (shardOwner cfg.pfx σ.etcd) s with same | ⟨-, -, mine⟩ | ⟨-, none, -⟩
    · exact same ▸ own
    · exact absurd mine wrong
    · rw [none] at own; cases own
  have before (l : List Nat) (hl : toRelease c = some l) : s ∈ l := h l hl s hs old wrong
  cases hpc : c.pc with
  | granting | putting | keepingAlive | revoking | stopped =>
    have := plan.running
    rw [hpc] at this
    cases this
  | idle => simp [Coordinator.resume, hpc, toRelease] at htodo
  | listMembers => simp [Coordinator.resume, hpc, toRelease] at htodo
  | loadShardMap =>
    simp only [Coordinator.resume, hpc, if_true, toRelease, Option.some.injEq] at htodo
    rw [← htodo, mem_release, plan.members hpc, loadShardMap_owner layout hs, old]
    exact ⟨hs, rfl, wrong⟩
  | claiming l =>
    have := before c.round.release (by simp [toRelease, hpc])
    cases l <;> simp_all [Coordinator.resume, toRelease]
  | marking l =>
    have := before l (by simp [toRelease, hpc])
    cases l <;> simp_all [Coordinator.resume, toRelease]
  | releasing l =>
    have mem := before l (by simp [toRelease, hpc])
    cases l with
    | nil => cases mem
    | cons x l =>
      simp only [Coordinator.resume, hpc, toRelease, Option.some.injEq] at htodo
      rw [← htodo]
      -- The shard just released is no longer the node's.
      rcases List.mem_cons.mp mem with rfl | mem
      · rw [owner s, hpc] at own
        simp [writes, old] at own
      · exact mem
  | rebinding l =>
    have := before [] (by simp [toRelease, hpc])
    cases this
  | loadOwnershipMap | installing =>
    have := before [] (by simp [toRelease, hpc])
    cases this

/-- What a round has left to claim, once it has decided. -/
def toClaim (c : Coordinator) : Option (List Nat) :=
  match c.pc with
  | .listMembers | .loadShardMap => none
  | .claiming todo => some todo
  | _ => some []

/-- Every free shard that is to be the node's is still to be claimed. -/
def Filling (cfg : Config) (M : List Str) (σ : Cluster) (c : Coordinator) : Prop :=
  ∀ todo, toClaim c = some todo → ∀ s < shardCount, cfg.rendezvous s M = c.nodeID →
    shardOwner cfg.pfx σ.etcd s = none → s ∈ todo

theorem resume_filling {cfg : Config} {M : List Str} {σ σ' : Cluster} {c : Coordinator}
    (layout : Layout cfg.pfx σ.etcd) (plan : Plan cfg M c)
    (owner : ∀ s, shardOwner cfg.pfx σ'.etcd s =
      writes c.pc c.nodeID (shardOwner cfg.pfx σ.etcd) s)
    (h : Filling cfg M σ c) : Filling cfg M σ' (c.resume cfg σ.etcd σ.now .ok) := by
  intro todo htodo s hs mine free
  rw [Coordinator.resume_nodeID] at mine
  have old : shardOwner cfg.pfx σ.etcd s = none := by
    rw [owner s] at free
    rcases plan.writes (shardOwner cfg.pfx σ.etcd) s with same | ⟨none, -⟩ | ⟨-, -, wrong⟩
    · exact same ▸ free
    · exact none
    · exact absurd mine wrong
  have before (l : List Nat) (hl : toClaim c = some l) : s ∈ l := h l hl s hs mine old
  cases hpc : c.pc with
  | granting | putting | keepingAlive | revoking | stopped =>
    have := plan.running
    rw [hpc] at this
    cases this
  | idle => simp [Coordinator.resume, hpc, toClaim] at htodo
  | listMembers => simp [Coordinator.resume, hpc, toClaim] at htodo
  | loadShardMap =>
    simp only [Coordinator.resume, hpc, if_true, toClaim, Option.some.injEq] at htodo
    rw [← htodo, mem_claim, plan.members hpc, loadShardMap_owner layout hs, old]
    exact ⟨hs, rfl, mine⟩
  | claiming l =>
    have mem := before l (by simp [toClaim, hpc])
    cases l with
    | nil => cases mem
    | cons x l =>
      simp only [Coordinator.resume, hpc, toClaim, Option.some.injEq] at htodo
      rw [← htodo]
      -- The shard just claimed is no longer free.
      rcases List.mem_cons.mp mem with rfl | mem
      · rw [owner s, hpc] at free
        simp [writes, old] at free
      · exact mem
  | marking l | releasing l | rebinding l =>
    have := before [] (by simp [toClaim, hpc])
    cases this
  | loadOwnershipMap | installing =>
    have := before [] (by simp [toClaim, hpc])
    cases this

/-- The round has its shard lists. -/
def decided : Pc → Prop
  | .claiming _ | .marking _ | .releasing _ | .loadOwnershipMap | .rebinding _ | .installing => True
  | _ => False

/-- A round that finds every shard in its place: nothing to release, and the
loaded map is the placement. -/
structure Aligning (cfg : Config) (M : List Str) (c : Coordinator) : Prop where
  release : decided c.pc → c.round.release = []
  om : c.pc.loaded → ∀ s < shardCount, (c.round.om s).owner = cfg.rendezvous s M

/-- The node serves exactly the shards that are to be its own. -/
def Aligned (cfg : Config) (M : List Str) (c : Coordinator) : Prop :=
  ∀ s, c.releasing s = false ∧
    ((c.owned s).isSome ↔ s < shardCount ∧ cfg.rendezvous s M = c.nodeID)

theorem resume_aligning {cfg : Config} {M : List Str} {σ : Cluster} {c : Coordinator}
    (layout : Layout cfg.pfx σ.etcd) (plan : Plan cfg M c)
    (placed : ∀ s < shardCount, shardOwner cfg.pfx σ.etcd s = some (cfg.rendezvous s M))
    (h : Aligning cfg M c) : Aligning cfg M (c.resume cfg σ.etcd σ.now .ok) := by
  cases hpc : c.pc with
  | granting | putting | keepingAlive | revoking | stopped =>
    have := plan.running
    rw [hpc] at this
    cases this
  | loadShardMap =>
    constructor
    · intro _
      simp only [Coordinator.resume, hpc, if_true]
      apply List.eq_nil_iff_forall_not_mem.mpr
      intro s hs
      obtain ⟨lt, own, wrong⟩ := mem_release.mp hs
      rw [loadShardMap_owner layout lt, placed s lt, Option.getD_some] at own
      rw [plan.members hpc] at wrong
      exact wrong own
    · simp [Coordinator.resume, hpc, Pc.loaded]
  | loadOwnershipMap =>
    constructor
    · intro _
      simpa [Coordinator.resume, hpc] using h.release (hpc ▸ trivial)
    · intro _ s hs
      simp only [Coordinator.resume, hpc, if_true]
      rw [loadOwnershipMap_owner layout hs, placed s hs, Option.getD_some]
  | rebinding todo =>
    have release := h.release (hpc ▸ trivial)
    have om := h.om (hpc ▸ trivial)
    cases todo <;> constructor <;> simpa [Coordinator.resume, hpc, Pc.loaded, decided]
  | claiming todo | marking todo | releasing todo =>
    have release := h.release (hpc ▸ trivial)
    cases todo <;> constructor <;>
      simp [Coordinator.resume, hpc, Pc.loaded, decided, release, Coordinator.markReleasing]
  | _ =>
    constructor <;> simp [Coordinator.resume, hpc, Pc.loaded, decided, Coordinator.install]

theorem install_aligned {cfg : Config} {M : List Str} {c : Coordinator} (h : Aligning cfg M c)
    (hpc : c.pc = .installing) : Aligned cfg M c.install := by
  intro s
  have release := h.release (hpc ▸ trivial)
  constructor
  · simp [Coordinator.install, Coordinator.loadedReleasing, release]
  · simp only [Coordinator.install, Coordinator.loadedOwned, Option.isSome_ite]
    constructor
    · rintro ⟨hs, own⟩
      exact ⟨hs, h.om (hpc ▸ trivial) s hs ▸ own⟩
    · rintro ⟨hs, mine⟩
      exact ⟨hs, (h.om (hpc ▸ trivial) s hs).trans mine⟩

/-- Once aligned, later rounds mark nothing and install the same again. -/
theorem resume_aligned {cfg : Config} {M : List Str} {c : Coordinator} (e : Store) (now : Nat)
    (plan : Plan cfg M c) (aligning : Aligning cfg M c) (h : Aligned cfg M c) :
    Aligned cfg M (c.resume cfg e now .ok) := by
  cases hpc : c.pc with
  | installing =>
    simpa only [Coordinator.resume, hpc] using install_aligned aligning hpc
  | marking todo =>
    have none : todo = [] := by
      apply List.eq_nil_iff_forall_not_mem.mpr
      intro s hs
      have := plan.due todo (.inl hpc) s hs
      rw [aligning.release (hpc ▸ trivial)] at this
      cases this
    subst none
    simp only [Coordinator.resume, hpc]
    exact h
  | granting | putting | keepingAlive | revoking | stopped =>
    have := plan.running
    rw [hpc] at this
    cases this
  | claiming todo | releasing todo | rebinding todo =>
    cases todo <;> simp only [Coordinator.resume, hpc] <;> exact h
  | _ =>
    simp only [Coordinator.resume, hpc, if_true]
    exact h

end MilvusCatalog.Convergence

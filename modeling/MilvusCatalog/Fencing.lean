import MilvusCatalog.Cluster

/-! Terms fence stale owners. Every commit of a claim or a rebind has its own
revision as term, the record of a shard is always the last commit for it, and
whatever any node or client holds is a commit that was the record at some time. -/
namespace MilvusCatalog.Fencing
open Go Etcd Transition

/-- The store against the commits so far. -/
structure Recorded (pfx : Str) (e : Store) (commits : List Commit) : Prop where
  layout : Layout pfx e
  increasing : commits.Pairwise fun a b => a.term < b.term
  bounded : ∀ c ∈ commits, 0 < c.term ∧ c.term ≤ e.revision
  current : ∀ s kv, e.get (shardKey pfx s) = some kv →
    ⟨s, kv.value, kv.lease, kv.modRevision⟩ ∈ commits ∧
      ∀ c ∈ commits, c.shard = s → c.term ≤ kv.modRevision

/-- A step adds at most one commit, at a revision that no earlier one has. -/
theorem moved_recorded {pfx : Str} {e e' : Store} {commits cs : List Commit}
    (h : Recorded pfx e commits) (moved : Moved pfx e e' cs) : Recorded pfx e' (commits ++ cs) where
  layout := moved_layout h.layout moved
  increasing := by
    rw [List.pairwise_append]
    refine ⟨h.increasing, moved.pairwise, ?_⟩
    intro a ha b hb
    rw [(moved.commit hb).1]
    exact Nat.lt_succ_of_le (h.bounded a ha).2
  bounded := by
    intro c hc
    cases List.mem_append.mp hc with
    | inl old =>
      obtain ⟨positive, le⟩ := h.bounded c old
      exact ⟨positive, Nat.le_trans le moved.revision_le⟩
    | inr new =>
      obtain ⟨term, revision, -⟩ := moved.commit new
      omega
  current := by
    intro s kv hk
    -- A new commit for the shard is its record now.
    have newest : ∀ c ∈ cs, c.shard = s → c.term ≤ kv.modRevision := by
      rintro c hc rfl
      have record := (moved.commit hc).2.2
      rw [hk] at record
      exact Nat.le_of_eq (congrArg OwnerInfo.term (Option.some.inj record)).symm
    cases moved.record hk with
    | inl kept =>
      obtain ⟨mem, last⟩ := h.current s kv kept
      refine ⟨List.mem_append_left cs mem, ?_⟩
      intro c hc hs
      cases List.mem_append.mp hc with
      | inl old => exact last c old hs
      | inr new => exact newest c new hs
    | inr written =>
      have term : kv.modRevision = e.revision + 1 := (moved.commit written).1
      refine ⟨List.mem_append_right commits written, ?_⟩
      intro c hc hs
      cases List.mem_append.mp hc with
      | inl old => exact term ▸ Nat.le_succ_of_le (h.bounded c old).2
      | inr new => exact newest c new hs

/-- A loaded entry is empty or one of the commits for its shard. -/
def Known (commits : List Commit) (s : Nat) (i : OwnerInfo) : Prop :=
  i = .zero ∨ ⟨s, i.owner, i.lease, i.term⟩ ∈ commits

theorem Known.mono {commits cs : List Commit} {s : Nat} {i : OwnerInfo} (h : Known commits s i) :
    Known (commits ++ cs) s i := h.imp id (List.mem_append_left _)

theorem load_known {pfx : Str} {e : Store} {commits : List Commit} (h : Recorded pfx e commits)
    {s : Nat} (hs : s < shardCount) : Known commits s (loadOwnershipMap pfx e s) := by
  rw [loadOwnershipMap_eq h.layout hs]
  cases hk : e.get (shardKey pfx s) with
  | none => exact .inl rfl
  | some kv => exact .inr (h.current s kv hk).1

structure Inv (cfg : Config) (σ : Cluster) : Prop where
  recorded : Recorded cfg.pfx σ.etcd σ.commits
  loaded : ∀ (q : Nat) (c : Coordinator), σ.procs[q]? = some c → ∀ s < shardCount,
    Known σ.commits s (c.round.om s)
  owned : ∀ (q : Nat) (c : Coordinator), σ.procs[q]? = some c → ∀ s t, c.owned s = some t →
    ∃ i, Known σ.commits s i ∧ i.owner = c.nodeID ∧ i.term = t
  routed : ∀ rm ∈ σ.routeMaps, ∀ s o t, rm.shardOwner s = some o → rm.shardTerm s = some t →
    ∃ i, Known σ.commits s i ∧ i.owner = o ∧ i.term = t

theorem initial_inv {cfg : Config} {σ : Cluster} (h : Initial cfg σ) : Inv cfg σ where
  recorded :=
    { layout := fun k kv hk hp => by rw [h.unowned k hp] at hk; cases hk
      increasing := by rw [h.commits]; exact .nil
      bounded := by simp [h.commits]
      current := fun s kv hk => by
        rw [h.unowned _ (shardBase_isPrefix cfg.pfx s)] at hk; cases hk }
  loaded := by simp [h.procs]
  owned := by simp [h.procs]
  routed := by simp [h.routeMaps]

theorem step_inv {cfg : Config} {σ σ' : Cluster} {a : Action} (h : Inv cfg σ)
    (step : exec cfg σ a = some σ') : Inv cfg σ' := by
  obtain ⟨cs, moved, commits⟩ := exec_moved step
  have recorded := moved_recorded h.recorded moved
  rw [← commits] at recorded
  have mono {s : Nat} {i : OwnerInfo} (hk : Known σ.commits s i) : Known σ'.commits s i :=
    commits ▸ hk.mono
  have held {s : Nat} {o : Str} {t : Nat}
      (hk : ∃ i, Known σ.commits s i ∧ i.owner = o ∧ i.term = t) :
      ∃ i, Known σ'.commits s i ∧ i.owner = o ∧ i.term = t :=
    hk.imp fun _ hi => ⟨mono hi.1, hi.2⟩
  refine ⟨recorded, fun q d hq s hs => ?_, fun q d hq s t hd => ?_, fun rm hrm s o t ho ht => ?_⟩
  · rcases exec_node step hq with ⟨c, hc, stepped⟩ | ⟨nodeID, ttl, -, -, rfl⟩
    · have old := h.loaded q c hc s hs
      cases stepped with
      | calls =>
        rcases c.resume_om cfg σ.etcd σ.now _ with e | e | e
        · rw [e]; exact mono old
        · rw [e]; exact .inl rfl
        · rw [e]; exact mono (load_known h.recorded hs)
      | _ => exact mono old
    · exact .inl rfl
  · rcases exec_node step hq with ⟨c, hc, stepped⟩ | ⟨nodeID, ttl, -, -, rfl⟩
    · cases stepped with
      | calls =>
        rw [Coordinator.resume_owned] at hd
        rw [Coordinator.resume_nodeID]
        split at hd
        · simp only [Coordinator.loadedOwned, Option.ite_none_right_eq_some] at hd
          obtain ⟨⟨hs, ho⟩, ht⟩ := hd
          exact ⟨c.round.om s, mono (h.loaded q c hc s hs), ho, Option.some.inj ht⟩
        · exact held (h.owned q c hc s t hd)
      | _ => exact held (h.owned q _ hc s t hd)
    · cases hd
  · rcases exec_routeMaps step with e | ⟨members, -, e⟩
    · exact held (h.routed rm (e ▸ hrm) s o t ho ht)
    · rw [e] at hrm
      rcases List.mem_append.mp hrm with hrm | hrm
      · exact held (h.routed rm hrm s o t ho ht)
      · rw [List.mem_singleton] at hrm
        subst hrm
        simp only [routeMap, Option.ite_none_right_eq_some] at ho ht
        obtain ⟨⟨hs, -⟩, ho⟩ := ho
        exact ⟨loadOwnershipMap cfg.pfx σ.etcd s, mono (load_known h.recorded hs),
          Option.some.inj ho, Option.some.inj ht.2⟩

/-- A term for a shard that someone outside etcd holds, with the owner it was
held for: a node's own term, or an entry of a route map a client was given. -/
inductive Held (σ : Cluster) (s : Nat) : Str → Nat → Prop
  | node {q : Nat} {c : Coordinator} (at_ : σ.procs[q]? = some c) (own : (c.owned s).isSome) :
      Held σ s c.nodeID (c.ownerTerm s)
  | routed {rm : RouteMap} {o : Str} {t : Nat} (returned : rm ∈ σ.routeMaps)
      (owner : rm.shardOwner s = some o) (term : rm.shardTerm s = some t) : Held σ s o t

theorem held_known {cfg : Config} {σ : Cluster} (h : Inv cfg σ) {s : Nat} {o : Str} {t : Nat}
    (held : Held σ s o t) : ∃ i, Known σ.commits s i ∧ i.owner = o ∧ i.term = t := by
  cases held with
  | @node q c hq own =>
    obtain ⟨t, ht⟩ := Option.isSome_iff_exists.mp own
    exact h.owned q c hq s _ (by simp [Coordinator.ownerTerm, ht])
  | routed returned owner term => exact h.routed _ returned s o t owner term

theorem reachable_inv {cfg : Config} {σ : Cluster} (h : Reachable (Initial cfg) (Any cfg) σ) :
    Inv cfg σ :=
  h.invariant (fun _ => initial_inv) fun _ _ _ inv _ step => step_inv inv step

/-- Terms are a commit's own revision, so two commits with one term are one. -/
theorem Recorded.unique {pfx : Str} {e : Store} {commits : List Commit}
    (h : Recorded pfx e commits) {a b : Commit} (ha : a ∈ commits) (hb : b ∈ commits)
    (same : a.term = b.term) : a = b := by
  have ahead : commits.Pairwise fun a b => a.term = b.term → a = b :=
    h.increasing.imp fun lt eq => absurd eq (Nat.ne_of_lt lt)
  have behind : commits.Pairwise (flip fun a b : Commit => a.term = b.term → a = b) :=
    h.increasing.imp fun lt eq => absurd eq.symm (Nat.ne_of_lt lt)
  exact ahead.forall_of_forall_of_flip (fun _ _ _ => rfl) behind ha hb same

/-- What is held for a shard is older than its record, or it is the record. -/
theorem held_fenced {cfg : Config} {σ : Cluster} (h : Inv cfg σ) {s : Nat} {kv : KeyValue}
    (current : σ.etcd.get (shardKey cfg.pfx s) = some kv) {o : Str} {t : Nat}
    (held : Held σ s o t) :
    t < kv.modRevision ∨ t = kv.modRevision ∧ o = kv.value := by
  obtain ⟨mem, last⟩ := h.recorded.current s kv current
  obtain ⟨i, known, rfl, rfl⟩ := held_known h held
  rcases known with rfl | known
  · exact .inl (h.recorded.bounded _ mem).1
  · rcases Nat.lt_or_eq_of_le (last _ known rfl) with lt | eq
    · exact .inl lt
    · exact .inr ⟨eq, congrArg Commit.owner (h.recorded.unique known mem eq)⟩

/-- The record that a commit leaves is what loads report until it changes. -/
theorem commit_reported {cfg : Config} {σ σ' : Cluster} {a : Action} (h : Inv cfg σ)
    (step : exec cfg σ a = some σ') {c : Commit} (hc : c ∈ σ'.commits) (new : c ∉ σ.commits)
    (hs : c.shard < shardCount) :
    ∃ kv, σ'.etcd.get (shardKey cfg.pfx c.shard) = some kv ∧
      ∀ τ, Reachable (· = σ') (Any cfg) τ → τ.etcd.get (shardKey cfg.pfx c.shard) = some kv →
        loadOwnershipMap cfg.pfx τ.etcd c.shard = ⟨c.owner, c.term, c.lease⟩ := by
  obtain ⟨cs, moved, commits⟩ := exec_moved step
  rw [commits] at hc
  obtain ⟨-, -, record⟩ := moved.commit ((List.mem_append.mp hc).resolve_left new)
  obtain ⟨kv, hkv, info⟩ := Option.map_eq_some_iff.mp record
  refine ⟨kv, hkv, ?_⟩
  intro τ hτ hk
  have inv : Inv cfg τ := hτ.invariant (fun _ e => e ▸ step_inv h step)
    fun _ _ _ inv _ step => step_inv inv step
  rw [loadOwnershipMap_eq inv.recorded.layout hs, hk]
  exact info

/-- **Terms fence stale owners.** In every run, the terms of successful claims
and rebinds increase in commit order across all shards; the record a commit
leaves is reported as committed for as long as it stays; and a term held for a
shard is smaller than the term of its record, or is that term for that owner. -/
theorem terms_fence {cfg : Config} {σ : Cluster} (h : Reachable (Initial cfg) (Any cfg) σ) :
    (σ.commits.Pairwise fun a b => a.term < b.term) ∧
    (∀ a σ', exec cfg σ a = some σ' → ∀ c ∈ σ'.commits, c ∉ σ.commits → c.shard < shardCount →
      ∃ kv, σ'.etcd.get (shardKey cfg.pfx c.shard) = some kv ∧
        ∀ τ, Reachable (· = σ') (Any cfg) τ → τ.etcd.get (shardKey cfg.pfx c.shard) = some kv →
          loadOwnershipMap cfg.pfx τ.etcd c.shard = ⟨c.owner, c.term, c.lease⟩) ∧
    (∀ s kv, σ.etcd.get (shardKey cfg.pfx s) = some kv → ∀ o t, Held σ s o t →
      t < kv.modRevision ∨ t = kv.modRevision ∧ o = kv.value) := by
  have inv := reachable_inv h
  refine ⟨inv.recorded.increasing, ?_, ?_⟩
  · intro a σ' step c hc new hs
    exact commit_reported inv step hc new hs
  · intro s kv current o t held
    exact held_fenced inv current held

/-- Node `a` claims shard 0 and installs it, then the shard moves to `b`. -/
def moveToB : List Action :=
  sampleJoin 0 "a" ++ sampleJoin 1 "b" ++ List.replicate 8 (.call 0 .ok) ++
    [.request (.release 0 (str "a") 4) .ok, .request (.claim 0 (str "b") 2) .ok]

theorem terms_fence_moveToB : ∃ σ kv t, Reachable (Initial sample) (Any sample) σ ∧
    σ.etcd.get (shardKey sample.pfx 0) = some kv ∧ kv.value = str "b" ∧
    Held σ 0 (str "a") t ∧ t < kv.modRevision := by
  obtain ⟨σ, hσ⟩ : ∃ σ, execute (exec sample) (fun _ _ => true) sampleStart moveToB = some σ :=
    Option.isSome_iff_exists.mp (by decide +kernel)
  have reach := sample_any hσ
  have facts : (execute (exec sample) (fun _ _ => true) sampleStart moveToB).map
      (fun σ => (σ.etcd.get (shardKey sample.pfx 0),
        σ.procs[0]?.map fun c => (c.nodeID, c.owned 0))) =
      some (some ⟨str "b", 6, 6, 2⟩, some (str "a", some 4)) := by decide +kernel
  rw [hσ] at facts
  simp only [Option.map_some, Option.some.injEq, Prod.mk.injEq, Option.map_eq_some_iff] at facts
  obtain ⟨current, c, hc, name, own⟩ := facts
  have held : Held σ 0 (str "a") 4 := by
    have := Held.node (s := 0) hc (by simp [own])
    rwa [name, Coordinator.ownerTerm, own] at this
  refine ⟨σ, _, 4, reach, current, rfl, held, ?_⟩
  rcases (terms_fence reach).2.2 0 _ current _ _ held with lt | ⟨-, owner⟩
  · exact lt
  · exact absurd owner (by decide +kernel)

end MilvusCatalog.Fencing

import MilvusCatalog.Convergence.Phases

/-! Convergence to the rendezvous placement, over whole runs of all members. -/
namespace MilvusCatalog.Convergence
open Go Etcd Transition

/-- Every member has one node, between two rounds and with a live lease, and no
shard is owned by anyone else. -/
structure Start (cfg : Config) (M : List Str) (σ : Cluster) : Prop where
  nonempty : M ≠ []
  named : ∀ m ∈ M, m ≠ []
  layout : Layout cfg.pfx σ.etcd
  members : listMembers cfg.pfx σ.etcd = M
  idle : ∀ (p : Nat) (c : Coordinator), σ.procs[p]? = some c →
    c.pc = .idle ∧ c.nodeID ∈ M ∧ c.leaseID ∈ σ.etcd.leases
  ids : ∀ (p q : Nat) (c d : Coordinator), σ.procs[p]? = some c → σ.procs[q]? = some d →
    c.nodeID = d.nodeID → p = q
  all : ∀ m ∈ M, ∃ (p : Nat) (c : Coordinator), σ.procs[p]? = some c ∧ c.nodeID = m
  owners : ∀ s < shardCount, ∀ m, shardOwner cfg.pfx σ.etcd s = some m → m ∈ M

/-- The runs of the members. -/
abbrev Rounds (cfg : Config) := Run (exec cfg) fun _ a => allowed a = true

/-- Node `p` completes a round before time `u` that it started at `t` or later. -/
def Completes {cfg : Config} (run : Rounds cfg) (p t u : Nat) : Prop :=
  ∃ i j, t ≤ i ∧ i ≤ j ∧ j < u ∧ run.action i = .call p .ok ∧ run.action j = .call p .ok ∧
    (∃ c, (run.state i).procs[p]? = some c ∧ c.pc = .idle) ∧
    ∃ c, (run.state j).procs[p]? = some c ∧ c.pc = .installing

section Runs

variable {cfg : Config} {M : List Str} (run : Rounds cfg)

theorem world_at (start : Start cfg M (run.state 0)) (t : Nat) : World cfg M (run.state t) := by
  induction t with
  | zero =>
    refine ⟨start.named, start.layout, start.members, ?_, start.ids, start.all, start.owners⟩
    intro p c hp
    obtain ⟨idle, mem, live⟩ := start.idle p c hp
    refine ⟨mem, live, ?_⟩
    constructor <;> simp [idle, Pc.running, planned]
  | succ t ih => exact step_world ih (run.permitted t) (run.step t)

/-- A node's own call, as a step of the run. -/
theorem own_call {p t : Nat} {c : Coordinator} (act : run.action t = .call p .ok)
    (hp : (run.state t).procs[p]? = some c) :
    (run.state (t + 1)).procs[p]? =
      some (c.resume cfg (run.state t).etcd (run.state t).now .ok) := by
  have step := run.step t
  rw [act] at step
  obtain ⟨d, hd, stepped⟩ := exec_survives step hp
  cases stepped with
  | stays other => exact absurd rfl other
  | calls => exact hd

/-- A property of one node that every step from `t` on keeps. -/
theorem node_keeps {P : Coordinator → Cluster → Prop} {p t u : Nat} {c : Coordinator}
    (later : t ≤ u) (hc : (run.state t).procs[p]? = some c) (h : P c (run.state t))
    (keeps : ∀ i, t ≤ i → ∀ c d, (run.state i).procs[p]? = some c →
      Stepped cfg (run.state i) p c (run.action i) d → P c (run.state i) →
      P d (run.state (i + 1))) :
    ∃ d, (run.state u).procs[p]? = some d ∧ P d (run.state u) := by
  refine run.keeps (fun σ => ∃ d, σ.procs[p]? = some d ∧ P d σ) later ?_ ⟨c, hc, h⟩
  rintro i hi - ⟨b, hb, hP⟩
  obtain ⟨d, hd, stepped⟩ := exec_survives (run.step i) hb
  exact ⟨d, hd, keeps i hi b d hb stepped hP⟩

theorem nodeID_at {p : Nat} {c₀ : Coordinator} (h₀ : (run.state 0).procs[p]? = some c₀) (t : Nat) :
    ∃ c, (run.state t).procs[p]? = some c ∧ c.nodeID = c₀.nodeID := by
  apply node_keeps run (P := fun c _ => c.nodeID = c₀.nodeID) (Nat.zero_le t) h₀ rfl
  intro _ _ _ _ _ stepped name
  exact stepped.nodeID.trans name

theorem procs_length (t : Nat) : (run.state t).procs.length = (run.state 0).procs.length := by
  induction t with
  | zero => rfl
  | succ t ih =>
    rcases exec_procs (run.step t) with ⟨-, same⟩ | ⟨_, _, _, -, -, -, set⟩ | ⟨_, _, spawn, -⟩
    · rw [same, ih]
    · rw [set, List.length_set, ih]
    · have := run.permitted t
      rw [spawn] at this
      cases this

/-- A property of a node that holds when it lists the members and that every
step from `t` on keeps, holds when a round completes. -/
theorem round_reaches {P : Cluster → Coordinator → Prop} {p t u : Nat}
    (begins : ∀ σ c, c.pc = .listMembers → P σ c)
    (keeps : ∀ i, t ≤ i → ∀ c d, (run.state i).procs[p]? = some c →
      Stepped cfg (run.state i) p c (run.action i) d → P (run.state i) c → P (run.state (i + 1)) d)
    (h : Completes run p t u) : ∃ j c, t ≤ j ∧ j < u ∧ run.action j = .call p .ok ∧
      (run.state j).procs[p]? = some c ∧ c.pc = .installing ∧ P (run.state j) c := by
  obtain ⟨i, j, hti, hij, hju, first, last, ⟨c, hc, idle⟩, d, hd, installing⟩ := h
  have next := own_call run first hc
  have ne : i ≠ j := by
    rintro rfl
    rw [hc, Option.some.injEq] at hd
    rw [← hd, idle] at installing
    cases installing
  obtain ⟨b, hb, hP⟩ := node_keeps run (P := fun c σ => P σ c) (show i + 1 ≤ j by omega) next
    (begins _ _ (by simp [Coordinator.resume, idle])) fun k hk => keeps k (by omega)
  rw [hb, Option.some.injEq] at hd
  exact ⟨j, b, by omega, hju, last, hb, hd ▸ installing, hP⟩

/-- The steps of a run, as one node sees them: a call of its own, or a step that
leaves its round and its maps alone. -/
theorem node_step (world : ∀ t, World cfg M (run.state t)) {p t : Nat} {c d : Coordinator}
    (hp : (run.state t).procs[p]? = some c)
    (stepped : Stepped cfg (run.state t) p c (run.action t) d) :
    (d = c.resume cfg (run.state t).etcd (run.state t).now .ok ∧
      ∀ s, shardOwner cfg.pfx (run.state (t + 1)).etcd s =
        writes c.pc c.nodeID (shardOwner cfg.pfx (run.state t).etcd) s) ∨
    ∃ m, d = { c with membership := m } := by
  have permitted := run.permitted t
  have step := run.step t
  generalize run.action t = a at permitted step stepped
  cases stepped with
  | stays => exact .inr ⟨c.membership, rfl⟩
  | records => exact .inr ⟨_, rfl⟩
  | @calls o =>
    cases o with
    | ok =>
      refine .inl ⟨rfl, ?_⟩
      obtain ⟨-, live, plan⟩ := (world t).node p c hp
      generalize run.state (t + 1) = σ' at step
      cases exec_step step with
      | call hq =>
        obtain rfl := Option.some.inj (hp.symm.trans hq)
        exact issue_owner live plan.running
    | failed | late => cases permitted
  | _ => cases permitted

theorem cleared_at (world : ∀ t, World cfg M (run.state t)) {T : Nat}
    (first : ∀ (p : Nat) (c : Coordinator), (run.state 0).procs[p]? = some c → Completes run p 0 T)
    {u : Nat} (hu : T ≤ u) {s : Nat} (hs : s < shardCount) {m : Str}
    (own : shardOwner cfg.pfx (run.state u).etcd s = some m) : cfg.rendezvous s M = m := by
  obtain ⟨p, c₀, h₀, name⟩ := (world 0).all m ((world u).owners s hs m own)
  have keeps : ∀ i, 0 ≤ i → ∀ c d, (run.state i).procs[p]? = some c →
      Stepped cfg (run.state i) p c (run.action i) d → Clearing cfg M (run.state i) c →
      Clearing cfg M (run.state (i + 1)) d := by
    intro i _ c d hc stepped h
    rcases node_step run world hc stepped with ⟨rfl, owner⟩ | ⟨m, rfl⟩
    · exact resume_clearing (world i).layout ((world i).node p c hc).2.2 owner h
    · intro todo htodo s hs own wrong
      rcases owner_new (world i) (run.permitted i) (run.step i) own with old | ⟨mine, -⟩
      · exact h todo htodo s hs old wrong
      · exact absurd mine wrong
  obtain ⟨j, c, -, hj, -, hc, installing, clearing⟩ :=
    round_reaches run (fun σ c hpc => by simp [Clearing, toRelease, hpc]) keeps (first p c₀ h₀)
  have mine : c.nodeID = m := by
    obtain ⟨d, hd, same⟩ := nodeID_at run h₀ j
    rw [hc, Option.some.injEq] at hd
    rw [hd, same, name]
  -- From the end of that round on the node holds no shard that is not its own.
  refine run.keeps (fun σ => shardOwner cfg.pfx σ.etcd s = some m → cfg.rendezvous s M = m)
    (show j ≤ u by omega) (fun i _ _ ih own => ?_) (fun own => ?_) own
  · rcases owner_new (world i) (run.permitted i) (run.step i) own with old | ⟨mine, -⟩
    · exact ih old
    · exact mine
  · by_contra wrong
    have := clearing [] (by simp [toRelease, installing]) s hs (mine ▸ own) (mine ▸ wrong)
    cases this

theorem owner_at (world : ∀ t, World cfg M (run.state t)) {t u : Nat} (h : t ≤ u) {s : Nat}
    (own : shardOwner cfg.pfx (run.state t).etcd s = some (cfg.rendezvous s M)) :
    shardOwner cfg.pfx (run.state u).etcd s = some (cfg.rendezvous s M) :=
  run.keeps (fun σ => shardOwner cfg.pfx σ.etcd s = some (cfg.rendezvous s M)) h
    (fun i _ _ ih => owner_stays (world i) (run.permitted i) (run.step i) ih) own

theorem placed_at (world : ∀ t, World cfg M (run.state t)) (nonempty : M ≠ []) {T U : Nat}
    (cleared : ∀ u, T ≤ u → ∀ s < shardCount, ∀ m,
      shardOwner cfg.pfx (run.state u).etcd s = some m → cfg.rendezvous s M = m)
    (second : ∀ (p : Nat) (c : Coordinator), (run.state 0).procs[p]? = some c → Completes run p T U)
    {u : Nat} (hu : U ≤ u) {s : Nat} (hs : s < shardCount) :
    shardOwner cfg.pfx (run.state u).etcd s = some (cfg.rendezvous s M) := by
  have mem : cfg.rendezvous s M ∈ M := rendezvous_mem _ _ nonempty (world 0).named
  obtain ⟨p, c₀, h₀, name⟩ := (world 0).all _ mem
  have keeps : ∀ i, T ≤ i → ∀ c d, (run.state i).procs[p]? = some c →
      Stepped cfg (run.state i) p c (run.action i) d → Filling cfg M (run.state i) c →
      Filling cfg M (run.state (i + 1)) d := by
    intro i hi c d hc stepped h
    rcases node_step run world hc stepped with ⟨rfl, owner⟩ | ⟨m, rfl⟩
    · exact resume_filling (world i).layout ((world i).node p c hc).2.2 owner h
    · intro todo htodo s hs mine free
      apply h todo htodo s hs mine
      -- A shard that was taken was in its place, and stays there.
      cases old : shardOwner cfg.pfx (run.state i).etcd s with
      | none => rfl
      | some m =>
        have right := cleared i hi s hs m old
        rw [← right] at old
        rw [owner_stays (world i) (run.permitted i) (run.step i) old] at free
        cases free
  obtain ⟨j, c, hj, hju, -, hc, installing, filling⟩ :=
    round_reaches run (fun σ c hpc => by simp [Filling, toClaim, hpc]) keeps (second p c₀ h₀)
  have mine : cfg.rendezvous s M = c.nodeID := by
    obtain ⟨d, hd, same⟩ := nodeID_at run h₀ j
    rw [hc, Option.some.injEq] at hd
    rw [hd, same, name]
  refine owner_at run world (show j ≤ u by omega) ?_
  cases own : shardOwner cfg.pfx (run.state j).etcd s with
  | none =>
    have := filling [] (by simp [toClaim, installing]) s hs mine own
    cases this
  | some m => rw [cleared j hj s hs m own]

theorem aligned_at (world : ∀ t, World cfg M (run.state t)) {U V : Nat}
    (placed : ∀ u, U ≤ u → ∀ s < shardCount,
      shardOwner cfg.pfx (run.state u).etcd s = some (cfg.rendezvous s M))
    {p : Nat} (third : Completes run p U V) {u : Nat} (hu : V ≤ u) :
    ∃ c, (run.state u).procs[p]? = some c ∧ Aligned cfg M c := by
  have keeps : ∀ i, U ≤ i → ∀ c d, (run.state i).procs[p]? = some c →
      Stepped cfg (run.state i) p c (run.action i) d → Aligning cfg M c → Aligning cfg M d := by
    intro i hi c d hc stepped h
    rcases node_step run world hc stepped with ⟨rfl, -⟩ | ⟨m, rfl⟩
    · exact resume_aligning (world i).layout ((world i).node p c hc).2.2 (placed i hi) h
    · exact ⟨h.release, h.om⟩
  obtain ⟨j, c, hj, hjv, act, hc, installing, aligning⟩ :=
    round_reaches run (P := fun _ c => Aligning cfg M c)
      (fun _ c hpc => ⟨by simp [hpc, decided], by simp [hpc, Pc.loaded]⟩) keeps third
  obtain ⟨d, hd, stepped⟩ := exec_survives (run.step j) hc
  have installed : Aligned cfg M d := by
    have next := own_call run act hc
    rw [hd, Option.some.injEq] at next
    rw [next]
    simpa only [Coordinator.resume, installing] using install_aligned aligning installing
  have done := keeps j hj c d hc stepped aligning
  obtain ⟨f, hf, -, aligned⟩ := node_keeps run (P := fun c _ => Aligning cfg M c ∧ Aligned cfg M c)
    (show j + 1 ≤ u by omega) hd ⟨done, installed⟩ (by
      rintro i hi b b' hb stepped ⟨before, now⟩
      refine ⟨keeps i (by omega) b b' hb stepped before, ?_⟩
      rcases node_step run world hb stepped with ⟨rfl, -⟩ | ⟨m, rfl⟩
      · exact resume_aligned _ _ ((world i).node p b hb).2.2 before now
      · exact now)
  exact ⟨f, hf, aligned⟩

/-! ### Rounds complete -/

/-- The node is called again and again. -/
def Fair (p : Nat) : Prop := ∀ t, ∃ n, run.action (t + n) = .call p .ok

/-- Until its next call a node stays where it is. -/
theorem next_call {p : Nat} (fair : Fair run p) {t : Nat} {c : Coordinator}
    (hc : (run.state t).procs[p]? = some c) : ∃ u d, t ≤ u ∧ run.action u = .call p .ok ∧
      (run.state u).procs[p]? = some d ∧ d.pc = c.pc := by
  obtain ⟨n, act⟩ := fair t
  induction n generalizing t c with
  | zero => exact ⟨t, c, Nat.le_refl _, act, hc, rfl⟩
  | succ n ih =>
    by_cases now : run.action t = .call p .ok
    · exact ⟨t, c, Nat.le_refl _, now, hc, rfl⟩
    · obtain ⟨d, hd, stepped⟩ := exec_survives (run.step t) hc
      have permitted := run.permitted t
      have same : d.pc = c.pc := by
        generalize run.action t = a at now permitted stepped
        cases stepped with
        | stays | records => rfl
        | @calls o =>
          cases o with
          | ok => exact absurd rfl now
          | failed | late => cases permitted
        | _ => cases permitted
      obtain ⟨u, b, hu, called, hb, there⟩ := ih hd (by rwa [Nat.succ_add_eq_add_succ])
      exact ⟨u, b, by omega, called, hb, there.trans same⟩

/-- A node that stands at `pc` is called there at some time. -/
theorem called_from {p : Nat} (fair : Fair run p) {t : Nat} {c : Coordinator}
    (hc : (run.state t).procs[p]? = some c) : ∃ (u : Nat) (d : Coordinator) (e : Store) (now : Nat),
      t < u ∧ d.pc = c.pc ∧ (run.state u).procs[p]? = some (d.resume cfg e now .ok) := by
  obtain ⟨u, d, hu, act, hd, same⟩ := next_call run fair hc
  exact ⟨u + 1, d, _, _, by omega, same, own_call run act hd⟩

/-- Node `p` stands at its install at `t` or later. -/
def Installs (p t : Nat) : Prop :=
  ∃ u c, t ≤ u ∧ (run.state u).procs[p]? = some c ∧ c.pc = .installing

theorem Installs.mono {p t u : Nat} (h : Installs run p u) (le : t ≤ u) : Installs run p t := by
  obtain ⟨v, c, hv, hc⟩ := h
  exact ⟨v, c, by omega, hc⟩

theorem rebinding_installs {p : Nat} (fair : Fair run p) (todo : List Nat) :
    ∀ t c, (run.state t).procs[p]? = some c → c.pc = .rebinding todo → Installs run p t := by
  induction todo with
  | nil =>
    intro t c hc hpc
    obtain ⟨u, d, _, _, hu, same, hd⟩ := called_from run fair hc
    exact ⟨u, _, by omega, hd, by simp [Coordinator.resume, same, hpc]⟩
  | cons s todo ih =>
    intro t c hc hpc
    obtain ⟨u, d, _, _, hu, same, hd⟩ := called_from run fair hc
    exact (ih u _ hd (by simp [Coordinator.resume, same, hpc])).mono run (by omega)

theorem loading_installs {p : Nat} (fair : Fair run p) {t : Nat} {c : Coordinator}
    (hc : (run.state t).procs[p]? = some c) (hpc : c.pc = .loadOwnershipMap) :
    Installs run p t := by
  obtain ⟨u, d, e, now, hu, same, hd⟩ := called_from run fair hc
  obtain ⟨todo, there⟩ : ∃ todo, (d.resume cfg e now .ok).pc = .rebinding todo := by
    simp [Coordinator.resume, same, hpc]
  exact (rebinding_installs run fair todo u _ hd there).mono run (by omega)

theorem marking_installs {p : Nat} (fair : Fair run p) (todo : List Nat) :
    ∀ t c, (run.state t).procs[p]? = some c → c.pc = .marking todo → Installs run p t := by
  induction todo with
  | nil =>
    intro t c hc hpc
    obtain ⟨u, d, _, _, hu, same, hd⟩ := called_from run fair hc
    exact (loading_installs run fair hd (by simp [Coordinator.resume, same, hpc])).mono run
      (by omega)
  | cons s todo ih =>
    intro t c hc hpc
    -- The mark and the release are two calls.
    obtain ⟨u, d, _, _, hu, same, hd⟩ := called_from run fair hc
    obtain ⟨v, b, _, _, hv, same', hb⟩ := called_from run fair hd
    have releasing : b.pc = .releasing (s :: todo) := by
      rw [same']
      simp [Coordinator.resume, same, hpc]
    exact (ih v _ hb (by simp [Coordinator.resume, releasing])).mono run (by omega)

theorem claiming_installs {p : Nat} (fair : Fair run p) (todo : List Nat) :
    ∀ t c, (run.state t).procs[p]? = some c → c.pc = .claiming todo → Installs run p t := by
  induction todo with
  | nil =>
    intro t c hc hpc
    obtain ⟨u, d, _, _, hu, same, hd⟩ := called_from run fair hc
    refine (marking_installs run fair d.round.release u _ hd ?_).mono run (by omega)
    simp [Coordinator.resume, same, hpc]
  | cons s todo ih =>
    intro t c hc hpc
    obtain ⟨u, d, _, _, hu, same, hd⟩ := called_from run fair hc
    exact (ih u _ hd (by simp [Coordinator.resume, same, hpc])).mono run (by omega)

theorem idle_installs {p : Nat} (fair : Fair run p) {t : Nat} {c : Coordinator}
    (hc : (run.state t).procs[p]? = some c) (hpc : c.pc = .idle) : Installs run p t := by
  obtain ⟨u, d, _, _, hu, same, hd⟩ := called_from run fair hc
  obtain ⟨v, b, _, _, hv, same', hb⟩ := called_from run fair hd
  obtain ⟨w, a, e, now, hw, same'', ha⟩ := called_from run fair hb
  have listing : b.pc = .listMembers := by
    rw [same']
    simp [Coordinator.resume, same, hpc]
  have loading : a.pc = .loadShardMap := by
    rw [same'']
    simp [Coordinator.resume, listing]
  obtain ⟨todo, there⟩ : ∃ todo, (a.resume cfg e now .ok).pc = .claiming todo := by
    simp [Coordinator.resume, loading]
  exact (claiming_installs run fair todo w _ ha there).mono run (by omega)

theorem node_at (p : Nat) (hp : p < (run.state 0).procs.length) (t : Nat) :
    ∃ c, (run.state t).procs[p]? = some c :=
  ⟨_, List.getElem?_eq_getElem ((procs_length run t).symm ▸ hp)⟩

/-- Wherever a running node stands, it comes to an install. -/
theorem running_installs {p : Nat} (fair : Fair run p) {t : Nat} {c : Coordinator}
    (hc : (run.state t).procs[p]? = some c) (running : c.pc.running) : Installs run p t := by
  have loads {t : Nat} {c : Coordinator} (hc : (run.state t).procs[p]? = some c)
      (hpc : c.pc = .loadShardMap) : Installs run p t := by
    obtain ⟨u, d, e, now, hu, same, hd⟩ := called_from run fair hc
    obtain ⟨todo, there⟩ : ∃ todo, (d.resume cfg e now .ok).pc = .claiming todo := by
      simp [Coordinator.resume, same, hpc]
    exact (claiming_installs run fair todo u _ hd there).mono run (by omega)
  cases hpc : c.pc with
  | granting | putting | keepingAlive | revoking | stopped => rw [hpc] at running; cases running
  | idle => exact idle_installs run fair hc hpc
  | listMembers =>
    obtain ⟨u, d, _, _, hu, same, hd⟩ := called_from run fair hc
    exact (loads hd (by simp [Coordinator.resume, same, hpc])).mono run (by omega)
  | loadShardMap => exact loads hc hpc
  | claiming todo => exact claiming_installs run fair todo t c hc hpc
  | marking todo => exact marking_installs run fair todo t c hc hpc
  | releasing todo =>
    obtain ⟨u, d, _, _, hu, same, hd⟩ := called_from run fair hc
    cases todo with
    | nil =>
      exact (loading_installs run fair hd (by simp [Coordinator.resume, same, hpc])).mono run
        (by omega)
    | cons s todo =>
      exact (marking_installs run fair todo u _ hd
        (by simp [Coordinator.resume, same, hpc])).mono run (by omega)
  | loadOwnershipMap => exact loading_installs run fair hc hpc
  | rebinding todo => exact rebinding_installs run fair todo t c hc hpc
  | installing => exact ⟨t, c, Nat.le_refl t, hc, hpc⟩

theorem comes_idle {p : Nat} (fair : Fair run p) {t : Nat} {c : Coordinator}
    (hc : (run.state t).procs[p]? = some c) (running : c.pc.running) :
    ∃ u d, t ≤ u ∧ (run.state u).procs[p]? = some d ∧ d.pc = .idle := by
  obtain ⟨u, d, hu, hd, installing⟩ := running_installs run fair hc running
  obtain ⟨v, b, _, _, hv, same, hb⟩ := called_from run fair hd
  exact ⟨v, _, by omega, hb, by simp [Coordinator.resume, same, installing, Coordinator.install]⟩

/-- **Rounds complete.** A node that is called again and again, and is between
two rounds, completes its next one. -/
theorem completes_of_fair {p : Nat} (fair : Fair run p) {t : Nat} {c : Coordinator}
    (hc : (run.state t).procs[p]? = some c) (hpc : c.pc = .idle) :
    ∃ u d, Completes run p t u ∧ (run.state u).procs[p]? = some d ∧ d.pc = .idle := by
  obtain ⟨i, b, hi, first, hb, idle⟩ := next_call run fair hc
  rw [hpc] at idle
  obtain ⟨v, a, hv, ha, there⟩ := idle_installs run fair hb idle
  obtain ⟨j, d, hj, last, hd, installing⟩ := next_call run fair ha
  rw [there] at installing
  refine ⟨j + 1, _, ⟨i, j, hi, by omega, by omega, first, last, ⟨b, hb, idle⟩, d, hd, installing⟩,
    own_call run last hd, ?_⟩
  simp [Coordinator.resume, installing, Coordinator.install]

theorem Completes.mono {run : Rounds cfg} {p t t' u u' : Nat} (h : Completes run p t u)
    (earlier : t' ≤ t) (later : u ≤ u') : Completes run p t' u' := by
  obtain ⟨i, j, hti, hij, hju, rest⟩ := h
  exact ⟨i, j, by omega, hij, by omega, rest⟩

/-- From any time on, all nodes complete a further round. -/
theorem all_complete (world : ∀ t, World cfg M (run.state t))
    (fair : ∀ p < (run.state 0).procs.length, Fair run p) (t : Nat) :
    ∃ u, ∀ (p : Nat) (c : Coordinator), (run.state 0).procs[p]? = some c →
      Completes run p t u := by
  obtain ⟨u, all⟩ : ∃ u, ∀ p < (run.state 0).procs.length, ∀ v, u ≤ v →
      Completes run p t v := by
    apply eventually_all
    intro p hp
    obtain ⟨c, hc⟩ := node_at run p hp t
    obtain ⟨i, d, hi, hd, idle⟩ := comes_idle run (fair p hp) hc ((world t).node p c hc).2.2.running
    obtain ⟨u, -, completes, -⟩ := completes_of_fair run (fair p hp) hd idle
    exact ⟨u, fun v hv => completes.mono hi hv⟩
  exact ⟨u, fun p c hc => all p (List.getElem?_eq_some_iff.mp hc).1 u (Nat.le_refl u)⟩

end Runs

/-- **Convergence to the rendezvous placement.** A shard that has reached its
rendezvous owner stays there; after a round of every node started in a first
phase and one started in a second, every shard is there; and after one further
round of every node the owned maps are disjoint, cover all shards and have no
shard marked. -/
theorem rounds_converge {cfg : Config} {M : List Str} (run : Rounds cfg)
    (start : Start cfg M (run.state 0)) :
    (∀ t u, t ≤ u → ∀ s, shardOwner cfg.pfx (run.state t).etcd s = some (cfg.rendezvous s M) →
      shardOwner cfg.pfx (run.state u).etcd s = some (cfg.rendezvous s M)) ∧
    ∀ T U V,
      (∀ p < (run.state 0).procs.length, Completes run p 0 T) →
      (∀ p < (run.state 0).procs.length, Completes run p T U) →
      (∀ u, U ≤ u → ∀ s < shardCount,
        shardOwner cfg.pfx (run.state u).etcd s = some (cfg.rendezvous s M)) ∧
      ((∀ p < (run.state 0).procs.length, Completes run p U V) → ∀ u, V ≤ u →
        (∀ (p : Nat) (c : Coordinator), (run.state u).procs[p]? = some c →
          ∀ s, c.releasing s = false) ∧
        (∀ (p q : Nat) (c d : Coordinator) (s : Nat), (run.state u).procs[p]? = some c →
          (run.state u).procs[q]? = some d → (c.owned s).isSome → (d.owned s).isSome → p = q) ∧
        ∀ s < shardCount, ∃ (p : Nat) (c : Coordinator), (run.state u).procs[p]? = some c ∧
          (c.owned s).isSome) := by
  have world := world_at run start
  refine ⟨fun t u h s => owner_at run world h, fun T U V first second => ?_⟩
  have cleared := fun u hu s hs m => cleared_at run world
    (fun p c hp => first p (List.getElem?_eq_some_iff.mp hp).1) (u := u) hu (s := s) hs (m := m)
  have placed := fun u hu s hs => placed_at run world start.nonempty cleared
    (fun p c hp => second p (List.getElem?_eq_some_iff.mp hp).1) (u := u) hu (s := s) hs
  refine ⟨placed, fun third u hu => ?_⟩
  have nodes := procs_length run u
  have aligned {p : Nat} {c : Coordinator} (hp : (run.state u).procs[p]? = some c) :
      Aligned cfg M c := by
    have lt : p < (run.state 0).procs.length := nodes ▸ (List.getElem?_eq_some_iff.mp hp).1
    obtain ⟨d, hd, h⟩ := aligned_at run world placed (third p lt) hu
    rw [hp, Option.some.injEq] at hd
    exact hd ▸ h
  refine ⟨fun p c hp s => (aligned hp s).1, ?_, ?_⟩
  · intro p q c d s hp hq left right
    apply (world u).ids p q c d hp hq
    rw [← ((aligned hp s).2.mp left).2, ← ((aligned hq s).2.mp right).2]
  · intro s hs
    have mem : cfg.rendezvous s M ∈ M := rendezvous_mem _ _ start.nonempty start.named
    obtain ⟨p, c, hp, name⟩ := (world u).all _ mem
    exact ⟨p, c, hp, (aligned hp s).2.mpr ⟨hs, name.symm⟩⟩

/-- The nodes of the list are called in turn. -/
def turn (crew : List Nat) (t : Nat) : Action := .call (crew[t % crew.length]?.getD 0) .ok

theorem turn_of_pos {crew : List Nat} (nonempty : crew ≠ []) (t : Nat) :
    ∃ p ∈ crew, turn crew t = .call p .ok := by
  have lt : t % crew.length < crew.length := Nat.mod_lt t (List.length_pos_iff.mpr nonempty)
  refine ⟨crew[t % crew.length], List.getElem_mem lt, ?_⟩
  rw [turn, List.getElem?_eq_getElem lt, Option.getD_some]

theorem turn_comes {crew : List Nat} {p : Nat} (hp : p ∈ crew) (t : Nat) :
    ∃ n, turn crew (t + n) = .call p .ok := by
  obtain ⟨i, hi, rfl⟩ := List.getElem_of_mem hp
  -- A whole turn further is a time at which it is the node's.
  refine ⟨(t + 1) * crew.length + i - t, ?_⟩
  have later : t ≤ (t + 1) * crew.length + i := by
    have := Nat.le_mul_of_pos_right (t + 1) (show 0 < crew.length by omega)
    omega
  rw [turn, Nat.add_sub_cancel' later, Nat.mul_add_mod_self_right, Nat.mod_eq_of_lt hi,
    List.getElem?_eq_getElem hi, Option.getD_some]

/-- The run in which the nodes of the list are called in turn. -/
theorem exists_turns {cfg : Config} {allowed : Cluster → Action → Prop} {crew : List Nat}
    (nonempty : crew ≠ []) (permitted : ∀ σ, ∀ p ∈ crew, allowed σ (.call p .ok)) {σ : Cluster}
    (there : ∀ p ∈ crew, p < σ.procs.length) : ∃ run : Run (exec cfg) allowed,
      run.state 0 = σ ∧ ∀ p ∈ crew, ∀ t, ∃ n, run.action (t + n) = .call p .ok := by
  have called (σ : Cluster) (p : Nat) (hp : p < σ.procs.length) :
      ∃ σ', exec cfg σ (.call p .ok) = some σ' ∧ σ'.procs.length = σ.procs.length := by
    refine ⟨_, by simp only [exec, List.getElem?_eq_getElem hp]; rfl, ?_⟩
    simp [Cluster.update, Cluster.wrote]
  have nodes (t : Nat) : (along (exec cfg) (turn crew) σ t).procs.length = σ.procs.length := by
    induction t with
    | zero => rfl
    | succ t ih =>
      obtain ⟨p, hp, act⟩ := turn_of_pos nonempty t
      obtain ⟨σ', step, same⟩ := called _ p (ih ▸ there p hp)
      rw [along, act, step, Option.getD_some, same, ih]
  refine ⟨.along (turn crew) σ fun t => ?_, rfl, fun p hp t => turn_comes hp t⟩
  obtain ⟨p, hp, act⟩ := turn_of_pos nonempty t
  obtain ⟨σ', step, -⟩ := called _ p (nodes t ▸ there p hp)
  rw [act]
  exact ⟨permitted _ p hp, Option.isSome_iff_exists.mpr ⟨σ', step⟩⟩

/-- Nodes `a` and `b` have joined, their first rounds have failed, and each of them
has a shard that is to be the other's. -/
def crossed : List Action :=
  sampleJoin 0 "a" ++ sampleJoin 1 "b" ++ [.call 0 (.failed false), .call 1 (.failed false),
    .request (.claim 0 (str "b") 2) .ok, .request (.claim 1 (str "a") 1) .ok]

theorem rounds_converge_crossed : ∃ (run : Rounds sample) (U V : Nat),
    Start sample [str "a", str "b"] (run.state 0) ∧ (run.state 0).procs.length = 2 ∧
    sample.rendezvous 0 [str "a", str "b"] = str "a" ∧
    shardOwner sample.pfx (run.state 0).etcd 0 = some (str "b") ∧
    sample.rendezvous 1 [str "a", str "b"] = str "b" ∧
    shardOwner sample.pfx (run.state 0).etcd 1 = some (str "a") ∧
    (∀ p < 2, ∀ t, ∃ n, run.action (t + n) = .call p .ok) ∧
    (∀ s < shardCount, shardOwner sample.pfx (run.state U).etcd s =
      some (sample.rendezvous s [str "a", str "b"])) ∧
    ∀ s < shardCount, ∃ (p : Nat) (c : Coordinator), (run.state V).procs[p]? = some c ∧
      (c.owned s).isSome := by
  have joined : (execute (exec sample) (fun _ _ => true) sampleStart crossed).any (fun σ =>
      listMembers sample.pfx σ.etcd = [str "a", str "b"] ∧ σ.procs.length = 2 ∧
      shardOwner sample.pfx σ.etcd 0 = some (str "b") ∧
      shardOwner sample.pfx σ.etcd 1 = some (str "a") ∧
      (∀ s < shardCount, ∀ m ∈ shardOwner sample.pfx σ.etcd s, m = str "a" ∨ m = str "b") ∧
      ∀ p < 2, ∀ c ∈ σ.procs[p]?, c.pc = .idle ∧ [str "a", str "b"][p]? = some c.nodeID ∧
        c.leaseID ∈ σ.etcd.leases) = true := by decide +kernel
  obtain ⟨σ, hσ, test⟩ := (Option.any_eq_true _ _).mp joined
  simp only [decide_eq_true_eq, Option.mem_def] at test
  obtain ⟨members, two, shard0, shard1, owned, nodes⟩ := test
  have node {p : Nat} {c : Coordinator} (hp : σ.procs[p]? = some c) :=
    nodes p (two ▸ (List.getElem?_eq_some_iff.mp hp).1) c hp
  have distinct : [str "a", str "b"].Nodup := by decide +kernel
  have start : Start sample [str "a", str "b"] σ := by
    refine ⟨by simp, by decide +kernel, reachable_layout (sample_any hσ), members, ?_, ?_, ?_, ?_⟩
    · intro p c hp
      obtain ⟨idle, name, live⟩ := node hp
      exact ⟨idle, List.mem_of_getElem? name, live⟩
    · intro p q c d hp hq same
      obtain ⟨-, left, -⟩ := node hp
      obtain ⟨-, right, -⟩ := node hq
      rw [← same, ← left] at right
      exact (List.getElem?_inj (List.getElem?_eq_some_iff.mp left).1 distinct).mp right.symm
    · intro m hm
      obtain ⟨p, name⟩ := List.mem_iff_getElem?.mp hm
      have lt : p < σ.procs.length := two ▸ (List.getElem?_eq_some_iff.mp name).1
      have at_ := List.getElem?_eq_getElem lt
      exact ⟨p, _, at_, Option.some.inj ((node at_).2.1.symm.trans name)⟩
    · intro s hs m own
      simpa using owned s hs m own
  obtain ⟨run, rfl, fair⟩ : ∃ run : Rounds sample, run.state 0 = σ ∧
      ∀ p ∈ [0, 1], ∀ t, ∃ n, run.action (t + n) = .call p .ok :=
    exists_turns (by simp) (fun _ _ _ => rfl) (by simp [two])
  have fair (p : Nat) (hp : p < 2) : Fair run p := fair p (by simp; omega)
  have each (t : Nat) : ∃ u, ∀ p < (run.state 0).procs.length, Completes run p t u := by
    obtain ⟨u, all⟩ := all_complete run (world_at run start) (fun p hp => fair p (two ▸ hp)) t
    exact ⟨u, fun p hp => all p _ (List.getElem?_eq_getElem hp)⟩
  obtain ⟨T, first⟩ := each 0
  obtain ⟨U, second⟩ := each T
  obtain ⟨V, third⟩ := each U
  obtain ⟨placed, covered⟩ := (rounds_converge run start).2 T U V first second
  exact ⟨run, U, V, start, two, by decide +kernel, shard0, by decide +kernel, shard1, fair,
    placed U (Nat.le_refl U), (covered third V (Nat.le_refl V)).2.2⟩

end MilvusCatalog.Convergence

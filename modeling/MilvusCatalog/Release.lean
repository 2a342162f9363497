import MilvusCatalog.Fencing
import MilvusCatalog.SplitBrain

/-! What a release can delete. The transaction compares the owner and not the
term, so a release that etcd applies late spares other nodes' records and may
still meet a later record of its own node. It meets the record that its round
observed as long as nobody claims or rebinds the shard under the node's id while
the release is outstanding. -/
namespace MilvusCatalog.Release
open Go Etcd Transition

/-- A round saw shard `s` under node `nodeID` and term `seen`, and no older
record has come back since. A node without an id takes unowned shards for its
own; it saw them under term zero. -/
structure Observed (pfx : Str) (σ : Cluster) (s : Nat) (nodeID : Str) (seen : Nat) : Prop where
  commit : nodeID ≠ [] → ∃ l, ⟨s, nodeID, l, seen⟩ ∈ σ.commits
  past : seen ≤ σ.etcd.revision
  behind : ∀ kv, σ.etcd.get (shardKey pfx s) = some kv → seen ≤ kv.modRevision

theorem Observed.step {cfg : Config} {σ σ' : Cluster} {a : Action} {s : Nat} {nodeID : Str}
    {seen : Nat} (h : Observed cfg.pfx σ s nodeID seen) (step : exec cfg σ a = some σ') :
    Observed cfg.pfx σ' s nodeID seen := by
  obtain ⟨cs, moved, commits⟩ := exec_moved step
  refine ⟨fun named => ?_, Nat.le_trans h.past moved.revision_le, fun kv hk => ?_⟩
  · obtain ⟨l, mem⟩ := h.commit named
    exact ⟨l, commits ▸ List.mem_append_left _ mem⟩
  · rcases moved.record hk with old | new
    · exact h.behind kv old
    · have term := (moved.commit new).1
      have past := h.past
      dsimp only at term
      omega

/-- What a load sees of a shard it takes for the node's own. -/
theorem observed_now {cfg : Config} {σ : Cluster} (h : Fencing.Inv cfg σ) {s : Nat}
    (hs : s < shardCount) {nodeID : Str} (own : loadShardMap cfg.pfx σ.etcd s = nodeID) :
    Observed cfg.pfx σ s nodeID (loadOwnershipMap cfg.pfx σ.etcd s).term := by
  have recorded := h.recorded
  rw [loadShardMap_eq recorded.layout hs] at own
  rw [loadOwnershipMap_eq recorded.layout hs]
  cases hk : σ.etcd.get (shardKey cfg.pfx s) with
  | none =>
    rw [hk] at own
    exact ⟨fun named => absurd own.symm named, Nat.zero_le _, by simp [hk]⟩
  | some kv =>
    rw [hk] at own
    obtain rfl : kv.value = nodeID := own
    obtain ⟨mem, -⟩ := recorded.current s kv hk
    refine ⟨fun _ => ⟨kv.lease, mem⟩, (recorded.bounded _ mem).2, fun kv' hk' => ?_⟩
    obtain rfl := Option.some.inj (hk.symm.trans hk')
    exact Nat.le_refl _

/-- A release carries what its round observed; other requests delete nothing. -/
def Carries (pfx : Str) (σ : Cluster) : Request → Prop
  | .release s nodeID seen => Observed pfx σ s nodeID seen
  | _ => True

theorem Carries.step {cfg : Config} {σ σ' : Cluster} {a : Action} {r : Request}
    (h : Carries cfg.pfx σ r) (step : exec cfg σ a = some σ') : Carries cfg.pfx σ' r := by
  cases r with
  | release => exact Observed.step h step
  | _ => trivial

structure Local (pfx : Str) (σ : Cluster) (c : Coordinator) : Prop where
  observed : ∀ s ∈ c.round.release, Observed pfx σ s c.nodeID (c.round.seen s)
  due : ∀ todo, c.pc = .marking todo ∨ c.pc = .releasing todo → ∀ s ∈ todo, s ∈ c.round.release

theorem Local.request {pfx : Str} {σ : Cluster} {c : Coordinator} (h : Local pfx σ c) {r : Request}
    (hr : c.request = some r) : Carries pfx σ r := by
  unfold Coordinator.request at hr
  split at hr <;> cases hr
  · trivial
  · trivial
  · next hpc => exact h.observed _ (h.due _ (.inr hpc) _ (by simp))
  · trivial

structure Inv (cfg : Config) (σ : Cluster) : Prop where
  history : Fencing.Inv cfg σ
  node : ∀ (q : Nat) (c : Coordinator), σ.procs[q]? = some c → Local cfg.pfx σ c
  sent : ∀ r ∈ σ.inflight, Carries cfg.pfx σ r

/-- Releases come from the rounds of nodes; everything else may happen. -/
def allowed : Action → Bool
  | .request (.release _ _ _) _ => false
  | _ => true

/-- A round replaces what it decided to release by loading the shard map. -/
theorem resume_observed {cfg : Config} {σ : Cluster} {c : Coordinator} {o : Outcome}
    (history : Fencing.Inv cfg σ)
    (h : ∀ s ∈ c.round.release, Observed cfg.pfx σ s c.nodeID (c.round.seen s)) :
    ∀ s ∈ (c.resume cfg σ.etcd σ.now o).round.release,
      Observed cfg.pfx σ s c.nodeID ((c.resume cfg σ.etcd σ.now o).round.seen s) := by
  cases hpc : c.pc with
  | listMembers =>
    by_cases ok : o = .ok
    · simp [Coordinator.resume, hpc, ok, Round.empty]
    · simpa [Coordinator.resume, hpc, ok] using h
  | loadShardMap =>
    by_cases ok : o = .ok
    · simp only [Coordinator.resume, hpc, ok, if_true]
      intro s hs
      obtain ⟨lt, own, -⟩ := mem_release.mp hs
      exact observed_now history lt own
    · simpa [Coordinator.resume, hpc, ok] using h
  | claiming todo | marking todo | releasing todo | rebinding todo =>
    cases todo <;> simpa [Coordinator.resume, hpc, Coordinator.markReleasing] using h
  | keepingAlive | loadOwnershipMap =>
    by_cases ok : o = .ok <;> simpa [Coordinator.resume, hpc, ok] using h
  | _ => simpa [Coordinator.resume, hpc, Coordinator.install] using h

theorem step_local {cfg : Config} {σ σ' : Cluster} {a : Action} (inv : Inv cfg σ)
    (step : exec cfg σ a = some σ') (q : Nat) (d : Coordinator) (hq : σ'.procs[q]? = some d) :
    Local cfg.pfx σ' d := by
  rcases exec_node step hq with ⟨c, hc, stepped⟩ | ⟨_, _, -, -, rfl⟩
  · obtain ⟨observed, due⟩ := inv.node q c hc
    cases stepped with
    | calls =>
      refine ⟨fun s hs => ?_, Coordinator.resume_due cfg σ.etcd σ.now _ due⟩
      rw [Coordinator.resume_nodeID]
      exact (resume_observed inv.history observed s hs).step step
    | exits => exact ⟨fun s hs => (observed s hs).step step, by simp⟩
    | _ => exact ⟨fun s hs => (observed s hs).step step, due⟩
  · exact ⟨by simp [newCoordinator, Round.empty], by simp [newCoordinator]⟩

theorem step_sent {cfg : Config} {σ σ' : Cluster} {a : Action} (inv : Inv cfg σ)
    (ha : allowed a = true) (step : exec cfg σ a = some σ') (r : Request) (hr : r ∈ σ'.inflight) :
    Carries cfg.pfx σ' r := by
  have carried : Carries cfg.pfx σ r := by
    cases exec_step step with
    | call hp =>
      rcases List.mem_append.mp hr with old | new
      · exact inv.sent r old
      · exact (inv.node _ _ hp).request (Coordinator.mem_issue_sent new).2
    | deliver => exact inv.sent r (List.mem_of_mem_eraseIdx hr)
    | @request r' o =>
      rcases List.mem_append.mp hr with old | new
      · exact inv.sent r old
      · obtain ⟨-, rfl⟩ := Request.issue_sent new
        cases r with
        | release => cases ha
        | _ => trivial
    | _ => exact inv.sent r hr
  exact carried.step step

theorem step_inv {cfg : Config} {σ σ' : Cluster} {a : Action} (inv : Inv cfg σ)
    (ha : allowed a = true) (step : exec cfg σ a = some σ') : Inv cfg σ' :=
  ⟨Fencing.step_inv inv.history step, step_local inv step, step_sent inv ha step⟩

/-- Runs in which only nodes release. -/
abbrev Allowed (cfg : Config) : Cluster → Cluster → Prop :=
  Next (exec cfg) fun _ a => allowed a = true

theorem reachable_inv {cfg : Config} {σ : Cluster} (h : Reachable (Initial cfg) (Allowed cfg) σ) :
    Inv cfg σ := by
  refine h.invariant (fun σ start => ?_) fun _ _ _ => step_inv
  exact ⟨Fencing.initial_inv start, by simp [start.procs], by simp [start.inflight]⟩

/-- A step that may have etcd apply request `r`: the node's own call, or the
request arriving after that call has returned. -/
inductive Applies (σ : Cluster) : Action → Request → Prop
  | call {p : Nat} {o : Outcome} {c : Coordinator} {r : Request} (at_ : σ.procs[p]? = some c)
      (request : c.request = some r) : Applies σ (.call p o) r
  | deliver {k : Nat} {r : Request} (at_ : σ.inflight[k]? = some r) : Applies σ (.deliver k) r

theorem applied_deletes {pfx : Str} {e e' : Store} {r : Request} {cs : List Commit}
    (ha : Applied pfx e r e' cs) {s : Nat} {kv : KeyValue} (hk : e.get (shardKey pfx s) = some kv)
    (gone : e'.get (shardKey pfx s) = none) : ∃ seen, r = .release s kv.value seen := by
  have aimed : r.rewrites = some (s, kv.value) := by
    by_contra spared
    rw [ha.kept hk spared] at gone
    cases gone
  cases ha with
  | refused => rw [hk] at gone; cases gone
  | claim | register => cases aimed
  | rebind _ _ _ wrote =>
    simp only [Request.rewrites, Option.some.injEq, Prod.mk.injEq] at aimed
    rw [← aimed.1, wrote.get_self] at gone
    cases gone
  | @release _ _ seen =>
    simp only [Request.rewrites, Option.some.injEq, Prod.mk.injEq] at aimed
    exact ⟨seen, by rw [aimed.1, aimed.2]⟩

theorem revoke_deletes {e : Store} {l : Nat} {k : Str} {kv : KeyValue} (hk : e.get k = some kv)
    (gone : (e.revoke l).get k = none) :
    kv.lease ∈ e.leases ∧ kv.lease ∉ (e.revoke l).leases := by
  have nonzero : l ≠ 0 := by
    rintro rfl
    rw [Store.revoke_zero, hk] at gone
    cases gone
  rw [e.get_revoke l k nonzero, hk, Option.filter_some] at gone
  split at gone
  · cases gone
  · next same =>
    obtain rfl : kv.lease = l := by simpa using same
    exact ⟨((e.sound k kv hk).bound).resolve_left nonzero, by simp⟩

/-- Every way in which a record can go. -/
theorem step_deletes {cfg : Config} {σ σ' : Cluster} {a : Action} (ha : allowed a = true)
    (step : exec cfg σ a = some σ') {s : Nat} {kv : KeyValue}
    (hk : σ.etcd.get (shardKey cfg.pfx s) = some kv)
    (gone : σ'.etcd.get (shardKey cfg.pfx s) = none) :
    (kv.lease ∈ σ.etcd.leases ∧ kv.lease ∉ σ'.etcd.leases) ∨
      ∃ seen, Applies σ a (.release s kv.value seen) := by
  have stays (e : σ'.etcd = σ.etcd) : False := by
    rw [e, hk] at gone
    cases gone
  cases exec_step step with
  | @call p o c hp =>
    simp only [Cluster.update, Cluster.wrote] at gone ⊢
    rcases c.issue_cases cfg σ.etcd o with ⟨he, -⟩ | ⟨-, he, -⟩ | ⟨l, -, he, -⟩ | ⟨r, hr, happ⟩
    · exact (stays he).elim
    · rw [he, Store.get_grant, hk] at gone
      cases gone
    · rw [he] at gone ⊢
      exact .inl (revoke_deletes hk gone)
    · obtain ⟨seen, rfl⟩ := applied_deletes happ hk gone
      exact .inr ⟨seen, .call hp hr⟩
  | @deliver k r hr =>
    obtain ⟨seen, rfl⟩ := applied_deletes (r.applied cfg.pfx σ.etcd) hk gone
    exact .inr ⟨seen, .deliver hr⟩
  | expire | revoked => exact .inl (revoke_deletes hk gone)
  | @request r o =>
    obtain ⟨seen, rfl⟩ := applied_deletes (r.issued cfg.pfx σ.etcd o) hk gone
    cases ha
  | _ => exact (stays rfl).elim

/-- **A release deletes only its own node's records.** When a record goes, its
lease has ended, or etcd applies a release of the record's own node, whose round
had observed that record or an earlier one of the node. -/
theorem release_deletes_own {cfg : Config} {σ σ' : Cluster} {a : Action}
    (h : Reachable (Initial cfg) (Allowed cfg) σ) (ha : allowed a = true)
    (step : exec cfg σ a = some σ') {s : Nat} {kv : KeyValue}
    (hk : σ.etcd.get (shardKey cfg.pfx s) = some kv)
    (gone : σ'.etcd.get (shardKey cfg.pfx s) = none) :
    (kv.lease ∈ σ.etcd.leases ∧ kv.lease ∉ σ'.etcd.leases) ∨
    ∃ seen, Applies σ a (.release s kv.value seen) ∧ seen ≤ kv.modRevision ∧
      (kv.value ≠ [] → ∃ l, ⟨s, kv.value, l, seen⟩ ∈ σ.commits) := by
  have inv := reachable_inv h
  rcases step_deletes ha step hk gone with ended | ⟨seen, applies⟩
  · exact .inl ended
  · have observed : Observed cfg.pfx σ s kv.value seen := by
      cases applies with
      | call hp hr => exact (inv.node _ _ hp).request hr
      | deliver hr => exact inv.sent _ (List.mem_of_getElem? hr)
    exact .inr ⟨seen, applies, observed.behind kv hk, observed.commit⟩

/-! ## Outstanding releases -/

/-- The shards that a round has still to release. -/
def due (c : Coordinator) : List Nat :=
  match c.pc with
  | .claiming _ => c.round.release
  | .marking todo | .releasing todo => todo
  | _ => []

/-- The shard that a request releases, and the id under which it does. -/
def releases : Request → Option (Nat × Str)
  | .release s nodeID _ => some (s, nodeID)
  | _ => none

/-- A release of the shard under the id is still to be applied: its call has
returned without it, or a round that has loaded the shard map is to issue it. -/
def outstanding (σ : Cluster) (s : Nat) (nodeID : Str) : Bool :=
  (∃ r ∈ σ.inflight, releases r = some (s, nodeID)) ∨ ∃ c ∈ σ.procs, c.nodeID = nodeID ∧ s ∈ due c

/-- Only nodes release, and what the step commits is for no shard of which a
release under the same id is outstanding. -/
def orderly (cfg : Config) (σ : Cluster) (a : Action) : Bool :=
  allowed a ∧ ∀ σ' ∈ exec cfg σ a, ∀ k ∈ σ'.commits.drop σ.commits.length,
    outstanding σ k.shard k.owner = false

/-- The record of the shard, if it is the node's, has the term. -/
def Matches (pfx : Str) (e : Store) (s : Nat) (nodeID : Str) (term : Nat) : Prop :=
  ∀ kv, e.get (shardKey pfx s) = some kv → kv.value = nodeID → kv.modRevision = term

theorem matches_loaded {pfx : Str} {e : Store} (layout : Layout pfx e) {s : Nat}
    (hs : s < shardCount) (nodeID : Str) :
    Matches pfx e s nodeID (loadOwnershipMap pfx e s).term := by
  intro kv hk _
  rw [loadOwnershipMap_eq layout hs, hk]
  rfl

/-- An orderly step commits nothing that a release outstanding would meet. -/
theorem Matches.step {cfg : Config} {σ σ' : Cluster} {a : Action} {s : Nat} {nodeID : Str}
    {term : Nat} (h : Matches cfg.pfx σ.etcd s nodeID term)
    (out : outstanding σ s nodeID = true) (ha : orderly cfg σ a = true)
    (step : exec cfg σ a = some σ') : Matches cfg.pfx σ'.etcd s nodeID term := by
  intro kv hk own
  obtain ⟨cs, moved, commits⟩ := exec_moved step
  cases moved.record hk with
  | inl old => exact h kv old own
  | inr new =>
    simp only [orderly, decide_eq_true_eq, Option.mem_def] at ha
    have free := ha.2 σ' step _ (by rwa [commits, List.drop_left])
    rw [own, out] at free
    cases free

/-- What a round has to release it had to release before, or it has just loaded. -/
theorem mem_due_resume {cfg : Config} {c : Coordinator} {e : Store} {now : Nat} {o : Outcome}
    {s : Nat} (h : s ∈ due (c.resume cfg e now o)) :
    (s ∈ due c ∧ (c.resume cfg e now o).round.seen s = c.round.seen s) ∨
      c.pc = .loadShardMap ∧ s < shardCount ∧
        (c.resume cfg e now o).round.seen s = (loadOwnershipMap cfg.pfx e s).term := by
  cases hpc : c.pc with
  | loadShardMap =>
    by_cases ok : o = .ok
    · simp only [Coordinator.resume, hpc, ok, if_true, due] at h ⊢
      exact .inr ⟨trivial, (mem_release.mp h).1, trivial⟩
    · simp [Coordinator.resume, hpc, ok, due] at h
  | claiming todo | marking todo | releasing todo | rebinding todo =>
    cases todo <;> simp_all [Coordinator.resume, due, Coordinator.markReleasing]
  | granting | putting | keepingAlive | listMembers | loadOwnershipMap =>
    simp only [Coordinator.resume, hpc] at h
    split at h <;> cases h
  | stopped => simp [Coordinator.resume, hpc, due] at h
  | revoking | idle | installing =>
    simp [Coordinator.resume, hpc, due, Coordinator.install] at h

/-- Every release outstanding would meet the record that its round observed. -/
structure Exact (cfg : Config) (σ : Cluster) : Prop where
  due : ∀ c ∈ σ.procs, ∀ s ∈ due c, Matches cfg.pfx σ.etcd s c.nodeID (c.round.seen s)
  sent : ∀ s nodeID seen, .release s nodeID seen ∈ σ.inflight →
    Matches cfg.pfx σ.etcd s nodeID seen

section
variable {cfg : Config} {σ σ' : Cluster} {a : Action}

theorem outstanding_due {c : Coordinator} (hc : c ∈ σ.procs) {s : Nat} (hs : s ∈ due c) :
    outstanding σ s c.nodeID = true := by
  simp only [outstanding, decide_eq_true_eq]
  exact .inr ⟨c, hc, rfl, hs⟩

theorem outstanding_sent {s seen : Nat} {nodeID : Str}
    (hr : .release s nodeID seen ∈ σ.inflight) : outstanding σ s nodeID = true := by
  simp only [outstanding, decide_eq_true_eq]
  exact .inl ⟨_, hr, rfl⟩

/-- A release is issued for a shard that the round has to release. -/
theorem request_due {c : Coordinator} {s seen : Nat} {nodeID : Str}
    (hr : c.request = some (.release s nodeID seen)) :
    s ∈ due c ∧ nodeID = c.nodeID ∧ seen = c.round.seen s := by
  unfold Coordinator.request at hr
  split at hr <;> cases hr
  next hpc => simp [due, hpc]

theorem step_due (exact_ : Exact cfg σ) (layout : Layout cfg.pfx σ.etcd)
    (ha : orderly cfg σ a = true) (step : exec cfg σ a = some σ') :
    ∀ d ∈ σ'.procs, ∀ s ∈ due d, Matches cfg.pfx σ'.etcd s d.nodeID (d.round.seen s) := by
  intro d hd s hs
  obtain ⟨q, hq⟩ := List.mem_iff_getElem?.mp hd
  cases exec_node step hq with
  | inr spawned =>
    obtain ⟨_, _, -, -, rfl⟩ := spawned
    cases hs
  | inl before =>
    obtain ⟨c, hc, stepped⟩ := before
    have mem := List.mem_of_getElem? hc
    have kept (old : s ∈ due c) : Matches cfg.pfx σ'.etcd s c.nodeID (c.round.seen s) :=
      (exact_.due c mem s old).step (outstanding_due mem old) ha step
    cases stepped with
    | @calls o =>
      rw [Coordinator.resume_nodeID]
      cases mem_due_resume hs with
      | inl old => exact old.2 ▸ kept old.1
      | inr loaded =>
        obtain ⟨hpc, lt, seen⟩ := loaded
        have same : σ'.etcd = σ.etcd := by
          cases exec_step step with
          | call at_ =>
            obtain rfl := Option.some.inj (at_.symm.trans hc)
            simp [Coordinator.issue, Coordinator.request, hpc, Issued.quiet, Cluster.update,
              Cluster.wrote]
        rw [same, seen]
        exact matches_loaded layout lt c.nodeID
    | exits => cases hs
    | _ => exact kept hs

theorem step_released (exact_ : Exact cfg σ) (ha : orderly cfg σ a = true)
    (step : exec cfg σ a = some σ') {s seen : Nat} {nodeID : Str}
    (hr : .release s nodeID seen ∈ σ'.inflight) : Matches cfg.pfx σ'.etcd s nodeID seen := by
  have old (hr : .release s nodeID seen ∈ σ.inflight) : Matches cfg.pfx σ'.etcd s nodeID seen :=
    (exact_.sent s nodeID seen hr).step (outstanding_sent hr) ha step
  cases exec_step step with
  | @call p o c hp =>
    cases List.mem_append.mp hr with
    | inl hr => exact old hr
    | inr new =>
      have mem := List.mem_of_getElem? hp
      obtain ⟨hs, rfl, rfl⟩ := request_due (Coordinator.mem_issue_sent new).2
      exact (exact_.due c mem s hs).step (outstanding_due mem hs) ha step
  | deliver => exact old (List.mem_of_mem_eraseIdx hr)
  | request =>
    cases List.mem_append.mp hr with
    | inl hr => exact old hr
    | inr new =>
      obtain ⟨-, rfl⟩ := Request.issue_sent new
      simp [orderly, allowed] at ha
  | _ => exact old hr

end

/-- Runs in which no shard is claimed or rebound under an id while a release of it
under that id is outstanding. -/
abbrev Orderly (cfg : Config) : Cluster → Cluster → Prop :=
  Next (exec cfg) fun σ a => orderly cfg σ a = true

theorem Orderly.allowed {cfg : Config} {σ : Cluster}
    (h : Reachable (Initial cfg) (Orderly cfg) σ) : Reachable (Initial cfg) (Allowed cfg) σ := by
  refine h.mono (fun _ start => start) fun σ a ha => ?_
  simp only [orderly, decide_eq_true_eq] at ha
  exact ha.1

theorem reachable_exact {cfg : Config} {σ : Cluster}
    (h : Reachable (Initial cfg) (Orderly cfg) σ) : Exact cfg σ := by
  induction h with
  | start initial => exact ⟨by simp [initial.procs], by simp [initial.inflight]⟩
  | step reached next ih =>
    obtain ⟨a, ha, step⟩ := next
    have layout := (reachable_inv (Orderly.allowed reached)).history.recorded.layout
    exact ⟨step_due ih layout ha step, fun _ _ _ => step_released ih ha step⟩

/-! ## Runs without late requests -/

/-- Nothing is under way between two steps, and what a round claims it does not
release. -/
structure Prompt (σ : Cluster) : Prop where
  sent : σ.inflight = []
  apart : ∀ c ∈ σ.procs, ∀ todo, c.pc = .claiming todo → ∀ s ∈ todo, s ∉ c.round.release

section
variable {cfg : Config} {σ σ' : Cluster} {a : Action}

theorem resume_apart {c : Coordinator} {e : Store} {now : Nat} {o : Outcome}
    (named : c.nodeID ≠ [])
    (h : ∀ todo, c.pc = .claiming todo → ∀ s ∈ todo, s ∉ c.round.release) (todo : List Nat)
    (hpc : (c.resume cfg e now o).pc = .claiming todo) :
    ∀ s ∈ todo, s ∉ (c.resume cfg e now o).round.release := by
  cases at_ : c.pc with
  | loadShardMap =>
    by_cases ok : o = .ok
    · simp only [Coordinator.resume, at_, ok, if_true, Pc.claiming.injEq] at hpc ⊢
      subst hpc
      intro s claimed released
      have absent := (mem_claim.mp claimed).2.1
      exact named ((mem_release.mp released).2.1.symm.trans absent)
    · simp [Coordinator.resume, at_, ok] at hpc
  | claiming left =>
    cases left with
    | nil => simp [Coordinator.resume, at_] at hpc
    | cons x left =>
      simp only [Coordinator.resume, at_, Pc.claiming.injEq] at hpc ⊢
      subst hpc
      exact fun s hs => h _ at_ s (List.mem_cons_of_mem x hs)
  | marking left | releasing left | rebinding left =>
    cases left <;> simp [Coordinator.resume, at_, Coordinator.markReleasing] at hpc
  | granting | putting | keepingAlive | listMembers | loadOwnershipMap =>
    simp only [Coordinator.resume, at_] at hpc
    split at hpc <;> cases hpc
  | revoking | stopped | idle | installing =>
    simp [Coordinator.resume, at_, Coordinator.install] at hpc

theorem request_commits {c : Coordinator} {r : Request} (hr : c.request = some r) {k : Commit}
    (hk : r = .claim k.shard k.owner k.lease ∨ r = .rebind k.shard k.owner k.lease) :
    k.owner = c.nodeID ∧ ((∃ todo, c.pc = .claiming (k.shard :: todo)) ∨
      ∃ todo, c.pc = .rebinding (k.shard :: todo)) := by
  unfold Coordinator.request at hr
  split at hr <;> cases hr <;> simp_all

/-- A node that commits a record claims it: there is nothing to rebind. -/
theorem commit_claims (inv : SplitBrain.Inv cfg σ) (ha : SplitBrain.allowed σ a = true)
    (step : exec cfg σ a = some σ') {k : Commit} (hk : k ∈ σ'.commits.drop σ.commits.length) :
    ∃ (p : Nat) (c : Coordinator) (todo : List Nat), σ.procs[p]? = some c ∧
      c.pc = .claiming (k.shard :: todo) ∧ k.owner = c.nodeID := by
  cases exec_step step with
  | @call p o c hp =>
    simp only [Cluster.update, Cluster.wrote, List.drop_left] at hk
    rcases c.issue_cases cfg σ.etcd o with ⟨-, none⟩ | ⟨-, -, none⟩ | ⟨_, -, -, none⟩ | ⟨r, hr, ha⟩
    · simp [none] at hk
    · simp [none] at hk
    · simp [none] at hk
    · obtain ⟨owner, pc⟩ := request_commits hr (ha.commits hk)
      cases pc with
      | inl claims =>
        obtain ⟨todo, hpc⟩ := claims
        exact ⟨p, c, todo, hp, hpc, owner⟩
      | inr rebinds =>
        obtain ⟨todo, hpc⟩ := rebinds
        cases (inv.node p c hp).bound _ hpc
  | deliver | request => cases ha
  | _ => simp [Cluster.update] at hk

theorem prompt_orderly (inv : SplitBrain.Inv cfg σ) (prompt : Prompt σ)
    (ha : SplitBrain.allowed σ a = true) : orderly cfg σ a = true := by
  have released : allowed a = true := by
    cases a with
    | request => cases ha
    | _ => rfl
  simp only [orderly, decide_eq_true_eq, Option.mem_def]
  refine ⟨released, fun σ' step k hk => ?_⟩
  obtain ⟨p, c, todo, hp, hpc, owner⟩ := commit_claims inv ha step hk
  simp only [outstanding, prompt.sent, decide_eq_false_iff_not]
  rintro (⟨r, hr, -⟩ | ⟨d, hd, name, due⟩)
  · cases hr
  · obtain ⟨q, hq⟩ := List.mem_iff_getElem?.mp hd
    obtain rfl := inv.ids q p d c hq hp (name.trans owner)
    obtain rfl := Option.some.inj (hq.symm.trans hp)
    simp only [Release.due, hpc] at due
    exact prompt.apart d hd _ hpc k.shard List.mem_cons_self due

theorem step_prompt (inv : SplitBrain.Inv cfg σ) (prompt : Prompt σ)
    (ha : SplitBrain.allowed σ a = true) (step : exec cfg σ a = some σ') : Prompt σ' := by
  constructor
  · cases exec_step step with
    | @call p o c hp =>
      simp only [SplitBrain.allowed, decide_eq_true_eq] at ha
      rw [List.eq_nil_iff_forall_not_mem]
      intro r hr
      cases List.mem_append.mp hr with
      | inl old => simp [prompt.sent] at old
      | inr new => exact ha.1 (Coordinator.mem_issue_sent new).1
    | deliver | request => cases ha
    | _ => exact prompt.sent
  · intro d hd
    obtain ⟨q, hq⟩ := List.mem_iff_getElem?.mp hd
    cases exec_node step hq with
    | inr spawned =>
      obtain ⟨_, _, -, -, rfl⟩ := spawned
      simp [newCoordinator]
    | inl before =>
      obtain ⟨c, hc, stepped⟩ := before
      have apart := prompt.apart c (List.mem_of_getElem? hc)
      cases stepped with
      | calls => exact resume_apart (inv.node q c hc).named apart
      | exits => simp
      | _ => exact apart

end

/-- In the runs without late requests, with one incarnation of each id, no release
is outstanding when its node commits a record of the shard. -/
theorem orderly_of_splitBrain {cfg : Config} {σ : Cluster}
    (h : Reachable (Initial cfg) (SplitBrain.Allowed cfg) σ) :
    Reachable (Initial cfg) (Orderly cfg) σ ∧ Prompt σ := by
  induction h with
  | start initial => exact ⟨.start initial, initial.inflight, by simp [initial.procs]⟩
  | step reached next ih =>
    obtain ⟨a, ha, step⟩ := next
    obtain ⟨orderly, prompt⟩ := ih
    have inv := SplitBrain.reachable_inv reached
    exact ⟨.step orderly ⟨a, prompt_orderly inv prompt ha, step⟩, step_prompt inv prompt ha step⟩

/-- **A release deletes the record that it was issued against.** In every run in
which no shard is claimed or rebound under an id while a release of it under that
id is outstanding: when a record goes, its lease has ended, or etcd applies a
release of the record's own node, whose round had observed that very record. -/
theorem release_deletes_observed {cfg : Config} {σ σ' : Cluster} {a : Action}
    (h : Reachable (Initial cfg) (Orderly cfg) σ) (ha : allowed a = true)
    (step : exec cfg σ a = some σ') {s : Nat} {kv : KeyValue}
    (hk : σ.etcd.get (shardKey cfg.pfx s) = some kv)
    (gone : σ'.etcd.get (shardKey cfg.pfx s) = none) :
    (kv.lease ∈ σ.etcd.leases ∧ kv.lease ∉ σ'.etcd.leases) ∨
    ∃ seen, Applies σ a (.release s kv.value seen) ∧ seen = kv.modRevision ∧
      (kv.value ≠ [] → ∃ l, ⟨s, kv.value, l, seen⟩ ∈ σ.commits) := by
  cases release_deletes_own (Orderly.allowed h) ha step hk gone with
  | inl ended => exact .inl ended
  | inr released =>
    obtain ⟨seen, applies, -, commit⟩ := released
    have same : kv.modRevision = seen := by
      cases applies with
      | call hp hr =>
        obtain ⟨hs, name, rfl⟩ := request_due hr
        exact (reachable_exact h).due _ (List.mem_of_getElem? hp) s hs kv hk name
      | deliver hr => exact (reachable_exact h).sent s _ seen (List.mem_of_getElem? hr) kv hk rfl
    exact .inr ⟨seen, applies, same.symm, commit⟩

/-- Node `a` owns shard 0 when `A` joins, to which the shard moves, and is about
to release it. -/
def moves : List Action :=
  sampleJoin 0 "a" ++ sampleJoin 1 "b" ++ List.replicate 8 (.call 0 .ok) ++ sampleJoin 2 "A" ++
    List.replicate 5 (.call 0 .ok)

/-- The shard is released, `A` is lost before it has claimed it, `a` claims it
again, and releases it again when `A` is back. -/
def movesAgain : List Action :=
  moves ++ List.replicate 5 (.call 0 .ok) ++ .expire 3 :: List.replicate 8 (.call 0 .ok) ++
    sampleJoin 3 "A" ++ List.replicate 6 (.call 0 .ok)

theorem release_deletes_observed_movesAgain : ∃ (σ σ' : Cluster) (kv : KeyValue),
    Reachable (Initial sample) (Orderly sample) σ ∧ exec sample σ (.call 0 .ok) = some σ' ∧
    σ.etcd.get (shardKey sample.pfx 0) = some kv ∧ kv.value = str "a" ∧ 4 < kv.modRevision ∧
    ⟨0, str "a", 1, 4⟩ ∈ σ.commits ∧ σ'.etcd.get (shardKey sample.pfx 0) = none ∧
    ((kv.lease ∈ σ.etcd.leases ∧ kv.lease ∉ σ'.etcd.leases) ∨
    ∃ seen, Applies σ (.call 0 .ok) (.release 0 kv.value seen) ∧ seen = kv.modRevision ∧
      (kv.value ≠ [] → ∃ l, ⟨0, kv.value, l, seen⟩ ∈ σ.commits)) := by
  have run : (execute (exec sample) (orderly sample) sampleStart movesAgain).any (fun σ =>
      ⟨0, str "a", 1, 4⟩ ∈ σ.commits ∧
      (σ.etcd.get (shardKey sample.pfx 0)).any (fun kv =>
        kv.value = str "a" ∧ 4 < kv.modRevision) ∧
      (exec sample σ (.call 0 .ok)).any fun σ' =>
        (σ'.etcd.get (shardKey sample.pfx 0)).isNone) = true := by decide +kernel
  obtain ⟨σ, hσ, test⟩ := (Option.any_eq_true _ _).mp run
  simp only [Option.any_eq_true, decide_eq_true_eq, Option.isNone_iff_eq_none] at test
  obtain ⟨first, ⟨kv, hk, value, later⟩, σ', step, gone⟩ := test
  have reach := sample_reachable hσ
  exact ⟨σ, σ', kv, reach, step, hk, value, later, first, gone,
    release_deletes_observed reach rfl step hk gone⟩

/-- The release stays under way when its call has timed out. The next round's
release goes through, `A` is lost, and `a` claims the shard again and serves it. -/
def reclaims : List Action :=
  moves ++ .call 0 .late :: List.replicate 14 (.call 0 .ok) ++
    .expire 3 :: List.replicate 9 (.call 0 .ok)

/-- The late release takes the key away from a node that holds a live lease and has
the shard behind its open gate. -/
theorem late_release_deletes_later_record : ∃ (σ σ' : Cluster) (kv : KeyValue) (c : Coordinator),
    Reachable (Initial sample) (Allowed sample) σ ∧
    σ.inflight[0]? = some (.release 0 (str "a") 4) ∧ ⟨0, str "a", 1, 4⟩ ∈ σ.commits ∧
    σ.etcd.get (shardKey sample.pfx 0) = some kv ∧ kv.value = str "a" ∧ kv.modRevision ≠ 4 ∧
    exec sample σ (.deliver 0) = some σ' ∧ kv.lease ∈ σ'.etcd.leases ∧
    σ'.etcd.get (shardKey sample.pfx 0) = none ∧
    σ'.procs[0]? = some c ∧ c.nodeID = str "a" ∧ c.ownerTerm 0 = kv.modRevision ∧
    c.isServable sample σ'.now (str "x") = true := by
  have run : (execute (exec sample) (fun _ => allowed) sampleStart reclaims).any (fun σ =>
      σ.inflight[0]? = some (.release 0 (str "a") 4) ∧ ⟨0, str "a", 1, 4⟩ ∈ σ.commits ∧
      (σ.etcd.get (shardKey sample.pfx 0)).any fun kv => kv.value = str "a" ∧ kv.modRevision ≠ 4 ∧
        (exec sample σ (.deliver 0)).any fun σ' => kv.lease ∈ σ'.etcd.leases ∧
          (σ'.etcd.get (shardKey sample.pfx 0)).isNone ∧ σ'.procs[0]?.any fun c =>
            c.nodeID = str "a" ∧ c.ownerTerm 0 = kv.modRevision ∧
            c.isServable sample σ'.now (str "x") = true) = true := by decide +kernel
  obtain ⟨σ, hσ, test⟩ := (Option.any_eq_true _ _).mp run
  simp only [Option.any_eq_true, decide_eq_true_eq, Option.isNone_iff_eq_none] at test
  obtain ⟨sent, seen, kv, hk, value, later, σ', step, live, gone, c, hc, name, term, serves⟩ := test
  exact ⟨σ, σ', kv, c, sample_reachable hσ, sent, seen, hk, value, later, step, live, gone, hc,
    name, term, serves⟩

end MilvusCatalog.Release

import MilvusCatalog.Client.Discovery
import MilvusCatalog.Fencing

/-! In which order route maps are read and in which order they are installed. A
`Refresh` asks outside the lock and installs inside it, so the answers of two
refreshes can be installed in the opposite order. -/
namespace MilvusCatalog.Client
open Go Etcd Transition

variable {E R : Type} {er : Errors E R} {cfg : Config}

/-- The system with what no party can see. `reads` are the revisions at which the
route maps were read, in order. For each call, `sent` counts the reads and
`installed` the installs that were made before its last request, and `answer`
is the read that answered it. `source` is the read behind the maps in force. -/
structure Traced (E R : Type) where
  system : System E R
  reads : List Nat
  sent : Nat → Nat
  installed : Nat → Nat
  answer : Nat → Nat
  source : Option Nat
  installs : Nat

inductive TracedEvent (E R : Type)
  | cluster (a : MilvusCatalog.Action)
  | process (a : Action E R)
  | answer (k read : Nat)

namespace Traced

/-- A step of call `k`: it may send a request or install an answer. -/
def noted (τ : Traced E R) (k : Nat) (process : Process E R) : Traced E R :=
  let τ' := { τ with system := { τ.system with process } }
  match (τ.system.process.calls[k]?).map Call.pc with
  | some (.refresh (.next _ _) _) =>
    { τ' with
      sent := Function.update τ.sent k τ.reads.length
      installed := Function.update τ.installed k τ.installs }
  | some (.refresh (.install _ _) _) =>
    { τ' with source := some (τ.answer k), installs := τ.installs + 1 }
  | _ => τ'

/-- One step. A request is answered from a read that was made after it was sent. -/
def exec (er : Errors E R) (cfg : Config) (τ : Traced E R) : TracedEvent E R → Option (Traced E R)
  | .cluster a => (MilvusCatalog.exec cfg τ.system.cluster a).map fun cluster =>
    { τ with
      system := { τ.system with cluster }
      reads := if cluster.routeMaps.length = τ.system.cluster.routeMaps.length then τ.reads
        else τ.reads ++ [τ.system.cluster.etcd.revision] }
  | .process (.step _ (.routes _ _)) => none
  | .process (.step k i) =>
    (Client.exec er cfg τ.system.process (.step k i)).map (τ.noted k)
  | .process (.start ns kind) =>
    (Client.exec er cfg τ.system.process (.start ns kind)).map fun process =>
      { τ with system := { τ.system with process } }
  | .answer k read =>
    if τ.sent k ≤ read then
      match τ.system.cluster.routeMaps[read]? with
      | none => none
      | some rm =>
        (Client.exec er cfg τ.system.process (.step k (.routes (tabulate rm.shardOwner shardCount)
          (tabulate rm.shardTerm shardCount)))).map fun process =>
          { τ with system := { τ.system with process }, answer := Function.update τ.answer k read }
    else none

/-- A new router next to nodes that have not started; nothing read yet. -/
structure Initial (cfg : Config) (τ : Traced E R) : Prop where
  system : System.Initial cfg τ.system
  reads : τ.reads = []
  installed : ∀ k, τ.installed k = 0
  source : τ.source = none
  installs : τ.installs = 0

end Traced

/-- The call is about to install an answer. -/
def Installing (c : Call E R) (owner : Owners) (term : Terms) : Prop :=
  ∃ next, c.pc = .refresh (.install owner term) next

/-- No other refresh has installed its answer since the one that installs now
sent its request. -/
def undisturbed (τ : Traced E R) : TracedEvent E R → Prop
  | .process (.step k _) => ∀ (c : Call E R) owner term, τ.system.process.calls[k]? = some c →
      Installing c owner term → τ.installed k = τ.installs
  | _ => True

/-! ## What a step does to the trace -/

/-- The maps are those of the route map that was read as number `read`. -/
def FromRead (σ : Cluster) (read : Nat) (owner : Owners) (term : Terms) : Prop :=
  ∃ rm, σ.routeMaps[read]? = some rm ∧ owner = tabulate rm.shardOwner shardCount ∧
    term = tabulate rm.shardTerm shardCount

/-- For a shard owned in both, the second route map has no smaller term. -/
def TermsLe (a b : RouteMap) : Prop :=
  ∀ s o o' t t', a.shardOwner s = some o → a.shardTerm s = some t → b.shardOwner s = some o' →
    b.shardTerm s = some t' → t ≤ t'

structure TraceInv (cfg : Config) (τ : Traced E R) : Prop where
  fenced : Fencing.Inv cfg τ.system.cluster
  length : τ.reads.length = τ.system.cluster.routeMaps.length
  ordered : τ.reads.Pairwise (· ≤ ·)
  past : ∀ r ∈ τ.reads, r ≤ τ.system.cluster.etcd.revision
  terms : τ.system.cluster.routeMaps.Pairwise TermsLe
  installed : ∀ k, τ.installed k ≤ τ.installs
  /-- What is in force was read before the request, if no install came between. -/
  asked : ∀ k, τ.installed k = τ.installs → ∀ j, τ.source = some j → j < τ.sent k
  answered : ∀ (k : Nat) (c : Call E R) owner term, τ.system.process.calls[k]? = some c →
    Installing c owner term →
    τ.sent k ≤ τ.answer k ∧ FromRead τ.system.cluster (τ.answer k) owner term
  inForce : ∀ j, τ.source = some j →
    FromRead τ.system.cluster j τ.system.process.router.shardOwner τ.system.process.router.shardTerm
  fresh : τ.source = none → τ.system.process.router.shardOwner = ∅

section
variable {τ τ' : Traced E R}

theorem FromRead.mono {σ σ' : Cluster} {read : Nat} {owner : Owners} {term : Terms}
    {more : List RouteMap} (h : FromRead σ read owner term)
    (grown : σ'.routeMaps = σ.routeMaps ++ more) : FromRead σ' read owner term := by
  obtain ⟨rm, found, maps⟩ := h
  refine ⟨rm, ?_, maps⟩
  rw [grown, List.getElem?_append_left (List.getElem?_eq_some_iff.mp found).1, found]

/-- What is read now has no smaller term than anything read before. -/
theorem routeMap_termsLe {σ : Cluster} (h : Fencing.Inv cfg σ) {rm : RouteMap}
    (old : rm ∈ σ.routeMaps) (members : List Str) :
    TermsLe rm (routeMap members (loadOwnershipMap cfg.pfx σ.etcd)) := by
  intro s o o' t t' owner term owner' term'
  simp only [routeMap, Option.ite_none_right_eq_some] at owner' term'
  obtain ⟨⟨hs, owned⟩, -⟩ := owner'
  rw [loadOwnershipMap_eq h.recorded.layout hs] at owned term'
  cases found : σ.etcd.get (shardKey cfg.pfx s) with
  | none =>
    rw [found] at owned
    exact absurd rfl owned
  | some kv =>
    rw [found] at term'
    obtain rfl : kv.modRevision = t' := Option.some.inj term'.2
    cases Fencing.held_fenced h found (.routed old owner term) with
    | inl lt => exact lt.le
    | inr eq => exact eq.1.le

/-- What a step of the nodes adds to the reads: nothing, or the newest one. -/
theorem cluster_reads {a : MilvusCatalog.Action} {cluster : Cluster} {reads : List Nat}
    (h : TraceInv cfg τ) (step : MilvusCatalog.exec cfg τ.system.cluster a = some cluster)
    (noted : reads = if cluster.routeMaps.length = τ.system.cluster.routeMaps.length then τ.reads
      else τ.reads ++ [τ.system.cluster.etcd.revision]) :
    ∃ maps, cluster.routeMaps = τ.system.cluster.routeMaps ++ maps ∧
      reads.length = cluster.routeMaps.length ∧ reads.Pairwise (· ≤ ·) ∧
      cluster.routeMaps.Pairwise TermsLe ∧
      ∀ r ∈ reads, r ∈ τ.reads ∨ r = τ.system.cluster.etcd.revision := by
  cases exec_routeMaps step with
  | inl same =>
    rw [if_pos (by rw [same])] at noted
    subst noted
    exact ⟨[], by simp [same], by rw [h.length, same], h.ordered, same ▸ h.terms, fun r => .inl⟩
  | inr more =>
    obtain ⟨members, -, grown⟩ := more
    rw [if_neg (by simp [grown])] at noted
    subst noted
    refine ⟨_, grown, by simp [h.length, grown], ?_, ?_, ?_⟩
    · rw [List.pairwise_append]
      exact ⟨h.ordered, List.pairwise_singleton _ _, fun r hr r' hr' =>
        List.mem_singleton.mp hr' ▸ h.past r hr⟩
    · rw [grown, List.pairwise_append]
      exact ⟨h.terms, List.pairwise_singleton _ _, fun rm hrm rm' hrm' =>
        List.mem_singleton.mp hrm' ▸ routeMap_termsLe h.fenced hrm members⟩
    · intro r hr
      exact (List.mem_append.mp hr).imp_right List.mem_singleton.mp

theorem cluster_trace {a : MilvusCatalog.Action} {cluster : Cluster} {reads : List Nat}
    (h : TraceInv cfg τ) (step : MilvusCatalog.exec cfg τ.system.cluster a = some cluster)
    (noted : reads = if cluster.routeMaps.length = τ.system.cluster.routeMaps.length then τ.reads
      else τ.reads ++ [τ.system.cluster.etcd.revision]) :
    TraceInv cfg { τ with system := { τ.system with cluster }, reads } := by
  obtain ⟨_, moved, -⟩ := exec_moved step
  have later := moved.revision_le
  obtain ⟨maps, grown, length, ordered, terms, recent⟩ := cluster_reads h step noted
  exact
    { fenced := Fencing.step_inv h.fenced step
      length
      ordered
      past := by
        intro r hr
        cases recent r hr with
        | inl old => exact (h.past r old).trans later
        | inr new => exact new ▸ later
      terms
      installed := h.installed
      asked := h.asked
      answered := fun k c owner term hc installing =>
        (h.answered k c owner term hc installing).imp id (·.mono grown)
      inForce := fun j hj => (h.inForce j hj).mono grown
      fresh := h.fresh }

theorem paused_not_installing {c : Call E R} (h : c.Paused) (owner : Owners) (term : Terms) :
    ¬ Installing c owner term := by
  rintro ⟨next, pc⟩
  exact paused_not_refresh h _ next pc

/-- A step other than an answer installs what the call had, or leaves the maps as
they are; the call has nothing to install after it. -/
theorem stepped_maps {r r' : Router} {c c' : Call E R} {i : Input E R}
    (step : Stepped er cfg r c i r' c') (unanswered : ∀ owner term, i ≠ .routes owner term) :
    (∀ owner term, ¬ Installing c' owner term) ∧
    ((∃ owner term, Installing c owner term ∧ r'.shardOwner = owner ∧ r'.shardTerm = term) ∨
      (∀ owner term, ¬ Installing c owner term) ∧ SameMaps r r') := by
  have idle : ∀ {at_ : Pc E}, c.pc = at_ →
      (∀ owner term next, at_ ≠ .refresh (.install owner term) next) →
      ∀ owner term, ¬ Installing c owner term := by
    rintro at_ rfl not owner term ⟨next, pc⟩
    exact not owner term next pc
  cases step with
  | answered => exact absurd rfl (unanswered _ _)
  | installs at_ =>
    exact ⟨paused_not_installing (c.refreshed_paused _ none), .inl ⟨_, _, ⟨_, at_⟩, rfl, rfl⟩⟩
  | routed at_ =>
    refine ⟨fun _ _ => by rintro ⟨_, ⟨⟩⟩, .inr ⟨?_, rfl, rfl⟩⟩
    cases at_ with
    | inl at_ => exact idle at_ nofun
    | inr at_ => exact idle at_ nofun
  | unowned e at_ =>
    exact ⟨paused_not_installing (Call.continue_paused _), .inr ⟨idle at_ nofun, rfl, rfl⟩⟩
  | exhausted e at_ =>
    exact ⟨paused_not_installing (c.refreshed_paused _ (some e)), .inr ⟨idle at_ nofun, rfl, rfl⟩⟩
  | dials at_ ok | connects at_ ok =>
    exact ⟨fun _ _ => by rintro ⟨_, ⟨⟩⟩, .inr ⟨idle at_ nofun, conn_same ok⟩⟩
  | _ at_ => exact ⟨fun _ _ => by rintro ⟨_, ⟨⟩⟩, .inr ⟨idle at_ nofun, rfl, rfl⟩⟩

variable {process : Process E R}

/-- A step that installs and answers nothing; it may send a request. -/
theorem quiet_trace {sent installed : Nat → Nat} (h : TraceInv cfg τ)
    (maps : SameMaps τ.system.process.router process.router)
    (calls : ∀ (k : Nat) (c : Call E R) owner term, process.calls[k]? = some c →
      Installing c owner term → τ.system.process.calls[k]? = some c ∧ sent k = τ.sent k)
    (le : ∀ k, installed k ≤ τ.installs)
    (asked : ∀ k, installed k = τ.installs → ∀ j, τ.source = some j → j < sent k) :
    TraceInv cfg { τ with system := { τ.system with process }, sent, installed } where
  fenced := h.fenced
  length := h.length
  ordered := h.ordered
  past := h.past
  terms := h.terms
  installed := le
  asked := asked
  answered k c owner term hc installing := by
    obtain ⟨before, same⟩ := calls k c owner term hc installing
    dsimp only
    rw [same]
    exact h.answered k c owner term before installing
  inForce j hj := by
    dsimp only
    rw [maps.1, maps.2]
    exact h.inForce j hj
  fresh none := maps.1.trans (h.fresh none)

theorem install_trace {k : Nat} {c : Call E R} (h : TraceInv cfg τ)
    (found : τ.system.process.calls[k]? = some c)
    (installing : Installing c process.router.shardOwner process.router.shardTerm)
    (calls : ∀ (k : Nat) (c : Call E R) owner term, process.calls[k]? = some c →
      Installing c owner term → τ.system.process.calls[k]? = some c) :
    TraceInv cfg
      { τ with
        system := { τ.system with process }
        source := some (τ.answer k)
        installs := τ.installs + 1 } where
  fenced := h.fenced
  length := h.length
  ordered := h.ordered
  past := h.past
  terms := h.terms
  installed k' := (h.installed k').trans (Nat.le_succ _)
  asked k' current := absurd current (Nat.lt_succ_of_le (h.installed k')).ne
  answered k' c' owner term hc' installing' :=
    h.answered k' c' owner term (calls k' c' owner term hc' installing') installing'
  inForce := by
    rintro j ⟨⟩
    exact (h.answered k c _ _ found installing).2
  fresh := nofun

theorem answer_trace {k read : Nat} {rm : RouteMap} (h : TraceInv cfg τ) (late : τ.sent k ≤ read)
    (found : τ.system.cluster.routeMaps[read]? = some rm)
    (router : process.router = τ.system.process.router)
    (calls : ∀ (j : Nat) (c : Call E R) owner term, process.calls[j]? = some c →
      Installing c owner term →
      (j = k ∧ owner = tabulate rm.shardOwner shardCount ∧
        term = tabulate rm.shardTerm shardCount) ∨
      j ≠ k ∧ τ.system.process.calls[j]? = some c) :
    TraceInv cfg
      { τ with
        system := { τ.system with process }
        answer := Function.update τ.answer k read } where
  fenced := h.fenced
  length := h.length
  ordered := h.ordered
  past := h.past
  terms := h.terms
  installed := h.installed
  asked := h.asked
  answered j c owner term hc installing := by
    obtain ⟨rfl, maps⟩ | ⟨ne, before⟩ := calls j c owner term hc installing
    · simp only [Function.update_self]
      exact ⟨late, rm, found, maps⟩
    · simp only [Function.update_of_ne ne]
      exact h.answered j c owner term before installing
  inForce j hj := by
    dsimp only
    rw [router]
    exact h.inForce j hj
  fresh none := router ▸ h.fresh none

theorem set_cases {calls : List (Call E R)} {k j : Nat} {c c' d : Call E R}
    (found : calls[k]? = some c) (hd : (calls.set k c')[j]? = some d) :
    (j = k ∧ d = c') ∨ j ≠ k ∧ calls[j]? = some d := by
  by_cases same : k = j
  · subst same
    rw [List.getElem?_set_self (List.getElem?_eq_some_iff.mp found).1] at hd
    exact .inl ⟨rfl, (Option.some.inj hd).symm⟩
  · rw [List.getElem?_set_ne same] at hd
    exact .inr ⟨Ne.symm same, hd⟩

theorem set_installing {calls : List (Call E R)} {k j : Nat} {c c' d : Call E R} {owner : Owners}
    {term : Terms} (found : calls[k]? = some c) (idle : ∀ owner term, ¬ Installing c' owner term)
    (hd : (calls.set k c')[j]? = some d) (installing : Installing d owner term) :
    j ≠ k ∧ calls[j]? = some d := by
  obtain ⟨-, rfl⟩ | other := set_cases found hd
  · exact absurd installing (idle owner term)
  · exact other

theorem TraceInv.source_lt (h : TraceInv cfg τ) {j : Nat} (hj : τ.source = some j) :
    j < τ.reads.length := by
  obtain ⟨rm, found, -⟩ := h.inForce j hj
  rw [h.length]
  exact (List.getElem?_eq_some_iff.mp found).1

/-- What is in force after a step was not read before what was in force before it. -/
structure Forward (τ τ' : Traced E R) : Prop where
  revisions : ∀ j j' r r', τ.source = some j → τ'.source = some j' → τ'.reads[j]? = some r →
    τ'.reads[j']? = some r' → r ≤ r'
  terms : ∀ (s : Nat) (o o' : Str) (t t' : Nat),
    τ.system.process.router.shardOwner[s]? = some o →
    τ.system.process.router.shardTerm[s]? = some t →
    τ'.system.process.router.shardOwner[s]? = some o' →
    τ'.system.process.router.shardTerm[s]? = some t' → t ≤ t'

theorem Forward.same (source : τ'.source = τ.source)
    (maps : SameMaps τ.system.process.router τ'.system.process.router) : Forward τ τ' where
  revisions j j' r r' hj hj' hr hr' := by
    rw [source, hj] at hj'
    cases hj'
    rw [hr] at hr'
    exact (Option.some.inj hr').le
  terms s o o' t t' _ ht _ ht' := by
    rw [maps.2, ht] at ht'
    exact (Option.some.inj ht').le

theorem install_forward {k : Nat} {c : Call E R} (h : TraceInv cfg τ)
    (found : τ.system.process.calls[k]? = some c)
    (installing : Installing c process.router.shardOwner process.router.shardTerm)
    (current : τ.installed k = τ.installs) :
    Forward τ
      { τ with
        system := { τ.system with process }
        source := some (τ.answer k)
        installs := τ.installs + 1 } := by
  obtain ⟨late, rm', found', owner', term'⟩ := h.answered k c _ _ found installing
  have before : ∀ j, τ.source = some j → j < τ.answer k :=
    fun j hj => (h.asked k current j hj).trans_le late
  constructor
  · rintro j j' r r' hj ⟨⟩ hr hr'
    obtain ⟨lt, rfl⟩ := List.getElem?_eq_some_iff.mp hr
    obtain ⟨lt', rfl⟩ := List.getElem?_eq_some_iff.mp hr'
    exact List.pairwise_iff_getElem.mp h.ordered _ _ lt lt' (before j hj)
  · intro s o o' t t' ho ht ho' ht'
    cases source : τ.source with
    | none =>
      rw [h.fresh source] at ho
      simp at ho
    | some j =>
      obtain ⟨rm, found, owner, term⟩ := h.inForce j source
      obtain ⟨lt, rfl⟩ := List.getElem?_eq_some_iff.mp found
      obtain ⟨lt', rfl⟩ := List.getElem?_eq_some_iff.mp found'
      have terms := List.pairwise_iff_getElem.mp h.terms _ _ lt lt' (before j source)
      dsimp only at ho' ht'
      rw [owner, tabulate_get, Option.ite_none_right_eq_some] at ho
      rw [term, tabulate_get, Option.ite_none_right_eq_some] at ht
      rw [owner', tabulate_get, Option.ite_none_right_eq_some] at ho'
      rw [term', tabulate_get, Option.ite_none_right_eq_some] at ht'
      exact terms s o o' t t' ho.2 ht.2 ho'.2 ht'.2

/-- A step of a call, with what it leaves in the trace. -/
theorem noted_trace {k : Nat} {i : Input E R} {c c' : Call E R} {r' : Router} {stored : Int}
    (h : TraceInv cfg τ) (found : τ.system.process.calls[k]? = some c)
    (stepped : Stepped er cfg τ.system.process.router c i r' c')
    (unanswered : ∀ owner term, i ≠ .routes owner term)
    (current : ∀ owner term, Installing c owner term → τ.installed k = τ.installs) :
    TraceInv cfg (τ.noted k ⟨r', τ.system.process.calls.set k c', stored⟩) ∧
      Forward τ (τ.noted k ⟨r', τ.system.process.calls.set k c', stored⟩) := by
  obtain ⟨idle, moved⟩ := stepped_maps stepped unanswered
  have others : ∀ (j : Nat) (d : Call E R) owner term,
      (τ.system.process.calls.set k c')[j]? = some d → Installing d owner term →
      j ≠ k ∧ τ.system.process.calls[j]? = some d :=
    fun j d owner term hd installing => set_installing found idle hd installing
  unfold Traced.noted
  rw [found, Option.map_some]
  cases moved with
  | inl installs =>
    obtain ⟨owner, term, ⟨next, pc⟩, rfl, rfl⟩ := installs
    simp only [pc]
    exact ⟨install_trace h found ⟨next, pc⟩ fun j d o t hd hi => (others j d o t hd hi).2,
      install_forward h found ⟨next, pc⟩ (current _ _ ⟨next, pc⟩)⟩
  | inr same =>
    obtain ⟨none, maps⟩ := same
    split
    · -- The request is sent after every read so far, the one in force included.
      refine ⟨quiet_trace h maps ?_ ?_ ?_, .same rfl maps⟩
      · intro j d owner term hd installing
        obtain ⟨ne, before⟩ := others j d owner term hd installing
        exact ⟨before, Function.update_of_ne ne _ _⟩
      · intro j
        by_cases eq : j = k
        · simp [eq]
        · simpa [eq] using h.installed j
      · intro j current j' hj'
        by_cases eq : j = k
        · simpa [eq] using h.source_lt hj'
        · simp only [Function.update_of_ne eq] at current ⊢
          exact h.asked j current j' hj'
    · next pc => exact absurd ⟨_, Option.some.inj pc⟩ (none _ _)
    · refine ⟨quiet_trace h maps ?_ h.installed h.asked, .same rfl maps⟩
      intro j d owner term hd installing
      exact ⟨(others j d owner term hd installing).2, rfl⟩

theorem start_trace {ns : Str} {kind : Kind} (h : TraceInv cfg τ) :
    TraceInv cfg { τ with system := { τ.system with process := { τ.system.process with
      calls := τ.system.process.calls ++ [.start ns kind] } } } := by
  refine quiet_trace h ⟨rfl, rfl⟩ ?_ h.installed h.asked
  intro j d owner term hd installing
  refine ⟨?_, rfl⟩
  dsimp only at hd
  rw [List.getElem?_append] at hd
  split at hd
  · exact hd
  · obtain ⟨next, pc⟩ := installing
    rw [List.mem_singleton.mp (List.mem_of_getElem? hd)] at pc
    cases kind <;> cases pc

theorem exec_process_step {k : Nat} {i : Input E R}
    (step : τ.exec er cfg (.process (.step k i)) = some τ') :
    (∀ owner term, i ≠ .routes owner term) ∧
      (Client.exec er cfg τ.system.process (.step k i)).map (τ.noted k) = some τ' := by
  cases i with
  | routes => cases step
  | _ => exact ⟨nofun, step⟩

/-- An answer is held by the call that asked, until it is installed. -/
theorem answered_calls {k : Nat} {owner : Owners} {term : Terms}
    (ran : Client.exec er cfg τ.system.process (.step k (.routes owner term)) = some process) :
    process.router = τ.system.process.router ∧
      ∀ (j : Nat) (d : Call E R) owner' term', process.calls[j]? = some d →
        Installing d owner' term' →
        (j = k ∧ owner' = owner ∧ term' = term) ∨
          j ≠ k ∧ τ.system.process.calls[j]? = some d := by
  obtain ⟨_, _, ⟨⟩, -⟩ | ⟨_, _, c, r', c', ⟨⟩, found, stepped, rfl⟩ := exec_cases ran
  cases stepped with
  | answered at_ =>
    refine ⟨rfl, ?_⟩
    intro j d owner' term' hd installing
    obtain ⟨rfl, rfl⟩ | other := set_cases found hd
    · obtain ⟨next, ⟨⟩⟩ := installing
      exact .inl ⟨rfl, rfl, rfl⟩
    · exact .inr other

theorem traced_step {e : TracedEvent E R} (h : TraceInv cfg τ) (allowed : undisturbed τ e)
    (step : τ.exec er cfg e = some τ') : TraceInv cfg τ' ∧ Forward τ τ' := by
  cases e with
  | cluster a =>
    obtain ⟨cluster, ran, rfl⟩ := Option.map_eq_some_iff.mp step
    exact ⟨cluster_trace h ran rfl, .same rfl ⟨rfl, rfl⟩⟩
  | answer k read =>
    simp only [Traced.exec] at step
    split at step
    · next late =>
      split at step
      · cases step
      · next rm found =>
        obtain ⟨process, ran, rfl⟩ := Option.map_eq_some_iff.mp step
        obtain ⟨router, calls⟩ := answered_calls ran
        refine ⟨answer_trace h late found router calls, .same rfl ?_⟩
        rw [router]
        exact ⟨rfl, rfl⟩
    · cases step
  | process a =>
    cases a with
    | start ns kind =>
      simp only [Traced.exec, Client.exec, Option.map_some, Option.some.injEq] at step
      subst step
      exact ⟨start_trace h, .same rfl ⟨rfl, rfl⟩⟩
    | step k i =>
      obtain ⟨unanswered, step⟩ := exec_process_step step
      obtain ⟨process, ran, rfl⟩ := Option.map_eq_some_iff.mp step
      obtain ⟨_, _, ⟨⟩, -⟩ | ⟨_, _, c, r', c', ⟨⟩, found, stepped, rfl⟩ := exec_cases ran
      exact noted_trace h found stepped unanswered fun owner term => allowed c owner term found

theorem initial_trace (h : τ.Initial cfg) : TraceInv cfg τ := by
  obtain ⟨bootstrap, router⟩ := h.system.router
  have noReads := h.system.cluster.routeMaps
  exact
    { fenced := Fencing.initial_inv h.system.cluster
      length := by rw [h.reads, noReads]; rfl
      ordered := by simp [h.reads]
      past := by simp [h.reads]
      terms := by simp [noReads]
      installed := fun k => by rw [h.installed, h.installs]
      asked := fun k _ j hj => by rw [h.source] at hj; cases hj
      answered := fun k c owner term hc => by simp [h.system.calls] at hc
      inForce := fun j hj => by rw [h.source] at hj; cases hj
      fresh := fun _ => by rw [router]; rfl }

theorem reachable_trace
    (h : Reachable (Traced.Initial cfg) (Next (Traced.exec er cfg) undisturbed) τ) :
    TraceInv cfg τ := by
  induction h with
  | start initial => exact initial_trace initial
  | step _ next ih =>
    obtain ⟨e, allowed, step⟩ := next
    exact (traced_step ih allowed step).1

end

/-- **The route map does not go back.** In every run in which no refresh installs
an answer while another is between its request and its install, each step leaves
a route map in force that was read at no lower revision, with no lower term for a
shard owned in both. -/
theorem route_map_forward {τ τ' : Traced E R} {e : TracedEvent E R}
    (h : Reachable (Traced.Initial cfg) (Next (Traced.exec er cfg) undisturbed) τ)
    (allowed : undisturbed τ e) (step : τ.exec er cfg e = some τ') :
    (∀ j j' r r', τ.source = some j → τ'.source = some j' → τ'.reads[j]? = some r →
      τ'.reads[j']? = some r' → r ≤ r') ∧
    ∀ (s : Nat) (o o' : Str) (t t' : Nat),
      τ.system.process.router.shardOwner[s]? = some o →
      τ.system.process.router.shardTerm[s]? = some t →
      τ'.system.process.router.shardOwner[s]? = some o' →
      τ'.system.process.router.shardTerm[s]? = some t' → t ≤ t' := by
  have forward := (traced_step (reachable_trace h) allowed step).2
  exact ⟨forward.revisions, forward.terms⟩

/-! Shard 0 moves from `a` to `b`, and two refreshes read it before and after. -/

instance (τ : Traced E R) : DecidablePred (undisturbed τ)
  | .process (.step k _) => decidable_of_iff (∀ c ∈ τ.system.process.calls[k]?,
      ∀ _ ∈ c.installing, τ.installed k = τ.installs) (by
    constructor
    · intro h c owner term hc installing
      exact h c hc (owner, term) (Call.installing_eq_some.mpr installing)
    · intro h c hc maps about
      exact h c maps.1 maps.2 hc (Call.installing_eq_some.mp about))
  | .process (.start _ _) | .cluster _ | .answer _ _ => inferInstanceAs (Decidable True)

def tracedStart : Traced Unit Unit :=
  ⟨sampleSystem, [], fun _ => 0, fun _ => 0, fun _ => 0, none, 0⟩

theorem tracedStart_initial : tracedStart.Initial sample :=
  ⟨sampleSystem_initial, rfl, fun _ => rfl, rfl, rfl⟩

def asks (k : Nat) : List (TracedEvent Unit Unit) :=
  [.process (.start [] .refresh), .process (.step k (.order [])), .process (.step k (.dial none))]

def aOwns : List (TracedEvent Unit Unit) :=
  (sampleJoin 0 "a" ++ sampleJoin 1 "b" ++
    List.replicate 8 (MilvusCatalog.Action.call 0 .ok)).map .cluster

def reads : List (TracedEvent Unit Unit) := [.cluster .routeMembers, .cluster (.routeMap 0)]

def bTakesOver : List (TracedEvent Unit Unit) :=
  [.cluster (.request (.release 0 (str "a") 4) .ok), .cluster (.request (.claim 0 (str "b") 2) .ok)]

/-- The second refresh starts when the first is done. -/
def inTurn : List (TracedEvent Unit Unit) :=
  aOwns ++ asks 0 ++ reads ++ [.answer 0 0, .process (.step 0 .none)] ++ bTakesOver ++
    [.process (.start [] .refresh), .process (.step 1 (.order [str "a"])),
      .process (.step 1 (.dial none))] ++ reads ++ [.answer 1 1]

/-- Both refreshes ask before the first read; the later read is installed first. -/
def overtaken : List (TracedEvent Unit Unit) :=
  aOwns ++ asks 0 ++ asks 1 ++ reads ++ bTakesOver ++ reads ++
    [.answer 1 1, .process (.step 1 .none), .answer 0 0]

/-- The read in force, the revisions, and the router's term for shard 0. -/
def inForce (τ : Traced E R) : Option Nat × List Nat × Option Str × Option Nat :=
  (τ.source, τ.reads, τ.system.process.router.shardOwner[0]?,
    τ.system.process.router.shardTerm[0]?)

theorem route_map_forward_inTurn : ∃ τ τ' t t',
    execute (Traced.exec sampleUnit sample) (fun τ e => decide (undisturbed τ e)) tracedStart
      inTurn = some τ ∧
    τ.exec sampleUnit sample (.process (.step 1 .none)) = some τ' ∧
    τ.system.process.router.shardTerm[0]? = some t ∧
    τ'.system.process.router.shardTerm[0]? = some t' ∧ t ≤ t' := by
  have ran : (execute (Traced.exec sampleUnit sample) (fun τ e => decide (undisturbed τ e))
      tracedStart inTurn).any (fun τ => undisturbed τ (.process (.step 1 .none)) ∧
        inForce τ = (some 0, [4, 6], some (str "a"), some 4) ∧
        (τ.exec sampleUnit sample (.process (.step 1 .none))).any fun τ' =>
          inForce τ' = (some 1, [4, 6], some (str "b"), some 6)) = true := by
    decide +kernel
  obtain ⟨τ, hτ, facts⟩ := (Option.any_eq_true _ _).mp ran
  obtain ⟨allowed, before, after⟩ := of_decide_eq_true facts
  obtain ⟨τ', step, after⟩ := (Option.any_eq_true _ _).mp after
  have after := of_decide_eq_true after
  simp only [inForce, Prod.mk.injEq] at before after
  obtain ⟨-, -, owner, term⟩ := before
  obtain ⟨-, -, owner', term'⟩ := after
  have reached : Reachable (Traced.Initial sample)
      (Next (Traced.exec sampleUnit sample) undisturbed) τ :=
    (reachable_of_execute hτ).mono (fun _ hs => hs ▸ tracedStart_initial)
      fun _ _ => of_decide_eq_true
  have forward := route_map_forward reached allowed step
  exact ⟨τ, τ', 4, 6, hτ, step, term, term', forward.2 0 _ _ 4 6 owner term owner' term'⟩

theorem overtaken_goes_back : ∃ τ τ',
    execute (Traced.exec sampleUnit sample) (fun _ _ => true) tracedStart overtaken = some τ ∧
    τ.exec sampleUnit sample (.process (.step 0 .none)) = some τ' ∧
    inForce τ = (some 1, [4, 6], some (str "b"), some 6) ∧
    inForce τ' = (some 0, [4, 6], some (str "a"), some 4) := by
  have ran : (execute (Traced.exec sampleUnit sample) (fun _ _ => true) tracedStart overtaken).any
      (fun τ => inForce τ = (some 1, [4, 6], some (str "b"), some 6) ∧
        (τ.exec sampleUnit sample (.process (.step 0 .none))).any fun τ' =>
          inForce τ' = (some 0, [4, 6], some (str "a"), some 4)) = true := by
    decide +kernel
  obtain ⟨τ, hτ, facts⟩ := (Option.any_eq_true _ _).mp ran
  obtain ⟨before, after⟩ := of_decide_eq_true facts
  obtain ⟨τ', step, after⟩ := (Option.any_eq_true _ _).mp after
  exact ⟨τ, τ', hτ, step, before, of_decide_eq_true after⟩

end MilvusCatalog.Client

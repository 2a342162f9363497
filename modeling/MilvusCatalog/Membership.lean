import MilvusCatalog.Ownership

/-! A node's liveness registration: `routing/membership.go`. Times are
nanoseconds of the node's clock. -/
namespace MilvusCatalog
open Go Etcd

/-- The state behind `*Membership`. `watching` says that the goroutine reading
keepalive responses still runs; `lost` that the channel behind `Lost()` is closed. -/
structure Membership where
  leaseID : Nat
  lastKeepAlive : Nat
  closing : Bool
  lost : Bool
  watching : Bool
  deriving DecidableEq, Repr

/-- A node that has not joined: no lease, never renewed. -/
def Membership.absent : Membership := ⟨0, 0, false, false, false⟩

def Membership.fresh (m : Membership) (now : Nat) (window : Int) : Bool :=
  m.lastKeepAlive != 0 && decide ((now : Int) - m.lastKeepAlive < window)

/-- A keepalive response, or the initial registration, is recorded. -/
def Membership.record (m : Membership) (now : Nat) : Membership := { m with lastKeepAlive := now }

/-- The keepalive channel closed; only an unexpected end is reported. -/
def Membership.ended (m : Membership) : Membership :=
  { m with watching := false, lost := m.lost || !m.closing }

def membersPrefix (pfx : Str) : Str := join [pfx, str "members"] ++ [slash]

def memberKey (pfx nodeID : Str) : Str := membersPrefix pfx ++ nodeID

/-- The member `Put` of `JoinMembership`. -/
def register (pfx : Str) (e : Store) (nodeID : Str) (lease : Nat) : Option Store :=
  e.put (memberKey pfx nodeID) [] lease

def listMembers (pfx : Str) (e : Store) : List Str :=
  (e.getPrefix (membersPrefix pfx)).map fun kv => kv.1.drop (membersPrefix pfx).length

/-- A node that is no longer fresh becomes fresh again only by recording. -/
theorem Membership.fresh_antitone (m : Membership) {now later : Nat} (h : now ≤ later)
    (window : Int) (stale : m.fresh now window = false) : m.fresh later window = false := by
  simp only [fresh, Bool.and_eq_false_iff, bne_eq_false_iff_eq, decide_eq_false_iff_not,
    not_lt] at stale ⊢
  exact stale.imp id fun hw => by omega

theorem membersPrefix_eq (pfx : Str) :
    membersPrefix pfx = dir pfx ++ (str "members" ++ [slash]) := by
  have names : ∀ name ∈ [str "members"], Plain name := by
    intro name h
    rw [List.mem_singleton] at h
    subst h
    exact ⟨by decide +kernel, by decide +kernel, by decide +kernel, by decide +kernel⟩
  simp [membersPrefix, join_plain pfx names]

/-- The two directories part at their first byte. -/
theorem ownership_ne_members (a b : Str) : str "ownership" ++ a ≠ str "members" ++ b := by
  intro h
  have heads := congrArg List.head? h
  have own : (str "ownership").head? = some 111 := by decide +kernel
  have mem : (str "members").head? = some 109 := by decide +kernel
  simp [List.head?_append, own, mem] at heads

/-- A node id may hold any bytes and still never reaches the ownership keys. -/
theorem memberKey_not_owned (pfx nodeID : Str) : ¬ shardBase pfx <+: memberKey pfx nodeID := by
  rw [memberKey, membersPrefix_eq, shardBase_eq, List.append_assoc, List.prefix_append_right_inj]
  rintro ⟨rest, h⟩
  rw [List.append_assoc, List.append_assoc] at h
  exact ownership_ne_members _ _ h

/-- No ownership key is listed as a member. -/
theorem shardKey_not_member (pfx : Str) (s : Nat) : ¬ membersPrefix pfx <+: shardKey pfx s := by
  rw [membersPrefix_eq, shardKey_eq, shardBase_eq, List.append_assoc,
    List.prefix_append_right_inj]
  rintro ⟨rest, h⟩
  rw [List.append_assoc, List.append_assoc] at h
  exact ownership_ne_members _ _ h.symm

theorem memberKey_ne_shardKey (pfx nodeID : Str) (s : Nat) :
    shardKey pfx s ≠ memberKey pfx nodeID :=
  fun h => memberKey_not_owned pfx nodeID (h ▸ shardBase_isPrefix pfx s)

@[simp] theorem memberKey_inj {pfx id id' : Str} :
    memberKey pfx id = memberKey pfx id' ↔ id = id' :=
  List.append_right_inj _

/-- A listing has the ids whose keys are stored, whatever characters they hold. -/
theorem mem_listMembers {pfx : Str} {e : Store} {id : Str} :
    id ∈ listMembers pfx e ↔ ∃ kv, e.get (memberKey pfx id) = some kv := by
  simp only [listMembers, List.mem_map, Prod.exists, Store.mem_getPrefix]
  constructor
  · rintro ⟨k, kv, ⟨stored, rest, rfl⟩, rfl⟩
    rw [List.drop_left]
    exact ⟨kv, stored⟩
  · rintro ⟨kv, stored⟩
    exact ⟨memberKey pfx id, kv, ⟨stored, List.prefix_append ..⟩, List.drop_left⟩

theorem listMembers_nodup (pfx : Str) (e : Store) : (listMembers pfx e).Nodup := by
  rw [listMembers, List.Nodup, List.pairwise_map]
  refine (e.getPrefix_sorted (membersPrefix pfx)).imp_of_mem ?_
  rintro ⟨k, kv⟩ ⟨k', kv'⟩ hk hk' lt same
  obtain ⟨-, id, rfl⟩ := (e.mem_getPrefix _ _ _).mp hk
  obtain ⟨-, id', rfl⟩ := (e.mem_getPrefix _ _ _).mp hk'
  simp only [List.drop_left] at same
  subst same
  simp at lt

end MilvusCatalog

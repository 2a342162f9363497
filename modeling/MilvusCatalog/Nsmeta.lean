import MilvusCatalog.Client.Router

/-! The namespace and the ownership term on the metadata of a request: the client
appends its stamp to what the context carries already, the service reads the
first value of each key. -/
namespace MilvusCatalog.Nsmeta
open Go

/-- Metadata of a context as pairs in the order they were appended, with the keys
as they arrive. -/
abbrev Metadata := List (Str × Str)

/-- `md.Get`. -/
def get (md : Metadata) (k : Str) : List Str := (md.filter fun e => e.1 = k).map Prod.snd

def key : Str := str "x-milvus-catalog-namespace"

def termKey : Str := str "x-milvus-catalog-term"

/-- The namespace of a caller that does not stamp one. -/
def default_ : Str := str "_default"

def with_ (ctx : Metadata) (ns : Str) : Metadata := ctx ++ [(key, ns)]

def withTerm (ctx : Metadata) (ns : Str) (term : Int) : Metadata :=
  ctx ++ [(key, ns), (termKey, itoa term)]

/-- `TermFrom`; a context may have no incoming metadata. -/
def termFrom (ctx : Option Metadata) : Int :=
  match ctx with
  | none => 0
  | some md =>
    match get md termKey with
    | [] => 0
    | v :: _ => if v = [] then 0 else (atoi v).getD 0

def from_ (ctx : Option Metadata) : Str :=
  match ctx with
  | none => default_
  | some md =>
    match get md key with
    | [] => default_
    | v :: _ => if v = [] then default_ else v

section
variable (ctx : Metadata) {ns : Str} {term : Int}

theorem get_append (md md' : Metadata) (k : Str) : get (md ++ md') k = get md k ++ get md' k := by
  simp [get]

/-- The first stamp is the one that is read. -/
theorem from_append (stamp : Metadata) : from_ (some (ctx ++ stamp)) =
    if get ctx key = [] then from_ (some stamp) else from_ (some ctx) := by
  simp only [from_, get_append]
  cases get ctx key <;> simp

theorem termFrom_append (stamp : Metadata) : termFrom (some (ctx ++ stamp)) =
    if get ctx termKey = [] then termFrom (some stamp) else termFrom (some ctx) := by
  simp only [termFrom, get_append]
  cases get ctx termKey <;> simp

theorem from_withTerm (named : ns ≠ []) : from_ (some (withTerm ctx ns term)) =
    if get ctx key = [] then ns else from_ (some ctx) := by
  have stamp : get [(key, ns), (termKey, itoa term)] key = [ns] := by
    simp [get, show termKey ≠ key by decide]
  rw [withTerm, from_append]
  simp [from_, stamp, named]

theorem from_with (named : ns ≠ []) : from_ (some (with_ ctx ns)) =
    if get ctx key = [] then ns else from_ (some ctx) := by
  have stamp : get [(key, ns)] key = [ns] := by simp [get]
  rw [with_, from_append]
  simp [from_, stamp, named]

theorem termFrom_withTerm (lo : -2 ^ 63 ≤ term) (hi : term < 2 ^ 63) :
    termFrom (some (withTerm ctx ns term)) =
      if get ctx termKey = [] then term else termFrom (some ctx) := by
  have stamp : get [(key, ns), (termKey, itoa term)] termKey = [itoa term] := by
    simp [get, show key ≠ termKey by decide]
  have read := atoi_itoa_int64 lo hi
  have nonempty : itoa term ≠ [] := by
    intro h
    rw [h] at read
    cases read
  rw [withTerm, termFrom_append]
  simp [termFrom, stamp, nonempty, read]

end

/-- A stamp is read back exactly when the context has no earlier one or reads as
the same namespace and the same term already. -/
theorem stamp_read_iff (ctx : Metadata) {ns : Str} {term : Int} (named : ns ≠ [])
    (lo : -2 ^ 63 ≤ term) (hi : term < 2 ^ 63) :
    (from_ (some (withTerm ctx ns term)) = ns ∧ termFrom (some (withTerm ctx ns term)) = term ∧
      from_ (some (with_ ctx ns)) = ns) ↔
    (get ctx key = [] ∨ from_ (some ctx) = ns) ∧
      (get ctx termKey = [] ∨ termFrom (some ctx) = term) := by
  rw [from_withTerm ctx named, from_with ctx named, termFrom_withTerm ctx lo hi]
  by_cases hk : get ctx key = []
  · by_cases ht : get ctx termKey = [] <;> simp [hk, ht]
  · by_cases ht : get ctx termKey = []
    · simp [hk, ht]
    · simp only [hk, ht, ↓reduceIte, false_or]
      tauto

/-- The least term, on a context that another package has put metadata on. -/
theorem stamp_read_least :
    from_ (some (withTerm [(str "authorization", str "x")] (str "tenant-b") (-2 ^ 63))) =
      str "tenant-b" ∧
    termFrom (some (withTerm [(str "authorization", str "x")] (str "tenant-b") (-2 ^ 63))) =
      -2 ^ 63 ∧
    from_ (some (with_ [(str "authorization", str "x")] (str "tenant-b"))) = str "tenant-b" :=
  (stamp_read_iff [(str "authorization", str "x")] (by decide) (by decide) (by decide)).mpr
    ⟨by decide, by decide⟩

/-- An earlier stamp wins over the one that the router appends. -/
theorem earlier_stamp_read :
    from_ (some (withTerm (with_ [] (str "tenant-a")) (str "tenant-b") 7)) = str "tenant-a" ∧
    from_ (some (with_ (with_ [] (str "tenant-a")) (str "tenant-b"))) = str "tenant-a" ∧
    termFrom (some (withTerm (withTerm [] (str "tenant-b") 3) (str "tenant-b") 7)) = 3 := by
  decide +kernel

/-! ## The router's requests -/

section
variable {E R : Type}

/-- What an invocation of the router carries, on the caller's context. -/
def request (ctx : Metadata) (c : Client.Call E R) : Option Metadata :=
  match c.pc with
  | .invoking _ term => some (withTerm ctx c.ns term)
  | _ => none

/-- The service processes a routed request under the namespace it was routed for
unless the caller's context names another one. -/
theorem request_namespace_iff {ctx md : Metadata} {c : Client.Call E R} (named : c.ns ≠ [])
    (sent : request ctx c = some md) :
    from_ (some md) = c.ns ↔ get ctx key = [] ∨ from_ (some ctx) = c.ns := by
  unfold request at sent
  split at sent
  · cases sent
    rw [from_withTerm ctx named]
    by_cases hk : get ctx key = [] <;> simp [hk]
  · cases sent

end

end MilvusCatalog.Nsmeta

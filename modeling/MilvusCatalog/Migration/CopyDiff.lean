import MilvusCatalog.Migration.Keys

/-! The bulk copy from one store into another and the comparison that verifies
it, over all choices of the backends and of Go's map iteration. -/
namespace MilvusCatalog.Migration
open Go

/-- Bounds one `MultiSave`. -/
def multiSaveBatch : Nat := 64

/-- An order in which `range` may visit the entries of a map. -/
structure Order where
  visit : List (Str × Str) → List (Str × Str)
  perm : ∀ l, (visit l).Perm l

/-- How a `MultiSave` ends; its transaction may be applied although the call
returns an error. -/
inductive Saved
  | ok
  | failed (applied : Bool)
  deriving DecidableEq, Repr

/-- What is not decided by the code during one call: which loads are answered,
in which order the loaded maps are visited, and how each `MultiSave` ends. -/
structure Env where
  answers : Nat → Bool
  order : Nat → Order
  saves : Nat → Saved

/-- A copy under way: the two stores, the pending batch, the counter, and the
backend calls made so far. -/
structure Copying where
  src : MetaKv
  dst : MetaKv
  batch : Map
  copied : Nat
  loads : Nat
  saves : List (Map × Saved)

def flush (env : Env) (c : Copying) : Except (Failure × Copying) Copying :=
  if c.batch.size = 0 then .ok c
  else
    let outcome := env.saves c.saves.length
    let saves := c.saves ++ [(c.batch, outcome)]
    match outcome with
    | .ok => .ok { c with dst := c.dst.multiSave c.batch, batch := ∅, saves }
    | .failed true => .error (.save, { c with dst := c.dst.multiSave c.batch, saves })
    | .failed false => .error (.save, { c with saves })

def flushFull (env : Env) (c : Copying) : Except (Failure × Copying) Copying :=
  if multiSaveBatch ≤ c.batch.size then flush env c else .ok c

/-- One turn of the loop over the loaded map. -/
def copyKey (env : Env) (c : Copying) (e : Str × Str) : Except (Failure × Copying) Copying := do
  let c ← flushFull env { c with batch := c.batch.insert e.1 e.2 }
  .ok { c with copied := c.copied + 1 }

/-- One turn of the loop over the roots. -/
def copyRoot (env : Env) (c : Copying) (root : Str) : Except (Failure × Copying) Copying :=
  match loadLogical (env.answers c.loads) c.src root with
  | .error e => .error (e, { c with loads := c.loads + 1 })
  | .ok logical => do
    let entries := (env.order c.loads).visit logical.toList
    let c ← entries.foldlM (copyKey env) { c with batch := ∅, loads := c.loads + 1 }
    flush env c

def copyPrefixes (env : Env) (src dst : MetaKv) (roots : List Str) :
    Except (Failure × Copying) Copying :=
  roots.foldlM (copyRoot env)
    { src, dst, batch := ∅, copied := 0, loads := 0, saves := [] }

/-- `LoadLogical`; `start` is the number of loads made before. -/
def loadLogicalRoots (env : Env) (start : Nat) (m : MetaKv) (roots : List Str) :
    Except Failure Map :=
  (roots.zipIdx start).foldlM (fun out r => do
    let part ← loadLogical (env.answers r.2) m r.1
    .ok (out.insertMany ((env.order r.2).visit part.toList))) ∅

/-- The reasons "missing-in-dst", "missing-in-src" and "value-differs". -/
inductive Reason
  | missingInDst
  | missingInSrc
  | valueDiffers
  deriving DecidableEq, Repr

structure Mismatch where
  key : Str
  reason : Reason
  deriving DecidableEq, Repr

def Mismatch.le (a b : Mismatch) : Prop := (compare a.key b.key).isLE

instance : DecidableRel Mismatch.le := fun _ _ => inferInstanceAs (Decidable (_ = true))

/-- One turn of the loop over the source map. -/
def compareSrc (dst : Map) (e : Str × Str) : Option Mismatch :=
  match dst[e.1]? with
  | none => some ⟨e.1, .missingInDst⟩
  | some dv => if dv ≠ e.2 then some ⟨e.1, .valueDiffers⟩ else none

/-- One turn of the loop over the destination map. -/
def compareDst (src : Map) (e : Str × Str) : Option Mismatch :=
  if src[e.1]? = none then some ⟨e.1, .missingInSrc⟩ else none

/-- No key is reported twice, so it does not matter that `sort.Slice` is not
stable. -/
def diffMaps (overSrc overDst : Order) (src dst : Map) : List Mismatch :=
  ((overSrc.visit src.toList).filterMap (compareSrc dst) ++
    (overDst.visit dst.toList).filterMap (compareDst src)).insertionSort Mismatch.le

def diffPrefixes (env : Env) (src dst : MetaKv) (roots : List Str) :
    Except Failure (List Mismatch) := do
  let srcKV ← loadLogicalRoots env 0 src roots
  let dstKV ← loadLogicalRoots env roots.length dst roots
  .ok (diffMaps (env.order (2 * roots.length)) (env.order (2 * roots.length + 1)) srcKV dstKV)

end MilvusCatalog.Migration

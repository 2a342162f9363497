import MilvusCatalog.Lib.GoString

/-! The metadata stores that a migration reads and writes, and the way back
from the full keys of a store to the logical keys that two stores share. -/
namespace MilvusCatalog.Migration
open Go

/-- A Go `map[string]string`. -/
abbrev Map := Std.ExtTreeMap Str Str

/-- A `kv.MetaKv` instance: the root path it was opened with, and what its
backend holds under full keys. -/
structure MetaKv where
  rootPath : Str
  entries : Map

namespace MetaKv

/-- `GetPath(rootPath, key)`. -/
def fullKey (m : MetaKv) (key : Str) : Str :=
  if m.rootPath = [] then key else m.rootPath ++ slash :: key

def load (m : MetaKv) (key : Str) : Option Str := m.entries[m.fullKey key]?

/-- `LoadWithPrefix`, which matches full keys as plain strings. -/
def loadWithPrefix (m : MetaKv) (root : Str) : List (Str × Str) :=
  m.entries.toList.filter fun e => (m.fullKey root).isPrefixOf e.1

/-- `MultiSave`, one transaction for all keys. -/
def multiSave (m : MetaKv) (kvs : Map) : MetaKv :=
  { m with entries := m.entries.insertMany (kvs.toList.map fun e => (m.fullKey e.1, e.2)) }

end MetaKv

/-- Why a copy or a comparison stopped: a backend call returned an error, or a
loaded key "does not contain root at a segment boundary". -/
inductive Failure
  | load
  | save
  | parameterInvalid (fullKey root : Str)
  deriving DecidableEq, Repr

/-- The scan of `stripRootPath` from `pos` on. Every turn moves `pos` forward
inside the key, so a length of fuel is never used up. -/
def scan (fullKey needle : Str) : Nat → Nat → Option Str
  | 0, _ => none
  | fuel + 1, pos =>
    match index (fullKey.drop pos) needle with
    | none => none
    | some i =>
      let idx := pos + i
      let after := idx + needle.length
      if after = fullKey.length ∨ fullKey[after]? = some slash then some (fullKey.drop (idx + 1))
      else scan fullKey needle fuel (idx + 1)

def stripRootPath (fullKey root : Str) : Except Failure Str :=
  match scan fullKey (slash :: root) (fullKey.length + 1) 0 with
  | some logical => .ok logical
  | none =>
    if fullKey = root ∨ (root ++ [slash]).isPrefixOf fullKey then .ok fullKey
    else .error (.parameterInvalid fullKey root)

/-- `loadLogical`, given whether the backend answers. -/
def loadLogical (answers : Bool) (m : MetaKv) (root : Str) : Except Failure Map :=
  if answers then
    (m.loadWithPrefix root).foldlM (fun out e => do
      let logical ← stripRootPath e.1 root
      .ok (out.insert logical e.2)) ∅
  else .error .load

/-! ## Segment boundaries -/

/-- `root` stands in the key right after a slash at `idx`, and another slash or
the end of the key follows it. -/
structure Boundary (fullKey root : Str) (idx : Nat) : Prop where
  occurs : slash :: root <+: fullKey.drop idx
  closed : idx + (slash :: root).length = fullKey.length ∨
    fullKey[idx + (slash :: root).length]? = some slash

instance (fullKey root : Str) (idx : Nat) : Decidable (Boundary fullKey root idx) :=
  decidable_of_iff (_ ∧ _) ⟨fun h => ⟨h.1, h.2⟩, fun h => ⟨h.occurs, h.closed⟩⟩

/-- The logical key is the root or lies below it in the tree of segments. -/
def Beneath (root key : Str) : Prop := key = root ∨ root ++ [slash] <+: key

instance (root key : Str) : Decidable (Beneath root key) :=
  inferInstanceAs (Decidable (_ ∨ _))

theorem Beneath.isPrefix {root key : Str} (h : Beneath root key) : root <+: key := by
  cases h with
  | inl h => exact h ▸ List.prefix_rfl
  | inr h => exact (List.prefix_append root [slash]).trans h

/-- A boundary is a slash with the root or a key beneath it behind. -/
theorem boundary_iff {fullKey root : Str} {idx : Nat} : Boundary fullKey root idx ↔
    fullKey[idx]? = some slash ∧ Beneath root (fullKey.drop (idx + 1)) := by
  constructor
  · rintro ⟨⟨rest, h⟩, closed⟩
    have tail : fullKey.drop (idx + 1) = root ++ rest := by
      rw [← List.drop_drop, ← h]
      rfl
    refine ⟨by rw [← List.head?_drop, ← h]; rfl, ?_⟩
    rw [tail]
    cases rest with
    | nil => exact .inl (List.append_nil root)
    | cons b rest =>
      right
      have length := congrArg List.length h
      have next : fullKey[idx + (slash :: root).length]? = some b := by
        rw [← List.getElem?_drop, ← h]
        simp
      simp only [List.length_append, List.length_cons, List.length_drop] at length closed next
      cases closed with
      | inl last => omega
      | inr follows =>
        rw [follows] at next
        cases next
        simp
  · rintro ⟨slash_at, beneath⟩
    have inside : idx < fullKey.length := (List.getElem?_eq_some_iff.mp slash_at).1
    have cut : fullKey.drop idx = slash :: fullKey.drop (idx + 1) := by
      rw [List.drop_eq_getElem_cons inside, (List.getElem?_eq_some_iff.mp slash_at).2]
    refine ⟨?_, ?_⟩
    · rw [cut, List.cons_prefix_cons]
      exact ⟨rfl, beneath.isPrefix⟩
    · have length := congrArg List.length cut
      cases beneath with
      | inl whole =>
        left
        simp only [whole, List.length_drop, List.length_cons] at length ⊢
        omega
      | inr below =>
        right
        obtain ⟨rest, h⟩ := below
        rw [← List.getElem?_drop, cut, ← h]
        simp

/-- The scan stops at the first boundary. -/
theorem scan_first {fullKey root : Str} {idx : Nat} (found : Boundary fullKey root idx) :
    ∀ {fuel pos : Nat}, pos ≤ idx → idx - pos < fuel →
      (∀ j, pos ≤ j → j < idx → ¬ Boundary fullKey root j) →
      scan fullKey (slash :: root) fuel pos = some (fullKey.drop (idx + 1)) := by
  intro fuel
  induction fuel with
  | zero => intro pos _ hf; omega
  | succ fuel ih =>
    intro pos hp hf first
    have at_idx : slash :: root <+: (fullKey.drop pos).drop (idx - pos) := by
      rw [List.drop_drop, show pos + (idx - pos) = idx by omega]
      exact found.occurs
    obtain ⟨i, hi, hidx⟩ := index_le at_idx
    have occurs := index_some hidx
    rw [List.drop_drop] at occurs
    simp only [scan, hidx]
    by_cases h : pos + i = idx
    · rw [h, if_pos found.closed]
    · -- An occurrence before the boundary is inside a longer segment.
      have open_ : ¬ Boundary fullKey root (pos + i) := first _ (by omega) (by omega)
      rw [if_neg fun closed => open_ ⟨occurs, closed⟩]
      apply ih
      · omega
      · omega
      · intro j hj hlt
        exact first j (by omega) hlt

/-- Where there is no boundary, every turn of the scan finds an occurrence inside
a longer segment or none at all. -/
theorem scan_none {fullKey root : Str} (none : ∀ idx, ¬ Boundary fullKey root idx) :
    ∀ fuel pos, scan fullKey (slash :: root) fuel pos = .none := by
  intro fuel
  induction fuel with
  | zero => intro pos; rfl
  | succ fuel ih =>
    intro pos
    unfold scan
    split
    · rfl
    · next i hi =>
      have occurs := index_some hi
      rw [List.drop_drop] at occurs
      rw [if_neg fun closed => none (pos + i) ⟨occurs, closed⟩]
      exact ih (pos + i + 1)

theorem Boundary.lt_length {fullKey root : Str} {idx : Nat} (h : Boundary fullKey root idx) :
    idx < fullKey.length := by
  have le := h.occurs.length_le
  simp only [List.length_cons, List.length_drop] at le
  omega

/-- The key is cut right after the slash of the first boundary. -/
theorem stripRootPath_first {fullKey root : Str} {idx : Nat} (found : Boundary fullKey root idx)
    (first : ∀ j < idx, ¬ Boundary fullKey root j) :
    stripRootPath fullKey root = .ok (fullKey.drop (idx + 1)) := by
  have fuel : idx - 0 < fullKey.length + 1 := by
    have := found.lt_length
    omega
  unfold stripRootPath
  rw [scan_first found (Nat.zero_le idx) fuel fun j _ hj => first j hj]

theorem stripRootPath_none {fullKey root : Str} (none : ∀ idx, ¬ Boundary fullKey root idx) :
    stripRootPath fullKey root = if Beneath root fullKey then .ok fullKey
      else .error (.parameterInvalid fullKey root) := by
  unfold stripRootPath
  rw [scan_none none]
  exact if_congr (by simp only [Beneath, List.isPrefixOf_iff_prefix]) rfl rfl

theorem Boundary.of_longer {short long root : Str} {idx : Nat} (h : Boundary long root idx)
    (hp : short <+: long) (hl : idx + (slash :: root).length < short.length) :
    Boundary short root idx := by
  constructor
  · apply List.prefix_of_prefix_length_le h.occurs (hp.drop idx)
    rw [List.length_drop]
    omega
  · have hle := hp.length_le
    cases h.closed with
    | inl h => omega
    | inr h =>
      obtain ⟨rest, rfl⟩ := hp
      rw [← h, List.getElem?_append_left hl]
      exact .inr rfl

/-- No boundary of `root` in the full key of the root begins inside the root
path; the slash before an occurrence counts as its beginning. -/
def Unambiguous (m : MetaKv) (root : Str) : Prop :=
  ∀ idx < m.rootPath.length, ¬ Boundary (m.fullKey root) root idx

instance (m : MetaKv) (root : Str) : Decidable (Unambiguous m root) :=
  inferInstanceAs (Decidable (∀ idx < m.rootPath.length, _))

/-- Every stored key that starts with `root` as a string is beneath it. -/
def Segmented (m : MetaKv) (root : Str) : Prop :=
  ∀ key, m.load key ≠ none → root <+: key → Beneath root key

section
variable {m : MetaKv} {root key : Str}

theorem MetaKv.fullKey_eq (h : m.rootPath ≠ []) (key : Str) :
    m.fullKey key = m.rootPath ++ slash :: key := if_neg h

theorem MetaKv.drop_fullKey (h : m.rootPath ≠ []) (key : Str) :
    (m.fullKey key).drop (m.rootPath.length + 1) = key := by
  rw [MetaKv.fullKey_eq h, ← List.drop_drop, List.drop_left]
  rfl

theorem MetaKv.fullKey_injective {a b : Str} (h : m.fullKey a = m.fullKey b) : a = b := by
  unfold MetaKv.fullKey at h
  split at h
  · exact h
  · exact (List.cons.inj (List.append_cancel_left h)).2

theorem MetaKv.fullKey_prefix_iff : m.fullKey root <+: m.fullKey key ↔ root <+: key := by
  unfold MetaKv.fullKey
  split
  · rfl
  · rw [List.prefix_append_right_inj, List.cons_prefix_cons]
    simp

/-- Whether the keys are segmented can be read off the stored entries. -/
theorem Segmented.of_entries (hm : m.rootPath ≠ [])
    (h : ∀ e ∈ m.entries.toList, root <+: e.1.drop (m.rootPath.length + 1) →
      Beneath root (e.1.drop (m.rootPath.length + 1))) : Segmented m root := by
  intro key stored starts
  obtain ⟨v, hv⟩ := Option.ne_none_iff_exists'.mp stored
  have beneath := h (m.fullKey key, v) (Std.ExtTreeMap.mem_toList_iff_getElem?_eq_some.mpr hv)
  rw [MetaKv.drop_fullKey hm] at beneath
  exact beneath starts

theorem fullKey_boundary (hm : m.rootPath ≠ []) (h : Beneath root key) :
    Boundary (m.fullKey key) root m.rootPath.length := by
  rw [boundary_iff, MetaKv.drop_fullKey hm, MetaKv.fullKey_eq hm]
  exact ⟨by simp, h⟩

theorem Unambiguous.before (hu : Unambiguous m root) (hm : m.rootPath ≠ []) (starts : root <+: key)
    {j : Nat} (hj : j < m.rootPath.length) : ¬ Boundary (m.fullKey key) root j := by
  intro hb
  apply hu j hj
  apply hb.of_longer (MetaKv.fullKey_prefix_iff.mpr starts)
  rw [MetaKv.fullKey_eq hm]
  simp only [List.length_append, List.length_cons]
  omega

theorem stripRootPath_fullKey (hm : m.rootPath ≠ []) (hu : Unambiguous m root)
    (h : Beneath root key) : stripRootPath (m.fullKey key) root = .ok key := by
  rw [stripRootPath_first (fullKey_boundary hm h) fun j hj => hu.before hm h.isPrefix hj,
    MetaKv.drop_fullKey hm]

/-! ## Loading under a root -/

theorem Map.insertMany_get {t : Map} {l : List (Str × Str)} (distinct : (l.map Prod.fst).Nodup)
    (k v : Str) : (t.insertMany l)[k]? = some v ↔
      (k, v) ∈ l ∨ k ∉ l.map Prod.fst ∧ t[k]? = some v := by
  have pairwise : l.Pairwise fun a b => ¬ compare a.1 b.1 = .eq := by
    simpa [List.Nodup, List.pairwise_map] using distinct
  by_cases hk : k ∈ l.map Prod.fst
  · obtain ⟨⟨k', w⟩, hw, rfl⟩ := List.mem_map.mp hk
    have get := Std.ExtTreeMap.getElem?_insertMany_list_of_mem (t := t)
      (Std.ReflCmp.compare_self (a := k')) pairwise hw
    rw [get]
    constructor
    · rintro ⟨⟩
      exact .inl hw
    · rintro (h | ⟨absent, -⟩)
      · have same : (k', w) = (k', v) := List.inj_on_of_nodup_map distinct hw h rfl
        exact congrArg (some ·.2) same
      · exact absurd hk absent
  · rw [Std.ExtTreeMap.getElem?_insertMany_list_of_contains_eq_false (by simpa using hk)]
    constructor
    · intro h
      exact .inr ⟨hk, h⟩
    · rintro (h | ⟨-, h⟩)
      · exact absurd (List.mem_map_of_mem (f := Prod.fst) h) hk
      · exact h

theorem Map.keys_nodup (t : Map) : (t.toList.map Prod.fst).Nodup := by
  have h := Std.ExtTreeMap.distinct_keys_toList (t := t)
  rw [List.Nodup, List.pairwise_map]
  simpa using h

theorem Map.eq_empty_of_size {t : Map} (h : t.size = 0) : t = ∅ := by
  rw [← Std.ExtTreeMap.isEmpty_iff, Std.ExtTreeMap.isEmpty_eq_size_beq_zero, h]
  rfl

/-- What `LoadWithPrefix` returns, by logical keys. -/
theorem loadWithPrefix_eq (hm : m.rootPath ≠ []) (root : Str) :
    ∃ ks : List (Str × Str), m.loadWithPrefix root = ks.map (fun e => (m.fullKey e.1, e.2)) ∧
      (ks.map Prod.fst).Nodup ∧ ∀ k v, (k, v) ∈ ks ↔ root <+: k ∧ m.load k = some v := by
  let strip : Str × Str → Str × Str := fun e => (e.1.drop (m.rootPath.length + 1), e.2)
  let restore : Str × Str → Str × Str := fun e => (m.fullKey e.1, e.2)
  have back : ∀ e ∈ m.loadWithPrefix root, restore (strip e) = e := by
    rintro ⟨f, v⟩ he
    have hp : m.fullKey root <+: f := by simpa using (List.mem_filter.mp he).2
    obtain ⟨rest, rfl⟩ := hp
    simp [restore, strip, MetaKv.fullKey_eq hm]
  have whole : ((m.loadWithPrefix root).map strip).map restore = m.loadWithPrefix root := by
    rw [List.map_map]
    exact (List.map_congr_left back).trans (List.map_id _)
  have distinct : ((m.loadWithPrefix root).map Prod.fst).Nodup :=
    (Map.keys_nodup m.entries).sublist (List.filter_sublist.map Prod.fst)
  refine ⟨(m.loadWithPrefix root).map strip, whole.symm, ?_, ?_⟩
  · rw [← whole, List.map_map] at distinct
    apply List.Nodup.of_map m.fullKey
    rwa [List.map_map]
  · intro k v
    have inj : Function.Injective restore := by
      rintro ⟨a, v⟩ ⟨b, w⟩ h
      obtain ⟨hk, hv⟩ := Prod.mk.inj h
      exact Prod.ext (MetaKv.fullKey_injective hk) hv
    rw [← List.mem_map_of_injective inj, whole]
    simp [restore, MetaKv.loadWithPrefix, MetaKv.load,
      Std.ExtTreeMap.mem_toList_iff_getElem?_eq_some, MetaKv.fullKey_prefix_iff, and_comm]

/-- A successful load under a root: the entries beneath it by logical key. -/
structure Loaded (m : MetaKv) (root : Str) (out : Map) : Prop where
  get : ∀ k v, out[k]? = some v ↔ Beneath root k ∧ m.load k = some v
  size : out.size = (m.loadWithPrefix root).length

theorem strip_fold (hm : m.rootPath ≠ []) (hu : Unambiguous m root) {ks : List (Str × Str)}
    (beneath : ∀ e ∈ ks, Beneath root e.1) (out : Map) :
    (ks.map fun e => (m.fullKey e.1, e.2)).foldlM (fun out e => do
      let logical ← stripRootPath e.1 root
      .ok (out.insert logical e.2)) out = .ok (out.insertMany ks) := by
  induction ks generalizing out with
  | nil => rfl
  | cons e ks ih =>
    obtain ⟨k, v⟩ := e
    have strip := stripRootPath_fullKey hm hu (beneath (k, v) List.mem_cons_self)
    simp only [List.map_cons, List.foldlM_cons, strip, Std.ExtTreeMap.insertMany_cons]
    exact ih (fun e he => beneath e (List.mem_cons_of_mem _ he)) (out.insert k v)

theorem loadLogical_loaded (hm : m.rootPath ≠ []) (hu : Unambiguous m root)
    (hs : Segmented m root) : ∃ out, loadLogical true m root = .ok out ∧ Loaded m root out := by
  obtain ⟨ks, eq, distinct, mem⟩ := loadWithPrefix_eq hm root
  have beneath : ∀ e ∈ ks, Beneath root e.1 := by
    rintro ⟨k, v⟩ he
    obtain ⟨hp, hl⟩ := (mem k v).mp he
    exact hs k (by simp [hl]) hp
  refine ⟨(∅ : Map).insertMany ks, ?_, ?_, ?_⟩
  · rw [loadLogical, if_pos rfl, eq]
    exact strip_fold hm hu beneath ∅
  · intro k v
    rw [Map.insertMany_get distinct, mem]
    constructor
    · rintro (⟨hp, hl⟩ | ⟨-, h⟩)
      · exact ⟨hs k (by simp [hl]) hp, hl⟩
      · simp at h
    · rintro ⟨hb, hl⟩
      exact .inl ⟨hb.isPrefix, hl⟩
  · rw [eq, List.length_map, ← Std.ExtTreeMap.ofList_eq_insertMany_empty,
      Std.ExtTreeMap.size_ofList]
    simpa [List.Nodup, List.pairwise_map] using distinct

theorem Loaded.of_ok (hm : m.rootPath ≠ []) (hu : Unambiguous m root) (hs : Segmented m root)
    {answers : Bool} {out : Map} (ok : loadLogical answers m root = .ok out) :
    Loaded m root out := by
  cases answers with
  | false => cases ok
  | true =>
    obtain ⟨out', ok', loaded⟩ := loadLogical_loaded hm hu hs
    rw [ok'] at ok
    exact Except.ok.inj ok ▸ loaded

end

end MilvusCatalog.Migration

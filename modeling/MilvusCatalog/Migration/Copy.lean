import MilvusCatalog.Lib.Attempt
import MilvusCatalog.Migration.CopyDiff

/-! What a copy leaves in the destination: wherever it stops, only entries that
are to be copied have changed, and without a failure all of them have arrived. -/
namespace MilvusCatalog.Migration
open Go Attempt

/-- The logical key is beneath one of the roots. -/
def Under (roots : List Str) (key : Str) : Prop := ∃ root ∈ roots, Beneath root key

instance (roots : List Str) (key : Str) : Decidable (Under roots key) :=
  inferInstanceAs (Decidable (∃ root ∈ roots, _))

/-- An entry that a copy of `roots` from `src` is to write. -/
structure Wanted (src : MetaKv) (roots : List Str) (key value : Str) : Prop where
  under : Under roots key
  stored : src.load key = some value

theorem Wanted.unique {src : MetaKv} {roots : List Str} {key v w : Str}
    (hv : Wanted src roots key v) (hw : Wanted src roots key w) : v = w :=
  Option.some.inj (hv.stored.symm.trans hw.stored)

/-- `MultiSave` replaces the values of its keys and nothing else. -/
theorem multiSave_load (m : MetaKv) (kvs : Map) (k : Str) :
    (m.multiSave kvs).load k = (kvs[k]?).or (m.load k) := by
  have distinct : ((kvs.toList.map fun e => (m.fullKey e.1, e.2)).map Prod.fst).Nodup := by
    have h := (Map.keys_nodup kvs).map (f := m.fullKey) fun a b => MetaKv.fullKey_injective
    rw [List.map_map] at h ⊢
    exact h
  have mem : ∀ v, (m.fullKey k, v) ∈ (kvs.toList.map fun e => (m.fullKey e.1, e.2)) ↔
      kvs[k]? = some v := by
    intro v
    rw [← Std.ExtTreeMap.mem_toList_iff_getElem?_eq_some, List.mem_map]
    constructor
    · rintro ⟨⟨k', w⟩, hw, h⟩
      obtain ⟨hk, rfl⟩ := Prod.mk.inj h
      exact MetaKv.fullKey_injective hk ▸ hw
    · intro h
      exact ⟨(k, v), h, rfl⟩
  apply Option.ext
  intro v
  refine (Map.insertMany_get (t := m.entries) distinct (m.fullKey k) v).trans ?_
  rw [mem]
  cases found : kvs[k]? with
  | some w =>
    have present : m.fullKey k ∈ (kvs.toList.map fun e => (m.fullKey e.1, e.2)).map Prod.fst :=
      List.mem_map.mpr ⟨_, (mem w).mpr found, rfl⟩
    simp only [present, not_true_eq_false, false_and, or_false, Option.some_or]
  | none =>
    have absent : m.fullKey k ∉ (kvs.toList.map fun e => (m.fullKey e.1, e.2)).map Prod.fst := by
      intro h
      obtain ⟨⟨f, w⟩, hw, rfl⟩ := List.mem_map.mp h
      rw [(mem w).mp hw] at found
      cases found
    simp only [absent, not_false_eq_true, true_and, reduceCtorEq, false_or, Option.none_or,
      MetaKv.load]

theorem multiSave_other {m : MetaKv} {kvs : Map} {f : Str}
    (h : ∀ k, kvs[k]? ≠ none → f ≠ m.fullKey k) :
    (m.multiSave kvs).entries[f]? = m.entries[f]? := by
  apply Std.ExtTreeMap.getElem?_insertMany_list_of_contains_eq_false
  simp only [List.contains_eq_mem, decide_eq_false_iff_not, List.map_map, List.mem_map, not_exists,
    not_and]
  rintro ⟨k, v⟩ he rfl
  rw [Std.ExtTreeMap.mem_toList_iff_getElem?_eq_some] at he
  exact h k (by simp [he]) rfl

section
variable {src before : MetaKv} {roots : List Str} {env : Env} {c c' : Copying}

/-- A destination in which only entries to be copied may have changed. -/
structure Within (src before : MetaKv) (roots : List Str) (dst : MetaKv) : Prop where
  rootPath : dst.rootPath = before.rootPath
  untouched : ∀ f, (∀ k v, Wanted src roots k v → f ≠ before.fullKey k) →
    dst.entries[f]? = before.entries[f]?

theorem Within.fullKey {dst : MetaKv} (h : Within src before roots dst) (k : Str) :
    dst.fullKey k = before.fullKey k := by
  simp only [MetaKv.fullKey, h.rootPath]

theorem Within.multiSave {dst : MetaKv} (h : Within src before roots dst) {kvs : Map}
    (wanted : ∀ k v, kvs[k]? = some v → Wanted src roots k v) :
    Within src before roots (dst.multiSave kvs) where
  rootPath := h.rootPath
  untouched f hf := by
    rw [multiSave_other, h.untouched f hf]
    intro k hk
    obtain ⟨v, hv⟩ := Option.ne_none_iff_exists'.mp hk
    rw [h.fullKey]
    exact hf k v (wanted k v hv)

/-- Holds wherever a copy stops. -/
structure Sound (src before : MetaKv) (roots : List Str) (c : Copying) : Prop where
  source : c.src = src
  dst : Within src before roots c.dst
  batch : ∀ k v, c.batch[k]? = some v → Wanted src roots k v

theorem flush_sound (h : Sound src before roots c) :
    Sound src before roots (final (flush env c)) := by
  unfold flush
  split
  · exact h
  · dsimp only
    split
    · exact ⟨h.source, h.dst.multiSave h.batch, by simp [final]⟩
    · exact ⟨h.source, h.dst.multiSave h.batch, h.batch⟩
    · exact ⟨h.source, h.dst, h.batch⟩

theorem Sound.insert (h : Sound src before roots c) {k v : Str} (hw : Wanted src roots k v) :
    Sound src before roots { c with batch := c.batch.insert k v } where
  source := h.source
  dst := h.dst
  batch k' v' hk := by
    rw [Std.ExtTreeMap.getElem?_insert] at hk
    split at hk
    · next heq =>
      obtain rfl := Std.LawfulEqCmp.eq_of_compare heq
      cases hk
      exact hw
    · exact h.batch k' v' hk

theorem copyKey_sound {e : Str × Str} (hw : Wanted src roots e.1 e.2)
    (h : Sound src before roots c) : Sound src before roots (final (copyKey env c e)) := by
  have inserted := h.insert hw
  unfold copyKey
  apply final_bind
  · unfold flushFull
    split
    · exact flush_sound inserted
    · exact inserted
  · intro s hs
    exact ⟨hs.source, hs.dst, hs.batch⟩

/-- A store from which the logical keys under the roots can be read back. -/
structure Readable (m : MetaKv) (roots : List Str) : Prop where
  rooted : m.rootPath ≠ []
  unambiguous : ∀ root ∈ roots, Unambiguous m root
  segmented : ∀ root ∈ roots, Segmented m root

theorem Readable.loaded {m : MetaKv} (h : Readable m roots) {root : Str} (hr : root ∈ roots)
    {answers : Bool} {out : Map} (ok : loadLogical answers m root = .ok out) : Loaded m root out :=
  .of_ok h.rooted (h.unambiguous root hr) (h.segmented root hr) ok

/-- The entries visited are entries to be copied. -/
theorem Loaded.wanted {root : Str} {out : Map} (h : Loaded src root out) (hr : root ∈ roots)
    (o : Order) : ∀ e ∈ o.visit out.toList, Wanted src roots e.1 e.2 := by
  rintro ⟨k, v⟩ he
  have mem := (o.perm out.toList).mem_iff.mp he
  rw [Std.ExtTreeMap.mem_toList_iff_getElem?_eq_some, h.get] at mem
  exact ⟨⟨root, hr, mem.1⟩, mem.2⟩

theorem copyRoot_sound (hs : Readable src roots) {root : Str} (hr : root ∈ roots)
    (h : Sound src before roots c) : Sound src before roots (final (copyRoot env c root)) := by
  unfold copyRoot
  split
  · exact ⟨h.source, h.dst, h.batch⟩
  · next logical ok =>
    rw [h.source] at ok
    have wanted := (hs.loaded hr ok).wanted hr (env.order c.loads)
    apply final_bind
    · apply final_foldlM
      · intro s e he hs
        exact copyKey_sound (wanted e he) hs
      · exact ⟨h.source, h.dst, by simp⟩
    · intro s hs
      exact flush_sound hs

theorem copyPrefixes_sound (env : Env) (hs : Readable src roots) {dst : MetaKv}
    (h : Within src before roots dst) :
    Sound src before roots (final (copyPrefixes env src dst roots)) := by
  apply final_foldlM
  · intro s root hr h
    exact copyRoot_sound hs hr h
  · exact ⟨rfl, h, by simp⟩

/-! ## What a copy without failure leaves -/

/-- The entry is in the destination already or in the pending batch. -/
def Settled (c : Copying) (k v : Str) : Prop := c.batch[k]? = some v ∨ c.dst.load k = some v

theorem multiSave_settled (h : Sound src before roots c) {k v : Str} (hw : Wanted src roots k v)
    (settled : Settled c k v) : (c.dst.multiSave c.batch).load k = some v := by
  rw [multiSave_load]
  cases found : c.batch[k]? with
  | some w => rw [hw.unique (h.batch k w found), Option.some_or]
  | none =>
    cases settled with
    | inl hb => rw [hb] at found; cases found
    | inr hd => rw [hd, Option.none_or]

/-- A flush that succeeds leaves nothing pending. -/
structure Flushed (src : MetaKv) (roots : List Str) (c c' : Copying) : Prop where
  batch : c'.batch = ∅
  copied : c'.copied = c.copied
  saved : ∀ k v, Wanted src roots k v → Settled c k v → c'.dst.load k = some v

theorem flush_ok (h : Sound src before roots c) (ok : flush env c = .ok c') :
    Flushed src roots c c' := by
  unfold flush at ok
  split at ok
  · next hz =>
    cases ok
    have empty := Map.eq_empty_of_size hz
    refine ⟨empty, rfl, ?_⟩
    intro k v _ settled
    simpa [Settled, empty] using settled
  · dsimp only at ok
    split at ok
    · cases ok
      exact ⟨rfl, rfl, fun k v hw settled => multiSave_settled h hw settled⟩
    · cases ok
    · cases ok

theorem Sound.of_ok {x : Except (Failure × Copying) Copying}
    (h : Sound src before roots (final x)) (ok : x = .ok c) : Sound src before roots c := by
  subst ok
  exact h

/-- One entry is settled, and those settled before stay so. -/
theorem copyKey_ok (h : Sound src before roots c) {e : Str × Str}
    (hw : Wanted src roots e.1 e.2) (ok : copyKey env c e = .ok c') :
    c'.copied = c.copied + 1 ∧ Settled c' e.1 e.2 ∧
      ∀ k v, Wanted src roots k v → Settled c k v → Settled c' k v := by
  have inserted := h.insert hw
  have now : Settled { c with batch := c.batch.insert e.1 e.2 } e.1 e.2 := by
    left
    simp
  have stays : ∀ k v, Wanted src roots k v → Settled c k v →
      Settled { c with batch := c.batch.insert e.1 e.2 } k v := by
    intro k v hk settled
    by_cases same : e.1 = k
    · subst same
      rwa [← hw.unique hk]
    · simpa [Settled, Std.ExtTreeMap.getElem?_insert, same] using settled
  obtain ⟨s, hs, ok⟩ := bind_ok ok
  cases ok
  unfold flushFull at hs
  split at hs
  · have flushed := flush_ok inserted hs
    refine ⟨congrArg (· + 1) flushed.copied, .inr (flushed.saved _ _ hw now), ?_⟩
    intro k v hk settled
    exact .inr (flushed.saved k v hk (stays k v hk settled))
  · cases hs
    exact ⟨rfl, now, stays⟩

/-- The entries beneath `root` have all arrived. -/
def Arrived (src : MetaKv) (roots : List Str) (root : Str) (c : Copying) : Prop :=
  root ∈ roots → ∀ k v, Beneath root k → src.load k = some v → c.dst.load k = some v

theorem copyRoot_ok (hs : Readable src roots) (h : Sound src before roots c) {root : Str}
    (hr : root ∈ roots) (ok : copyRoot env c root = .ok c') :
    c'.copied = c.copied + (src.loadWithPrefix root).length ∧ Arrived src roots root c' ∧
      ∀ other, Arrived src roots other c → Arrived src roots other c' := by
  unfold copyRoot at ok
  split at ok
  · cases ok
  · next logical loads =>
    rw [h.source] at loads
    have loaded := hs.loaded hr loads
    have wanted := loaded.wanted hr (env.order c.loads)
    have started : Sound src before roots { c with batch := ∅, loads := c.loads + 1 } :=
      ⟨h.source, h.dst, by simp⟩
    obtain ⟨s, pass, ok⟩ := bind_ok ok
    have sound : Sound src before roots s :=
      .of_ok (final_foldlM (fun s e he => copyKey_sound (wanted e he)) started) pass
    have flushed := flush_ok sound ok
    -- The loop settles every entry it visits; the last flush saves what is left.
    have settled := foldlM_ok
      (fun e c => Wanted src roots e.1 e.2 → Settled c e.1 e.2) (fun s e he t hs ht => by
        obtain ⟨-, now, stays⟩ := copyKey_ok hs (wanted e he) ht
        exact ⟨.of_ok (copyKey_sound (wanted e he) hs) ht, fun _ => now,
          fun y hy hw => stays y.1 y.2 hw (hy hw)⟩) started pass
    have count := foldlM_count Copying.copied (fun _ => 1) (fun s e he t hs ht =>
      ⟨.of_ok (copyKey_sound (wanted e he) hs) ht, (copyKey_ok hs (wanted e he) ht).1⟩) started pass
    refine ⟨?_, ?_, ?_⟩
    · rw [flushed.copied, count, ← loaded.size, ← Std.ExtTreeMap.length_toList,
        ← ((env.order c.loads).perm logical.toList).length_eq]
      simp
    · intro _ k v hb hv
      have hw : Wanted src roots k v := ⟨⟨root, hr, hb⟩, hv⟩
      apply flushed.saved k v hw
      apply settled.1 (k, v) _ hw
      rw [((env.order c.loads).perm logical.toList).mem_iff,
        Std.ExtTreeMap.mem_toList_iff_getElem?_eq_some, loaded.get]
      exact ⟨hb, hv⟩
    · intro other arrived ho k v hb hv
      have hw : Wanted src roots k v := ⟨⟨other, ho, hb⟩, hv⟩
      apply flushed.saved k v hw
      exact settled.2 (k, v) (fun _ => .inr (arrived ho k v hb hv)) hw

theorem copyPrefixes_ok (hs : Readable src roots) {dst : MetaKv} (h : Within src before roots dst)
    (ok : copyPrefixes env src dst roots = .ok c) :
    c.copied = (roots.map fun root => (src.loadWithPrefix root).length).sum ∧
      ∀ k v, Wanted src roots k v → c.dst.load k = some v := by
  have step : ∀ s, ∀ root ∈ roots, ∀ t, Sound src before roots s → copyRoot env s root = .ok t →
      Sound src before roots t := by
    intro s root hr t hsound ht
    exact .of_ok (copyRoot_sound hs hr hsound) ht
  have started : Sound src before roots ⟨src, dst, ∅, 0, 0, []⟩ := ⟨rfl, h, by simp⟩
  constructor
  · have count := foldlM_count Copying.copied (fun root => (src.loadWithPrefix root).length)
      (fun s root hr t hsound ht =>
        ⟨step s root hr t hsound ht, (copyRoot_ok hs hsound hr ht).1⟩) started ok
    simpa using count
  · rintro k v ⟨⟨root, hr, hb⟩, hv⟩
    have arrived := foldlM_ok (Arrived src roots) (fun s root hr t hsound ht =>
      ⟨step s root hr t hsound ht, (copyRoot_ok hs hsound hr ht).2⟩) started ok
    exact arrived.1 root hr hr k v hb hv

end

end MilvusCatalog.Migration

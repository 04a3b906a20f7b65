import Mathlib.Data.List.Induction
import StationCatalog.Cache
import StationCatalog.Entity.Lemmas
import StationCatalog.Proofs.RangeWrites

/-!
The version cache as a typed map. Whatever is written and cleared, a key and an instant lead to the
version in the latest write under the key, since the cache was last cleared, whose ranges reach the
instant; asked for another kind, they lead to nothing.
-/

namespace StationCatalog

/-- A write to the version cache: under any key, versions of any kind, in a map as writes leave
it. -/
structure VersionWrite where
  key : VersionKey
  kind : Kind
  versions : RangeMap (Entity kind)
  wellFormed : versions.WellFormed

/-- The version that is written over an instant. -/
def VersionWrite.get? (w : VersionWrite) (t : Instant) : Option AnyEntity :=
  (w.versions.get? t).map (⟨w.kind, ·⟩)

inductive CacheEdit
  | put (w : VersionWrite)
  | clear

def CacheEdit.apply (c : VersionCache) : CacheEdit → VersionCache
  | put w => c.put w.key w.versions
  | clear => c.clear

/-- The writes under a key among edits, the latest first, back to where the cache was cleared. -/
def VersionKey.writes (key : VersionKey) : List CacheEdit → List VersionWrite
  | [] => []
  | .put w :: earlier => if w.key = key then w :: key.writes earlier else key.writes earlier
  | .clear :: _ => []

namespace CachedHistory

variable {k : Kind}

/-- What writes leave when the latest comes first. -/
def ofWrites (ws : List VersionWrite) : CachedHistory :=
  ws.foldr (fun w h => h.put w.versions) .empty

theorem ofWrites_cons (w : VersionWrite) (ws : List VersionWrite) :
    ofWrites (w :: ws) = (ofWrites ws).put w.versions := rfl

theorem put_of_isEmpty (h : CachedHistory) {versions : RangeMap (Entity k)}
    (empty : versions.isEmpty = true) : h.put versions = h := by
  rw [RangeMap.isEmpty, List.isEmpty_iff] at empty
  simp only [put, RangeMap.ranges, empty, List.map_nil, List.filterMap_nil, List.foldl_nil,
    RangeMap.putEntries]

theorem wellFormed_ofWrites (ws : List VersionWrite) : (ofWrites ws).versions.WellFormed := by
  induction ws with
  | nil => exact .empty
  | cons w ws ih => exact ih.putEntries _

/-- After a write, the instants it reaches have its versions, and the others what they had. -/
theorem get?_put {h : CachedHistory} (wellFormed : h.versions.WellFormed) (w : VersionWrite)
    (t : Instant) : (h.put w.versions).versions.get? t = (w.get? t).or (h.versions.get? t) := by
  have written := RangeMap.lastWrite_map (Sigma.mk (β := Entity) w.kind) w.versions.entries t
  rw [put, RangeMap.get?_putEntries wellFormed, written, RangeMap.lastWrite_entries w.wellFormed,
    VersionWrite.get?]

theorem get?_ofWrites (ws : List VersionWrite) (t : Instant) :
    (ofWrites ws).versions.get? t = ws.findSome? (·.get? t) := by
  induction ws with
  | nil => rfl
  | cons w ws ih =>
      rw [ofWrites_cons, get?_put (wellFormed_ofWrites ws), ih, List.findSome?_cons]
      cases w.get? t <;> rfl

end CachedHistory

namespace VersionCache

variable {k : Kind} {c : VersionCache} {key : VersionKey}

/-- What is held under a key, nothing if the key is not held. -/
def held (c : VersionCache) (key : VersionKey) : CachedHistory := (c.history? key).getD .empty

/-- The cache that edits leave, one after another. -/
def ofEdits (edits : List CacheEdit) : VersionCache := edits.foldl CacheEdit.apply .empty

theorem ofEdits_concat (edits : List CacheEdit) (edit : CacheEdit) :
    ofEdits (edits ++ [edit]) = edit.apply (ofEdits edits) := List.foldl_concat ..

theorem held_put (c : VersionCache) (key : VersionKey) (versions : RangeMap (Entity k)) :
    (c.put key versions).held key = (c.held key).put versions := by
  cases empty : versions.isEmpty with
  | true => rw [put, if_pos empty, CachedHistory.put_of_isEmpty _ empty]
  | false => rw [held, history?_put c key empty, Option.getD_some, held]

theorem hasKey_put (c : VersionCache) (key : VersionKey) (versions : RangeMap (Entity k)) :
    (c.put key versions).hasKey key = (!versions.isEmpty || c.hasKey key) := by
  cases empty : versions.isEmpty with
  | true => rw [put, if_pos empty, Bool.not_true, Bool.false_or]
  | false => rw [hasKey, history?_put c key empty, Option.isSome_some, Bool.not_false, Bool.true_or]

theorem held_ofEdits (edits : List CacheEdit) (key : VersionKey) :
    (ofEdits edits).held key = .ofWrites (key.writes edits.reverse) := by
  induction edits using List.reverseRecOn with
  | nil => rfl
  | append_singleton edits edit ih =>
      rw [ofEdits_concat, List.reverse_concat]
      cases edit with
      | clear => rfl
      | put w =>
          rw [CacheEdit.apply, VersionKey.writes]
          split
          next own => rw [← own, held_put, own, ih, CachedHistory.ofWrites_cons]
          next other => rw [held, history?_put_of_ne _ other, ← held, ih]

theorem hasKey_ofEdits (edits : List CacheEdit) (key : VersionKey) :
    (ofEdits edits).hasKey key = (key.writes edits.reverse).any (!·.versions.isEmpty) := by
  induction edits using List.reverseRecOn with
  | nil => rfl
  | append_singleton edits edit ih =>
      rw [ofEdits_concat, List.reverse_concat]
      cases edit with
      | clear => rfl
      | put w =>
          rw [CacheEdit.apply, VersionKey.writes]
          split
          next own => rw [← own, hasKey_put, own, ih, List.any_cons]
          next other => rw [hasKey, history?_put_of_ne _ other, ← hasKey, ih]

theorem find?_eq_held (c : VersionCache) (k : Kind) (key : VersionKey) (t : Instant) :
    c.find? k key t = ((c.held key).versions.get? t).bind (Entity.ofAny? k) := by
  unfold find? held
  cases c.history? key <;> rfl

/-- Reading one instant finds what the map of the kind has there. -/
theorem find?_eq_rangeMap? (wellFormed : (c.held key).versions.WellFormed) (k : Kind)
    (t : Instant) : c.find? k key t = (c.rangeMap? k key).bind (·.get? t) := by
  rw [find?_eq_held, ← RangeMap.get?_filterMap wellFormed]
  unfold held rangeMap?
  cases c.history? key <;> rfl

/-- However a cache is written and cleared, a key and an instant lead to the latest write that
reaches the instant, if it is of the kind asked for, read alone or from the map of all versions; a
key is held once something is written under it; and a write leaves every other key as it is. -/
theorem latest_write_read (edits : List CacheEdit) (key : VersionKey) (k : Kind) (t : Instant) :
    ((ofEdits edits).read k key t).1 =
      ((key.writes edits.reverse).findSome? (·.get? t)).bind (Entity.ofAny? k) ∧
    ((ofEdits edits).read k key t).1 = ((ofEdits edits).rangeMap? k key).bind (·.get? t) ∧
    ((ofEdits edits).hasKey key = true ↔
      ∃ w ∈ key.writes edits.reverse, w.versions.isEmpty = false) ∧
    ∀ w : VersionWrite, w.key ≠ key →
      (ofEdits (edits ++ [.put w])).history? key = (ofEdits edits).history? key := by
  have found : ((ofEdits edits).read k key t).1 = (ofEdits edits).find? k key t := rfl
  have held := held_ofEdits edits key
  refine ⟨?_, ?_, ?_, fun w other => ?_⟩
  · rw [found, find?_eq_held, held, CachedHistory.get?_ofWrites]
  · rw [found, find?_eq_rangeMap? (held ▸ CachedHistory.wellFormed_ofWrites _)]
  · simp only [hasKey_ofEdits, List.any_eq_true, Bool.not_eq_true']
  · rw [ofEdits_concat, CacheEdit.apply, history?_put_of_ne _ other]

/-- Two keys may share a text; they are different keys all the same. -/
example : (⟨.channel, "GroupA"⟩ : VersionKey).text = (⟨.channelGroup, "A"⟩ : VersionKey).text ∧
    (⟨.channel, "GroupA"⟩ : VersionKey) ≠ ⟨.channelGroup, "A"⟩ := by decide

end VersionCache

end StationCatalog

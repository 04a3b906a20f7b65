import StationCatalog.Cache
import StationCatalog.Entity.Lemmas
import StationCatalog.Proofs.Ascending
import StationCatalog.Proofs.RangeMaps

/-!
The invariant of the version cache. Every cached range map is drawn from a source of versions: its
ranges are non-empty, ascending and disjoint, and each of them lies within the validity of a version
of the source, of which it holds the form without data for its children.
-/

namespace StationCatalog

variable {k : Kind}

/-- An entity that is neither a version nor a reference to one. -/
def Entity.isReference : Entity k → Bool
  | .reference _ => true
  | .versionReference .. | .populated .. => false

/-- The children, and the owning station, are mere references. -/
def EntityData.IsBare : {k : Kind} → EntityData k → Prop
  | _, stationGroup _ stations => ∀ e ∈ stations, e.isReference = true
  | _, station _ _ _ groups channels =>
    (∀ e ∈ groups, e.isReference = true) ∧ ∀ e ∈ channels, e.isReference = true
  | _, channelGroup _ _ _ owner channels =>
    owner.isReference = true ∧ ∀ e ∈ channels, e.isReference = true
  | _, channel _ owner _ _ instrument =>
    owner.isReference = true ∧ ∀ e ∈ instrument, e.isReference = true
  | _, response .. => True

theorem Entity.isReference_of_mem_map {e : Entity k} {es : List (Entity k)}
    (h : e ∈ es.map toReference) : e.isReference = true := by
  obtain ⟨x, -, rfl⟩ := List.mem_map.1 h
  rfl

theorem EntityData.isBare_demote (data : EntityData k) : data.demote.IsBare := by
  cases data with
  | stationGroup => exact fun _ => Entity.isReference_of_mem_map
  | station =>
      exact ⟨fun _ => Entity.isReference_of_mem_map, fun _ => Entity.isReference_of_mem_map⟩
  | channelGroup => exact ⟨rfl, fun _ => Entity.isReference_of_mem_map⟩
  | channel _ _ _ _ instrument =>
      refine ⟨rfl, ?_⟩
      intro e he
      obtain ⟨x, -, rfl⟩ := Option.map_eq_some_iff.1 he
      rfl
  | response => trivial

theorem Entity.demote_demote (e : Entity k) : e.demote.demote = e.demote := by
  have twice : ∀ {j : Kind} (es : List (Entity j)),
      (es.map toReference).map toReference = es.map toReference := by
    intro j es
    rw [List.map_map]
    rfl
  match e with
  | .reference _ | .versionReference .. => rfl
  | .populated _ _ (.stationGroup ..) | .populated _ _ (.station ..) =>
      simp only [demote, EntityData.demote, twice]
  | .populated _ _ (.channelGroup ..) =>
      simp only [demote, EntityData.demote, twice]
      rfl
  | .populated _ _ (.channel _ _ _ _ instrument) => cases instrument <;> rfl
  | .populated _ _ (.response ..) => rfl

theorem Entity.version_demote (e : Entity k) : e.demote.version = e.version := by
  cases e <;> rfl

/-- Where cached versions may come from. -/
abbrev Versions := (k : Kind) → Entity k → Prop

/-- An entry holds a version of the source, cut down, within the validity of that version, and its
range has such ends as a validity has. -/
def DrawnEntry (S : Versions) (key : VersionKey) (f : TimeRange × AnyEntity) : Prop :=
  ∃ (id : EntityId key.kind) (validity : Validity) (data : EntityData key.kind),
    id.text = key.id ∧ S key.kind (.populated id validity data) ∧
      f.2 = ⟨key.kind, (Entity.populated id validity data).demote⟩ ∧
      validity.range.Encloses f.1 ∧ f.1.IsClosedOpen

structure CachedHistory.DrawnFrom (S : Versions) (key : VersionKey) (h : CachedHistory) : Prop where
  held : h.versions.entries ≠ []
  wellFormed : h.versions.WellFormed
  drawn : ∀ f ∈ h.versions.entries, DrawnEntry S key f

structure VersionCache.DrawnFrom (S : Versions) (c : VersionCache) : Prop where
  keys : (c.entries.map (·.1)).Nodup
  histories : ∀ e ∈ c.entries, e.2.DrawnFrom S e.1

theorem Validity.isClosedOpen_range (v : Validity) : v.range.IsClosedOpen := by
  obtain ⟨start, stop⟩ := v
  have below : ∀ s t : Instant, Cut.below s ≠ .above t := fun _ _ h => Cut.noConfusion h
  cases stop with
  | none => exact TimeRange.isClosedOpen_between (below start) fun _ h => Cut.noConfusion h
  | some stop => exact TimeRange.isClosedOpen_between (below start) (below stop)

theorem DrawnEntry.clips (S : Versions) (key : VersionKey) : RangeMap.Clips (DrawnEntry S key) := by
  rintro e f p ⟨id, validity, data, hid, source, hval, within, ends⟩ ⟨-, -, -, -, -, -, -, ends'⟩ hp
  exact ⟨id, validity, data, hid, source, hval, within.trans (TimeRange.encloses_of_mem_minus hp),
    ends.of_mem_minus ends' hp⟩

variable {S : Versions}

theorem VersionCache.DrawnFrom.mono {c : VersionCache} (h : c.DrawnFrom S) {T : Versions}
    (hST : ∀ k e, S k e → T k e) : c.DrawnFrom T where
  keys := h.keys
  histories := by
    intro e he
    obtain ⟨held, wellFormed, drawn⟩ := h.histories e he
    refine ⟨held, wellFormed, ?_⟩
    intro f hf
    obtain ⟨id, validity, data, hid, source, rest⟩ := drawn f hf
    exact ⟨id, validity, data, hid, hST _ _ source, rest⟩

theorem CachedHistory.put_drawn {h : CachedHistory} {key : VersionKey}
    {versions : RangeMap (Entity k)} (hw : h.versions.WellFormed)
    (hd : ∀ f ∈ h.versions.entries, DrawnEntry S key f) (hne : versions.isEmpty = false)
    (hv : versions.WellFormed) (hvd : ∀ f ∈ versions.entries, DrawnEntry S key (f.1, ⟨k, f.2⟩)) :
    (h.put versions).DrawnFrom S key where
  held := by
    apply RangeMap.putEntries_ne_nil_of_nonempty
    · intro hnil
      rw [List.map_eq_nil_iff] at hnil
      rw [RangeMap.isEmpty, hnil] at hne
      cases hne
    · intro f hf
      obtain ⟨g, hg, rfl⟩ := List.mem_map.1 hf
      exact hv.nonempty g hg
  wellFormed := hw.putEntries _
  drawn := by
    apply RangeMap.putEntries_forall (DrawnEntry.clips S key) hd
    intro f hf
    obtain ⟨g, hg, rfl⟩ := List.mem_map.1 hf
    exact hvd g hg

namespace VersionCache

theorem mem_alter {key : VersionKey} {f : CachedHistory → CachedHistory}
    {es : List (VersionKey × CachedHistory)} {x : VersionKey × CachedHistory}
    (h : x ∈ alter key f es) :
    x ∈ es ∨ x = (key, f .empty) ∨ ∃ e ∈ es, e.1 = key ∧ x = (key, f e.2) := by
  induction es with
  | nil => exact .inr (.inl (List.mem_singleton.1 h))
  | cons e rest ih =>
      simp only [alter] at h
      split at h
      next hkey =>
        rcases List.mem_cons.1 h with rfl | h
        · exact .inr (.inr ⟨e, List.mem_cons_self, hkey, rfl⟩)
        · exact .inl (List.mem_cons_of_mem e h)
      next =>
        rcases List.mem_cons.1 h with rfl | h
        · exact .inl List.mem_cons_self
        · rcases ih h with h | h | ⟨g, hg, h⟩
          · exact .inl (List.mem_cons_of_mem e h)
          · exact .inr (.inl h)
          · exact .inr (.inr ⟨g, List.mem_cons_of_mem e hg, h⟩)

theorem mem_keys_alter {key key' : VersionKey} {f : CachedHistory → CachedHistory}
    {es : List (VersionKey × CachedHistory)} :
    key' ∈ (alter key f es).map (·.1) ↔ key' = key ∨ key' ∈ es.map (·.1) := by
  induction es with
  | nil => exact List.mem_cons
  | cons e rest ih =>
      simp only [alter]
      split
      next h =>
        simp only [List.map_cons, List.mem_cons, h]
        exact ⟨.inr, fun hk => hk.elim .inl id⟩
      next =>
        simp only [List.map_cons, List.mem_cons, ih]
        exact or_left_comm

theorem nodup_keys_alter {key : VersionKey} {f : CachedHistory → CachedHistory}
    {es : List (VersionKey × CachedHistory)} (h : (es.map (·.1)).Nodup) :
    ((alter key f es).map (·.1)).Nodup := by
  induction es with
  | nil => exact List.pairwise_singleton _ key
  | cons e rest ih =>
      obtain ⟨hnew, hrest⟩ := List.nodup_cons.1 h
      simp only [alter]
      split
      next hkey => exact List.nodup_cons.2 ⟨hkey ▸ hnew, hrest⟩
      next hkey =>
        refine List.nodup_cons.2 ⟨?_, ih hrest⟩
        rw [mem_keys_alter]
        exact fun hmem => hmem.elim hkey hnew

theorem DrawnFrom.of_empty {c : VersionCache} (empty : c.entries = []) : c.DrawnFrom S where
  keys := by
    rw [empty]
    exact .nil
  histories := by
    rw [empty]
    exact fun _ h => absurd h List.not_mem_nil

theorem DrawnFrom.empty : VersionCache.empty.DrawnFrom S := .of_empty rfl

theorem DrawnFrom.cleared (c : VersionCache) : c.clear.DrawnFrom S := .of_empty rfl

theorem DrawnFrom.put {c : VersionCache} (h : c.DrawnFrom S) {key : VersionKey}
    {versions : RangeMap (Entity k)} (hv : versions.WellFormed)
    (hvd : ∀ f ∈ versions.entries, DrawnEntry S key (f.1, ⟨k, f.2⟩)) :
    (c.put key versions).DrawnFrom S := by
  unfold VersionCache.put
  split
  · exact h
  next hne =>
    rw [Bool.not_eq_true] at hne
    refine ⟨nodup_keys_alter h.keys, ?_⟩
    intro x hx
    rcases mem_alter hx with hx | rfl | ⟨e, he, rfl, rfl⟩
    · exact h.histories x hx
    · exact CachedHistory.put_drawn .empty (fun _ hf => absurd hf List.not_mem_nil) hne hv hvd
    · have old := h.histories e he
      exact CachedHistory.put_drawn old.wellFormed old.drawn hne hv hvd

theorem cacheable?_eq_some {window : TimeRange} {e : Entity k} {f : TimeRange × Entity k}
    (h : cacheable? window e = some f) :
    ∃ id validity data, e = .populated id validity data ∧
      f = (validity.range, (Entity.populated id validity data).demote) := by
  cases e with
  | reference => cases h
  | versionReference => cases h
  | populated id validity data =>
      simp only [cacheable?] at h
      split at h
      · exact ⟨id, validity, data, rfl, (Option.some.inj h).symm⟩
      · cases h

theorem DrawnFrom.foldl_put {kept : List (TimeRange × Entity k)}
    (hkept : ∀ f ∈ kept, DrawnEntry S (.ofId f.2.id) (f.1, ⟨k, f.2⟩)) (ids : List (EntityId k))
    {c : VersionCache} (h : c.DrawnFrom S) :
    (ids.foldl (fun c id => c.put (.ofId id) (.ofList (kept.filter (·.2.id = id)))) c).DrawnFrom
      S := by
  induction ids generalizing c with
  | nil => exact h
  | cons id ids ih =>
      have clips : RangeMap.Clips fun f : TimeRange × Entity k =>
          DrawnEntry S (.ofId id) (f.1, ⟨k, f.2⟩) :=
        fun e f => DrawnEntry.clips S (.ofId id) (e.1, ⟨k, e.2⟩) (f.1, ⟨k, f.2⟩)
      refine ih (h.put (.ofList _) (RangeMap.ofList_forall clips ?_))
      intro f hf
      obtain ⟨hf, hid⟩ := List.mem_filter.1 hf
      have same : f.2.id = id := of_decide_eq_true hid
      rw [← same]
      exact hkept f hf

/-- Caching populated versions of the source keeps a cache drawn from it. -/
theorem DrawnFrom.keep {c : VersionCache} (h : c.DrawnFrom S) (window : TimeRange)
    {es : List (Entity k)} (hes : ∀ e ∈ es, e.isPopulated = true → S k e) :
    (c.keep window es).DrawnFrom S := by
  refine foldl_put ?_ _ h
  intro f hf
  obtain ⟨e, he, hkept⟩ := List.mem_filterMap.1 hf
  obtain ⟨id, validity, data, rfl, rfl⟩ := cacheable?_eq_some hkept
  exact ⟨id, validity, data, rfl, hes _ he rfl, rfl, .refl _, validity.isClosedOpen_range⟩

/-- Caching entities leaves what is cached of others. -/
theorem history?_keep_of_forall_ne (c : VersionCache) (window : TimeRange) {es : List (Entity k)}
    {key : VersionKey} (h : ∀ e ∈ es, .ofId e.id ≠ key) :
    (c.keep window es).history? key = c.history? key := by
  have spared : ∀ (ids : List (EntityId k)) (f : EntityId k → RangeMap (Entity k))
      (c : VersionCache), (∀ id ∈ ids, .ofId id ≠ key) →
      (ids.foldl (fun c id => c.put (.ofId id) (f id)) c).history? key = c.history? key := by
    intro ids f
    induction ids with
    | nil => exact fun _ _ => rfl
    | cons id ids ih =>
        intro c other
        obtain ⟨hid, hrest⟩ := List.forall_mem_cons.1 other
        exact (ih _ hrest).trans (history?_put_of_ne c hid (f id))
  refine spared _ _ c ?_
  intro id hid
  obtain ⟨f, hf, rfl⟩ := List.mem_map.1 (EntityId.mem_distinct.1 hid)
  obtain ⟨e, he, hkept⟩ := List.mem_filterMap.1 hf
  obtain ⟨id, validity, data, rfl, rfl⟩ := cacheable?_eq_some hkept
  exact h (.populated id validity data) he

/-- Caching entities of one kind leaves what is cached of another. -/
theorem history?_keep_of_ne (c : VersionCache) (window : TimeRange) (es : List (Entity k))
    {key : VersionKey} (h : key.kind ≠ k) : (c.keep window es).history? key = c.history? key := by
  apply history?_keep_of_forall_ne
  rintro e - rfl
  exact h rfl

/-- What is cached at an instant does not depend on how lookups of it fared. -/
theorem find?_congr {c c' : VersionCache} (h : c'.entries = c.entries)
    (key : VersionKey) (t : Instant) : c'.find? k key t = c.find? k key t := by
  simp only [find?, history?, h]

theorem mem_of_history?_eq_some {c : VersionCache} {key : VersionKey} {h : CachedHistory}
    (hc : c.history? key = some h) : (key, h) ∈ c.entries := by
  obtain ⟨e, he, rfl⟩ := Option.map_eq_some_iff.1 hc
  have hkey : e.1 = key := by simpa only [decide_eq_true_eq] using List.find?_some he
  rw [← hkey]
  exact List.mem_of_find?_eq_some he

theorem DrawnFrom.entry {c : VersionCache} (h : c.DrawnFrom S) {id : EntityId k}
    {history : CachedHistory} (hc : c.history? (.ofId id) = some history)
    {f : TimeRange × AnyEntity} (hf : f ∈ history.versions.entries) :
    ∃ validity data, S k (.populated id validity data) ∧
      f.2 = ⟨k, (Entity.populated id validity data).demote⟩ ∧ validity.range.Encloses f.1 := by
  obtain ⟨i, validity, data, hid, source, hval, within, -⟩ :=
    (h.histories _ (mem_of_history?_eq_some hc)).drawn f hf
  have same : i = id := EntityId.ext hid
  exact ⟨validity, data, same ▸ source, same ▸ hval, within⟩

/-- What the cache answers for an instant is a version of the source that is valid there. -/
theorem DrawnFrom.find? {c : VersionCache} (h : c.DrawnFrom S) {id : EntityId k} {t : Instant}
    {e : Entity k} (hc : c.find? k (.ofId id) t = some e) :
    ∃ validity data, S k (.populated id validity data) ∧
      e = (Entity.populated id validity data).demote ∧ validity.range.contains t = true := by
  obtain ⟨any, hany, hk⟩ := Option.bind_eq_some_iff.1 hc
  obtain ⟨history, hhist, hget⟩ := Option.bind_eq_some_iff.1 hany
  obtain ⟨f, hf, rfl⟩ := Option.map_eq_some_iff.1 hget
  rw [RangeMap.entryAt?] at hf
  have inside : f.1.contains t = true := by simpa only using List.find?_some hf
  obtain ⟨validity, data, source, hval, within⟩ := h.entry hhist (List.mem_of_find?_eq_some hf)
  rw [hval, Entity.ofAny?_mk] at hk
  exact ⟨validity, data, source, (Option.some.inj hk).symm, within.contains inside⟩

/-- The ranges cached of an entity lie within versions of the source, and are not empty. -/
theorem DrawnFrom.rangeMap? {c : VersionCache} (h : c.DrawnFrom S) {id : EntityId k}
    {m : RangeMap (Entity k)} (hc : c.rangeMap? k (.ofId id) = some m)
    {f : TimeRange × Entity k} (hf : f ∈ m.entries) :
    f.1.isEmpty = false ∧ ∃ validity data, S k (.populated id validity data) ∧
      f.2 = (Entity.populated id validity data).demote ∧ validity.range.Encloses f.1 := by
  obtain ⟨history, hhist, rfl⟩ := Option.map_eq_some_iff.1 hc
  obtain ⟨g, hg, hfg⟩ := List.mem_filterMap.1 hf
  have nonempty := (h.histories _ (mem_of_history?_eq_some hhist)).wellFormed.nonempty g hg
  obtain ⟨validity, data, source, hval, within⟩ := h.entry hhist hg
  rw [hval, Entity.ofAny?_mk] at hfg
  obtain rfl := Option.some.inj hfg
  exact ⟨nonempty, validity, data, source, rfl, within⟩

/-- Every cached entry satisfies `Q`, which may depend on its key. -/
def Each (Q : VersionKey → TimeRange × AnyEntity → Prop) (c : VersionCache) : Prop :=
  ∀ e ∈ c.entries, ∀ f ∈ e.2.versions.entries, Q e.1 f

section

variable {Q : VersionKey → TimeRange × AnyEntity → Prop} {c : VersionCache}

theorem Each.put (h : c.Each Q) {key : VersionKey} (clips : RangeMap.Clips (Q key))
    {versions : RangeMap (Entity k)} (hv : ∀ f ∈ versions.entries, Q key (f.1, ⟨k, f.2⟩)) :
    (c.put key versions).Each Q := by
  have written : ∀ history : CachedHistory, (∀ f ∈ history.versions.entries, Q key f) →
      ∀ f ∈ (history.put versions).versions.entries, Q key f := by
    intro history old
    apply RangeMap.putEntries_forall clips old
    intro f hf
    obtain ⟨g, hg, rfl⟩ := List.mem_map.1 hf
    exact hv g hg
  unfold VersionCache.put
  split
  · exact h
  · intro x hx
    rcases mem_alter hx with hx | rfl | ⟨e, he, rfl, rfl⟩
    · exact h x hx
    · exact written .empty fun _ hf => absurd hf List.not_mem_nil
    · exact written e.2 (h e he)

/-- Caching entities that satisfy `Q`, which clipping leaves true, keeps a cache that does. -/
theorem Each.keep (h : c.Each Q) (clips : ∀ id : EntityId k, RangeMap.Clips (Q (.ofId id)))
    (window : TimeRange) {es : List (Entity k)}
    (hes : ∀ e ∈ es, ∀ f, cacheable? window e = some f → Q (.ofId f.2.id) (f.1, ⟨k, f.2⟩)) :
    (c.keep window es).Each Q := by
  have kept : ∀ f ∈ es.filterMap (cacheable? window), Q (.ofId f.2.id) (f.1, ⟨k, f.2⟩) := by
    intro f hf
    obtain ⟨e, he, hkept⟩ := List.mem_filterMap.1 hf
    exact hes e he f hkept
  have written : ∀ (ids : List (EntityId k)) (c : VersionCache), c.Each Q →
      (ids.foldl (fun c id => c.put (.ofId id)
        (.ofList ((es.filterMap (cacheable? window)).filter (·.2.id = id)))) c).Each Q := by
    intro ids
    induction ids with
    | nil => exact fun _ h => h
    | cons id ids ih =>
        intro c h
        have own : RangeMap.Clips fun f : TimeRange × Entity k => Q (.ofId id) (f.1, ⟨k, f.2⟩) :=
          fun e f => clips id (e.1, ⟨k, e.2⟩) (f.1, ⟨k, f.2⟩)
        apply ih
        apply h.put (clips id)
        apply RangeMap.ofList_forall own
        intro f hf
        obtain ⟨hf, hid⟩ := List.mem_filter.1 hf
        have same : f.2.id = id := of_decide_eq_true hid
        exact same ▸ kept f hf
  exact written _ c h

end

/-- Every cached version satisfies `Q`. -/
def All (Q : AnyEntity → Prop) (c : VersionCache) : Prop :=
  ∀ e ∈ c.entries, ∀ f ∈ e.2.versions.entries, Q f.2

section

variable {Q : AnyEntity → Prop} {c : VersionCache}

theorem All.keep (h : c.All Q) (window : TimeRange) {es : List (Entity k)}
    (hes : ∀ e ∈ es, Q ⟨k, e.demote⟩) : (c.keep window es).All Q := by
  have each : c.Each fun _ f => Q f.2 := h
  apply each.keep (fun _ _ _ _ he _ _ => he) window
  intro e he f hkept
  obtain ⟨id, validity, data, rfl, rfl⟩ := cacheable?_eq_some hkept
  exact hes _ he

theorem All.find? (h : c.All Q) {key : VersionKey} {t : Instant} {e : Entity k}
    (hc : c.find? k key t = some e) : Q ⟨k, e⟩ := by
  obtain ⟨any, hany, hk⟩ := Option.bind_eq_some_iff.1 hc
  obtain ⟨history, hhist, hget⟩ := Option.bind_eq_some_iff.1 hany
  obtain ⟨f, hf, rfl⟩ := Option.map_eq_some_iff.1 hget
  rw [← Entity.eq_of_ofAny?_eq_some hk]
  exact h _ (mem_of_history?_eq_some hhist) f (List.mem_of_find?_eq_some hf)

theorem All.rangeMap? (h : c.All Q) {key : VersionKey} {m : RangeMap (Entity k)}
    (hc : c.rangeMap? k key = some m) {f : TimeRange × Entity k} (hf : f ∈ m.entries) :
    Q ⟨k, f.2⟩ := by
  obtain ⟨history, hhist, rfl⟩ := Option.map_eq_some_iff.1 hc
  obtain ⟨g, hg, hfg⟩ := List.mem_filterMap.1 hf
  obtain ⟨e, he, rfl⟩ := Option.map_eq_some_iff.1 hfg
  rw [← Entity.eq_of_ofAny?_eq_some he]
  exact h _ (mem_of_history?_eq_some hhist) g hg

end

end VersionCache

end StationCatalog

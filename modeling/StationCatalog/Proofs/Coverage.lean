import StationCatalog.Proofs.CachedVersions
import StationCatalog.Proofs.Ends
import StationCatalog.Proofs.RangeWrites

/-!
What the version cache covers. An entity is held at an instant when a range cached of it contains
the instant. Writes add to what is held and take nothing away, so a lookup over a range leaves every
stored version of the wanted entities held at each instant of the range that lies in the window.
-/

namespace StationCatalog

variable {k : Kind} {t : Instant}

theorem TimeRange.touches_of_contains {r s : TimeRange} (hr : r.contains t = true)
    (hs : s.contains t = true) : r.touches s = true := by
  obtain ⟨lower, upper⟩ := contains_iff.1 hr
  obtain ⟨lower', upper'⟩ := contains_iff.1 hs
  simp only [touches, Bool.and_eq_true, decide_eq_true_eq]
  simp only [Cut.le_def, Cut.position_below, Cut.position_above] at *
  omega

namespace RangeMap

variable {α : Type} {m : RangeMap α}

/-- Some range of the map contains the instant. -/
def Covers (m : RangeMap α) (t : Instant) : Prop := ∃ e ∈ m.entries, e.1.contains t = true

theorem not_covers_empty : ¬(empty : RangeMap α).Covers t :=
  fun ⟨_, he, _⟩ => absurd he List.not_mem_nil

theorem covers_iff_holds : m.Covers t ↔ ∃ v, m.Holds (.below t) v := by
  simp only [Covers, Holds, TimeRange.contains_iff_covers]
  constructor
  · rintro ⟨e, he, inside⟩
    exact ⟨e.2, e.1, he, inside⟩
  · rintro ⟨v, r, he, inside⟩
    exact ⟨(r, v), he, inside⟩

theorem covers_put {r : TimeRange} {v : α} :
    (m.put r v).Covers t ↔ r.contains t = true ∨ m.Covers t := by
  simp only [covers_iff_holds, holds_put, TimeRange.contains_iff_covers]
  constructor
  · rintro ⟨x, ⟨written, -⟩ | ⟨-, held⟩⟩
    · exact .inl written
    · exact .inr ⟨x, held⟩
  · intro either
    by_cases written : r.Covers (.below t)
    · exact ⟨v, .inl ⟨written, rfl⟩⟩
    · obtain ⟨x, held⟩ := either.resolve_left written
      exact ⟨x, .inr ⟨written, held⟩⟩

theorem covers_putEntries {es : List (TimeRange × α)} :
    (m.putEntries es).Covers t ↔ (∃ e ∈ es, e.1.contains t = true) ∨ m.Covers t := by
  induction es generalizing m with
  | nil => exact (or_iff_right fun ⟨_, he, _⟩ => absurd he List.not_mem_nil).symm
  | cons e es ih =>
      rw [List.exists_mem_cons_iff, or_assoc, or_left_comm]
      exact ih.trans (or_congr_right covers_put)

theorem covers_ofList {es : List (TimeRange × α)} :
    (ofList es).Covers t ↔ ∃ e ∈ es, e.1.contains t = true :=
  covers_putEntries.trans (or_iff_left not_covers_empty)

end RangeMap

namespace VersionCache

variable {c : VersionCache} {key : VersionKey}

/-- A range cached under the key contains the instant. -/
def HeldAt (c : VersionCache) (key : VersionKey) (t : Instant) : Prop :=
  ∃ h, c.history? key = some h ∧ h.versions.Covers t

theorem heldAt_put {key' : VersionKey} {versions : RangeMap (Entity k)} :
    (c.put key' versions).HeldAt key t ↔
      c.HeldAt key t ∨ key' = key ∧ versions.Covers t := by
  have covers_history : ∀ h : CachedHistory,
      (h.put versions).versions.Covers t ↔ versions.Covers t ∨ h.versions.Covers t := by
    intro h
    refine RangeMap.covers_putEntries.trans (or_congr_left ?_)
    simp only [List.mem_map, exists_exists_and_eq_and]
    exact Iff.rfl
  cases hne : versions.isEmpty with
  | true =>
      have uncovering : ¬versions.Covers t := by
        rintro ⟨e, he, -⟩
        exact absurd (List.isEmpty_iff.1 hne ▸ he) List.not_mem_nil
      simp only [put, hne, if_true]
      exact (or_iff_left fun h => uncovering h.2).symm
  | false =>
      by_cases same : key' = key
      · subst same
        simp only [HeldAt, history?_put c key' hne, Option.some.injEq, exists_eq_left',
          covers_history, true_and]
        cases c.history? key' with
        | none =>
            simp only [Option.getD_none, reduceCtorEq, false_and, exists_false, false_or]
            exact or_iff_left RangeMap.not_covers_empty
        | some h =>
            simp only [Option.getD_some, Option.some.injEq, exists_eq_left']
            exact or_comm
      · simp only [HeldAt, history?_put_of_ne c same, same, false_and, or_false]

theorem heldAt_foldl_put {f : EntityId k → RangeMap (Entity k)} {ids : List (EntityId k)} :
    (ids.foldl (fun c id => c.put (.ofId id) (f id)) c).HeldAt key t ↔
      c.HeldAt key t ∨ ∃ id ∈ ids, .ofId id = key ∧ (f id).Covers t := by
  induction ids generalizing c with
  | nil => exact (or_iff_left fun ⟨_, h, _⟩ => absurd h List.not_mem_nil).symm
  | cons id ids ih =>
      rw [List.exists_mem_cons_iff, ← or_assoc]
      exact ih.trans (or_congr_left heldAt_put)

/-- What is held stays held when more is cached. -/
theorem HeldAt.keep (h : c.HeldAt key t) (window : TimeRange) (es : List (Entity k)) :
    (c.keep window es).HeldAt key t := heldAt_foldl_put.2 (.inl h)

/-- A version that is cached is held at the instants of the window at which it holds. -/
theorem heldAt_keep {window : TimeRange} {es : List (Entity k)} {v : Entity k} (hv : v ∈ es)
    (populated : v.isPopulated = true) (inside : window.contains t = true)
    (holds : v.holdsAt t = true) : (c.keep window es).HeldAt (.ofId v.id) t := by
  cases v with
  | reference | versionReference => cases populated
  | populated id validity data =>
      rw [Entity.holdsAt_populated] at holds
      have cached : cacheable? window (.populated id validity data) =
          some (validity.range, (Entity.populated id validity data).demote) :=
        if_pos (TimeRange.touches_of_contains inside holds)
      have kept := List.mem_filterMap.2 ⟨_, hv, cached⟩
      refine heldAt_foldl_put.2 (.inr ⟨id, EntityId.mem_distinct.2 ?_, rfl, ?_⟩)
      · exact List.mem_map.2 ⟨_, kept, rfl⟩
      · exact RangeMap.covers_ofList.2 ⟨_, List.mem_filter.2 ⟨kept, decide_eq_true rfl⟩, holds⟩

variable {S : Versions} {id : EntityId k}

/-- In a drawn cache what is held is found. -/
theorem DrawnFrom.exists_find? (h : c.DrawnFrom S) (held : c.HeldAt (.ofId id) t) :
    ∃ e, c.find? k (.ofId id) t = some e := by
  obtain ⟨history, hhist, e, he, inside⟩ := held
  have hit : (history.versions.entries.find? (·.1.contains t)).isSome = true :=
    List.find?_isSome.2 ⟨e, he, inside⟩
  obtain ⟨f, hf⟩ := Option.isSome_iff_exists.1 hit
  obtain ⟨validity, data, -, hval, -⟩ := h.entry hhist (List.mem_of_find?_eq_some hf)
  refine ⟨(Entity.populated id validity data).demote, ?_⟩
  rw [VersionCache.find?, hhist, Option.bind_some, RangeMap.get?, RangeMap.entryAt?, hf,
    Option.map_some, hval, Option.bind_some, Entity.ofAny?_mk]

end VersionCache

namespace Stack

variable {S : Versions} {s : Stack} {id : EntityId k}

/-- In a drawn cache an entity is held at the instants of its cached versions. -/
theorem exists_cached_iff (h : s.versionCache.DrawnFrom S) :
    (∃ f ∈ s.cachedVersions id, f.1.contains t = true) ↔
      s.versionCache.HeldAt (.ofId id) t := by
  unfold cachedVersions VersionCache.HeldAt VersionCache.rangeMap?
  cases hhist : s.versionCache.history? (.ofId id) with
  | none =>
      refine iff_of_false ?_ ?_
      · rintro ⟨f, hf, -⟩
        exact absurd hf List.not_mem_nil
      · rintro ⟨_, ⟨⟩, -⟩
  | some history =>
      simp only [Option.map_some, List.mem_reverse, Option.some.injEq, exists_eq_left']
      constructor
      · rintro ⟨f, hf, inside⟩
        obtain ⟨g, hg, hfg⟩ := List.mem_filterMap.1 hf
        obtain ⟨e, -, rfl⟩ := Option.map_eq_some_iff.1 hfg
        exact ⟨g, hg, inside⟩
      · rintro ⟨g, hg, inside⟩
        obtain ⟨validity, data, -, hval, -⟩ := h.entry hhist hg
        refine ⟨(g.1, (Entity.populated id validity data).demote), ?_, inside⟩
        refine List.mem_filterMap.2 ⟨g, hg, ?_⟩
        rw [hval, Entity.ofAny?_mk]
        rfl

/-- A stack with this window in which an entity is held at an instant. -/
def Holds (w : TimeRange) (key : VersionKey) (t : Instant) (s : Stack) : Prop :=
  s.window = w ∧ s.versionCache.HeldAt key t

/-- Steps that keep the window and let go of nothing that is held. -/
def Retains (s s' : Stack) : Prop :=
  s'.window = s.window ∧ ∀ key t, s.versionCache.HeldAt key t → s'.versionCache.HeldAt key t

theorem retains_of_effect (k : Kind) (s s' : Stack) (h : Effect k s s') : s.Retains s' := by
  refine ⟨h.window_eq, fun key t held => ?_⟩
  cases h with
  | call | read => exact held
  | keep es stored working => exact (held.keep s.window es).keep s.window _

end Stack

open Lookup

namespace Cached

variable {w : TimeRange} {key : VersionKey}

/-- Once an entity is held, no lookup lets go of it. -/
theorem ends_holds {α : Type} {x : Lookup α} (hx : Traced Stack.Retains w x) :
    Ends (Stack.Holds w key t) x (fun _ => Stack.Holds w key t) fun _ => True := by
  refine .of_traced hx (fun _ hs => hs.1) ?_
  rintro s s' ⟨window, retained⟩ ⟨hs, held⟩
  exact ⟨window.trans hs, retained key t held⟩

/-- What lookups of a kind keep, a lookup that only does what they do keeps. -/
theorem ends_kept {α : Type} {r : Repository} {P : Stack → Prop} {x : Lookup α}
    (hP : Stack.Served r w k P) (hx : Traced (Stack.Effect k) w x) :
    Ends P x (fun _ => P) fun _ => True :=
  .of_traced hx (fun s hs => (hP.serving s hs).window) fun s s' step hs => hP.effect s s' hs step

section

variable {r : Repository} {P : Stack → Prop} {v : Entity k} {start stop : Instant}
  (hP : Stack.Grounded r w k P) (hv : v ∈ r.versions k) (populated : v.isPopulated = true)
  (holds : v.holdsAt t = true) (inside : w.contains t = true)

include hP hv populated holds inside

theorem ends_fetchWithin_holds {ids : List (EntityId k)} (hid : v.id ∈ ids) (hstart : start ≤ t)
    (hstop : t ≤ stop) :
    Ends P (fetchWithin w k ids start stop) (fun _ => Stack.Holds w (.ofId v.id) t)
      fun _ => True := by
  refine (Ends.of_leads (Source.finds_findWithin hP.toServed ids start stop)).bind fun fetched => ?_
  have kept : Ends (fun s => v ∈ fetched ∧ P s) (keep w fetched)
      (fun _ => Stack.Holds w (.ofId v.id) t) fun _ => True := by
    rintro s ⟨hv, hs⟩
    rw [perform_keep]
    refine ⟨fun _ _ => ⟨(hP.serving s hs).window, ?_⟩, fun _ _ => trivial⟩
    exact (VersionCache.heldAt_keep hv populated inside holds).keep w _
  refine Ends.weaken (kept.bind fun _ => .pure fun _ hs => hs) ?_
  rintro s ⟨rfl, hs⟩
  exact ⟨Source.mem_versionsWithin.2 ⟨hv, hid, Entity.holdsWithin_of_holdsAt holds hstart hstop⟩,
    hs⟩

/-- The versions of an entity over a range: an instant of the range is cached already or lies in a
gap, and the call for the gap brings the version that holds there. -/
theorem ends_versionsWithin_holds (hstart : start ≤ t) (hstop : t ≤ stop) :
    Ends P (versionsWithin (fun e => return some e) w start stop v.id)
      (fun _ => Stack.Holds w (.ofId v.id) t) fun _ => True := by
  have retained : ∀ (id : EntityId k) (gap : TimeRange),
      Traced Stack.Retains w (fetchGap w k id gap) :=
    fun id gap => traced_fetchGap (Stack.retains_of_effect k) id gap
  have recalled : Ends P (recallWithin k v.id)
      (fun cached s => P s ∧ cached = s.cachedVersions v.id) fun _ => True := by
    intro s hs
    rw [perform_recallWithin]
    refine ⟨?_, fun _ _ => trivial⟩
    rintro _ ⟨⟩
    exact ⟨hs, rfl⟩
  refine recalled.bind fun cached => ?_
  have resolved : ∀ B : Stack → Prop, Ends B
      (collect (fun e => (return some e.2 : Lookup (Option (Entity k))))
        (cached.filter (·.1.overlaps (.closed start stop)))) (fun _ => B) fun _ => True :=
    fun B => .collect_stays fun _ _ => .pure fun _ hs => hs
  refine (resolved _).bind fun _ => Ends.bind (Q := fun _ => Stack.Holds w (.ofId v.id) t) ?_
    fun _ => .pure fun _ hs => hs
  by_cases held : ∃ f ∈ cached, f.1.contains t = true
  · refine (ends_holds (Traced.closed.gather (retained v.id) _)).weaken ?_
    rintro s ⟨hs, rfl⟩
    exact ⟨(hP.serving s hs).window, (Stack.exists_cached_iff (hP.drawn s hs)).1 held⟩
  · have uncovered : ∀ c ∈ cached.map (·.1), c.contains t = false := by
      intro c hc
      obtain ⟨f, hf, rfl⟩ := List.mem_map.1 hc
      rw [← Bool.not_eq_true]
      exact fun hft => held ⟨f, hf, hft⟩
    obtain ⟨gap, hgap, hin⟩ := exists_mem_gaps (TimeRange.contains_closed hstart hstop) uncovered
    have brought : Ends P (fetchGap w k v.id gap) (fun _ => Stack.Holds w (.ofId v.id) t)
        fun _ => True := by
      obtain ⟨first, last, hfirst, hlast, -⟩ :=
        TimeRange.exists_endpoints (Int.le_trans hstart hstop) (encloses_of_mem_gaps hgap)
      obtain ⟨hft, htl⟩ := TimeRange.between_endpoints hin hfirst hlast
      simp only [fetchGap, hfirst, hlast]
      exact ends_fetchWithin_holds hP hv populated holds inside List.mem_cons_self hft htl
    refine (Ends.gather_mem hgap brought ?_ fun _ _ => ends_holds (retained v.id _)).weaken
      fun _ hs => hs.1
    intro other _
    exact (ends_kept hP.toServed (traced_fetchGap (fun _ _ h => h) v.id other)).mono
      fun _ _ hs => .inl hs

/-- A lookup over a range leaves the stored versions of wanted entities held. -/
theorem ends_rangeLookup_holds {ids : List (EntityId k)} (hid : v.id ∈ ids) (hstart : start ≤ t)
    (hstop : t ≤ stop) :
    Ends P (rangeLookup (fun e => return some e) ids start stop)
      (fun _ => Stack.Holds w (.ofId v.id) t) fun _ => True := by
  refine (Ends.requireIds fun _ => trivial).bind fun _ => .given fun _ => ?_
  have inOrder := Leads.requireOrder (P := P) (Int.le_trans hstart hstop : start ≤ stop)
  refine (Ends.of_leads inOrder).bind fun _ => Ends.weaken (.get_bind fun s hs => ?_) fun _ hs =>
    hs.2
  rw [(hP.serving s hs).window]
  have plain : ∀ (e : Entity k) (R : Stack → Stack → Prop),
      Traced R w (return some e : Lookup (Option (Entity k))) := fun e _ => .pure (some e)
  have found := Ends.gather_mem (EntityId.mem_distinct.2 hid)
    (ends_versionsWithin_holds hP hv populated holds inside hstart hstop)
    (fun id _ => (ends_kept hP.toServed (traced_versionsWithin (fun _ _ h => h)
      (fun e => plain e _) start stop id)).mono fun _ _ hs => .inl hs)
    fun id _ => ends_holds (traced_versionsWithin (Stack.retains_of_effect k)
      (fun e => plain e _) start stop id)
  exact found.bind fun _ => .pure fun _ hs => hs

end

end Cached

end StationCatalog

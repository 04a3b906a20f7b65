import StationCatalog.Proofs.ListedAnswers
import StationCatalog.Proofs.SoundCache

/-!
What parents look like once their children are resolved. Stored versions may list children in any
order, repeatedly or long gone, and the two child lists of a station are looked up one after the
other through a cache that changes in between; what a lookup at an instant returns lists versions in
the order of their names, some of each kind, and the groups of a station share its channels.
-/

namespace StationCatalog

open Lookup
open Stack (Drawing)

variable {k : Kind}

namespace Entity

/-- A reference to a version. -/
def isVersionReference : Entity k → Bool
  | .versionReference .. => true
  | .reference _ | .populated .. => false

/-- There are some, in the order of their names, and no name comes twice. -/
structure Listing (es : List (Entity k)) : Prop where
  nonempty : es ≠ []
  ascending : es.Pairwise fun a b => a.id.text < b.id.text

/-- A listing of references to versions. -/
structure VersionListing (es : List (Entity k)) : Prop extends Listing es where
  named : ∀ e ∈ es, e.isVersionReference = true

/-- Children are listed as versions; the groups of a station list no channels but its own. -/
def ListsVersions : {k : Kind} → Entity k → Prop
  | .stationGroup, e => VersionListing e.stations
  | .station, e => VersionListing e.rawChannels ∧ Listing e.groups ∧
    ∀ g ∈ e.groups, ∀ c ∈ g.channels, c.version ∈ e.rawChannels.map (·.version)
  | .channelGroup, e => VersionListing e.channels
  | .channel, _ | .response, _ => True

variable {t : Instant} {ids : List (EntityId k)} {es : List (Entity k)}

theorem isVersionReference_toVersionReference {e : Entity k} (h : e.holdsAt t = true) :
    e.toVersionReference.isVersionReference = true := by
  obtain ⟨⟨s, started, -⟩, -⟩ := holdsAt_iff.1 h
  rw [toVersionReference, started]
  rfl

theorem ListedAt.filter (h : ListedAt ids es) (p : Entity k → Bool) : ListedAt ids (es.filter p) :=
  h.of_sublist (List.filter_sublist.map id)

theorem ListedAt.listing (h : ListedAt ids es) (nonempty : es ≠ []) : Listing es where
  nonempty := nonempty
  ascending := h.ascending.imp compare_lt_iff_lt.1

theorem ListedAt.versionListing (h : ListedAt ids es) (holds : ∀ e ∈ es, e.holdsAt t = true)
    (nonempty : es ≠ []) : VersionListing (es.map toVersionReference) where
  nonempty := fun nil => nonempty (List.map_eq_nil_iff.1 nil)
  ascending := by
    refine List.pairwise_map.2 ((h.listing nonempty).ascending.imp fun before => ?_)
    rwa [id_toVersionReference, id_toVersionReference]
  named := by
    intro e he
    obtain ⟨x, hx, rfl⟩ := List.mem_map.1 he
    exact isVersionReference_toVersionReference (holds x hx)

end Entity

open Entity (ListedAt)

namespace Cached

theorem versions_of_refersWithin {channels : List (Entity .channel)} {g : Entity .channelGroup}
    (h : refersWithin channels g = true) :
    ∀ c ∈ g.channels, c.version ∈ channels.map (·.version) := by
  intro c hc
  obtain ⟨d, hd, same⟩ := List.any_eq_true.1 (List.all_eq_true.1 h c hc)
  exact List.mem_map.2 ⟨d, hd, of_decide_eq_true same⟩

section

variable {P : Stack → Prop} (hP : Drawing P) {t : Instant}

include hP

theorem yields_findAt_held (k : Kind) (ids : List (EntityId k)) (t : Instant) :
    Yields P (findAt k ids t) fun es => ListedAt ids es ∧ ∀ e ∈ es, e.holdsAt t = true :=
  (yields_findAt_listed hP k ids t).and
    ((yields_findAt hP k ids t).mono fun _ h e he => (h e he).1)

theorem yields_resolveGroup_shape (e : Entity .channelGroup) :
    Yields P (resolveGroup t e) fun o => ∀ x ∈ o, x.isPopulated = true → x.ListsVersions := by
  unfold resolveGroup
  split
  next populated =>
    refine (yields_findAt_held hP .channel _ t).bind fun channels hchannels => ?_
    split
    · exact .none
    next some =>
      refine .some fun _ => ?_
      rw [Entity.ListsVersions, Entity.channels_withChannels populated]
      exact hchannels.1.versionListing hchannels.2 (mt List.isEmpty_iff.2 some)
  next unpopulated => exact .some fun populated => absurd populated unpopulated

theorem yields_resolveStationGroup_shape (e : Entity .stationGroup) :
    Yields P (resolveStationGroup t e) fun o =>
      ∀ x ∈ o, x.isPopulated = true → x.ListsVersions := by
  unfold resolveStationGroup
  split
  next populated =>
    refine (yields_findAt_held hP .station _ t).bind fun stations hstations => ?_
    split
    · exact .none
    next some =>
      refine .some fun _ => ?_
      rw [Entity.ListsVersions, Entity.stations_withStations populated]
      exact hstations.1.versionListing hstations.2 (mt List.isEmpty_iff.2 some)
  next unpopulated => exact .some fun populated => absurd populated unpopulated

theorem yields_resolveStation_shape (e : Entity .station) :
    Yields P (resolveStation t e) fun o => ∀ x ∈ o, x.isPopulated = true → x.ListsVersions := by
  unfold resolveStation
  split
  next populated =>
    refine (yields_findAt_held hP .channel _ t).bind fun channels hchannels =>
      (yields_findAt_held hP .channelGroup _ t).bind fun groups hgroups => ?_
    dsimp only
    split
    · exact .none
    next some =>
      rw [Bool.or_eq_true, not_or, List.isEmpty_iff, List.isEmpty_iff] at some
      refine .some fun _ => ?_
      rw [Entity.ListsVersions, Entity.rawChannels_withChildren populated,
        Entity.groups_withChildren populated]
      have nonempty : channels ≠ [] := fun nil => some.1 (List.map_eq_nil_iff.2 nil)
      exact ⟨hchannels.1.versionListing hchannels.2 nonempty, (hgroups.1.filter _).listing some.2,
        fun g hg => versions_of_refersWithin (List.mem_filter.1 hg).2⟩
  next unpopulated => exact .some fun populated => absurd populated unpopulated

/-- What is resolved lists versions, whatever its own version listed. -/
theorem yields_resolveAt_shape (k : Kind) (e : Entity k) :
    Yields P (resolveAt t k e) fun o => ∀ x ∈ o, x.isPopulated = true → x.ListsVersions := by
  cases k with
  | stationGroup => exact yields_resolveStationGroup_shape hP e
  | station => exact yields_resolveStation_shape hP e
  | channelGroup => exact yields_resolveGroup_shape hP e
  | channel | response =>
      exact (yields_resolveAt_same hP t _ e).mono fun _ _ _ _ _ => trivial

theorem yields_findAt_shape (k : Kind) (ids : List (EntityId k)) (t : Instant) :
    Yields P (findAt k ids t) fun es => ∀ e ∈ es, e.isPopulated = true → e.ListsVersions := by
  rw [findAt_eq_pointLookup]
  exact yields_pointLookup hP (fun e _ => yields_resolveAt_shape hP k e) ids

end

end Cached

namespace Operation

/-- Whatever is stored, and whatever a run has cached and failed at before, each populated parent
that the version cache answers with for an instant lists versions of its children by name, some of
each kind, and the channel groups of a station list no versions but those among its own channels. -/
theorem parents_list_versions {ops : List Operation}
    (hops : ∀ op ∈ ops, op.isCacheWrite = false) (r : Repository) (window : TimeRange)
    (ids : List (EntityId k)) (t : Instant) {es : List (Entity k)}
    (found : ((Cached.findAt k ids t).perform (run ops (.over r window))).1 = .ok es) :
    ∀ e ∈ es, e.isPopulated = true → e.ListsVersions :=
  (Cached.yields_findAt_shape Stack.drawing_drawn k ids t _ (run_drawn_any hops .empty)).2 es found

/-- The station is found after its channel was cached. -/
theorem parents_list_versions_network :
    let ops := [.storeNetwork, .findAt (.caching .cached) .channel [⟨"STA.BHZ", rfl⟩] .origin]
    let found := (Cached.findAt .station [⟨"STA", rfl⟩] .origin).perform
      (run ops (.over .empty .all))
    (∀ op ∈ ops, op.isCacheWrite = false) ∧
      ∃ e, found.1 = .ok [e] ∧ e.isPopulated = true ∧ e.ListsVersions := by
  intro ops found
  have hops : ∀ op ∈ ops, op.isCacheWrite = false := by decide
  have answered : found.1.toOption.map (·.map (·.isPopulated)) = some [true] := by decide +kernel
  cases h : found.1 with
  | error => rw [h] at answered; cases answered
  | ok es =>
      rw [h] at answered
      obtain ⟨e, rfl, populated⟩ := List.map_eq_singleton_iff.1 (Option.some.inj answered)
      exact ⟨hops, e, rfl, populated,
        parents_list_versions hops .empty .all [⟨"STA", rfl⟩] .origin h e
          (List.mem_singleton_self e) populated⟩

end Operation

end StationCatalog

import StationCatalog.Proofs.AgreeingLookups
import StationCatalog.Proofs.StationRanges
import StationCatalog.Proofs.WarmCache

/-!
The contents of a cache that has just been filled. They are the stored versions that filling comes
to, each over the whole of its validity, and they depend on what is stored and on the arguments
alone: neither the window nor anything cached before has a part in them.
-/

namespace StationCatalog

open Lookup

variable {k : Kind} {r : Repository} {roots : List (EntityId .stationGroup)} {start stop : Instant}

theorem VersionCache.HoldsExactly.congr {c c' : VersionCache} {id : EntityId k}
    {versions : Entity k → Prop} (h : c.HoldsExactly id versions)
    (same : c'.history? (.ofId id) = c.history? (.ofId id)) : c'.HoldsExactly id versions where
  keyed := by
    rw [hasKey, same]
    exact h.keyed
  wellFormed := same ▸ h.wellFormed
  entries := same ▸ h.entries

namespace Stack

/-- The stack with another window and nothing cached. -/
def emptied (s : Stack) (w : TimeRange) : Stack :=
  { s with window := w, versionCache := s.versionCache.clear }

/-- Save for responses, just the versions that filling comes to are cached. -/
def HoldsFills (r : Repository) (roots : List (EntityId .stationGroup)) (start stop : Instant)
    (s : Stack) : Prop :=
  ∀ k, k ≠ .response → ∀ id : EntityId k,
    s.versionCache.HoldsExactly id fun v => r.Fills roots start stop k v ∧ v.id = id

/-- What filling leaves: the window over the range, and under keys of their own the versions that it
comes to. -/
structure Stocked (r : Repository) (roots : List (EntityId .stationGroup)) (start stop : Instant)
    (s : Stack) : Prop where
  window : s.window = .closed start stop
  keys : (s.versionCache.entries.map (·.1)).Nodup
  contents : s.HoldsFills r roots start stop

variable {s : Stack}

/-- Once every kind but responses is settled, the cache has just what filling comes to of them. -/
theorem Filling.holdsFills (hr : r.Consistent) (ordered : start ≤ stop)
    (h : s.Filling (Rooted r (.closed start stop)) r roots start stop 4) :
    s.HoldsFills r roots start stop := by
  intro k hk id
  have settled : s.Settled r roots start stop k := h.settled k (by cases k <;> trivial)
  refine h.whole.holdsExactly hk h.base.drawn hr (fun v fills => fills.1) ?_
  rintro v ⟨stored, filled, holds⟩ rfl
  obtain ⟨t, ht, hstart, hstop⟩ := hr.exists_holdsAt stored ordered holds
  exact ⟨t, ht, (settled v.id filled).2 v stored rfl t hstart hstop ht⟩

/-- Looking up responses leaves what is cached of the other kinds. -/
theorem HoldsFills.effect {s' : Stack} (h : s.HoldsFills r roots start stop)
    (step : Effect .response s s') : s'.HoldsFills r roots start stop :=
  fun k hk id => (h k hk id).congr (step.history?_eq (.ofId id) hk hk)

/-- Nothing is held where there is nothing to come to. -/
theorem Stocked.of_empty (window : s.window = .closed start stop)
    (empty : s.versionCache.entries = []) : s.Stocked r [] start stop where
  window := window
  keys := by
    rw [empty]
    exact .nil
  contents := by
    intro k _ id
    have vacant := VersionCache.not_hasKey_of_empty empty (.ofId id)
    refine ⟨iff_of_false vacant ?_, fun h hhist => ?_, fun h hhist => ?_⟩
    · rintro ⟨v, ⟨-, filled, -⟩, -⟩
      exact Repository.not_filled_nil filled
    all_goals
      rw [VersionCache.hasKey, hhist] at vacant
      exact absurd rfl vacant

end Stack

namespace Cached

open Stack

theorem perform_fill (roots : List (EntityId .stationGroup)) (start stop : Instant) (s : Stack) :
    (fill roots start stop).perform s =
      (cascade roots start stop).perform (s.emptied (.closed start stop)) := rfl

/-- What filling comes to of all but responses stays as it is while these are looked up. -/
theorem ends_fill_stocked (hr : r.Consistent) (ordered : start ≤ stop) :
    Ends (fun s => s.repository.versions = r.versions ∧ s.repository.failure = none)
      (fill roots start stop) (fun _ => Stocked r roots start stop) fun _ => True := by
  have upheld := upheld_rooted r (.closed start stop)
  refine ends_fill_of hr ordered (B := Rooted r (.closed start stop)) (fun k => upheld.grounded) ?_
    fun ids _ => ?_
  · exact fun s ⟨versions, working⟩ => ⟨⟨versions, working, rfl⟩, .cleared _⟩
  · have kept : Ends
        (fun s => s.Rooted r (.closed start stop) ∧ s.HoldsFills r roots start stop)
        (findWithin .response ids start stop)
        (fun _ s => s.Rooted r (.closed start stop) ∧ s.HoldsFills r roots start stop)
        fun _ => True := by
      refine .of_traced (traced_rangeLookup (fun _ _ step => step) (fun e => .pure (some e)) ids
        start stop) (fun _ hs => hs.1.window) ?_
      rintro s s' step ⟨rooted, holds⟩
      exact ⟨(upheld.served .response).effect s s' rooted step, holds.effect step⟩
    refine (kept.weaken fun s hs => ⟨hs.base, hs.holdsFills hr ordered⟩).mono fun _ s hs => ?_
    exact ⟨hs.1.window, hs.1.drawn.keys, hs.2⟩

theorem warm_eq_fill (named : Named roots) (ordered : ¬stop ≤ start) :
    warm roots start stop = fill roots start stop := by
  unfold warm
  rw [requireIds_of_named named, if_neg ordered]
  rfl

section

variable {s s' : Stack} (success : (warm roots start stop).perform s = (.ok (), s'))

include success

theorem warm_eq_fill_of_success : warm roots start stop = fill roots start stop := by
  have valid : Ends (fun _ => True) (warm roots start stop)
      (fun _ _ => Named roots ∧ ¬stop ≤ start) fun _ => True := by
    refine (Ends.requireIds fun _ => trivial).bind fun _ => .given fun named => ?_
    split
    · exact (Ends.throw trivial).bind fun _ _ => False.elim
    next ordered => exact (Ends.any _).mono fun _ _ _ => ⟨named, ordered⟩
  obtain ⟨named, ordered⟩ := (valid s trivial).1 () (by rw [success])
  exact warm_eq_fill named ordered

/-- Filling the cache stores nothing, and leaves the repository as ready as it was. -/
theorem repository_of_warm : s'.repository.versions = s.repository.versions ∧
    s'.repository.failure = s.repository.failure := by
  have step : ∀ (k : Kind) (s₁ s₂ : Stack), Stack.Effect k s₁ s₂ →
      s₂.window = s₁.window ∧ s₂.repository.versions = s₁.repository.versions ∧
        s₂.repository.failure = s₁.repository.failure :=
    fun _ _ _ effect => ⟨effect.window_eq, effect.versions_eq, effect.failure_eq⟩
  have traced := traced_cascade step (w := .closed start stop) roots start stop
  have kept := Ends.of_traced traced (P := fun s₁ => s₁.window = .closed start stop ∧
      s₁.repository.versions = s.repository.versions ∧
        s₁.repository.failure = s.repository.failure) (fun _ hs => hs.1) fun s₁ s₂ step hs =>
    ⟨step.1.trans hs.1, step.2.1.trans hs.2.1, step.2.2.trans hs.2.2⟩
  rw [warm_eq_fill_of_success success, perform_fill] at success
  have left := (kept (s.emptied (.closed start stop)) ⟨rfl, rfl, rfl⟩).1 ()
    (congrArg Prod.fst success)
  rw [success] at left
  exact left.2

/-- Over stacks with the same stored versions that fail alike, filling leaves the same. -/
theorem agree_of_warm {s₂ : Stack} (versions : s₂.repository.versions = s.repository.versions)
    (failure : s₂.repository.failure = s.repository.failure) :
    ∃ s₂', (warm roots start stop).perform s₂ = (.ok (), s₂') ∧ s₂'.Agree s' := by
  have determined := Determined.closed.cascade (fun t k => determined_pointParts t)
    (fun k => determined_rangeParts) (w := .closed start stop) roots start stop
  have filled := warm_eq_fill_of_success success
  rw [filled, perform_fill] at success ⊢
  obtain ⟨same, agree, -⟩ := determined (s₂.emptied (.closed start stop))
    (s.emptied (.closed start stop)) rfl ⟨versions, failure, rfl, rfl⟩
  rw [success] at same agree
  refine ⟨((cascade roots start stop).perform (s₂.emptied (.closed start stop))).2, ?_, agree⟩
  exact Prod.ext same rfl

end

/-- Filling the cache leaves it with just what it comes to. If it succeeds over a consistent
content, the window is the range, and of each station group, station, channel group and channel the
cache has a key just when filling comes to it and some stored version of it holds within the range;
under that key are these versions, cut down, each over the whole of its validity. Nothing else has a
part in it: over any stack that stores the same versions and fails alike, filling succeeds and
leaves the same cached, so to fill the cache once more changes nothing. -/
theorem warm_contents {s s' : Stack} (hr : s.repository.Consistent)
    (success : (warm roots start stop).perform s = (.ok (), s')) :
    s'.window = .closed start stop ∧ (s'.versionCache.entries.map (·.1)).Nodup ∧
    (∀ k, k ≠ .response → ∀ id : EntityId k, s'.versionCache.HoldsExactly id fun v =>
      s.repository.Fills roots start stop k v ∧ v.id = id) ∧
    (∀ s₂ : Stack, s₂.repository.versions = s.repository.versions →
      s₂.repository.failure = s.repository.failure →
      ∃ s₂', (warm roots start stop).perform s₂ = (.ok (), s₂') ∧
        s₂'.versionCache.entries = s'.versionCache.entries) ∧
    ∃ again, (warm roots start stop).perform s' = (.ok (), again) ∧
      again.versionCache.entries = s'.versionCache.entries := by
  have stocked : s'.Stocked s.repository roots start stop := by
    apply left_by_warm success (ends_fill_stocked hr)
    rintro rfl window empty
    exact .of_empty window empty
  have others : ∀ s₂ : Stack, s₂.repository.versions = s.repository.versions →
      s₂.repository.failure = s.repository.failure →
      ∃ s₂', (warm roots start stop).perform s₂ = (.ok (), s₂') ∧
        s₂'.versionCache.entries = s'.versionCache.entries := by
    intro s₂ versions failure
    obtain ⟨s₂', found, agree⟩ := agree_of_warm success versions failure
    exact ⟨s₂', found, agree.entries⟩
  obtain ⟨versions, failure⟩ := repository_of_warm success
  exact ⟨stocked.window, stocked.keys, stocked.contents, others, others s' versions failure⟩

/-- A station that is no longer stored is cached; once the cache was filled from the sample network
it has the five entities of the network, and of the channel just what filling comes to. -/
theorem warm_contents_network :
    let roots : List (EntityId .stationGroup) := [⟨"PRIMARY", rfl⟩]
    let channel : EntityId .channel := ⟨"STA.BHZ", rfl⟩
    let s := { Stack.over Sample.network.repository .all with
      versionCache := VersionCache.empty.keep .all
        [Sample.station ⟨"OLD", rfl⟩ ⟨.origin, none⟩ [] []] }
    let s' := ((warm roots .origin Sample.change).perform s).2
    s.repository.Consistent ∧ (warm roots .origin Sample.change).perform s = (.ok (), s') ∧
      s.versionCache.hasKey ⟨.station, "OLD"⟩ = true ∧
      s'.versionCache.hasKey ⟨.station, "OLD"⟩ = false ∧ s'.versionCache.size = 5 ∧
      s'.versionCache.HoldsExactly channel fun v =>
        s.repository.Fills roots .origin Sample.change .channel v ∧ v.id = channel := by
  intro roots channel s s'
  have filled : ((warm roots .origin Sample.change).perform s).1 = .ok () := by decide +kernel
  have success : (warm roots .origin Sample.change).perform s = (.ok (), s') := by rw [← filled]
  have consistent : s.repository.Consistent := Sample.orderly_network.consistent
  have contents := (warm_contents consistent success).2.2.1 .channel nofun channel
  refine ⟨consistent, success, ?_, ?_, ?_, contents⟩
  · decide +kernel
  · decide +kernel
  · decide +kernel

end Cached

end StationCatalog

import StationCatalog.Proofs.Memos

/-!
Lookups over a failing repository. The first call that is made fails, and with it the lookup that
made it, however deep that call lies; until then cached versions are read and nothing is written.
-/

namespace StationCatalog

open Lookup

/-- What a lookup over a repository that fails with `e` leaves and answers: either it made no call,
and does not fail on account of the repository, or it made one, and fails with `e`. -/
structure Stack.Stops {α : Type} (e : StorageError) (s : Stack)
    (result : Except CatalogError α × Stack) : Prop where
  window : result.2.window = s.window
  entries : result.2.versionCache.entries = s.versionCache.entries
  failure : result.2.repository.failure = s.repository.failure
  calls : (result.2.repository.calls = s.repository.calls ∧
      ∀ e', result.1 ≠ .error (.storage e')) ∨
    (∃ call, result.2.repository.calls = s.repository.calls ++ [call]) ∧
      result.1 = .error (.storage e)

open Stack (Stops)

namespace Lookup

variable {α β : Type} {w : TimeRange} {e : StorageError}

/-- From the window `w`, over a repository that fails with `e`, a lookup stops at its first call. -/
def StopsAt (w : TimeRange) (e : StorageError) (x : Lookup α) : Prop :=
  ∀ s, s.window = w → s.repository.failure = some e → Stops e s (x.perform s)

/-- A lookup that makes no call, and writes to neither the version cache nor the window. -/
theorem StopsAt.of_silent {x : Lookup α} (h : ∀ s, ∃ c t, (x.perform s).2 = { s with
      requestCache := c, versionCache := { s.versionCache with tally := t } })
    (succeeds : ∀ s e', (x.perform s).1 ≠ .error (.storage e')) : StopsAt w e x := by
  intro s _ _
  obtain ⟨c, t, left⟩ := h s
  exact ⟨by rw [left], by rw [left], by rw [left], .inl ⟨by rw [left], succeeds s⟩⟩

theorem StopsAt.bind {x : Lookup α} {f : α → Lookup β} (hx : StopsAt w e x)
    (hf : ∀ a, StopsAt w e (f a)) : StopsAt w e (x >>= f) := by
  intro s hs failing
  have first := hx s hs failing
  rw [perform_bind]
  rcases h : x.perform s with ⟨e' | a, s'⟩ <;> rw [h] at first
  · refine ⟨first.window, first.entries, first.failure, first.calls.imp ?_ ?_⟩
    · rintro ⟨none, unfailed⟩
      refine ⟨none, fun e'' same => unfailed e'' ?_⟩
      cases same
      rfl
    · rintro ⟨called, failed⟩
      cases failed
      exact ⟨called, rfl⟩
  · have second := hf a s' (first.window.trans hs) (first.failure.trans failing)
    rcases first.calls with ⟨none, -⟩ | ⟨-, failed⟩
    · refine ⟨second.window.trans first.window, second.entries.trans first.entries,
        second.failure.trans first.failure, ?_⟩
      have calls := second.calls
      rwa [show s'.repository.calls = s.repository.calls from none] at calls
    · cases failed

/-- Composing lookups keeps it that they stop. -/
theorem StopsAt.closed : Closed w (StopsAt w e) where
  pure _ := .of_silent (fun s => ⟨_, _, rfl⟩) fun _ _ => nofun
  refuse _ := .of_silent (fun s => ⟨_, _, rfl⟩) fun _ _ => nofun
  bind := .bind
  window _ hf := by
    intro s hs failing
    rw [perform_bind, perform_get]
    exact hf s hs s hs failing

end Lookup

variable {w : TimeRange} {e : StorageError}

/-- A lookup that makes a call which fails, and with it itself. -/
theorem Lookup.StopsAt.of_called {α : Type} {x : Lookup α} {k : Kind} (ids : List (EntityId k))
    (time : RequestTime) (h : ∀ s, s.repository.failure = some e → x.perform s =
      (.error (.storage e), { s with repository := s.repository.record ids time })) :
    StopsAt w e x := by
  intro s _ failing
  rw [h s failing]
  exact ⟨rfl, rfl, rfl, .inr ⟨⟨_, rfl⟩, rfl⟩⟩

namespace Cached

variable {k : Kind}

theorem stopsAt_pointParts (t : Instant) : PointParts w (StopsAt w e) t k where
  cached _ id := by
    refine .of_silent (fun s => ?_) fun s e' => ?_
    · rw [perform_recallAt]
      split
      · exact ⟨_, _, rfl⟩
      · exact ⟨_, _, rfl⟩
    · rw [perform_recallAt]
      nofun
  fetch ids := by
    refine .of_called ids (.at t) fun s failing => ?_
    simp only [fetchAt, perform_bind, Source.perform_findAt, failing]

theorem stopsAt_rangeParts : RangeParts w (StopsAt w e) k where
  cached id := by
    refine .of_silent (fun s => ?_) fun s e' => ?_
    · rw [perform_recallWithin]
      exact ⟨_, _, rfl⟩
    · rw [perform_recallWithin]
      nofun
  fetch ids start stop := by
    refine .of_called ids (.within start stop) fun s failing => ?_
    simp only [fetchWithin, perform_bind, Source.perform_findWithin, failing]

end Cached

theorem Memoised.stopsAt_consult : Consults (StopsAt w e) (StopsAt w e) := by
  intro slot request again ask hagain hask
  have retrieved : StopsAt w e (retrieve slot request) :=
    .of_silent (fun _ => ⟨_, _, rfl⟩) fun _ _ => nofun
  apply retrieved.bind
  intro found
  cases found with
  | some results => exact hagain results
  | none =>
      have remembered : ∀ results, StopsAt w e (modify fun s =>
          { s with requestCache := s.requestCache.put slot request results }) :=
        fun results => .of_silent (fun _ => ⟨_, _, rfl⟩) fun _ _ => nofun
      exact hask.bind fun results => (remembered results).bind fun _ => StopsAt.closed.pure results

theorem Inquiry.stopsAt {slot : Slot} (q : Inquiry slot) (tier : CachingTier) :
    StopsAt w e (q.lookup tier) := by
  cases tier with
  | cached =>
      exact StopsAt.closed.cachedInquiry (fun t _ => Cached.stopsAt_pointParts t)
        (fun _ => Cached.stopsAt_rangeParts) q
  | memoised =>
      exact StopsAt.closed.memoisedInquiry StopsAt.closed Memoised.stopsAt_consult
        (fun t _ => Cached.stopsAt_pointParts t) (fun _ => Cached.stopsAt_rangeParts) q

/-- The lookups that faceting makes are not faceted themselves. -/
theorem Memoised.traced_findAt_spares {slot : Slot} {request : Request}
    (faceted : request.faceting ≠ none) {k : Kind} (ids : List (EntityId k)) (t : Instant) :
    Traced (Stack.SparesMemos slot request) w (findAt k ids t) := by
  refine (Traced.closed.requireIds ids).bind fun _ => traced_consult_of (fun _ _ => rfl)
    (fun _ _ spared => spared.sparesMemos) ?_ (fun results => .pure results)
    (Cached.traced_findAt Stack.sparesRequests_of_effect k ids t)
  intro s results _
  refine RequestCache.memosOf_put_of_ne _ ?_ results
  rintro ⟨-, rfl⟩
  exact faceted rfl

namespace Inquiry

variable {slot : Slot}

/-- Remembered results fail to come out only where they are faceted again, and then other requests
are remembered at most. -/
theorem again_spares (q : Inquiry slot) (results : List slot.Result) {s : Stack}
    {err : CatalogError} (failed : ((q.again results).perform s).1 = .error err) :
    s.SparesMemos slot q.request ((q.again results).perform s).2 := by
  cases q with
  | plain | changeTimes => cases failed
  | @faceted k ids t f =>
      have faceted : (Request.ofIds ids (.at t) (some f)).faceting ≠ none := nofun
      have found : ∀ (j : Kind) (js : List (EntityId j)) (u : Instant), Traced
          (Stack.SparesMemos (.entities k) (.ofIds ids (.at t) (some f))) s.window
          (Memoised.findAt j js u) := fun _ => Memoised.traced_findAt_spares faceted
      have traced := (Traced.closed.collect (Populate.traced_entity found t k f) results).bind
        fun xs => Traced.pure (Memoised.dropRepeated [] xs)
      exact .of_steps (traced s rfl).2

/-- A lookup that fails leaves no memo of its own. -/
theorem sparesMemos_of_error (q : Inquiry slot) (tier : CachingTier) (s : Stack)
    {err : CatalogError} (failed : ((q.lookup tier).perform s).1 = .error err) :
    s.SparesMemos slot q.request ((q.lookup tier).perform s).2 := by
  cases tier with
  | cached => exact (q.spares_cached s).sparesMemos
  | memoised =>
      by_cases valid : q.Valid
      · cases remembered : RequestCache.resultsOf slot q.request s.requestCache.memos with
        | nil =>
            have asked := q.spares_cached (s.counted false)
            rw [perform_lookup_of_forgotten valid remembered, Memoised.perform_learn] at failed ⊢
            rcases h : (q.lookup .cached).perform (s.counted false) with ⟨e | xs, s'⟩ <;>
              rw [h] at failed asked
            · exact asked.sparesMemos
            · cases failed
        | cons x xs =>
            rw [perform_lookup_of_remembered valid (List.cons_ne_nil x xs) remembered] at failed ⊢
            exact q.again_spares (x :: xs) failed
      · obtain ⟨e, refused⟩ := perform_lookup_of_not_valid valid
        rw [refused]
        rfl

/-- Over a failing repository every lookup stops at its first call, with the error of the
repository, and writes nothing but what cached versions were worth remembering; one that fails, for
whatever reason, leaves no memo of its own. -/
theorem lookup_of_failing (q : Inquiry slot) (tier : CachingTier) {s : Stack} {e : StorageError}
    (failing : s.repository.failure = some e) :
    let result := (q.lookup tier).perform s
    s.Stops e result ∧ ∀ err, result.1 = .error err → s.SparesMemos slot q.request result.2 :=
  ⟨q.stopsAt tier s rfl failing, fun _ => q.sparesMemos_of_error tier s⟩

/-- The sample station group is cached, and the call for its station fails. -/
theorem lookup_of_failing_network :
    let root : EntityId .stationGroup := ⟨"PRIMARY", rfl⟩
    let s := Operation.run [.storeNetwork,
      .findWithin (.caching .cached) .stationGroup [root] .origin .origin, .fail .lockPoisoned]
      (.fresh .all)
    let q := Inquiry.plain [root] (.at .origin)
    let result := (q.lookup .memoised).perform s
    s.repository.failure = some .lockPoisoned ∧ s.versionCache.hasKey (.ofId root) = true ∧
      result.1 = .error (.storage .lockPoisoned) ∧ s.Stops .lockPoisoned result ∧
      s.SparesMemos (.entities .stationGroup) q.request result.2 := by
  intro root s q result
  have failing : s.repository.failure = some .lockPoisoned := rfl
  have called : result.2.repository.calls ≠ s.repository.calls := by decide +kernel
  obtain ⟨stops, spares⟩ := q.lookup_of_failing .memoised failing
  obtain ⟨-, failed⟩ := stops.calls.resolve_left fun uncalled => called uncalled.1
  exact ⟨failing, by decide +kernel, failed, stops, spares _ failed⟩

end Inquiry

end StationCatalog

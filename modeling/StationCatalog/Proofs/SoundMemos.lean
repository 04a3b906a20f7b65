import StationCatalog.Proofs.DrawnLookups
import StationCatalog.Proofs.Memos

/-!
Remembered answers that stay sound. Where a predicate of requests and their answers holds of all
that the version cache answers, and of what comes of remembered answers, it holds of all that the
request cache answers and remembers, over whole runs.
-/

namespace StationCatalog

open Lookup

variable {F : (slot : Slot) → Request → List slot.Result → Prop} {slot : Slot} {request : Request}

/-- A stack with a cache of populated versions that remembers what `F` says of requests. -/
structure Stack.Minds (F : (slot : Slot) → Request → List slot.Result → Prop) (s : Stack) :
    Prop where
  drawn : s.versionCache.DrawnFrom fun _ _ => True
  memos : ∀ m ∈ s.requestCache.memos, F m.slot m.request m.results

open Stack (Minds Drawing)

theorem Stack.minds_over (r : Repository) (w : TimeRange) : (Stack.over r w).Minds F :=
  ⟨.empty, fun _ h => absurd h List.not_mem_nil⟩

theorem Stack.drawing_minds : Drawing (Minds F) where
  drawn hs := hs.drawn
  call hs _ _ _ := ⟨hs.drawn, hs.memos⟩
  read hs _ id t := ⟨Stack.drawing_drawn.read hs.drawn id t, hs.memos⟩
  keep hs w _ es := ⟨Stack.drawing_drawn.keep hs.drawn w es, hs.memos⟩

namespace RequestCache

/-- What is found in memory is what some memo of the request remembers. -/
theorem resultsOf_sound {memos : List Memo} (h : ∀ m ∈ memos, F m.slot m.request m.results)
    (found : resultsOf slot request memos ≠ []) : F slot request (resultsOf slot request memos) := by
  induction memos with
  | nil => exact absurd rfl found
  | cons m memos ih =>
      obtain ⟨hm, hrest⟩ := List.forall_mem_cons.1 h
      unfold resultsOf at found ⊢
      split at found
      next hslot =>
        subst hslot
        split at found
        next hrequest =>
          subst hrequest
          simpa using hm
        next hrequest =>
          simp only [hrequest, if_false]
          exact ih hrest found
      next hslot =>
        simp only [hslot, dif_neg, not_false_eq_true]
        exact ih hrest found

/-- Putting a sound answer leaves sound memos. -/
theorem put_sound {c : RequestCache} (h : ∀ m ∈ c.memos, F m.slot m.request m.results)
    {results : List slot.Result} (sound : F slot request results) :
    ∀ m ∈ (c.put slot request results).memos, F m.slot m.request m.results := by
  unfold put
  split
  · exact h
  · refine List.forall_mem_cons.2 ⟨sound, fun m hm => ?_⟩
    exact h m (List.mem_filter.1 hm).1

end RequestCache

/-- A consultation goes on from a sound answer, remembered or newly asked for. -/
theorem Memoised.yields_consult {again : List slot.Result → Lookup (List slot.Result)}
    {ask : Lookup (List slot.Result)} (hask : Yields (Minds F) ask (F slot request))
    (hagain : ∀ xs, F slot request xs → Yields (Minds F) (again xs) (F slot request)) :
    Yields (Minds F) (consult slot request again ask) (F slot request) := by
  intro s hs
  rw [perform_consult]
  cases found : RequestCache.resultsOf slot request s.requestCache.memos with
  | cons x xs =>
      have sound := RequestCache.resultsOf_sound (F := F) hs.memos (found ▸ List.cons_ne_nil x xs)
      rw [found] at sound
      exact hagain (x :: xs) sound (s.counted true) ⟨hs.drawn, hs.memos⟩
  | nil =>
      obtain ⟨left, answered⟩ := hask (s.counted false) ⟨hs.drawn, hs.memos⟩
      dsimp only
      rw [perform_learn]
      rcases h : ask.perform (s.counted false) with ⟨e | results, s'⟩ <;> rw [h] at left answered
      · exact ⟨left, nofun⟩
      · have sound := answered results rfl
        exact ⟨⟨left.drawn, RequestCache.put_sound left.memos sound⟩,
          fun _ same => Except.ok.inj same ▸ sound⟩

namespace Inquiry

/-- A predicate of requests and their answers that holds of what the version cache answers, and of
what comes of answers when they are faceted again. -/
structure Sound (F : (slot : Slot) → Request → List slot.Result → Prop) : Prop where
  cached {slot : Slot} (q : Inquiry slot) : Yields (Minds F) (q.lookup .cached) (F slot q.request)
  again {k : Kind} (ids : List (EntityId k)) (t : Instant) (f : Faceting) {es : List (Entity k)}
    (finds : ∀ k ids, Yields (Minds F) (Memoised.findAt k ids t)
      (F (.entities k) (.ofIds ids (.at t) none)))
    (hes : F (.entities k) (.ofIds ids (.at t) (some f)) es) :
    Yields (Minds F) ((faceted ids t f).again es) (F (.entities k) (.ofIds ids (.at t) (some f)))

/-- On the tier with a request cache too, answers are sound if what comes of remembered ones is. -/
theorem yields_memoised {q : Inquiry slot}
    (cached : Yields (Minds F) (q.lookup .cached) (F slot q.request))
    (again : ∀ xs, F slot q.request xs → Yields (Minds F) (q.again xs) (F slot q.request)) :
    Yields (Minds F) (q.lookup .memoised) (F slot q.request) := by
  by_cases valid : q.Valid
  · rw [lookup_memoised valid]
    exact Memoised.yields_consult cached again
  · obtain ⟨e, refused⟩ := perform_lookup_of_not_valid valid
    intro s hs
    rw [refused]
    exact ⟨hs, nofun⟩

variable (sound : Sound F)

include sound

/-- Every answer of either tier is sound. -/
theorem Sound.yields_lookup (tier : CachingTier) (q : Inquiry slot) :
    Yields (Minds F) (q.lookup tier) (F slot q.request) := by
  have kept : ∀ {slot : Slot} (q : Inquiry slot), q.again = pure →
      Yields (Minds F) (q.lookup .memoised) (F slot q.request) :=
    fun q same => yields_memoised (sound.cached q) fun _ h => by rw [same]; exact .pure h
  cases tier with
  | cached => exact sound.cached q
  | memoised =>
      cases q with
      | plain ids time => exact kept (.plain ids time) rfl
      | changeTimes station start stop => exact kept (.changeTimes station start stop) rfl
      | faceted ids t f =>
          exact yields_memoised (sound.cached _) fun _ h =>
            sound.again ids t f (fun _ ids => kept (.plain ids (.at t)) rfl) h

theorem Sound.lasting : Stack.Lasting (Minds F) where
  rests hs entries memos :=
    ⟨⟨entries ▸ hs.drawn.keys, entries ▸ hs.drawn.histories⟩, memos ▸ hs.memos⟩
  unlearns hs := ⟨hs.drawn, fun _ h => absurd h List.not_mem_nil⟩
  asked tier _ q := (sound.yields_lookup tier q).mono fun _ _ => trivial

/-- Over a run without writes by hand, what is remembered stays sound. -/
theorem Sound.run {ops : List Operation}
    (hops : ∀ op ∈ ops, op.isCacheWrite = false ∧ op.isMemoWrite = false) {s : Stack}
    (hs : s.Minds F) : (Operation.run ops s).Minds F := by
  refine sound.lasting.run (fun op hop => (hops op hop).1) (fun op hop put => ?_)
    (fun _ _ _ s hs => ⟨.cleared s.versionCache, hs.memos⟩) hs
  rw [(hops op hop).2] at put
  cases put

end Inquiry

end StationCatalog

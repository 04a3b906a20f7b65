import StationCatalog.Proofs.FacetRelations
import StationCatalog.Proofs.SoundMemos
import StationCatalog.Proofs.TimelyLookups

/-!
Answers that fit the time asked about, over whole runs. Faceting keeps the time of what it facets,
and the request cache remembers results for the time they were asked for; so whatever is stored and
looked up in whatever order, what a lookup on either tier returns holds when it was asked for.
-/

namespace StationCatalog

open Lookup
open Stack (Timely Drawing)

variable {k : Kind} {t : Instant}

namespace Populate

/-- Faceting keeps the time of what it facets. -/
theorem relates_holdsAt (t : Instant) :
    Relates fun {k} (e x : Entity k) => e.holdsAt t = true → x.holdsAt t = true where
  trans hab hbc ha := hbc (hab ha)
  cut _ := Entity.holdsAt_toVersionReference
  same _ hstart hstop h := (Entity.holdsAt_congr hstart hstop).trans h

theorem yields_collect_holdsAt {P : Stack → Prop} {find : Finder}
    (hfind : ∀ k ids, Yields P (find k ids t) fun es => ∀ e ∈ es, e.holdsAt t = true) (f : Faceting)
    {es : List (Entity k)} (hes : ∀ e ∈ es, e.holdsAt t = true) :
    Yields P (collect (entity find t k f) es) fun xs => ∀ x ∈ xs, x.holdsAt t = true := by
  have kept := fun e => yields_entity (relates_holdsAt t)
    (fun k e => (hfind k [e.id]).mono fun _ hes x hx _ => hes x hx) k f e
  exact .collect fun e he => (kept e).mono fun _ ho x hx => ho x hx (hes e he)

end Populate

theorem Memoised.dropRepeated_sublist (seen : List (EntityId k × Option Instant))
    (es : List (Entity k)) : (dropRepeated seen es).Sublist es := by
  induction es generalizing seen with
  | nil => exact .slnil
  | cons e es ih =>
      rw [dropRepeated]
      split
      · exact (ih seen).cons e
      · exact (ih (e.version :: seen)).cons_cons e

/-- All results fit the request. -/
abbrev Request.AllFit (slot : Slot) (request : Request) (xs : List slot.Result) : Prop :=
  ∀ x ∈ xs, request.Fits slot x

theorem Stack.minds_allFit {s : Stack} : s.Minds Request.AllFit ↔ s.Timely :=
  ⟨fun h => ⟨h.drawn, h.memos⟩, fun h => ⟨h.drawn, h.memos⟩⟩

/-- What the version cache answers fits the request, and still does when it is faceted again. -/
theorem Inquiry.sound_allFit : Sound Request.AllFit where
  cached q := by
    have finds := fun k ids t => Cached.yields_findAt (P := Stack.Minds Request.AllFit)
      Stack.drawing_minds k ids t
    cases q with
    | plain ids time =>
        cases time with
        | «at» t => exact (finds _ ids t).mono fun es h e he => ⟨(h e he).1, fun _ => (h e he).2⟩
        | within start stop =>
            exact (Cached.yields_findWithin Stack.drawing_minds _ ids start stop).mono
              fun _ h e he => (h.2 e he).2
    | faceted ids t f =>
        have held := fun k ids => (finds k ids t).mono fun _ h e he => (h e he).1
        refine (held _ ids).bind fun found hfound =>
          (Populate.yields_collect_holdsAt held f hfound).bind fun xs hxs => .pure ?_
        exact fun x hx => ⟨hxs x (Sorted.mem_of_mem_ofList hx), nofun⟩
    | changeTimes station start stop =>
        refine (Yields.of_traced fun _ => ?_).mono fun _ _ _ _ => trivial
        exact Cached.traced_findChangeTimes
          (fun _ _ _ step hs => Stack.drawing_minds.effect step hs) station start stop
  again ids t f es finds hes := by
    have held := fun k ids => (finds k ids).mono fun _ h e he => (h e he).1
    refine (Populate.yields_collect_holdsAt held f fun e he => (hes e he).1).bind
      fun xs hxs => .pure ?_
    exact fun x hx => ⟨hxs x ((Memoised.dropRepeated_sublist [] xs).mem hx), nofun⟩

/-- On either tier the results of an inquiry fit its request. -/
theorem CachingTier.yields_fitting (tier : CachingTier) {slot : Slot} (q : Inquiry slot) :
    Yields Timely (q.lookup tier) fun xs => ∀ x ∈ xs, q.request.Fits slot x := by
  intro s hs
  obtain ⟨left, fits⟩ := Inquiry.sound_allFit.yields_lookup tier q s (Stack.minds_allFit.2 hs)
  exact ⟨Stack.minds_allFit.1 left, fits⟩

theorem Tier.yields_findWithin (tier : Tier) (k : Kind) (ids : List (EntityId k))
    (start stop : Instant) :
    Yields Timely (tier.findWithin k ids start stop) fun es =>
      ∀ e ∈ es, e.holdsWithin start stop = true := by
  cases tier with
  | caching tier => exact tier.yields_fitting (.plain ids (.within start stop))
  | source =>
      intro s hs
      obtain ⟨left, found⟩ := Source.yields_findWithin Stack.drawing_minds ids start stop s
        (Stack.minds_allFit.2 hs)
      exact ⟨Stack.minds_allFit.1 left, fun es h e he => (found es h e he).2⟩

namespace CachingTier

theorem yields_findAt (tier : CachingTier) (k : Kind) (ids : List (EntityId k)) (t : Instant) :
    Yields Timely ((Tier.caching tier).findAt k ids t) fun es =>
      ∀ e ∈ es, e.holdsAt t = true ∧ e.Settled t :=
  (tier.yields_fitting (.plain ids (.at t))).mono fun _ h e he => ⟨(h e he).1, (h e he).2 rfl⟩

theorem yields_findFaceted (tier : CachingTier) (k : Kind) (ids : List (EntityId k)) (t : Instant)
    (f : Faceting) :
    Yields Timely (tier.findFaceted k ids t f) fun es => ∀ e ∈ es, e.holdsAt t = true :=
  (tier.yields_fitting (.faceted ids t f)).mono fun _ h e he => (h e he).1

end CachingTier

namespace Operation

/-- A run without writes by hand ends in a timely stack. -/
theorem run_timely {ops : List Operation}
    (hops : ∀ op ∈ ops, op.isCacheWrite = false ∧ op.isMemoWrite = false) {s : Stack}
    (hs : s.Timely) : (run ops s).Timely :=
  Stack.minds_allFit.1 (Inquiry.sound_allFit.run hops (Stack.minds_allFit.2 hs))

/-- Answers are timely: whatever a run has stored, looked up and failed at before, on either tier
what a lookup returns of an instant, plain or faceted, holds at that instant, what it returns of a
range holds within the range, and the children of what a plain lookup returns of an instant are
references to versions that have started by then. -/
theorem answers_timely {ops : List Operation}
    (hops : ∀ op ∈ ops, op.isCacheWrite = false ∧ op.isMemoWrite = false) (window : TimeRange)
    (tier : CachingTier) {k : Kind} (ids : List (EntityId k)) :
    let s := run ops (.fresh window)
    (∀ t es, (((Tier.caching tier).findAt k ids t).perform s).1 = .ok es →
      ∀ e ∈ es, e.holdsAt t = true ∧ e.Settled t) ∧
    (∀ t f es, ((tier.findFaceted k ids t f).perform s).1 = .ok es →
      ∀ e ∈ es, e.holdsAt t = true) ∧
    ∀ start stop es, (((Tier.caching tier).findWithin k ids start stop).perform s).1 = .ok es →
      ∀ e ∈ es, e.holdsWithin start stop = true := by
  intro s
  have timely : s.Timely := run_timely hops ⟨.empty, fun _ h => absurd h List.not_mem_nil⟩
  refine ⟨?_, ?_, ?_⟩
  · exact fun t => (tier.yields_findAt k ids t s timely).2
  · exact fun t f => (tier.yields_findFaceted k ids t f s timely).2
  · exact fun start stop =>
      ((Tier.caching tier).yields_findWithin k ids start stop s timely).2

/-- The station is found after its channel was cached. -/
theorem answers_timely_network :
    let ops := [.storeNetwork, .findAt (.caching .cached) .channel [⟨"STA.BHZ", rfl⟩] .origin]
    let found := ((Tier.caching .memoised).findAt .station [⟨"STA", rfl⟩] .origin).perform
      (run ops (.fresh .all))
    (∀ op ∈ ops, op.isCacheWrite = false ∧ op.isMemoWrite = false) ∧
      ∃ e, found.1 = .ok [e] ∧ e.holdsAt .origin = true ∧ e.Settled .origin := by
  intro ops found
  have hops : ∀ op ∈ ops, op.isCacheWrite = false ∧ op.isMemoWrite = false := by decide
  obtain ⟨point, -, -⟩ := answers_timely hops .all .memoised [(⟨"STA", rfl⟩ : EntityId .station)]
  have answered : found.1.toOption.map (·.length) = some 1 := by decide +kernel
  cases h : found.1 with
  | error => rw [h] at answered; cases answered
  | ok es =>
      rw [h] at answered
      obtain ⟨e, rfl⟩ := List.length_eq_one_iff.1 (Option.some.inj answered)
      exact ⟨hops, e, rfl, point .origin [e] h e (List.mem_singleton.2 rfl)⟩

end Operation

end StationCatalog

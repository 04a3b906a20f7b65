import StationCatalog.Operation

/-!
What the tiers remember of requests. A tier with a request cache looks for a request there, which
counts, before it goes on; the other tier goes on at once.
-/

namespace StationCatalog

variable {k : Kind}

namespace CachingTier

/-- What a tier remembers as the answer to a request. -/
def remembered (k : Kind) (request : Request) (s : Stack) : CachingTier → List (Entity k)
  | cached => []
  | memoised => RequestCache.resultsOf (.entities k) request s.requestCache.memos

/-- The stack once a tier has looked for a request among those it remembers. -/
def asked (k : Kind) (request : Request) (s : Stack) : CachingTier → Stack
  | cached => s
  | memoised => { s with requestCache := (s.requestCache.retrieve (.entities k) request).2 }

theorem asked_same (k : Kind) (request : Request) (s : Stack) (tier : CachingTier) :
    (tier.asked k request s).window = s.window ∧
      (tier.asked k request s).repository = s.repository ∧
      (tier.asked k request s).versionCache = s.versionCache ∧
      (tier.asked k request s).requestCache.memos = s.requestCache.memos := by
  cases tier <;> exact ⟨rfl, rfl, rfl, rfl⟩

end CachingTier

namespace Memoised

open CachingTier

theorem perform_retrieve (request : Request) (s : Stack) :
    (retrieve (.entities k) request).perform s =
      (.ok (if (memoised.remembered k request s).isEmpty then none
        else some (memoised.remembered k request s)), memoised.asked k request s) := rfl

/-- A request is answered from memory, or else asked and its answer remembered. -/
theorem perform_answer (request : Request) (ask : Lookup (List (Entity k))) (s : Stack) :
    (answer (.entities k) request ask).perform s =
      match memoised.remembered k request s with
      | [] => (learn (.entities k) request ask).perform (memoised.asked k request s)
      | e :: es => (.ok (e :: es), memoised.asked k request s) := by
  rw [answer, Lookup.perform_bind, perform_retrieve]
  cases memoised.remembered k request s <;> rfl

end Memoised

end StationCatalog

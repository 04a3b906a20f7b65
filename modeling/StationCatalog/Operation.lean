import StationCatalog.Sample
import StationCatalog.Tier.Cached.Within
import StationCatalog.Tier.Memoised

/-!
What can be done to a stack, one operation at a time. An operation names the tier it addresses; it
answers, or fails, and leaves a stack from which a run goes on.
-/

namespace StationCatalog

/-- A tier with a cache: versions are cached, and requests memoised in front of that. -/
inductive CachingTier
  | cached
  | memoised
deriving DecidableEq

inductive Tier
  | source
  | caching (tier : CachingTier)
deriving DecidableEq

namespace CachingTier

def findFaceted : CachingTier → (k : Kind) → List (EntityId k) → Instant → Faceting →
    Lookup (List (Entity k))
  | cached => Cached.findFaceted
  | memoised => Memoised.findFaceted

def findChangeTimes : CachingTier → EntityId .station → Instant → Instant → Lookup (List Instant)
  | cached => Cached.findChangeTimes
  | memoised => Memoised.findChangeTimes

end CachingTier

namespace Tier

def findAt : Tier → Finder
  | source => Source.findAt
  | caching .cached => Cached.findAt
  | caching .memoised => Memoised.findAt

def findWithin : Tier → (k : Kind) → List (EntityId k) → Instant → Instant →
    Lookup (List (Entity k))
  | source => Source.findWithin
  | caching .cached => Cached.findWithin
  | caching .memoised => Memoised.findWithin

end Tier

inductive Operation
  | store (k : Kind) (es : List (Entity k))
  | storeNetwork
  | findAt (tier : Tier) (k : Kind) (ids : List (EntityId k)) (t : Instant)
  | findWithin (tier : Tier) (k : Kind) (ids : List (EntityId k)) (start stop : Instant)
  | findFaceted (tier : CachingTier) (k : Kind) (ids : List (EntityId k)) (t : Instant)
    (f : Faceting)
  | populate (tier : Tier) (k : Kind) (e : Entity k) (f : Faceting) (t : Instant)
  | changeTimes (tier : CachingTier) (station : EntityId .station) (start stop : Instant)
  | warm (ids : List (EntityId .stationGroup)) (start stop : Instant)
  | fail (e : StorageError)
  | recover
  | clearCalls
  | calls
  | callsFor (k : Kind)
  | versionCount (k : Kind)
  | window
  | windowContains (t : Instant)
  | setWindow (range : TimeRange)
  | putVersions (k : Kind) (key : VersionKey) (versions : RangeMap (Entity k))
  | readVersion (k : Kind) (key : VersionKey) (t : Instant)
  | versionMap (k : Kind) (key : VersionKey)
  | hasVersionKey (key : VersionKey)
  | versionBoundaries (key : VersionKey)
  | clearVersions
  | versionStatus
  | putRequest (slot : Slot) (request : Request) (results : List slot.Result)
  | retrieveRequest (slot : Slot) (request : Request)
  | clearRequests
  | requestStatus

inductive Answer
  | done
  | entities (k : Kind) (es : List (Entity k))
  | entity? (k : Kind) (e : Option (Entity k))
  | times (ts : List Instant)
  | calls (cs : List Call)
  | count (n : Nat)
  | truth (b : Bool)
  | range (r : TimeRange)
  | versions? (k : Kind) (versions : Option (RangeMap (Entity k)))
  | results? (slot : Slot) (results : Option (List slot.Result))
  | status (size : Nat) (rate : Binary64)

namespace Operation

def onRepository (f : Repository → Repository) : Lookup Answer := do
  modify fun s => { s with repository := f s.repository }
  return .done

def onVersions (f : VersionCache → VersionCache) : Lookup Answer := do
  modify fun s => { s with versionCache := f s.versionCache }
  return .done

def onRequests (f : RequestCache → RequestCache) : Lookup Answer := do
  modify fun s => { s with requestCache := f s.requestCache }
  return .done

def observe (f : Stack → Answer) : Lookup Answer := return f (← get)

/-- What an operation does. -/
def lookup : Operation → Lookup Answer
  | store k es => do
    Source.store k es
    return .done
  | storeNetwork => do
    Sample.network.store
    return .done
  | findAt tier k ids t => return .entities k (← tier.findAt k ids t)
  | findWithin tier k ids start stop => return .entities k (← tier.findWithin k ids start stop)
  | findFaceted tier k ids t f => return .entities k (← tier.findFaceted k ids t f)
  | populate tier k e f t => return .entity? k (← Populate.entity tier.findAt t k f e)
  | changeTimes tier station start stop =>
    return .times (← tier.findChangeTimes station start stop)
  | warm ids start stop => do
    Cached.warm ids start stop
    return .done
  | fail e => onRepository ({ · with failure := some e })
  | recover => onRepository ({ · with failure := none })
  | clearCalls => onRepository ({ · with calls := [] })
  | calls => observe fun s => .calls s.repository.calls
  | callsFor k => observe fun s => .calls (s.repository.callsFor k)
  | versionCount k => observe fun s => .count (s.repository.versionCount k)
  | window => observe fun s => .range s.window
  | windowContains t => observe fun s => .truth (s.window.contains t)
  | setWindow range => do
    modify fun s => { s with window := range }
    return .done
  | putVersions _ key versions => onVersions (·.put key versions)
  | readVersion k key t => modifyGet fun s =>
    let (found, cache) := s.versionCache.read k key t
    (.entity? k found, { s with versionCache := cache })
  | versionMap k key => observe fun s => .versions? k (s.versionCache.rangeMap? k key)
  | hasVersionKey key => observe fun s => .truth (s.versionCache.hasKey key)
  | versionBoundaries key => observe fun s => .times (s.versionCache.boundaries key)
  | clearVersions => onVersions (·.clear)
  | versionStatus => observe fun s => .status s.versionCache.size s.versionCache.tally.rate
  | putRequest slot request results => onRequests (·.put slot request results)
  | retrieveRequest slot request => return .results? slot (← Memoised.retrieve slot request)
  | clearRequests => onRequests (·.clear)
  | requestStatus => observe fun s => .status s.requestCache.size s.requestCache.tally.rate

/-- The answer of an operation on a stack, and the stack it leaves. -/
def perform (op : Operation) (s : Stack) : Except CatalogError Answer × Stack := op.lookup.perform s

/-- The stack that operations leave one after another. -/
def run (ops : List Operation) (s : Stack) : Stack := ops.foldl (fun s op => (op.perform s).2) s

end Operation

end StationCatalog

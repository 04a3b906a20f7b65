import StationCatalog.Entity.Basic
import StationCatalog.Range.RangeMap
import StationCatalog.Request

/-!
The two caches of a stack, each with a count of how often it had the answer.

The version cache holds for each entity a map from ranges to the versions that hold there, and the
instants at which versions written there begin. Versions are kept with mere references for children.
The request cache holds whole results by request, in one slot per kind of result. Empty results are
not kept, and count as unanswered.
-/

namespace StationCatalog

/-- Counts of answered and unanswered lookups. -/
structure Tally where
  hits : UInt64
  misses : UInt64
deriving DecidableEq

namespace Tally

def empty : Tally := ⟨0, 0⟩

def count (t : Tally) (hit : Bool) : Tally :=
  if hit then { t with hits := t.hits + 1 } else { t with misses := t.misses + 1 }

/-- The share of lookups that were answered; zero before any lookup. -/
def rate (t : Tally) : Binary64 :=
  if t.hits + t.misses = 0 then .zero else .quotient t.hits (t.hits + t.misses)

end Tally

/-! ### Versions -/

/-- The key of an entity: its kind and the text of its identifier. -/
structure VersionKey where
  kind : Kind
  id : String
deriving DecidableEq

namespace VersionKey

def ofId {k : Kind} (id : EntityId k) : VersionKey := ⟨k, id.text⟩

/-- The name of the kind, followed by the identifier; two keys may share one text. -/
def text (key : VersionKey) : String := key.kind.name ++ key.id

/-- By kind, parents first, then by identifier. -/
def compare (a b : VersionKey) : Ordering :=
  (Ord.compare a.kind.rank b.kind.rank).then (Ord.compare a.id b.id)

end VersionKey

structure CachedHistory where
  versions : RangeMap AnyEntity
  boundaries : List Instant

/-- Cached histories by key, and how lookups of single versions fared. -/
structure VersionCache where
  entries : List (VersionKey × CachedHistory)
  tally : Tally

namespace CachedHistory

def empty : CachedHistory := ⟨.empty, []⟩

/-- Writes versions range by range; each lower end is a boundary from then on. -/
def put {k : Kind} (h : CachedHistory) (versions : RangeMap (Entity k)) : CachedHistory where
  versions := h.versions.putEntries (versions.entries.map fun e => (e.1, ⟨k, e.2⟩))
  boundaries := (versions.ranges.filterMap (·.lower.endpoint?)).foldl
    (fun bs b => Sorted.insert Ord.compare b bs) h.boundaries

end CachedHistory

namespace VersionCache

variable {k : Kind}

def empty : VersionCache := ⟨[], .empty⟩

def history? (c : VersionCache) (key : VersionKey) : Option CachedHistory :=
  (c.entries.find? (·.1 = key)).map (·.2)

def hasKey (c : VersionCache) (key : VersionKey) : Bool := (c.history? key).isSome

def alter (key : VersionKey) (f : CachedHistory → CachedHistory) :
    List (VersionKey × CachedHistory) → List (VersionKey × CachedHistory)
  | [] => [(key, f .empty)]
  | e :: rest => if e.1 = key then (key, f e.2) :: rest else e :: alter key f rest

/-- Writes versions under a key; nothing to write leaves no trace. -/
def put (c : VersionCache) (key : VersionKey) (versions : RangeMap (Entity k)) : VersionCache :=
  if versions.isEmpty then c else { c with entries := alter key (·.put versions) c.entries }

theorem find?_alter (key : VersionKey) (f : CachedHistory → CachedHistory)
    (es : List (VersionKey × CachedHistory)) :
    ((alter key f es).find? (·.1 = key)).map (·.2) =
      some (f (((es.find? (·.1 = key)).map (·.2)).getD .empty)) := by
  induction es with
  | nil => simp only [alter, List.find?_cons, decide_true, Option.map_some, List.find?_nil,
      Option.map_none, Option.getD_none]
  | cons e rest ih =>
    simp only [alter]
    split
    next h =>
      simp only [List.find?_cons, h, decide_true, Option.map_some, Option.getD_some]
    next h => simp only [List.find?_cons, h, decide_false, ih]

theorem find?_alter_of_ne {key key' : VersionKey} (h : key ≠ key')
    (f : CachedHistory → CachedHistory) (es : List (VersionKey × CachedHistory)) :
    (alter key f es).find? (·.1 = key') = es.find? (·.1 = key') := by
  induction es with
  | nil => simp only [alter, List.find?_cons, h, decide_false, List.find?_nil]
  | cons e rest ih =>
    simp only [alter]
    split
    next he => simp only [List.find?_cons, he, h, decide_false]
    next he => simp only [List.find?_cons, ih]

theorem history?_put (c : VersionCache) (key : VersionKey) {versions : RangeMap (Entity k)}
    (h : versions.isEmpty = false) :
    (c.put key versions).history? key = some (((c.history? key).getD .empty).put versions) := by
  simp only [put, h, Bool.false_eq_true, if_false, history?, find?_alter]

theorem history?_put_of_ne (c : VersionCache) {key key' : VersionKey} (hk : key ≠ key')
    (versions : RangeMap (Entity k)) : (c.put key versions).history? key' = c.history? key' := by
  unfold put
  split
  · rfl
  · simp only [history?, find?_alter_of_ne hk]

def find? (c : VersionCache) (k : Kind) (key : VersionKey) (t : Instant) : Option (Entity k) :=
  ((c.history? key).bind (·.versions.get? t)).bind (Entity.ofAny? k)

def read (c : VersionCache) (k : Kind) (key : VersionKey) (t : Instant) :
    Option (Entity k) × VersionCache :=
  let found := c.find? k key t
  (found, { c with tally := c.tally.count found.isSome })

/-- The cached versions of a kind under a key, if anything is cached there. -/
def rangeMap? (c : VersionCache) (k : Kind) (key : VersionKey) : Option (RangeMap (Entity k)) :=
  (c.history? key).map (·.versions.filterMap (Entity.ofAny? k))

/-- The instants at which versions written under a key begin, ascending. -/
def boundaries (c : VersionCache) (key : VersionKey) : List Instant :=
  ((c.history? key).map (·.boundaries)).getD []

/-- Forgets every version; the count of lookups goes on. -/
def clear (c : VersionCache) : VersionCache := { c with entries := [] }

def size (c : VersionCache) : Nat := c.entries.length

/-- What is cached of a fetched entity: a populated version whose validity touches the window. -/
def cacheable? (window : TimeRange) : Entity k → Option (TimeRange × Entity k)
  | .populated id validity data =>
    if window.touches validity.range then
      some (validity.range, (Entity.populated id validity data).demote)
    else none
  | _ => none

/-- Caches fetched entities, each identifier's versions in the order they came. -/
def keep (c : VersionCache) (window : TimeRange) (es : List (Entity k)) : VersionCache :=
  let kept := es.filterMap (cacheable? window)
  (EntityId.distinct (kept.map (·.2.id))).foldl
    (fun c id => c.put (.ofId id) (.ofList (kept.filter (·.2.id = id)))) c

end VersionCache

/-! ### Requests -/

/-- What the results of a request are: entities of a kind, or the change times of a station. -/
inductive Slot
  | entities (k : Kind)
  | changeTimes
deriving DecidableEq

abbrev Slot.Result : Slot → Type
  | entities k => Entity k
  | changeTimes => Instant

structure Memo where
  slot : Slot
  request : Request
  results : List slot.Result

/-- The remembered results, and how lookups of them fared. -/
structure RequestCache where
  memos : List Memo
  tally : Tally

namespace RequestCache

def empty : RequestCache := ⟨[], .empty⟩

def resultsOf (slot : Slot) (request : Request) : List Memo → List slot.Result
  | [] => []
  | m :: rest =>
    if h : m.slot = slot then
      if m.request = request then h ▸ m.results else resultsOf slot request rest
    else resultsOf slot request rest

def retrieve (c : RequestCache) (slot : Slot) (request : Request) :
    Option (List slot.Result) × RequestCache :=
  let results := resultsOf slot request c.memos
  (if results.isEmpty then none else some results,
    { c with tally := c.tally.count !results.isEmpty })

/-- Remembers results, in the place of what was remembered for the same request. -/
def put (c : RequestCache) (slot : Slot) (request : Request) (results : List slot.Result) :
    RequestCache :=
  if results.isEmpty then c
  else
    let others := c.memos.filter fun m => !(m.slot = slot && m.request = request)
    { c with memos := ⟨slot, request, results⟩ :: others }

/-- What is remembered for a request is what was put last. -/
theorem resultsOf_put (c : RequestCache) (slot : Slot) (request : Request)
    {results : List slot.Result} (h : results ≠ []) :
    resultsOf slot request (c.put slot request results).memos = results := by
  simp only [put, List.isEmpty_iff, h, if_false, resultsOf, dif_pos, if_true]

/-- Forgets every result; the count of lookups goes on. -/
def clear (c : RequestCache) : RequestCache := { c with memos := [] }

def size (c : RequestCache) : Nat := c.memos.length

end RequestCache

end StationCatalog

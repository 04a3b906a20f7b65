import StationCatalog.Proofs.Runs
import StationCatalog.Proofs.Validity

/-!
Lookups that succeed. Over a working repository whose content is orderly, and with a cache drawn
from that content, lookups of named entities find what a predicate says, and the stack stays so.
-/

namespace StationCatalog

open Lookup

variable {k : Kind}

namespace Repository

/-- A content in which each version is populated and holds at some instant, no two versions of one
entity hold at once, and each populated response that a channel carries is stored. -/
structure Orderly (r : Repository) : Prop where
  populated : ∀ k, ∀ e ∈ r.versions k, e.isPopulated = true
  nonempty : ∀ k, ∀ e ∈ r.versions k, ∃ t, e.holdsAt t = true
  disjoint : ∀ k, ∀ a ∈ r.versions k, ∀ b ∈ r.versions k, a.id = b.id →
    ∀ t, a.holdsAt t = true → b.holdsAt t = true → a = b
  carried : ∀ c ∈ r.versions .channel, ∀ e ∈ c.response?, e.isPopulated = true →
    e ∈ r.versions .response

/-- A content in which each version is populated and holds at some instant, and no two versions of
one entity hold at once. -/
structure Consistent (r : Repository) : Prop where
  populated : ∀ k, ∀ e ∈ r.versions k, e.isPopulated = true
  nonempty : ∀ k, ∀ e ∈ r.versions k, ∃ t, e.holdsAt t = true
  disjoint : ∀ k, ∀ a ∈ r.versions k, ∀ b ∈ r.versions k, a.id = b.id →
    ∀ t, a.holdsAt t = true → b.holdsAt t = true → a = b

/-- The stored version of an entity at an instant. -/
def versionAt? (r : Repository) (id : EntityId k) (t : Instant) : Option (Entity k) :=
  (r.history id).find? (·.holdsAt t)

variable {r : Repository}

theorem versionAt?_some {id : EntityId k} {t : Instant} {v : Entity k}
    (h : r.versionAt? id t = some v) : v ∈ r.versions k ∧ v.id = id ∧ v.holdsAt t = true := by
  obtain ⟨hv, hid⟩ := List.mem_filter.1 (List.mem_of_find?_eq_some h)
  have holds : v.holdsAt t = true := by simpa only using List.find?_some h
  exact ⟨hv, of_decide_eq_true hid, holds⟩

theorem Orderly.consistent (hr : r.Orderly) : r.Consistent :=
  ⟨hr.populated, hr.nonempty, hr.disjoint⟩

theorem Consistent.versionAt?_eq (hr : r.Consistent) {t : Instant} {v : Entity k}
    (hv : v ∈ r.versions k) (ht : v.holdsAt t = true) : r.versionAt? v.id t = some v := by
  have own : v ∈ r.history v.id := List.mem_filter.2 ⟨hv, decide_eq_true rfl⟩
  cases h : r.versionAt? v.id t with
  | none => exact absurd ht (List.find?_eq_none.1 h v own)
  | some u =>
      obtain ⟨hu, hid, hut⟩ := versionAt?_some h
      rw [hr.disjoint k u hu v hv hid t hut ht]

theorem Consistent.exists_start (hr : r.Consistent) {e : Entity k} (he : e ∈ r.versions k) :
    ∃ t, e.start? = some t := by
  obtain ⟨u, hu⟩ := hr.nonempty k e he
  obtain ⟨⟨t, ht, -⟩, -⟩ := Entity.holdsAt_iff.1 hu
  exact ⟨t, ht⟩

theorem Consistent.holdsAt_start (hr : r.Consistent) {e : Entity k} (he : e ∈ r.versions k)
    {t : Instant} (hs : e.start? = some t) : e.holdsAt t = true := by
  obtain ⟨u, hu⟩ := hr.nonempty k e he
  obtain ⟨⟨s, hs', started⟩, stops⟩ := Entity.holdsAt_iff.1 hu
  obtain rfl := Option.some.inj (hs.symm.trans hs')
  exact Entity.holdsAt_iff.2
    ⟨⟨t, hs, Int.le_refl _⟩, fun u hstop => Int.lt_of_le_of_lt started (stops u hstop)⟩

/-- A version of a consistent content is known by its entity and its start. -/
theorem Consistent.eq_of_version (hr : r.Consistent) {a b : Entity k} (ha : a ∈ r.versions k)
    (hb : b ∈ r.versions k) (h : a.version = b.version) : a = b := by
  have hid : a.id = b.id := congrArg Prod.fst h
  have hstart : a.start? = b.start? := congrArg Prod.snd h
  obtain ⟨t, hs⟩ := hr.exists_start ha
  have holds := hr.holdsAt_start ha hs
  exact hr.disjoint k a ha b hb hid t holds (hr.holdsAt_start hb (hstart ▸ hs))

theorem Consistent.exists_holdsAt (hr : r.Consistent) {v : Entity k} (hv : v ∈ r.versions k)
    {start stop : Instant} (ordered : start ≤ stop) (h : v.holdsWithin start stop = true) :
    ∃ t, v.holdsAt t = true ∧ start ≤ t ∧ t ≤ stop := by
  obtain ⟨⟨s, hs, hstop⟩, hu⟩ := Entity.holdsWithin_iff.1 h
  by_cases later : start ≤ s
  · exact ⟨s, hr.holdsAt_start hv hs, later, hstop⟩
  · have earlier : s ≤ start := Int.le_of_lt (Int.not_le.1 later)
    exact ⟨start, Entity.holdsAt_iff.2 ⟨⟨s, hs, earlier⟩, hu⟩, Int.le_refl _, ordered⟩

theorem Orderly.within (hr : r.Orderly) {r' : Repository} (h : r'.versions = r.versions) :
    r'.Within fun k e => e ∈ r.versions k where
  stored := by
    intro k e he _
    rw [← h]
    exact he
  carried := by
    rw [h]
    exact hr.carried

end Repository

namespace Sample

/-- A working repository that holds a network. -/
def Network.repository (n : Network) : Repository where
  versions
    | .stationGroup => [n.stationGroup]
    | .station => [n.station]
    | .channelGroup => [n.channelGroup]
    | .channel => n.channels
    | .response => [n.response]
  calls := []
  failure := none

theorem Network.orderly_repository {n : Network}
    (holds : ∀ k, (n.repository.versions k).all fun e =>
      e.isPopulated && e.start?.any (e.holdsAt ·))
    (disjoint : ∀ a ∈ n.channels, ∀ b ∈ n.channels, a.id = b.id → ∀ t, a.holdsAt t = true →
      b.holdsAt t = true → a = b)
    (carried : ∀ c ∈ n.channels, ∀ e ∈ c.response?, e = n.response) : n.repository.Orderly where
  populated := by
    intro k e he
    exact (Bool.and_eq_true_iff.1 (List.all_eq_true.1 (holds k) e he)).1
  nonempty := by
    intro k e he
    have started := (Bool.and_eq_true_iff.1 (List.all_eq_true.1 (holds k) e he)).2
    obtain ⟨t, -, ht⟩ := (Option.any_eq_true _ _).1 started
    exact ⟨t, ht⟩
  disjoint := by
    intro k a ha b hb same t hat hbt
    cases k with
    | channel => exact disjoint a ha b hb same t hat hbt
    | stationGroup | station | channelGroup | response =>
        rw [List.mem_singleton.1 ha, List.mem_singleton.1 hb]
  carried := fun c hc e he _ => List.mem_singleton.2 (carried c hc e he)

theorem orderly_network : network.repository.Orderly := by
  apply Network.orderly_repository
  · intro k
    cases k <;> rfl
  · intro a ha b hb _ t hat hbt
    have early : ∀ {v : Entity .channel}, v.stop? = some change → v.holdsAt t = true →
        t < change := fun h holds => (Entity.holdsAt_iff.1 holds).2 change h
    have late : ∀ {v : Entity .channel}, v.start? = some change → v.holdsAt t = true →
        ¬t < change := by
      intro v h holds
      obtain ⟨⟨s, hs, hle⟩, -⟩ := Entity.holdsAt_iff.1 holds
      obtain rfl := Option.some.inj (h.symm.trans hs)
      exact Int.not_lt.2 hle
    rcases List.mem_pair.1 ha with rfl | rfl <;> rcases List.mem_pair.1 hb with rfl | rfl
    · rfl
    · exact absurd (early rfl hat) (late rfl hbt)
    · exact absurd (early rfl hbt) (late rfl hat)
    · rfl
  · intro c hc e he
    rcases List.mem_pair.1 hc with rfl | rfl
    · exact (Option.some.inj he).symm
    · exact (Option.some.inj he).symm

end Sample

/-- A stack whose repository works and has this content. -/
structure Stack.Serving (r : Repository) (w : TimeRange) (s : Stack) : Prop where
  versions : s.repository.versions = r.versions
  working : s.repository.failure = none
  window : s.window = w

/-- A property of serving stacks that lookups of a kind keep. -/
structure Stack.Served (r : Repository) (w : TimeRange) (k : Kind) (P : Stack → Prop) : Prop where
  serving : ∀ s, P s → s.Serving r w
  effect : ∀ s s', P s → Effect k s s' → P s'

/-- And what is cached of the kind is stored. -/
structure Stack.Grounded (r : Repository) (w : TimeRange) (k : Kind) (P : Stack → Prop) : Prop
    extends Served r w k P where
  drawn : ∀ s, P s → s.versionCache.DrawnFrom fun j e => j = k → e ∈ r.versions j

/-- A stack whose repository works and has this content, and whose cache is drawn from it. -/
structure Stack.Faithful (r : Repository) (w : TimeRange) (s : Stack) : Prop where
  versions : s.repository.versions = r.versions
  working : s.repository.failure = none
  window : s.window = w
  drawn : s.versionCache.DrawnFrom fun k e => e ∈ r.versions k

/-- A property of faithful stacks that lookups of a kind keep. -/
structure Stack.Kept (r : Repository) (w : TimeRange) (k : Kind) (P : Stack → Prop) : Prop where
  faithful : ∀ s, P s → s.Faithful r w
  effect : ∀ s s', P s → Effect k s s' → P s'

theorem Stack.Faithful.serving {r : Repository} {w : TimeRange} {s : Stack} (h : s.Faithful r w) :
    s.Serving r w := ⟨h.versions, h.working, h.window⟩

theorem Stack.Kept.grounded {r : Repository} {w : TimeRange} {P : Stack → Prop}
    (hP : Kept r w k P) : Grounded r w k P where
  serving := fun s hs => (hP.faithful s hs).serving
  effect := hP.effect
  drawn := fun s hs => (hP.faithful s hs).drawn.mono fun _ _ stored _ => stored

theorem Stack.kept_faithful {r : Repository} (hr : r.Orderly) (w : TimeRange) (k : Kind) :
    Kept r w k (Faithful r w) where
  faithful := fun _ h => h
  effect := by
    intro s s' h step
    exact ⟨step.versions_eq.trans h.versions, step.failure_eq.trans h.working,
      step.window_eq.trans h.window, step.drawn (hr.within h.versions) h.drawn⟩

namespace Lookup

variable {α β : Type} {P P' P'' : Stack → Prop}

/-- From any stack with `P` the lookup succeeds with a result that satisfies `Q`, and the stack it
leaves has `P'`. -/
def Leads (P : Stack → Prop) (x : Lookup α) (Q : α → Prop) (P' : Stack → Prop) : Prop :=
  ∀ s, P s → ∃ a, (x.perform s).1 = .ok a ∧ Q a ∧ P' (x.perform s).2

/-- The lookup succeeds with a result that satisfies `Q`, and `P` stays. -/
abbrev Finds (P : Stack → Prop) (x : Lookup α) (Q : α → Prop) : Prop := Leads P x Q P

theorem Leads.pure {Q : α → Prop} {a : α} (h : Q a) : Finds P (pure a) Q :=
  fun _ hs => ⟨a, rfl, h, hs⟩

theorem Leads.bind {x : Lookup α} {f : α → Lookup β} {Q : α → Prop} {Q' : β → Prop}
    (hx : Leads P x Q P') (hf : ∀ a, Q a → Leads P' (f a) Q' P'') :
    Leads P (x >>= f) Q' P'' := by
  intro s hs
  obtain ⟨a, ha, hQ, hP'⟩ := hx s hs
  rw [perform_bind]
  rcases h : x.perform s with ⟨_ | b, s'⟩ <;> rw [h] at ha hP'
  · cases ha
  · cases ha
    exact hf a hQ s' hP'

theorem Leads.mono {x : Lookup α} {Q Q' : α → Prop} (hx : Leads P x Q P')
    (h : ∀ a, Q a → Q' a) : Leads P x Q' P' := by
  intro s hs
  obtain ⟨a, ha, hQ, hP'⟩ := hx s hs
  exact ⟨a, ha, h a hQ, hP'⟩

theorem Leads.weaken {x : Lookup α} {Q : α → Prop} (hx : Leads P' x Q P'') (h : ∀ s, P s → P' s) :
    Leads P x Q P'' := fun s hs => hx s (h s hs)

theorem Leads.map {x : Lookup α} {Q : α → Prop} {Q' : β → Prop} {g : α → β}
    (hx : Leads P x Q P') (h : ∀ a, Q a → Q' (g a)) : Leads P (g <$> x) Q' P' := by
  rw [← bind_pure_comp]
  exact hx.bind fun a ha => .pure (h a ha)

theorem Leads.get_bind {f : Stack → Lookup α} {Q : α → Prop}
    (h : ∀ s, P s → Leads P (f s) Q P') : Leads P (get >>= f) Q P' := by
  intro s hs
  rw [perform_bind, perform_get]
  exact h s hs s hs

/-- The outcomes of looking up each of `as`: one of each, and nothing else among `bs`. -/
structure Outcomes (Q : α → Option β → Prop) (as : List α) (bs : List β) : Prop where
  sound : ∀ b ∈ bs, ∃ a ∈ as, Q a (some b)
  complete : ∀ a ∈ as, ∃ o, Q a o ∧ ∀ b ∈ o, b ∈ bs

/-- Looking up one element after another, where each lookup may change what is told of the elements
that it leaves. -/
theorem Leads.gather_left {P : List α → Stack → Prop} {f : α → Lookup (List β)}
    {Q : α → List β → Prop} {as : List α}
    (h : ∀ a left, a :: left <:+ as → Leads (P (a :: left)) (f a) (Q a) (P left)) :
    Leads (P as) (gather f as)
      (fun bs => ∃ css : List (List β), css.flatten = bs ∧ (∀ cs ∈ css, ∃ a ∈ as, Q a cs) ∧
        ∀ a ∈ as, ∃ cs ∈ css, Q a cs) (P []) := by
  induction as with
  | nil =>
      refine .pure ⟨[], rfl, ?_, ?_⟩
      · exact fun _ h => absurd h List.not_mem_nil
      · exact fun _ h => absurd h List.not_mem_nil
  | cons a as ih =>
      have others := ih fun b left hsuf => h b left (hsuf.trans (List.suffix_cons a as))
      refine (h a as (List.suffix_refl _)).bind fun found hfound => others.bind ?_
      rintro _ ⟨css, rfl, sound, complete⟩
      refine .pure ⟨found :: css, rfl, ?_, ?_⟩
      · intro cs hcs
        rcases List.mem_cons.1 hcs with rfl | hcs
        · exact ⟨a, List.mem_cons_self, hfound⟩
        · obtain ⟨b, hb, hQ⟩ := sound cs hcs
          exact ⟨b, List.mem_cons_of_mem a hb, hQ⟩
      · intro b hb
        rcases List.mem_cons.1 hb with rfl | hb
        · exact ⟨found, List.mem_cons_self, hfound⟩
        · obtain ⟨cs, hcs, hQ⟩ := complete b hb
          exact ⟨cs, List.mem_cons_of_mem found hcs, hQ⟩

/-- What is gathered is exactly what is found for each element. -/
theorem Leads.gather {f : α → Lookup (List β)} {Q : α → List β → Prop} {as : List α}
    (h : ∀ a ∈ as, Finds P (f a) (Q a)) :
    Finds P (gather f as) fun bs =>
      (∀ b ∈ bs, ∃ a ∈ as, ∃ cs, Q a cs ∧ b ∈ cs) ∧ ∀ a ∈ as, ∃ cs, Q a cs ∧ cs ⊆ bs := by
  have each : ∀ a left, a :: left <:+ as → Finds P (f a) (Q a) :=
    fun a left hsuf => h a (hsuf.subset List.mem_cons_self)
  apply (Leads.gather_left (P := fun _ => P) each).mono
  rintro _ ⟨css, rfl, sound, complete⟩
  constructor
  · intro b hb
    obtain ⟨cs, hcs, hbcs⟩ := List.mem_flatten.1 hb
    obtain ⟨a, ha, hQ⟩ := sound cs hcs
    exact ⟨a, ha, cs, hQ, hbcs⟩
  · intro a ha
    obtain ⟨cs, hcs, hQ⟩ := complete a ha
    exact ⟨cs, hQ, fun _ hb => List.mem_flatten.2 ⟨cs, hcs, hb⟩⟩

theorem Leads.collect {f : α → Lookup (Option β)} {Q : α → Option β → Prop} {as : List α}
    (h : ∀ a ∈ as, Finds P (f a) (Q a)) :
    Finds P (collect f as) (Outcomes Q as) := by
  have each : ∀ a ∈ as, Finds P (Option.toList <$> f a) fun cs => ∃ o, Q a o ∧ o.toList = cs :=
    fun a ha => (h a ha).map fun o ho => ⟨o, ho, rfl⟩
  apply (Leads.gather each).mono
  rintro bs ⟨sound, complete⟩
  constructor
  · intro b hb
    obtain ⟨a, ha, _, ⟨o, ho, rfl⟩, hbo⟩ := sound b hb
    exact ⟨a, ha, Option.mem_toList.1 hbo ▸ ho⟩
  · intro a ha
    obtain ⟨_, ⟨o, ho, rfl⟩, hsub⟩ := complete a ha
    exact ⟨o, ho, fun b hb => hsub (Option.mem_toList.2 hb)⟩

theorem Leads.requireNames {field : String} {names : List String}
    (h : ∀ name ∈ names, isBlank name = false) :
    Finds P (requireNames field names) fun _ => True := by
  have named : names.any isBlank = false := by
    rw [List.any_eq_false]
    intro name hname
    rw [h name hname]
    exact Bool.false_ne_true
  rw [Lookup.requireNames, named]
  exact .pure trivial

/-- No identifier is a blank name; a response has no name. -/
def Named (ids : List (EntityId k)) : Prop :=
  (namesField? k).isSome = true → ∀ id ∈ ids, isBlank id.text = false

theorem named_responses (ids : List (EntityId .response)) : Named ids := fun h => nomatch h

theorem Leads.requireIds {ids : List (EntityId k)} (h : Named ids) :
    Finds P (requireIds ids) fun _ => True := by
  unfold Lookup.requireIds
  split
  next named =>
    refine .requireNames ?_
    intro name hname
    obtain ⟨id, hid, rfl⟩ := List.mem_map.1 hname
    exact h (Option.isSome_iff_exists.2 ⟨_, named⟩) id hid
  next => exact .pure trivial

theorem Leads.requireOrder {start stop : Instant} (h : start ≤ stop) :
    Finds P (requireOrder start stop) fun _ => True := by
  have ordered : ¬stop < start := Int.not_lt.2 h
  rw [Lookup.requireOrder, if_neg ordered]
  exact .pure trivial

end Lookup

section

variable {r : Repository} {w : TimeRange} {P : Stack → Prop}

theorem Source.finds_findAt (hP : Stack.Served r w k P) (ids : List (EntityId k)) (t : Instant) :
    Finds P (findAt k ids t) fun es => es = ids.filterMap (r.versionAt? · t) := by
  intro s hs
  have serving := hP.serving s hs
  rw [perform_findAt, serving.working]
  refine ⟨_, rfl, ?_, hP.effect _ _ hs (.call s ids _)⟩
  simp only [Repository.versionsAt, Repository.history, Repository.versionAt?, serving.versions]

theorem Source.finds_findWithin (hP : Stack.Served r w k P) (ids : List (EntityId k))
    (start stop : Instant) :
    Finds P (findWithin k ids start stop) fun es => es = r.versionsWithin ids start stop := by
  intro s hs
  have serving := hP.serving s hs
  rw [perform_findWithin, serving.working]
  refine ⟨_, rfl, ?_, hP.effect _ _ hs (.call s ids _)⟩
  simp only [Repository.versionsWithin, Repository.history, serving.versions]

namespace Cached

theorem finds_keep (hP : Stack.Served r w k P) {es : List (Entity k)}
    (hes : ∀ e ∈ es, e ∈ r.versions k) : Finds P (keep w es) fun _ => True := by
  intro s hs
  obtain ⟨versions, working, rfl⟩ := hP.serving s hs
  rw [perform_keep]
  exact ⟨(), rfl, trivial, hP.effect _ _ hs (.keep s es (versions ▸ hes) working)⟩

theorem finds_fetchAt (hP : Stack.Served r w k P) (ids : List (EntityId k)) (t : Instant) :
    Finds P (fetchAt w k ids t) fun es => es = ids.filterMap (r.versionAt? · t) := by
  apply (Source.finds_findAt hP ids t).bind
  rintro _ rfl
  split
  · refine (finds_keep hP ?_).bind fun _ _ => .pure rfl
    intro e he
    obtain ⟨id, -, h⟩ := List.mem_filterMap.1 he
    exact (Repository.versionAt?_some h).1
  · exact .pure rfl

theorem finds_fetchWithin (hP : Stack.Served r w k P) (ids : List (EntityId k))
    (start stop : Instant) :
    Finds P (fetchWithin w k ids start stop) fun es => es = r.versionsWithin ids start stop := by
  apply (Source.finds_findWithin hP ids start stop).bind
  rintro _ rfl
  exact (finds_keep hP fun _ he => (Source.mem_versionsWithin.1 he).1).bind fun _ _ => .pure rfl

/-- What is recalled at an instant is the version of that instant, in the form it is cached in. -/
theorem finds_recallAt {id : EntityId k} {t : Instant} (hread : ∀ s, P s →
      P { s with versionCache := (s.versionCache.read k (.ofId id) t).2 }) :
    Finds P (recallAt k id t) fun o => ∃ s, P s ∧ s.versionCache.find? k (.ofId id) t = o := by
  intro s hs
  rw [perform_recallAt]
  refine ⟨_, rfl, ⟨s, hs, rfl⟩, ?_⟩
  split
  · exact hread s hs
  · exact hs

end Cached

/-- A cached version at an instant is the stored one, cut down. -/
theorem Stack.Grounded.find? (hP : Stack.Grounded r w k P) {s : Stack} (hs : P s)
    {id : EntityId k} {t : Instant} {e : Entity k}
    (h : s.versionCache.find? k (.ofId id) t = some e) :
    ∃ v ∈ r.versions k, v.id = id ∧ v.holdsAt t = true ∧ e = v.demote := by
  obtain ⟨validity, data, stored, he, holds⟩ := (hP.drawn s hs).find? h
  exact ⟨_, stored rfl, rfl, (Entity.holdsAt_populated id validity data t).trans holds, he⟩

end

/-- A run without stores over an orderly content ends, while the repository works, in a faithful
stack. -/
theorem Operation.run_faithful {r : Repository} (hr : r.Orderly) {ops : List Operation}
    (hops : ∀ op ∈ ops, op.isStore = false ∧ op.isCacheWrite = false) {w : TimeRange}
    (working : (run ops (.over r w)).repository.failure = none) :
    (run ops (.over r w)).Faithful r (run ops (.over r w)).window := by
  have within : (Stack.over r w).repository.Within fun k e => e ∈ r.versions k := hr.within rfl
  obtain ⟨versions, drawn⟩ := run_drawn hops within .empty
  exact ⟨versions, working, rfl, drawn⟩

end StationCatalog

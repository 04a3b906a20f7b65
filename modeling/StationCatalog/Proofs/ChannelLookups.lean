import StationCatalog.Proofs.PointAnswers

/-!
Lookups of channels at an instant. A fetched channel whose response has no version then keeps the
response it came with; one from the cache has only a reference left to keep. So the answers depend
on what is cached, and they do so for just the channels whose response has lapsed.
-/

namespace StationCatalog

open Lookup

/-- The response that a channel came with, more than a mere reference, has no version at the
instant. -/
def Repository.Lapsed (r : Repository) (t : Instant) (c : Entity .channel) : Prop :=
  ∃ e, c.response? = some e ∧ e.isReference = false ∧
    ∀ x ∈ r.versions .response, x.id = e.id → x.holdsAt t = false

/-- The cache answers for a channel at an instant. -/
def Stack.recalls (s : Stack) (t : Instant) (id : EntityId .channel) : Bool :=
  s.window.contains t && (s.versionCache.find? .channel (.ofId id) t).isSome

theorem Repository.versionAt?_eq_none_iff {k : Kind} {r : Repository} {id : EntityId k}
    {t : Instant} :
    r.versionAt? id t = none ↔ ∀ v ∈ r.versions k, v.id = id → v.holdsAt t = false := by
  simp only [versionAt?, history, List.find?_eq_none, List.mem_filter, decide_eq_true_eq,
    Bool.not_eq_true, and_imp]

namespace Cached

variable {r : Repository} {t : Instant}

theorem id_channelAnswer (e : Entity .channel) : (channelAnswer r t e).id = e.id := by
  unfold channelAnswer
  split
  · exact Entity.id_withResponse e _
  · rfl

/-- Whatever response a channel is answered with, it is the same response. -/
theorem demote_channelAnswer (e : Entity .channel) : (channelAnswer r t e).demote = e.demote := by
  unfold channelAnswer
  split
  next found h =>
    obtain ⟨response, carried, h⟩ := Option.bind_eq_some_iff.1 h
    obtain ⟨-, hid, -⟩ := Repository.versionAt?_some h
    match e with
    | .reference _ | .versionReference .. => cases carried
    | .populated _ _ (.channel _ _ _ _ instrument) =>
        obtain rfl : instrument = some response := carried
        simp only [Entity.withResponse, Entity.demote, EntityData.demote, Option.map_some,
          Entity.toReference, hid]
  next => rfl

/-- Of the two forms of a channel, one makes no difference unless its response has lapsed. -/
theorem channelAnswer_demote_eq_iff {v : Entity .channel}
    (owned : ∀ owner ∈ v.owner?, owner.isReference = true) :
    channelAnswer r t v.demote = channelAnswer r t v ↔ ¬r.Lapsed t v := by
  match v with
  | .reference _ | .versionReference .. =>
      apply iff_of_true rfl
      rintro ⟨e, he, -⟩
      cases he
  | .populated id validity (.channel description owner units sampleRate none) =>
      have bare : owner.toReference = owner := Entity.toReference_of_isReference (owned owner rfl)
      apply iff_of_true
      · simp only [Entity.demote, EntityData.demote, bare, Option.map_none]
      · rintro ⟨e, he, -⟩
        cases he
  | .populated id validity (.channel description owner units sampleRate (some response)) =>
      have bare : owner.toReference = owner := Entity.toReference_of_isReference (owned owner rfl)
      simp only [channelAnswer, Entity.demote, EntityData.demote, bare, Option.map_some,
        Entity.response?, Option.bind_some, Entity.id_toReference, Repository.Lapsed,
        Option.some.injEq, exists_eq_left', ← Repository.versionAt?_eq_none_iff]
      cases h : r.versionAt? response.id t with
      | some found => simp only [Entity.withResponse, reduceCtorEq, and_false, not_false_eq_true]
      | none =>
          simp only [Entity.populated.injEq, EntityData.channel.injEq, Option.some.injEq, true_and,
            and_true, Bool.not_eq_false]
          constructor
          · intro same
            rw [← same]
            rfl
          · exact Entity.toReference_of_isReference

/-- What is answered for a channel, given which channels the cache answers for. -/
def channelForm (r : Repository) (t : Instant) (recalled : EntityId .channel → Bool)
    (id : EntityId .channel) : Option (Entity .channel) :=
  (r.versionAt? id t).map fun v => channelAnswer r t (if recalled id then v.demote else v)

theorem id_of_channelForm {recalled : EntityId .channel → Bool} {id : EntityId .channel}
    {x : Entity .channel} (h : channelForm r t recalled id = some x) : x.id = id := by
  obtain ⟨v, hv, rfl⟩ := Option.map_eq_some_iff.1 h
  obtain ⟨-, rfl, -⟩ := Repository.versionAt?_some hv
  rw [id_channelAnswer]
  split
  · exact Entity.id_demote v
  · rfl

/-- What is answered for channels, given which of them the cache answers for. -/
def channelForms (r : Repository) (t : Instant) (recalled : EntityId .channel → Bool)
    (ids : List (EntityId .channel)) : List (Entity .channel) :=
  Entity.distinctVersions ((EntityId.distinct ids).filterMap (channelForm r t recalled))

theorem map_demote_channelForms (recalled : EntityId .channel → Bool)
    (ids : List (EntityId .channel)) :
    (channelForms r t recalled ids).map Entity.demote =
      answersAt r (fun v => some v.demote) ids t := by
  have form : ∀ id, (channelForm r t recalled id).map Entity.demote =
      (r.versionAt? id t).bind fun v => some v.demote := by
    intro id
    cases h : r.versionAt? id t with
    | none => simp only [channelForm, h, Option.map_none, Option.bind_none]
    | some v =>
        simp only [channelForm, h, Option.map_some, Option.bind_some, demote_channelAnswer]
        split
        · rw [Entity.demote_demote]
        · rfl
  have own : ∀ (id : EntityId .channel) (x : Entity .channel),
      ((r.versionAt? id t).bind fun v => some v.demote) = some x → x.id = id := by
    intro id x h
    rw [← form id, Option.map_eq_some_iff] at h
    obtain ⟨y, hy, rfl⟩ := h
    rw [Entity.id_demote, id_of_channelForm hy]
  apply Entity.map_distinctVersions_eq Entity.version_demote
  · intro x
    rw [List.map_filterMap, List.mem_filterMap, List.mem_filterMap]
    simp only [form]
  · intro a ha b hb hversion
    obtain ⟨i, -, ha⟩ := List.mem_filterMap.1 ha
    obtain ⟨j, -, hb⟩ := List.mem_filterMap.1 hb
    have same : i = j := by
      rw [← own i a ha, ← own j b hb]
      exact congrArg Prod.fst hversion
    rw [same, hb] at ha
    exact (Option.some.inj ha).symm

/-- Answers agree when the cache answers, or does not, for the same channels of lapsed responses. -/
theorem channelForms_eq_iff (hr : r.Orderly)
    (owned : ∀ c ∈ r.versions .channel, ∀ owner ∈ c.owner?, owner.isReference = true)
    (recalled recalled' : EntityId .channel → Bool) (ids : List (EntityId .channel)) :
    channelForms r t recalled ids = channelForms r t recalled' ids ↔
      ∀ c ∈ r.versions .channel, c.id ∈ ids → c.holdsAt t = true → r.Lapsed t c →
        recalled c.id = recalled' c.id := by
  have stored : ∀ {c}, c ∈ r.versions .channel → c.holdsAt t = true → ∀ ρ,
      channelForm r t ρ c.id = some (channelAnswer r t (if ρ c.id then c.demote else c)) := by
    intro c hc holds ρ
    rw [channelForm, hr.consistent.versionAt?_eq hc holds, Option.map_some]
  constructor
  · intro same c hc hid holds lapsed
    have differ := mt (channelAnswer_demote_eq_iff (owned c hc)).1 (not_not_intro lapsed)
    have first : channelAnswer r t (if recalled c.id then c.demote else c) ∈
        channelForms r t recalled ids :=
      (mem_distinctVersions_filterMap fun _ _ => id_of_channelForm).2
        ⟨c.id, hid, stored hc holds recalled⟩
    rw [same] at first
    obtain ⟨id, -, h⟩ := (mem_distinctVersions_filterMap fun _ _ => id_of_channelForm).1 first
    have own : id = c.id :=
      (id_of_channelForm h).symm.trans (id_of_channelForm (stored hc holds recalled))
    rw [own, stored hc holds recalled'] at h
    have equal := Option.some.inj h
    cases hfirst : recalled c.id <;> cases hsecond : recalled' c.id
    · rfl
    · simp only [hfirst, hsecond, if_true, Bool.false_eq_true, if_false] at equal
      exact absurd equal differ
    · simp only [hfirst, hsecond, if_true, Bool.false_eq_true, if_false] at equal
      exact absurd equal.symm differ
    · rfl
  · intro agree
    refine congrArg Entity.distinctVersions (List.filterMap_congr ?_)
    intro id hid
    cases h : r.versionAt? id t with
    | none => simp only [channelForm, h, Option.map_none]
    | some c =>
        obtain ⟨hc, rfl, holds⟩ := Repository.versionAt?_some h
        rw [stored hc holds, stored hc holds]
        by_cases lapsed : r.Lapsed t c
        · rw [agree c hc (EntityId.mem_distinct.1 hid) holds lapsed]
        · have same := (channelAnswer_demote_eq_iff (owned c hc)).2 lapsed
          cases recalled c.id <;> cases recalled' c.id <;>
            simp only [if_true, Bool.false_eq_true, if_false, same]

/-- A faithful stack whose cache answers for channels as that of `s` does. -/
def RecallsAs (r : Repository) (w : TimeRange) (t : Instant) (s s' : Stack) : Prop :=
  s'.Faithful r w ∧ ∀ id : EntityId .channel,
    s'.versionCache.find? .channel (.ofId id) t = s.versionCache.find? .channel (.ofId id) t

/-- Lookups of responses do not change what the cache answers of channels. -/
theorem kept_recallsAs (hr : r.Orderly) (w : TimeRange) (s : Stack) :
    Stack.Kept r w .response (RecallsAs r w t s) where
  faithful := fun _ h => h.1
  effect := by
    rintro s₁ s₂ ⟨faithful, same⟩ effect
    refine ⟨(Stack.kept_faithful hr w .response).effect s₁ s₂ faithful effect, ?_⟩
    intro id
    rw [← same id]
    cases effect with
    | call ids time => rfl
    | read id t => rfl
    | keep es stored working =>
        have other : (VersionKey.ofId id).kind ≠ .response := nofun
        simp only [VersionCache.find?, VersionCache.history?_keep_of_ne _ _ _ other]

/-- Over a faithful stack, a lookup of channels finds each in the form it is cached or stored in. -/
theorem leads_channelsAt (hr : r.Orderly) {w : TimeRange} {s : Stack} (hs : s.Faithful r w)
    {ids : List (EntityId .channel)} (named : Named ids) :
    Leads (RecallsAs r w t s) (channelsAt ids t)
      (fun es => es = channelForms r t (s.recalls t) ids) (Stack.Faithful r w) := by
  have kept := kept_recallsAs (t := t) hr w s
  have form : ∀ {v}, v ∈ r.versions .channel → v.holdsAt t = true → ∀ b, s.recalls t v.id = b →
      channelForm r t (s.recalls t) v.id =
        some (channelAnswer r t (if b then v.demote else v)) := by
    rintro v hv holds _ rfl
    rw [channelForm, hr.consistent.versionAt?_eq hv holds, Option.map_some]
  have hit : ∀ id ∈ ids, w.contains t = true → ∀ s' e, RecallsAs r w t s s' →
      s'.versionCache.find? .channel (.ofId id) t = some e →
        Finds (RecallsAs r w t s) (resolveChannel t e)
          (Recalled (fun x => x) (channelForm r t (s.recalls t)) (s.recalls t · = false) id) := by
    rintro id - inside s' e ⟨faithful, same⟩ h
    obtain ⟨v, hv, rfl, holds, rfl⟩ :=
      (Stack.kept_faithful hr w .channel).grounded.find? faithful h
    have recalled : s.recalls t v.id = true := by
      rw [Stack.recalls, hs.window, inside, ← same, h]
      rfl
    apply (finds_resolveChannel hr.consistent kept.grounded v.demote).mono
    rintro _ rfl
    refine ⟨?_, form hv holds true recalled⟩
    rw [id_channelAnswer, Entity.id_demote]
  have miss : ∀ id ∈ ids, w.contains t = true → ∀ s', RecallsAs r w t s s' →
      s'.versionCache.find? .channel (.ofId id) t = none → s.recalls t id = false := by
    rintro id - - s' ⟨-, same⟩ h
    rw [Stack.recalls, ← same, h, Option.isSome_none, Bool.and_false]
  have outside : ∀ id ∈ ids, w.contains t = false → s.recalls t id = false := by
    intro id _ h
    rw [Stack.recalls, hs.window, h, Bool.false_and]
  have found : ∀ v ∈ r.versions .channel, v.id ∈ ids → s.recalls t v.id = false →
      v.holdsAt t = true → Finds (Stack.Faithful r w) (resolveChannel t v)
        (Fetched (fun x => x) (channelForm r t (s.recalls t)) v.id) := by
    intro v hv _ missed holds
    have faithful := (Stack.kept_faithful hr w .response).grounded
    apply (finds_resolveChannel hr.consistent faithful v).mono
    rintro _ rfl
    refine ⟨?_, (form hv holds false missed).symm⟩
    rintro _ ⟨⟩
    exact id_channelAnswer v
  have absent : ∀ id ∈ ids, r.versionAt? id t = none →
      channelForm r t (s.recalls t) id = none := by
    intro id _ h
    rw [channelForm, h, Option.map_none]
  have read : ∀ (id : EntityId .channel) s', RecallsAs r w t s s' → RecallsAs r w t s
      { s' with versionCache := (s'.versionCache.read .channel (.ofId id) t).2 } := by
    rintro id s' ⟨faithful, same⟩
    exact ⟨(Stack.kept_faithful hr w .channel).effect s' _ faithful (.read s' id t), same⟩
  refine (leads_pointLookup (fun _ => rfl) named
    (Stack.kept_faithful hr w .channel).grounded.toServed kept.faithful
    read hit miss outside found absent).mono ?_
  intro es h
  rw [channelForms, ← h, List.map_id']

end Cached

/-- Lookups of channels are not transparent. After any run without stores a lookup answers the same
channels, with the same responses, as a stack over the same repository does with nothing cached; yet
how much of a response is filled in agrees just when no channel is answered from the cache whose
response has lapsed. Asked again, the answer is the same just when the cache answers for the same
channels of lapsed responses as before. -/
theorem Operation.channelsAt_eq_iff {r : Repository} (hr : r.Orderly)
    (owned : ∀ c ∈ r.versions .channel, ∀ owner ∈ c.owner?, owner.isReference = true)
    {ops : List Operation} (hops : ∀ op ∈ ops, op.isStore = false ∧ op.isCacheWrite = false)
    {w : TimeRange} (working : (run ops (.over r w)).repository.failure = none)
    {ids : List (EntityId .channel)} (named : ∀ id ∈ ids, isBlank id.text = false)
    (t : Instant) (window : TimeRange) :
    let s := run ops (.over r w)
    let s' := ((Cached.findAt .channel ids t).perform s).2
    ∃ es plain again, ((Cached.findAt .channel ids t).perform s).1 = .ok es ∧
      ((Cached.findAt .channel ids t).perform (.over s.repository window)).1 = .ok plain ∧
      ((Cached.findAt .channel ids t).perform s').1 = .ok again ∧
      es.map Entity.demote = plain.map Entity.demote ∧
      (es = plain ↔ ∀ c ∈ r.versions .channel, c.id ∈ ids → c.holdsAt t = true →
        r.Lapsed t c → s.recalls t c.id = false) ∧
      (es = again ↔ ∀ c ∈ r.versions .channel, c.id ∈ ids → c.holdsAt t = true →
        r.Lapsed t c → s.recalls t c.id = s'.recalls t c.id) := by
  intro s s'
  have reached : s.Faithful r s.window := run_faithful hr hops working
  have fresh : (Stack.over s.repository window).Faithful r window :=
    ⟨reached.versions, working, rfl, .empty⟩
  obtain ⟨_, found, rfl, left⟩ :=
    Cached.leads_channelsAt (t := t) hr reached (fun _ => named) s ⟨reached, fun _ => rfl⟩
  obtain ⟨_, found₀, rfl, -⟩ :=
    Cached.leads_channelsAt (t := t) hr fresh (fun _ => named) _ ⟨fresh, fun _ => rfl⟩
  obtain ⟨_, found', rfl, -⟩ :=
    Cached.leads_channelsAt (t := t) hr left (fun _ => named) _ ⟨left, fun _ => rfl⟩
  have uncached : ∀ id, (Stack.over s.repository window).recalls t id = false := by
    intro id
    exact Bool.and_false _
  refine ⟨_, _, _, found, found₀, found', ?_, ?_, Cached.channelForms_eq_iff hr owned _ _ ids⟩
  · rw [Cached.map_demote_channelForms, Cached.map_demote_channelForms]
  · rw [Cached.channelForms_eq_iff hr owned]
    simp only [uncached]

/-- A network whose channel outlives the response it carries. -/
def Sample.outlived : Sample.Network :=
  let response := response (.ofUuid (.ofNat 7)) ⟨.origin, some change⟩
  { network with
    channels := [channel ⟨"STA.BHE", rfl⟩ ⟨.origin, none⟩ (some response)]
    response := response }

theorem Sample.orderly_outlived : outlived.repository.Orderly := by
  apply Network.orderly_repository
  · intro k
    cases k <;> rfl
  · intro a ha b hb _ _ _ _
    rw [List.mem_singleton.1 ha, List.mem_singleton.1 hb]
  · intro c hc e he
    rw [List.mem_singleton.1 hc] at he
    exact (Option.some.inj he).symm

theorem Operation.channelsAt_eq_iff_outlived :
    let ops := [.findAt (.caching .cached) .channel [⟨"STA.BHE", rfl⟩] Sample.change]
    let s := run ops (.over Sample.outlived.repository .all)
    s.repository.failure = none ∧ ∃ es plain,
      ((Cached.findAt .channel [⟨"STA.BHE", rfl⟩] Sample.change).perform s).1 = .ok es ∧
      ((Cached.findAt .channel [⟨"STA.BHE", rfl⟩] Sample.change).perform
        (.over s.repository (.closedOpen .origin .origin))).1 = .ok plain ∧
      es.map Entity.demote = plain.map Entity.demote ∧ es ≠ plain := by
  intro ops s
  have owned : ∀ c ∈ Sample.outlived.repository.versions .channel, ∀ owner ∈ c.owner?,
      owner.isReference = true := by decide
  have hops : ∀ op ∈ ops, op.isStore = false ∧ op.isCacheWrite = false := by decide
  have working : s.repository.failure = none := rfl
  have named : ∀ id ∈ [(⟨"STA.BHE", rfl⟩ : EntityId .channel)], isBlank id.text = false := by
    decide
  obtain ⟨es, plain, -, found, found', -, same, agree, -⟩ :=
    channelsAt_eq_iff Sample.orderly_outlived owned hops working named Sample.change
      (.closedOpen .origin .origin)
  refine ⟨working, es, plain, found, found', same, ?_⟩
  intro equal
  have missed : s.recalls Sample.change ⟨"STA.BHE", rfl⟩ = false :=
    agree.1 equal _ (List.mem_singleton_self _) (List.mem_singleton_self _) rfl
      ⟨_, rfl, rfl, by decide⟩
  have recalled : s.recalls Sample.change ⟨"STA.BHE", rfl⟩ = true := by decide +kernel
  rw [missed] at recalled
  cases recalled

/-- Which of the channels found have their response filled in. -/
def Cached.filledIn : Except CatalogError (List (Entity .channel)) → List Bool
  | .ok es => es.map fun e => e.response?.any (·.isPopulated)
  | .error _ => []

/-- The channel that outlives its response: the answer from the cache differs from the one that
nothing cached gives, and from the one before it. -/
theorem Operation.channelsAt_outlived :
    let lookup := Cached.findAt .channel [⟨"STA.BHE", rfl⟩] Sample.change
    let s := Stack.over Sample.outlived.repository .all
    let s' := run [.findAt (.caching .cached) .channel [⟨"STA.BHE", rfl⟩] Sample.change] s
    Sample.outlived.repository.Orderly ∧
      (∀ c ∈ Sample.outlived.repository.versions .channel, ∀ owner ∈ c.owner?,
        owner.isReference = true) ∧
      s'.repository.failure = none ∧
      (lookup.perform s').1 ≠
        (lookup.perform (.over s'.repository (.closedOpen .origin .origin))).1 ∧
      (lookup.perform (lookup.perform s).2).1 ≠ (lookup.perform s).1 := by
  have differ : ∀ {x y : Except CatalogError (List (Entity .channel))},
      Cached.filledIn x ≠ Cached.filledIn y → x ≠ y :=
    fun h same => h (congrArg Cached.filledIn same)
  exact ⟨Sample.orderly_outlived, by decide, rfl, differ (by decide +kernel),
    differ (by decide +kernel)⟩

end StationCatalog

import StationCatalog.Entity.Form
import StationCatalog.Proofs.EntityParts
import StationCatalog.Proofs.InstantTexts
import StationCatalog.Sample

/-!
The exchanged form of an entity reads back as the entity, whatever its kind and state of presence
and however deep its children and owning stations are nested, in any states of theirs. Of printing
and parsing it is supposed that instants, UUIDs and finite numbers come through. Reading is field by
field: each field of the record holds the written form of its value, which reads back.
-/

namespace StationCatalog

variable {k : Kind} {c : Codecs}

/-! ### Codecs -/

/-- What is printed parses as what it was; of numbers, the finite ones do. -/
structure Codecs.Lossless (c : Codecs) : Prop where
  number : ∀ x : Binary64, x.isFinite = true → c.number.parse? (c.number.print x) = some x
  instant : ∀ t, c.instant.parse? (c.instant.print t) = some t
  uuid : ∀ u, c.uuid.parse? (c.uuid.print u) = some u

namespace Codecs.Lossless

variable (h : c.Lossless)

include h

theorem ofLiteral?_number {x : Binary64} (finite : x.isFinite = true) :
    c.number.ofLiteral? (c.number.toLiteral x) = some x := h.number x finite

theorem ofText?_instant (t : Instant) : c.instant.ofText? (c.instant.toText t) = some t :=
  h.instant t

theorem ofText?_uuid (u : Uuid) : c.uuid.ofText? (c.uuid.toText u) = some u := h.uuid u

theorem ofText?_id (i : EntityId k) : (c.id k).ofText? ((c.id k).toText i) = some i := by
  cases k with
  | response => exact congrArg (Option.map EntityId.ofUuid) (h.uuid i.uuid)
  | stationGroup | station | channelGroup | channel => rfl

end Codecs.Lossless

/-! ### Fields of records -/

namespace Datum

@[simp] theorem unattach_field? (fields : List (String × Datum)) (name : String) :
    ((record fields).field? name).unattach = (fields.find? (·.1 = name)).map (·.2) := by
  simp only [field?]
  split
  next found => exact (congrArg (Option.map (·.2)) found).symm
  next missing => exact (congrArg (Option.map (·.2)) missing).symm

theorem exists_field? {d x : Datum} {name : String} (h : d.read? some name = some x) :
    ∃ within, d.field? name = some ⟨x, within⟩ := by
  obtain ⟨⟨y, within⟩, found, same⟩ := Option.bind_eq_some_iff.1 h
  obtain rfl : y = x := Option.some.inj same
  exact ⟨within, found⟩

/-- A field that is null or the written form of something reads as nothing or as that. -/
theorem readOptional?_ofOption {α : Type} {f : Datum → Option α} {g : α → Datum} {d : Datum}
    {name : String} {o : Option α} (reads : ∀ a ∈ o, f (g a) = some a)
    (written : ∀ a, g a ≠ null) (h : d.read? some name = some (ofOption g o)) :
    d.readOptional? f name = some o := by
  obtain ⟨within, found⟩ := exists_field? h
  rw [readOptional?, found]
  cases o with
  | none => rfl
  | some a =>
      split
      next missing => cases missing
      next absent => exact absurd (Subtype.mk.inj (Option.some.inj absent)) (written a)
      next x there =>
        obtain rfl := Option.some.inj there
        exact congrArg (Option.map some) (reads a rfl)

end Datum

/-! ### Records of numbers -/

section

variable (lossless : c.Lossless)

include lossless

theorem Location.ofDatum?_toDatum {l : Location} (finite : ∀ x ∈ l.numbers, x.isFinite = true) :
    ofDatum? c (l.toDatum c) = some l := by
  simp only [numbers, List.forall_mem_cons] at finite
  obtain ⟨latitude, longitude, depth, elevation, -⟩ := finite
  simp [ofDatum?, toDatum, Datum.read?, lossless.ofLiteral?_number, latitude, longitude, depth,
    elevation]

theorem Calibration.ofDatum?_toDatum {a : Calibration}
    (finite : ∀ x ∈ a.numbers, x.isFinite = true) : ofDatum? c (a.toDatum c) = some a := by
  simp only [numbers, List.forall_mem_cons] at finite
  obtain ⟨period, factor, shift, -⟩ := finite
  simp [ofDatum?, toDatum, Datum.read?, lossless.ofLiteral?_number, period, factor, shift]

end

/-! ### Entities -/

@[simp] theorem Kind.idField_ne_presence (k : Kind) : k.idField ≠ "presence" := by
  cases k <;> decide

theorem Entity.toDatum_ne_null (e : Entity k) : e.toDatum c ≠ .null := by
  cases e <;> exact Datum.noConfusion

/-- A field that holds a list written entity by entity reads back if each of the entities does. -/
theorem Entity.exists_items? (write : List (Entity k) → List Datum) (nil : write [] = [])
    (cons : ∀ e es, write (e :: es) = e.toDatum c :: write es) {es : List (Entity k)} {d : Datum}
    {name : String}
    (reads : ∀ p ∈ es.map (Sigma.mk k), ofDatum? c p.1 (p.2.toDatum c) = some p.2)
    (h : d.read? some name = some (.list (write es))) :
    ∃ xs, d.items? name = some xs ∧ xs.mapM (fun x => ofDatum? c k x.1) = some es := by
  have written : (write es).mapM (ofDatum? c k) = some es := by
    clear h
    induction es with
    | nil => rw [nil]; rfl
    | cons e es ih =>
        obtain ⟨he, hes⟩ := List.forall_mem_cons.1 reads
        simp [cons, he, ih hes]
  obtain ⟨within, found⟩ := Datum.exists_field? h
  refine ⟨(write es).attach.map fun x =>
    ⟨x.1, Nat.lt_trans (Datum.sizeOf_lt_list x.2) within⟩, ?_, ?_⟩
  · rw [Datum.items?, found]
    rfl
  · rw [List.mapM_subtype (fun _ _ => rfl), List.unattach, List.map_map]
    exact (congrArg (List.mapM (ofDatum? c k)) (List.attach_map_subtype_val _)).trans written

/-- Data whose own numbers are finite read back if their parts do. -/
theorem EntityData.ofDatum?_toDatum (lossless : c.Lossless) {d : EntityData k}
    (finite : ∀ x ∈ d.numbers, x.isFinite = true)
    (parts : ∀ p ∈ d.parts, Entity.ofDatum? c p.1 (p.2.toDatum c) = some p.2) :
    ofDatum? c k (d.toDatum c) = some d := by
  cases d with
  | stationGroup description stations =>
      have field : ((stationGroup description stations).toDatum c).read? some "stations" =
        some (.list (stationData c stations)) := rfl
      obtain ⟨xs, items, read⟩ :=
        Entity.exists_items? (stationData c) rfl (fun _ _ => rfl) parts field
      -- the items go first: their type names the record, and changes when that is opened
      simp only [ofDatum?, items, read, Option.bind_eq_bind, Option.bind_some]
      simp [toDatum, Datum.read?, Datum.text?]
  | station type description location groups channels =>
      obtain ⟨hgroups, hchannels⟩ := List.forall_mem_append.1 parts
      have field : ((station type description location groups channels).toDatum c).read? some
        "channel_groups" = some (.list (groupData c groups)) := rfl
      have rawField : ((station type description location groups channels).toDatum c).read? some
        "all_raw_channels" = some (.list (channelData c channels)) := rfl
      obtain ⟨gs, items, read⟩ :=
        Entity.exists_items? (groupData c) rfl (fun _ _ => rfl) hgroups field
      obtain ⟨cs, rawItems, rawRead⟩ :=
        Entity.exists_items? (channelData c) rfl (fun _ _ => rfl) hchannels rawField
      simp only [ofDatum?, items, read, rawItems, rawRead, Option.bind_eq_bind, Option.bind_some]
      simp [toDatum, Datum.read?, Datum.text?, StationType.ofName?_name,
        Location.ofDatum?_toDatum lossless finite]
  | channelGroup description location type owner channels =>
      obtain ⟨howner, hchannels⟩ := List.forall_mem_cons.1 parts
      have field : ((channelGroup description location type owner channels).toDatum c).read? some
        "channels" = some (.list (channelData c channels)) := rfl
      obtain ⟨cs, items, read⟩ :=
        Entity.exists_items? (channelData c) rfl (fun _ _ => rfl) hchannels field
      have place : ((channelGroup description location type owner channels).toDatum c).readOptional?
          (Location.ofDatum? c) "location" = some location := by
        refine Datum.readOptional?_ofOption ?_ (fun _ => Datum.noConfusion) rfl
        intro l there
        refine Location.ofDatum?_toDatum lossless fun x hx => finite x ?_
        exact List.mem_flatMap_of_mem (Option.mem_toList.2 there) hx
      simp only [ofDatum?, items, read, place, Option.bind_eq_bind, Option.bind_some]
      simp [toDatum, Datum.read?, Datum.text?, GroupType.ofName?_name, howner]
  | channel description owner units sampleRate instrument =>
      obtain ⟨howner, hresponse⟩ := List.forall_mem_cons.1 parts
      have rate := lossless.ofLiteral?_number (finite sampleRate (List.mem_singleton_self _))
      have field : ((channel description owner units sampleRate instrument).toDatum c).read? some
        "response" = some (responseData c instrument) := rfl
      obtain ⟨within, found⟩ := Datum.exists_field? field
      cases instrument with
      | none =>
          rw [ofDatum?, found]
          dsimp only [responseData]
          simp [toDatum, Datum.read?, Datum.text?, Units.ofName?_name, rate, howner]
      | some r =>
          have read : Entity.ofDatum? c .response (responseData c (some r)) = some r :=
            hresponse _ (List.mem_singleton_self _)
          -- what is written of a response is not taken for an absent one
          have written : responseData c (some r) ≠ .null := r.toDatum_ne_null
          generalize responseData c (some r) = form at *
          rw [ofDatum?, found]
          cases form with
          | null => exact absurd rfl written
          | _ =>
            dsimp only
            simp [toDatum, Datum.read?, Datum.text?, Units.ofName?_name, rate, howner, read]
  | response calibration table =>
      have factors : ((response calibration table).toDatum c).readOptional? c.uuid.ofText?
          "fap_id" = some table :=
        Datum.readOptional?_ofOption (fun u _ => lossless.ofText?_uuid u)
          (fun _ => Datum.noConfusion) rfl
      rw [ofDatum?, factors]
      simp [toDatum, Datum.read?, Calibration.ofDatum?_toDatum lossless finite]

/-- The exchanged form of an entity of finite numbers reads back as that entity. -/
theorem Entity.ofDatum?_toDatum (lossless : c.Lossless) (e : Entity k) :
    (∀ x, e.HasNumber x → x.isFinite = true) → ofDatum? c k (e.toDatum c) = some e := by
  induction e using Entity.induction_on_parts with
  | step e ih =>
      intro finite
      cases e with
      | reference id =>
          rw [ofDatum?, toDatum]
          simp [Datum.read?, Datum.variant?, lossless.ofText?_id]
      | versionReference id start =>
          rw [ofDatum?, toDatum]
          simp [Datum.read?, Datum.variant?, lossless.ofText?_id, lossless.ofText?_instant]
      | populated id validity data =>
          have stop : (Datum.record [("effective_at", c.instant.toText validity.start),
              ("effective_until", .ofOption c.instant.toText validity.stop),
              ("data", data.toDatum c)]).readOptional? c.instant.ofText? "effective_until" =
                some validity.stop :=
            Datum.readOptional?_ofOption (fun t _ => lossless.ofText?_instant t)
              (fun _ => Datum.noConfusion) rfl
          have content := EntityData.ofDatum?_toDatum lossless (fun x hx => finite x (.own hx))
            fun p hp => ih p hp fun x hx => finite x (.part hp hx)
          rw [ofDatum?, toDatum]
          simp [Datum.read?, Datum.variant?, lossless.ofText?_id, lossless.ofText?_instant, stop,
            content]

/-- Over lossless codecs an entity of finite numbers is read back as an entity that equals it, bit
for bit. -/
theorem Entity.reads_back_equal (lossless : c.Lossless) (e : Entity k)
    (finite : ∀ x, e.HasNumber x → x.isFinite = true) :
    ∃ back, ofDatum? c k (e.toDatum c) = some back ∧ back.equals e = true ∧ back = e :=
  ⟨e, e.ofDatum?_toDatum lossless finite, e.equals_self finite, rfl⟩

/-! ### The sample entities, exchanged -/

namespace Sample

/-- The numbers of the sample entities, with the literals that stand for them. -/
def literals : List (Binary64 × String) :=
  [(location.latitudeDegrees, "46.79"), (location.longitudeDegrees, "82.29"),
   (location.elevationKm, "0.62"), (calibration.periodSeconds, "1.0"), (calibration.factor, "1.5"),
   (sampleRate, "40.0"), (.zero, "0.0")]

/-- Prints the numbers of the sample entities as decimals, any other as its bits. -/
def printNumber (x : Binary64) : String :=
  match literals.find? (·.1 = x) with
  | some e => e.2
  | none => String.ofList (Digits.fixed 10 20 x.bits.toNat)

def parseNumber? (s : String) : Option Binary64 :=
  match literals.find? (·.2 = s) with
  | some e => some e.1
  | none => (Digits.read? 10 s.toList).map fun n => ⟨.ofNat n⟩

/-- Instants are printed in the manner of `2020-01-01T00:00:00Z`, UUIDs in canonical form. -/
def codecs : Codecs where
  number := ⟨printNumber, parseNumber?⟩
  instant := ⟨(·.text .zulu), Instant.ofText?⟩
  uuid := ⟨Uuid.text, Uuid.ofText?⟩

theorem parseNumber?_literals : ∀ e ∈ literals, parseNumber? e.2 = some e.1 := by decide

theorem point_mem_literals : ∀ e ∈ literals, '.' ∈ e.2.toList := by decide

/-- Bits are printed without a point, which every literal has. -/
theorem parseNumber?_printNumber (x : Binary64) : parseNumber? (printNumber x) = some x := by
  cases found : literals.find? (·.1 = x) with
  | some e =>
      have same : e.1 = x := by simpa only [decide_eq_true_eq] using List.find?_some found
      rw [printNumber, found, ← same]
      exact parseNumber?_literals e (List.mem_of_find?_eq_some found)
  | none =>
      have pointless : '.' ∉ Digits.fixed 10 20 x.bits.toNat := fun h =>
        absurd (Digits.isDecimal_of_mem_fixed _ h) (by decide)
      have other : literals.find? (·.2 = String.ofList (Digits.fixed 10 20 x.bits.toNat)) =
          none := by
        refine List.find?_eq_none.2 fun e he same => pointless ?_
        have point := point_mem_literals e he
        rwa [of_decide_eq_true same, String.toList_ofList] at point
      have bounded : x.bits.toNat < 10 ^ 20 := Nat.lt_trans x.bits.toNat_lt (by decide)
      simp only [printNumber, found, parseNumber?, other, String.toList_ofList,
        Digits.read?_fixed (by decide) (by decide) bounded, Option.map_some, UInt64.ofNat_toNat]

theorem codecs_lossless : codecs.Lossless where
  number x _ := parseNumber?_printNumber x
  instant := Instant.ofText?_text
  uuid := Uuid.ofText?_text

/-- The sample station group with its station in all three states of presence. -/
def mixed : Entity .stationGroup :=
  network.stationGroup.withStations
    [network.station, network.station.toVersionReference, network.station.toReference]

theorem finite_mixed : ∀ x, mixed.HasNumber x → x.isFinite = true := by
  have bare {k : Kind} (id : EntityId k) : ∀ x, (Entity.reference id).HasNumber x → x.isFinite =
    true := Entity.finite_of_parts nofun nofun
  have response : ∀ x, network.response.HasNumber x → x.isFinite = true :=
    Entity.finite_of_parts (by decide) nofun
  have channel (validity : Validity) : ∀ x, (channel ⟨"STA.BHZ", rfl⟩ validity
      (some network.response)).HasNumber x → x.isFinite = true :=
    Entity.finite_of_parts (List.forall_mem_singleton.2 rfl)
      (List.forall_mem_cons.2 ⟨bare _, List.forall_mem_singleton.2 response⟩)
  have group : ∀ x, network.channelGroup.HasNumber x → x.isFinite = true :=
    Entity.finite_of_parts (by decide)
      (List.forall_mem_cons.2 ⟨bare _, List.forall_mem_singleton.2 (channel _)⟩)
  have station : ∀ x, network.station.HasNumber x → x.isFinite = true :=
    Entity.finite_of_parts (by decide)
      (List.forall_mem_cons.2 ⟨group, List.forall_mem_singleton.2 (channel _)⟩)
  have version : ∀ x, network.station.toVersionReference.HasNumber x → x.isFinite = true :=
    Entity.finite_of_parts nofun nofun
  exact Entity.finite_of_parts nofun (List.forall_mem_cons.2
    ⟨station, List.forall_mem_cons.2 ⟨version, List.forall_mem_singleton.2 (bare _)⟩⟩)

end Sample

theorem Entity.reads_back_mixed : Sample.codecs.Lossless ∧
    (∀ x, Sample.mixed.HasNumber x → x.isFinite = true) ∧
    ∃ back, ofDatum? Sample.codecs .stationGroup (Sample.mixed.toDatum Sample.codecs) = some back ∧
      back.equals Sample.mixed = true ∧ back = Sample.mixed :=
  ⟨Sample.codecs_lossless, Sample.finite_mixed,
    Sample.mixed.reads_back_equal Sample.codecs_lossless Sample.finite_mixed⟩

end StationCatalog

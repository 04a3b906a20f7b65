import StationCatalog.OperationalPeriod
import StationCatalog.Proofs.Gaps

/-!
The window of an operational period. A look-back is exact to the nanosecond, and it fails just where
it would leave the time line: the longest step that can be taken is longer than the whole line. The
stop looks back less far than the start, so it never fails where the start does not.
-/

namespace StationCatalog

/-- Looking back comes to exactly the instant that lies so much earlier. -/
theorem Instant.back?_eq_some_iff {now t : Instant} {n : Nat} :
    now.back? n = some t ↔ t.nanos = now.nanos - n := by
  constructor
  · exact nanos_of_ofNanos?
  · intro h
    rw [back?, ← h, ofNanos?_nanos]

namespace OperationalPeriod

/-- A span that is no step leads back beyond the time line, from wherever on it. -/
theorem step?_bind_back? (now : Instant) (a : Span) :
    a.step?.bind now.back? = now.back? a.nanos := by
  unfold Span.step?
  split
  · rfl
  next long =>
    have upper := now.le_last
    rw [Instant.back?, Instant.ofNanos?, dif_neg (by omega)]
    rfl

theorem lookBack_eq_ok_iff {now t : Instant} {a : Span} {field : String} :
    lookBack now a field = .ok t ↔ t.nanos = now.nanos - a.nanos := by
  rw [← Instant.back?_eq_some_iff, lookBack, step?_bind_back?]
  cases now.back? a.nanos with
  | none => simp
  | some u => simp

theorem lookBack_eq_error {now : Instant} {a : Span} {field : String}
    (outside : ∀ t : Instant, t.nanos ≠ now.nanos - a.nanos) :
    lookBack now a field = .error (.config (.invalidValue field a.text
      "period reaches outside the representable time range")) := by
  have none : now.back? a.nanos = none := by
    refine Option.eq_none_iff_forall_ne_some.2 fun t found => ?_
    exact outside t (Instant.back?_eq_some_iff.1 found)
  rw [lookBack, step?_bind_back?, none]

theorem validate_of_lt {p : OperationalPeriod} (h : p.stop < p.start) : p.validate = .ok () :=
  if_neg (Nat.not_le.2 h)

theorem validate_of_not_lt {p : OperationalPeriod} (h : ¬p.stop < p.start) :
    p.validate = .error (.config (.invalidValue "operational_period_start" p.start.text
      ("must be greater than operational_period_end (" ++ p.stop.text ++ ")"))) :=
  if_pos (Nat.not_lt.1 h)

/-- The start is the longer look-back, so the stop is on the time line if the start is. -/
theorem bounds_of_reached {p : OperationalPeriod} {now s : Instant} (ordered : p.stop < p.start)
    (hs : s.nanos = now.nanos - p.start.nanos) :
    ∃ e : Instant, e.nanos = now.nanos - p.stop.nanos ∧ p.bounds now = .ok (s, e) := by
  have shorter := Span.lt_def.1 ordered
  have lower := s.first_le
  have upper := now.le_last
  have stop : ∃ e : Instant, e.nanos = now.nanos - p.stop.nanos :=
    ⟨⟨now.nanos - p.stop.nanos, by omega, by omega⟩, rfl⟩
  obtain ⟨e, he⟩ := stop
  refine ⟨e, he, ?_⟩
  rw [bounds, validate_of_lt ordered, lookBack_eq_ok_iff.2 hs, lookBack_eq_ok_iff.2 he]
  rfl

/-- What goes wrong is laid to the start, be it too short or too long. -/
theorem bounds_of_not_reached {p : OperationalPeriod} {now : Instant}
    (h : ¬(p.stop < p.start ∧ ∃ s : Instant, s.nanos = now.nanos - p.start.nanos)) :
    ∃ reason, p.bounds now =
      .error (.config (.invalidValue "operational_period_start" p.start.text reason)) := by
  by_cases ordered : p.stop < p.start
  · have outside : ∀ t : Instant, t.nanos ≠ now.nanos - p.start.nanos :=
      fun t ht => h ⟨ordered, t, ht⟩
    refine ⟨"period reaches outside the representable time range", ?_⟩
    rw [bounds, validate_of_lt ordered, lookBack_eq_error outside]
    rfl
  · refine ⟨"must be greater than operational_period_end (" ++ p.stop.text ++ ")", ?_⟩
    rw [bounds, validate_of_not_lt ordered]
    rfl

/-- The bounds of the window are there exactly when the start looks back further than the stop and
not beyond the time line. They are then exact, the start before the stop and the stop not after now,
and the window holds the instants from one to the other. Otherwise the start is refused. -/
theorem bounds_exact (p : OperationalPeriod) (now : Instant) :
    ((∃ bounds, p.bounds now = .ok bounds) ↔
      p.stop < p.start ∧ ∃ s : Instant, s.nanos = now.nanos - p.start.nanos) ∧
    (∀ s e, p.bounds now = .ok (s, e) →
      s.nanos = now.nanos - p.start.nanos ∧ e.nanos = now.nanos - p.stop.nanos ∧ s < e ∧ e ≤ now ∧
      ∃ w, p.window now = .ok w ∧ ∀ t, w.contains t = true ↔ s ≤ t ∧ t ≤ e) ∧
    ∀ error, p.bounds now = .error error → p.window now = .error error ∧
      ∃ reason, error =
        .config (.invalidValue "operational_period_start" p.start.text reason) := by
  by_cases h : p.stop < p.start ∧ ∃ s : Instant, s.nanos = now.nanos - p.start.nanos
  · obtain ⟨ordered, s, hs⟩ := h
    obtain ⟨e, he, found⟩ := bounds_of_reached ordered hs
    have shorter := Span.lt_def.1 ordered
    have before : s < e := by rw [Instant.lt_def]; omega
    have past : e ≤ now := by rw [Instant.le_def]; omega
    refine ⟨iff_of_true ⟨_, found⟩ ⟨ordered, s, hs⟩, ?_, ?_⟩
    · intro s' e' found'
      obtain ⟨rfl, rfl⟩ := Prod.mk.inj (Except.ok.inj (found.symm.trans found'))
      refine ⟨hs, he, before, past, .closed s e, ?_, fun t => ?_⟩
      · rw [window, found]
        rfl
      · exact TimeRange.contains_closed_iff (Int.le_of_lt before)
    · intro error refused
      rw [found] at refused
      cases refused
  · obtain ⟨reason, refused⟩ := bounds_of_not_reached h
    refine ⟨iff_of_false ?_ h, ?_, ?_⟩
    · rintro ⟨w, found⟩
      rw [refused] at found
      cases found
    · intro s e found
      rw [refused] at found
      cases found
    · intro error refused'
      obtain rfl := Except.error.inj (refused.symm.trans refused')
      refine ⟨?_, reason, rfl⟩
      rw [window, refused]
      rfl

end OperationalPeriod

end StationCatalog

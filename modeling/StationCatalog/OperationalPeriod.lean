import StationCatalog.Error
import StationCatalog.Range.Basic
import StationCatalog.Time.Span

/-!
The operational period: how far before now the versions worth caching begin and end. Both ends are
look-backs, so the start must be the longer one.
-/

namespace StationCatalog

/-- The look-backs at which the operational window starts and stops. -/
structure OperationalPeriod where
  start : Span
  stop : Span
deriving DecidableEq

namespace OperationalPeriod

/-- The last day up to now. -/
def standard : OperationalPeriod := ⟨⟨86400000000000, by decide⟩, .zero⟩

def readSeconds? (s : String) : Option Span :=
  (Digits.readWhole? s.toList).bind (Span.ofParts? · 0)

/-- The period of two settings; a setting that is absent or cannot be read is the standard one. -/
def ofSettings (start stop : Option String) : OperationalPeriod where
  start := (start.bind readSeconds?).getD standard.start
  stop := (stop.bind readSeconds?).getD standard.stop

/-- The start must look back further than the stop. -/
def validate (p : OperationalPeriod) : Except CatalogError Unit :=
  if p.start ≤ p.stop then
    .error (.config (.invalidValue "operational_period_start" p.start.text
      ("must be greater than operational_period_end (" ++ p.stop.text ++ ")")))
  else .ok ()

def lookBack (now : Instant) (period : Span) (field : String) : Except CatalogError Instant :=
  match period.step?.bind now.back? with
  | some t => .ok t
  | none => .error (.config (.invalidValue field period.text
      "period reaches outside the representable time range"))

def bounds (p : OperationalPeriod) (now : Instant) : Except CatalogError (Instant × Instant) := do
  p.validate
  let start ← lookBack now p.start "operational_period_start"
  let stop ← lookBack now p.stop "operational_period_end"
  return (start, stop)

/-- The window at an instant, both ends included. -/
def window (p : OperationalPeriod) (now : Instant) : Except CatalogError TimeRange :=
  (p.bounds now).map fun (start, stop) => .closed start stop

end OperationalPeriod

end StationCatalog

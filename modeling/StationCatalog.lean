import StationCatalog.Binary64
import StationCatalog.Cache
import StationCatalog.Datum
import StationCatalog.Entity.Basic
import StationCatalog.Entity.Equality
import StationCatalog.Entity.Form
import StationCatalog.Entity.Id
import StationCatalog.Entity.Lemmas
import StationCatalog.Entity.Names
import StationCatalog.Error
import StationCatalog.Faceting
import StationCatalog.Kind
import StationCatalog.Operation
import StationCatalog.OperationalPeriod
import StationCatalog.Proofs.AgreeingLookups
import StationCatalog.Proofs.ArgumentChecks
import StationCatalog.Proofs.Ascending
import StationCatalog.Proofs.Boundaries
import StationCatalog.Proofs.CachedStations
import StationCatalog.Proofs.CachedVersions
import StationCatalog.Proofs.Calendar
import StationCatalog.Proofs.CalledLookups
import StationCatalog.Proofs.ChangeTimes
import StationCatalog.Proofs.ChannelLookups
import StationCatalog.Proofs.Children
import StationCatalog.Proofs.ComposedLookups
import StationCatalog.Proofs.Coverage
import StationCatalog.Proofs.CoveredStations
import StationCatalog.Proofs.DrawnCache
import StationCatalog.Proofs.DrawnLookups
import StationCatalog.Proofs.Effects
import StationCatalog.Proofs.Ends
import StationCatalog.Proofs.EntityParts
import StationCatalog.Proofs.ExchangedEntities
import StationCatalog.Proofs.FacetRelations
import StationCatalog.Proofs.FacetTrees
import StationCatalog.Proofs.FacetedEntities
import StationCatalog.Proofs.FacetedHits
import StationCatalog.Proofs.FacetedRefusals
import StationCatalog.Proofs.FailStop
import StationCatalog.Proofs.Finds
import StationCatalog.Proofs.Fragments
import StationCatalog.Proofs.GapCalls
import StationCatalog.Proofs.Gaps
import StationCatalog.Proofs.Inquiries
import StationCatalog.Proofs.InstantTexts
import StationCatalog.Proofs.LastingProperties
import StationCatalog.Proofs.ListedAnswers
import StationCatalog.Proofs.Meets
import StationCatalog.Proofs.Memos
import StationCatalog.Proofs.MetFacets
import StationCatalog.Proofs.NestedRefusals
import StationCatalog.Proofs.OutsideWindow
import StationCatalog.Proofs.PlainRanges
import StationCatalog.Proofs.PointAnswers
import StationCatalog.Proofs.PointCalls
import StationCatalog.Proofs.PointLookups
import StationCatalog.Proofs.RangeIndex
import StationCatalog.Proofs.RangeLookups
import StationCatalog.Proofs.RangeMaps
import StationCatalog.Proofs.RangeSets
import StationCatalog.Proofs.RangeWrites
import StationCatalog.Proofs.Ranges
import StationCatalog.Proofs.Refusals
import StationCatalog.Proofs.Remembered
import StationCatalog.Proofs.ReplayedCache
import StationCatalog.Proofs.RequestKeys
import StationCatalog.Proofs.ResolvedShapes
import StationCatalog.Proofs.Runs
import StationCatalog.Proofs.SharedInstants
import StationCatalog.Proofs.SoundCache
import StationCatalog.Proofs.SoundMemos
import StationCatalog.Proofs.StationRanges
import StationCatalog.Proofs.StoredValidity
import StationCatalog.Proofs.StoredVersions
import StationCatalog.Proofs.TimelyAnswers
import StationCatalog.Proofs.TimelyLookups
import StationCatalog.Proofs.TracedLookups
import StationCatalog.Proofs.TypedCache
import StationCatalog.Proofs.UuidOrder
import StationCatalog.Proofs.Validity
import StationCatalog.Proofs.WarmAnswers
import StationCatalog.Proofs.WarmCache
import StationCatalog.Proofs.WarmContents
import StationCatalog.Proofs.WarmStations
import StationCatalog.Proofs.WholeVersions
import StationCatalog.Proofs.WindowBounds
import StationCatalog.Proofs.WrittenDigits
import StationCatalog.Proofs.Yields
import StationCatalog.Range.Basic
import StationCatalog.Range.Cut
import StationCatalog.Range.RangeMap
import StationCatalog.Range.RangeSet
import StationCatalog.Repository
import StationCatalog.Request
import StationCatalog.Sample
import StationCatalog.Sorted
import StationCatalog.Stack
import StationCatalog.Text.Digits
import StationCatalog.Text.Uuid
import StationCatalog.Tier.Cached.Point
import StationCatalog.Tier.Cached.Within
import StationCatalog.Tier.Memoised
import StationCatalog.Tier.Populate
import StationCatalog.Tier.Source
import StationCatalog.Time.Calendar
import StationCatalog.Time.Instant
import StationCatalog.Time.Span
import StationCatalog.Time.Text

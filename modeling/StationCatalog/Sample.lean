import StationCatalog.Entity.Basic
import StationCatalog.Tier.Source

/-!
Sample entities with fixed data, and a small network of them: one station group with one station,
one channel group, one channel in two versions, and the response of both.
-/

namespace StationCatalog.Sample

def location : Location :=
  ⟨⟨0x4047651eb851eb85⟩, ⟨0x4054928f5c28f5c3⟩, .zero, ⟨0x3fe3d70a3d70a3d7⟩⟩

/-- The calibration of every sample: period 1, factor 1.5, no shift. -/
def calibration : Calibration := ⟨⟨0x3ff0000000000000⟩, ⟨0x3ff8000000000000⟩, .zero⟩

def sampleRate : Binary64 := ⟨0x4044000000000000⟩

def response (id : EntityId .response) (validity : Validity) : Entity .response :=
  .populated id validity (.response calibration (some (.ofNat 0)))

/-- The station a channel belongs to: its name up to the first point. -/
def stationOf (channel : EntityId .channel) : EntityId .station :=
  ⟨String.ofList (channel.text.toList.takeWhile (· != '.')), rfl⟩

def channel (id : EntityId .channel) (validity : Validity) (response : Option (Entity .response)) :
    Entity .channel :=
  .populated id validity (.channel (id.text ++ " raw channel") (.reference (stationOf id))
    .nanometersPerSecond sampleRate response)

def channelGroup (id : EntityId .channelGroup) (station : EntityId .station) (validity : Validity)
    (channels : List (Entity .channel)) : Entity .channelGroup :=
  .populated id validity (.channelGroup (id.text ++ " site") (some location) .site
    (.reference station) channels)

def station (id : EntityId .station) (validity : Validity) (groups : List (Entity .channelGroup))
    (channels : List (Entity .channel)) : Entity .station :=
  .populated id validity (.station .seismic3Component (id.text ++ " station") location groups
    channels)

/-- A station group version, which holds for ever. -/
def stationGroup (id : EntityId .stationGroup) (start : Instant)
    (stations : List (Entity .station)) : Entity .stationGroup :=
  .populated id ⟨start, none⟩ (.stationGroup (id.text ++ " network") stations)

/-- The versions of a network, those of its channels in order. -/
structure Network where
  stationGroup : Entity .stationGroup
  station : Entity .station
  channelGroup : Entity .channelGroup
  channels : List (Entity .channel)
  response : Entity .response

/-- The instant at which the channel of the sample network changes: hour 100. -/
def change : Instant := ⟨1578196800000000000, by decide, by decide⟩

/-- An instant between the start of the sample versions and the change: hour 50. -/
def midway : Instant := ⟨1578016800000000000, by decide, by decide⟩

def network : Network :=
  let response := response (.ofUuid (.ofNat 7)) ⟨.origin, none⟩
  let early := channel ⟨"STA.BHZ", rfl⟩ ⟨.origin, some change⟩ (some response)
  let late := channel ⟨"STA.BHZ", rfl⟩ ⟨change, none⟩ (some response)
  let group := channelGroup ⟨"STA01", rfl⟩ ⟨"STA", rfl⟩ ⟨.origin, none⟩ [early]
  let station := station ⟨"STA", rfl⟩ ⟨.origin, none⟩ [group] [early]
  ⟨stationGroup ⟨"PRIMARY", rfl⟩ .origin [station], station, group, [early, late], response⟩

/-- Stores a network, children before parents. -/
def Network.store (n : Network) : Lookup Unit := do
  Source.store .response [n.response]
  Source.store .channel n.channels
  Source.store .channelGroup [n.channelGroup]
  Source.store .station [n.station]
  Source.store .stationGroup [n.stationGroup]

end StationCatalog.Sample

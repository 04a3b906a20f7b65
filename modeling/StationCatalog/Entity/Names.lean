import StationCatalog.Entity.Basic

/-!
The names under which station types, group types and units are exchanged.
-/

namespace StationCatalog

namespace StationType

def all : List StationType :=
  [seismic3Component, seismic1Component, seismicArray, hydroacoustic, hydroacousticArray,
   infrasound, infrasoundArray, weather, unknown]

def name : StationType → String
  | seismic3Component => "Seismic3Component"
  | seismic1Component => "Seismic1Component"
  | seismicArray => "SeismicArray"
  | hydroacoustic => "Hydroacoustic"
  | hydroacousticArray => "HydroacousticArray"
  | infrasound => "Infrasound"
  | infrasoundArray => "InfrasoundArray"
  | weather => "Weather"
  | unknown => "Unknown"

def ofName? (s : String) : Option StationType := all.find? (·.name == s)

theorem ofName?_name (x : StationType) : ofName? x.name = some x := by cases x <;> rfl

end StationType

namespace GroupType

def all : List GroupType := [site, processing, physicalSite]

def name : GroupType → String
  | site => "SiteGroup"
  | processing => "ProcessingGroup"
  | physicalSite => "PhysicalSiteGroup"

def ofName? (s : String) : Option GroupType := all.find? (·.name == s)

theorem ofName?_name (x : GroupType) : ofName? x.name = some x := by cases x <;> rfl

end GroupType

namespace Units

def all : List Units :=
  [nanometersPerSecond, nanometers, nanometersPerSecondSquared, pascals, micropascals, counts,
   unitless]

def name : Units → String
  | nanometersPerSecond => "NanometersPerSecond"
  | nanometers => "Nanometers"
  | nanometersPerSecondSquared => "NanometersPerSecondSquared"
  | pascals => "Pascals"
  | micropascals => "MicroPascals"
  | counts => "Counts"
  | unitless => "Unitless"

def ofName? (s : String) : Option Units := all.find? (·.name == s)

theorem ofName?_name (x : Units) : ofName? x.name = some x := by cases x <;> rfl

end Units

end StationCatalog

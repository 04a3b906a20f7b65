import StationCatalog.Entity.Basic

/-!
Equality of entities as records of numbers: everything agrees, down through all children, and
numbers agree as numbers rather than as bits.
-/

namespace StationCatalog

def Location.equals (a b : Location) : Bool :=
  a.latitudeDegrees.equals b.latitudeDegrees && a.longitudeDegrees.equals b.longitudeDegrees
    && a.depthKm.equals b.depthKm && a.elevationKm.equals b.elevationKm

def Calibration.equals (a b : Calibration) : Bool :=
  a.periodSeconds.equals b.periodSeconds && a.factor.equals b.factor
    && a.timeShiftSeconds.equals b.timeShiftSeconds

def Location.equalsOption : Option Location → Option Location → Bool
  | none, none => true
  | some a, some b => a.equals b
  | _, _ => false

mutual

/-- Entities agree when identifier, state of presence, validity and data do. -/
def Entity.equals : {k : Kind} → Entity k → Entity k → Bool
  | _, .reference i => fun
    | .reference j => i == j
    | _ => false
  | _, .versionReference i s => fun
    | .versionReference j t => i == j && s == t
    | _ => false
  | _, .populated i v d => fun
    | .populated j w e => i == j && v == w && d.equals e
    | _ => false

/-- Data agree field by field. -/
def EntityData.equals : {k : Kind} → EntityData k → EntityData k → Bool
  | _, .stationGroup d ss => fun
    | .stationGroup d' ss' => d == d' && equalStations ss ss'
  | _, .station t d l gs cs => fun
    | .station t' d' l' gs' cs' =>
      t == t' && d == d' && l.equals l' && equalGroups gs gs' && equalChannels cs cs'
  | _, .channelGroup d l t s cs => fun
    | .channelGroup d' l' t' s' cs' =>
      d == d' && Location.equalsOption l l' && t == t' && s.equals s' && equalChannels cs cs'
  | _, .channel d s u r e => fun
    | .channel d' s' u' r' e' =>
      d == d' && s.equals s' && u == u' && r.equals r' && equalResponses e e'
  | _, .response c t => fun
    | .response c' t' => c.equals c' && t == t'

def equalStations : List (Entity .station) → List (Entity .station) → Bool
  | [] => List.isEmpty
  | a :: as => fun
    | [] => false
    | b :: bs => a.equals b && equalStations as bs

def equalGroups : List (Entity .channelGroup) → List (Entity .channelGroup) → Bool
  | [] => List.isEmpty
  | a :: as => fun
    | [] => false
    | b :: bs => a.equals b && equalGroups as bs

def equalChannels : List (Entity .channel) → List (Entity .channel) → Bool
  | [] => List.isEmpty
  | a :: as => fun
    | [] => false
    | b :: bs => a.equals b && equalChannels as bs

def equalResponses : Option (Entity .response) → Option (Entity .response) → Bool
  | none => Option.isNone
  | some a => fun
    | none => false
    | some b => a.equals b

end

end StationCatalog

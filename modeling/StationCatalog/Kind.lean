/-!
The five kinds of versioned entity, and the order of kinds: parents before children.
-/

namespace StationCatalog

inductive Kind
  | stationGroup
  | station
  | channelGroup
  | channel
  | response
deriving DecidableEq

namespace Kind

/-- All kinds, parents before children. -/
def all : List Kind := [stationGroup, station, channelGroup, channel, response]

/-- The place of a kind in `all`. -/
def rank : Kind → Nat
  | stationGroup => 0
  | station => 1
  | channelGroup => 2
  | channel => 3
  | response => 4

def name : Kind → String
  | stationGroup => "StationGroup"
  | station => "Station"
  | channelGroup => "ChannelGroup"
  | channel => "Channel"
  | response => "Response"

def ofName? (s : String) : Option Kind := all.find? (·.name == s)

theorem rank_inj {j k : Kind} (h : j.rank = k.rank) : j = k := by
  revert h
  cases j <;> cases k <;> decide

/-- What is shown of a kind when it is known of the kinds below it holds of every kind. -/
theorem upward {M : Kind → Prop} (h : ∀ k, (∀ j, k.rank < j.rank → M j) → M k) (k : Kind) :
    M k := by
  have bounded : ∀ k : Kind, k.rank ≤ 4 := fun k => by cases k <;> decide
  have reach : ∀ n k, 4 - k.rank ≤ n → M k := by
    intro n
    induction n with
    | zero =>
      intro k hk
      refine h k fun j hj => ?_
      have := bounded j
      omega
    | succ n ih =>
      intro k hk
      refine h k fun j hj => ih j ?_
      have := bounded j
      omega
  exact reach 4 k (Nat.sub_le 4 k.rank)

end Kind

end StationCatalog

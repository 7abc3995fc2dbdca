import Switchyard.Station.DataModel

/-!
# GOOSE publishers

A publisher sends its dataset over and over. A change of a member starts a burst: the status number
goes up and a frame is due at once; the frames that follow come at intervals that double from
`minTime` up to `maxTime`. Each frame announces how long it is good: twice the interval before it.

* `Publisher.burst`: what a change, a new configuration and a new dataset do.
* `Publisher.tick`: the frame that is due, if any, and the publisher after it.
* `Publishers.observe`: tells every enabled publisher about a change of an attribute.
-/

namespace Switchyard.Goose

/-- The delay before the first frame of a new publisher. -/
def firstDelay : Millis := 100

structure Config where
  appId : UInt16
  confRev : UInt32
  /-- The shortest interval between frames. -/
  minTime : Millis
  /-- The longest interval between frames. -/
  maxTime : Millis
  datSet : String
  deriving DecidableEq, Repr

/-- The shortest interval in force: at least one millisecond. -/
def Config.least (c : Config) : Millis := max c.minTime 1

/-- The longest interval in force: at least the shortest one. -/
def Config.most (c : Config) : Millis := max c.maxTime c.least

/-- A member of a dataset: the path of an attribute and the value last seen there. -/
structure Member where
  path : String
  value : Scalar
  deriving DecidableEq

structure Frame where
  ref : String
  appId : UInt16
  stNum : UInt32
  sqNum : UInt32
  datSet : String
  confRev : UInt32
  timeAllowedToLive : Millis
  timestamp : Millis
  members : List Member
  deriving DecidableEq

structure Publisher where
  /-- The path of the control block. -/
  ref : String
  config : Config
  members : List Member
  enabled : Bool
  /-- Counts the changes; never 0. -/
  stNum : UInt32
  /-- Counts the frames since the last change. -/
  sqNum : UInt32
  /-- The time from which the next frame is due. -/
  nextTx : Millis
  interval : Millis
  /-- Whether frames come faster than every `maxTime`. -/
  bursting : Bool
  deriving DecidableEq

/-- The members of a dataset with their present values. -/
def membersOf (m : DataModel) (dataset : List String) : List Member := dataset.map fun path => ⟨path, m.value path⟩

/-- Stores a value in the first member with the given path; nothing if there is none. -/
def storeIn (path : String) (value : Scalar) : List Member → Option (List Member)
  | [] => none
  | member :: rest =>
    if member.path = path then some (⟨path, value⟩ :: rest)
    else (storeIn path value rest).map (member :: ·)

namespace Publisher

/-- A new publisher, enabled and silent until its first frame. -/
def register (ref : String) (config : Config) (dataset : List String) (m : DataModel) (now : Millis) : Publisher :=
  ⟨ref, config, membersOf m dataset, true, 1, 0, Millis.plus now firstDelay, config.most, false⟩

def dataset (p : Publisher) : List String := p.members.map Member.path

/-- The status number after `n`, which skips 0. -/
def nextStatus (n : UInt32) : UInt32 := max (n + 1) 1

/-- Starts a burst: a new status number, and a frame due at once. -/
def burst (p : Publisher) (now : Millis) : Publisher :=
  { p with stNum := nextStatus p.stNum, sqNum := 0, interval := p.config.least, nextTx := now, bursting := true }

/-- Takes note of the new value of an attribute. -/
def observe (p : Publisher) (path : String) (value : Scalar) (now : Millis) : Publisher :=
  if p.enabled then
    match storeIn path value p.members with
    | some members => { p with members }.burst now
    | none => p
  else p

def setConfig (p : Publisher) (config : Config) (now : Millis) : Publisher := { p with config }.burst now

def setDataset (p : Publisher) (dataset : List String) (m : DataModel) (now : Millis) : Publisher :=
  { p with members := membersOf m dataset }.burst now

/-- Whether a frame is due. -/
def due (p : Publisher) (now : Millis) : Bool := p.enabled && p.nextTx ≤ now

/-- The frame a publisher sends. -/
def frame (p : Publisher) (now : Millis) : Frame :=
  ⟨p.ref, p.config.appId, p.stNum, p.sqNum, p.config.datSet, p.config.confRev, Millis.double p.interval, now, p.members⟩

/-- The interval after a frame. -/
def nextInterval (p : Publisher) : Millis :=
  if p.sqNum = 0 then p.config.least else min (Millis.double p.interval) p.config.most

/-- The publisher after a frame. -/
def sent (p : Publisher) (now : Millis) : Publisher :=
  { p with
    interval := p.nextInterval
    bursting := p.nextInterval < p.config.most
    sqNum := p.sqNum + 1
    nextTx := Millis.plus now p.nextInterval }

/-- What a publisher does at a time: it sends a frame if one is due. -/
def tick (p : Publisher) (now : Millis) : Option Frame × Publisher :=
  if p.due now then (some (p.frame now), p.sent now) else (none, p)

end Publisher

/-- All publishers, by the paths of their control blocks. -/
abbrev Publishers := SortedMap String Publisher

namespace Publishers

/-- Tells every publisher about the new value of an attribute. -/
def observe (ps : Publishers) (path : String) (value : Scalar) (now : Millis) : Publishers :=
  ps.mapValues fun _ p => p.observe path value now

/-- The frames that are due, in the order of the publishers, and the publishers after them. -/
def tick (ps : Publishers) (now : Millis) : List Frame × Publishers :=
  (ps.values.filterMap fun p => (p.tick now).1, ps.mapValues fun _ p => (p.tick now).2)

end Publishers
end Switchyard.Goose

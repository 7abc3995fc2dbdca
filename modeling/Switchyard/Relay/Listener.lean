import Switchyard.Channel.Endpoint
import Switchyard.SortedMap

/-!
# Listeners

A listener has an address and the spec it was asked for by; binding the address gave it a port or
failed. What binding gives is up to the host.

* `Listener.bindAll`: the listeners of some specs.
-/

namespace Switchyard.Relay

open Channel

/-- Where a listener is: an IP address and the port that was asked for. -/
structure Address where
  ip : String
  port : UInt16
  deriving DecidableEq, Repr

namespace Address

instance : Ord Address := ⟨compareLex (compareOn Address.ip) (compareOn Address.port)⟩

instance : Std.TransOrd Address :=
  inferInstanceAs (Std.TransCmp (compareLex (compareOn Address.ip) (compareOn Address.port)))

instance : Std.LawfulEqOrd Address where
  eq_of_compare {a b} h := by
    have h : compareLex (compareOn Address.ip) (compareOn Address.port) a b = .eq := h
    simp only [compareLex, compareOn, Ordering.then_eq_eq] at h
    obtain ⟨ip, port⟩ := a
    obtain ⟨ip', port'⟩ := b
    have h1 : ip = ip' := Std.LawfulEqOrd.eq_of_compare h.1
    have h2 : port = port' := Std.LawfulEqOrd.eq_of_compare h.2
    subst h1; subst h2; rfl

/-- The address as traces and errors name it. -/
def label (a : Address) : String := a.ip ++ ":" ++ toString a.port.toNat

end Address

/-- What the machine does for the relay. -/
structure Host where
  /-- The port that an address was bound to, or why it could not be bound. -/
  bind : Protocol → Address → Except String UInt16
  /-- The address that traffic to other machines leaves from. -/
  primary : Option String
  /-- Whether clients get through to an address. -/
  admits : Address → Bool

/-- Every address of this machine that listeners can use. -/
def Host.adapters (h : Host) : List Adapter :=
  [⟨"loopback", "127.0.0.1"⟩, ⟨"all interfaces", "0.0.0.0"⟩] ++ h.primary.toList.map fun ip => ⟨"primary", ip⟩

structure Listener where
  spec : EndpointSpec
  /-- The port it listens on, or why it does not. -/
  port : Except String UInt16

namespace Listener

def isBound (l : Listener) : Bool := l.port matches .ok _

/-- The listener of a spec at an address. -/
def bind (host : Host) (p : Protocol) (spec : EndpointSpec) (a : Address) : Listener where
  spec := spec
  port := (host.bind p a).mapError fun reason => s!"Failed to bind {a.label}: {reason}"

/-- The listeners of some specs, by their addresses. Of specs with one address the first counts. -/
def bindAll (host : Host) (p : Protocol) (address : EndpointSpec → Address) (specs : List EndpointSpec) :
    SortedMap Address Listener :=
  specs.foldl (fun ls spec =>
    if ls.contains (address spec) then ls else ls.insert (address spec) (.bind host p spec (address spec))) ∅

/-- The report on a listener. -/
def status (l : Listener) (p : Protocol) (a : Address) (clients : Nat) : EndpointStatus where
  protocol := p
  ip := a.ip
  port := a.port
  name := l.spec.name
  active := l.isBound
  clientCount := clients
  localPort := l.port.toOption
  error := match l.port with
    | .ok _ => none
    | .error reason => some reason

end Listener
end Switchyard.Relay

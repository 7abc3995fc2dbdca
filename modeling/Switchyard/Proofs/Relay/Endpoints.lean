import Mathlib.Tactic.Common
import Switchyard.Proofs.Relay.Settling
import Switchyard.Relay.Control
import Switchyard.Relay.Traffic

/-!
# Which endpoints a relay has

Endpoints are asked for by lists, one protocol at a time, and the address in a list may
be left open: then it is that of the adapter, which is chosen at another time. The relay
keeps the last lists and the last choice of an adapter, and it binds anew whenever one of
them changes. So the endpoints of a protocol are a function of the last list for it and
of the last choice, in whatever order these and all else has come in, and whether or not
the machine could bind them (`endpoints_as_asked`). A choice of an adapter counts as a
list too where there has been none, so it opens default listeners
(`adapter_opens_defaults`).

* `get?_bindAll`: the listeners of a list; of specs for one address the first counts.
* `SameEndpoints`: what traffic leaves alone.
* `lastList?`, `lastChoice?`, `wanted`: what has been asked for.
* `AsAsked`: a relay that has the endpoints it is asked for.
-/

namespace Switchyard.Relay

open Channel

/-- **The listener at an address** is that of the first spec for it. -/
theorem get?_bindAll (host : Host) (p : Protocol) (address : EndpointSpec → Address) (specs : List EndpointSpec)
    (a : Address) : (Listener.bindAll host p address specs).get? a =
      (specs.find? fun spec => address spec = a).map fun spec => .bind host p spec a := by
  -- what has been bound before stays
  have hsofar : ∀ ls : SortedMap Address Listener,
      (specs.foldl (fun ls spec => if ls.contains (address spec) then ls
        else ls.insert (address spec) (.bind host p spec (address spec))) ls).get? a =
      (ls.get? a).or ((specs.find? fun spec => address spec = a).map fun spec => .bind host p spec a) := by
    induction specs with
    | nil =>
      intro ls
      rw [List.foldl_nil, List.find?_nil, Option.map_none, Option.or_none]
    | cons spec specs ih =>
      intro ls
      rw [List.foldl_cons, ih]
      by_cases hbound : ls.contains (address spec) = true
      · rw [if_pos hbound]
        by_cases haddress : address spec = a
        · obtain ⟨l, hl⟩ := Option.isSome_iff_exists.1 hbound
          rw [← haddress, hl, Option.some_or, Option.some_or]
        · rw [List.find?_cons_of_neg (by simpa using haddress)]
      · rw [if_neg hbound]
        by_cases haddress : address spec = a
        · have hfree : ls.get? a = none := by
            rw [← haddress]
            exact Option.not_isSome_iff_eq_none.1 hbound
          rw [List.find?_cons_of_pos (by simpa using haddress), hfree, haddress, SortedMap.get?_insert_self]
          rfl
        · rw [List.find?_cons_of_neg (by simpa using haddress), SortedMap.get?_insert_of_ne _ _ (Ne.symm haddress)]
  exact hsofar ∅

/-- The endpoints of two relays are the same, and so is all that decides about them. -/
structure SameEndpoints (r r' : Relay) : Prop where
  settings : r'.settings = r.settings
  adapter : r'.adapter = r.adapter
  requested : r'.requested = r.requested
  listeners : r'.listeners = r.listeners

/-- A step that leaves endpoints alone. -/
def Step.SparesEndpoints (f : Step) : Prop := ∀ r, SameEndpoints r (f r).2

theorem SameEndpoints.refl (r : Relay) : SameEndpoints r r := ⟨rfl, rfl, rfl, rfl⟩

theorem SameEndpoints.trans {r r' r'' : Relay} (h : SameEndpoints r r') (h' : SameEndpoints r' r'') :
    SameEndpoints r r'' :=
  ⟨h'.settings.trans h.settings, h'.adapter.trans h.adapter, h'.requested.trans h.requested,
    h'.listeners.trans h.listeners⟩

namespace Step.SparesEndpoints

theorem emit (o : Output) : SparesEndpoints (Step.emit o) := fun r => .refl r

/-- Two steps in a row leave the endpoints alone if both of them do. -/
theorem next {f g : Step} (hf : SparesEndpoints f) (hg : SparesEndpoints g) : SparesEndpoints (f.next g) :=
  fun r => (hf r).trans (hg (f r).2)

theorem all {steps : List Step} (h : ∀ f ∈ steps, SparesEndpoints f) : SparesEndpoints (Step.all steps) := by
  induction steps with
  | nil => exact fun r => .refl r
  | cons f steps ih =>
    obtain ⟨hf, hsteps⟩ := List.forall_mem_cons.1 h
    exact hf.next (ih hsteps)

end Step.SparesEndpoints

/-- A request that is settled leaves the endpoints alone. -/
theorem spares_settle (m : Moment) (t : UInt16) (response : Modbus.Request → Modbus.Response) :
    (settle m t response).SparesEndpoints := by
  intro r
  unfold settle
  split
  · rw [snd_deliver]
    exact ⟨rfl, rfl, rfl, rfl⟩
  · exact .refl r

/-- Requests that are given up leave the endpoints alone. -/
theorem spares_sweep (m : Moment) : (sweep m).SparesEndpoints := by
  intro r
  refine Step.SparesEndpoints.all ?_ r
  intro f hf
  obtain ⟨t, -, rfl⟩ := List.mem_map.1 hf
  exact spares_settle m t failure

theorem spares_request (heard : Bool) (m : Moment) (id : ConnectionId) (c : Connection) (frame : Modbus.Frame) :
    (request heard m id c frame).SparesEndpoints := by
  unfold request
  refine (Step.SparesEndpoints.emit _).next ?_
  split
  · exact (Step.SparesEndpoints.emit _).next (.emit _)
  · have hhold (t : UInt16) (p : Pending) : (hold t p).SparesEndpoints := fun r => ⟨rfl, rfl, rfl, rfl⟩
    refine (hhold _ _).next ?_
    split
    · exact .emit _
    · exact spares_settle m _ failure

/-- What a client sends leaves the endpoints alone. -/
theorem spares_exchange (m : Moment) (id : ConnectionId) (c : Connection) (packet : Bytes) :
    (exchange m id c packet).SparesEndpoints := by
  intro r
  unfold exchange
  simp only
  split
  · exact ((Step.SparesEndpoints.emit _).next ((Step.SparesEndpoints.emit _).next (.emit _))) r
  · exact ((Step.SparesEndpoints.emit _).next (.emit _)) r

theorem spares_keep {ε : Type} (id : ConnectionId) (error : Option ε) (rest : Bytes) :
    (keep id error rest).SparesEndpoints := by
  cases error with
  | none => exact fun r => ⟨rfl, rfl, rfl, rfl⟩
  | some e => exact fun r => ⟨rfl, rfl, rfl, rfl⟩

/-- **Bytes of clients leave endpoints alone**, whatever they are. -/
theorem spares_receive (heard : Bool) (m : Moment) (id : ConnectionId) (bytes : Bytes) :
    (receive heard m id bytes).SparesEndpoints := by
  intro r
  unfold receive
  split
  · exact .refl r
  · rename_i c _
    split
    · exact .refl r
    · split
      · refine (Step.SparesEndpoints.all ?_).next (spares_keep id _ _) r
        intro f hf
        obtain ⟨frame, -, rfl⟩ := List.mem_map.1 hf
        exact spares_request heard m id c frame
      · refine (Step.SparesEndpoints.all ?_).next (spares_keep id _ _) r
        intro f hf
        obtain ⟨packet, -, rfl⟩ := List.mem_map.1 hf
        exact spares_exchange m id c packet

/-- A client that connects leaves the endpoints alone. -/
theorem same_accept {host : Host} {p : Protocol} {ip : String} {r r' : Relay} {id : ConnectionId}
    (h : accept host p ip r = .ok (id, r')) : SameEndpoints r r' := by
  unfold accept at h
  split at h
  · split at h
    · cases h
    · split at h
      · cases h
      · cases h
        exact ⟨rfl, rfl, rfl, rfl⟩
  · cases h

/-- Of all messages, only those about endpoints and adapters touch endpoints. -/
theorem spares_handle (host : Host) (m : Moment) {message : Message}
    (hlist : ∀ p specs, message ≠ .setEndpoints p specs)
    (hchoice : ∀ ip, message ≠ .bindAdapter ip) : (handle host m message).SparesEndpoints := by
  cases message with
  | setEndpoints p specs => exact absurd rfl (hlist p specs)
  | bindAdapter ip => exact absurd rfl (hchoice ip)
  | modbusResponse a => exact spares_settle m a.id a.response
  | iedModel model => exact fun r => ⟨rfl, rfl, rfl, rfl⟩
  | _ => exact fun r => .refl r

namespace Endpoints

/-- What can happen to a relay. -/
inductive Action where
  | message (host : Host) (moment : Moment) (message : Message)
  | reset (host : Host)
  /-- A control client connects. -/
  | register (host : Host)
  | accept (host : Host) (protocol : Protocol) (ip : String)
  | receive (heard : Bool) (moment : Moment) (connection : ConnectionId) (bytes : Bytes)
  | disconnect (connection : ConnectionId)
  | sweep (moment : Moment)

/-- The relay after something has happened. The machine may bind differently each time. -/
def act (r : Relay) : Action → Relay
  | .message host m message => (handle host m message r).2
  | .reset host => (Relay.reset host r).2
  | .register host => (Relay.register host r).2
  | .accept host p ip =>
    match Relay.accept host p ip r with
    | .ok (_, r) => r
    | .error _ => r
  | .receive heard m id bytes => (Relay.receive heard m id bytes r).2
  | .disconnect id => (Relay.disconnect id r).2
  | .sweep m => (Relay.sweep m r).2

/-- The relay after all that has happened since it was started, the latest first. -/
def present (s : Settings) : List Action → Relay
  | [] => Relay.new s
  | action :: past => act (present s past) action

/-- The list that a protocol is asked to listen on. A reset asks for none. -/
def Action.list? (s : Settings) (p : Protocol) : Action → Option (List EndpointSpec)
  | .message _ _ (.setEndpoints q specs) => if q = p then some specs else none
  | .reset _ => some []
  | .register _ => if s.resetOnConnect then some [] else none
  | _ => none

/-- The adapter that is chosen; an empty text gives the choice up. -/
def Action.choice? : Action → Option String
  | .message _ _ (.bindAdapter ip) => some ip
  | _ => none

/-- The last list for a protocol, if there has been one. -/
def lastList? (s : Settings) (p : Protocol) (past : List Action) : Option (List EndpointSpec) :=
  past.findSome? (Action.list? s p)

/-- The last choice of an adapter, if there has been one. -/
def lastChoice? (past : List Action) : Option String := past.findSome? Action.choice?

/-- The last list is that of the last action that brought one. -/
theorem lastList?_cons (s : Settings) (p : Protocol) (action : Action) (past : List Action) :
    lastList? s p (action :: past) = (action.list? s p).or (lastList? s p past) := by
  rw [lastList?, List.findSome?_cons]
  cases action.list? s p <;> rfl

/-- The last choice of an adapter is that of the last action that made one. -/
theorem lastChoice?_cons (action : Action) (past : List Action) :
    lastChoice? (action :: past) = action.choice?.or (lastChoice? past) := by
  rw [lastChoice?, List.findSome?_cons]
  cases action.choice? <;> rfl

/-- The adapter that is chosen now. -/
def adapterOf (past : List Action) : Option String := (lastChoice? past).filter (· ≠ "")

/-- The address that a spec stands for: an empty one is that of the adapter, or all of them if there is none. -/
def placeOf (adapter : Option String) (spec : EndpointSpec) : Address :=
  ⟨if spec.ip = "" then adapter.getD "0.0.0.0" else spec.ip, spec.port⟩

/-- **What a protocol is to listen on**: its last list, or one default listener if that is empty and defaults are
allowed. Where there has been no list, the choice of an adapter is one that is empty. -/
def wanted (s : Settings) (p : Protocol) (past : List Action) : List EndpointSpec :=
  match lastList? s p past, lastChoice? past with
  | none, none => []
  | none, some _ | some [], _ => if s.allowDefaults then [{ ip := "", port := s.defaultPort p }] else []
  | some (spec :: specs), _ => spec :: specs

theorem addressOf_eq (adapter : Option String) (spec : EndpointSpec) :
    addressOf adapter spec = placeOf adapter spec := by
  rw [addressOf, effectiveIp, placeOf]
  by_cases hip : spec.ip = ""
  · simp [hip]
  · have hne : spec.ip.isEmpty = false := by simpa [String.isEmpty_iff] using hip
    rw [hne, if_neg hip]
    rfl

/-- The list in effect is the last one that was asked for, or the defaults where these may open. -/
theorem effectiveSpecs_eq_wanted {s : Settings} {p : Protocol} {past : List Action}
    (hasked : (lastList? s p past).isSome = true ∨ (lastChoice? past).isSome = true) :
    effectiveSpecs s p ((lastList? s p past).getD []) = wanted s p past := by
  unfold wanted effectiveSpecs
  cases hlast : lastList? s p past with
  | none =>
    cases hchosen : lastChoice? past with
    | none => simp [hlast, hchosen] at hasked
    | some ip => rfl
  | some specs =>
    cases specs with
    | nil => cases s.allowDefaults <;> rfl
    | cons spec specs => rfl

/-- A relay that knows what it has been asked for, and has the endpoints for it. -/
structure Tracks (s : Settings) (past : List Action) (r : Relay) : Prop where
  settings : r.settings = s
  adapter : r.adapter = adapterOf past
  requested : ∀ p, r.requested p = (lastList? s p past).getD []
  listeners : ∀ p a, ((r.listeners p).get? a).map Listener.spec =
    (wanted s p past).find? fun spec => placeOf (adapterOf past) spec = a

variable {s : Settings} {past : List Action} {r : Relay}

/-- What asks for nothing and touches no endpoint. -/
theorem Tracks.of_same {action : Action} (h : Tracks s past r) (hlist : ∀ p, action.list? s p = none)
    (hchoice : action.choice? = none) (hsame : SameEndpoints r (act r action)) :
    Tracks s (action :: past) (act r action) := by
  have hlast : ∀ p, lastList? s p (action :: past) = lastList? s p past := by
    intro p
    rw [lastList?_cons, hlist p, Option.none_or]
  have hlastChoice : lastChoice? (action :: past) = lastChoice? past := by
    rw [lastChoice?_cons, hchoice, Option.none_or]
  have hadapter : adapterOf (action :: past) = adapterOf past := by rw [adapterOf, hlastChoice, adapterOf]
  refine ⟨hsame.settings.trans h.settings, ?_, ?_, ?_⟩
  · rw [hsame.adapter, h.adapter, hadapter]
  · intro p
    rw [hsame.requested, h.requested, hlast]
  · intro p a
    rw [hsame.listeners, h.listeners, hadapter, wanted, wanted, hlast, hlastChoice]

/-- Listeners that are bound for the last list are the wanted ones. -/
theorem find?_wanted {p : Protocol} {specs : List EndpointSpec} (host : Host) (a : Address)
    (hspecs : specs = (lastList? s p past).getD [])
    (hasked : (lastList? s p past).isSome = true ∨ (lastChoice? past).isSome = true) :
    ((Listener.bindAll host p (addressOf (adapterOf past)) (effectiveSpecs s p specs)).get? a).map Listener.spec =
      (wanted s p past).find? fun spec => placeOf (adapterOf past) spec = a := by
  have hspec : (Listener.spec ∘ fun spec => Listener.bind host p spec a) = id := rfl
  rw [get?_bindAll, hspecs, effectiveSpecs_eq_wanted hasked, Option.map_map, hspec, Option.map_id]
  simp only [addressOf_eq, id]

/-- All protocols listen anew, each on its own list. -/
structure Renewed (host : Host) (lists : Protocol → List EndpointSpec) (r r' : Relay) : Prop where
  settings : r'.settings = r.settings
  adapter : r'.adapter = r.adapter
  requested : ∀ p, r'.requested p = lists p
  listeners : ∀ p, r'.listeners p =
    Listener.bindAll host p (addressOf r.adapter) (effectiveSpecs r.settings p (lists p))

/-- Every protocol is renewed with its own list, whatever the other ones are given. -/
theorem renewed_all (host : Host) (lists : Protocol → List EndpointSpec) (r : Relay) :
    Renewed host lists r (Step.all (Protocol.all.map fun p => setEndpoints host p (lists p)) r).2 where
  settings := rfl
  adapter := rfl
  requested p := by cases p <;> rfl
  listeners p := by cases p <;> rfl

/-- A choice of an adapter repeats what each protocol was asked for: to listen anew for one of them leaves the list of
the other as it is. -/
theorem renewed_bindAdapter (host : Host) (ip : String) (r : Relay) :
    Renewed host r.requested { r with adapter := if ip.isEmpty then none else some ip } (bindAdapter host ip r).2 :=
  renewed_all host r.requested { r with adapter := if ip.isEmpty then none else some ip }

/-- After every protocol has been asked for a list, by whatever came last, the relay tracks what was asked. -/
theorem Tracks.of_renewed {action : Action} {host : Host} {lists : Protocol → List EndpointSpec} {r' : Relay}
    (hsettings : r.settings = s) (hadapter : r.adapter = adapterOf (action :: past))
    (hlists : ∀ p, lists p = (lastList? s p (action :: past)).getD [])
    (hasked : ∀ p, (lastList? s p (action :: past)).isSome = true ∨ (lastChoice? (action :: past)).isSome = true)
    (h : Renewed host lists r r') : Tracks s (action :: past) r' := by
  refine ⟨h.settings.trans hsettings, h.adapter.trans hadapter, ?_, ?_⟩
  · intro p
    rw [h.requested, hlists]
  · intro p a
    rw [h.listeners, hsettings, hadapter]
    exact find?_wanted host a (hlists p) (hasked p)

/-- A choice counts at once, and an empty one leaves no adapter. -/
theorem adapterOf_bindAdapter (host : Host) (m : Moment) (ip : String) (past : List Action) :
    adapterOf (.message host m (.bindAdapter ip) :: past) = if ip = "" then none else some ip := by
  show (some ip).filter (· ≠ "") = if ip = "" then none else some ip
  by_cases hip : ip = "" <;> simp [hip, Option.filter_some]

/-- The choice of an adapter opens all endpoints anew. -/
theorem Tracks.bindAdapter (h : Tracks s past r) (host : Host) (m : Moment) (ip : String) :
    Tracks s (.message host m (.bindAdapter ip) :: past) (Relay.bindAdapter host ip r).2 := by
  refine .of_renewed (r := { r with adapter := if ip.isEmpty then none else some ip }) h.settings ?_ ?_
    (fun _ => .inr rfl) (renewed_bindAdapter host ip r)
  · rw [adapterOf_bindAdapter]
    simp only [String.isEmpty_iff]
  · intro p
    exact h.requested p

/-- A reset asks every protocol for the empty list. -/
theorem Tracks.reset {action : Action} (h : Tracks s past r) (host : Host)
    (hlist : ∀ p, action.list? s p = some []) (hchoice : action.choice? = none) :
    Tracks s (action :: past) (Relay.reset host r).2 := by
  have hlast : ∀ p, lastList? s p (action :: past) = some [] := by
    intro p
    rw [lastList?_cons, hlist p, Option.some_or]
  refine .of_renewed h.settings ?_ ?_ ?_ (renewed_all host (fun _ => []) r)
  · rw [h.adapter, adapterOf, adapterOf, lastChoice?_cons, hchoice, Option.none_or]
  · intro p
    rw [hlast p]
    rfl
  · intro p
    rw [hlast p]
    exact .inl rfl

/-- A list for one protocol counts for that protocol, and the other keeps its own. -/
theorem Tracks.setEndpoints (h : Tracks s past r) (host : Host) (m : Moment) (p : Protocol)
    (specs : List EndpointSpec) :
    Tracks s (.message host m (.setEndpoints p specs) :: past) (Relay.setEndpoints host p specs r).2 := by
  have hself : lastList? s p (.message host m (.setEndpoints p specs) :: past) = some specs := by
    rw [lastList?_cons, Action.list?, if_pos rfl, Option.some_or]
  have hother : ∀ q, q ≠ p → lastList? s q (.message host m (.setEndpoints p specs) :: past) = lastList? s q past := by
    intro q hq
    rw [lastList?_cons, Action.list?, if_neg (Ne.symm hq), Option.none_or]
  refine ⟨h.settings, h.adapter, ?_, ?_⟩
  · intro q
    by_cases hq : q = p
    · rw [hq, hself]
      exact if_pos rfl
    · rw [hother q hq, ← h.requested q]
      exact if_neg hq
  · intro q a
    by_cases hq : q = p
    · have hbound : (Relay.setEndpoints host p specs r).2.listeners p =
          Listener.bindAll host p (addressOf r.adapter) (effectiveSpecs r.settings p specs) := if_pos rfl
      have hadapter : r.adapter = adapterOf (.message host m (.setEndpoints p specs) :: past) := h.adapter
      rw [hq, hbound, h.settings, hadapter]
      exact find?_wanted host a (by rw [hself]; rfl) (.inl (by rw [hself]; rfl))
    · have hkept : (Relay.setEndpoints host p specs r).2.listeners q = r.listeners q := if_neg hq
      rw [hkept, h.listeners q a, wanted, wanted, hother q hq]
      rfl

/-- What happens next is tracked too. -/
theorem Tracks.act (h : Tracks s past r) (action : Action) : Tracks s (action :: past) (act r action) := by
  cases action with
  | message host m message =>
    cases message with
    | setEndpoints p specs => exact h.setEndpoints host m p specs
    | bindAdapter ip => exact h.bindAdapter host m ip
    | _ => exact h.of_same (fun _ => rfl) rfl (spares_handle host m (by simp) (by simp) r)
  | reset host => exact h.reset host (fun _ => rfl) rfl
  | register host =>
    -- The client is counted first, which no endpoint depends on.
    have hcounted : Tracks s past { r with controlClients := r.controlClients + 1 } :=
      ⟨h.settings, h.adapter, h.requested, h.listeners⟩
    -- A control client that connects resets all endpoints, or none.
    cases hreset : s.resetOnConnect with
    | true =>
      have hact : Endpoints.act r (.register host) =
          (Relay.reset host { r with controlClients := r.controlClients + 1 }).2 := by
        simp [Endpoints.act, Relay.register, h.settings, hreset]
      rw [hact]
      exact hcounted.reset host (fun p => if_pos hreset) rfl
    | false =>
      refine h.of_same (fun p => ?_) rfl ?_
      · rw [Action.list?, hreset]
        rfl
      · have hact : Endpoints.act r (.register host) = { r with controlClients := r.controlClients + 1 } := by
          simp [Endpoints.act, Relay.register, h.settings, hreset]
        rw [hact]
        exact ⟨rfl, rfl, rfl, rfl⟩
  | accept host p ip =>
    refine h.of_same (fun _ => rfl) rfl ?_
    simp only [Endpoints.act]
    cases haccept : Relay.accept host p ip r with
    | ok accepted => exact same_accept haccept
    | error _ => exact .refl r
  | receive heard m id bytes => exact h.of_same (fun _ => rfl) rfl (spares_receive heard m id bytes r)
  | disconnect id => exact h.of_same (fun _ => rfl) rfl ⟨rfl, rfl, rfl, rfl⟩
  | sweep m => exact h.of_same (fun _ => rfl) rfl (spares_sweep m r)

/-- **Endpoints follow what is asked for**, whatever happens. -/
theorem tracks_present (s : Settings) (past : List Action) : Tracks s past (present s past) := by
  induction past with
  | nil => exact ⟨rfl, rfl, fun _ => rfl, fun _ _ => rfl⟩
  | cons action past ih => exact ih.act action

/-- **A relay that has the endpoints it was asked for**, for one protocol. -/
structure AsAsked (s : Settings) (past : List Action) (p : Protocol) : Prop where
  /-- There is an endpoint where a wanted spec stands, bound or not, and nowhere else. -/
  addresses : ∀ a, ((present s past).listeners p).contains a = true ↔
    ∃ spec ∈ wanted s p past, placeOf (adapterOf past) spec = a
  /-- Of specs that stand for one address the first is kept. -/
  first : ∀ a l, ((present s past).listeners p).get? a = some l →
    (wanted s p past).find? (fun spec => placeOf (adapterOf past) spec = a) = some l.spec
  /-- The choice of an adapter moves what is wanted already, and changes nothing else about it. -/
  moved : (lastList? s p past).isSome = true ∨ (lastChoice? past).isSome = true → ∀ host m ip a,
    ((present s (.message host m (.bindAdapter ip) :: past)).listeners p).contains a = true ↔
      ∃ spec ∈ wanted s p past, placeOf (if ip = "" then none else some ip) spec = a
  /-- No other message that is not a list for this protocol changes its endpoints in any way. -/
  apart : ∀ host m message, (∀ specs, message ≠ .setEndpoints p specs) → (∀ ip, message ≠ .bindAdapter ip) →
    (present s (.message host m message :: past)).listeners p = (present s past).listeners p

/-- There is a listener at an address exactly when an endpoint is wanted there. -/
theorem Tracks.contains_iff (h : Tracks s past r) (p : Protocol) (a : Address) :
    (r.listeners p).contains a = true ↔ ∃ spec ∈ wanted s p past, placeOf (adapterOf past) spec = a := by
  have hfound : (r.listeners p).contains a = (((r.listeners p).get? a).map Listener.spec).isSome := by
    rw [Option.isSome_map]
    rfl
  rw [hfound, h.listeners p a, List.find?_isSome]
  simp only [decide_eq_true_eq]

/-- A choice of an adapter is not a list, and leaves what was wanted before. -/
theorem wanted_bindAdapter {p : Protocol}
    (hasked : (lastList? s p past).isSome = true ∨ (lastChoice? past).isSome = true)
    (host : Host) (m : Moment) (ip : String) :
    wanted s p (.message host m (.bindAdapter ip) :: past) = wanted s p past := by
  rw [← effectiveSpecs_eq_wanted hasked, ← effectiveSpecs_eq_wanted (.inr rfl)]
  rfl

/-- **Endpoints are a function of the last requests.** Whatever has happened, each protocol has the endpoints of its
last list at the addresses that the adapter of now gives them. -/
theorem endpoints_as_asked (s : Settings) (past : List Action) (p : Protocol) : AsAsked s past p where
  addresses a := (tracks_present s past).contains_iff p a
  first a l hl := by
    rw [← (tracks_present s past).listeners p a, hl, Option.map_some]
  moved hasked host m ip a := by
    rw [(tracks_present s _).contains_iff p a, wanted_bindAdapter hasked, adapterOf_bindAdapter]
  apart host m message hlist hchoice := by
    show (handle host m message (present s past)).2.listeners p = (present s past).listeners p
    by_cases hother : ∃ q specs, message = .setEndpoints q specs
    · obtain ⟨q, specs, rfl⟩ := hother
      have hq : p ≠ q := by
        rintro rfl
        exact hlist specs rfl
      exact if_neg hq
    · have hspared : (handle host m message).SparesEndpoints :=
        spares_handle host m (fun q specs h => hother ⟨q, specs, h⟩) hchoice
      exact congrFun (hspared (present s past)).listeners p

/-- The choice of an adapter opens default listeners for protocols that nobody has ever sent a list for. -/
theorem adapter_opens_defaults :
    let s : Settings := { Settings.standard with allowDefaults := true }
    let host : Host := { bind := fun _ a => .ok a.port, primary := none, admits := fun _ => true }
    let past : List Action := [.message host ⟨0, ⟨2024, 1, 1, 0, 0, 0, 0⟩⟩ (.bindAdapter "127.0.0.1")]
    (lastList? s .modbus past = none ∧ lastList? s .iec61850 past = none) ∧
      ((present s past).listeners .modbus).keys = [⟨"127.0.0.1", 502⟩] ∧
      ((present s past).listeners .iec61850).keys = [⟨"127.0.0.1", 102⟩] := by
  decide

end Endpoints
end Switchyard.Relay

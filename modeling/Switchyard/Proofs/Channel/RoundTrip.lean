import Switchyard.Channel.Codec
import Switchyard.Proofs.Json.Record

/-!
# Messages are read back

A message that is written and read is the message that it was, and no two messages are
written alike (`message_round_trip`). This is about messages without a time of the wall
clock, as long as their scalars have a form in JSON; of these messages no others survive
(`ofJson?_toJson_iff`). A command with the value `null` does not: it is read back as one
without a value (`null_value_is_lost`).

* `slots`: the fields of each record, in the order in which they are written.
* `ofJsonWithin?_toJson`: models are read back, however deep they are.
* `tagged_toJson`: the kind of a message is told apart from its fields.
* `Survives`: the messages that are read back.
-/

namespace Switchyard

open Json

namespace IedNode

/-- The fields of a node. A node without children has nothing to say about them. -/
def slots (n : IedNode) : List (String × Option Json) :=
  [("name", some (string n.name)), ("type", n.kind.map string),
    ("children", if n.children.isEmpty then none else some (array (n.children.map toJson)))]

theorem toJsons_eq_map (ns : List IedNode) : toJsons ns = ns.map toJson := by
  induction ns with
  | nil => rfl
  | cons n ns ih => rw [toJsons, ih, List.map_cons]

theorem toJson_eq (n : IedNode) : n.toJson = object (recorded n.slots) := by
  obtain ⟨name, kind, children⟩ := n
  rw [toJson, toJsons_eq_map, slots]
  cases kind <;> cases children <;> rfl

/-- Children are two levels further down: in a list, which is in an object. -/
theorem depth_of_child {n child : IedNode} (h : child ∈ n.children) : child.toJson.depth + 2 ≤ n.toJson.depth := by
  have hchildren : n.children.isEmpty = false := by
    cases hn : n.children with
    | nil => simp [hn] at h
    | cons _ _ => rfl
  have hitems : child.toJson.depth ≤ depthOfItems (n.children.map toJson) :=
    depth_le_of_mem_items (List.mem_map_of_mem h)
  have hmember : (("children", array (n.children.map toJson)) : String × Json) ∈ recorded n.slots := by
    cases hkind : n.kind <;> simp [slots, recorded, hchildren, hkind]
  have hdepth : (array (n.children.map toJson)).depth ≤ depthOfMembers (recorded n.slots) :=
    depth_le_of_mem_members hmember
  have hlist : (array (n.children.map toJson)).depth = depthOfItems (n.children.map toJson) + 1 := rfl
  have hobject : (object (recorded n.slots)).depth = depthOfMembers (recorded n.slots) + 1 := rfl
  rw [toJson_eq n, hobject]
  omega

/-- **A model is read back**, by a reader that goes as deep as it is written. -/
theorem ofJsonWithin?_toJson (depth : Nat) : ∀ n : IedNode, n.toJson.depth ≤ depth →
    ofJsonWithin? depth n.toJson = some n := by
  -- The induction is on the depth up to which trees are read, since a tree is deeper than its children.
  induction depth with
  | zero =>
    intro n hn
    rw [toJson_eq, Json.depth] at hn
    omega
  | succ depth ih =>
    intro n hn
    have hchildren : ∀ child ∈ n.children, ofJsonWithin? depth child.toJson = some child := by
      intro child hchild
      have hdepth := depth_of_child hchild
      exact ih child (by omega)
    -- An empty list of children is left out and read back as the empty list.
    have hlist : orElse [] (listOf (ofJsonWithin? depth))
        (if n.children.isEmpty then none else some (array (n.children.map toJson))) = some n.children := by
      cases hempty : n.children.isEmpty with
      | true =>
        rw [List.isEmpty_iff.1 hempty]
        rfl
      | false => exact listOf_map_iff.2 hchildren
    have hfields : fields .plain [["name"], ["type"], ["children"]] n.toJson = some (n.slots.map Prod.snd) := by
      rw [toJson_eq]
      exact fields_recorded _ _ rfl (by decide)
    rw [ofJsonWithin?, hfields]
    simp only [slots, List.map_cons, List.map_nil, required_some, asString_string, optional_asString, hlist,
      Option.bind_eq_bind, Option.bind_some]
    cases n
    rfl

theorem ofJson?_toJson (n : IedNode) : ofJson? n.toJson = some n := ofJsonWithin?_toJson _ n (Nat.le_refl _)

end IedNode

namespace Channel

/-- Protocols are read back in both dialects. -/
theorem Protocol.ofJson?_toJson (d : Dialect) (p : Protocol) : Protocol.ofJson? d p.toJson = some p := by
  cases p <;> rfl

theorem Adapter.ofJson?_toJson (a : Adapter) : Adapter.ofJson? a.toJson = some a := rfl

namespace EndpointSpec

def slots (s : EndpointSpec) : List (String × Option Json) :=
  [("ip", some (string s.ip)), ("port", some (int s.port.toNat)), ("name", s.name.map string),
    ("unitId", s.unit.map fun n => int n.toNat), ("backendHost", s.backendHost.map string),
    ("backendPort", s.backendPort.map fun n => int n.toNat)]

theorem toJson_eq (s : EndpointSpec) : s.toJson = object (recorded s.slots) := by
  simp [toJson, slots]

theorem ofJson?_toJson (s : EndpointSpec) : ofJson? s.toJson = some s := by
  rw [ofJson?, toJson_eq, fields_recorded _ _ rfl (by decide)]
  simp [slots, orElse]

end EndpointSpec

namespace EndpointStatus

def slots (s : EndpointStatus) : List (String × Option Json) :=
  [("protocol", some s.protocol.toJson), ("ip", some (string s.ip)), ("port", some (int s.port.toNat)),
    ("name", s.name.map string), ("status", some (string (stateName s.active))),
    ("clientCount", some (int s.clientCount)), ("localPort", s.localPort.map fun n => int n.toNat),
    ("error", s.error.map string)]

theorem toJson_eq (s : EndpointStatus) : s.toJson = object (recorded s.slots) := by
  simp [toJson, slots]

/-- States are read back in both dialects. -/
theorem stateOfJson?_stateName (d : Dialect) (active : Bool) :
    stateOfJson? d (string (stateName active)) = some active := by
  cases active <;> rfl

/-- What becomes of a report is what becomes of its count. -/
theorem ofJson?_toJson_eq (d : Dialect) (s : EndpointStatus) : ofJson? d s.toJson =
    (asNat (UInt64.size - 1) (int s.clientCount)).map fun count => { s with clientCount := count } := by
  rw [ofJson?, toJson_eq, fields_recorded _ _ rfl (by decide)]
  simp only [slots, List.map_cons, List.map_nil, required_some, asUInt16_toNat, asString_string, optional_asString,
    optional_asUInt16, Protocol.ofJson?_toJson, stateOfJson?_stateName, Option.bind_eq_bind, Option.bind_some]
  exact Option.map_eq_bind.symm

theorem ofJson?_toJson_iff (d : Dialect) (s : EndpointStatus) :
    ofJson? d s.toJson = some s ↔ s.clientCount < UInt64.size := by
  rw [ofJson?_toJson_eq, map_eq_some_iff_field clientCount (fun _ => rfl) rfl, asNat_natCast_iff]
  exact Nat.le_sub_one_iff_lt (by decide)

end EndpointStatus

namespace Command

def slots (c : Command) : List (String × Option Json) :=
  [("requestId", some (int c.id.toNat)), ("endpoint", some (string c.endpoint)), ("unitId", some (int c.unit.toNat)),
    ("functionCode", some (int c.function.toNat)), ("address", some (int c.address.toNat)),
    ("quantity", c.quantity.map fun n => int n.toNat), ("value", c.value.map ofScalar)]

theorem members_eq (c : Command) : c.members = recorded c.slots := by
  simp [members, slots]

/-- What becomes of a command is what becomes of its value. -/
theorem ofJson?_members (c : Command) : ofJson? (object c.members) =
    (optional toScalar? (c.value.map ofScalar)).map fun value => { c with value := value } := by
  rw [ofJson?, members_eq, fields_recorded _ _ rfl (by decide)]
  simp only [slots, List.map_cons, List.map_nil, required_some, asUInt16_toNat, asUInt8_toNat, asString_string,
    optional_asUInt16, Option.bind_eq_bind, Option.bind_some]
  exact Option.map_eq_bind.symm

theorem ofJson?_members_iff (c : Command) : ofJson? (object c.members) = some c ↔
    ∀ v, c.value = some v → v.IsExpressible ∧ v ≠ .null := by
  rw [ofJson?_members, map_eq_some_iff_field Command.value (fun _ => rfl) rfl, optional_toScalar?_iff]

end Command

namespace Answer

def slots (a : Answer) : List (String × Option Json) :=
  [("requestId", some (int a.id.toNat)), ("functionCode", some (int a.function.toNat)),
    ("values", a.values.map fun vs => array (vs.map ofScalar)), ("exceptionCode", a.exception.map fun n => int n.toNat)]

theorem members_eq (a : Answer) : a.members = recorded a.slots := by
  simp [members, slots]

/-- What becomes of an answer is what becomes of its values. -/
theorem ofJson?_members (a : Answer) : ofJson? (object a.members) =
    (optional (listOf toScalar?) (a.values.map fun vs => array (vs.map ofScalar))).map fun values =>
      { a with values := values } := by
  rw [ofJson?, members_eq, fields_recorded _ _ rfl (by decide)]
  simp only [slots, List.map_cons, List.map_nil, required_some, asUInt16_toNat, asUInt8_toNat, optional_asUInt8,
    Option.bind_eq_bind, Option.bind_some]
  exact Option.map_eq_bind.symm

theorem ofJson?_members_iff (a : Answer) : ofJson? (object a.members) = some a ↔
    ∀ vs, a.values = some vs → ∀ v ∈ vs, v.IsExpressible := by
  rw [ofJson?_members, map_eq_some_iff_field Answer.values (fun _ => rfl) rfl, optional_map_iff]
  refine forall₂_congr fun vs _ => ?_
  rw [listOf_map_iff]
  simp only [toScalar?_ofScalar_iff, ne_eq, reduceCtorEq, not_false_eq_true, and_true]

end Answer

namespace Message

/-- No field has the name that the kind of a message is written under. -/
theorem key_ne_type (m : Message) : ∀ member ∈ m.members, member.1 ≠ "type" := by
  intro member hmember
  cases m with
  | modbusCommand c =>
    rw [members, c.members_eq] at hmember
    have hkey := key_of_mem_recorded hmember
    intro htype
    simp [htype, Command.slots] at hkey
  | modbusResponse a =>
    rw [members, a.members_eq] at hmember
    have hkey := key_of_mem_recorded hmember
    intro htype
    simp [htype, Answer.slots] at hkey
  | _ =>
    revert member
    simp [members, ModbusTrace.members, IecTrace.members]

/-- The kind of a message is told apart from its fields. -/
theorem tagged_toJson (m : Message) : tagged m.toJson = some (m.kind, object m.members) := by
  have hkind : m.members.filter (fun member => member.1 == "type") = [] :=
    List.filter_eq_nil_iff.2 fun member hmember => by simpa using m.key_ne_type member hmember
  have hfields : m.members.filter (fun member => member.1 != "type") = m.members :=
    List.filter_eq_self.2 fun member hmember => by simpa using m.key_ne_type member hmember
  simp [toJson, tagged, hkind, hfields]

theorem single_member {α : Type} (name : String) (decode : Decode α) (v : Json) :
    single name decode (object [(name, v)]) = decode v := by
  have hnames : TellApart [[name]] := by simp [TellApart, keyOf]
  have hfields : fields .carried [[name]] (object [(name, v)]) = some [some v] :=
    fields_recorded .carried [(name, some v)] rfl hnames
  rw [single, hfields]
  rfl

/-- A list of endpoints is read back with its protocol. -/
theorem setEndpointsOf?_members (p : Protocol) (endpoints : List EndpointSpec) :
    setEndpointsOf? (object (setEndpoints p endpoints).members) = some (.setEndpoints p endpoints) := by
  have hlist := listOf_map_iff.2 fun e (_ : e ∈ endpoints) => EndpointSpec.ofJson?_toJson e
  have hfields : fields .carried [["protocol"], ["endpoints"]] (object (setEndpoints p endpoints).members) =
      some [some p.toJson, some (array (endpoints.map EndpointSpec.toJson))] :=
    fields_recorded .carried [("protocol", some _), ("endpoints", some _)] rfl (by decide)
  rw [setEndpointsOf?, hfields]
  simp [Protocol.ofJson?_toJson, hlist]

/-- Whether a message bears the time of a wall clock. -/
def bearsTime : Message → Bool
  | modbusTrace _ | iecTrace _ | controlUpdate _ _ => true
  | _ => false

/-- **Messages that survive** being written and read: they bear no time of the wall clock, their scalars have a form
in JSON, and no command has the value `null`, which is read as none. Clients are counted in 64 bits. -/
def Survives : Message → Prop
  | modbusCommand c => ∀ v, c.value = some v → v.IsExpressible ∧ v ≠ .null
  | modbusResponse a => ∀ vs, a.values = some vs → ∀ v ∈ vs, v.IsExpressible
  | endpointStatusList endpoints => ∀ e ∈ endpoints, e.clientCount < UInt64.size
  | modbusTrace _ | iecTrace _ | controlUpdate _ _ => False
  | _ => True

/-- **Just these messages survive**, of those that bear no time. -/
theorem ofJson?_toJson_iff {m : Message} (h : m.bearsTime = false) :
    Message.ofJson? m.toJson = some m ↔ m.Survives := by
  rw [Message.ofJson?, tagged_toJson]
  cases m with
  | adapterList adapters =>
    have hlist := listOf_map_iff.2 fun a (_ : a ∈ adapters) => Adapter.ofJson?_toJson a
    simp [kind, members, single_member, hlist, Survives]
  | bindAdapter ip => simp [kind, members, single_member, Survives]
  | setEndpoints p endpoints => exact iff_of_true (setEndpointsOf?_members p endpoints) trivial
  | endpointStatusList endpoints =>
    simp [kind, members, single_member, Survives, Option.bind_eq_some_iff, listOf_map_iff,
      EndpointStatus.ofJson?_toJson_iff]
  | iedModel model => simp [kind, members, single_member, IedNode.ofJson?_toJson, Survives]
  | modbusCommand c => simp [kind, members, Survives, Option.bind_eq_some_iff, Command.ofJson?_members_iff]
  | modbusResponse a => simp [kind, members, Survives, Option.bind_eq_some_iff, Answer.ofJson?_members_iff]
  | modbusTrace _ | iecTrace _ | controlUpdate _ _ => cases h
  | getAdapters | getEndpointStatus | getIedModel => exact iff_of_true rfl trivial

/-- A message that survives bears no time. -/
theorem Survives.bearsTime_eq_false {m : Message} (h : m.Survives) : m.bearsTime = false := by
  cases m with
  | modbusTrace _ | iecTrace _ | controlUpdate _ _ => exact h.elim
  | _ => rfl

/-- **Messages are read back.** A message that survives is read back from what is written for it, and what is written
for it is written for no other one. -/
theorem message_round_trip {m : Message} (h : m.Survives) :
    Message.ofJson? m.toJson = some m ∧ ∀ m' : Message, m'.Survives → m'.toJson = m.toJson → m' = m := by
  have hread := (ofJson?_toJson_iff h.bearsTime_eq_false).2 h
  refine ⟨hread, ?_⟩
  intro m' h' hsame
  have hread' := (ofJson?_toJson_iff h'.bearsTime_eq_false).2 h'
  rw [hsame, hread] at hread'
  exact (Option.some.inj hread').symm

/-- A command to write a register, which has a value and no quantity. -/
theorem message_round_trip_write :
    let m := modbusCommand ⟨7, "127.0.0.1:502", 1, 6, 40, none, some (.int (-3))⟩
    m.Survives ∧ Message.ofJson? m.toJson = some m := by
  have hm : (modbusCommand ⟨7, "127.0.0.1:502", 1, 6, 40, none, some (.int (-3))⟩).Survives := by
    intro v hv
    cases hv
    exact ⟨fun x hx => (by cases hx), by simp⟩
  exact ⟨hm, (message_round_trip hm).1⟩

/-- The value `null` is not told from none when it is read. -/
theorem null_value_is_lost {c : Command} (h : c.value = some .null) :
    Message.ofJson? (modbusCommand c).toJson = some (.modbusCommand { c with value := none }) := by
  have hvalue : optional toScalar? (c.value.map ofScalar) = some none := by
    rw [h]
    rfl
  rw [Message.ofJson?, tagged_toJson]
  simp [kind, members, Command.ofJson?_members, hvalue]

end Message
end Channel
end Switchyard

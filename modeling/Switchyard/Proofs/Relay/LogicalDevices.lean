import Mathlib.Data.List.Lex
import Switchyard.Proofs.Mms.Requests
import Switchyard.Relay.Traffic

/-!
# Outermost logical devices

A node of an IED model is found at an address, the numbers of the children on the way down to it.
The addresses in lexical order are the nodes in document order: a node comes before those below it, and
those below a child before those below a later one. A model lists the logical devices that stand
below no other one, in this order and each once (`exists_located`). So clients are told the name of
the first one, and whether there are more (`logicalDevices_outermost`).

* `at?`, `OutermostAt`: nodes at addresses, and the logical devices that stand below no other one.
* `Offered`: what clients are told about logical devices.
-/

namespace Switchyard

namespace IedNode

/-- The node at an address. -/
def at? : IedNode → List ℕ → Option IedNode
  | n, [] => some n
  | n, i :: a => n.children[i]?.bind fun c => c.at? a

/-- The node bears a kind, which is given in upper case, in any letter case. -/
def Bears (n : IedNode) (kind : String) : Prop := ∃ k, n.kind = some k ∧ Text.upper k = kind

/-- A node is a logical device if it bears the kind of logical devices, or if a child of it bears that of logical
nodes. -/
def LogicalDevice (n : IedNode) : Prop := n.Bears "LD" ∨ ∃ c ∈ n.children, c.Bears "LN"

/-- **A logical device stands at an address**, and there is none on the way down to it. -/
structure OutermostAt (t : IedNode) (a : List ℕ) (n : IedNode) : Prop where
  there : t.at? a = some n
  device : n.LogicalDevice
  above : ∀ b m, b <+: a → b ≠ a → t.at? b = some m → ¬ m.LogicalDevice

variable {t n c : IedNode} {a : List ℕ} {i : ℕ}

theorem isKind_iff {kind : String} (hkind : Text.upper kind = kind) : n.isKind kind = true ↔ n.Bears kind := by
  rw [isKind, Option.any_eq_true, Bears]
  refine exists_congr fun k => and_congr_right fun _ => ?_
  rw [Text.sameIgnoringCase, hkind, beq_iff_eq, eq_comm]

theorem isLogicalDevice_iff : n.isLogicalDevice = true ↔ n.LogicalDevice := by
  rw [isLogicalDevice, Bool.or_eq_true, isKind_iff (by decide), List.any_eq_true]
  simp only [isKind_iff (show Text.upper "LN" = "LN" by decide), LogicalDevice]

theorem logicalDevicesOf_eq (nodes : List IedNode) : logicalDevicesOf nodes = nodes.flatMap logicalDevices := by
  induction nodes with
  | nil => rfl
  | cons n nodes ih => rw [logicalDevicesOf, List.flatMap_cons, ih]

/-- A property of nodes that passes from the children to a node holds of all nodes. -/
theorem induct {P : IedNode → Prop} (h : ∀ n, (∀ c ∈ n.children, P c) → P n) : (n : IedNode) → P n
  | ⟨name, kind, children⟩ => h ⟨name, kind, children⟩ fun c _ => induct h c
termination_by n => sizeOf n
decreasing_by
  have hlt : sizeOf c < sizeOf children := List.sizeOf_lt_of_mem ‹_›
  simp only [mk.sizeOf_spec]
  omega

theorem outermostAt_nil_iff : t.OutermostAt [] n ↔ n = t ∧ t.LogicalDevice := by
  constructor
  · intro h
    obtain rfl := Option.some.inj h.there
    exact ⟨rfl, h.device⟩
  · rintro ⟨rfl, hdevice⟩
    exact ⟨rfl, hdevice, fun b m hb hne _ => absurd (List.prefix_nil.1 hb) hne⟩

/-- Below a node that is a logical device itself, none is an outermost one. -/
theorem outermostAt_cons_iff : t.OutermostAt (i :: a) n ↔
    ¬ t.LogicalDevice ∧ ∃ c, t.children[i]? = some c ∧ c.OutermostAt a n := by
  constructor
  · intro h
    obtain ⟨c, hc, hn⟩ := Option.bind_eq_some_iff.1 h.there
    refine ⟨h.above [] t List.nil_prefix (List.cons_ne_nil _ _).symm rfl, c, hc, hn, h.device, fun b m hb hne hm => ?_⟩
    refine h.above (i :: b) m ((List.cons_prefix_cons).2 ⟨rfl, hb⟩) (fun he => hne (List.cons.inj he).2) ?_
    rw [at?, hc, Option.bind_some, hm]
  · rintro ⟨hroot, c, hc, h⟩
    refine ⟨by rw [at?, hc, Option.bind_some, h.there], h.device, fun b m hb hne hm => ?_⟩
    cases b with
    | nil =>
      obtain rfl := Option.some.inj hm
      exact hroot
    | cons j b =>
      obtain ⟨rfl, hprefix⟩ := List.cons_prefix_cons.1 hb
      rw [at?, hc, Option.bind_some] at hm
      exact h.above b m hprefix (fun he => hne (by rw [he])) hm

/-- Above a logical device, or in its place, there is an outermost one. -/
theorem exists_outermostAt (hn : t.at? a = some n) (hdevice : n.LogicalDevice) : ∃ b m, t.OutermostAt b m := by
  induction a generalizing t with
  | nil =>
    obtain rfl := Option.some.inj hn
    exact ⟨[], t, outermostAt_nil_iff.2 ⟨rfl, hdevice⟩⟩
  | cons i a ih =>
    by_cases hroot : t.LogicalDevice
    · exact ⟨[], t, outermostAt_nil_iff.2 ⟨rfl, hroot⟩⟩
    · obtain ⟨c, hc, hn⟩ := Option.bind_eq_some_iff.1 hn
      obtain ⟨b, m, h⟩ := ih hn
      exact ⟨i :: b, m, outermostAt_cons_iff.2 ⟨hroot, c, hc, h⟩⟩

/-- **Nodes with their addresses are the outermost logical devices of a model**: all of them, in document order and
each once. -/
structure Located (t : IedNode) (found : List (List ℕ × IedNode)) : Prop where
  mem_iff : ∀ a n, (a, n) ∈ found ↔ t.OutermostAt a n
  ordered : found.Pairwise fun x y => x.1 < y.1

/-- What is found in some trees, if it is found in each: the trees are numbered from some number on. -/
theorem exists_locatedOf {nodes : List IedNode}
    (h : ∀ c ∈ nodes, ∃ found, c.Located found ∧ found.map Prod.snd = c.logicalDevices) (i : ℕ) :
    ∃ found : List (List ℕ × IedNode),
      (∀ a n, (a, n) ∈ found ↔ ∃ j c b, nodes[j]? = some c ∧ a = (i + j) :: b ∧ c.OutermostAt b n) ∧
        (found.Pairwise fun x y => x.1 < y.1) ∧ found.map Prod.snd = nodes.flatMap logicalDevices := by
  induction nodes generalizing i with
  | nil => exact ⟨[], by simp, .nil, rfl⟩
  | cons c nodes ih =>
    obtain ⟨hc, hnodes⟩ := List.forall_mem_cons.1 h
    obtain ⟨first, hfirst, hdevices⟩ := hc
    obtain ⟨later, hmem, hordered, hlater⟩ := ih hnodes (i + 1)
    refine ⟨first.map (fun x => (i :: x.1, x.2)) ++ later, fun a n => ?_, List.pairwise_append.2 ⟨?_, hordered, ?_⟩, ?_⟩
    · rw [List.mem_append, hmem]
      constructor
      · rintro (hin | ⟨j, d, b, hd, rfl, hb⟩)
        · obtain ⟨⟨b, m⟩, hb, heq⟩ := List.mem_map.1 hin
          obtain ⟨rfl, rfl⟩ := Prod.mk.inj heq
          exact ⟨0, c, b, rfl, rfl, (hfirst.mem_iff b m).1 hb⟩
        · exact ⟨j + 1, d, b, hd, by rw [Nat.add_assoc, Nat.add_comm 1], hb⟩
      · rintro ⟨j, d, b, hd, rfl, hb⟩
        cases j with
        | zero =>
          obtain rfl := Option.some.inj hd
          exact .inl (List.mem_map.2 ⟨(b, n), (hfirst.mem_iff b n).2 hb, rfl⟩)
        | succ j => exact .inr ⟨j, d, b, hd, by rw [Nat.add_assoc, Nat.add_comm 1], hb⟩
    · exact List.pairwise_map.2 (hfirst.ordered.imp fun hlt => List.cons_lt_cons_self.2 hlt)
    · -- the trees that follow have greater numbers
      intro x hx y hy
      obtain ⟨z, -, rfl⟩ := List.mem_map.1 hx
      obtain ⟨j, d, b, -, hy, -⟩ := (hmem y.1 y.2).1 hy
      rw [hy]
      exact List.cons_lt_cons_iff.2 (.inl (by omega))
    · rw [List.map_append, List.map_map, hlater, List.flatMap_cons, ← hdevices]
      rfl

/-- **A model lists its outermost logical devices**, in document order and each once. -/
theorem exists_located (t : IedNode) : ∃ found, t.Located found ∧ found.map Prod.snd = t.logicalDevices := by
  induction t using induct with
  | h t ih =>
    obtain ⟨name, kind, children⟩ := t
    rw [logicalDevices, logicalDevicesOf_eq]
    split
    · rename_i hdevice
      have hdevice := isLogicalDevice_iff.1 hdevice
      refine ⟨[([], ⟨name, kind, children⟩)], ⟨fun a n => ?_, List.pairwise_singleton _ _⟩, rfl⟩
      cases a with
      | nil => simp [outermostAt_nil_iff, hdevice]
      | cons i a => simp [outermostAt_cons_iff, hdevice]
    · rename_i hdevice
      have hdevice := mt isLogicalDevice_iff.2 hdevice
      obtain ⟨found, hmem, hordered, hdevices⟩ := exists_locatedOf ih 0
      refine ⟨found, ⟨fun a n => (hmem a n).trans ?_, hordered⟩, hdevices⟩
      cases a with
      | nil => simp [outermostAt_nil_iff, hdevice]
      | cons i a =>
        rw [outermostAt_cons_iff]
        constructor
        · rintro ⟨j, c, b, hc, heq, h⟩
          obtain ⟨rfl, rfl⟩ := List.cons.inj heq
          rw [Nat.zero_add]
          exact ⟨hdevice, c, hc, h⟩
        · rintro ⟨-, c, hc, h⟩
          exact ⟨i, c, a, hc, by rw [Nat.zero_add], h⟩

/-- There is nothing on the list exactly if no node is a logical device. -/
theorem logicalDevices_eq_nil_iff :
    t.logicalDevices = [] ↔ ∀ a n, t.at? a = some n → ¬ n.LogicalDevice := by
  obtain ⟨found, hlocated, hdevices⟩ := t.exists_located
  rw [← hdevices, List.map_eq_nil_iff]
  constructor
  · rintro rfl a n hn hdevice
    obtain ⟨b, m, hb⟩ := exists_outermostAt hn hdevice
    exact List.not_mem_nil ((hlocated.mem_iff b m).2 hb)
  · intro hnone
    refine List.eq_nil_iff_forall_not_mem.2 fun x hx => ?_
    have hx := (hlocated.mem_iff x.1 x.2).1 hx
    exact hnone x.1 x.2 hx.there hx.device

end IedNode

namespace Relay

open Channel Mms

/-- **What clients are told about the logical devices of a model**: a name that stands in if there is none, otherwise
the name of the outermost one that comes first, and whether there are others. -/
inductive Offered (model : Option IedNode) : String → Bool → Prop
  | nothing (h : ∀ t, model = some t → ∀ a n, t.at? a = some n → ¬ n.LogicalDevice) : Offered model standInDomain false
  | first {t n : IedNode} {a : List ℕ} {more : Bool} (hmodel : model = some t) (hn : t.OutermostAt a n)
      (hfirst : ∀ b m, t.OutermostAt b m → a ≤ b) (hmore : more = true ↔ ∃ b m, t.OutermostAt b m ∧ b ≠ a) :
      Offered model n.name more

/-- A model leaves no choice about what clients are told. -/
theorem Offered.unique {model : Option IedNode} {name name' : String} {more more' : Bool}
    (h : Offered model name more) (h' : Offered model name' more') : name = name' ∧ more = more' := by
  cases h with
  | nothing hnone =>
    cases h' with
    | nothing => exact ⟨rfl, rfl⟩
    | first hmodel hn => exact absurd hn.device (hnone _ hmodel _ _ hn.there)
  | first hmodel hn hfirst hmore =>
    cases h' with
    | nothing hnone => exact absurd hn.device (hnone _ hmodel _ _ hn.there)
    | first hmodel' hn' hfirst' hmore' =>
      obtain rfl := Option.some.inj (hmodel.symm.trans hmodel')
      obtain rfl := le_antisymm (hfirst _ _ hn') (hfirst' _ _ hn)
      obtain rfl := Option.some.inj (hn.there.symm.trans hn'.there)
      exact ⟨rfl, Bool.eq_iff_iff.2 (hmore.trans hmore'.symm)⟩

theorem offered_domains (r : Relay) :
    Offered r.model (r.domains.first.getD standInDomain) (decide (1 < r.domains.count)) := by
  rw [domains, logicalDevices]
  cases hmodel : r.model with
  | none => exact .nothing nofun
  | some t =>
    obtain ⟨found, hlocated, hdevices⟩ := t.exists_located
    rw [Option.map_some, Option.getD_some, ← hdevices]
    cases found with
    | nil =>
      refine .nothing fun t' ht' => ?_
      obtain rfl := Option.some.inj ht'
      exact IedNode.logicalDevices_eq_nil_iff.1 hdevices.symm
    | cons x found =>
      -- The devices are found in the order of their places, so the first one is the least.
      obtain ⟨hbefore, -⟩ := List.pairwise_cons.1 hlocated.ordered
      refine .first rfl ((hlocated.mem_iff x.1 x.2).1 List.mem_cons_self) (fun b m hb => ?_) ?_
      · rcases List.mem_cons.1 ((hlocated.mem_iff b m).2 hb) with rfl | hin
        · exact le_refl _
        · exact (hbefore _ hin).le
      · rw [decide_eq_true_iff]
        constructor
        · intro hcount
          obtain ⟨y, hy⟩ : ∃ y, y ∈ found := by
            cases found with
            | nil => simp at hcount
            | cons y found => exact ⟨y, List.mem_cons_self⟩
          exact ⟨y.1, y.2, (hlocated.mem_iff y.1 y.2).1 (List.mem_cons_of_mem _ hy), (hbefore y hy).ne'⟩
        · rintro ⟨b, m, hb, hne⟩
          rcases List.mem_cons.1 ((hlocated.mem_iff b m).2 hb) with rfl | hin
          · exact absurd rfl hne
          · have hlength := List.length_pos_of_mem hin
            simp only [List.map_cons, List.length_cons, List.length_map]
            omega

/-- What is sent to a client in exchange for a packet. -/
theorem sent_exchange {r : Relay} {p bytes : Bytes} (h : (answer p r.domains).reply = some bytes) (moment : Moment)
    (id : ConnectionId) (c : Connection) : (exchange moment id c p r).1.sent = [(id, bytes)] := by
  simp only [exchange, h]
  rfl

/-- **Models list their outermost logical devices.** With their addresses these are, in document order and each once,
the nodes that are logical devices and stand below no other one. There is none on the list exactly if no node of the
model is a logical device. A client of any relay that asks for names, in whatever way, is told the name of the first
one of the model and whether there are more. -/
theorem logicalDevices_outermost :
    (∀ t : IedNode, ∃ found : List (List ℕ × IedNode), found.map Prod.snd = t.logicalDevices ∧
      (found.Pairwise fun x y => x.1 < y.1) ∧ ∀ a n, (a, n) ∈ found ↔ t.OutermostAt a n) ∧
    (∀ t : IedNode, t.logicalDevices = [] ↔ ∀ a n, t.at? a = some n → ¬ n.LogicalDevice) ∧
    ∀ r : Relay, ∃ name more, Offered r.model name more ∧
      ∀ (carrier : Carrier) (p payload message invokeId : Bytes), HoldsData p payload →
        carrier.Carries payload message → IsRequest message invokeId 0xA1 →
          ∀ (moment : Moment) (id : ConnectionId) (c : Connection), ∃ content,
            (exchange moment id c p r).1.sent = [(id, dataPacket content)] ∧
            ((dataPacket content).length < 2 ^ 16 → (carrier.unwrap content).bind Reply.ofMessage =
              some (.names invokeId name.toUTF8.toList more)) := by
  refine ⟨fun t => ?_, fun t => IedNode.logicalDevices_eq_nil_iff, fun r => ⟨_, _, r.offered_domains, ?_⟩⟩
  · obtain ⟨found, hlocated, hdevices⟩ := t.exists_located
    exact ⟨found, hdevices, hlocated.ordered, hlocated.mem_iff⟩
  · intro carrier p payload message invokeId hp hcarried hrequest moment id c
    refine ⟨carrier.wrap (replyMessage invokeId 0xA1 r.domains), sent_exchange ?_ moment id c, fun hfits => ?_⟩
    · rw [answer_of_holdsData hp, reply_of_carries hcarried hrequest]
    · rw [length_dataPacket] at hfits
      have hle := length_le_wrap carrier (replyMessage invokeId 0xA1 r.domains)
      rw [unwrap_wrap (by omega), Option.bind_some, ofMessage_replyMessage (by omega)]
      rfl

/-- A model with a logical device inside another one, with one that has no kind of its own, and with kinds in both
letter cases. -/
def substationModel : IedNode :=
  ⟨"STATION", none, [
    ⟨"BAY", some "IED", [
      ⟨"IED1LD0", none, [⟨"LLN0", some "ln", []⟩, ⟨"IED1LD1", some "LD", []⟩]⟩]⟩,
    ⟨"IED1PROT", some "Ld", []⟩]⟩

/-- The logical device that stands inside another one is left out, and a client that asks for names is told of the
other two. -/
theorem logicalDevices_outermost_nested :
    let r : Relay := { Relay.new .standard with model := some substationModel }
    let message : Bytes := [0xA0, 0x05, 0x02, 0x01, 0x2A, 0xA1, 0x00]
    let p : Bytes := [0x03, 0x00, 0x00, 0x0E, 0x02, 0xF0, 0x80] ++ message
    (∃ found : List (List ℕ × IedNode), found.map Prod.snd = substationModel.logicalDevices ∧
      ([0, 0, 1], ⟨"IED1LD1", some "LD", []⟩) ∉ found ∧ ([1], ⟨"IED1PROT", some "Ld", []⟩) ∈ found) ∧
    HoldsData p message ∧ Carrier.bare.Carries message message ∧ IsRequest message [0x2A] 0xA1 ∧
      ∀ moment c, ∃ content, (exchange moment 7 c p r).1.sent = [(7, dataPacket content)] ∧
        (Carrier.bare.unwrap content).bind Reply.ofMessage =
          some (.names [0x2A] "IED1LD0".toUTF8.toList true) := by
  intro r message p
  obtain ⟨hlisted, -, htold⟩ := logicalDevices_outermost
  have hp : HoldsData p message := ⟨[0x03, 0x00, 0x00, 0x0E], 2, 0xF0, [0x80], rfl, rfl, rfl, rfl⟩
  have hrequest : IsRequest message [0x2A] 0xA1 :=
    ⟨[0x02, 0x01, 0x2A, 0xA1, 0x00], [], [0x00], ⟨[0x05], .short (by decide), rfl⟩, ⟨[0x01], .short (by decide), rfl⟩⟩
  refine ⟨?_, hp, rfl, hrequest, fun moment c => ?_⟩
  · obtain ⟨found, hdevices, -, hmem⟩ := hlisted substationModel
    refine ⟨found, hdevices, fun hin => ?_, (hmem _ _).2 ?_⟩
    · obtain ⟨-, bay, hbay, hin⟩ := IedNode.outermostAt_cons_iff.1 ((hmem _ _).1 hin)
      obtain rfl := Option.some.inj hbay
      obtain ⟨-, outer, houter, hin⟩ := IedNode.outermostAt_cons_iff.1 hin
      obtain rfl := Option.some.inj houter
      exact (IedNode.outermostAt_cons_iff.1 hin).1 (IedNode.isLogicalDevice_iff.1 (by decide))
    · refine IedNode.outermostAt_cons_iff.2 ⟨fun hroot => ?_, _, rfl, IedNode.outermostAt_nil_iff.2 ⟨rfl, ?_⟩⟩
      · exact absurd (IedNode.isLogicalDevice_iff.2 hroot) (by decide)
      · exact IedNode.isLogicalDevice_iff.1 (by decide)
  · obtain ⟨name, more, hoffered, hclients⟩ := htold r
    have hdomains : r.domains = ⟨some "IED1LD0", 2⟩ := by decide
    have hknown := r.offered_domains
    rw [hdomains] at hknown
    obtain ⟨rfl, rfl⟩ := hoffered.unique hknown
    obtain ⟨content, hsent, hread⟩ := hclients .bare p message message [0x2A] hp rfl hrequest moment 7 c
    have hanswer : (answer p r.domains).reply =
        some (dataPacket (nameListResponse [0x2A] ⟨some "IED1LD0", 2⟩)) := by decide +kernel
    have hcontent := (sent_exchange hanswer moment 7 c).symm.trans hsent
    have hlength : (dataPacket content).length < 2 ^ 16 := by
      rw [← (Prod.mk.inj (List.cons.inj hcontent).1).2]
      decide +kernel
    exact ⟨content, hsent, hread hlength⟩

end Relay
end Switchyard

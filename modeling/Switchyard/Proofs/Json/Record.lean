import Mathlib.Data.List.Basic
import Mathlib.Tactic.Common
import Switchyard.Json.Fields

/-!
# Records are read back

A record is written as an object with a member for each field that has a value. Read by
the names of its fields it gives those values again, as long as the names tell the
fields apart (`fields_recorded`). What a field then stands for is read back if what was
written for it is (`optional_map_iff`, `listOf_map_iff`, `toScalar?_ofScalar_iff`).

* `recorded`: the members of a record, by the names and values of its fields.
* `TellApart`: names under which fields are not confused.
* `Scalar.IsExpressible`: scalars that JSON has a form for.
-/

namespace Switchyard

namespace Json

/-- The members of a record, by its fields: a field without a value has none. -/
def recorded (slots : List (String × Option Json)) : List (String × Json) :=
  slots.filterMap fun slot => slot.2.map fun v => (slot.1, v)

variable {slots : List (String × Option Json)} {key : String}

@[simp] theorem recorded_nil : recorded [] = [] := rfl

theorem recorded_none : recorded ((key, none) :: slots) = recorded slots := rfl

@[simp] theorem recorded_some (v : Json) : recorded ((key, some v) :: slots) = (key, v) :: recorded slots := rfl

@[simp] theorem recorded_map {α : Type} (encode : α → Json) (o : Option α) :
    recorded ((key, o.map encode) :: slots) = optionalMember key encode o ++ recorded slots := by
  cases o <;> rfl

/-- The members of a record are under keys of its slots. -/
theorem key_of_mem_recorded {m : String × Json} (h : m ∈ recorded slots) :
    m.1 ∈ slots.map Prod.fst := by
  obtain ⟨slot, hslot, hm⟩ := List.mem_filterMap.1 h
  obtain ⟨v, -, rfl⟩ := Option.map_eq_some_iff.1 hm
  exact List.mem_map_of_mem hslot

/-- To look for members by name is to look for fields by name. -/
theorem filter_recorded (p : String → Bool) (slots : List (String × Option Json)) :
    (recorded slots).filter (fun m => p m.1) = recorded (slots.filter fun slot => p slot.1) := by
  induction slots with
  | nil => rfl
  | cons slot slots ih =>
    obtain ⟨key, value⟩ := slot
    cases value with
    | none =>
      rw [recorded_none, ih, List.filter_cons]
      cases p key <;> rfl
    | some v =>
      rw [recorded_some, List.filter_cons, ih, List.filter_cons]
      cases p key <;> rfl

/-- A field is found under the names of its group where no other field is. -/
theorem fieldOf_recorded {slot : String × Option Json} {group : List String}
    (hmem : slot ∈ slots) (hgroup : (slots.map Prod.fst).filter (group.contains ·) = [slot.1]) :
    fieldOf (recorded slots) group = some slot.2 := by
  have hkeys : (slots.filter fun other => group.contains other.1).map Prod.fst = [slot.1] := by
    rw [← hgroup, List.filter_map]
    rfl
  have honly : slots.filter (fun other => group.contains other.1) = [slot] := by
    obtain ⟨other, hother, -⟩ := List.map_eq_singleton_iff.1 hkeys
    have hfound : slot ∈ slots.filter fun other => group.contains other.1 := by
      have hkey : slot.1 ∈ (slots.map Prod.fst).filter (group.contains ·) := by
        rw [hgroup]
        exact List.mem_singleton_self _
      exact List.mem_filter.2 ⟨hmem, (List.mem_filter.1 hkey).2⟩
    rw [hother, List.mem_singleton] at hfound
    rw [hother, hfound]
  obtain ⟨key, value⟩ := slot
  rw [fieldOf, filter_recorded (group.contains ·), honly]
  cases value <;> rfl

/-- The name that a field is written under, of those that it may be read by. -/
def keyOf (group : List String) : String := group.headD ""

/-- Names that tell the fields of a record apart: each group has the key of its own field and of no other. -/
def TellApart (names : List (List String)) : Prop :=
  names.map (fun group => (names.map keyOf).filter (group.contains ·)) = names.map fun group => [keyOf group]

instance (names : List (List String)) : Decidable (TellApart names) :=
  inferInstanceAs (Decidable (names.map _ = names.map _))

/-- **The fields of a record are read back** by names that tell them apart. -/
theorem fields_recorded (d : Dialect) (slots : List (String × Option Json)) {names : List (List String)}
    (hkeys : slots.map Prod.fst = names.map keyOf) (hnames : TellApart names) :
    fields d names (object (recorded slots)) = some (slots.map Prod.snd) := by
  -- one field after the other; that its group stands for it alone is known of all of them at once
  have hpart : ∀ part ⊆ slots, ∀ groups ⊆ names, part.map Prod.fst = groups.map keyOf →
      groups.mapM (fieldOf (recorded slots)) = some (part.map Prod.snd) := by
    intro part
    induction part with
    | nil =>
      intro _ groups _ hgroups
      rw [List.map_nil, eq_comm, List.map_eq_nil_iff] at hgroups
      rw [hgroups]
      rfl
    | cons slot part ih =>
      intro hpart groups hsub hgroups
      cases groups with
      | nil => cases hgroups
      | cons group groups =>
        obtain ⟨hkey, hrest⟩ := List.cons_eq_cons.1 hgroups
        have hgroup : (slots.map Prod.fst).filter (group.contains ·) = [slot.1] := by
          rw [hkeys, hkey]
          exact List.map_inj_left.1 hnames group (hsub List.mem_cons_self)
        have hslot : fieldOf (recorded slots) group = some slot.2 :=
          fieldOf_recorded (hpart List.mem_cons_self) hgroup
        rw [List.mapM_cons, hslot,
          ih (fun _ h => hpart (List.mem_cons_of_mem _ h)) groups (fun _ h => hsub (List.mem_cons_of_mem _ h)) hrest]
        rfl
  rw [fields]
  exact hpart slots (fun _ h => h) names (fun _ h => h) hkeys

/-- Where all fields of a record are read back but one, the record is read back if that one is. -/
theorem map_eq_some_iff_field {ρ β : Type} {read : Option β} {build : β → ρ} {r : ρ} (field : ρ → β)
    (hfield : ∀ b, field (build b) = b) (hbuild : build (field r) = r) :
    read.map build = some r ↔ read = some (field r) := by
  rw [Option.map_eq_some_iff]
  constructor
  · rintro ⟨b, hread, rfl⟩
    rw [hfield, hread]
  · intro hread
    exact ⟨field r, hread, hbuild⟩

section
variable {α : Type} {encode : α → Json} {decode : Decode α}

/-- A field that may be missing is read back, unless what it has is written as nothing. -/
theorem optional_map_iff {o : Option α} : optional decode (o.map encode) = some o ↔
    ∀ a, o = some a → decode (encode a) = some a ∧ encode a ≠ null := by
  cases o with
  | none => exact iff_of_true rfl nofun
  | some a =>
    rw [Option.map_some]
    by_cases hnull : encode a = null
    · rw [hnull]
      refine iff_of_false nofun ?_
      intro h
      exact (h a rfl).2 hnull
    · rw [optional, Option.map_eq_some_iff]
      · simp [hnull]
      · exact hnull

/-- A list is read back exactly when each of its elements is. -/
theorem listOf_map_iff {l : List α} :
    listOf decode (array (l.map encode)) = some l ↔ ∀ a ∈ l, decode (encode a) = some a := by
  rw [listOf]
  induction l with
  | nil => exact iff_of_true rfl nofun
  | cons a l ih =>
    rw [List.map_cons, List.mapM_cons, List.forall_mem_cons, ← ih]
    cases decode (encode a) with
    | none => simp
    | some b => cases (l.map encode).mapM decode <;> simp

@[simp] theorem required_some (v : Json) : required decode (some v) = decode v := rfl

end

/-- A number is read back exactly when it does not exceed the greatest one. -/
theorem asNat_natCast_iff {n max : Nat} : asNat max (int n) = some n ↔ n ≤ max := by
  rw [asNat, Int.toNat_natCast]
  by_cases h : n ≤ max
  · rw [if_pos ⟨Int.natCast_nonneg n, h⟩]
    exact iff_of_true rfl h
  · rw [if_neg fun hn => h hn.2]
    exact iff_of_false nofun h

@[simp] theorem asString_string (s : String) : asString (string s) = some s := rfl

@[simp] theorem asUInt8_toNat (n : UInt8) : asUInt8 (int n.toNat) = some n := by
  have h := n.toNat_lt
  rw [asUInt8, asNat_natCast_iff.2 (by omega), Option.map_some]
  exact congrArg some (UInt8.ofNat_toNat)

@[simp] theorem asUInt16_toNat (n : UInt16) : asUInt16 (int n.toNat) = some n := by
  have h := n.toNat_lt
  rw [asUInt16, asNat_natCast_iff.2 (by omega), Option.map_some]
  exact congrArg some (UInt16.ofNat_toNat)

@[simp] theorem optional_asString (o : Option String) : optional asString (o.map string) = some o :=
  optional_map_iff.2 fun s _ => ⟨asString_string s, by simp⟩

@[simp] theorem optional_asUInt8 (o : Option UInt8) : optional asUInt8 (o.map fun n => int n.toNat) = some o :=
  optional_map_iff.2 fun n _ => ⟨asUInt8_toNat n, by simp⟩

@[simp] theorem optional_asUInt16 (o : Option UInt16) : optional asUInt16 (o.map fun n => int n.toNat) = some o :=
  optional_map_iff.2 fun n _ => ⟨asUInt16_toNat n, by simp⟩

theorem depth_le_of_mem_items {v : Json} {items : List Json} (h : v ∈ items) : v.depth ≤ depthOfItems items := by
  induction items with
  | nil => cases h
  | cons item items ih =>
    rw [depthOfItems]
    cases List.mem_cons.1 h with
    | inl hv =>
      rw [hv]
      exact Nat.le_max_left _ _
    | inr hitems => exact Nat.le_trans (ih hitems) (Nat.le_max_right _ _)

theorem depth_le_of_mem_members {m : String × Json} {members : List (String × Json)} (h : m ∈ members) :
    m.2.depth ≤ depthOfMembers members := by
  induction members with
  | nil => cases h
  | cons member members ih =>
    obtain ⟨key, v⟩ := member
    rw [depthOfMembers]
    cases List.mem_cons.1 h with
    | inl hm =>
      rw [hm]
      exact Nat.le_max_left _ _
    | inr hmembers => exact Nat.le_trans (ih hmembers) (Nat.le_max_right _ _)

end Json

/-- JSON has a form for every scalar but those that are no numbers or infinite. -/
def Scalar.IsExpressible (v : Scalar) : Prop := ∀ x, v = .real x → Binary64.isFinite x = true

namespace Json

/-- A scalar is read back exactly when JSON has a form for it. -/
theorem toScalar?_ofScalar_iff {v : Scalar} : toScalar? (ofScalar v) = some v ↔ v.IsExpressible := by
  cases v with
  | int n =>
    have hn : n.toInt ≤ Int64.maxValue.toInt := n.toInt_le
    rw [ofScalar, toScalar?, if_pos hn, Int64.ofInt_toInt]
    exact iff_of_true rfl nofun
  | real x =>
    rw [ofScalar]
    by_cases hx : Binary64.isFinite x = true
    · rw [if_pos hx]
      refine iff_of_true rfl ?_
      intro y hy
      cases hy
      exact hx
    · rw [if_neg hx]
      refine iff_of_false nofun ?_
      intro h
      exact hx (h x rfl)
  | null => exact iff_of_true rfl nofun
  | bool b => exact iff_of_true rfl nofun
  | text s => exact iff_of_true rfl nofun

/-- A scalar that may be missing is read back if it has a form that is not `null`. -/
theorem optional_toScalar?_iff {o : Option Scalar} : optional toScalar? (o.map ofScalar) = some o ↔
    ∀ v, o = some v → v.IsExpressible ∧ v ≠ .null := by
  rw [optional_map_iff]
  refine forall₂_congr fun v _ => ?_
  rw [toScalar?_ofScalar_iff]
  refine and_congr_right fun hv => not_congr ?_
  constructor
  · intro hnull
    have hread := toScalar?_ofScalar_iff.2 hv
    rw [hnull] at hread
    exact (Option.some.inj hread).symm
  · rintro rfl
    rfl

end Json
end Switchyard

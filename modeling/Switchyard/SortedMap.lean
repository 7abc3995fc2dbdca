/-!
# Maps in key order

A `SortedMap` is a list of pairs with strictly ascending keys, so its entries are listed in key
order and two maps with the same lookups are equal.

* `get?_insert_self`, `get?_insert_of_ne`: what an insertion does to lookups.
* `get?_erase_self`, `get?_erase_of_ne`: what an erasure does to lookups.
* `get?_mapValues`, `get?_modify`: a modification changes values and no key.
* `get?_filter`: what is kept of a map.
* `get?_of_mem`, `mem_of_get?`: the entries are what lookups find.
* `ext_get?`: two maps with the same lookups are equal; so `insert_comm`: insertions under two keys commute.
-/

namespace Switchyard

variable {κ α β : Type} [Ord κ]

namespace SortedMap

/-- Keys ascend strictly. -/
def Ascending (l : List (κ × α)) : Prop := l.Pairwise fun a b => compare a.1 b.1 = .lt

/-- The value of a key. -/
def lookup (key : κ) : List (κ × α) → Option α
  | [] => none
  | (k, v) :: rest =>
    match compare key k with
    | .eq => some v
    | _ => lookup key rest

/-- Puts a value in the place of its key. -/
def insertInto (key : κ) (value : α) : List (κ × α) → List (κ × α)
  | [] => [(key, value)]
  | (k, v) :: rest =>
    match compare key k with
    | .lt => (key, value) :: (k, v) :: rest
    | .eq => (k, value) :: rest
    | .gt => (k, v) :: insertInto key value rest

/-- The keys after an insertion are the new one and the old ones. -/
theorem mem_insertInto {key : κ} {value : α} {p : κ × α} {l : List (κ × α)}
    (h : p ∈ insertInto key value l) : p.1 = key ∨ ∃ q ∈ l, p.1 = q.1 := by
  induction l with
  | nil => simp_all [insertInto]
  | cons e rest ih =>
    obtain ⟨k, v⟩ := e
    simp only [insertInto] at h
    split at h
    · rcases List.mem_cons.1 h with rfl | h
      · exact .inl rfl
      · exact .inr ⟨p, h, rfl⟩
    · rcases List.mem_cons.1 h with rfl | h
      · exact .inr ⟨(k, v), by simp, rfl⟩
      · exact .inr ⟨p, List.mem_cons_of_mem _ h, rfl⟩
    · rcases List.mem_cons.1 h with rfl | h
      · exact .inr ⟨(k, v), by simp, rfl⟩
      · rcases ih h with h | ⟨q, hq, h⟩
        · exact .inl h
        · exact .inr ⟨q, List.mem_cons_of_mem _ hq, h⟩

/-- A key is inserted at its place. -/
theorem ascending_insertInto [Std.TransOrd κ] {key : κ} {value : α} {l : List (κ × α)}
    (h : Ascending l) : Ascending (insertInto key value l) := by
  induction l with
  | nil => simp [insertInto, Ascending]
  | cons e rest ih =>
    obtain ⟨k, v⟩ := e
    have hrest := List.pairwise_cons.1 h
    simp only [insertInto]
    split
    · rename_i hlt
      refine List.pairwise_cons.2 ⟨fun p hp => ?_, h⟩
      rcases List.mem_cons.1 hp with rfl | hp
      · exact hlt
      · exact Std.TransCmp.lt_trans hlt (hrest.1 p hp)
    · exact List.pairwise_cons.2 ⟨fun p hp => hrest.1 p hp, hrest.2⟩
    · rename_i hgt
      refine List.pairwise_cons.2 ⟨fun p hp => ?_, ih hrest.2⟩
      rcases mem_insertInto hp with h | ⟨q, hq, h⟩
      · simp only [h]
        exact Std.OrientedCmp.gt_iff_lt.1 hgt
      · simp only [h]
        exact hrest.1 q hq

end SortedMap

/-- A map whose entries are in key order. -/
structure SortedMap (κ α : Type) [Ord κ] where
  entries : List (κ × α)
  ascending : SortedMap.Ascending entries

namespace SortedMap

/-- Maps are determined by their entries. -/
theorem ext {m n : SortedMap κ α} (h : m.entries = n.entries) : m = n := by
  cases m; cases n; simp_all

instance [DecidableEq κ] [DecidableEq α] : DecidableEq (SortedMap κ α) := fun m n =>
  if h : m.entries = n.entries then isTrue (ext h) else isFalse fun e => h (congrArg entries e)

def empty : SortedMap κ α := ⟨[], List.Pairwise.nil⟩

instance : EmptyCollection (SortedMap κ α) := ⟨empty⟩
instance : Inhabited (SortedMap κ α) := ⟨empty⟩

/-- The value of a key. -/
def get? (m : SortedMap κ α) (key : κ) : Option α := lookup key m.entries

def contains (m : SortedMap κ α) (key : κ) : Bool := (m.get? key).isSome

/-- Adds a value, replacing the one its key had. -/
def insert [Std.TransOrd κ] (m : SortedMap κ α) (key : κ) (value : α) : SortedMap κ α :=
  ⟨insertInto key value m.entries, ascending_insertInto m.ascending⟩

/-- Removes a key. -/
def erase (m : SortedMap κ α) (key : κ) : SortedMap κ α :=
  ⟨m.entries.filter fun e => compare key e.1 != .eq, m.ascending.filter _⟩

/-- Changes every value. -/
def mapValues (f : κ → α → β) (m : SortedMap κ α) : SortedMap κ β where
  entries := m.entries.map fun e => (e.1, f e.1 e.2)
  ascending := by simpa only [Ascending, List.pairwise_map] using m.ascending

/-- Changes the value of a key, if there is one. -/
def modify (m : SortedMap κ α) (key : κ) (f : α → α) : SortedMap κ α :=
  m.mapValues fun k v => if compare key k == .eq then f v else v

def keys (m : SortedMap κ α) : List κ := m.entries.map Prod.fst

def values (m : SortedMap κ α) : List α := m.entries.map Prod.snd

def size (m : SortedMap κ α) : Nat := m.entries.length

/-- Keeps the entries that satisfy a test. -/
def filter (p : κ → α → Bool) (m : SortedMap κ α) : SortedMap κ α :=
  ⟨m.entries.filter fun e => p e.1 e.2, m.ascending.filter _⟩

/-- The map of a list of pairs; of pairs with one key the last counts. -/
def ofList [Std.TransOrd κ] (l : List (κ × α)) : SortedMap κ α :=
  l.foldl (fun m e => m.insert e.1 e.2) empty

section
variable [Std.TransOrd κ] [Std.LawfulEqOrd κ]

omit [Std.TransOrd κ] [Std.LawfulEqOrd κ] in
@[simp] theorem get?_empty (key : κ) : (∅ : SortedMap κ α).get? key = none := rfl

/-- What is inserted is found. -/
theorem get?_insert_self (m : SortedMap κ α) (key : κ) (value : α) :
    (m.insert key value).get? key = some value := by
  simp only [get?, insert]
  induction m.entries with
  | nil => simp [insertInto, lookup]
  | cons e rest ih =>
    obtain ⟨k, v⟩ := e
    simp only [insertInto]
    split
    · simp [lookup]
    · rename_i h
      simp [lookup, h]
    · rename_i h
      simp [lookup, h, ih]

theorem get?_insert_of_ne (m : SortedMap κ α) {key other : κ} (value : α) (h : other ≠ key) :
    (m.insert key value).get? other = m.get? other := by
  have hne : compare other key ≠ .eq := fun e => h (Std.LawfulEqOrd.eq_of_compare e)
  simp only [get?, insert]
  induction m.entries with
  | nil => simp only [insertInto, lookup]
  | cons e rest ih =>
    obtain ⟨k, v⟩ := e
    simp only [insertInto]
    split
    · simp only [lookup]
    · rename_i hk
      have hk := Std.LawfulEqOrd.eq_of_compare hk
      subst hk
      cases hc : compare other key <;> simp_all [lookup]
    · simp only [lookup, ih]

omit [Std.TransOrd κ] [Std.LawfulEqOrd κ] in
/-- What is erased is not found. -/
theorem get?_erase_self (m : SortedMap κ α) (key : κ) : (m.erase key).get? key = none := by
  simp only [get?, erase]
  induction m.entries with
  | nil => rfl
  | cons e rest ih =>
    cases h : compare key e.1 <;> simp [h, ih, lookup]

omit [Std.TransOrd κ] in
theorem get?_erase_of_ne (m : SortedMap κ α) {key other : κ} (h : other ≠ key) :
    (m.erase key).get? other = m.get? other := by
  simp only [get?, erase]
  induction m.entries with
  | nil => rfl
  | cons e rest ih =>
    obtain ⟨k, v⟩ := e
    by_cases hk : compare key k = .eq
    · have hk' := Std.LawfulEqOrd.eq_of_compare hk
      subst hk'
      have hne : compare other key ≠ .eq := fun e => h (Std.LawfulEqOrd.eq_of_compare e)
      simp only [List.filter, hk, bne_self_eq_false, lookup, ih]
    · have hb : (compare key k != .eq) = true := by simpa using hk
      simp only [List.filter, hb, lookup, ih]

omit [Std.TransOrd κ] in
/-- An erased key is gone, and the other keys keep their values. -/
theorem get?_erase_eq_some {m : SortedMap κ α} {key other : κ} {value : α} :
    (m.erase key).get? other = some value ↔ other ≠ key ∧ m.get? other = some value := by
  by_cases h : other = key
  · subst h
    simp [get?_erase_self]
  · rw [get?_erase_of_ne m h]
    simp [h]

omit [Std.TransOrd κ] in
/-- Each value is changed with its key. -/
theorem get?_mapValues (f : κ → α → β) (m : SortedMap κ α) (key : κ) :
    (m.mapValues f).get? key = (m.get? key).map (f key) := by
  simp only [get?, mapValues]
  induction m.entries with
  | nil => rfl
  | cons e rest ih =>
    simp only [List.map_cons, lookup]
    split
    · rename_i h
      have h := Std.LawfulEqOrd.eq_of_compare h
      subst h
      rfl
    · exact ih

omit [Std.TransOrd κ] in
theorem get?_modify (m : SortedMap κ α) (key other : κ) (f : α → α) :
    (m.modify key f).get? other =
      (m.get? other).map fun v => if compare key other == .eq then f v else v :=
  get?_mapValues _ m other

omit [Std.TransOrd κ] in
theorem get?_modify_self (m : SortedMap κ α) (key : κ) (f : α → α) :
    (m.modify key f).get? key = (m.get? key).map f := by
  rw [get?_modify]
  simp

omit [Std.TransOrd κ] in
theorem get?_modify_of_ne (m : SortedMap κ α) {key other : κ} (f : α → α) (h : other ≠ key) :
    (m.modify key f).get? other = m.get? other := by
  have hne : (compare key other == .eq) = false := by
    simpa using fun e => h (Std.LawfulEqOrd.eq_of_compare e).symm
  rw [get?_modify]
  simp [hne]

omit [Std.TransOrd κ] in
/-- What is stored after a change was stored before it; only under the key of the change it may be new. -/
theorem get?_modify_eq_some {m : SortedMap κ α} {key other : κ} {f : α → α} {value : α}
    (h : (m.modify key f).get? other = some value) :
    (other = key ∧ ∃ old, m.get? other = some old ∧ value = f old) ∨ (other ≠ key ∧ m.get? other = some value) := by
  by_cases hk : other = key
  · subst hk
    rw [get?_modify_self] at h
    obtain ⟨old, hold, rfl⟩ := Option.map_eq_some_iff.1 h
    exact Or.inl ⟨rfl, old, hold, rfl⟩
  · rw [get?_modify_of_ne _ _ hk] at h
    exact Or.inr ⟨hk, h⟩

omit [Std.LawfulEqOrd κ] in
/-- An entry is what a lookup of its key finds. -/
theorem get?_of_mem {m : SortedMap κ α} {key : κ} {value : α} (h : (key, value) ∈ m.entries) :
    m.get? key = some value := by
  obtain ⟨entries, hasc⟩ := m
  simp only [get?] at h ⊢
  induction entries with
  | nil => simp at h
  | cons e rest ih =>
    have hasc := List.pairwise_cons.1 hasc
    rcases List.mem_cons.1 h with rfl | h
    · simp [lookup]
    · have hgt : compare key e.1 = .gt := Std.OrientedCmp.gt_iff_lt.2 (hasc.1 _ h)
      simp only [lookup, hgt]
      exact ih hasc.2 h

omit [Std.TransOrd κ] in
/-- What is found is an entry. -/
theorem mem_of_get? {m : SortedMap κ α} {key : κ} {value : α} (h : m.get? key = some value) :
    (key, value) ∈ m.entries := by
  obtain ⟨entries, hasc⟩ := m
  simp only [get?] at h ⊢
  clear hasc
  induction entries with
  | nil => cases h
  | cons e rest ih =>
    simp only [lookup] at h
    split at h
    · rename_i hk
      obtain rfl := Std.LawfulEqOrd.eq_of_compare hk
      obtain rfl := Option.some.inj h
      exact List.mem_cons_self
    · exact List.mem_cons_of_mem _ (ih h)

omit [Std.LawfulEqOrd κ] in
theorem exists_get?_of_mem_values {m : SortedMap κ α} {value : α} (h : value ∈ m.values) :
    ∃ key, m.get? key = some value := by
  obtain ⟨e, he, rfl⟩ := List.mem_map.1 h
  exact ⟨e.1, get?_of_mem he⟩

omit [Std.LawfulEqOrd κ] in
theorem nodup_entries (m : SortedMap κ α) : m.entries.Nodup := by
  refine List.Pairwise.imp (fun {a b} hlt heq => ?_) m.ascending
  rw [heq, Std.ReflOrd.compare_self] at hlt
  cases hlt

/-- **Maps are what their lookups find.** -/
theorem ext_get? {m n : SortedMap κ α} (h : ∀ key, m.get? key = n.get? key) : m = n := by
  have hmem (e : κ × α) : e ∈ m.entries ↔ e ∈ n.entries :=
    ⟨fun he => mem_of_get? ((h e.1).symm.trans (get?_of_mem he)),
      fun he => mem_of_get? ((h e.1).trans (get?_of_mem he))⟩
  have hperm := (List.perm_ext_iff_of_nodup m.nodup_entries n.nodup_entries).2 hmem
  refine ext (hperm.eq_of_pairwise (fun a b _ _ hab hba => ?_) m.ascending n.ascending)
  -- no key comes before itself
  have hself := Std.TransCmp.lt_trans hab hba
  rw [Std.ReflOrd.compare_self] at hself
  cases hself

/-- Insertions under different keys can be exchanged. -/
theorem insert_comm (m : SortedMap κ α) {k l : κ} (v w : α) (h : k ≠ l) :
    (m.insert k v).insert l w = (m.insert l w).insert k v := by
  refine ext_get? fun key => ?_
  by_cases hk : key = k
  · subst hk
    rw [get?_insert_of_ne _ _ h, get?_insert_self, get?_insert_self]
  · by_cases hl : key = l
    · subst hl
      rw [get?_insert_self, get?_insert_of_ne _ _ hk, get?_insert_self]
    · rw [get?_insert_of_ne _ _ hl, get?_insert_of_ne _ _ hk, get?_insert_of_ne _ _ hk, get?_insert_of_ne _ _ hl]

theorem mem_entries_iff {m : SortedMap κ α} {key : κ} {value : α} :
    (key, value) ∈ m.entries ↔ m.get? key = some value := ⟨get?_of_mem, mem_of_get?⟩

theorem get?_filter (p : κ → α → Bool) (m : SortedMap κ α) (key : κ) :
    (m.filter p).get? key = (m.get? key).filter (p key) := by
  ext value
  rw [Option.filter_eq_some_iff, ← mem_entries_iff, ← mem_entries_iff]
  exact List.mem_filter

/-- What is in a map that is made from a list stands in the list. -/
theorem mem_of_get?_ofList {l : List (κ × α)} {key : κ} {value : α} (h : (ofList l).get? key = some value) :
    (key, value) ∈ l := by
  have hfold (l : List (κ × α)) (m : SortedMap κ α)
      (h : (l.foldl (fun m e => m.insert e.1 e.2) m).get? key = some value) :
      m.get? key = some value ∨ (key, value) ∈ l := by
    induction l generalizing m with
    | nil => exact .inl h
    | cons e l ih =>
      rcases ih _ h with hin | hin
      · by_cases hkey : key = e.1
        · rw [hkey, get?_insert_self] at hin
          exact .inr (List.mem_cons.2 (.inl (Prod.ext hkey (Option.some.inj hin).symm)))
        · rw [get?_insert_of_ne _ _ hkey] at hin
          exact .inl hin
      · exact .inr (List.mem_cons_of_mem _ hin)
  exact (hfold l empty h).resolve_left nofun

end

end SortedMap
end Switchyard

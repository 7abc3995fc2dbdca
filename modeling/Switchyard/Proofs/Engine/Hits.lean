import Mathlib.Data.List.DropRight
import Switchyard.Proofs.Engine.Installed
import Switchyard.Proofs.Engine.Ledger

/-!
# Hits and histories

What the ledger of a controller says is a matter of the lines since some call: the hits of
a breakpoint are how often its line has been executed since it was first set there
(`hits_since`), and the history is the last of the lines since the program was loaded
(`history_since`).

* `Since`, `Counts`: what has been counted since a call that began it, while no call has ended it.
* `SetsFirst`, `Drops`, `Loads`, `Unloads`: the calls that begin and end hits and histories.
* `foldl_remember`: a bounded list of all that it has been given.
-/

namespace Switchyard.Engine

variable {e e' : Engine} {id : String} {c c' : Controller} {now : Millis} {call : Call} {calls : List (Millis × Call)}
  {line : UInt32}

section Counting

variable {α : Type} {settings : Settings} {Begins Ends : Engine → Millis × Call → Prop} {look : Engine → Option α}
  {note : α → UInt32 → α} {initial : α} {first since : List (Millis × Call)}

/-- **The calls since one that has begun something**, if none of them has ended it. -/
structure Since (settings : Settings) (Begins Ends : Engine → Millis × Call → Prop)
    (calls first since : List (Millis × Call)) : Prop where
  split : calls = first ++ since
  begun : ∃ before c, first = before ++ [c] ∧ Begins ((new settings).follow before) c
  lasts : ∀ middle c later, since = middle ++ c :: later → ¬ Ends ((new settings).follow (first ++ middle)) c

/-- **Something is counted** by the lines of a controller, from a call that begins it to one that ends it. -/
structure Counts (settings : Settings) (id : String) (Begins Ends : Engine → Millis × Call → Prop)
    (look : Engine → Option α) (note : α → UInt32 → α) (initial : α) : Prop where
  unset : look (new settings) = none
  begins : ∀ calls c, Begins ((new settings).follow calls) c →
    look ((new settings).follow (calls ++ [c])) = some initial
  goes : ∀ calls c a, ¬ Ends ((new settings).follow calls) c → look ((new settings).follow calls) = some a →
    look ((new settings).follow (calls ++ [c])) =
      some ((((new settings).follow calls).callLines c.1 id c.2).foldl note a)
  lapses : ∀ calls c, ¬ Begins ((new settings).follow calls) c →
    (look ((new settings).follow calls) = none ∨ Ends ((new settings).follow calls) c) →
    look ((new settings).follow (calls ++ [c])) = none

/-- One more call that does not end what has begun. -/
theorem Since.concat (h : Since settings Begins Ends calls first since) {c : Millis × Call}
    (hends : ¬ Ends ((new settings).follow calls) c) :
    Since settings Begins Ends (calls ++ [c]) first (since ++ [c]) := by
  obtain ⟨rfl, hbegun, hlasts⟩ := h
  refine ⟨List.append_assoc .., hbegun, fun middle d later hsplit => ?_⟩
  rcases List.eq_nil_or_concat later with rfl | ⟨later, last, rfl⟩
  · obtain ⟨rfl, hd⟩ := List.append_inj' hsplit rfl
    obtain rfl := List.singleton_inj.1 hd
    exact hends
  · rw [List.concat_eq_append, ← List.cons_append, ← List.append_assoc] at hsplit
    exact hlasts middle d later (List.append_inj' hsplit rfl).1

/-- **What is counted has been begun.** -/
theorem Counts.exists_since (h : Counts settings id Begins Ends look note initial) {a : α}
    (hlook : look ((new settings).follow calls) = some a) :
    ∃ first since, Since settings Begins Ends calls first since := by
  -- from the last call backwards: it has begun the count, or the count went on over it
  induction calls using List.reverseRecOn generalizing a with
  | nil => exact absurd (h.unset.symm.trans hlook) (by simp)
  | append_singleton calls c ih =>
    by_cases hbegins : Begins ((new settings).follow calls) c
    · refine ⟨calls ++ [c], [], (List.append_nil _).symm, ⟨calls, c, rfl, hbegins⟩, fun middle d later hsplit => ?_⟩
      simp at hsplit
    · have hlapses := h.lapses calls c hbegins
      cases hbefore : look ((new settings).follow calls) with
      | none => exact absurd ((hlapses (.inl hbefore)).symm.trans hlook) (by simp)
      | some b =>
        have hends : ¬ Ends ((new settings).follow calls) c := fun hends =>
          absurd ((hlapses (.inr hends)).symm.trans hlook) (by simp)
        obtain ⟨first, since, hsince⟩ := ih hbefore
        exact ⟨first, since ++ [c], hsince.concat hends⟩

/-- **What is counted is a matter of the lines since the call that has begun it.** -/
theorem Counts.look_since (h : Counts settings id Begins Ends look note initial)
    (hsince : Since settings Begins Ends calls first since) :
    look ((new settings).follow calls) =
      some ((((new settings).follow first).executed id since).foldl note initial) := by
  obtain ⟨rfl, ⟨before, c, rfl, hbegins⟩, hlasts⟩ := hsince
  induction since using List.reverseRecOn with
  | nil =>
    rw [List.append_nil]
    exact h.begins before c hbegins
  | append_singleton since d ih =>
    have hbefore := ih fun middle d' later hsplit => hlasts middle d' (later ++ [d]) (by simp [hsplit])
    have hends := hlasts since d [] rfl
    rw [← List.append_assoc, h.goes _ d _ hends hbefore, executed_append, List.foldl_append, ← follow_append]
    simp only [executed, List.append_nil]

end Counting

/-- The hits of a breakpoint, when a line has been executed. -/
def hit (line : UInt32) (hits : UInt32) (executed : UInt32) : UInt32 :=
  if executed = line then Breakpoint.nextHits hits else hits

/-- Hits are counted up to the greatest count. -/
theorem toNat_nextHits (n : UInt32) : (Breakpoint.nextHits n).toNat = min (n.toNat + 1) (2 ^ 32 - 1) := by
  have hn := n.toNat_lt
  have hone : (1 : UInt32).toNat = 1 := rfl
  have hadd : (n + 1).toNat = (n.toNat + 1) % 2 ^ 32 := by rw [UInt32.toNat_add, hone]
  unfold Breakpoint.nextHits
  split
  · rename_i hzero
    have hsum : (n.toNat + 1) % 2 ^ 32 = 0 := by rw [← hadd, hzero]; rfl
    omega
  · rename_i hne
    have hsum : (n.toNat + 1) % 2 ^ 32 ≠ 0 := fun hzero => hne (UInt32.toNat_inj.1 (hadd.trans hzero))
    omega

/-- **Hits count how often a line has been executed**, up to the largest number. -/
theorem toNat_foldl_hit (line : UInt32) (lines : List UInt32) (n : UInt32) :
    (lines.foldl (hit line) n).toNat = min (n.toNat + lines.count line) (2 ^ 32 - 1) := by
  have hn := n.toNat_lt
  induction lines generalizing n with
  | nil =>
    rw [List.foldl_nil, List.count_nil]
    omega
  | cons x lines ih =>
    rw [List.foldl_cons, ih _ (UInt32.toNat_lt _), hit, List.count_cons]
    by_cases hx : x = line
    · rw [if_pos hx, if_pos (beq_iff_eq.2 hx), toNat_nextHits]
      omega
    · rw [if_neg hx, if_neg (by simpa using hx)]
      omega

/-- The hits of the breakpoint on a line. -/
def Ledger.hits? (l : Ledger) (line : UInt32) : Option UInt32 := (l.breakpoints.get? line).map Breakpoint.hits

/-- The hits of the breakpoint on a line of the controller with an id. -/
def hits? (id : String) (line : UInt32) (e : Engine) : Option UInt32 := (e.ledger id).bind fun l => l.hits? line

/-- A line that is noted counts for the breakpoint on it. -/
theorem hits?_note (l : Ledger) (line executed : UInt32) :
    (l.note executed).hits? line = (l.hits? line).map fun n => hit line n executed := by
  rw [Ledger.hits?, get?_note, Ledger.hits?, Option.map_map, Option.map_map]
  refine congrFun (congrArg Option.map (funext fun b => ?_)) _
  simp only [Function.comp_apply, hit]
  split <;> rfl

theorem hits?_foldl_note (lines : List UInt32) (l : Ledger) :
    (lines.foldl Ledger.note l).hits? line = (l.hits? line).map fun n => lines.foldl (hit line) n := by
  induction lines generalizing l with
  | nil => exact Option.map_id'.symm
  | cons x lines ih =>
    rw [List.foldl_cons, ih, hits?_note, Option.map_map]
    rfl

/-- **A breakpoint is set on a line for the first time**: there is none on it yet. -/
def SetsFirst (id : String) (line : UInt32) (e : Engine) (c : Millis × Call) : Prop :=
  (∃ enabled condition hitCount, c.2 = .setBreakpoint id line enabled condition hitCount) ∧
    ∃ d, e.controllers.get? id = some d ∧ d.breakpoints.get? line = none

/-- **A breakpoint is given up**: it is removed or cleared with all others, or its controller is removed or replaced. -/
def Drops (id : String) (line : UInt32) (_ : Engine) (c : Millis × Call) : Prop :=
  match c.2 with
  | .removeBreakpoint other l => other = id ∧ l = line
  | .clearBreakpoints other | .removeController other => other = id
  | .addController config => config.id = id
  | _ => False

theorem hits?_of_ledger {l : Ledger} (h : e.ledger id = some l) : hits? id line e = l.hits? line := by
  rw [hits?, h, Option.bind_some]

/-- A breakpoint that is set leaves the hits of the others, and those of its own line. -/
theorem hits?_insert (l : Ledger) (line other : UInt32) {b : Breakpoint}
    (hb : b.hits = ((l.breakpoints.get? other).map Breakpoint.hits).getD 0) :
    ({ l with breakpoints := l.breakpoints.insert other b } : Ledger).hits? line =
      if line = other then some ((l.hits? line).getD 0) else l.hits? line := by
  split
  · rename_i heq
    subst heq
    rw [Ledger.hits?, SortedMap.get?_insert_self, Option.map_some, hb]
    rfl
  · rename_i hne
    rw [Ledger.hits?, SortedMap.get?_insert_of_ne _ _ hne]
    rfl

/-- A breakpoint that is set on a line without one has no hits. -/
theorem hits?_begins (h : SetsFirst id line e (now, call)) : hits? id line (e.after now call) = some 0 := by
  obtain ⟨⟨enabled, condition, hitCount, heq⟩, d, hd, hfree⟩ := h
  obtain rfl : call = .setBreakpoint id line enabled condition hitCount := heq
  have hledger : e.ledger id = some d.ledger := ledger_eq_some.2 ⟨d, hd, rfl⟩
  have hedited := edited_after e now id (.setBreakpoint id line enabled condition hitCount)
  rw [hits?]
  generalize (e.after now (.setBreakpoint id line enabled condition hitCount)).ledger id = result at hedited ⊢
  cases hedited with
  | noted hcall => exact absurd rfl hcall
  | set hl hb =>
    obtain rfl := Option.some.inj (hledger.symm.trans hl)
    have hnone : d.ledger.hits? line = none := by
      rw [Ledger.hits?, show d.ledger.breakpoints.get? line = none from hfree]
      rfl
    rw [Option.bind_some, hits?_insert _ _ _ hb, if_pos rfl, hnone]
    rfl
  | absent hnone => rw [hledger] at hnone; cases hnone

/-- A breakpoint that stays counts the lines that are executed. -/
theorem hits?_goes {n : UInt32} (hends : ¬ Drops id line e (now, call)) (hlook : hits? id line e = some n) :
    hits? id line (e.after now call) = some ((e.callLines now id call).foldl (hit line) n) := by
  have hedited := edited_after e now id call
  obtain ⟨l, hl, hn⟩ := Option.bind_eq_some_iff.1 hlook
  rw [hits?]
  generalize (e.after now call).ledger id = result at hedited ⊢
  -- Three edits would drop the breakpoint, and the other ones keep its hits.
  cases hedited with
  | noted => rw [hl, Option.map_some, Option.bind_some, hits?_foldl_note, hn, Option.map_some]
  | added hid => exact absurd hid hends
  | removed => exact absurd rfl hends
  | loaded hl' hok program =>
    obtain rfl := Option.some.inj (hl.symm.trans hl')
    rw [Option.bind_some, Ledger.hits?, SortedMap.get?_mapValues, Option.map_map]
    exact hn
  | @set other enabled condition hitCount l' hl' b hb =>
    obtain rfl := Option.some.inj (hl.symm.trans hl')
    rw [Option.bind_some, hits?_insert _ _ _ hb, hn, Option.getD_some, ite_self]
    rfl
  | erased other hl' =>
    obtain rfl := Option.some.inj (hl.symm.trans hl')
    have hne : line ≠ other := fun heq => hends ⟨rfl, heq.symm⟩
    rw [Option.bind_some, Ledger.hits?, SortedMap.get?_erase_of_ne _ hne]
    exact hn
  | cleared => exact absurd rfl hends
  | absent hnone => rw [hl] at hnone; cases hnone
  | rejected source =>
    rw [hl, Option.bind_some]
    exact hn

/-- A line without a breakpoint, or whose breakpoint is dropped, has no count. -/
theorem hits?_lapses (hbegins : ¬ SetsFirst id line e (now, call))
    (hlapses : hits? id line e = none ∨ Drops id line e (now, call)) :
    hits? id line (e.after now call) = none := by
  have hedited := edited_after e now id call
  -- where the call gives up nothing, there was no breakpoint before it
  have hfree {l : Ledger} (hl : e.ledger id = some l) (hends : ¬ Drops id line e (now, call)) : l.hits? line = none :=
    (hits?_of_ledger hl).symm.trans (hlapses.resolve_right hends)
  rw [hits?]
  generalize (e.after now call).ledger id = result at hedited ⊢
  cases hedited with
  | noted hcall =>
    have hends : ¬ Drops id line e (now, call) := by
      intro hdrops
      cases call <;> first | exact hdrops | exact hcall hdrops | exact hcall hdrops.1
    cases hl : e.ledger id with
    | none => rfl
    | some l => rw [Option.map_some, Option.bind_some, hits?_foldl_note, hfree hl hends, Option.map_none]
  | added | removed | absent => rfl
  | loaded hl hok program =>
    rw [Option.bind_some, Ledger.hits?, SortedMap.get?_mapValues, Option.map_map]
    exact hfree hl fun h => h
  | @set other enabled condition hitCount l hl b hb =>
    have hnone := hfree hl fun h => h
    rw [Option.bind_some, hits?_insert _ _ _ hb, if_neg, hnone]
    rintro rfl
    obtain ⟨d, hd, rfl⟩ := ledger_eq_some.1 hl
    exact hbegins ⟨⟨enabled, condition, hitCount, rfl⟩, d, hd, Option.map_eq_none_iff.1 hnone⟩
  | erased other hl =>
    rw [Option.bind_some, Ledger.hits?]
    by_cases hline : line = other
    · subst hline
      rw [SortedMap.get?_erase_self]
      rfl
    · rw [SortedMap.get?_erase_of_ne _ hline]
      exact hfree hl fun h => hline h.2.symm
  | cleared => rfl
  | rejected source =>
    cases hl : e.ledger id with
    | none => rfl
    | some l => exact hfree hl fun h => h

/-- The hits of a breakpoint are a count of the lines executed since it was set. -/
theorem counts_hits (settings : Settings) (id : String) (line : UInt32) :
    Counts settings id (SetsFirst id line) (Drops id line) (hits? id line) (hit line) 0 where
  unset := rfl
  begins calls c hbegins := by
    rw [follow_concat]
    exact hits?_begins hbegins
  goes calls c n hends hlook := by
    rw [follow_concat]
    exact hits?_goes hends hlook
  lapses calls c hbegins hlapses := by
    rw [follow_concat]
    exact hits?_lapses hbegins hlapses

theorem hits?_eq_some {n : UInt32} : hits? id line e = some n ↔
    ∃ c b, e.controllers.get? id = some c ∧ c.breakpoints.get? line = some b ∧ b.hits = n := by
  constructor
  · intro hlook
    obtain ⟨l, hl, hn⟩ := Option.bind_eq_some_iff.1 hlook
    obtain ⟨c, hc, rfl⟩ := ledger_eq_some.1 hl
    obtain ⟨b, hb, rfl⟩ := Option.map_eq_some_iff.1 hn
    exact ⟨c, b, hc, hb, rfl⟩
  · rintro ⟨c, b, hc, hb, rfl⟩
    rw [hits?_of_ledger (ledger_eq_some.2 ⟨c, hc, rfl⟩)]
    exact Option.map_eq_some_iff.2 ⟨b, hb, rfl⟩

/-- A breakpoint has been set for the first time, and has not been given up since. -/
theorem set_since {settings : Settings} {b : Breakpoint}
    (hc : ((new settings).follow calls).controllers.get? id = some c) (hb : c.breakpoints.get? line = some b) :
    ∃ first since, Since settings (SetsFirst id line) (Drops id line) calls first since :=
  (counts_hits settings id line).exists_since (hits?_eq_some.2 ⟨c, b, hc, hb, rfl⟩)

/-- **The hits of a breakpoint** are how often its line has been executed since it was first set, up to the largest
number. -/
theorem hits_since {settings : Settings} {first since : List (Millis × Call)}
    (hsince : Since settings (SetsFirst id line) (Drops id line) calls first since) :
    ∃ c b, ((new settings).follow calls).controllers.get? id = some c ∧ c.breakpoints.get? line = some b ∧
      b.hits.toNat = min ((((new settings).follow first).executed id since).count line) (2 ^ 32 - 1) := by
  obtain ⟨c, b, hc, hb, hhits⟩ := hits?_eq_some.1 ((counts_hits settings id line).look_since hsince)
  refine ⟨c, b, hc, hb, ?_⟩
  rw [hhits, toNat_foldl_hit, UInt32.toNat_zero, Nat.zero_add]

/-- **What is remembered** of items from the beginning is the last of them: as many as there is room for, and one at
least. -/
theorem foldl_remember {α : Type} (capacity : ℕ) (items : List α) :
    items.foldl (remember capacity) [] = items.rtake (max 1 capacity) := by
  obtain ⟨room, hroom⟩ : ∃ room, max 1 capacity = room + 1 := ⟨max 1 capacity - 1, by omega⟩
  rw [hroom]
  -- from the last item backwards, as this is how items are dropped
  induction items using List.reverseRecOn with
  | nil => exact (List.rtake_nil ..).symm
  | append_singleton items item ih =>
    rw [List.foldl_append, ih, List.foldl_cons, List.foldl_nil, List.rtake_concat_succ, remember]
    congr 1
    simp only [List.rtake, List.length_drop, List.tail_drop]
    rcases Nat.lt_or_ge room items.length with hfull | hroomy
    · rw [if_pos (by omega)]
      congr 1
      omega
    · rw [Nat.sub_eq_zero_of_le hroomy, Nat.sub_eq_zero_of_le (Nat.le_succ_of_le hroomy), List.drop_zero]
      split
      · -- there is room for one item although the capacity is zero
        have hnil : items = [] := List.length_eq_zero_iff.1 (by omega)
        rw [hnil]
        rfl
      · rfl

/-- **A program is loaded**: the text is accepted. -/
def Loads (id : String) (e : Engine) (c : Millis × Call) : Prop :=
  ∃ source e', c.2 = .loadProgram id source ∧ e.answer c.1 (.loadProgram id source) = .ok e'

/-- **A program is given up**: another one is loaded, or the controller is removed or replaced. -/
def Unloads (id : String) (e : Engine) (c : Millis × Call) : Prop :=
  Loads id e c ∨
    match c.2 with
    | .removeController other => other = id
    | .addController config => config.id = id
    | _ => False

/-- The history of a ledger, if there is a program. -/
def Ledger.history? (l : Ledger) : Option (List UInt32) := if l.loaded then some l.history else none

/-- The history of the controller with an id, if it has a program. -/
def history? (id : String) (e : Engine) : Option (List UInt32) := (e.ledger id).bind Ledger.history?

theorem history?_foldl_note (lines : List UInt32) (l : Ledger) :
    (lines.foldl Ledger.note l).history? = l.history?.map fun h => lines.foldl (remember l.capacity) h := by
  induction lines generalizing l with
  | nil => exact Option.map_id'.symm
  | cons line lines ih =>
    rw [List.foldl_cons, ih, Ledger.history?, Ledger.history?, Ledger.note]
    cases l.loaded <;> rfl

/-- A program that is loaded has an empty history. -/
theorem history?_begins (h : Loads id e (now, call)) : history? id (e.after now call) = some [] := by
  obtain ⟨source, e', heq, hok⟩ := h
  obtain rfl : call = .loadProgram id source := heq
  have hedited := edited_after e now id (.loadProgram id source)
  rw [history?]
  generalize (e.after now (.loadProgram id source)).ledger id = result at hedited ⊢
  cases hedited with
  | noted hcall => exact absurd rfl hcall
  | loaded hl => rfl
  | absent _ hrefused => exact absurd hok (hrefused e')
  | rejected _ hrefused => exact absurd hok (hrefused e')

/-- The history of a program that stays takes in the lines that are executed. -/
theorem history?_goes {settings : Settings} {h : List UInt32} (he : Roomy settings e)
    (hends : ¬ Unloads id e (now, call)) (hlook : history? id e = some h) :
    history? id (e.after now call) = some ((e.callLines now id call).foldl (remember settings.historyCapacity) h) := by
  have hedited := edited_after e now id call
  obtain ⟨l, hl, hhistory⟩ := Option.bind_eq_some_iff.1 hlook
  have hcapacity := he.capacity id l hl
  rw [history?]
  generalize (e.after now call).ledger id = result at hedited ⊢
  cases hedited with
  | noted => rw [hl, Option.map_some, Option.bind_some, history?_foldl_note, hhistory, Option.map_some, hcapacity]
  | added hid => exact absurd (.inr hid) hends
  | removed => exact absurd (.inr rfl) hends
  | loaded _ hok => exact absurd (.inl ⟨_, _, rfl, hok⟩) hends
  | set hl' | erased _ hl' | cleared hl' =>
    obtain rfl := Option.some.inj (hl.symm.trans hl')
    exact hhistory
  | absent hnone => rw [hl] at hnone; cases hnone
  | rejected source =>
    rw [hl, Option.bind_some]
    exact hhistory

/-- A controller without a program, or one that loses it, has no history. -/
theorem history?_lapses (hbegins : ¬ Loads id e (now, call))
    (hlapses : history? id e = none ∨ Unloads id e (now, call)) :
    history? id (e.after now call) = none := by
  have hedited := edited_after e now id call
  have hfree {l : Ledger} (hl : e.ledger id = some l) (hends : ¬ Unloads id e (now, call)) : l.history? = none := by
    have hnone := hlapses.resolve_right hends
    rwa [history?, hl, Option.bind_some] at hnone
  rw [history?]
  generalize (e.after now call).ledger id = result at hedited ⊢
  -- There is a history only if a program was there before, or is loaded now.
  cases hedited with
  | noted hcall =>
    have hends : ¬ Unloads id e (now, call) := by
      rintro (hloads | hunloads)
      · exact hbegins hloads
      · cases call <;> first | exact hunloads | exact hcall hunloads
    cases hl : e.ledger id with
    | none => rfl
    | some l => rw [Option.map_some, Option.bind_some, history?_foldl_note, hfree hl hends, Option.map_none]
  | added | removed | absent => rfl
  | loaded _ hok => exact absurd ⟨_, _, rfl, hok⟩ hbegins
  | set hl | erased _ hl | cleared hl =>
    have hnone := hfree hl (not_or.2 ⟨hbegins, fun hunloads => hunloads⟩)
    exact hnone
  | rejected source =>
    cases hl : e.ledger id with
    | none => rfl
    | some l => exact hfree hl (not_or.2 ⟨hbegins, fun hunloads => hunloads⟩)

/-- The history is a count of the lines executed since the program was loaded. -/
theorem counts_history (settings : Settings) (id : String) :
    Counts settings id (Loads id) (Unloads id) (history? id) (remember settings.historyCapacity) [] where
  unset := rfl
  begins calls c hbegins := by
    rw [follow_concat]
    exact history?_begins hbegins
  goes calls c h hends hlook := by
    rw [follow_concat]
    exact history?_goes (roomy_follow settings calls) hends hlook
  lapses calls c hbegins hlapses := by
    rw [follow_concat]
    exact history?_lapses hbegins hlapses

theorem history?_eq_some {h : List UInt32} :
    history? id e = some h ↔ ∃ c t, e.controllers.get? id = some c ∧ c.task = some t ∧ c.history = h := by
  have hcontroller (c : Controller) : c.ledger.history? = some h ↔ ∃ t, c.task = some t ∧ c.history = h := by
    rw [Ledger.history?]
    cases ht : c.task <;> simp [Controller.ledger, ht]
  constructor
  · intro hlook
    obtain ⟨l, hl, hh⟩ := Option.bind_eq_some_iff.1 hlook
    obtain ⟨c, hc, rfl⟩ := ledger_eq_some.1 hl
    obtain ⟨t, ht, hh⟩ := (hcontroller c).1 hh
    exact ⟨c, t, hc, ht, hh⟩
  · rintro ⟨c, t, hc, ht, hh⟩
    exact Option.bind_eq_some_iff.2 ⟨c.ledger, ledger_eq_some.2 ⟨c, hc, rfl⟩, (hcontroller c).2 ⟨t, ht, hh⟩⟩

/-- A program has been loaded, and has not been given up since. -/
theorem loaded_since {settings : Settings} {t : Task} (hc : ((new settings).follow calls).controllers.get? id = some c)
    (ht : c.task = some t) : ∃ first since, Since settings (Loads id) (Unloads id) calls first since :=
  (counts_history settings id).exists_since (history?_eq_some.2 ⟨c, t, hc, ht, rfl⟩)

/-- **The history** is the last of the lines that have been executed since the program was loaded. -/
theorem history_since {settings : Settings} {first since : List (Millis × Call)}
    (hsince : Since settings (Loads id) (Unloads id) calls first since) :
    ∃ c t, ((new settings).follow calls).controllers.get? id = some c ∧ c.task = some t ∧
      c.history = (((new settings).follow first).executed id since).rtake (max 1 settings.historyCapacity) := by
  obtain ⟨c, t, hc, ht, hhistory⟩ := history?_eq_some.1 ((counts_history settings id).look_since hsince)
  exact ⟨c, t, hc, ht, hhistory.trans (foldl_remember _ _)⟩

/-- Without a program there is no history. -/
theorem history_of_unloaded (settings : Settings) (calls : List (Millis × Call)) :
    ∀ id c, ((new settings).follow calls).controllers.get? id = some c → c.task = none → c.history = [] := by
  refine controllers_follow (P := fun c => c.task = none → c.history = []) (fun _ _ _ _ => rfl) ?_ settings calls
  intro c c' h hchange htask
  cases hchange with
  | reset => exact h (Option.map_eq_none_iff.1 htask)
  | enable | setTickRate | setBreakpoint | removeBreakpoint | clearBreakpoints => exact h htask
  | load source now hload =>
    obtain ⟨program, scope, -, rfl⟩ := Controller.load_eq_ok hload
    cases htask
  | turn s budget stepping now =>
    rw [Controller.turn] at htask ⊢
    cases ht : c.task with
    | none => exact h ht
    | some t =>
      rw [ht] at htask
      cases htask

end Switchyard.Engine

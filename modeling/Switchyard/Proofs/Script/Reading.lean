import Switchyard.Proofs.Script.Yields

/-!
# Readings

What a parser makes of a text that was written for it: it reads the expected value and
stops where the text of it ends, or it gives up because the nesting is too deep. The
second only happens when the value does not fit into the levels that are left.

* `Parser.Reads`: composed along the parsers (`Reads.bind`, `Reads.step`).
* `Continues`: chains of operators, one operand at a time.
-/

namespace Switchyard.Script

variable {α β : Type} {vars : List Declaration} {F G : Prop}

/-- The value was read, with variables that are accepted, and the rest is left; or the nesting was
too deep, since it does not fit. -/
inductive Reading (vars : List Declaration) (Fits : Prop) (value : α) (rest : List Token) :
    Except CompileError (Parsed α) → Prop
  | read {uses} (h : Accepted vars uses) : Reading vars Fits value rest (.ok ⟨value, uses, rest⟩)
  | tooDeep (line) (h : ¬ Fits) : Reading vars Fits value rest (.error ⟨.nestedTooDeeply, some line⟩)

theorem Reading.mono {value : α} {rest : List Token} {r : Except CompileError (Parsed α)}
    (h : Reading vars F value rest r) (hle : G → F) : Reading vars G value rest r := by
  cases h with
  | read h => exact .read h
  | tooDeep line h => exact .tooDeep line fun hG => h (hle hG)

/-- On these tokens the parser reads the value and leaves the rest, if the value fits. -/
def Parser.Reads (vars : List Declaration) (Fits : Prop) (p : Parser α) (ts : List Token) (value : α)
    (rest : List Token) : Prop := ∀ endLine, Reading vars Fits value rest (p endLine ts)

theorem accepted_nil : Accepted vars [] := nofun

open Switchyard.Script.Parser (remaining skip)

namespace Parser.Reads

variable {p : Parser α} {f : α → Parser β} {ts mid rest : List Token} {a : α} {b : β}

theorem mono (h : p.Reads vars F ts a rest) (hle : G → F) : p.Reads vars G ts a rest :=
  fun endLine => (h endLine).mono hle

theorem pure (a : α) (ts : List Token) : Reads vars F (Pure.pure a : Parser α) ts a ts := fun _ => .read accepted_nil

theorem bind (hp : p.Reads vars F ts a mid) (hf : (f a).Reads vars F mid b rest) :
    (p >>= f).Reads vars F ts b rest := by
  intro endLine
  change Reading vars F b rest (Parser.bind p f endLine ts)
  rw [Parser.bind]
  have hfirst := hp endLine
  generalize p endLine ts = r at hfirst ⊢
  cases hfirst with
  | tooDeep line h => exact .tooDeep line h
  | read huses =>
    have hlater := hf endLine
    simp only []
    generalize f a endLine mid = r at hlater ⊢
    cases hlater with
    | tooDeep line h => exact .tooDeep line h
    | read hmore => exact .read (accepted_append.2 ⟨huses, hmore⟩)

/-- Goes on after a parser that reports nothing and cannot fail here. -/
theorem step (hp : ∀ endLine, p endLine ts = .ok ⟨a, [], mid⟩) (hf : (f a).Reads vars F mid b rest) :
    (p >>= f).Reads vars F ts b rest :=
  bind (fun endLine => by rw [hp endLine]; exact .read accepted_nil) hf

/-- A look at the tokens. -/
theorem look {f : List Token → Parser β} (hf : (f ts).Reads vars F ts b rest) :
    (remaining >>= f).Reads vars F ts b rest := step (fun _ => rfl) hf

/-- A token is dropped. -/
theorem drop {f : Unit → Parser β} {t : Token} (hf : (f ()).Reads vars F ts b rest) :
    (skip >>= f).Reads vars F (t :: ts) b rest := step (fun _ => rfl) hf

theorem pos {c : Prop} [Decidable c] {q : Parser α} (hc : c) (h : p.Reads vars F ts a rest) :
    (if c then p else q).Reads vars F ts a rest := by
  rw [if_pos hc]
  exact h

theorem neg {c : Prop} [Decidable c] {q : Parser α} (hc : ¬ c) (h : q.Reads vars F ts a rest) :
    (if c then p else q).Reads vars F ts a rest := by
  rw [if_neg hc]
  exact h

/-- The symbol that has to come. -/
theorem symbol {f : Unit → Parser β} {s : Symbol} {line : UInt32} (hf : (f ()).Reads vars F ts b rest) :
    (expectSymbol s >>= f).Reads vars F (⟨.symbol s, line⟩ :: ts) b rest := by
  have hat : atSymbol s (⟨.symbol s, line⟩ :: ts) = true := decide_eq_true rfl
  have hsymbol : (expectSymbol s).Reads vars F (⟨.symbol s, line⟩ :: ts) () ts :=
    look (pos hat fun _ => .read accepted_nil)
  exact hsymbol.bind hf

/-- The keyword that has to come. -/
theorem keyword {f : Unit → Parser β} {word : String} {line : UInt32} (hword : spells word word = true)
    (hf : (f ()).Reads vars F ts b rest) :
    (takeKeyword word >>= f).Reads vars F (⟨.ident word, line⟩ :: ts) b rest := by
  have hat : atKeyword word (⟨.ident word, line⟩ :: ts) = true := hword
  have hkeyword : (takeKeyword word).Reads vars F (⟨.ident word, line⟩ :: ts) () ts :=
    look (pos hat fun _ => .read accepted_nil)
  exact hkeyword.bind hf

/-- A semicolon that may come. -/
theorem semicolon {f : Unit → Parser β} {line : UInt32} (hf : (f ()).Reads vars F ts b rest) :
    (optionalSemicolon >>= f).Reads vars F (⟨.symbol .semi, line⟩ :: ts) b rest := by
  have hsemicolon : optionalSemicolon.Reads vars F (⟨.symbol .semi, line⟩ :: ts) () ts :=
    look (pos rfl fun _ => .read accepted_nil)
  exact hsemicolon.bind hf

theorem map {g : α → β} (hp : p.Reads vars F ts a rest) : (g <$> p).Reads vars F ts (g a) rest :=
  hp.bind (pure (g a) rest)

theorem tooDeep (h : ¬ F) : Reads vars F (Script.tooDeep : Parser α) ts a rest := fun _ => .tooDeep _ h

/-- A variable is noted, if it may be used. -/
theorem use {key : String} {stepTime : Bool} (hkey : Text.upper key = key) (h : Admits vars key stepTime)
    (line : UInt32) (ts : List Token) : Reads vars F (Parser.use key line stepTime) ts key ts := by
  intro endLine
  have haccepted : Accepted vars [⟨key, key, line, stepTime⟩] := List.forall_mem_singleton.2 h
  rw [Parser.use, hkey]
  exact .read haccepted

end Parser.Reads

open Switchyard.Script.Parser (Reads)

/-- A chain that has read operands up to the tree `lhs` goes on with the rest. -/
def Continues (vars : List Declaration) (Fits : Prop) (operator : OperatorAt) (operand : Parser Expr) (ts : List Token)
    (lhs : Expr) (rest : List Token) : Prop :=
  ∀ endLine, (∃ uses, Accepted vars uses ∧
      chain operator operand endLine ts = chainFrom operator operand endLine lhs uses rest) ∨
    (¬ Fits ∧ ∃ line, chain operator operand endLine ts = .error ⟨.nestedTooDeeply, some line⟩)

section Chains

variable {operator : OperatorAt} {operand : Parser Expr} {ts mid rest : List Token} {lhs rhs : Expr} {op : BinaryOp}
  {t : Token}

theorem Continues.mono (h : Continues vars F operator operand ts lhs rest) (hle : G → F) :
    Continues vars G operator operand ts lhs rest :=
  fun endLine => (h endLine).imp id fun hdeep => ⟨fun hG => hdeep.1 (hle hG), hdeep.2⟩

/-- A chain starts with an operand. -/
theorem continues_of_reads (h : operand.Reads vars F ts lhs rest) : Continues vars F operator operand ts lhs rest := by
  intro endLine
  have hfirst := h endLine
  rw [chain]
  generalize operand endLine ts = r at hfirst ⊢
  cases hfirst with
  | tooDeep line h => exact .inr ⟨h, line, rfl⟩
  | @read uses huses => exact .inl ⟨uses, huses, rfl⟩

/-- A chain grows by an operator and an operand. -/
theorem Continues.next (h : Continues vars F operator operand ts lhs (t :: mid)) (hop : operator (t :: mid) = some op)
    (hrhs : operand.Reads vars F mid rhs rest) (hshorter : rest.length ≤ mid.length)
    (hdepth : F → (Expr.binary op lhs rhs).depth ≤ nestingLimit) :
    Continues vars F operator operand ts (.binary op lhs rhs) rest := by
  intro endLine
  rcases h endLine with ⟨uses, huses, hchain⟩ | hdeep
  · -- the chain is at the operator: the right operand is read, and then the depth of both is checked
    rw [hchain, chainFrom, hop]
    have hright := hrhs endLine
    generalize operand endLine mid = r at hright ⊢
    cases hright with
    | tooDeep line h => exact .inr ⟨h, line, rfl⟩
    | @read more hmore =>
      rw [Expr.depth] at hdepth
      by_cases hlimit : 1 + max lhs.depth rhs.depth > nestingLimit
      · refine .inr ⟨fun hF => absurd (hdepth hF) (by omega), Parser.lineAt endLine rest, ?_⟩
        simp only [binary, if_pos hlimit]
        rfl
      · refine .inl ⟨uses ++ more, accepted_append.2 ⟨huses, hmore⟩, ?_⟩
        simp only [binary, if_neg hlimit]
        simp only [Pure.pure, Parser.pure, if_pos hshorter]
  · exact .inr hdeep

/-- A chain ends where no operator of its level follows. -/
theorem Continues.stop (h : Continues vars F operator operand ts lhs rest) (hop : operator rest = none) :
    (chain operator operand).Reads vars F ts lhs rest := by
  intro endLine
  rcases h endLine with ⟨uses, huses, hchain⟩ | ⟨hF, line, hchain⟩
  · rw [hchain]
    cases rest with
    | nil =>
      rw [chainFrom]
      exact .read huses
    | cons t rest =>
      rw [chainFrom, hop]
      exact .read huses
  · rw [hchain]
    exact .tooDeep line hF

end Chains

end Switchyard.Script

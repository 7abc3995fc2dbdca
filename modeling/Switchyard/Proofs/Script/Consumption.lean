import Mathlib.Data.Nat.Notation
import Mathlib.Tactic.Common
import Switchyard.Proofs.Script.Yields

/-!
# What parsers take off their input

A parser that succeeds has taken some tokens off the front of its input and leaves the others as they are. `Spends A
least p` says that these are at least so many, and what they are like: each of them satisfies `A`, as the words and
marks of the language do, or is the name of a variable that the parser has reported. There is one such statement for
each parser, along its own structure (`spends_expr`, `spendsAt_statement`, `taken_varSection`).

* `ExpressionTokens A`, `StatementTokens A`, `ProgramTokens A`: `A` admits what the parts of a program are made of.
* `Use.Names`: a token is the name of a variable that was seen.
* `bind_eq_ok_iff`: what a sequence of two parsers reads.
-/

namespace Switchyard.Script

open Switchyard.Script.Parser (remaining skip failAt fail lineHere)

variable {α β : Type} {A : TokenContent → Prop} {m n : ℕ} {ts : List Token} {t : Token}

/-- The words that mean something inside of expressions. -/
def expressionWords : List String :=
  ["AND", "OR", "NOT", "MOD", "TRUE", "FALSE", "DEVICE", "STEPTIME", "SQRT", "ABS", "TRUNC", "TO_INT", "READINPUT",
   "READREGISTER", "WRITECOIL", "WRITEREGISTER", "GETDA", "SETDA", "LOG"]

/-- The words that open, divide and close blocks. -/
def blockWords : List String :=
  ["VAR", "END_VAR", "IF", "THEN", "ELSIF", "ELSE", "END_IF", "WHILE", "DO", "END_WHILE"]

/-- The words for the types of variables. -/
def typeWords : List String :=
  ["BOOL", "INT", "SINT", "DINT", "LINT", "UINT", "UDINT", "WORD", "DWORD", "REAL", "LREAL", "STRING", "TIME"]

/-- All that expressions are made of, names apart. -/
structure ExpressionTokens (A : TokenContent → Prop) : Prop where
  symbol {s : Symbol} (h : s ≠ .semi) : A (.symbol s)
  int (n : Int64) : A (.int n)
  real (x : Float) : A (.real x)
  text (s : String) : A (.text s)
  word {w : String} (h : Text.upper w ∈ expressionWords) : A (.ident w)

/-- All that statements are made of, names apart. -/
structure StatementTokens (A : TokenContent → Prop) : Prop extends ExpressionTokens A where
  semi : A (.symbol .semi)
  blockWord {w : String} (h : Text.upper w ∈ blockWords) : A (.ident w)

/-- All that programs are made of, names apart. -/
structure ProgramTokens (A : TokenContent → Prop) : Prop extends StatementTokens A where
  typeWord {w : String} (h : Text.upper w ∈ typeWords) : A (.ident w)

/-- Any token will do. -/
def AnyToken (_ : TokenContent) : Prop := True

theorem programTokens_any : ProgramTokens AnyToken where
  symbol _ := trivial
  int _ := trivial
  real _ := trivial
  text _ := trivial
  word _ := trivial
  semi := trivial
  blockWord _ := trivial
  typeWord _ := trivial

/-- A word spells a keyword if it is the keyword in upper case. -/
theorem upper_of_spells {keyword w : String} (h : spells keyword w = true) : Text.upper w = keyword := eq_of_beq h

/-- The names of the device's operations are words of expressions. -/
theorem mem_of_deviceOp {w : String} {func : DeviceOp} (h : DeviceOp.ofName? w = some func) :
    Text.upper w ∈ expressionWords := by
  unfold DeviceOp.ofName? at h
  split at h
  case h_8 => cases h
  all_goals
    rename_i hw
    rw [hw]
    decide

/-- The names of the built-in functions are words of expressions. -/
theorem mem_of_builtin {w : String} {func : Builtin} (h : Builtin.ofName? w = some func) :
    Text.upper w ∈ expressionWords := by
  unfold Builtin.ofName? at h
  split at h
  case h_6 => cases h
  all_goals
    rename_i hw
    rw [hw]
    decide

/-- The names of the types are words for types. -/
theorem mem_of_typeName {w : String} {type : TypeName} (h : TypeName.ofName? w = some type) :
    Text.upper w ∈ typeWords := by
  unfold TypeName.ofName? at h
  split at h
  case h_14 => cases h
  all_goals
    rename_i hw
    rw [hw]
    decide

/-- At a symbol, the first token is that symbol. -/
theorem eq_cons_of_atSymbol {s : Symbol} (h : atSymbol s ts = true) : ∃ l rest, ts = ⟨.symbol s, l⟩ :: rest := by
  unfold atSymbol at h
  split at h
  · rename_i s' l rest
    obtain rfl : s = s' := of_decide_eq_true h
    exact ⟨l, rest, rfl⟩
  · cases h

/-- At a keyword, the first token is a word that spells it in some letter case. -/
theorem eq_cons_of_atKeyword {keyword : String} (h : atKeyword keyword ts = true) :
    ∃ w l rest, ts = ⟨.ident w, l⟩ :: rest ∧ Text.upper w = keyword := by
  unfold atKeyword at h
  split at h
  · rename_i w l rest
    exact ⟨w, l, rest, rfl, upper_of_spells h⟩
  · cases h

/-- What is seen ahead is the content of the first token. -/
theorem eq_cons_of_peek {content : TokenContent} (h : Parser.peek ts = some content) :
    ∃ l rest, ts = ⟨content, l⟩ :: rest := by
  cases ts with
  | nil => cases h
  | cons t rest =>
    cases h
    exact ⟨t.line, rest, rfl⟩

/-- No token is two keywords at once. -/
theorem not_atKeyword {keyword other : String} (h : atKeyword keyword ts = true) (hne : keyword ≠ other) :
    ¬ atKeyword other ts = true := by
  intro hother
  obtain ⟨w, l, rest, rfl, hw⟩ := eq_cons_of_atKeyword h
  obtain ⟨w', l', rest', heq, hw'⟩ := eq_cons_of_atKeyword hother
  cases heq
  exact hne (hw ▸ hw')

/-- **A sequence of two parsers** reads what the second one reads off what the first one leaves. -/
theorem Parser.bind_eq_ok_iff {p : Parser α} {f : α → Parser β} {endLine : UInt32} {r : Parsed β} :
    (p >>= f) endLine ts = .ok r ↔ ∃ a b, p endLine ts = .ok a ∧ f a.value endLine a.rest = .ok b ∧
      r = ⟨b.value, a.uses ++ b.uses, b.rest⟩ := by
  change Parser.bind p f endLine ts = .ok r ↔ _
  rw [Parser.bind]
  cases ha : p endLine ts with
  | error e => simp
  | ok a => cases hb : f a.value endLine a.rest <;> simp [hb, eq_comm]

/-- A look at the tokens leaves them all. -/
theorem Parser.look_eq_ok_iff {f : List Token → Parser β} {endLine : UInt32} {r : Parsed β} :
    (remaining >>= f) endLine ts = .ok r ↔ f ts endLine ts = .ok r := by
  rw [Parser.bind_eq_ok_iff]
  constructor
  · rintro ⟨a, b, ha, hb, rfl⟩
    cases ha
    exact hb
  · exact fun h => ⟨_, r, rfl, h, rfl⟩

/-- A token is dropped. -/
theorem Parser.skip_eq_ok_iff {f : Unit → Parser β} {endLine : UInt32} {r : Parsed β} :
    (skip >>= f) endLine (t :: ts) = .ok r ↔ f () endLine ts = .ok r := by
  rw [Parser.bind_eq_ok_iff]
  constructor
  · rintro ⟨a, b, ha, hb, rfl⟩
    cases ha
    exact hb
  · exact fun h => ⟨_, r, rfl, h, rfl⟩

theorem Parser.bind_pure_eq (p : Parser α) : Parser.bind p Parser.pure = p := by
  funext endLine ts
  simp only [Parser.bind, Parser.pure]
  cases p endLine ts with
  | error e => rfl
  | ok a => simp only [List.append_nil]

theorem Parser.pure_bind_eq (a : α) (f : α → Parser β) : Parser.bind (Parser.pure a) f = f a := by
  funext endLine ts
  simp only [Parser.bind, Parser.pure]
  cases f a endLine ts <;> rfl

/-- Parsers one after another can be grouped either way. -/
theorem Parser.bind_bind_eq {γ : Type} (p : Parser α) (f : α → Parser β) (g : β → Parser γ) :
    Parser.bind (Parser.bind p f) g = Parser.bind p fun a => Parser.bind (f a) g := by
  funext endLine ts
  simp only [Parser.bind]
  cases p endLine ts with
  | error e => rfl
  | ok a =>
    simp only []
    cases f a.value endLine a.rest with
    | error e => rfl
    | ok b =>
      simp only []
      cases g b.value endLine b.rest with
      | error e => rfl
      | ok c => simp only [List.append_assoc]

instance : LawfulMonad Parser := LawfulMonad.mk' Parser Parser.bind_pure_eq Parser.pure_bind_eq Parser.bind_bind_eq

/-- A token is the name of a variable that was seen, and no keyword. -/
def Use.Names (u : Use) (t : Token) : Prop := ∃ w, t.content = .ident w ∧ u.key = Text.upper w ∧ isTaken w = false

/-- A token that `A` admits, or the name of one of the variables. -/
def Token.Accounted (A : TokenContent → Prop) (uses : List Use) (t : Token) : Prop :=
  A t.content ∨ ∃ u ∈ uses, u.Names t

/-- A token stays accounted for when more variables have been seen. -/
theorem Token.Accounted.mono {uses more : List Use} (h : t.Accounted A uses) (hsub : uses ⊆ more) :
    t.Accounted A more :=
  h.imp_right fun ⟨u, hu, hnames⟩ => ⟨u, hsub hu, hnames⟩

/-- **What has been taken** off some tokens up to the rest: at least so many tokens, all of them accounted for. -/
def Taken (A : TokenContent → Prop) (least : ℕ) (uses : List Use) (ts rest : List Token) : Prop :=
  ∃ used, ts = used ++ rest ∧ least ≤ used.length ∧ ∀ t ∈ used, t.Accounted A uses

namespace Taken

variable {uses more : List Use} {mid rest : List Token}

theorem nil (uses : List Use) (ts : List Token) : Taken A 0 uses ts ts :=
  ⟨[], rfl, Nat.le_refl 0, List.forall_mem_nil _⟩

theorem cons (ht : t.Accounted A uses) (h : Taken A m uses ts rest) : Taken A (m + 1) uses (t :: ts) rest := by
  obtain ⟨used, rfl, hleast, hall⟩ := h
  exact ⟨t :: used, rfl, Nat.succ_le_succ hleast, List.forall_mem_cons.2 ⟨ht, hall⟩⟩

/-- What has been taken in two parts has been taken as a whole, with the variables of both parts. -/
theorem append (h : Taken A m uses ts mid) (h' : Taken A n more mid rest) :
    Taken A (m + n) (uses ++ more) ts rest := by
  obtain ⟨used, rfl, hleast, hall⟩ := h
  obtain ⟨used', rfl, hleast', hall'⟩ := h'
  refine ⟨used ++ used', (List.append_assoc ..).symm, ?_, List.forall_mem_append.2 ⟨?_, ?_⟩⟩
  · rw [List.length_append]
    exact Nat.add_le_add hleast hleast'
  · exact fun t ht => (hall t ht).mono (List.subset_append_left _ _)
  · exact fun t ht => (hall' t ht).mono (List.subset_append_right _ _)

theorem least (h : Taken A m uses ts rest) (hle : n ≤ m) : Taken A n uses ts rest := by
  obtain ⟨used, hts, hleast, hall⟩ := h
  exact ⟨used, hts, Nat.le_trans hle hleast, hall⟩

/-- So many tokens are missing from the rest. -/
theorem length (h : Taken A m uses ts rest) : rest.length + m ≤ ts.length := by
  obtain ⟨used, rfl, hleast, -⟩ := h
  rw [List.length_append]
  omega

/-- The tokens that are left were there before. -/
theorem subset (h : Taken A m uses ts rest) : rest ⊆ ts := by
  obtain ⟨used, rfl, -⟩ := h
  exact List.subset_append_right _ _

end Taken

/-- Whatever the parser reads off these tokens, it has taken at least so many of them. -/
def SpendsAt (A : TokenContent → Prop) (least : ℕ) (p : Parser α) (ts : List Token) : Prop :=
  ∀ endLine r, p endLine ts = .ok r → Taken A least r.uses ts r.rest

/-- **What a parser takes off its input**: at least so many tokens, all of them accounted for. -/
def Parser.Spends (A : TokenContent → Prop) (least : ℕ) (p : Parser α) : Prop := ∀ ts, SpendsAt A least p ts

namespace SpendsAt

variable {p q : Parser α} {f : α → Parser β}

theorem pure (a : α) : SpendsAt A 0 (Pure.pure a : Parser α) ts := by
  intro endLine r hr
  cases hr
  exact .nil _ _

theorem failAt (line : UInt32) (fault : CompileFault) : SpendsAt A m (failAt line fault : Parser α) ts :=
  fun _ _ hr => nomatch hr

theorem fail (fault : Option TokenContent → CompileFault) : SpendsAt A m (fail fault : Parser α) ts :=
  fun _ _ hr => nomatch hr

/-- A branch takes what its side takes, and may use what its condition says about the tokens. -/
theorem ite {c : Prop} [Decidable c] (h : c → SpendsAt A m p ts) (h' : ¬ c → SpendsAt A m q ts) :
    SpendsAt A m (if c then p else q) ts := by
  split
  · exact h ‹c›
  · exact h' ‹¬ c›

/-- Two parsers in a row take what both of them take. -/
theorem bind (hp : SpendsAt A m p ts) (hf : ∀ a rest, SpendsAt A n (f a) rest) : SpendsAt A (m + n) (p >>= f) ts := by
  intro endLine r hr
  obtain ⟨a, b, ha, hb, rfl⟩ := Parser.bind_eq_ok_iff.1 hr
  exact (hp endLine a ha).append (hf a.value a.rest endLine b hb)

theorem map {g : α → β} (hp : SpendsAt A m p ts) : SpendsAt A m (g <$> p) ts := hp.bind fun a _ => pure (g a)

/-- A look at the tokens. -/
theorem look {f : List Token → Parser β} (h : SpendsAt A m (f ts) ts) : SpendsAt A m (remaining >>= f) ts := by
  intro endLine r hr
  obtain ⟨a, b, ha, hb, rfl⟩ := Parser.bind_eq_ok_iff.1 hr
  cases ha
  exact h endLine b hb

/-- A token is dropped. -/
theorem drop {f : Unit → Parser β} (ht : A t.content) (h : SpendsAt A m (f ()) ts) :
    SpendsAt A (m + 1) (skip >>= f) (t :: ts) := by
  intro endLine r hr
  obtain ⟨a, b, ha, hb, rfl⟩ := Parser.bind_eq_ok_iff.1 hr
  cases ha
  exact (h endLine b hb).cons (.inl ht)

/-- A token that is admitted may be passed over. -/
theorem skip (ht : A t.content) : SpendsAt A 1 skip (t :: ts) := by
  intro endLine r hr
  cases hr
  exact .cons (.inl ht) (.nil _ _)

/-- A parser that takes so many tokens takes no fewer. -/
theorem least (h : SpendsAt A m p ts) (hle : n ≤ m) : SpendsAt A n p ts :=
  fun endLine r hr => (h endLine r hr).least hle

end SpendsAt

/-- Whatever the parser reads, it has reported a variable of this name. -/
def Parser.Reports (word : String) (p : Parser α) : Prop :=
  ∀ endLine ts r, p endLine ts = .ok r → ∃ u ∈ r.uses, u.key = Text.upper word

namespace Parser.Reports

variable {word : String} {p q : Parser α} {f : α → Parser β}

theorem use (word : String) (line : UInt32) (stepTime : Bool) : Reports word (Parser.use word line stepTime) := by
  intro endLine ts r hr
  cases hr
  exact ⟨_, List.mem_cons_self, rfl⟩

theorem failAt (line : UInt32) (fault : CompileFault) : Reports word (failAt line fault : Parser α) :=
  fun _ _ _ hr => nomatch hr

/-- A branch reports what both of its sides report. -/
theorem ite {c : Prop} [Decidable c] (h : p.Reports word) (h' : q.Reports word) :
    Reports word (if c then p else q) := by
  split
  · exact h
  · exact h'

/-- What was reported at the start of a parser is reported by all of it. -/
theorem bind (hp : p.Reports word) (f : α → Parser β) : (p >>= f).Reports word := by
  intro endLine ts r hr
  obtain ⟨a, b, ha, hb, rfl⟩ := Parser.bind_eq_ok_iff.1 hr
  obtain ⟨u, hu, hkey⟩ := hp endLine ts a ha
  exact ⟨u, List.mem_append_left _ hu, hkey⟩

theorem map {g : α → β} (hp : p.Reports word) : (g <$> p).Reports word := hp.bind _

/-- What was reported at the end of a parser is reported by all of it. -/
theorem next (p : Parser α) (hf : ∀ a, (f a).Reports word) : (p >>= f).Reports word := by
  intro endLine ts r hr
  obtain ⟨a, b, ha, hb, rfl⟩ := Parser.bind_eq_ok_iff.1 hr
  obtain ⟨u, hu, hkey⟩ := hf a.value endLine a.rest b hb
  exact ⟨u, List.mem_append_right _ hu, hkey⟩

end Parser.Reports

/-- A variable is seen, and no token is taken. -/
theorem SpendsAt.use (word : String) (line : UInt32) (stepTime : Bool) :
    SpendsAt A 0 (Parser.use word line stepTime) ts := by
  intro endLine r hr
  cases hr
  exact .nil _ _

/-- The name of a variable is dropped that is reported afterwards. -/
theorem SpendsAt.dropName {word : String} {l : UInt32} {f : Unit → Parser β} (hfree : isTaken word = false)
    (h : SpendsAt A m (f ()) ts) (hreports : (f ()).Reports word) :
    SpendsAt A (m + 1) (Parser.skip >>= f) (⟨.ident word, l⟩ :: ts) := by
  intro endLine r hr
  obtain ⟨a, b, ha, hb, rfl⟩ := Parser.bind_eq_ok_iff.1 hr
  cases ha
  obtain ⟨u, hu, hkey⟩ := hreports _ _ _ hb
  exact (h endLine b hb).cons (.inr ⟨u, hu, word, rfl, hkey, hfree⟩)

/-- A symbol that may be missing takes nothing for sure. -/
theorem spends_symbol {s : Symbol} (hs : A (.symbol s)) {p : Parser Unit} (h : SpendsAt A 0 p ts) :
    SpendsAt A 0 (if atSymbol s ts then skip else p) ts := by
  refine .ite (fun hat => ?_) fun _ => h
  obtain ⟨l, rest, rfl⟩ := eq_cons_of_atSymbol hat
  exact (SpendsAt.skip hs).least (Nat.zero_le 1)

/-- An expected symbol takes one token. -/
theorem spends_expectSymbol {s : Symbol} (hs : A (.symbol s)) : (expectSymbol s).Spends A 1 := by
  intro ts
  refine .look (.ite (fun hat => ?_) fun _ => .fail _)
  obtain ⟨l, rest, rfl⟩ := eq_cons_of_atSymbol hat
  exact .skip hs

/-- An expected keyword takes one token. -/
theorem spends_takeKeyword {keyword : String} (h : ∀ w, Text.upper w = keyword → A (.ident w)) :
    (takeKeyword keyword).Spends A 1 := by
  intro ts
  refine .look (.ite (fun hat => ?_) fun _ => .fail _)
  obtain ⟨w, l, rest, rfl, hw⟩ := eq_cons_of_atKeyword hat
  exact .skip (h w hw)

theorem spends_optionalSemicolon (h : A (.symbol .semi)) : optionalSemicolon.Spends A 0 :=
  fun _ => .look (spends_symbol h (.pure ()))

/-- If an expected symbol is found, it was the first token. -/
theorem expectSymbol_eq_ok {s : Symbol} {endLine : UInt32} {r : Parsed Unit} (h : expectSymbol s endLine ts = .ok r) :
    ∃ l, ts = ⟨.symbol s, l⟩ :: r.rest := by
  obtain ⟨a, b, ha, hb, rfl⟩ := Parser.bind_eq_ok_iff.1 h
  cases ha
  by_cases hat : atSymbol s ts = true
  · obtain ⟨l, rest, rfl⟩ := eq_cons_of_atSymbol hat
    rw [if_pos hat] at hb
    cases hb
    exact ⟨l, rfl⟩
  · rw [if_neg hat] at hb
    cases hb

/-- If an expected keyword is found, the first token spells it. -/
theorem takeKeyword_eq_ok {keyword : String} {endLine : UInt32} {r : Parsed Unit}
    (h : takeKeyword keyword endLine ts = .ok r) :
    ∃ w l, ts = ⟨.ident w, l⟩ :: r.rest ∧ Text.upper w = keyword := by
  obtain ⟨a, b, ha, hb, rfl⟩ := Parser.bind_eq_ok_iff.1 h
  cases ha
  by_cases hat : atKeyword keyword ts = true
  · obtain ⟨w, l, rest, rfl, hw⟩ := eq_cons_of_atKeyword hat
    rw [if_pos hat] at hb
    cases hb
    exact ⟨w, l, rfl, hw⟩
  · rw [if_neg hat] at hb
    cases hb

/-- What is left behind a semicolon that may be missing. -/
def afterSemicolon (ts : List Token) : List Token := if atSymbol .semi ts then ts.tail else ts

/-- A semicolon that may be missing leaves what stands behind it. -/
theorem optionalSemicolon_eq_ok {endLine : UInt32} {r : Parsed Unit} (h : optionalSemicolon endLine ts = .ok r) :
    r.rest = afterSemicolon ts := by
  obtain ⟨a, b, ha, hb, rfl⟩ := Parser.bind_eq_ok_iff.1 h
  cases ha
  unfold afterSemicolon
  by_cases hat : atSymbol .semi ts = true
  · rw [if_pos hat] at hb ⊢
    cases hb
    rfl
  · rw [if_neg hat] at hb ⊢
    cases hb
    rfl

section Expressions

variable {arg nested : Parser Expr} {operator : OperatorAt}

/-- The operators of a level are words or marks of the language. -/
def OperatorAt.Admitted (A : TokenContent → Prop) (operator : OperatorAt) : Prop :=
  ∀ t ts op, operator (t :: ts) = some op → A t.content

/-- A chain takes its operators and operands. -/
theorem taken_chainFrom {operand : Parser Expr} (hoperator : operator.Admitted A) (hoperand : operand.Spends A 1)
    {endLine : UInt32} {lhs : Expr} {uses : List Use} {r : Parsed Expr}
    (h : chainFrom operator operand endLine lhs uses ts = .ok r) :
    ∃ new, r.uses = uses ++ new ∧ Taken A 0 new ts r.rest := by
  fun_induction chainFrom operator operand endLine lhs uses ts with
  | case1 | case2 =>
    cases h
    exact ⟨[], (List.append_nil _).symm, .nil _ _⟩
  | case3 => cases h
  | case4 => cases h
  | case5 lhs uses t ts op hop rhs hrhs tree htree hle ih =>
    obtain ⟨new, hnew, htaken⟩ := ih h
    have hfirst : Taken A 1 rhs.uses (t :: ts) rhs.rest :=
      ((hoperand ts endLine rhs hrhs).cons (.inl (hoperator t ts op hop))).least (by omega)
    exact ⟨rhs.uses ++ new, by rw [hnew, List.append_assoc], (hfirst.append htaken).least (by omega)⟩
  | case6 lhs uses t ts op hop rhs hrhs tree htree hle =>
    -- an operand leaves no more than there was
    have hlength := (hoperand ts endLine rhs hrhs).length
    omega

theorem spends_chain {operand : Parser Expr} (hoperator : operator.Admitted A) (hoperand : operand.Spends A 1) :
    (chain operator operand).Spends A 1 := by
  intro ts endLine r hr
  rw [chain] at hr
  cases hlhs : operand endLine ts with
  | error e => rw [hlhs] at hr; cases hr
  | ok lhs =>
    rw [hlhs] at hr
    obtain ⟨new, hnew, htaken⟩ := taken_chainFrom hoperator hoperand hr
    rw [hnew]
    exact (hoperand ts endLine lhs hlhs).append htaken

/-- An operator that is a word of expressions is admitted. -/
theorem admitted_keyword {keyword : String} {op : BinaryOp} (hA : ExpressionTokens A)
    (hkeyword : keyword ∈ expressionWords) :
    OperatorAt.Admitted A fun ts => if atKeyword keyword ts then some op else none := by
  intro t ts op' hop
  simp only [] at hop
  split at hop
  · rename_i hat
    obtain ⟨w, l, rest, hts, hw⟩ := eq_cons_of_atKeyword hat
    cases hts
    exact hA.word (hw ▸ hkeyword)
  · cases hop

/-- The operators `=` and `<>` are admitted. -/
theorem admitted_equalityAt (hA : ExpressionTokens A) : OperatorAt.Admitted A equalityAt := by
  rintro ⟨content, line⟩ ts op hop
  unfold equalityAt Parser.peek at hop
  split at hop <;> cases hop
  all_goals
    rename_i hfront
    cases hfront
    exact hA.symbol (by decide)

/-- The operators that compare by order are admitted. -/
theorem admitted_relationalAt (hA : ExpressionTokens A) : OperatorAt.Admitted A relationalAt := by
  rintro ⟨content, line⟩ ts op hop
  unfold relationalAt Parser.peek at hop
  split at hop <;> cases hop
  all_goals
    rename_i hfront
    cases hfront
    exact hA.symbol (by decide)

/-- The operators `+` and `-` are admitted. -/
theorem admitted_additiveAt (hA : ExpressionTokens A) : OperatorAt.Admitted A additiveAt := by
  rintro ⟨content, line⟩ ts op hop
  unfold additiveAt Parser.peek at hop
  split at hop <;> cases hop
  all_goals
    rename_i hfront
    cases hfront
    exact hA.symbol (by decide)

/-- The operators `*`, `/` and `MOD` are admitted. -/
theorem admitted_multiplicativeAt (hA : ExpressionTokens A) : OperatorAt.Admitted A multiplicativeAt := by
  rintro ⟨content, line⟩ ts op hop
  unfold multiplicativeAt Parser.peek at hop
  split at hop
  case h_1 hfront | h_2 hfront =>
    cases hop
    cases hfront
    exact hA.symbol (by decide)
  case h_3 =>
    split at hop
    · rename_i hmod
      obtain ⟨w, l, rest, hts, hw⟩ := eq_cons_of_atKeyword (Bool.and_eq_true_iff.1 hmod).1
      cases hts
      exact hA.word (hw ▸ by decide)
    · cases hop

/-- All levels of operators take an operand at least, as each of them is a chain over the next. -/
theorem spends_operators {operand : Parser Expr} (hA : ExpressionTokens A) (h : operand.Spends A 1) :
    (operators operand).Spends A 1 :=
  spends_chain (admitted_keyword hA (by decide)) <| spends_chain (admitted_keyword hA (by decide)) <|
    spends_chain (admitted_equalityAt hA) <| spends_chain (admitted_relationalAt hA) <|
      spends_chain (admitted_additiveAt hA) <| spends_chain (admitted_multiplicativeAt hA) h

/-- Arguments take their commas and the closing parenthesis. -/
theorem taken_argumentsFrom (hA : ExpressionTokens A) (harg : arg.Spends A 1) {endLine : UInt32} {args : List Expr}
    {uses : List Use} {r : Parsed (List Expr)} (h : argumentsFrom arg endLine args uses ts = .ok r) :
    ∃ new, r.uses = uses ++ new ∧ Taken A 1 new ts r.rest := by
  fun_induction argumentsFrom arg endLine args uses ts with
  | case1 => cases h
  | case2 args uses ts a ha line rest hrest hlt ih =>
    obtain ⟨new, hnew, htaken⟩ := ih h
    have hfirst := harg ts endLine a ha
    have hcomma : Taken A 2 new a.rest r.rest := hrest ▸ htaken.cons (.inl (hA.symbol (by decide)))
    exact ⟨a.uses ++ new, by rw [hnew, List.append_assoc], (hfirst.append hcomma).least (by omega)⟩
  | case3 args uses ts a ha line rest hrest hlt =>
    have hlength := (harg ts endLine a ha).length
    rw [hrest, List.length_cons] at hlength
    omega
  | case4 args uses ts a ha line rest hrest =>
    cases h
    have hclosing : Taken A 1 [] a.rest rest := hrest ▸ .cons (.inl (hA.symbol (by decide))) (.nil _ _)
    refine ⟨a.uses, rfl, ?_⟩
    have htaken := ((harg ts endLine a ha).append hclosing).least (n := 1) (by omega)
    rwa [List.append_nil] at htaken
  | case5 => cases h

/-- A list of arguments takes its parentheses at least. -/
theorem spends_arguments (hA : ExpressionTokens A) (harg : arg.Spends A 1) : (arguments arg).Spends A 1 := by
  intro ts
  refine ((spends_expectSymbol (hA.symbol (by decide)) ts).bind (n := 0) fun _ mid => .look (.ite (fun hat => ?_)
    fun _ endLine r hr => ?_)).least (Nat.le_refl 1)
  · obtain ⟨l, rest, rfl⟩ := eq_cons_of_atSymbol hat
    exact (SpendsAt.drop (hA.symbol (by decide)) (.pure [])).least (Nat.zero_le _)
  · obtain ⟨new, hnew, htaken⟩ := taken_argumentsFrom hA harg hr
    rw [hnew, List.nil_append]
    exact htaken.least (Nat.zero_le 1)

/-- A call of a function of the device, whose first word has been looked at. -/
theorem spendsAt_deviceOp (hA : ExpressionTokens A) (harg : arg.Spends A 1) (ht : A t.content) :
    SpendsAt A 1 (deviceOp arg) (t :: ts) := by
  intro endLine r hr
  obtain ⟨a, b, ha, hb, rfl⟩ := Parser.bind_eq_ok_iff.1 hr
  cases ha
  revert hb
  refine SpendsAt.drop (m := 0) ht ?_ endLine b
  refine ((spends_expectSymbol (hA.symbol (by decide)) ts).bind (n := 0) fun _ mid => .look ?_).least (Nat.zero_le 1)
  split
  · rename_i name hname
    obtain ⟨l, rest, rfl⟩ := eq_cons_of_peek hname
    cases hfunc : DeviceOp.ofName? name with
    | none =>
      intro endLine r hr
      cases hr
    | some func =>
      refine (SpendsAt.drop (m := 0) (hA.word (mem_of_deviceOp hfunc)) ?_).least (Nat.zero_le 1)
      refine ((spends_arguments hA harg rest).bind (n := 0) fun args _ => ?_).least (Nat.zero_le 1)
      exact .ite (fun _ => .pure _) fun _ => .failAt _ _
  · exact .failAt _ _

/-- A call of a built-in function takes the word of the function and its arguments. -/
theorem spendsAt_builtinCall (hA : ExpressionTokens A) (harg : arg.Spends A 1) (word : String) (line l : UInt32) :
    SpendsAt A 1 (builtinCall arg word line) (⟨.ident word, l⟩ :: ts) := by
  unfold builtinCall
  cases hfunc : Builtin.ofName? word with
  | none => exact .failAt _ _
  | some func =>
    refine SpendsAt.drop (m := 0) (hA.word (mem_of_builtin hfunc)) ?_
    refine ((spends_arguments hA harg ts).bind (n := 0) fun args _ => ?_).least (Nat.zero_le 1)
    exact .ite (fun _ => .pure _) fun _ => .failAt _ _

/-- A variable is reported with its name. -/
theorem spendsAt_variableExpr (hA : ExpressionTokens A) {word : String} (hfree : isTaken word = false)
    (line l : UInt32) : SpendsAt A 1 (variableExpr word line) (⟨.ident word, l⟩ :: ts) := by
  refine .dropName hfree (.look (.ite (fun hdot => ?_) fun _ => ?_)) (.next _ fun _ => .ite ?_ ?_)
  · obtain ⟨l', rest, rfl⟩ := eq_cons_of_atSymbol hdot
    refine (SpendsAt.drop (m := 0) (hA.symbol (by decide)) (.look ?_)).least (Nat.zero_le 1)
    split
    · rename_i member hmember
      obtain ⟨l'', left, rfl⟩ := eq_cons_of_peek hmember
      by_cases hstep : spells "STEPTIME" member = true
      · rw [if_pos hstep]
        have hadmitted : A (.ident member) := hA.word (upper_of_spells hstep ▸ by decide)
        exact (SpendsAt.drop (m := 0) hadmitted (.map (.use _ _ _))).least (Nat.zero_le 1)
      · rw [if_neg hstep]
        exact fun _ _ hr => nomatch hr
    · exact .failAt _ _
  · exact .map (.use _ _ _)
  · refine .next _ fun _ => .next _ fun ts => ?_
    split
    · exact .next _ fun _ => .ite (.map (.use _ _ _)) (.failAt _ _)
    · exact .failAt _ _
  · exact .map (.use _ _ _)

/-- An expression that starts with a word takes that word, be it a call, a constant or a variable. -/
theorem spendsAt_wordExpr (hA : ExpressionTokens A) (hnested : nested.Spends A 1) (word : String) (line l : UInt32) :
    SpendsAt A 1 (wordExpr nested word line ts) (⟨.ident word, l⟩ :: ts) := by
  have hword {keyword : String} (h : spells keyword word = true) (hmem : keyword ∈ expressionWords) :
      A (.ident word) := hA.word (upper_of_spells h ▸ hmem)
  refine .ite (fun htrue => .drop (hword htrue (by decide)) (.pure _)) fun _ =>
    .ite (fun hfalse => .drop (hword hfalse (by decide)) (.pure _)) fun _ => .ite (fun hdevice => ?_) fun _ =>
      .ite (fun _ => spendsAt_builtinCall hA hnested word line l) fun _ => .ite (fun _ => .failAt _ _) fun hfree =>
        spendsAt_variableExpr hA (Bool.eq_false_iff.2 hfree) line l
  exact (spendsAt_deviceOp hA hnested (hword hdevice (by decide))).bind (n := 0) fun call mid =>
    .ite (fun _ => .pure _) fun _ => .failAt _ _

/-- A literal, a name, a call or an expression in parentheses takes a token. -/
theorem spends_primary (hA : ExpressionTokens A) (hnested : nested.Spends A 1) : (primary nested).Spends A 1 := by
  intro ts
  refine .look ?_
  split
  · exact .fail _
  · exact .drop (hA.int _) (.pure _)
  · exact .drop (hA.real _) (.pure _)
  · exact .drop (hA.text _) (.pure _)
  · refine SpendsAt.drop (m := 0) (hA.symbol (by decide)) ?_
    refine ((hnested _).bind (n := 0) fun inner mid => ?_).least (Nat.zero_le 1)
    exact ((spends_expectSymbol (hA.symbol (by decide)) mid).bind (n := 0) fun _ _ => .pure _).least (Nat.zero_le 1)
  · exact spendsAt_wordExpr hA hnested _ _ _
  · exact .fail _

/-- The marks of unary operators are admitted. -/
theorem unaryAt_admitted (hA : ExpressionTokens A) {op : UnaryOp} (h : unaryAt ts = some op) :
    ∃ t rest, ts = t :: rest ∧ A t.content := by
  unfold unaryAt at h
  split at h
  · rename_i hminus
    obtain ⟨l, rest, rfl⟩ := eq_cons_of_atSymbol hminus
    exact ⟨_, rest, rfl, hA.symbol (by decide)⟩
  · split at h
    · rename_i hnot
      obtain ⟨w, l, rest, rfl, hw⟩ := eq_cons_of_atKeyword hnot
      exact ⟨_, rest, rfl, hA.word (hw ▸ by decide)⟩
    · cases h

theorem spends_operand (hA : ExpressionTokens A) {inner : Parser Expr} (hinner : inner.Spends A 1)
    (hnested : nested.Spends A 1) : (operand inner nested).Spends A 1 := by
  intro ts
  refine .look ?_
  split
  · rename_i op hop
    obtain ⟨t, rest, rfl, ht⟩ := unaryAt_admitted hA hop
    exact .drop ht ((hinner rest).map.least (Nat.zero_le 1))
  · exact spends_primary hA hnested ts

theorem spends_tooDeep : (tooDeep : Parser α).Spends A m := fun _ => .fail _

/-- An operand takes a token, however many levels of nesting are left. -/
theorem spends_unary (hA : ExpressionTokens A) (levels : ℕ) : (unary levels).Spends A 1 := by
  induction levels with
  | zero => exact spends_operand hA spends_tooDeep spends_tooDeep
  | succ levels ih => exact spends_operand hA ih (spends_operators hA ih)

/-- **Expressions** take words and marks of expressions and the names of variables. -/
theorem spends_expr (hA : ExpressionTokens A) (levels : ℕ) : (expr levels).Spends A 1 := by
  cases levels with
  | zero => exact spends_tooDeep
  | succ levels => exact spends_operators hA (spends_unary hA levels)

end Expressions

section Statements

variable {stmt : Parser (Option Stmt)} {cond value : Parser Expr}

/-- A word of blocks takes one token. -/
theorem spends_keyword (hA : StatementTokens A) {keyword : String} (hkeyword : keyword ∈ blockWords) :
    (takeKeyword keyword).Spends A 1 := spends_takeKeyword fun _ hw => hA.blockWord (hw ▸ hkeyword)

/-- A block that has been read is followed by one of its terminators. -/
theorem stops_blockFrom {terminators : List String} {endLine : UInt32} {stmts body : List Stmt} {uses new : List Use}
    {rest : List Token} (h : blockFrom stmt terminators endLine stmts uses ts = .ok ⟨some body, new, rest⟩) :
    terminators.any (atKeyword · rest) = true := by
  fun_induction blockFrom stmt terminators endLine stmts uses ts with
  | case1 | case3 | case4 | case6 => cases h
  | case2 stmts uses t ts hend =>
    cases h
    exact hend
  | case5 stmts uses t ts _ _ s hs hle ih => exact ih h

/-- A block that ends was read by its loop, and the loop has found the end. -/
theorem block_eq_ok {terminators : List String} {line endLine : UInt32} {unterminated : CompileFault}
    {r : Parsed (List Stmt)} (h : block stmt terminators line unterminated endLine ts = .ok r) :
    blockFrom stmt terminators endLine [] [] ts = .ok ⟨some r.value, r.uses, r.rest⟩ := by
  obtain ⟨a, b, ha, hb, rfl⟩ := Parser.bind_eq_ok_iff.1 h
  cases hvalue : a.value with
  | none =>
    rw [hvalue] at hb
    cases hb
  | some stmts =>
    rw [hvalue] at hb
    cases hb
    rw [List.append_nil, ← hvalue]
    exact ha

/-- A block takes its statements. -/
theorem taken_blockFrom (hstmt : ∀ t ts, SpendsAt A 1 stmt (t :: ts)) {terminators : List String} {endLine : UInt32}
    {stmts : List Stmt} {uses : List Use} {r : Parsed (Option (List Stmt))}
    (h : blockFrom stmt terminators endLine stmts uses ts = .ok r) :
    ∃ new, r.uses = uses ++ new ∧ Taken A 0 new ts r.rest := by
  fun_induction blockFrom stmt terminators endLine stmts uses ts with
  | case1 | case2 =>
    cases h
    exact ⟨[], (List.append_nil _).symm, .nil _ _⟩
  | case3 => cases h
  | case4 => cases h
  | case5 stmts uses t ts _ _ s hs hle ih =>
    obtain ⟨new, hnew, htaken⟩ := ih h
    exact ⟨s.uses ++ new, by rw [hnew, List.append_assoc],
      ((hstmt t ts endLine s hs).append htaken).least (Nat.zero_le _)⟩
  | case6 stmts uses t ts _ _ s hs hle =>
    have hlength := (hstmt t ts endLine s hs).length
    rw [List.length_cons] at hlength
    omega

/-- A block takes its statements, and there may be none. -/
theorem spends_block (hstmt : ∀ t ts, SpendsAt A 1 stmt (t :: ts)) (terminators : List String) (line : UInt32)
    (unterminated : CompileFault) : (block stmt terminators line unterminated).Spends A 0 := by
  intro ts
  refine SpendsAt.bind (m := 0) (n := 0) (fun endLine r hr => ?_) fun stmts rest => ?_
  · obtain ⟨new, hnew, htaken⟩ := taken_blockFrom hstmt hr
    rw [hnew, List.nil_append]
    exact htaken
  · cases stmts with
    | none => exact .failAt _ _
    | some stmts => exact .pure _

/-- An alternative ends in front of the next one or of the end of the conditional. -/
theorem stops_arm {line endLine : UInt32} {r : Parsed (Expr × List Stmt)} (h : arm stmt cond line endLine ts = .ok r) :
    ["ELSIF", "ELSE", "END_IF"].any (atKeyword · r.rest) = true := by
  obtain ⟨c, b, hc, hb, rfl⟩ := Parser.bind_eq_ok_iff.1 h
  obtain ⟨_, b', hthen, hb', rfl⟩ := Parser.bind_eq_ok_iff.1 hb
  obtain ⟨body, b'', hbody, hb'', rfl⟩ := Parser.bind_eq_ok_iff.1 hb'
  cases hb''
  exact stops_blockFrom (block_eq_ok hbody)

/-- An alternative takes the word between its condition and its block. -/
theorem spends_arm (hA : StatementTokens A) (hstmt : ∀ t ts, SpendsAt A 1 stmt (t :: ts)) (hcond : cond.Spends A 1)
    (line : UInt32) : (arm stmt cond line).Spends A 1 := by
  intro ts
  refine (hcond ts).bind (n := 0) fun c rest => SpendsAt.least (m := 1) ?_ (Nat.zero_le 1)
  refine (spends_keyword hA (by decide) rest).bind (n := 0) fun _ mid => ?_
  exact (spends_block hstmt _ _ _ mid).bind (n := 0) fun body _ => .pure _

/-- The alternatives after the first one take their words, conditions and blocks. -/
theorem taken_armsFrom (hA : StatementTokens A) (hstmt : ∀ t ts, SpendsAt A 1 stmt (t :: ts))
    (hcond : cond.Spends A 1) {line endLine : UInt32} {arms : List (Expr × List Stmt)} {uses : List Use}
    {r : Parsed Arms} (h : armsFrom stmt cond line endLine arms uses ts = .ok r) :
    ∃ new, r.uses = uses ++ new ∧ Taken A 0 new ts r.rest := by
  have hword {keyword : String} {t : Token} {ts : List Token} (hat : atKeyword keyword (t :: ts) = true)
      (hmem : keyword ∈ blockWords) : A t.content := by
    obtain ⟨w, l, rest, hts, hw⟩ := eq_cons_of_atKeyword hat
    cases hts
    exact hA.blockWord (hw ▸ hmem)
  fun_induction armsFrom stmt cond line endLine arms uses ts with
  | case1 => cases h
  | case2 => cases h
  | case3 arms uses t ts hat a ha hle ih =>
    obtain ⟨new, hnew, htaken⟩ := ih h
    have hfirst := (spends_arm hA hstmt hcond line ts endLine a ha).cons (.inl (hword hat (by decide)))
    exact ⟨a.uses ++ new, by rw [hnew, List.append_assoc], (hfirst.append htaken).least (Nat.zero_le _)⟩
  | case4 => cases h
  | case5 => cases h
  | case6 arms uses t ts _ hat body hbody =>
    cases h
    have hlast := (spends_block hstmt _ _ _ ts endLine body hbody).cons (.inl (hword hat (by decide)))
    exact ⟨body.uses, rfl, hlast.least (Nat.zero_le _)⟩
  | case7 arms uses t ts _ _ =>
    cases h
    exact ⟨[], (List.append_nil _).symm, .nil _ _⟩

/-- A conditional takes its words, and the semicolon behind it if there is one. -/
theorem spends_conditional (hA : StatementTokens A) (hstmt : ∀ t ts, SpendsAt A 1 stmt (t :: ts))
    (hcond : cond.Spends A 1) (line : UInt32) : (conditional stmt cond line).Spends A 1 := by
  intro ts
  refine (spends_keyword hA (by decide) ts).bind (n := 0) fun _ mid => SpendsAt.least (m := 1) ?_ (Nat.zero_le 1)
  refine (spends_arm hA hstmt hcond line mid).bind (n := 0) fun first rest => ?_
  refine SpendsAt.bind (m := 0) (n := 0) (fun endLine r hr => ?_) fun arms left =>
    SpendsAt.least (m := 1) ?_ (Nat.zero_le 1)
  · obtain ⟨new, hnew, htaken⟩ := taken_armsFrom hA hstmt hcond hr
    rw [hnew, List.nil_append]
    exact htaken
  · refine (spends_keyword hA (by decide) left).bind (n := 0) fun _ ending => ?_
    exact (spends_optionalSemicolon hA.semi ending).bind (n := 0) fun _ _ => .pure _

/-- A loop takes its words, and the semicolon behind it if there is one. -/
theorem spends_repetition (hA : StatementTokens A) (hstmt : ∀ t ts, SpendsAt A 1 stmt (t :: ts))
    (hcond : cond.Spends A 1) (line : UInt32) : (repetition stmt cond line).Spends A 1 := by
  intro ts
  refine (spends_keyword hA (by decide) ts).bind (n := 0) fun _ mid => SpendsAt.least (m := 1) ?_ (Nat.zero_le 1)
  refine (hcond mid).bind (n := 0) fun c rest => SpendsAt.least (m := 1) ?_ (Nat.zero_le 1)
  refine (spends_keyword hA (by decide) rest).bind (n := 0) fun _ left => ?_
  refine (spends_block hstmt _ _ _ left).bind (n := 0) fun body after => SpendsAt.least (m := 1) ?_ (Nat.zero_le 1)
  refine (spends_keyword hA (by decide) after).bind (n := 0) fun _ ending => ?_
  exact (spends_optionalSemicolon hA.semi ending).bind (n := 0) fun _ _ => .pure _

/-- An assignment takes its variable, which is accounted for because it is reported as used. -/
theorem spendsAt_assignment (hA : StatementTokens A) (hvalue : value.Spends A 1) {word : String}
    (hfree : isTaken word = false) (line l : UInt32) :
    SpendsAt A 1 (assignment value word line) (⟨.ident word, l⟩ :: ts) := by
  refine .dropName hfree (.look (.ite (fun hassign => ?_) fun _ => .failAt _ _))
    (.next _ fun _ => .ite ?_ (.failAt _ _))
  · obtain ⟨l', rest, rfl⟩ := eq_cons_of_atSymbol hassign
    refine (SpendsAt.drop (m := 0) (hA.symbol (by decide)) ?_).least (Nat.zero_le 1)
    refine (SpendsAt.use _ _ _).bind (n := 0) fun target mid => SpendsAt.least (m := 1) ?_ (Nat.zero_le 1)
    refine (hvalue mid).bind (n := 0) fun v left => SpendsAt.least (m := 1) ?_ (Nat.zero_le 1)
    exact (spends_expectSymbol hA.semi left).bind (n := 0) fun _ _ => .pure _
  · exact .next _ fun _ => .bind (.use _ _ _) _

/-- Any statement takes its first token. An empty statement is a semicolon. -/
theorem spendsAt_statementOf (hA : StatementTokens A) {ifs whiles : UInt32 → Parser Stmt}
    (hifs : ∀ line, (ifs line).Spends A 1) (hwhiles : ∀ line, (whiles line).Spends A 1) (hvalue : value.Spends A 1)
    (t : Token) (ts : List Token) : SpendsAt A 1 (statementOf ifs whiles value) (t :: ts) := by
  refine .look ?_
  split
  · rename_i hnil
    cases hnil
  · rename_i l rest hsemi
    cases hsemi
    exact .drop hA.semi (.pure _)
  · rename_i word l rest hword
    cases hword
    refine .ite (fun _ => (hifs l _).map) fun _ => .ite (fun _ => (hwhiles l _).map) fun _ =>
      .ite (fun hdevice => ?_) fun _ => .ite (fun _ => .failAt _ _) fun hfree =>
        (spendsAt_assignment hA hvalue (Bool.eq_false_iff.2 hfree) l l).map
    have hadmitted : A (.ident word) := hA.word (upper_of_spells hdevice ▸ by decide)
    refine (spendsAt_deviceOp hA.toExpressionTokens hvalue hadmitted).bind (n := 0) fun call mid => ?_
    exact ((spends_expectSymbol hA.semi mid).bind (n := 0) fun _ _ => .pure _).least (Nat.zero_le 1)
  · exact .fail _

/-- **Statements** take at least one token, if there is one. -/
theorem spendsAt_statement (hA : StatementTokens A) (levels : ℕ) (t : Token) (ts : List Token) :
    SpendsAt A 1 (statement levels) (t :: ts) := by
  have hexpr := spends_expr hA.toExpressionTokens
  induction levels generalizing t ts with
  | zero => exact spendsAt_statementOf hA (fun _ => spends_tooDeep) (fun _ => spends_tooDeep) (hexpr 0) t ts
  | succ levels ih =>
    exact spendsAt_statementOf hA (spends_conditional hA ih (hexpr levels)) (spends_repetition hA ih (hexpr levels))
      (hexpr (levels + 1)) t ts

end Statements

/-- What is admitted, and the names of some declarations. -/
def NameOrAdmitted (A : TokenContent → Prop) (vars : List Declaration) (c : TokenContent) : Prop :=
  A c ∨ ∃ d ∈ vars, ∃ w, c = .ident w ∧ d.key = Text.upper w

theorem Taken.weaken {B : TokenContent → Prop} {uses : List Use} {rest : List Token} (h : Taken A m uses ts rest)
    (hAB : ∀ c, A c → B c) : Taken B m uses ts rest := by
  obtain ⟨used, hts, hleast, hall⟩ := h
  exact ⟨used, hts, hleast, fun t ht => (hall t ht).imp_left (hAB _)⟩

/-- A name that is declared stays so when more is declared. -/
theorem NameOrAdmitted.mono {vars more : List Declaration} (hsub : vars ⊆ more) (c : TokenContent)
    (h : NameOrAdmitted A vars c) : NameOrAdmitted A more c :=
  h.imp_right fun ⟨d, hd, hname⟩ => ⟨d, hsub hd, hname⟩

/-- The word of an entry is the first token, and reports no variable. -/
theorem entryWord_eq_ok {line endLine : UInt32} {r : Parsed String} (h : entryWord line endLine ts = .ok r) :
    ∃ l, ts = ⟨.ident r.value, l⟩ :: r.rest ∧ r.uses = [] := by
  obtain ⟨a, b, ha, hb, rfl⟩ := Parser.bind_eq_ok_iff.1 h
  cases ha
  cases ts with
  | nil => cases hb
  | cons t rest =>
    obtain ⟨content, l⟩ := t
    cases content with
    | ident word =>
      cases hb
      exact ⟨l, rfl, rfl⟩
    | int | real | text | symbol => cases hb

/-- An initializer may be missing. -/
theorem spends_initializer (hA : ExpressionTokens A) : initializer.Spends A 0 := by
  intro ts
  refine .look (.ite (fun hassign => ?_) fun _ => .pure _)
  obtain ⟨l, rest, rfl⟩ := eq_cons_of_atSymbol hassign
  exact (SpendsAt.drop (hA.symbol (by decide)) (spends_expr hA nestingLimit rest).map).least (Nat.zero_le _)

theorem entrySymbol_eq_ok {line endLine : UInt32} {s : Symbol} {r : Parsed Unit}
    (h : entrySymbol line s endLine ts = .ok r) : ∃ l, ts = ⟨.symbol s, l⟩ :: r.rest ∧ r.uses = [] := by
  obtain ⟨a, b, ha, hb, rfl⟩ := Parser.bind_eq_ok_iff.1 h
  cases ha
  by_cases hat : atSymbol s ts = true
  · obtain ⟨l, rest, rfl⟩ := eq_cons_of_atSymbol hat
    rw [if_pos hat] at hb
    cases hb
    exact ⟨l, rfl, rfl⟩
  · rw [if_neg hat] at hb
    cases hb

/-- **What a declaration is made of**: its name, a type, an initializer if there is one, and the marks between them. -/
theorem varEntry_eq_ok {line endLine : UInt32} {r : Parsed Declaration} (h : varEntry line endLine ts = .ok r) :
    ∃ name l colon typeName l' mid init semi,
      ts = ⟨.ident name, l⟩ :: ⟨.symbol .colon, colon⟩ :: ⟨.ident typeName, l'⟩ :: mid ∧ isTaken name = false ∧
        Text.upper typeName ∈ typeWords ∧ initializer endLine mid = .ok init ∧
        init.rest = ⟨.symbol .semi, semi⟩ :: r.rest ∧ r.uses = init.uses ∧ r.value.key = Text.upper name := by
  obtain ⟨name, b, hname, hb, rfl⟩ := Parser.bind_eq_ok_iff.1 h
  obtain ⟨l, rfl, hnone⟩ := entryWord_eq_ok hname
  by_cases htaken : isTaken name.value = true
  · rw [if_pos htaken] at hb
    cases hb
  rw [if_neg htaken] at hb
  obtain ⟨colon, b', hcolon, hb', rfl⟩ := Parser.bind_eq_ok_iff.1 hb
  obtain ⟨lcolon, hmid, hnocolon⟩ := entrySymbol_eq_ok hcolon
  obtain ⟨typeName, d, htype, hd, rfl⟩ := Parser.bind_eq_ok_iff.1 hb'
  obtain ⟨l', htail, hnotype⟩ := entryWord_eq_ok htype
  cases hof : TypeName.ofName? typeName.value with
  | none =>
    rw [hof] at hd
    cases hd
  | some type =>
    rw [hof] at hd
    obtain ⟨init, d', hinit, hd', rfl⟩ := Parser.bind_eq_ok_iff.1 hd
    obtain ⟨semi, d'', hsemi, hd'', rfl⟩ := Parser.bind_eq_ok_iff.1 hd'
    cases hd''
    obtain ⟨lsemi, hend, hnosemi⟩ := entrySymbol_eq_ok hsemi
    refine ⟨name.value, l, lcolon, typeName.value, l', typeName.rest, init, lsemi, ?_, Bool.eq_false_iff.2 htaken,
      mem_of_typeName hof, hinit, hend, ?_, rfl⟩
    · rw [hmid, htail]
    · simp only [hnone, hnocolon, hnotype, hnosemi, List.nil_append, List.append_nil]

/-- A declaration takes its name, and what is admitted. -/
theorem taken_varEntry (hA : ProgramTokens A) {line endLine : UInt32} {r : Parsed Declaration}
    (h : varEntry line endLine ts = .ok r) : Taken (NameOrAdmitted A [r.value]) 1 r.uses ts r.rest := by
  obtain ⟨name, l, colon, typeName, l', mid, init, semi, rfl, -, htype, hinit, hend, huses, hkey⟩ := varEntry_eq_ok h
  have hinner := spends_initializer hA.toExpressionTokens mid endLine init hinit
  have hclosing : Taken A 1 [] init.rest r.rest := hend ▸ .cons (.inl hA.semi) (.nil _ _)
  have hlater := ((hinner.append hclosing).weaken fun c hc => Or.inl hc : Taken (NameOrAdmitted A [r.value]) _ _ _ _)
  rw [List.append_nil, ← huses] at hlater
  have hname : NameOrAdmitted A [r.value] (.ident name) := .inr ⟨r.value, List.mem_singleton_self _, name, rfl, hkey⟩
  exact (((hlater.cons (t := ⟨.ident typeName, l'⟩) (.inl (.inl (hA.typeWord htype)))).cons
    (t := ⟨.symbol .colon, colon⟩) (.inl (.inl (hA.symbol (by decide))))).cons (t := ⟨.ident name, l⟩)
      (.inl hname)).least (by omega)

/-- A declaration has its name from one of these tokens, a word that is free. -/
def Declaration.NamedIn (d : Declaration) (ts : List Token) : Prop :=
  ∃ t ∈ ts, ∃ w, t.content = .ident w ∧ isTaken w = false ∧ d.key = Text.upper w

/-- A name among the last tokens is one among all of them. -/
theorem Declaration.NamedIn.mono {d : Declaration} {rest : List Token} (h : d.NamedIn rest) (hsub : rest ⊆ ts) :
    d.NamedIn ts := by
  obtain ⟨t, ht, hname⟩ := h
  exact ⟨t, hsub ht, hname⟩

/-- A declaration is named by a token that it takes. -/
theorem namedIn_varEntry {line endLine : UInt32} {r : Parsed Declaration} (h : varEntry line endLine ts = .ok r) :
    r.value.NamedIn ts := by
  obtain ⟨name, l, colon, typeName, l', mid, init, semi, rfl, hfree, -, -, -, -, hkey⟩ := varEntry_eq_ok h
  exact ⟨⟨.ident name, l⟩, List.mem_cons_self, name, rfl, hfree, hkey⟩

/-- Declarations up to the end of their section, which is taken, too. -/
theorem taken_varEntriesFrom (hA : ProgramTokens A) {blockLine endLine : UInt32} {decls : List Declaration}
    {uses : List Use} {r : Parsed (List Declaration)} (h : varEntriesFrom blockLine endLine decls uses ts = .ok r) :
    ∃ more new, r.value = decls ++ more ∧ r.uses = uses ++ new ∧ Taken (NameOrAdmitted A more) 1 new ts r.rest ∧
      ∀ d ∈ more, d.NamedIn ts := by
  fun_induction varEntriesFrom blockLine endLine decls uses ts with
  | case1 => cases h
  | case2 decls uses t ts hend =>
    cases h
    obtain ⟨w, l, rest, hts, hw⟩ := eq_cons_of_atKeyword hend
    cases hts
    refine ⟨[], [], (List.append_nil _).symm, (List.append_nil _).symm, ?_, List.forall_mem_nil _⟩
    refine Taken.cons (.inl (.inl (hA.blockWord (hw ▸ by decide)))) ?_
    split
    · rename_i hsemi
      obtain ⟨l', rest', rfl⟩ := eq_cons_of_atSymbol hsemi
      exact ((Taken.nil _ _).cons (.inl (.inl hA.semi))).least (Nat.zero_le 1)
    · exact .nil _ _
  | case3 => cases h
  | case4 decls uses t ts _ d hd hle ih =>
    obtain ⟨more, new, hvars, huses, htaken, hnamed⟩ := ih h
    have hentry := taken_varEntry hA hd
    refine ⟨d.value :: more, d.uses ++ new, by rw [hvars, List.append_assoc]; rfl, by rw [huses, List.append_assoc], ?_,
      List.forall_mem_cons.2 ⟨namedIn_varEntry hd, fun d' hd' => (hnamed d' hd').mono hentry.subset⟩⟩
    have hfirst := hentry.weaken (NameOrAdmitted.mono (List.cons_subset_cons d.value (List.nil_subset more)))
    exact (hfirst.append (htaken.weaken (NameOrAdmitted.mono (List.subset_cons_self _ _)))).least (by omega)
  | case5 decls uses t ts _ d hd hle =>
    -- a declaration takes a token, so less is left
    have hlength := (taken_varEntry hA hd).length
    rw [List.length_cons] at hlength
    omega

/-- **A section of declarations** takes names, and what is admitted. -/
theorem taken_varSection (hA : ProgramTokens A) {endLine : UInt32} {r : Parsed (List Declaration)}
    (h : varSection endLine ts = .ok r) :
    Taken (NameOrAdmitted A r.value) 1 r.uses ts r.rest ∧ ∀ d ∈ r.value, d.NamedIn ts := by
  obtain ⟨line, b, hline, hb, rfl⟩ := Parser.bind_eq_ok_iff.1 h
  cases hline
  obtain ⟨word, vars, hword, hvars, rfl⟩ := Parser.bind_eq_ok_iff.1 hb
  obtain ⟨more, new, hmore, hnew, htaken, hnamed⟩ := taken_varEntriesFrom hA hvars
  rw [List.nil_append] at hmore hnew
  rw [List.nil_append, hmore, hnew]
  have hfirst := spends_keyword hA.toStatementTokens (by decide) ts endLine word hword
  exact ⟨((hfirst.weaken fun c hc => .inl hc).append htaken).least (by omega),
    fun d hd => (hnamed d hd).mono hfirst.subset⟩

/-- The items of a text take all of its tokens. -/
theorem taken_itemsFrom (hA : ProgramTokens A) {endLine : UInt32} {items : Items} {uses : List Use} {r : Parsed Items}
    (h : itemsFrom endLine items uses ts = .ok r) :
    ∃ more new, r.value.vars = items.vars ++ more ∧ r.uses = uses ++ new ∧
      Taken (NameOrAdmitted A more) 0 new ts [] ∧ ∀ d ∈ more, d.NamedIn ts := by
  -- Sections of declarations admit more names, so what was taken before is weakened to the names of all sections.
  fun_induction itemsFrom endLine items uses ts with
  | case1 =>
    cases h
    exact ⟨[], [], (List.append_nil _).symm, (List.append_nil _).symm, .nil _ _, List.forall_mem_nil _⟩
  | case2 => cases h
  | case3 items uses t ts _ vars hvars hle ih =>
    obtain ⟨more, new, hmore, hnew, htaken, hnamed⟩ := ih h
    obtain ⟨hsection, hnames⟩ := taken_varSection hA hvars
    refine ⟨vars.value ++ more, vars.uses ++ new, by rw [hmore, List.append_assoc], by rw [hnew, List.append_assoc], ?_,
      List.forall_mem_append.2 ⟨hnames, fun d hd => (hnamed d hd).mono hsection.subset⟩⟩
    have hfirst := hsection.weaken (NameOrAdmitted.mono (List.subset_append_left _ more))
    exact (hfirst.append (htaken.weaken (NameOrAdmitted.mono (List.subset_append_right _ _)))).least (Nat.zero_le _)
  | case4 items uses t ts _ vars hvars hle =>
    have hlength := (taken_varSection hA hvars).1.length
    rw [List.length_cons] at hlength
    omega
  | case5 => cases h
  | case6 items uses t ts _ s hs hle ih =>
    obtain ⟨more, new, hmore, hnew, htaken, hnamed⟩ := ih h
    have hstmt := spendsAt_statement hA.toStatementTokens nestingLimit t ts endLine s hs
    refine ⟨more, s.uses ++ new, hmore, by rw [hnew, List.append_assoc], ?_,
      fun d hd => (hnamed d hd).mono hstmt.subset⟩
    exact ((hstmt.weaken fun c hc => .inl hc).append htaken).least (Nat.zero_le _)
  | case7 items uses t ts _ s hs hle =>
    have hlength := (spendsAt_statement hA.toStatementTokens nestingLimit t ts endLine s hs).length
    rw [List.length_cons] at hlength
    omega

/-- All words of the language. -/
def languageWords : List String := expressionWords ++ blockWords ++ typeWords

/-- A word of the language, or no word. -/
def LanguageToken (c : TokenContent) : Prop := ∀ w, c = .ident w → Text.upper w ∈ languageWords

theorem programTokens_language : ProgramTokens LanguageToken where
  symbol _ _ h := nomatch h
  int _ _ h := nomatch h
  real _ _ h := nomatch h
  text _ _ h := nomatch h
  semi _ h := nomatch h
  word h w heq := by
    cases heq
    exact List.mem_append_left _ (List.mem_append_left _ h)
  blockWord h w heq := by
    cases heq
    exact List.mem_append_left _ (List.mem_append_right _ h)
  typeWord h w heq := by
    cases heq
    exact List.mem_append_right _ h

/-- **The words of a program** that compiles are words of the language and names of its variables. -/
theorem word_of_compile {source word : String} {p : Program} (h : compile source = .ok p)
    (htokens : tokenize source = .ok ts) (ht : t ∈ ts) (hword : t.content = .ident word) :
    Text.upper word ∈ languageWords ∨ ∃ d ∈ p.vars, d.key = Text.upper word := by
  obtain ⟨tokens, hread, h⟩ := bind_eq_ok.1 h
  cases htokens.symm.trans hread
  rw [compileTokens] at h
  obtain ⟨parsed, hparsed, h⟩ := bind_eq_ok.1 h
  obtain ⟨_, -, h⟩ := bind_eq_ok.1 h
  obtain ⟨_, huses, h⟩ := bind_eq_ok.1 h
  cases h
  obtain ⟨more, new, hmore, hnew, ⟨used, hts, -, hall⟩, -⟩ := taken_itemsFrom programTokens_language hparsed
  rw [List.nil_append] at hmore hnew
  rw [List.append_nil] at hts
  rcases hall t (hts ▸ ht) with (hlanguage | ⟨d, hd, w, heq, hkey⟩) | ⟨u, hu, w, heq, hkey, -⟩
  · exact .inl (hlanguage word hword)
  · cases hword.symm.trans heq
    exact .inr ⟨d, by rw [hmore]; exact hd, hkey⟩
  · cases hword.symm.trans heq
    obtain ⟨d, hd, -⟩ := allDeclared_eq_ok.1 huses u (by rw [hnew]; exact hu)
    have hfound : d.key = u.key := by simpa using List.find?_some hd
    exact .inr ⟨d, List.mem_of_find?_eq_some hd, hfound.trans hkey⟩

/-- **The names of the variables** of a program that compiles are words of its text that are free. -/
theorem namedIn_of_compile {source : String} {p : Program} (h : compile source = .ok p) :
    ∃ ts, tokenize source = .ok ts ∧ ∀ d ∈ p.vars, d.NamedIn ts := by
  obtain ⟨ts, hread, h⟩ := bind_eq_ok.1 h
  rw [compileTokens] at h
  obtain ⟨parsed, hparsed, h⟩ := bind_eq_ok.1 h
  obtain ⟨_, -, h⟩ := bind_eq_ok.1 h
  obtain ⟨_, -, h⟩ := bind_eq_ok.1 h
  cases h
  obtain ⟨more, -, hmore, -, -, hnamed⟩ := taken_itemsFrom programTokens_any hparsed
  rw [List.nil_append] at hmore
  exact ⟨ts, hread, fun d hd => hnamed d (hmore ▸ hd)⟩

end Switchyard.Script

import Switchyard.Proofs.Script.Lexing
import Switchyard.Proofs.Script.WellFormed

/-!
# Programs as text

A program is written one construct per line, with the parentheses that the levels of
the operators require and no others. `Program.placed` is the same program with the
lines of this text in place of its own.

* `Expr.words`, `Stmt.lines`, `Program.lines`: the layout of a program.
* `Program.Plain`: the programs of the grammar, as far as they can be written.
* `tokenize_render`: all tokens of the layout can be written, and are read again.
-/

namespace Switchyard.Script

variable {vars : List Declaration}

/-- The level of an operator, higher for the looser ones. -/
def BinaryOp.looseness : BinaryOp → ℕ
  | .mul | .div | .mod => 1
  | .add | .sub => 2
  | .lt | .le | .gt | .ge => 3
  | .eq | .ne => 4
  | .and => 5
  | .or => 6

/-- The level of an expression: zero when nothing can tear it apart. -/
def Expr.looseness : Expr → ℕ
  | .binary op _ _ => op.looseness
  | _ => 0

def UnaryOp.word : UnaryOp → TokenContent
  | .neg => .symbol .minus
  | .not => .ident "NOT"

def BinaryOp.word : BinaryOp → TokenContent
  | .or => .ident "OR"
  | .and => .ident "AND"
  | .eq => .symbol .eq
  | .ne => .symbol .ne
  | .lt => .symbol .lt
  | .le => .symbol .le
  | .gt => .symbol .gt
  | .ge => .symbol .ge
  | .add => .symbol .plus
  | .sub => .symbol .minus
  | .mul => .symbol .star
  | .div => .symbol .slash
  | .mod => .ident "MOD"

/-- The name of a function of the device, without the device. -/
def DeviceOp.member : DeviceOp → String
  | .readInput => "ReadInput"
  | .readRegister => "ReadRegister"
  | .writeCoil => "WriteCoil"
  | .writeRegister => "WriteRegister"
  | .getDA => "GetDA"
  | .setDA => "SetDA"
  | .log => "Log"

/-- A value as a literal. No literal stands for `null`. -/
def literalWord : Scalar → TokenContent
  | .null => .ident "NULL"
  | .bool true => .ident "TRUE"
  | .bool false => .ident "FALSE"
  | .int n => .int n
  | .real x => .real x
  | .text s => .text s

/-- Parentheses around what is too loose. -/
def enclosed (loose : Bool) (words : List TokenContent) : List TokenContent :=
  if loose then .symbol .lparen :: (words ++ [.symbol .rparen]) else words

mutual

/-- The tokens of an expression. Operands stand in parentheses when they are looser than their side
of the operator admits: operators group to the left, so on the right the same level is too loose. -/
def Expr.words : Expr → List TokenContent
  | .literal v => [literalWord v]
  | .var key => [.ident key]
  | .stepTime key => [.ident key, .symbol .dot, .ident "StepTime"]
  | .unary op e => op.word :: enclosed (0 < e.looseness) e.words
  | .binary op l r =>
    enclosed (op.looseness < l.looseness) l.words ++ op.word :: enclosed (op.looseness - 1 < r.looseness) r.words
  | .builtin func args => .ident func.label :: .symbol .lparen :: (argumentWords args ++ [.symbol .rparen])
  | .device func args =>
    .ident "Device" :: .symbol .dot :: .ident func.member :: .symbol .lparen ::
      (argumentWords args ++ [.symbol .rparen])

/-- Arguments with commas between them. -/
def argumentWords : List Expr → List TokenContent
  | [] => []
  | [e] => e.words
  | e :: e' :: es => e.words ++ .symbol .comma :: argumentWords (e' :: es)

end

/-- An expression where only levels up to the given one may stand without parentheses. -/
def Expr.within (e : Expr) (level : ℕ) : List TokenContent := enclosed (level < e.looseness) e.words

mutual

/-- The lines of a statement. -/
def Stmt.lines : Stmt → List (List TokenContent)
  | .assign _ target value => [.ident target :: .symbol .assign :: (value.words ++ [.symbol .semi])]
  | .call _ func args => [(Expr.device func args).words ++ [.symbol .semi]]
  | .choose _ arms => arms.lines "IF" ++ [[.ident "END_IF", .symbol .semi]]
  | .loop _ cond body =>
    (.ident "WHILE" :: (cond.words ++ [.ident "DO"])) :: (blockLines body ++ [[.ident "END_WHILE", .symbol .semi]])

/-- The lines of the alternatives of an `IF`; the first one starts with the given keyword. -/
def Arms.lines : String → Arms → List (List TokenContent)
  | _, .none => []
  | _, .otherwise body => [.ident "ELSE"] :: blockLines body
  | keyword, .arm cond body rest =>
    (.ident keyword :: (cond.words ++ [.ident "THEN"])) :: (blockLines body ++ rest.lines "ELSIF")

def blockLines : List Stmt → List (List TokenContent)
  | [] => []
  | s :: ss => s.lines ++ blockLines ss

end

mutual

/-- A statement on the lines that it is written on, from the given one. It holds them in 32 bits. -/
def Stmt.placed : ℕ → Stmt → Stmt
  | line, .assign _ target value => .assign (.ofNat line) target value
  | line, .call _ func args => .call (.ofNat line) func args
  | line, .choose _ arms => .choose (.ofNat line) (arms.placed line)
  | line, .loop _ cond body => .loop (.ofNat line) cond (placedAll (line + 1) body)

def Arms.placed : ℕ → Arms → Arms
  | _, .none => .none
  | line, .otherwise body => .otherwise (placedAll (line + 1) body)
  | line, .arm cond body rest =>
    .arm cond (placedAll (line + 1) body) (rest.placed (line + 1 + (blockLines body).length))

def placedAll : ℕ → List Stmt → List Stmt
  | _, [] => []
  | line, s :: ss => s.placed line :: placedAll (line + s.lines.length) ss

end

def initializerWords : Option Expr → List TokenContent
  | none => []
  | some e => .symbol .assign :: e.words

/-- The line of a declaration. -/
def Declaration.words (d : Declaration) : List TokenContent :=
  .ident d.name :: .symbol .colon :: .ident d.type.label :: (initializerWords d.init ++ [.symbol .semi])

/-- Declarations on the lines that they are written on, from the given one. -/
def placedDeclarations : ℕ → List Declaration → List Declaration
  | _, [] => []
  | line, d :: ds => { d with line := .ofNat line } :: placedDeclarations (line + 1) ds

/-- The layout of a program: its declarations and then its statements. -/
def Program.lines (p : Program) : List (List TokenContent) :=
  [.ident "VAR"] :: (p.vars.map Declaration.words ++ [.ident "END_VAR"] :: blockLines p.body)

/-- The text of a program. -/
def Program.render (p : Program) : String := String.ofList (layoutText p.lines)

/-- **A program as it is written**: with its text and the lines of its declarations and statements in it. -/
def Program.placed (p : Program) : Program :=
  ⟨p.render, placedDeclarations 2 p.vars, placedAll (p.vars.length + 3) p.body⟩

/-- The literals of the language, reals left out. -/
def Written : Scalar → Prop
  | .bool _ => True
  | .int n => 0 ≤ n.toInt
  | .text s => Quotable s
  | _ => False

/-- The expressions of the grammar. The right operand of `MOD` has no parentheses, or else it
would be taken for the arguments of the function of that name. -/
inductive Expr.Plain : Expr → Prop
  | literal {v} (h : Written v) : Plain (.literal v)
  | var (key) : Plain (.var key)
  | stepTime (key) : Plain (.stepTime key)
  | unary (op) {e} (h : Plain e) : Plain (.unary op e)
  | binary {op l r} (hmod : op = .mod → r.looseness = 0) (hl : Plain l) (hr : Plain r) : Plain (.binary op l r)
  | builtin (func) {args} (h : ∀ e ∈ args, Plain e) : Plain (.builtin func args)
  | device (func) {args} (h : ∀ e ∈ args, Plain e) : Plain (.device func args)

/-- The statements of the grammar: an `IF` has a first alternative with a condition. -/
inductive Stmt.Plain : Stmt → Prop
  | assign (line target) {value} (h : value.Plain) : Plain (.assign line target value)
  | call (line func) {args} (h : ∀ e ∈ args, Expr.Plain e) : Plain (.call line func args)
  | choose (line) {arms : Arms} (hfirst : ∃ cond body rest, arms = .arm cond body rest)
      (hconds : ∀ arm ∈ arms.branches, arm.1.Plain) (hbodies : ∀ arm ∈ arms.branches, ∀ s ∈ arm.2, Plain s)
      (hlast : ∀ body, arms.last? = some body → ∀ s ∈ body, Plain s) : Plain (.choose line arms)
  | loop (line) {cond body} (hcond : cond.Plain) (hbody : ∀ s ∈ body, Plain s) : Plain (.loop line cond body)

/-- A declaration of the grammar, of a variable that is not named like a keyword or the device. -/
structure Declaration.Plain (d : Declaration) : Prop where
  word : IsWord d.name
  key : d.key = Text.upper d.name
  free : isTaken d.name = false
  device : d.key ≠ "DEVICE"
  init : ∀ e, d.init = some e → e.Plain

/-- **The programs of the grammar.** -/
structure Program.Plain (p : Program) : Prop where
  vars : ∀ d ∈ p.vars, d.Plain
  body : ∀ s ∈ p.body, s.Plain

/-- What the key of a variable is like. -/
structure IsKey (key : String) : Prop where
  word : IsWord key
  upper : Text.upper key = key
  free : isTaken key = false
  device : key ≠ "DEVICE"

/-- In upper case, a letter is one of the upper-case letters and everything else is as it was. -/
theorem toUpper_cases (c : Char) : c.toUpper.isUpper = true ∨ (c.isLower = false ∧ c.toUpper = c) := by
  rw [← Bool.not_eq_true, isUpper_iff, isLower_iff]
  unfold Char.toUpper
  split
  · rename_i hlower
    have hlow : 0x61 ≤ c.toNat := hlower.1
    have hhigh : c.toNat ≤ 0x7a := hlower.2
    have hshift : ('A'.val - 'a'.val).toNat = 4294967264 := rfl
    left
    change 0x41 ≤ (c.val + ('A'.val - 'a'.val)).toNat ∧ (c.val + ('A'.val - 'a'.val)).toNat ≤ 0x5a
    rw [UInt32.toNat_add, hshift]
    change 0x41 ≤ (c.toNat + 4294967264) % 4294967296 ∧ (c.toNat + 4294967264) % 4294967296 ≤ 0x5a
    omega
  · rename_i hlower
    exact .inr ⟨fun h => hlower h, rfl⟩

theorem toUpper_of_isUpper {c : Char} (h : c.isUpper = true) : c.toUpper = c := by
  rw [isUpper_iff] at h
  unfold Char.toUpper
  split
  · rename_i hlower
    have hlow : 0x61 ≤ c.toNat := hlower.1
    omega
  · rfl

/-- Upper case stays upper case. -/
theorem upper_upper (s : String) : Text.upper (Text.upper s) = Text.upper s := by
  have htwice : Char.toUpper ∘ Char.toUpper = Char.toUpper := by
    funext c
    rcases toUpper_cases c with h | ⟨-, h⟩
    · exact toUpper_of_isUpper h
    · rw [Function.comp_apply, h, h]
  rw [Text.upper, Text.upper, String.toList_ofList, List.map_map, htwice]

theorem isWordStart_toUpper {c : Char} (h : isWordStart c = true) : isWordStart c.toUpper = true := by
  rcases toUpper_cases c with hupper | ⟨-, hc⟩
  · rw [isWordStart, isAlpha_eq, hupper, Bool.true_or, Bool.true_or]
  · rw [hc]
    exact h

theorem isWordChar_toUpper {c : Char} (h : isWordChar c = true) : isWordChar c.toUpper = true := by
  rcases toUpper_cases c with hupper | ⟨-, hc⟩
  · rw [isWordChar, Char.isAlphanum, isAlpha_eq, hupper, Bool.true_or, Bool.true_or, Bool.true_or]
  · rw [hc]
    exact h

/-- A word is one in upper case. -/
theorem IsWord.upper {word : String} (h : IsWord word) : IsWord (Text.upper word) := by
  obtain ⟨c, cs, hword, hc, hcs⟩ := h.exists_cons
  have hupper : (Text.upper word).toList = c.toUpper :: cs.map Char.toUpper := by
    rw [Text.upper, String.toList_ofList, hword, List.map_cons]
  constructor
  · rw [hupper]
    exact isWordStart_toUpper hc
  · rw [hupper, List.tail_cons, List.all_eq_true]
    intro d hd
    obtain ⟨d, hmem, rfl⟩ := List.mem_map.1 hd
    exact isWordChar_toUpper (hcs d hmem)

/-- The key of a declaration is no keyword either. -/
theorem Declaration.Plain.isKey {d : Declaration} (h : d.Plain) : IsKey d.key := by
  have hupper := h.key
  refine ⟨?_, ?_, ?_, h.device⟩
  · rw [hupper]
    exact h.word.upper
  · rw [hupper, upper_upper]
  · rw [hupper, isTaken, upper_upper]
    exact h.free

/-- **Variables that may be used have keys**, when the declarations are those of the grammar. -/
theorem Admits.isKey {key : String} {stepTime : Bool} (h : Admits vars key stepTime) (hvars : ∀ d ∈ vars, d.Plain) :
    IsKey key := by
  obtain ⟨d, hd, -⟩ := h
  have hkey : d.key = key := by simpa using List.find?_some hd
  rw [← hkey]
  exact (hvars d (List.mem_of_find?_eq_some hd)).isKey

/-- All tokens of a line can be written. -/
def AllSpelled (words : List TokenContent) : Prop := ∀ t ∈ words, t.Spelled

namespace AllSpelled

theorem nil : AllSpelled [] := nofun

theorem cons {t : TokenContent} {words : List TokenContent} (ht : t.Spelled) (h : AllSpelled words) :
    AllSpelled (t :: words) := List.forall_mem_cons.2 ⟨ht, h⟩

theorem append {words more : List TokenContent} (h : AllSpelled words) (hmore : AllSpelled more) :
    AllSpelled (words ++ more) := List.forall_mem_append.2 ⟨h, hmore⟩

theorem concat {words : List TokenContent} {t : TokenContent} (h : AllSpelled words) (ht : t.Spelled) :
    AllSpelled (words ++ [t]) := h.append (.cons ht .nil)

theorem enclosed {words : List TokenContent} (h : AllSpelled words) (loose : Bool) :
    AllSpelled (enclosed loose words) := by
  cases loose with
  | false => exact h
  | true => exact .cons trivial (h.concat trivial)

/-- Arguments can be written with commas between them. -/
theorem argumentWords {args : List Expr} (h : ∀ e ∈ args, AllSpelled e.words) : AllSpelled (argumentWords args) := by
  match args with
  | [] => exact .nil
  | [e] => exact h e List.mem_cons_self
  | e :: e' :: es =>
    obtain ⟨he, hes⟩ := List.forall_mem_cons.1 h
    exact he.append (.cons trivial (argumentWords hes))

end AllSpelled

theorem spelled_literalWord {v : Scalar} (h : Written v) : (literalWord v).Spelled := by
  cases v with
  | null => exact h.elim
  | bool b => cases b <;> exact ⟨rfl, rfl⟩
  | int n => exact h
  | real x => exact h.elim
  | text s => exact h

/-- A call of the device can be written. -/
theorem spelled_deviceWords (func : DeviceOp) {args : List Expr} (h : ∀ e ∈ args, AllSpelled e.words) :
    AllSpelled (Expr.device func args).words := by
  have hdevice : IsWord "Device" := ⟨rfl, rfl⟩
  have hfunc : IsWord func.member := by cases func <;> exact ⟨rfl, rfl⟩
  exact .cons hdevice (.cons trivial (.cons hfunc (.cons trivial ((AllSpelled.argumentWords h).concat trivial))))

/-- **An expression can be written.** Its names are those of declarations. -/
theorem spelled_words {e : Expr} (h : e.Plain) (he : e.WellFormed vars) (hvars : ∀ d ∈ vars, d.Plain) :
    AllSpelled e.words := by
  -- Names come from declarations, and all other words are fixed.
  induction h with
  | literal hv => exact .cons (spelled_literalWord hv) .nil
  | var key =>
    cases he with
    | var hkey => exact .cons (hkey.isKey hvars).word .nil
  | stepTime key =>
    cases he with
    | stepTime hkey =>
      have hmember : IsWord "StepTime" := ⟨rfl, rfl⟩
      exact .cons (hkey.isKey hvars).word (.cons trivial (.cons hmember .nil))
  | unary op _ ih =>
    cases he with
    | unary _ he =>
      have hop : op.word.Spelled := by
        cases op with
        | neg => trivial
        | not => exact ⟨rfl, rfl⟩
      exact .cons hop ((ih he).enclosed _)
  | @binary op l r _ _ _ ihl ihr =>
    cases he with
    | binary _ hl hr =>
      have hop : op.word.Spelled := by cases op <;> trivial
      exact ((ihl hl).enclosed _).append (.cons hop ((ihr hr).enclosed _))
  | builtin func _ ih =>
    cases he with
    | builtin _ hargs =>
      have hfunc : IsWord func.label := by cases func <;> exact ⟨rfl, rfl⟩
      have hwords := AllSpelled.argumentWords fun e he => ih e he (hargs e he)
      exact .cons hfunc (.cons trivial (hwords.concat trivial))
  | device func _ ih =>
    cases he with
    | device _ _ hargs => exact spelled_deviceWords func fun e he => ih e he (hargs e he)

/-- All tokens of a layout can be written. -/
def LinesSpelled (lines : List (List TokenContent)) : Prop := ∀ words ∈ lines, AllSpelled words

namespace LinesSpelled

theorem nil : LinesSpelled [] := nofun

theorem cons {words : List TokenContent} {lines : List (List TokenContent)} (h : AllSpelled words)
    (hlines : LinesSpelled lines) : LinesSpelled (words :: lines) := List.forall_mem_cons.2 ⟨h, hlines⟩

theorem append {lines more : List (List TokenContent)} (h : LinesSpelled lines) (hmore : LinesSpelled more) :
    LinesSpelled (lines ++ more) := List.forall_mem_append.2 ⟨h, hmore⟩

/-- A block can be written if its statements can. -/
theorem blockLines {stmts : List Stmt} (h : ∀ s ∈ stmts, LinesSpelled s.lines) : LinesSpelled (blockLines stmts) := by
  induction stmts with
  | nil => exact .nil
  | cons s ss ih =>
    obtain ⟨hs, hss⟩ := List.forall_mem_cons.1 h
    exact hs.append (ih hss)

/-- The alternatives of a conditional can be written if their conditions and blocks can. -/
theorem arms {arms : Arms} (hconds : ∀ arm ∈ arms.branches, AllSpelled arm.1.words)
    (hbodies : ∀ arm ∈ arms.branches, ∀ s ∈ arm.2, LinesSpelled s.lines)
    (hlast : ∀ body, arms.last? = some body → ∀ s ∈ body, LinesSpelled s.lines) {keyword : String}
    (hkeyword : IsWord keyword) : LinesSpelled (arms.lines keyword) := by
  match arms with
  | .none => exact .nil
  | .otherwise body =>
    have helse : IsWord "ELSE" := ⟨rfl, rfl⟩
    exact .cons (.cons helse .nil) (.blockLines (hlast body rfl))
  | .arm cond body rest =>
    rw [Arms.branches] at hconds hbodies
    have hthen : IsWord "THEN" := ⟨rfl, rfl⟩
    have helsif : IsWord "ELSIF" := ⟨rfl, rfl⟩
    obtain ⟨hcond, hconds⟩ := List.forall_mem_cons.1 hconds
    obtain ⟨hbody, hbodies⟩ := List.forall_mem_cons.1 hbodies
    have hheader : AllSpelled (.ident keyword :: (cond.words ++ [.ident "THEN"])) :=
      .cons hkeyword (hcond.concat hthen)
    exact .cons hheader ((LinesSpelled.blockLines hbody).append (LinesSpelled.arms hconds hbodies hlast helsif))

end LinesSpelled

/-- A statement can be written, with all its blocks. -/
theorem spelled_stmtLines {s : Stmt} (h : s.Plain) (hs : s.WellFormed vars) (hvars : ∀ d ∈ vars, d.Plain) :
    LinesSpelled s.lines := by
  induction h with
  | assign line target hvalue =>
    cases hs with
    | assign _ htarget he =>
      have hwords := spelled_words hvalue he hvars
      exact .cons (.cons (htarget.isKey hvars).word (.cons trivial (hwords.concat trivial))) .nil
  | call line func hargs =>
    cases hs with
    | call _ _ he =>
      have hwords := spelled_deviceWords func fun e hmem => spelled_words (hargs e hmem) (he e hmem) hvars
      exact .cons (hwords.concat trivial) .nil
  | choose line _ hconds _ _ ihbodies ihlast =>
    cases hs with
    | choose _ hconds' hbodies' hlast' =>
      have hif : IsWord "IF" := ⟨rfl, rfl⟩
      have hend : IsWord "END_IF" := ⟨rfl, rfl⟩
      have harms := LinesSpelled.arms (fun arm harm => spelled_words (hconds arm harm) (hconds' arm harm) hvars)
        (fun arm harm s hs => ihbodies arm harm s hs (hbodies' arm harm s hs))
        (fun body hbody s hs => ihlast body hbody s hs (hlast' body hbody s hs)) hif
      exact harms.append (.cons (.cons hend (.cons trivial .nil)) .nil)
  | @loop line cond body hcond _ ihbody =>
    cases hs with
    | loop _ hcond' hbody' =>
      have hwhile : IsWord "WHILE" := ⟨rfl, rfl⟩
      have hdo : IsWord "DO" := ⟨rfl, rfl⟩
      have hend : IsWord "END_WHILE" := ⟨rfl, rfl⟩
      have hheader : AllSpelled (.ident "WHILE" :: (cond.words ++ [.ident "DO"])) :=
        .cons hwhile ((spelled_words hcond hcond' hvars).concat hdo)
      have hblock := LinesSpelled.blockLines fun s hs => ihbody s hs (hbody' s hs)
      exact .cons hheader (hblock.append (.cons (.cons hend (.cons trivial .nil)) .nil))

/-- A declaration can be written. -/
theorem spelled_declarationWords {d : Declaration} (h : d.Plain) (hd : d.WellFormed vars)
    (hvars : ∀ d ∈ vars, d.Plain) : AllSpelled d.words := by
  have htype : IsWord d.type.label := by cases d.type <;> exact ⟨rfl, rfl⟩
  have hinit : AllSpelled (initializerWords d.init) := by
    cases hinit : d.init with
    | none => exact .nil
    | some e => exact .cons trivial (spelled_words (h.init e hinit) (hd e hinit) hvars)
  exact .cons h.word (.cons trivial (.cons htype (hinit.concat trivial)))

/-- **Every token of a program can be written**, so its text has the tokens of its layout. -/
theorem tokenize_render {p : Program} (h : p.Plain) (hp : p.WellFormed) :
    tokenize p.render = .ok (place 1 p.lines) := by
  have hvar : IsWord "VAR" := ⟨rfl, rfl⟩
  have hend : IsWord "END_VAR" := ⟨rfl, rfl⟩
  have hdecls : LinesSpelled (p.vars.map Declaration.words) := by
    intro words hwords
    obtain ⟨d, hd, rfl⟩ := List.mem_map.1 hwords
    exact spelled_declarationWords (h.vars d hd) (hp.initializers d hd) h.vars
  have hbody : LinesSpelled (blockLines p.body) :=
    .blockLines fun s hs => spelled_stmtLines (h.body s hs) (hp.body s hs) h.vars
  exact tokenize_layout (LinesSpelled.cons (.cons hvar .nil) (hdecls.append (.cons (.cons hend .nil) hbody)))

end Switchyard.Script

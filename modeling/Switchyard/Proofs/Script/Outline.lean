import Switchyard.Proofs.Script.Blocks
import Switchyard.Proofs.Script.Layout
import Switchyard.Proofs.Script.Lines
import Switchyard.Proofs.Script.RoundTrip

/-!
# Programs and their lines

In a plain layout, the lines of a text are put together like the blocks of the program that is read from it: a block is
between the line of its header and the line of its terminator, and a statement without blocks has a line of its own
(`Outlined`). Every program that compiles and is plainly laid out has such an outline (`exists_outline`), since each
parser that succeeds has taken whole lines.

* `Part`, `Outlined`: the lines of a block, with the headers around each of its statements.
* `ReadsLines`: a parser takes whole lines.
-/

namespace Switchyard.Script

/-- Whether a line starts with a keyword. -/
def SourceLine.leads (word : String) (l : SourceLine) : Bool := atKeyword word l.tokens

/-- The words that start the lines of headers and terminators of statements. -/
def frameWords : List String := ["IF", "ELSIF", "ELSE", "END_IF", "WHILE", "END_WHILE"]

/-- Whether a line goes on like an assignment or a call. -/
def SourceLine.holdsStatement (l : SourceLine) : Bool :=
  atSymbol .assign l.tokens.tail || atSymbol .dot l.tokens.tail

/-- A line of a block that adds nothing to it: an empty one, a semicolon, or a part of a section of declarations. -/
structure SourceLine.Idle (l : SourceLine) : Prop where
  unframed : ∀ word ∈ frameWords, l.leads word = false
  none : l.holdsStatement = false

/-- A line that holds an assignment or a call. -/
structure SourceLine.Holds (l : SourceLine) (s : Stmt) : Prop where
  unframed : ∀ word ∈ frameWords, l.leads word = false
  statement : l.holdsStatement = true
  simple : s.all = [s]
  line : s.line = l.number

/-- What has an outline: a block, or the alternatives of a conditional behind the header of the one before. -/
inductive Part where
  | block (stmts : List Stmt)
  | arms (header : SourceLine) (alternatives : Arms)

/-- **How the lines of a part are put together**, given the headers around it, from the outside in. Each statement comes
with the headers around it, where an alternative has the last header with a condition before it. -/
inductive Outlined : List SourceLine → Part → List SourceLine → List (Stmt × List SourceLine) → Prop
  | nil {hs} : Outlined hs (.block []) [] []
  | idle {hs ss l ls placed} (hl : l.Idle) (h : Outlined hs (.block ss) ls placed) :
      Outlined hs (.block ss) (l :: ls) placed
  | simple {hs s ss l ls placed} (hl : l.Holds s) (h : Outlined hs (.block ss) ls placed) :
      Outlined hs (.block (s :: ss)) (l :: ls) ((s, hs) :: placed)
  | loop {hs cond body ss header inside terminator ls inner placed} (hheader : header.leads "WHILE" = true)
      (hbody : Outlined (hs ++ [header]) (.block body) inside inner)
      (hterminator : terminator.leads "END_WHILE" = true) (h : Outlined hs (.block ss) ls placed) :
      Outlined hs (.block (.loop header.number cond body :: ss)) (header :: (inside ++ terminator :: ls))
        ((.loop header.number cond body, hs) :: (inner ++ placed))
  | choose {hs cond body rest ss header inside others terminator ls inner arms placed}
      (hheader : header.leads "IF" = true) (hbody : Outlined (hs ++ [header]) (.block body) inside inner)
      (hrest : Outlined hs (.arms header rest) others arms) (hterminator : terminator.leads "END_IF" = true)
      (h : Outlined hs (.block ss) ls placed) :
      Outlined hs (.block (.choose header.number (.arm cond body rest) :: ss))
        (header :: (inside ++ (others ++ terminator :: ls)))
        ((.choose header.number (.arm cond body rest), hs) :: (inner ++ (arms ++ placed)))
  | none {hs header} : Outlined hs (.arms header .none) [] []
  | otherwise {hs header body divider inside inner} (hdivider : divider.leads "ELSE" = true)
      (hbody : Outlined (hs ++ [header]) (.block body) inside inner) :
      Outlined hs (.arms header (.otherwise body)) (divider :: inside) inner
  | arm {hs header cond body rest next inside others inner arms} (hnext : next.leads "ELSIF" = true)
      (hbody : Outlined (hs ++ [next]) (.block body) inside inner)
      (hrest : Outlined hs (.arms next rest) others arms) :
      Outlined hs (.arms header (.arm cond body rest)) (next :: (inside ++ others)) (inner ++ arms)

variable {ls more : List SourceLine} {hs : List SourceLine} {ts : List Token}

/-- The statements of a part, in the order of the text. -/
def Part.all : Part → List Stmt
  | .block stmts => allStmts stmts
  | .arms _ alternatives => alternatives.all

/-- **An outline has all statements**, in the order of the text. -/
theorem Outlined.all {part : Part} {placed : List (Stmt × List SourceLine)} (h : Outlined hs part ls placed) :
    placed.map Prod.fst = part.all := by
  induction h with
  | nil => rfl
  | idle _ _ ih => exact ih
  | simple hl _ ih =>
    rw [List.map_cons, ih, Part.all, Part.all, allStmts, hl.simple]
    rfl
  | loop _ _ _ _ ihbody ih =>
    rw [List.map_cons, List.map_append, ihbody, ih]
    rfl
  | choose _ _ _ _ _ ihbody ihrest ih =>
    rw [List.map_cons, List.map_append, List.map_append, ihbody, ihrest, ih]
    simp only [Part.all, allStmts, Stmt.all, Arms.all, List.append_assoc, List.cons_append]
  | none => rfl
  | otherwise _ _ ih => exact ih
  | arm _ _ _ ihbody ihrest =>
    rw [List.map_append, ihbody, ihrest]
    rfl

/-- Lines that add nothing. -/
theorem Outlined.idles {ss : List Stmt} {placed : List (Stmt × List SourceLine)} (hidle : ∀ l ∈ ls, l.Idle)
    (h : Outlined hs (.block ss) more placed) : Outlined hs (.block ss) (ls ++ more) placed := by
  induction ls with
  | nil => exact h
  | cons l ls ih =>
    obtain ⟨hl, hls⟩ := List.forall_mem_cons.1 hidle
    exact .idle hl (ih hls)

theorem Outlined.of_idles (hidle : ∀ l ∈ ls, l.Idle) : Outlined hs (.block []) ls [] := by
  have h : Outlined hs (.block []) (ls ++ []) [] := idles hidle .nil
  rwa [List.append_nil] at h

/-- **Blocks one after the other** have their outlines one after the other. -/
theorem Outlined.append {ss ss' : List Stmt} {placed placed' : List (Stmt × List SourceLine)}
    (h : Outlined hs (.block ss) ls placed) (h' : Outlined hs (.block ss') more placed') :
    Outlined hs (.block (ss ++ ss')) (ls ++ more) (placed ++ placed') := by
  generalize hpart : Part.block ss = part at h
  induction h generalizing ss with
  | nil =>
    cases hpart
    exact h'
  | idle hl _ ih => exact .idle hl (ih h' hpart)
  | simple hl _ ih =>
    cases hpart
    exact .simple hl (ih h' rfl)
  | loop hheader hbody hterminator _ _ ih =>
    cases hpart
    rw [List.cons_append, List.cons_append, List.append_assoc, List.cons_append, List.cons_append, List.append_assoc]
    exact .loop hheader hbody hterminator (ih h' rfl)
  | choose hheader hbody hrest hterminator _ _ _ ih =>
    cases hpart
    rw [List.cons_append, List.cons_append, List.append_assoc, List.append_assoc, List.cons_append, List.cons_append,
      List.append_assoc, List.append_assoc]
    exact .choose hheader hbody hrest hterminator (ih h' rfl)
  | none | otherwise | arm => cases hpart

/-- The tokens of some lines. -/
def lineTokens (ls : List SourceLine) : List Token := ls.flatMap SourceLine.tokens

/-- A line of a plain layout, with its number on its tokens. -/
structure SourceLine.Regular (l : SourceLine) : Prop where
  form : LineForm (l.tokens.map Token.content)
  line : ∀ t ∈ l.tokens, t.line = l.number

variable {l : SourceLine} {rest : List SourceLine} {t : Token} {behind : List Token} {w : String}

theorem SourceLine.idle_of_nil (h : l.tokens = []) : l.Idle := by
  constructor
  · intro word _
    rw [leads, h]
    rfl
  · rw [holdsStatement, h]
    rfl

/-- A line that starts with a word is led by this word only. -/
theorem SourceLine.leads_iff {n : UInt32} {keyword : String} (htokens : l.tokens = ⟨.ident w, n⟩ :: behind) :
    l.leads keyword = true ↔ Text.upper w = keyword := by
  rw [leads, htokens]
  exact beq_iff_eq

/-- The tokens of a line come before those of the next ones. -/
theorem lineTokens_cons (l : SourceLine) (ls : List SourceLine) :
    lineTokens (l :: ls) = l.tokens ++ lineTokens ls := rfl

/-- The next token is the first one of a line, perhaps after some empty lines. -/
theorem exists_front (h : lineTokens ls = t :: ts) : ∃ blanks l rest behind, ls = blanks ++ l :: rest ∧
    (∀ b ∈ blanks, b.Idle) ∧ lineTokens (l :: rest) = t :: ts ∧ l.tokens = t :: behind ∧
      ts = behind ++ lineTokens rest := by
  induction ls with
  | nil => cases h
  | cons l ls ih =>
    cases htokens : l.tokens with
    | nil =>
      rw [lineTokens_cons, htokens, List.nil_append] at h
      obtain ⟨blanks, l', rest, behind, rfl, hblanks, hrest, hl', hts⟩ := ih h
      exact ⟨l :: blanks, l', rest, behind, rfl,
        List.forall_mem_cons.2 ⟨SourceLine.idle_of_nil htokens, hblanks⟩, hrest, hl', hts⟩
    | cons t' behind =>
      have hts := h
      rw [lineTokens_cons, htokens, List.cons_append] at hts
      cases hts
      exact ⟨[], l, ls, behind, rfl, List.forall_mem_nil _, h, htokens, rfl⟩

/-- A list splits in one way at the first member that a predicate does not hold of. -/
theorem split_unique {α : Type} {P : α → Prop} {a b xs ys : List α} {x y : α} (h : a ++ x :: xs = b ++ y :: ys)
    (ha : ∀ c ∈ a, P c) (hb : ∀ c ∈ b, P c) (hx : ¬ P x) (hy : ¬ P y) : a = b ∧ x = y ∧ xs = ys := by
  induction a generalizing b with
  | nil =>
    cases b with
    | nil =>
      cases h
      exact ⟨rfl, rfl, rfl⟩
    | cons c b =>
      cases h
      exact absurd (hb x List.mem_cons_self) hx
  | cons c a ih =>
    rw [List.forall_mem_cons] at ha
    cases b with
    | nil =>
      cases h
      exact absurd ha.1 hy
    | cons d b =>
      obtain ⟨rfl, htail⟩ := List.cons.inj h
      obtain ⟨rfl, rfl, rfl⟩ := ih htail ha.2 (List.forall_mem_cons.1 hb).2
      exact ⟨rfl, rfl, rfl⟩

/-- A word of blocks is not inside of a statement. -/
theorem not_inner_of_mem (h : Text.upper w ∈ blockWords) : ¬ Inner (.ident w) := fun hinner => hinner.2 w rfl h

theorem not_inner_semi : ¬ Inner (.symbol .semi) := fun hinner => hinner.1 rfl

/-- **What a line holds that is not empty.** -/
theorem LineForm.cases_cons {c : TokenContent} {cs : List TokenContent} (h : LineForm (c :: cs)) :
    (∃ inner, c :: cs = inner ++ [.symbol .semi] ∧ ∀ d ∈ inner, Inner d) ∨
      (∃ opening closing inner, c = .ident opening ∧ cs = inner ++ [.ident closing] ∧
        (Text.upper opening, Text.upper closing) ∈ headerFrames ∧ ∀ d ∈ inner, Inner d) ∨
      (∃ word, c = .ident word ∧ cs = [] ∧ Text.upper word ∈ ["VAR", "ELSE"]) ∨
      ∃ word, c = .ident word ∧ (cs = [] ∨ cs = [.symbol .semi]) ∧ Text.upper word ∈ terminators := by
  generalize hall : c :: cs = all at h
  cases h with
  | blank => cases hall
  | entry h => exact .inl ⟨_, rfl, h⟩
  | header hframe h =>
    cases hall
    exact .inr (.inl ⟨_, _, _, rfl, rfl, hframe, h⟩)
  | lone h =>
    cases hall
    exact .inr (.inr (.inl ⟨_, rfl, rfl, h⟩))
  | terminator h =>
    cases hall
    exact .inr (.inr (.inr ⟨_, rfl, .inl rfl, h⟩))
  | closed h =>
    cases hall
    exact .inr (.inr (.inr ⟨_, rfl, .inr rfl, h⟩))

theorem opening_mem {frame : String × String} (h : frame ∈ headerFrames) : frame.1 ∈ blockWords := by
  revert frame
  decide

theorem closing_mem {word : String} (h : word ∈ headerFrames.map Prod.snd) : word ∈ blockWords := by
  revert word
  decide

/-- What ends a block is one of the words of blocks. -/
theorem terminator_mem {word : String} (h : word ∈ terminators) : word ∈ blockWords := by
  revert word
  decide

theorem lone_mem {word : String} (h : word ∈ ["VAR", "ELSE"]) : word ∈ blockWords := by
  revert word
  decide

theorem not_lone_of_opening {word : String} (h : word ∈ headerFrames.map Prod.fst) : word ∉ ["VAR", "ELSE"] := by
  revert word
  decide

/-- What opens a block does not end one. -/
theorem not_terminator_of_opening {word : String} (h : word ∈ headerFrames.map Prod.fst) : word ∉ terminators := by
  revert word
  decide

theorem not_terminator_of_lone {word : String} (h : word ∈ ["VAR", "ELSE"]) : word ∉ terminators := by
  revert word
  decide

/-- A line that starts with a token of this kind holds a declaration or a statement. -/
theorem LineForm.of_inner {c : TokenContent} {cs : List TokenContent} (h : LineForm (c :: cs)) (hc : Inner c) :
    ∃ inner, c :: cs = inner ++ [.symbol .semi] ∧ ∀ d ∈ inner, Inner d := by
  rcases h.cases_cons with hentry | ⟨_, _, _, rfl, -, hframe, -⟩ | ⟨_, rfl, -, hword⟩ | ⟨_, rfl, -, hword⟩
  · exact hentry
  · exact absurd hc (not_inner_of_mem (opening_mem hframe))
  · exact absurd hc (not_inner_of_mem (lone_mem hword))
  · exact absurd hc (not_inner_of_mem (terminator_mem hword))

/-- A line that starts with a semicolon holds nothing else. -/
theorem LineForm.of_semi {cs : List TokenContent} (h : LineForm (.symbol .semi :: cs)) : cs = [] := by
  rcases h.cases_cons with ⟨inner, heq, hinner⟩ | ⟨_, _, _, heq, -⟩ | ⟨_, heq, -⟩ | ⟨_, heq, -⟩
  · cases inner with
    | nil => exact (List.cons.inj heq).2
    | cons d inner =>
      cases heq
      exact absurd (hinner _ List.mem_cons_self) not_inner_semi
  all_goals cases heq

/-- A line that starts with the word of a header ends with its last word. -/
theorem LineForm.of_header {cs : List TokenContent} (h : LineForm (.ident w :: cs))
    (hw : Text.upper w ∈ headerFrames.map Prod.fst) :
    ∃ inner closing, cs = inner ++ [.ident closing] ∧ Text.upper closing ∈ headerFrames.map Prod.snd ∧
      ∀ d ∈ inner, Inner d := by
  rcases h.cases_cons with ⟨inner, heq, hinner⟩ | ⟨_, closing, inner, _, hcs, hframe, hinner⟩ | ⟨_, heq, -, hword⟩ |
    ⟨_, heq, -, hword⟩
  · obtain ⟨frame, hframe, hfirst⟩ := List.mem_map.1 hw
    cases inner with
    | nil => cases heq
    | cons d inner =>
      cases heq
      exact absurd (hinner _ List.mem_cons_self) (not_inner_of_mem (hfirst ▸ opening_mem hframe))
  · exact ⟨inner, closing, hcs, List.mem_map_of_mem hframe, hinner⟩
  · cases heq
    exact absurd hword (not_lone_of_opening hw)
  · cases heq
    exact absurd hword (not_terminator_of_opening hw)

/-- A semicolon on its own adds nothing. -/
theorem SourceLine.idle_of_semi {n : UInt32} (hl : l.Regular) (htokens : l.tokens = ⟨.symbol .semi, n⟩ :: behind) :
    l.Idle := by
  have hform := hl.form
  rw [htokens, List.map_cons] at hform
  constructor
  · intro word _
    rw [leads, htokens]
    rfl
  · rw [holdsStatement, htokens, List.map_eq_nil_iff.1 hform.of_semi]
    rfl

/-- The words that stand alone. -/
theorem LineForm.of_lone {cs : List TokenContent} (h : LineForm (.ident w :: cs))
    (hw : Text.upper w ∈ ["VAR", "ELSE"]) : cs = [] := by
  rcases h.cases_cons with ⟨inner, heq, hinner⟩ | ⟨_, _, _, heq, -, hframe, -⟩ | ⟨_, -, hcs, -⟩ | ⟨_, heq, -, hword⟩
  · cases inner with
    | nil => cases heq
    | cons d inner =>
      cases heq
      exact absurd (hinner _ List.mem_cons_self) (not_inner_of_mem (lone_mem hw))
  · cases heq
    exact absurd hw (not_lone_of_opening (List.mem_map_of_mem hframe))
  · exact hcs
  · cases heq
    exact absurd hword (not_terminator_of_lone hw)

/-- The words that end something, and a semicolon. -/
theorem LineForm.of_terminator {cs : List TokenContent} (h : LineForm (.ident w :: cs))
    (hw : Text.upper w ∈ terminators) : cs = [] ∨ cs = [.symbol .semi] := by
  rcases h.cases_cons with ⟨inner, heq, hinner⟩ | ⟨_, _, _, heq, -, hframe, -⟩ | ⟨_, -, hcs, -⟩ | ⟨_, -, hcs, -⟩
  · cases inner with
    | nil => cases heq
    | cons d inner =>
      cases heq
      exact absurd (hinner _ List.mem_cons_self) (not_inner_of_mem (terminator_mem hw))
  · cases heq
    exact absurd hw (not_terminator_of_opening (List.mem_map_of_mem hframe))
  · exact .inl hcs
  · exact hcs

/-- What is read of a declaration or of a statement without blocks is its line. -/
theorem rest_of_entry {n : UInt32} {used left : List Token} (hl : l.Regular) (htokens : l.tokens = t :: behind)
    (ht : Inner t.content) (hread : l.tokens ++ lineTokens rest = used ++ ⟨.symbol .semi, n⟩ :: left)
    (hused : ∀ u ∈ used, Inner u.content) :
    l.tokens = used ++ [⟨.symbol .semi, n⟩] ∧ left = lineTokens rest := by
  have hform := hl.form
  rw [htokens, List.map_cons] at hform
  obtain ⟨inner, hsplit, hinner⟩ := hform.of_inner ht
  rw [← List.map_cons, ← htokens, List.map_eq_append_iff] at hsplit
  obtain ⟨front, last, hfront, hinnerFront, hlast⟩ := hsplit
  obtain ⟨closing, rfl, hclosing⟩ := List.map_eq_singleton_iff.1 hlast
  rw [hfront, List.append_assoc, List.singleton_append] at hread
  have hall (u : Token) (hu : u ∈ front) : Inner u.content := hinner _ (hinnerFront ▸ List.mem_map_of_mem hu)
  have hend : ¬ Inner closing.content := by
    rw [hclosing]
    exact not_inner_semi
  obtain ⟨rfl, rfl, rfl⟩ := split_unique (P := fun u => Inner u.content) hread hall hused hend not_inner_semi
  exact ⟨hfront, rfl⟩

/-- What is read of a header is its line. -/
theorem rest_of_header {closing : Token} {used left : List Token} (hl : l.Regular)
    (htokens : l.tokens = t :: behind) (ht : t.content = .ident w) (hw : Text.upper w ∈ headerFrames.map Prod.fst)
    (hread : behind ++ lineTokens rest = used ++ closing :: left) (hused : ∀ u ∈ used, Inner u.content)
    (hclosing : ¬ Inner closing.content) : left = lineTokens rest := by
  have hform := hl.form
  rw [htokens, List.map_cons, ht] at hform
  obtain ⟨inner, word, hsplit, hword, hinner⟩ := hform.of_header hw
  rw [List.map_eq_append_iff] at hsplit
  obtain ⟨front, last, rfl, hinnerFront, hlast⟩ := hsplit
  obtain ⟨ending, rfl, hending⟩ := List.map_eq_singleton_iff.1 hlast
  rw [List.append_assoc, List.singleton_append] at hread
  refine (split_unique (P := fun u => Inner u.content) hread ?_ hused ?_ hclosing).2.2.symm
  · intro u hu
    exact hinner _ (hinnerFront ▸ List.mem_map_of_mem hu)
  · rw [hending]
    exact not_inner_of_mem (closing_mem hword)

/-- A semicolon behind a terminator is on its line, or on a line of its own. -/
theorem rest_of_terminator (hl : l.Regular) (htokens : l.tokens = t :: behind) (ht : t.content = .ident w)
    (hw : Text.upper w ∈ terminators) (hrest : ∀ l ∈ rest, l.Regular) :
    ∃ idles left, rest = idles ++ left ∧ (∀ l ∈ idles, l.Idle) ∧
      afterSemicolon (behind ++ lineTokens rest) = lineTokens left := by
  have hform := hl.form
  rw [htokens, List.map_cons, ht] at hform
  rcases hform.of_terminator hw with hnil | hsemi
  · rw [List.map_eq_nil_iff.1 hnil, List.nil_append, afterSemicolon]
    by_cases hat : atSymbol .semi (lineTokens rest) = true
    · obtain ⟨n, left, hleft⟩ := eq_cons_of_atSymbol hat
      obtain ⟨blanks, l', rest', behind', rfl, hblanks, -, hl', rfl⟩ := exists_front hleft
      have hform := (hrest l' (List.mem_append_right _ List.mem_cons_self)).form
      rw [hl', List.map_cons] at hform
      refine ⟨blanks ++ [l'], rest', by simp, List.forall_mem_append.2 ⟨hblanks, ?_⟩, ?_⟩
      · exact List.forall_mem_singleton.2 (SourceLine.idle_of_semi (hrest l' (by simp)) hl')
      · rw [if_pos hat, hleft, List.map_eq_nil_iff.1 hform.of_semi]
        rfl
    · rw [if_neg hat]
      exact ⟨[], rest, rfl, List.forall_mem_nil _, rfl⟩
  · obtain ⟨semi, rfl, hcontent⟩ := List.map_eq_singleton_iff.1 hsemi
    obtain ⟨content, n⟩ := semi
    cases hcontent
    exact ⟨[], rest, rfl, List.forall_mem_nil _, rfl⟩

/-- A name may stand inside of a statement. -/
theorem inner_of_free (h : isTaken w = false) : Inner (.ident w) := by
  refine ⟨nofun, fun w' heq hmem => ?_⟩
  cases heq
  have htaken : isTaken w = true := List.elem_eq_true_of_mem (List.mem_append_left _ hmem : _ ∈ blockWords ++ _)
  rw [h] at htaken
  cases htaken

/-- All that expressions are made of may stand inside of a statement. -/
theorem expressionTokens_inner : ExpressionTokens Inner where
  symbol h := ⟨fun heq => h (TokenContent.symbol.inj heq), nofun⟩
  int _ := ⟨nofun, nofun⟩
  real _ := ⟨nofun, nofun⟩
  text _ := ⟨nofun, nofun⟩
  word {w} h := by
    refine ⟨nofun, fun w' heq => ?_⟩
    cases heq
    revert h
    generalize Text.upper w = word
    revert word
    decide

/-- What an expression takes is inside of a construct. -/
theorem Taken.inner {n : ℕ} {uses : List Use} {left : List Token} (h : Taken Inner n uses ts left) :
    ∃ used, ts = used ++ left ∧ ∀ u ∈ used, Inner u.content := by
  obtain ⟨used, hts, -, hall⟩ := h
  refine ⟨used, hts, fun u hu => ?_⟩
  rcases hall u hu with hinner | ⟨_, _, w, hcontent, -, hfree⟩
  · exact hinner
  · rw [hcontent]
    exact inner_of_free hfree

theorem atKeyword_cons (keyword : String) (t : Token) (ts ts' : List Token) :
    atKeyword keyword (t :: ts) = atKeyword keyword (t :: ts') := by
  obtain ⟨content, line⟩ := t
  cases content <;> rfl

theorem atSymbol_cons (s : Symbol) (t : Token) (ts ts' : List Token) :
    atSymbol s (t :: ts) = atSymbol s (t :: ts') := by
  obtain ⟨content, line⟩ := t
  cases content <;> rfl

/-- **A parser of statements takes whole lines**, which have the outline of what it reads. -/
def ReadsLines (stmt : Parser (Option Stmt)) : Prop :=
  ∀ endLine ls t ts r, (∀ l ∈ ls, l.Regular) → lineTokens ls = t :: ts → stmt endLine (t :: ts) = .ok r →
    ∃ used left, ls = used ++ left ∧ r.rest = lineTokens left ∧
      ∀ hs, ∃ placed, Outlined hs (.block r.value.toList) used placed

section Statements

variable {stmt : Parser (Option Stmt)} {cond value : Parser Expr} {endLine line : UInt32} {uses : List Use}

/-- A block takes the lines up to the one of its terminator. -/
theorem lines_blockFrom (hstmt : ReadsLines stmt) {terminators : List String} {stmts body : List Stmt}
    {new : List Use} {left : List Token} (hregular : ∀ l ∈ ls, l.Regular) (hts : lineTokens ls = ts)
    (h : blockFrom stmt terminators endLine stmts uses ts = .ok ⟨some body, new, left⟩) :
    ∃ own used l rest, body = stmts ++ own ∧ ls = used ++ l :: rest ∧ left = lineTokens (l :: rest) ∧
      terminators.any l.leads = true ∧ ∀ hs, ∃ placed, Outlined hs (.block own) used placed := by
  fun_induction blockFrom stmt terminators endLine stmts uses ts generalizing ls with
  | case1 | case3 | case4 | case6 => cases h
  | case2 stmts uses t ts hend =>
    cases h
    obtain ⟨blanks, l, rest, behind, rfl, hblanks, hrest, hl, -⟩ := exists_front hts
    refine ⟨[], blanks, l, rest, (List.append_nil _).symm, rfl, hrest.symm, ?_, fun hs => ?_⟩
    · rw [List.any_eq_true] at hend ⊢
      obtain ⟨word, hword, hat⟩ := hend
      exact ⟨word, hword, by rw [SourceLine.leads, hl, atKeyword_cons _ _ _ ts]; exact hat⟩
    · exact ⟨[], .of_idles hblanks⟩
  | case5 stmts uses t ts _ _ s hs hle ih =>
    obtain ⟨used, more, rfl, hmore, houtline⟩ := hstmt endLine ls t ts s hregular hts hs
    obtain ⟨own, used', l, rest, rfl, rfl, hleft, hl, houtline'⟩ :=
      ih (fun l hl => hregular l (List.mem_append_right _ hl)) hmore.symm h
    refine ⟨s.value.toList ++ own, used ++ used', l, rest, by rw [List.append_assoc],
      by rw [List.append_assoc], hleft, hl, fun hs => ?_⟩
    obtain ⟨placed, hplaced⟩ := houtline hs
    obtain ⟨placed', hplaced'⟩ := houtline' hs
    exact ⟨placed ++ placed', hplaced.append hplaced'⟩

/-- **A block takes whole lines**, up to one that starts with a word that ends it, and they have its outline. -/
theorem lines_block (hstmt : ReadsLines stmt) {words : List String} {unterminated : CompileFault}
    {r : Parsed (List Stmt)} (hregular : ∀ l ∈ ls, l.Regular)
    (h : block stmt words line unterminated endLine (lineTokens ls) = .ok r) :
    ∃ used l rest, ls = used ++ l :: rest ∧ r.rest = lineTokens (l :: rest) ∧ words.any l.leads = true ∧
      ∀ hs, ∃ placed, Outlined hs (.block r.value) used placed := by
  obtain ⟨own, used, l, rest, hown, hls, hleft, hl, houtline⟩ :=
    lines_blockFrom hstmt hregular rfl (block_eq_ok h)
  rw [List.nil_append] at hown
  exact ⟨used, l, rest, hls, hleft, hl, hown ▸ houtline⟩

/-- What is left behind a condition and the last word of its header is what is left behind the header's line. -/
theorem rest_of_cond {n : UInt32} {c : Parsed Expr} {r : Parsed Unit} {closing : String} (hcond : cond.Spends Inner 1)
    (hl : l.Regular) (htokens : l.tokens = ⟨.ident w, n⟩ :: behind) (hw : Text.upper w ∈ headerFrames.map Prod.fst)
    (hc : cond endLine (behind ++ lineTokens rest) = .ok c) (hr : takeKeyword closing endLine c.rest = .ok r)
    (hclosing : closing ∈ blockWords) : r.rest = lineTokens rest := by
  obtain ⟨used, hread, hused⟩ := (hcond _ endLine c hc).inner
  obtain ⟨w', n', hrest, rfl⟩ := takeKeyword_eq_ok hr
  rw [hrest] at hread
  exact rest_of_header hl htokens rfl hw hread hused (not_inner_of_mem hclosing)

/-- A condition and a block take the rest of the line of their header, and the lines up to the next one. -/
theorem lines_arm {n : UInt32} {r : Parsed (Expr × List Stmt)} (hstmt : ReadsLines stmt) (hcond : cond.Spends Inner 1)
    (hl : l.Regular) (hregular : ∀ l ∈ rest, l.Regular) (htokens : l.tokens = ⟨.ident w, n⟩ :: behind)
    (hw : Text.upper w ∈ headerFrames.map Prod.fst)
    (h : arm stmt cond line endLine (behind ++ lineTokens rest) = .ok r) :
    ∃ used l left, rest = used ++ l :: left ∧ r.rest = lineTokens (l :: left) ∧
      ["ELSIF", "ELSE", "END_IF"].any l.leads = true ∧
        ∀ hs, ∃ placed, Outlined hs (.block r.value.2) used placed := by
  obtain ⟨c, b, hc, hb, rfl⟩ := Parser.bind_eq_ok_iff.1 h
  obtain ⟨u, b', hthen, hb', rfl⟩ := Parser.bind_eq_ok_iff.1 hb
  obtain ⟨body, b'', hbody, hb'', rfl⟩ := Parser.bind_eq_ok_iff.1 hb'
  cases hb''
  rw [rest_of_cond hcond hl htokens hw hc hthen (by decide)] at hbody
  exact lines_block hstmt hregular hbody

/-- The next token is the word that leads the next line. -/
theorem tokens_of_leads {words : List String} (hl : words.any l.leads = true) (hts : lineTokens (l :: rest) = t :: ts) :
    ∃ w n behind, t = ⟨.ident w, n⟩ ∧ l.tokens = ⟨.ident w, n⟩ :: behind ∧ ts = behind ++ lineTokens rest ∧
      Text.upper w ∈ words := by
  obtain ⟨word, hword, hlead⟩ := List.any_eq_true.1 hl
  obtain ⟨w, n, behind, htokens, rfl⟩ := eq_cons_of_atKeyword hlead
  rw [lineTokens_cons, htokens, List.cons_append] at hts
  cases hts
  exact ⟨w, n, behind, rfl, htokens, rfl, hword⟩

/-- The alternatives take the lines up to the one of their terminator. -/
theorem lines_armsFrom (hstmt : ReadsLines stmt) (hcond : cond.Spends Inner 1) {arms : List (Expr × List Stmt)}
    {r : Parsed Arms} (hregular : ∀ l' ∈ l :: rest, l'.Regular)
    (hl : ["ELSIF", "ELSE", "END_IF"].any l.leads = true) (hts : lineTokens (l :: rest) = ts)
    (h : armsFrom stmt cond line endLine arms uses ts = .ok r) :
    ∃ others used terminator left, r.value = Arms.ofList others arms ∧ l :: rest = used ++ terminator :: left ∧
      r.rest = lineTokens (terminator :: left) ∧ terminator.leads "END_IF" = true ∧
        ∀ hs header, ∃ placed, Outlined hs (.arms header others) used placed := by
  -- The cases follow the parser: one more `ELSIF`, the `ELSE`, or neither.
  fun_induction armsFrom stmt cond line endLine arms uses ts generalizing l rest with
  | case1 | case2 | case4 | case5 => cases h
  | case3 arms uses t ts hat a ha hle ih =>
    obtain ⟨hline, hrest⟩ := List.forall_mem_cons.1 hregular
    obtain ⟨w, n, behind, rfl, htokens, rfl, -⟩ := tokens_of_leads hl hts
    have hw : Text.upper w = "ELSIF" := upper_of_spells hat
    have hopening : Text.upper w ∈ headerFrames.map Prod.fst := by
      rw [hw]
      decide
    obtain ⟨inside, next, left, rfl, hleft, hnext, houtline⟩ := lines_arm hstmt hcond hline hrest htokens hopening ha
    obtain ⟨others, used, terminator, left', hvalue, hsplit, hleft', hterminator, hothers⟩ :=
      ih (fun l hl => hrest l (List.mem_append_right _ hl)) hnext hleft.symm h
    refine ⟨.arm a.value.1 a.value.2 others, l :: (inside ++ used), terminator, left', ?_, ?_, hleft', hterminator, ?_⟩
    · rw [hvalue, ofList_concat]
    · rw [hsplit, List.cons_append, List.append_assoc]
    · intro hs header
      -- The block of the alternative has its own header around it, and the alternatives behind it the headers of the
      -- whole.
      obtain ⟨placed, hplaced⟩ := houtline (hs ++ [l])
      obtain ⟨placed', hplaced'⟩ := hothers hs l
      exact ⟨placed ++ placed', .arm ((SourceLine.leads_iff htokens).2 hw) hplaced hplaced'⟩
  | case6 arms uses t ts _ hat body hbody =>
    obtain ⟨hline, hrest⟩ := List.forall_mem_cons.1 hregular
    obtain ⟨w, n, behind, rfl, htokens, rfl, -⟩ := tokens_of_leads hl hts
    cases h
    have hform := hline.form
    rw [htokens, List.map_cons] at hform
    have hw : Text.upper w = "ELSE" := upper_of_spells hat
    have hlone : Text.upper w ∈ ["VAR", "ELSE"] := by
      rw [hw]
      decide
    rw [List.map_eq_nil_iff.1 (hform.of_lone hlone), List.nil_append] at hbody
    obtain ⟨inside, terminator, left, rfl, hleft, hterminator, houtline⟩ := lines_block hstmt hrest hbody
    refine ⟨.otherwise body.value, l :: inside, terminator, left, rfl, rfl, hleft, by simpa using hterminator, ?_⟩
    intro hs header
    obtain ⟨placed, hplaced⟩ := houtline (hs ++ [header])
    exact ⟨placed, .otherwise ((SourceLine.leads_iff htokens).2 hw) hplaced⟩
  | case7 arms uses t ts helsif helse =>
    obtain ⟨w, n, behind, rfl, htokens, rfl, hw⟩ := tokens_of_leads hl hts
    cases h
    refine ⟨.none, [], l, rest, rfl, rfl, hts.symm, (SourceLine.leads_iff htokens).2 ?_, fun hs header => ⟨[], .none⟩⟩
    -- The line starts with one of three words, and two of them have been ruled out.
    rcases List.mem_cons.1 hw with hw | hw
    · exact absurd (beq_iff_eq.2 hw) helsif
    rcases List.mem_cons.1 hw with hw | hw
    · exact absurd (beq_iff_eq.2 hw) helse
    · exact List.mem_singleton.1 hw

/-- The line of a terminator is taken with its semicolon. -/
theorem rest_of_frame {keyword : String} {a b : Parsed Unit} (hl : l.Regular) (hrest : ∀ l ∈ rest, l.Regular)
    (ha : takeKeyword keyword endLine (lineTokens (l :: rest)) = .ok a) (hb : optionalSemicolon endLine a.rest = .ok b)
    (hlead : l.leads keyword = true) (hkeyword : keyword ∈ terminators) :
    ∃ idles left, rest = idles ++ left ∧ (∀ l ∈ idles, l.Idle) ∧ b.rest = lineTokens left := by
  obtain ⟨w, n, behind, htokens, hw⟩ := eq_cons_of_atKeyword hlead
  obtain ⟨w', n', hfront, -⟩ := takeKeyword_eq_ok ha
  rw [lineTokens_cons, htokens, List.cons_append] at hfront
  rw [optionalSemicolon_eq_ok hb, ← (List.cons.inj hfront).2]
  exact rest_of_terminator hl htokens rfl (hw ▸ hkeyword) hrest

/-- **A parser of statements with blocks**, from the line of their first header on. -/
def ReadsFrame (keyword : String) (p : UInt32 → Parser Stmt) : Prop :=
  ∀ endLine l rest w n behind r, l.Regular → (∀ l ∈ rest, l.Regular) → l.tokens = ⟨.ident w, n⟩ :: behind →
    Text.upper w = keyword → p n endLine (lineTokens (l :: rest)) = .ok r →
      ∃ used left, rest = used ++ left ∧ r.rest = lineTokens left ∧
        ∀ hs, ∃ placed, Outlined hs (.block [r.value]) (l :: used) placed

theorem readsFrame_tooDeep (keyword : String) : ReadsFrame keyword fun _ => tooDeep := by
  intro endLine l rest w n behind r _ _ _ _ h
  cases h

/-- A conditional takes the lines from its header to its `END_IF`. -/
theorem readsFrame_conditional (hstmt : ReadsLines stmt) (hcond : cond.Spends Inner 1) :
    ReadsFrame "IF" (conditional stmt cond) := by
  intro endLine l rest w n behind r hl hrest htokens hw h
  obtain ⟨word, r₁, hword, h₁, rfl⟩ := Parser.bind_eq_ok_iff.1 h
  obtain ⟨first, r₂, hfirst, h₂, rfl⟩ := Parser.bind_eq_ok_iff.1 h₁
  obtain ⟨arms, r₃, harms, h₃, rfl⟩ := Parser.bind_eq_ok_iff.1 h₂
  obtain ⟨ending, r₄, hending, h₄, rfl⟩ := Parser.bind_eq_ok_iff.1 h₃
  obtain ⟨semi, r₅, hsemi, h₅, rfl⟩ := Parser.bind_eq_ok_iff.1 h₄
  cases h₅
  -- The parser has taken `IF`, the first alternative, the other ones, `END_IF` and maybe a semicolon.
  obtain ⟨w', n', hfront, -⟩ := takeKeyword_eq_ok hword
  rw [lineTokens_cons, htokens, List.cons_append] at hfront
  rw [← (List.cons.inj hfront).2] at hfirst
  obtain ⟨inside, next, left, rfl, hleft, hnext, hbody⟩ :=
    lines_arm hstmt hcond hl hrest htokens (by rw [hw]; decide) hfirst
  obtain ⟨-, hregular⟩ := List.forall_mem_append.1 hrest
  obtain ⟨others, used, terminator, left', hvalue, hsplit, hleft', hterminator, hothers⟩ :=
    lines_armsFrom hstmt hcond hregular hnext hleft.symm harms
  rw [hsplit] at hregular
  obtain ⟨hend, hlater⟩ := List.forall_mem_cons.1 (List.forall_mem_append.1 hregular).2
  rw [hleft'] at hending
  obtain ⟨idles, left'', rfl, hidles, hleft''⟩ := rest_of_frame hend hlater hending hsemi hterminator (by decide)
  refine ⟨inside ++ (used ++ terminator :: idles), left'', ?_, hleft'', fun hs => ?_⟩
  · rw [hsplit, List.append_assoc, List.append_assoc, List.cons_append]
  · obtain ⟨inner, hinner⟩ := hbody (hs ++ [l])
    obtain ⟨placed, hplaced⟩ := hothers hs l
    obtain rfl : n = l.number := hl.line ⟨.ident w, n⟩ (htokens ▸ List.mem_cons_self)
    rw [hvalue]
    exact ⟨_, .choose ((SourceLine.leads_iff htokens).2 hw) hinner hplaced hterminator (.of_idles hidles)⟩

/-- A loop takes the lines from its header to its `END_WHILE`. -/
theorem readsFrame_repetition (hstmt : ReadsLines stmt) (hcond : cond.Spends Inner 1) :
    ReadsFrame "WHILE" (repetition stmt cond) := by
  intro endLine l rest w n behind r hl hrest htokens hw h
  obtain ⟨word, r₁, hword, h₁, rfl⟩ := Parser.bind_eq_ok_iff.1 h
  obtain ⟨c, r₂, hc, h₂, rfl⟩ := Parser.bind_eq_ok_iff.1 h₁
  obtain ⟨opening, r₃, hopening, h₃, rfl⟩ := Parser.bind_eq_ok_iff.1 h₂
  obtain ⟨body, r₄, hbody, h₄, rfl⟩ := Parser.bind_eq_ok_iff.1 h₃
  obtain ⟨ending, r₅, hending, h₅, rfl⟩ := Parser.bind_eq_ok_iff.1 h₄
  obtain ⟨semi, r₆, hsemi, h₆, rfl⟩ := Parser.bind_eq_ok_iff.1 h₅
  cases h₆
  obtain ⟨w', n', hfront, -⟩ := takeKeyword_eq_ok hword
  rw [lineTokens_cons, htokens, List.cons_append] at hfront
  rw [← (List.cons.inj hfront).2] at hc
  rw [rest_of_cond hcond hl htokens (by rw [hw]; decide) hc hopening (by decide)] at hbody
  obtain ⟨inside, terminator, left, rfl, hleft, hterminator, houtline⟩ := lines_block hstmt hrest hbody
  have hclosing : terminator.leads "END_WHILE" = true := by simpa using hterminator
  obtain ⟨hend, hlater⟩ := List.forall_mem_cons.1 (List.forall_mem_append.1 hrest).2
  rw [hleft] at hending
  obtain ⟨idles, left', rfl, hidles, hleft'⟩ := rest_of_frame hend hlater hending hsemi hclosing (by decide)
  refine ⟨inside ++ terminator :: idles, left', ?_, hleft', fun hs => ?_⟩
  · rw [List.append_assoc, List.cons_append]
  · obtain ⟨inner, hinner⟩ := houtline (hs ++ [l])
    obtain rfl : n = l.number := hl.line ⟨.ident w, n⟩ (htokens ▸ List.mem_cons_self)
    exact ⟨_, .loop ((SourceLine.leads_iff htokens).2 hw) hinner hclosing (.of_idles hidles)⟩

/-- An assignment goes on with its mark, a value and a semicolon. -/
theorem assignment_eq_ok {r : Parsed Stmt} (h : assignment value w line endLine (t :: ts) = .ok r) :
    ∃ n mid v m target, ts = ⟨.symbol .assign, n⟩ :: mid ∧ value endLine mid = .ok v ∧
      v.rest = ⟨.symbol .semi, m⟩ :: r.rest ∧ r.value = .assign line target v.value := by
  rw [assignment, Parser.skip_eq_ok_iff, Parser.look_eq_ok_iff] at h
  by_cases hat : atSymbol .assign ts = true
  · obtain ⟨n, mid, rfl⟩ := eq_cons_of_atSymbol hat
    rw [if_pos hat, Parser.skip_eq_ok_iff] at h
    obtain ⟨target, r₁, htarget, h₁, rfl⟩ := Parser.bind_eq_ok_iff.1 h
    cases htarget
    obtain ⟨v, r₂, hv, h₂, rfl⟩ := Parser.bind_eq_ok_iff.1 h₁
    obtain ⟨semi, r₃, hsemi, h₃, rfl⟩ := Parser.bind_eq_ok_iff.1 h₂
    cases h₃
    obtain ⟨m, hrest⟩ := expectSymbol_eq_ok hsemi
    exact ⟨n, mid, v, m, _, rfl, hv, hrest, rfl⟩
  · rw [if_neg hat] at h
    cases h

/-- A call goes on with a dot. -/
theorem atDot_of_deviceOp {d : Parsed (DeviceOp × List Expr)} (h : deviceOp value endLine (t :: ts) = .ok d) :
    atSymbol .dot ts = true := by
  obtain ⟨line, r₁, hline, h₁, rfl⟩ := Parser.bind_eq_ok_iff.1 h
  cases hline
  rw [Parser.skip_eq_ok_iff] at h₁
  obtain ⟨dot, r₂, hdot, -, rfl⟩ := Parser.bind_eq_ok_iff.1 h₁
  obtain ⟨n, hts⟩ := expectSymbol_eq_ok hdot
  rw [hts]
  rfl

/-- What is made of a value leaves the same tokens. -/
theorem map_eq_ok {α β : Type} {g : α → β} {p : Parser α} {r : Parsed β} (h : (g <$> p) endLine ts = .ok r) :
    ∃ a, p endLine ts = .ok a ∧ r.value = g a.value ∧ r.rest = a.rest := by
  obtain ⟨a, b, ha, hb, rfl⟩ := Parser.bind_eq_ok_iff.1 h
  cases hb
  exact ⟨a, ha, rfl, rfl⟩

/-- A line that starts with another word than those of headers and terminators. -/
theorem unframed_of_ident {n : UInt32} (htokens : l.tokens = ⟨.ident w, n⟩ :: behind) (hw : Text.upper w ∉ frameWords) :
    ∀ word ∈ frameWords, l.leads word = false := by
  intro word hword
  rw [Bool.eq_false_iff, ne_eq, SourceLine.leads_iff htokens]
  rintro rfl
  exact hw hword

theorem not_frame_of_free (h : isTaken w = false) : Text.upper w ∉ frameWords := by
  intro hmem
  have htaken : isTaken w = true := by
    rw [isTaken]
    revert hmem
    generalize Text.upper w = word
    revert word
    decide
  rw [h] at htaken
  cases htaken

/-- **A statement without blocks** is its line. -/
theorem reads_simple {n m : UInt32} {s : Stmt} {used left : List Token} {mark : Symbol} (hl : l.Regular)
    (htokens : l.tokens = ⟨.ident w, n⟩ :: behind) (ht : Inner (.ident w)) (hw : Text.upper w ∉ frameWords)
    (hmark : atSymbol mark (behind ++ lineTokens rest) = true) (hmarks : mark = .assign ∨ mark = .dot)
    (hread : l.tokens ++ lineTokens rest = used ++ ⟨.symbol .semi, m⟩ :: left)
    (hused : ∀ u ∈ used, Inner u.content) (hsimple : s.all = [s]) (hline : s.line = n) :
    left = lineTokens rest ∧ ∀ hs, ∃ placed, Outlined hs (.block [s]) [l] placed := by
  obtain ⟨hsplit, rfl⟩ := rest_of_entry hl htokens ht hread hused
  suffices hholds : l.Holds s from ⟨rfl, fun hs => ⟨[(s, hs)], .simple hholds .nil⟩⟩
  refine ⟨unframed_of_ident htokens hw, ?_, hsimple, ?_⟩
  · -- the mark is on the line, since the line ends behind it
    have hbehind : behind ≠ [] := by
      rintro rfl
      rw [htokens] at hsplit
      cases used with
      | nil => cases hsplit
      | cons u used => simp at hsplit
    obtain ⟨b, bs, rfl⟩ := List.exists_cons_of_ne_nil hbehind
    rw [List.cons_append, atSymbol_cons mark b _ bs] at hmark
    rw [SourceLine.holdsStatement, htokens, List.tail_cons]
    rcases hmarks with rfl | rfl
    · rw [hmark, Bool.true_or]
    · rw [hmark, Bool.or_true]
  · rw [hline]
    exact hl.line ⟨.ident w, n⟩ (htokens ▸ List.mem_cons_self)

/-- **A call is its line**, up to its semicolon. -/
theorem reads_call {n : UInt32} {d : Parsed (DeviceOp × List Expr)} {semi : Parsed Unit} (hvalue : value.Spends Inner 1)
    (hl : l.Regular) (htokens : l.tokens = ⟨.ident w, n⟩ :: behind) (hw : Text.upper w = "DEVICE")
    (hd : deviceOp value endLine (⟨.ident w, n⟩ :: (behind ++ lineTokens rest)) = .ok d)
    (hsemi : expectSymbol .semi endLine d.rest = .ok semi) :
    semi.rest = lineTokens rest ∧ ∀ hs, ∃ placed, Outlined hs (.block [.call n d.value.1 d.value.2]) [l] placed := by
  have ht : Inner (.ident w) := expressionTokens_inner.word (by rw [hw]; decide)
  have hfree : Text.upper w ∉ frameWords := by
    rw [hw]
    decide
  obtain ⟨used, hread, hused⟩ := (spendsAt_deviceOp expressionTokens_inner hvalue ht endLine d hd).inner
  obtain ⟨m, hend⟩ := expectSymbol_eq_ok hsemi
  rw [hend, ← List.cons_append, ← htokens] at hread
  exact reads_simple hl htokens ht hfree (atDot_of_deviceOp hd) (.inr rfl) hread hused (by rw [Stmt.all]) rfl

/-- **An assignment is its line**, too. -/
theorem reads_assign {n : UInt32} {a : Parsed Stmt} (hvalue : value.Spends Inner 1) (hl : l.Regular)
    (htokens : l.tokens = ⟨.ident w, n⟩ :: behind) (hfree : isTaken w = false)
    (ha : assignment value w n endLine (⟨.ident w, n⟩ :: (behind ++ lineTokens rest)) = .ok a) :
    a.rest = lineTokens rest ∧ ∀ hs, ∃ placed, Outlined hs (.block [a.value]) [l] placed := by
  obtain ⟨m, mid, v, m', target, hmid, hv, hend, hstmt⟩ := assignment_eq_ok ha
  obtain ⟨used, hread, hused⟩ := (hvalue mid endLine v hv).inner
  have hall : ∀ u ∈ ⟨.ident w, n⟩ :: ⟨.symbol .assign, m⟩ :: used, Inner u.content :=
    List.forall_mem_cons.2 ⟨inner_of_free hfree, List.forall_mem_cons.2 ⟨⟨nofun, nofun⟩, hused⟩⟩
  have hsplit : l.tokens ++ lineTokens rest =
      ⟨.ident w, n⟩ :: ⟨.symbol .assign, m⟩ :: used ++ ⟨.symbol .semi, m'⟩ :: a.rest := by
    rw [htokens, List.cons_append, hmid, hread, hend, List.cons_append, List.cons_append]
  have hmark : atSymbol .assign (behind ++ lineTokens rest) = true := by
    rw [hmid]
    rfl
  rw [hstmt]
  exact reads_simple hl htokens (inner_of_free hfree) (not_frame_of_free hfree) hmark (.inl rfl) hsplit hall
    (by rw [Stmt.all]) rfl

/-- A statement of any kind takes whole lines. -/
theorem readsLines_statementOf {ifs whiles : UInt32 → Parser Stmt} (hifs : ReadsFrame "IF" ifs)
    (hwhiles : ReadsFrame "WHILE" whiles) (hvalue : value.Spends Inner 1) :
    ReadsLines (statementOf ifs whiles value) := by
  intro endLine ls t ts r hregular hts h
  obtain ⟨blanks, l, rest, behind, rfl, hblanks, hfront, hl, rfl⟩ := exists_front hts
  obtain ⟨hline, hrest⟩ := List.forall_mem_cons.1 (List.forall_mem_append.1 hregular).2
  suffices hown : ∃ used left, rest = used ++ left ∧ r.rest = lineTokens left ∧
      ∀ hs, ∃ placed, Outlined hs (.block r.value.toList) (l :: used) placed by
    obtain ⟨used, left, rfl, hleft, houtline⟩ := hown
    refine ⟨blanks ++ l :: used, left, by rw [List.append_assoc, List.cons_append], hleft, fun hs => ?_⟩
    obtain ⟨placed, hplaced⟩ := houtline hs
    exact ⟨placed, hplaced.idles hblanks⟩
  rw [statementOf, Parser.look_eq_ok_iff] at h
  rcases t with ⟨⟨word⟩ | _ | _ | _ | mark, n⟩
  case ident =>
    -- the word says what the statement is
    by_cases hif : spells "IF" word = true
    · simp only [if_pos hif] at h
      obtain ⟨a, ha, hsome, hleft⟩ := map_eq_ok h
      rw [hsome, hleft]
      exact hifs endLine l rest word n behind a hline hrest hl (upper_of_spells hif) (hfront ▸ ha)
    by_cases hwhile : spells "WHILE" word = true
    · simp only [if_neg hif, if_pos hwhile] at h
      obtain ⟨a, ha, hsome, hleft⟩ := map_eq_ok h
      rw [hsome, hleft]
      exact hwhiles endLine l rest word n behind a hline hrest hl (upper_of_spells hwhile) (hfront ▸ ha)
    by_cases hdevice : spells "DEVICE" word = true
    · simp only [if_neg hif, if_neg hwhile, if_pos hdevice] at h
      obtain ⟨d, r₁, hd, h₁, rfl⟩ := Parser.bind_eq_ok_iff.1 h
      obtain ⟨semi, r₂, hsemi, h₂, rfl⟩ := Parser.bind_eq_ok_iff.1 h₁
      cases h₂
      exact ⟨[], rest, rfl, reads_call hvalue hline hl (upper_of_spells hdevice) hd hsemi⟩
    by_cases htaken : isTaken word = true
    · simp only [if_neg hif, if_neg hwhile, if_neg hdevice, if_pos htaken] at h
      cases h
    · simp only [if_neg hif, if_neg hwhile, if_neg hdevice, if_neg htaken] at h
      obtain ⟨a, ha, hsome, hleft⟩ := map_eq_ok h
      rw [hsome, hleft]
      exact ⟨[], rest, rfl, reads_assign hvalue hline hl (Bool.eq_false_iff.2 htaken) ha⟩
  case symbol =>
    cases mark with
    | semi =>
      cases h
      have hidle := SourceLine.idle_of_semi hline hl
      have hform := hline.form
      rw [hl, List.map_cons] at hform
      refine ⟨[], rest, rfl, ?_, fun hs => ⟨[], .of_idles (List.forall_mem_singleton.2 hidle)⟩⟩
      rw [List.map_eq_nil_iff.1 hform.of_semi]
      rfl
    | _ => cases h
  all_goals cases h

/-- **Statements take whole lines.** -/
theorem readsLines_statement (levels : ℕ) : ReadsLines (statement levels) := by
  have hexpr := spends_expr expressionTokens_inner
  induction levels with
  | zero => exact readsLines_statementOf (readsFrame_tooDeep _) (readsFrame_tooDeep _) (hexpr 0)
  | succ levels ih =>
    exact readsLines_statementOf (readsFrame_conditional ih (hexpr levels)) (readsFrame_repetition ih (hexpr levels))
      (hexpr (levels + 1))

end Statements

section Declarations

variable {endLine : UInt32}

/-- A line of another word that does not go on like a statement. -/
theorem idle_of_ident {n : UInt32} (htokens : l.tokens = ⟨.ident w, n⟩ :: behind) (hw : Text.upper w ∉ frameWords)
    (hassign : atSymbol .assign behind = false) (hdot : atSymbol .dot behind = false) : l.Idle := by
  refine ⟨unframed_of_ident htokens hw, ?_⟩
  rw [SourceLine.holdsStatement, htokens, List.tail_cons, hassign, hdot, Bool.or_self]

/-- A declaration takes its line, which adds nothing to a block. -/
theorem lines_varEntry {r : Parsed Declaration} {line : UInt32} (hl : l.Regular)
    (htokens : l.tokens = t :: behind) (h : varEntry line endLine (lineTokens (l :: rest)) = .ok r) :
    l.Idle ∧ r.rest = lineTokens rest := by
  obtain ⟨name, n, colon, typeName, n', mid, init, semi, hts, hfree, htype, hinit, hend, -⟩ := varEntry_eq_ok h
  obtain ⟨used, hread, hused⟩ := (spends_initializer expressionTokens_inner mid endLine init hinit).inner
  rw [hread, hend, lineTokens_cons] at hts
  have ht : t = ⟨.ident name, n⟩ := by
    rw [htokens] at hts
    exact (List.cons.inj hts).1
  subst ht
  have htypeInner : Inner (.ident typeName) := by
    refine ⟨nofun, fun w heq => ?_⟩
    cases heq
    revert htype
    generalize Text.upper typeName = word
    revert word
    decide
  have hall : ∀ u ∈ ⟨.ident name, n⟩ :: ⟨.symbol .colon, colon⟩ :: ⟨.ident typeName, n'⟩ :: used, Inner u.content :=
    List.forall_mem_cons.2 ⟨inner_of_free hfree, List.forall_mem_cons.2 ⟨⟨nofun, nofun⟩,
      List.forall_mem_cons.2 ⟨htypeInner, hused⟩⟩⟩
  obtain ⟨hsplit, hleft⟩ := rest_of_entry hl htokens (inner_of_free hfree) hts hall
  exact ⟨idle_of_ident hsplit (not_frame_of_free hfree) rfl rfl, hleft⟩

/-- The lines of declarations, and of the end of their section. -/
theorem lines_varEntriesFrom {blockLine : UInt32} {decls : List Declaration} {uses : List Use}
    {r : Parsed (List Declaration)} (hregular : ∀ l ∈ ls, l.Regular) (hts : lineTokens ls = ts)
    (h : varEntriesFrom blockLine endLine decls uses ts = .ok r) :
    ∃ idles left, ls = idles ++ left ∧ (∀ l ∈ idles, l.Idle) ∧ r.rest = lineTokens left := by
  fun_induction varEntriesFrom blockLine endLine decls uses ts generalizing ls with
  | case1 | case3 => cases h
  | case2 decls uses t ts hend =>
    cases h
    obtain ⟨blanks, l, rest, behind, rfl, hblanks, -, hl, rfl⟩ := exists_front hts
    obtain ⟨hline, hrest⟩ := List.forall_mem_cons.1 (List.forall_mem_append.1 hregular).2
    obtain ⟨w, n, _, heq, hw⟩ := eq_cons_of_atKeyword hend
    cases heq
    have hterminator : Text.upper w ∈ terminators := by
      rw [hw]
      decide
    obtain ⟨idles, left, rfl, hidles, hleft⟩ := rest_of_terminator hline hl rfl hterminator hrest
    have hform := hline.form
    rw [hl, List.map_cons] at hform
    -- The line with `END_VAR` holds nothing else but a semicolon.
    have hidle : l.Idle := by
      refine idle_of_ident hl (hw ▸ by decide) ?_ ?_
      all_goals
        rcases hform.of_terminator hterminator with hnil | hsemi
        · rw [List.map_eq_nil_iff.1 hnil]
          rfl
        · obtain ⟨⟨_, m⟩, rfl, rfl⟩ := List.map_eq_singleton_iff.1 hsemi
          rfl
    refine ⟨blanks ++ l :: idles, left, by rw [List.append_assoc, List.cons_append], ?_, hleft⟩
    exact List.forall_mem_append.2 ⟨hblanks, List.forall_mem_cons.2 ⟨hidle, hidles⟩⟩
  | case4 decls uses t ts _ d hd hle ih =>
    obtain ⟨blanks, l, rest, behind, rfl, hblanks, hfront, hl, -⟩ := exists_front hts
    obtain ⟨hline, hrest⟩ := List.forall_mem_cons.1 (List.forall_mem_append.1 hregular).2
    obtain ⟨hidle, hleft⟩ := lines_varEntry hline hl (hfront ▸ hd)
    obtain ⟨idles, left, rfl, hidles, hleft'⟩ := ih hrest hleft.symm h
    refine ⟨blanks ++ l :: idles, left, by rw [List.append_assoc, List.cons_append], ?_, hleft'⟩
    exact List.forall_mem_append.2 ⟨hblanks, List.forall_mem_cons.2 ⟨hidle, hidles⟩⟩
  | case5 decls uses t ts _ d hd hle =>
    have hlength := (taken_varEntry programTokens_any hd).length
    rw [List.length_cons] at hlength
    omega

/-- The lines of a section of declarations. -/
theorem lines_varSection {r : Parsed (List Declaration)} (hregular : ∀ l ∈ ls, l.Regular)
    (h : varSection endLine (lineTokens ls) = .ok r) :
    ∃ idles left, ls = idles ++ left ∧ (∀ l ∈ idles, l.Idle) ∧ r.rest = lineTokens left := by
  obtain ⟨line, r₁, hline, h₁, rfl⟩ := Parser.bind_eq_ok_iff.1 h
  cases hline
  obtain ⟨word, r₂, hword, h₂, rfl⟩ := Parser.bind_eq_ok_iff.1 h₁
  obtain ⟨w, n, hts, hw⟩ := takeKeyword_eq_ok hword
  obtain ⟨blanks, l, rest, behind, rfl, hblanks, -, hl, hbehind⟩ := exists_front hts
  obtain ⟨hline, hrest⟩ := List.forall_mem_cons.1 (List.forall_mem_append.1 hregular).2
  have hform := hline.form
  rw [hl, List.map_cons] at hform
  have hlone : Text.upper w ∈ ["VAR", "ELSE"] := by
    rw [hw]
    decide
  have hnil : behind = [] := List.map_eq_nil_iff.1 (hform.of_lone hlone)
  rw [hnil, List.nil_append] at hbehind
  obtain ⟨idles, left, rfl, hidles, hleft⟩ := lines_varEntriesFrom hrest hbehind.symm h₂
  have hidle : l.Idle := idle_of_ident hl (hw ▸ by decide) (by rw [hnil]; rfl) (by rw [hnil]; rfl)
  refine ⟨blanks ++ l :: idles, left, by rw [List.append_assoc, List.cons_append], ?_, hleft⟩
  exact List.forall_mem_append.2 ⟨hblanks, List.forall_mem_cons.2 ⟨hidle, hidles⟩⟩

end Declarations

/-- **The lines of a text** have the outline of its statements. -/
theorem outlined_itemsFrom {endLine : UInt32} {items : Items} {uses : List Use} {r : Parsed Items}
    (hregular : ∀ l ∈ ls, l.Regular) (hts : lineTokens ls = ts) (h : itemsFrom endLine items uses ts = .ok r) :
    ∃ own, r.value.body = items.body ++ own ∧ ∃ placed, Outlined hs (.block own) ls placed := by
  fun_induction itemsFrom endLine items uses ts generalizing ls with
  | case1 items uses =>
    cases h
    refine ⟨[], (List.append_nil _).symm, [], .of_idles fun l hl => SourceLine.idle_of_nil ?_⟩
    exact List.flatMap_eq_nil_iff.1 hts l hl
  | case2 | case5 => cases h
  | case3 items uses t ts _ vars hvars hle ih =>
    obtain ⟨idles, left, rfl, hidles, hleft⟩ := lines_varSection hregular (hts ▸ hvars)
    obtain ⟨own, hbody, placed, houtline⟩ := ih (List.forall_mem_append.1 hregular).2 hleft.symm h
    exact ⟨own, hbody, placed, houtline.idles hidles⟩
  | case4 items uses t ts _ vars hvars hle =>
    have hlength := (taken_varSection programTokens_any hvars).1.length
    rw [List.length_cons] at hlength
    omega
  | case6 items uses t ts _ s hs' hle ih =>
    obtain ⟨used, left, rfl, hleft, houtline⟩ := readsLines_statement nestingLimit endLine ls t ts s hregular hts hs'
    obtain ⟨own, hbody, placed, hplaced⟩ := ih (List.forall_mem_append.1 hregular).2 hleft.symm h
    obtain ⟨placed', hplaced'⟩ := houtline hs
    exact ⟨s.value.toList ++ own, by rw [hbody, List.append_assoc], placed' ++ placed, hplaced'.append hplaced⟩
  | case7 items uses t ts _ s hs' hle =>
    have hlength := (spendsAt_statement programTokens_any.toStatementTokens nestingLimit t ts endLine s hs').length
    rw [List.length_cons] at hlength
    omega

/-- A line that is laid out plainly has its number on its tokens, as there is no line feed in it. -/
theorem SourceLine.Plain.regular (h : l.Plain) (hline : '\n' ∉ l.text) : l.Regular := by
  refine ⟨h.form, fun t ht => UInt32.toNat_inj.1 ?_⟩
  have hreported : Reported (tokensFrom l.number l.text) t.line := by
    rw [h.tokensFrom_eq]
    exact ⟨t, ht, rfl⟩
  have hcount : l.text.count '\n' = 0 := List.count_eq_zero.2 hline
  have hbounds := bounds_of_reported hreported (by rw [hcount]; exact l.number.toNat_lt)
  omega

/-- **Every program that is plainly laid out** has an outline of its lines. -/
theorem exists_outline {source : String} {p : Program} (h : compile source = .ok p) (hplain : PlainlyLaidOut source) :
    ∃ placed, Outlined [] (.block p.body) (sourceLines source) placed := by
  obtain ⟨tokens, htokens, h⟩ := bind_eq_ok.1 h
  cases (tokenize_lines hplain.lines).symm.trans htokens
  rw [compileTokens] at h
  obtain ⟨parsed, hparsed, h⟩ := bind_eq_ok.1 h
  obtain ⟨_, -, h⟩ := bind_eq_ok.1 h
  obtain ⟨_, -, h⟩ := bind_eq_ok.1 h
  cases h
  have hregular (l : SourceLine) (hl : l ∈ sourceLines source) : l.Regular :=
    (hplain.lines l hl).regular (infix_of_mem_lineChars (mem_lineChars_of_mem hl)).2
  obtain ⟨own, hbody, placed, houtline⟩ : ∃ own, parsed.value.body = [] ++ own ∧
      ∃ placed, Outlined [] (.block own) (sourceLines source) placed := outlined_itemsFrom hregular rfl hparsed
  rw [List.nil_append] at hbody
  exact ⟨placed, hbody ▸ houtline⟩

end Switchyard.Script

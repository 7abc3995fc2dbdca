import Switchyard.Proofs.Script.LetterCase.Expressions

/-!
# Programs in another letter case

The parsers of statements and declarations do not see letter case either. Of a declared name they keep the spelling,
and the key, which is in upper case (`Declaration.Recased`). The checks see keys, types, initializers and lines, so
they agree as well: texts in different letter case are refused on the same line, or have programs with the same
statements and with declarations that differ in the spelling of names (`concur_compile`).

* `blind_statement`, `concur_varSection`: statements and declarations.
* `Program.Recased`: programs in another letter case.
-/

namespace Switchyard.Script

open Switchyard.Script.Parser (remaining skip failAt fail lineAt lineHere peek)

variable {α β : Type} {ts ts' : List Token} {t t' : Token} {word word' : String}

theorem SameWords.any_atKeyword_eq (h : SameWords ts ts') (keywords : List String) :
    keywords.any (atKeyword · ts') = keywords.any (atKeyword · ts) := by
  have hsame : (atKeyword · ts') = (atKeyword · ts) := funext fun keyword => h.atKeyword_eq keyword
  rw [hsame]

/-- The statements of a block are read alike, whatever was seen before them. -/
theorem concur_blockFrom {ts ts' : List Token} {stmt : Parser (Option Stmt)} (hstmt : stmt.Blind)
    {terminators : List String} {endLine : UInt32} {stmts : List Stmt} {uses uses' : List Use} (hts : SameWords ts ts')
    (huses : uses'.map Use.sight = uses.map Use.sight) :
    Concur (Parsed.Recased Eq) (blockFrom stmt terminators endLine stmts uses ts)
      (blockFrom stmt terminators endLine stmts uses' ts') := by
  match ts, ts', hts with
  | [], [], .nil =>
    rw [blockFrom, blockFrom]
    exact ⟨rfl, huses, .nil⟩
  | t :: ts, t' :: ts', .cons ht htail =>
    have hts : SameWords (t :: ts) (t' :: ts') := .cons ht htail
    rw [blockFrom, blockFrom]
    refine .ite (by rw [hts.any_atKeyword_eq]) (fun _ => ⟨rfl, huses, hts⟩) fun _ =>
      .ite (by rw [hts.atKeyword_eq]) (fun _ => congrArg some ht.line_eq) fun _ => ?_
    rcases (hstmt _ _ hts endLine).cases with ⟨e, e', hs, hs', hline⟩ | ⟨s, s', hs, hs', hread⟩
    · rw [hs, hs']
      exact hline
    simp only [hs, hs', ← hread.value]
    have huses := sights_append huses hread.sights
    refine .ite (by rw [hread.rest.length_eq, htail.length_eq]) (fun hle => ?_) fun _ => ⟨rfl, huses, hread.rest⟩
    exact concur_blockFrom hstmt hread.rest huses
  termination_by ts.length
  decreasing_by simp only [List.length_cons]; omega

/-- A block does not see letter case, and neither does the search for its end. -/
theorem blind_block {stmt : Parser (Option Stmt)} (hstmt : stmt.Blind) (terminators : List String) (line : UInt32)
    (unterminated : CompileFault) : (block stmt terminators line unterminated).Blind := by
  intro ts ts' h
  refine .bind (R := Eq) (fun endLine => concur_blockFrom hstmt h rfl) fun stmts stmts' mid mid' hstmts hmid => ?_
  subst hstmts
  cases stmts with
  | none => exact .failAt rfl _ _
  | some stmts => exact .pure rfl hmid

theorem blind_arm {stmt : Parser (Option Stmt)} {cond : Parser Expr} (hstmt : stmt.Blind) (hcond : cond.Blind)
    (line : UInt32) : (arm stmt cond line).Blind := by
  intro ts ts' h
  refine .next hcond h fun c mid mid' hmid => .next (blind_takeKeyword "THEN") hmid fun _ rest rest' hrest => ?_
  exact .next (blind_block hstmt _ line _) hrest fun body _ _ hleft => .pure rfl hleft

/-- The alternatives of a conditional are read alike, whatever was seen before them. -/
theorem concur_armsFrom {ts ts' : List Token} {stmt : Parser (Option Stmt)} {cond : Parser Expr} (hstmt : stmt.Blind)
    (hcond : cond.Blind) {line endLine : UInt32} {arms : List (Expr × List Stmt)} {uses uses' : List Use}
    (hts : SameWords ts ts') (huses : uses'.map Use.sight = uses.map Use.sight) :
    Concur (Parsed.Recased Eq) (armsFrom stmt cond line endLine arms uses ts)
      (armsFrom stmt cond line endLine arms uses' ts') := by
  match ts, ts', hts with
  | [], [], .nil =>
    rw [armsFrom, armsFrom]
    exact rfl
  | t :: ts, t' :: ts', .cons ht htail =>
    have hts : SameWords (t :: ts) (t' :: ts') := .cons ht htail
    rw [armsFrom, armsFrom]
    refine .ite (by rw [hts.atKeyword_eq]) (fun _ => ?_) fun _ => .ite (by rw [hts.atKeyword_eq]) (fun _ => ?_) fun _ =>
      ⟨rfl, huses, hts⟩
    · rcases (blind_arm hstmt hcond line _ _ htail endLine).cases with
        ⟨e, e', ha, ha', hline⟩ | ⟨a, a', ha, ha', hread⟩
      · rw [ha, ha']
        exact hline
      simp only [ha, ha', ← hread.value]
      refine .ite (by rw [hread.rest.length_eq, htail.length_eq]) (fun hle => ?_) fun _ => rfl
      exact concur_armsFrom hstmt hcond hread.rest (sights_append huses hread.sights)
    · rcases (blind_block hstmt ["END_IF"] line .unterminatedIf _ _ htail endLine).cases with
        ⟨e, e', hbody, hbody', hline⟩ | ⟨body, body', hbody, hbody', hread⟩
      · rw [hbody, hbody']
        exact hline
      simp only [hbody, hbody', ← hread.value]
      exact ⟨rfl, sights_append huses hread.sights, hread.rest⟩
  termination_by ts.length
  decreasing_by simp only [List.length_cons]; omega

/-- A conditional does not see letter case if its conditions and statements do not. -/
theorem blind_conditional {stmt : Parser (Option Stmt)} {cond : Parser Expr} (hstmt : stmt.Blind) (hcond : cond.Blind)
    (line : UInt32) : (conditional stmt cond line).Blind := by
  intro ts ts' h
  refine .next (blind_takeKeyword "IF") h fun _ mid mid' hmid => .next (blind_arm hstmt hcond line) hmid
    fun first rest rest' hrest => ?_
  refine .bind (R := Eq) (fun endLine => concur_armsFrom hstmt hcond hrest rfl)
    fun arms arms' left left' harms hleft => ?_
  subst harms
  exact .next (blind_takeKeyword "END_IF") hleft fun _ _ _ hend =>
    .next blind_optionalSemicolon hend fun _ _ _ hafter => .pure rfl hafter

/-- Neither does a loop. -/
theorem blind_repetition {stmt : Parser (Option Stmt)} {cond : Parser Expr} (hstmt : stmt.Blind) (hcond : cond.Blind)
    (line : UInt32) : (repetition stmt cond line).Blind := by
  intro ts ts' h
  refine .next (blind_takeKeyword "WHILE") h fun _ mid mid' hmid => .next hcond hmid fun c rest rest' hrest =>
    .next (blind_takeKeyword "DO") hrest fun _ left left' hleft => ?_
  exact .next (blind_block hstmt _ line _) hleft fun body _ _ hbody => .next (blind_takeKeyword "END_WHILE") hbody
    fun _ _ _ hend => .next blind_optionalSemicolon hend fun _ _ _ hafter => .pure rfl hafter

/-- An assignment is to the same key in any letter case. -/
theorem concur_assignment {value : Parser Expr} (hvalue : value.Blind) (hword : Text.upper word' = Text.upper word)
    (line : UInt32) (h : SameWords ts ts') :
    ConcurAt Eq (assignment value word line) (t :: ts) (assignment value word' line) (t' :: ts') := by
  refine .drop (.look (.ite (by rw [h.atSymbol_eq]) ?_ (.failAt rfl _ _)))
  refine .next blind_skip h fun _ mid mid' hmid => .use hword rfl false fun target => ?_
  exact .next hvalue hmid fun v rest rest' hrest => .next (blind_expectSymbol .semi) hrest fun _ _ _ hleft =>
    .pure rfl hleft

/-- **Words at the start of a statement** are compared in upper case. -/
theorem concur_statementOf {ifs whiles : UInt32 → Parser Stmt} {value : Parser Expr} (hifs : ∀ line, (ifs line).Blind)
    (hwhiles : ∀ line, (whiles line).Blind) (hvalue : value.Blind) (hword : Text.upper word' = Text.upper word)
    (line : UInt32) (h : SameWords ts ts') :
    ConcurAt Eq (statementOf ifs whiles value) (⟨.ident word, line⟩ :: ts) (statementOf ifs whiles value)
      (⟨.ident word', line⟩ :: ts') := by
  have ht : Token.Recased ⟨.ident word, line⟩ ⟨.ident word', line⟩ := .word hword line
  have hspells (keyword : String) : spells keyword word' = true ↔ spells keyword word = true := by
    rw [spells_of_upper hword]
  refine .look (.ite (hspells "IF") ?_ (.ite (hspells "WHILE") ?_ (.ite (hspells "DEVICE") ?_ (.ite
    (by rw [isTaken_of_upper hword]) (.failAt rfl _ _) ?_))))
  · exact (hifs line).map _ _ _ (.cons ht h)
  · exact (hwhiles line).map _ _ _ (.cons ht h)
  · refine (concur_deviceOp hvalue ht h).bind fun call call' mid mid' hcall hmid => ?_
    subst hcall
    exact .next (blind_expectSymbol .semi) hmid fun _ _ _ hrest => .pure rfl hrest
  · exact (concur_assignment hvalue hword line h).map

/-- A statement of any kind does not see letter case. -/
theorem blind_statementOf {ifs whiles : UInt32 → Parser Stmt} {value : Parser Expr} (hifs : ∀ line, (ifs line).Blind)
    (hwhiles : ∀ line, (whiles line).Blind) (hvalue : value.Blind) : (statementOf ifs whiles value).Blind := by
  intro ts ts' h
  cases h with
  | nil => exact .look (.pure rfl .nil)
  | @cons t _ ts ts' ht hts =>
    cases ht with
    | same =>
      obtain ⟨content, line⟩ := t
      cases content with
      | ident word => exact concur_statementOf hifs hwhiles hvalue rfl line hts
      | int | real | text => exact .look (.fail _ _ (.cons (.same _) hts))
      | symbol s =>
        cases s with
        | semi => exact .look (.drop (.pure rfl hts))
        | _ => exact .look (.fail _ _ (.cons (.same _) hts))
    | word hword line => exact concur_statementOf hifs hwhiles hvalue hword line hts

/-- **Statements** do not depend on letter case. -/
theorem blind_statement (levels : ℕ) : (statement levels).Blind := by
  induction levels with
  | zero => exact blind_statementOf (fun _ => blind_tooDeep) (fun _ => blind_tooDeep) (blind_expr 0)
  | succ levels ih =>
    exact blind_statementOf (blind_conditional ih (blind_expr levels)) (blind_repetition ih (blind_expr levels))
      (blind_expr (levels + 1))

/-- **Declarations in another letter case**: the name may be spelled differently, and nothing else. -/
structure Declaration.Recased (d d' : Declaration) : Prop where
  name : Text.upper d'.name = Text.upper d.name
  key : d'.key = d.key
  type : d'.type = d.type
  init : d'.init = d.init
  line : d'.line = d.line

/-- The constants of states are told from other variables by their keys. -/
theorem Declaration.Recased.isStateName_eq {d d' : Declaration} (h : d.Recased d') :
    d'.isStateName = d.isStateName := by
  rw [Declaration.isStateName, Declaration.isStateName, h.key, h.type, h.init]

theorem blind_entrySymbol (line : UInt32) (s : Symbol) : (entrySymbol line s).Blind :=
  fun _ _ h => .look (.ite (by rw [h.atSymbol_eq]) (blind_skip _ _ h) (.failAt rfl _ _))

/-- The word of an entry may be spelled differently. -/
theorem concur_entryWord (line : UInt32) (h : SameWords ts ts') :
    ConcurAt (fun word word' => Text.upper word' = Text.upper word) (entryWord line) ts (entryWord line) ts' := by
  refine .look ?_
  rcases h.front with ⟨word, word', hpeek, hpeek', hword⟩ | ⟨hsame, hnone⟩
  · rw [hpeek, hpeek']
    exact .next blind_skip h fun _ _ _ hmid => .pure hword hmid
  · rw [hsame]
    split
    · rename_i word hpeek
      exact absurd hpeek (hnone word)
    · exact .failAt rfl _ _

theorem blind_initializer : initializer.Blind := by
  intro ts ts' h
  refine .look (.ite (by rw [h.atSymbol_eq]) ?_ (.pure rfl h))
  exact .next blind_skip h fun _ mid mid' hmid => (blind_expr nestingLimit).map _ mid mid' hmid

/-- Declarations differ by the spelling of their names only. -/
theorem concur_varEntry (line : UInt32) (h : SameWords ts ts') :
    ConcurAt Declaration.Recased (varEntry line) ts (varEntry line) ts' := by
  refine (concur_entryWord line h).bind fun name name' mid mid' hname hmid =>
    .ite (by rw [isTaken_of_upper hname]) (.failAt rfl _ _) ?_
  refine .next (blind_entrySymbol line .colon) hmid fun _ rest rest' hrest =>
    (concur_entryWord line hrest).bind fun type type' left left' htype hleft => ?_
  rw [TypeName.ofName?, TypeName.ofName?, htype]
  split
  · exact .failAt rfl _ _
  · exact .next blind_initializer hleft fun init _ _ hinit => .next (blind_entrySymbol line .semi) hinit
      fun _ _ _ hafter => .pure ⟨hname, hname, rfl, rfl, rfl⟩ hafter

/-- The declarations of a section are read alike, whatever was seen before them. -/
theorem concur_varEntriesFrom {ts ts' : List Token} {blockLine endLine : UInt32} {decls decls' : List Declaration}
    {uses uses' : List Use} (hts : SameWords ts ts') (hdecls : List.Forall₂ Declaration.Recased decls decls')
    (huses : uses'.map Use.sight = uses.map Use.sight) :
    Concur (Parsed.Recased (List.Forall₂ Declaration.Recased)) (varEntriesFrom blockLine endLine decls uses ts)
      (varEntriesFrom blockLine endLine decls' uses' ts') := by
  match ts, ts', hts with
  | [], [], .nil =>
    rw [varEntriesFrom, varEntriesFrom]
    exact rfl
  | t :: ts, t' :: ts', .cons ht htail =>
    have hts : SameWords (t :: ts) (t' :: ts') := .cons ht htail
    rw [varEntriesFrom, varEntriesFrom, ht.line_eq]
    refine .ite (by rw [hts.atKeyword_eq]) (fun _ => ⟨hdecls, huses, ?_⟩) fun _ => ?_
    · rw [SameWords.atSymbol_eq htail]
      split
      · exact SameWords.tail htail
      · exact htail
    · rcases (concur_varEntry t.line hts endLine).cases with ⟨e, e', hd, hd', hline⟩ | ⟨d, d', hd, hd', hread⟩
      · rw [hd, hd']
        exact hline
      simp only [hd, hd']
      have hdecls := List.rel_append hdecls (.cons hread.value .nil)
      have huses := sights_append huses hread.sights
      refine .ite (by rw [hread.rest.length_eq, htail.length_eq]) (fun hle => ?_) fun _ => ⟨hdecls, huses, hread.rest⟩
      exact concur_varEntriesFrom hread.rest hdecls huses
  termination_by ts.length
  decreasing_by simp only [List.length_cons]; omega

/-- **Declarations** do not depend on letter case, but for the names. -/
theorem concur_varSection (ht : t.Recased t') (h : SameWords ts ts') :
    ConcurAt (List.Forall₂ Declaration.Recased) varSection (t :: ts) varSection (t' :: ts') := by
  refine .step (fun _ => rfl) (fun _ => rfl) rfl (.next (blind_takeKeyword "VAR") (.cons ht h)
    fun _ mid mid' hmid endLine => ?_)
  change Concur _ (varEntriesFrom t.line endLine [] [] mid) (varEntriesFrom t'.line endLine [] [] mid')
  rw [ht.line_eq]
  exact concur_varEntriesFrom hmid .nil rfl

/-- Declarations that differ in the letter case of names, and the same statements. -/
structure Items.Recased (items items' : Items) : Prop where
  vars : List.Forall₂ Declaration.Recased items.vars items'.vars
  body : items'.body = items.body

/-- The declarations and statements of a text are read alike, whatever was seen before them. -/
theorem concur_itemsFrom {ts ts' : List Token} {endLine : UInt32} {items items' : Items} {uses uses' : List Use}
    (hts : SameWords ts ts') (hitems : items.Recased items') (huses : uses'.map Use.sight = uses.map Use.sight) :
    Concur (Parsed.Recased Items.Recased) (itemsFrom endLine items uses ts) (itemsFrom endLine items' uses' ts') := by
  match ts, ts', hts with
  | [], [], .nil =>
    rw [itemsFrom, itemsFrom]
    exact ⟨hitems, huses, .nil⟩
  | t :: ts, t' :: ts', .cons ht htail =>
    have hts : SameWords (t :: ts) (t' :: ts') := .cons ht htail
    rw [itemsFrom, itemsFrom]
    refine .ite (by rw [hts.atKeyword_eq]) (fun _ => ?_) fun _ => ?_
    · rcases (concur_varSection ht htail endLine).cases with
        ⟨e, e', hvars, hvars', hline⟩ | ⟨vars, vars', hvars, hvars', hread⟩
      · rw [hvars, hvars']
        exact hline
      simp only [hvars, hvars']
      refine .ite (by rw [hread.rest.length_eq, htail.length_eq]) (fun hle => ?_) fun _ => ⟨hitems, huses, hread.rest⟩
      exact concur_itemsFrom hread.rest ⟨List.rel_append hitems.vars hread.value, hitems.body⟩
        (sights_append huses hread.sights)
    · rcases (blind_statement nestingLimit _ _ hts endLine).cases with
        ⟨e, e', hs, hs', hline⟩ | ⟨s, s', hs, hs', hread⟩
      · rw [hs, hs']
        exact hline
      simp only [hs, hs']
      refine .ite (by rw [hread.rest.length_eq, htail.length_eq]) (fun hle => ?_) fun _ => ⟨hitems, huses, hread.rest⟩
      have hbody : items'.body ++ s'.value.toList = items.body ++ s.value.toList := by rw [hitems.body, hread.value]
      exact concur_itemsFrom hread.rest ⟨hitems.vars, hbody⟩ (sights_append huses hread.sights)
  termination_by ts.length
  decreasing_by all_goals simp only [List.length_cons]; omega

/-- A search by what related elements have in common finds related elements, or nothing in both lists. -/
theorem find?_related {R : α → α → Prop} {q : α → Bool} (hq : ∀ a a', R a a' → q a' = q a) {as as' : List α}
    (h : List.Forall₂ R as as') :
    as.find? q = none ∧ as'.find? q = none ∨ ∃ a a', as.find? q = some a ∧ as'.find? q = some a' ∧ R a a' := by
  induction h with
  | nil => exact .inl ⟨rfl, rfl⟩
  | @cons a a' as as' ha _ ih =>
    rw [List.find?_cons, List.find?_cons, hq a a' ha]
    cases q a with
    | true => exact .inr ⟨a, a', rfl, rfl, ha⟩
    | false => exact ih

/-- A variable that is declared twice is found in any letter case. -/
theorem concur_checkDeclarations {vars vars' : List Declaration} (h : List.Forall₂ Declaration.Recased vars vars')
    (seen : List String) : Concur Eq (checkDeclarations seen vars) (checkDeclarations seen vars') := by
  induction h generalizing seen with
  | nil => exact rfl
  | @cons d d' vars vars' hd _ ih =>
    rw [checkDeclarations, checkDeclarations, hd.key, hd.init]
    split
    · exact congrArg some hd.line
    · split
      · exact congrArg some hd.line
      · exact ih _

theorem concur_checkUse {vars vars' : List Declaration} (h : List.Forall₂ Declaration.Recased vars vars') {u u' : Use}
    (hu : u'.sight = u.sight) : Concur Eq (checkUse vars u) (checkUse vars' u') := by
  simp only [Use.sight, Prod.mk.injEq] at hu
  obtain ⟨hkey, hstep, hline⟩ := hu
  rw [checkUse, checkUse, hkey, hstep]
  rcases find?_related (q := fun d => d.key == u.key) (fun _ _ hd => by rw [hd.key]) h with
    ⟨hd, hd'⟩ | ⟨d, d', hd, hd', hrecased⟩
  · rw [declared?, declared?, hd, hd']
    exact congrArg some hline
  · rw [declared?, declared?, hd, hd']
    simp only [hrecased.isStateName_eq]
    split
    · exact congrArg some hline
    · exact rfl

/-- A variable that is not declared is found in any letter case. -/
theorem concur_allDeclared {vars vars' : List Declaration} (h : List.Forall₂ Declaration.Recased vars vars')
    {uses uses' : List Use} (huses : uses'.map Use.sight = uses.map Use.sight) :
    Concur Eq (allDeclared vars uses) (allDeclared vars' uses') := by
  induction uses generalizing uses' with
  | nil =>
    rw [List.map_nil, List.map_eq_nil_iff] at huses
    rw [huses]
    exact rfl
  | cons u us ih =>
    obtain ⟨u', us', rfl, hu, hus⟩ := List.map_eq_cons_iff.1 huses
    rw [allDeclared, allDeclared]
    rcases (concur_checkUse h hu).cases with ⟨e, e', hfirst, hfirst', hline⟩ | ⟨_, _, hfirst, hfirst', -⟩
    · rw [hfirst, hfirst']
      exact hline
    · rw [hfirst, hfirst']
      exact ih hus

/-- **Programs in another letter case**: the same statements, and declarations that differ in the spelling of names. -/
structure Program.Recased (p p' : Program) : Prop where
  vars : List.Forall₂ Declaration.Recased p.vars p'.vars
  body : p'.body = p.body

theorem lastLine_eq (h : SameWords ts ts') : lastLine ts' = lastLine ts := by
  have hlines : ts'.map Token.line = ts.map Token.line := by
    induction h with
    | nil => rfl
    | cons ht _ ih => rw [List.map_cons, List.map_cons, ht.line_eq, ih]
  rw [lastLine, lastLine, ← List.getLast?_map, ← List.getLast?_map, hlines]

/-- **Compiled alike.** Texts whose tokens differ in letter case are refused on the same line, or have programs that
differ in letter case. -/
theorem concur_compile {source source' : String} (h : tokenize source = .ok ts) (h' : tokenize source' = .ok ts')
    (hts : SameWords ts ts') : Concur Program.Recased (compile source) (compile source') := by
  have hitems : Concur (Parsed.Recased Items.Recased) (itemsFrom (lastLine ts) ⟨[], []⟩ [] ts)
      (itemsFrom (lastLine ts') ⟨[], []⟩ [] ts') := by
    rw [lastLine_eq hts]
    exact concur_itemsFrom hts ⟨.nil, rfl⟩ rfl
  rw [compile, compile, h, h']
  change Concur _ (compileTokens source ts) (compileTokens source' ts')
  refine hitems.bind fun items items' hread => (concur_checkDeclarations hread.value.vars []).bind fun _ _ _ =>
    (concur_allDeclared hread.value.vars hread.sights).bind fun _ _ _ => ?_
  have hprograms : Program.Recased ⟨source, items.value.vars, items.value.body⟩
      ⟨source', items'.value.vars, items'.value.body⟩ := ⟨hread.value.vars, hread.value.body⟩
  exact hprograms

end Switchyard.Script

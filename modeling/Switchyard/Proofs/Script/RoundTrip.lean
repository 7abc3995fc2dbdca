import Switchyard.Proofs.Script.Precedence

/-!
# Programs are read back

A program of the grammar that passes the checks is the program that its text compiles
to, each statement on the line that it was written on, unless the compiler gives up on
the nesting (`compile_render`). It does not give up when expressions are at most 30
deep and blocks nest at most 60 deep.

* `Recovers`: a statement is read back by a parser of statements.
* `recovers_statement`: every statement of the grammar is, on each level of nesting.
-/

namespace Switchyard.Script

open Switchyard.Script.Parser (Reads)

variable {β : Type} {vars : List Declaration} {F : Prop}

mutual

/-- How deep the blocks of a statement nest. -/
def Stmt.nesting : Stmt → ℕ
  | .assign _ _ _ | .call _ _ _ => 0
  | .choose _ arms => 1 + arms.nesting
  | .loop _ _ body => 1 + blockNesting body

def Arms.nesting : Arms → ℕ
  | .none => 0
  | .otherwise body => blockNesting body
  | .arm _ body rest => max (blockNesting body) rest.nesting

def blockNesting : List Stmt → ℕ
  | [] => 0
  | s :: ss => max s.nesting (blockNesting ss)

end

mutual

/-- How deep the expressions of a statement are. -/
def Stmt.exprDepth : Stmt → ℕ
  | .assign _ _ value => value.depth
  | .call _ _ args => Expr.maxDepth args
  | .choose _ arms => arms.exprDepth
  | .loop _ cond body => max cond.depth (blockExprDepth body)

def Arms.exprDepth : Arms → ℕ
  | .none => 0
  | .otherwise body => blockExprDepth body
  | .arm cond body rest => max cond.depth (max (blockExprDepth body) rest.exprDepth)

def blockExprDepth : List Stmt → ℕ
  | [] => 0
  | s :: ss => max s.exprDepth (blockExprDepth ss)

end

/-- A statement fits into a number of levels: each block takes one of them, and so does each step
down an expression. -/
def Stmt.Fits (levels : ℕ) (s : Stmt) : Prop := s.nesting + s.exprDepth ≤ levels ∧ s.exprDepth ≤ nestingLimit

/-- A statement nests no deeper than its block. -/
theorem nesting_le_block {s : Stmt} {ss : List Stmt} (h : s ∈ ss) :
    s.nesting ≤ blockNesting ss ∧ s.exprDepth ≤ blockExprDepth ss := by
  induction ss with
  | nil => cases h
  | cons s' ss ih =>
    rw [blockNesting, blockExprDepth]
    rcases List.mem_cons.1 h with rfl | h
    · omega
    · have hss := ih h
      omega

/-- An alternative nests no deeper than the whole conditional. -/
theorem nesting_le_branch {arms : Arms} {arm : Expr × List Stmt} (h : arm ∈ arms.branches) :
    blockNesting arm.2 ≤ arms.nesting ∧ arm.1.depth ≤ arms.exprDepth ∧ blockExprDepth arm.2 ≤ arms.exprDepth := by
  match arms with
  | .none | .otherwise body => cases h
  | .arm c body rest =>
    rw [Arms.branches] at h
    rw [Arms.nesting, Arms.exprDepth]
    rcases List.mem_cons.1 h with rfl | h
    · change blockNesting body ≤ _ ∧ c.depth ≤ _ ∧ blockExprDepth body ≤ _
      omega
    · have hrest := nesting_le_branch h
      omega

/-- The last block nests no deeper than the whole conditional. -/
theorem nesting_le_last {arms : Arms} {body : List Stmt} (h : arms.last? = some body) :
    blockNesting body ≤ arms.nesting ∧ blockExprDepth body ≤ arms.exprDepth := by
  match arms with
  | .none => cases h
  | .otherwise body =>
    cases h
    exact ⟨le_rfl, le_rfl⟩
  | .arm _ _ rest =>
    have hrest := nesting_le_last (show rest.last? = some body from h)
    rw [Arms.nesting, Arms.exprDepth]
    omega

namespace Stmt.Fits

variable {l : UInt32} {levels : ℕ}

/-- What fits into a number of levels leaves its blocks one level less. -/
theorem block {s : Stmt} {body : List Stmt} (h : s.Fits (levels + 1)) (hnesting : 1 + blockNesting body ≤ s.nesting)
    (hdepth : blockExprDepth body ≤ s.exprDepth) : ∀ s' ∈ body, s'.Fits levels := by
  intro s' hs'
  have hle := nesting_le_block hs'
  obtain ⟨hlevels, hlimit⟩ := h
  exact ⟨by omega, by omega⟩

/-- An alternative of a conditional fits one level below it. -/
theorem branch {arms : Arms} {arm : Expr × List Stmt} (h : (Stmt.choose l arms).Fits (levels + 1))
    (harm : arm ∈ arms.branches) :
    (arm.1.depth ≤ levels ∧ arm.1.depth ≤ nestingLimit) ∧ ∀ s ∈ arm.2, s.Fits levels := by
  have hle := nesting_le_branch harm
  have hnesting : (Stmt.choose l arms).nesting = 1 + arms.nesting := by rw [Stmt.nesting]
  have hdepth : (Stmt.choose l arms).exprDepth = arms.exprDepth := by rw [Stmt.exprDepth]
  refine ⟨?_, h.block (by omega) (by omega)⟩
  obtain ⟨hlevels, hlimit⟩ := h
  exact ⟨by omega, by omega⟩

/-- The last block of a conditional fits one level below it. -/
theorem last {arms : Arms} {body : List Stmt} (h : (Stmt.choose l arms).Fits (levels + 1))
    (hbody : arms.last? = some body) : ∀ s ∈ body, s.Fits levels := by
  have hle := nesting_le_last hbody
  have hnesting : (Stmt.choose l arms).nesting = 1 + arms.nesting := by rw [Stmt.nesting]
  have hdepth : (Stmt.choose l arms).exprDepth = arms.exprDepth := by rw [Stmt.exprDepth]
  exact h.block (by omega) (by omega)

/-- The block of a loop fits one level below it. -/
theorem loop {cond : Expr} {body : List Stmt} (h : (Stmt.loop l cond body).Fits (levels + 1)) :
    (cond.depth ≤ levels ∧ cond.depth ≤ nestingLimit) ∧ ∀ s ∈ body, s.Fits levels := by
  have hnesting : (Stmt.loop l cond body).nesting = 1 + blockNesting body := by rw [Stmt.nesting]
  have hdepth : (Stmt.loop l cond body).exprDepth = max cond.depth (blockExprDepth body) := by rw [Stmt.exprDepth]
  refine ⟨?_, h.block (by omega) (by omega)⟩
  obtain ⟨hlevels, hlimit⟩ := h
  exact ⟨by omega, by omega⟩

end Stmt.Fits

/-- The keywords that no statement starts with. -/
def closingKeywords : List String := ["VAR", "END_VAR", "ELSIF", "ELSE", "END_IF", "END_WHILE"]

/-- A parser of statements reads a statement back, on the line that it was written on. -/
structure Recovers (vars : List Declaration) (Fits : Prop) (stmt : Parser (Option Stmt)) (s : Stmt) : Prop where
  opens : ∀ line, ∃ word more, place line s.lines = ⟨.ident word, .ofNat line⟩ :: more ∧
    ∀ keyword ∈ closingKeywords, spells keyword word = false
  reads : ∀ line ts, stmt.Reads vars Fits (place line s.lines ++ ts) (some (s.placed line)) ts

theorem Recovers.mono {G : Prop} {stmt : Parser (Option Stmt)} {s : Stmt} (h : Recovers vars F stmt s) (hle : G → F) :
    Recovers vars G stmt s := ⟨h.opens, fun line ts => (h.reads line ts).mono hle⟩

/-- **A block reads its statements back** up to the word that ends it, by induction on the statements. -/
theorem reading_blockFrom {stmt : Parser (Option Stmt)} {ss : List Stmt} (h : ∀ s ∈ ss, Recovers vars F stmt s)
    {terminators : List String} (hclosing : ∀ keyword ∈ terminators, keyword ∈ closingKeywords) {rest : List Token}
    (hrest : terminators.any (atKeyword · rest) = true) (endLine : UInt32) (line : ℕ) (stmts : List Stmt)
    {uses : List Use} (huses : Accepted vars uses) :
    Reading vars F (some (stmts ++ placedAll line ss)) rest
      (blockFrom stmt terminators endLine stmts uses (place line (blockLines ss) ++ rest)) := by
  induction ss generalizing line stmts uses with
  | nil =>
    rw [blockLines, place, List.nil_append, placedAll, List.append_nil]
    cases rest with
    | nil => simp [atKeyword] at hrest
    | cons t rest =>
      rw [blockFrom, if_pos hrest]
      exact .read huses
  | cons s ss ih =>
    obtain ⟨hs, hss⟩ := List.forall_mem_cons.1 h
    obtain ⟨word, more, hplace, hword⟩ := hs.opens line
    have hread := hs.reads line (place (line + s.lines.length) (blockLines ss) ++ rest) endLine
    rw [hplace, List.cons_append] at hread
    rw [blockLines, place_append, List.append_assoc, hplace, List.cons_append, blockFrom]
    -- the statement opens with a word of its own: the block neither ends here nor breaks off
    have hopen : terminators.any (atKeyword · (⟨.ident word, .ofNat line⟩ ::
        (more ++ (place (line + s.lines.length) (blockLines ss) ++ rest)))) = false :=
      List.any_eq_false.2 fun keyword hk => ne_true_of_eq_false (hword keyword (hclosing keyword hk))
    have hvar : atKeyword "VAR" (⟨.ident word, .ofNat line⟩ ::
        (more ++ (place (line + s.lines.length) (blockLines ss) ++ rest))) = false := hword "VAR" (by decide)
    rw [hopen, hvar]
    simp only [Bool.false_eq_true, if_false]
    generalize stmt endLine _ = r at hread ⊢
    cases hread with
    | tooDeep line h => exact .tooDeep line h
    | read hnew =>
      have hlater := ih hss (line + s.lines.length) (stmts ++ [s.placed line]) (accepted_append.2 ⟨huses, hnew⟩)
      rw [List.append_assoc, List.singleton_append] at hlater
      simp only []
      rw [if_pos (by simp)]
      exact hlater

/-- **Blocks** are read back up to the keyword that ends them. -/
theorem reads_block {stmt : Parser (Option Stmt)} {ss : List Stmt} (h : ∀ s ∈ ss, Recovers vars F stmt s)
    {terminators : List String} (hclosing : ∀ keyword ∈ terminators, keyword ∈ closingKeywords) {rest : List Token}
    (hrest : terminators.any (atKeyword · rest) = true) (line : ℕ) (blockLine : UInt32) (unterminated : CompileFault) :
    (block stmt terminators blockLine unterminated).Reads vars F (place line (blockLines ss) ++ rest)
      (placedAll line ss) rest := by
  have hblock : Reads vars F (fun endLine ts => blockFrom stmt terminators endLine [] [] ts)
      (place line (blockLines ss) ++ rest) (some (placedAll line ss)) rest :=
    fun endLine => reading_blockFrom h hclosing hrest endLine line [] accepted_nil
  exact hblock.bind (.pure _ rest)

/-- A parser of conditions reads them back up to the keyword after them. -/
def RecoversCondition (vars : List Declaration) (Fits : Prop) (cond : Parser Expr) (e : Expr) : Prop :=
  ∀ line ts, Stops 6 ts → cond.Reads vars Fits (onLine line e.words ++ ts) e ts

/-- What the lines of an `IF` go on with after a block: one more alternative, or its end. -/
theorem arms_close (arms : Arms) (line : ℕ) (l : UInt32) (ts : List Token) :
    ["ELSIF", "ELSE", "END_IF"].any
      (atKeyword · (place line (arms.lines "ELSIF") ++ ⟨.ident "END_IF", l⟩ :: ts)) = true := by
  cases arms <;> rfl

section Arms

variable {stmt : Parser (Option Stmt)} {cond : Parser Expr} {c : Expr} {body : List Stmt}

/-- One alternative, after its keyword. -/
theorem reads_arm (hcond : RecoversCondition vars F cond c) (hbody : ∀ s ∈ body, Recovers vars F stmt s)
    (ifLine : UInt32) (line : ℕ) {rest : List Token}
    (hrest : ["ELSIF", "ELSE", "END_IF"].any (atKeyword · rest) = true) : (arm stmt cond ifLine).Reads vars F
      (onLine (.ofNat line) c.words ++ ⟨.ident "THEN", .ofNat line⟩ :: (place (line + 1) (blockLines body) ++ rest))
      (c, placedAll (line + 1) body) rest := by
  have hthen := hcond (.ofNat line) (⟨.ident "THEN", .ofNat line⟩ :: (place (line + 1) (blockLines body) ++ rest))
    (stops_closer (by decide) _ _)
  exact hthen.bind (.keyword rfl ((reads_block hbody (by decide) hrest (line + 1) ifLine _).bind (.pure _ rest)))

/-- The last one of some alternatives may as well be the first one of the rest. -/
theorem ofList_concat (last : Arms) (arms : List (Expr × List Stmt)) (arm : Expr × List Stmt) :
    Arms.ofList last (arms ++ [arm]) = Arms.ofList (.arm arm.1 arm.2 last) arms := by
  induction arms with
  | nil => rfl
  | cons first arms ih => rw [List.cons_append, Arms.ofList, ih, Arms.ofList]

/-- **A conditional reads its alternatives back** up to `END_IF`, by induction on the alternatives. -/
theorem reading_armsFrom (arms : Arms) (hconds : ∀ arm ∈ arms.branches, RecoversCondition vars F cond arm.1)
    (hbodies : ∀ arm ∈ arms.branches, ∀ s ∈ arm.2, Recovers vars F stmt s)
    (hlast : ∀ body, arms.last? = some body → ∀ s ∈ body, Recovers vars F stmt s) (ifLine endLine : UInt32) (line : ℕ)
    (l : UInt32) (ts : List Token) (done : List (Expr × List Stmt)) {uses : List Use} (huses : Accepted vars uses) :
    Reading vars F (Arms.ofList (arms.placed line) done) (⟨.ident "END_IF", l⟩ :: ts)
      (armsFrom stmt cond ifLine endLine done uses
        (place line (arms.lines "ELSIF") ++ ⟨.ident "END_IF", l⟩ :: ts)) := by
  -- The recursion is on the alternatives: each one that is read goes to the end of those done before.
  match arms with
  | .none =>
    have hends : atKeyword "ELSIF" (⟨.ident "END_IF", l⟩ :: ts) = false ∧
        atKeyword "ELSE" (⟨.ident "END_IF", l⟩ :: ts) = false := ⟨rfl, rfl⟩
    rw [Arms.lines, place, List.nil_append, Arms.placed, armsFrom, hends.1, hends.2]
    exact .read huses
  | .otherwise body =>
    have hwords : place line ((Arms.otherwise body).lines "ELSIF") ++ ⟨.ident "END_IF", l⟩ :: ts =
        ⟨.ident "ELSE", .ofNat line⟩ :: (place (line + 1) (blockLines body) ++ ⟨.ident "END_IF", l⟩ :: ts) := by
      simp [Arms.lines, place]
    have helse (rest : List Token) : atKeyword "ELSIF" (⟨.ident "ELSE", .ofNat line⟩ :: rest) = false ∧
        atKeyword "ELSE" (⟨.ident "ELSE", .ofNat line⟩ :: rest) = true := ⟨rfl, rfl⟩
    have hblock : (block stmt ["END_IF"] ifLine .unterminatedIf).Reads vars F
        (place (line + 1) (blockLines body) ++ ⟨.ident "END_IF", l⟩ :: ts) (placedAll (line + 1) body)
        (⟨.ident "END_IF", l⟩ :: ts) := reads_block (hlast body rfl) (by decide) rfl (line + 1) ifLine _
    have hread := hblock endLine
    rw [hwords, Arms.placed, armsFrom, (helse _).1, (helse _).2]
    simp only [Bool.false_eq_true, if_false, if_true]
    generalize block stmt ["END_IF"] ifLine .unterminatedIf endLine _ = r at hread ⊢
    cases hread with
    | tooDeep line h => exact .tooDeep line h
    | read hmore => exact .read (accepted_append.2 ⟨huses, hmore⟩)
  | .arm c body rest =>
    rw [Arms.branches] at hconds hbodies
    obtain ⟨hcond, hconds⟩ := List.forall_mem_cons.1 hconds
    obtain ⟨hbody, hbodies⟩ := List.forall_mem_cons.1 hbodies
    have hwords : place line ((Arms.arm c body rest).lines "ELSIF") ++ ⟨.ident "END_IF", l⟩ :: ts =
        ⟨.ident "ELSIF", .ofNat line⟩ :: (onLine (.ofNat line) c.words ++ ⟨.ident "THEN", .ofNat line⟩ ::
          (place (line + 1) (blockLines body) ++
            (place (line + 1 + (blockLines body).length) (rest.lines "ELSIF") ++ ⟨.ident "END_IF", l⟩ :: ts))) := by
      simp [Arms.lines, place, place_append]
    have helsif (rest : List Token) : atKeyword "ELSIF" (⟨.ident "ELSIF", .ofNat line⟩ :: rest) = true := rfl
    have hread := reads_arm hcond hbody ifLine line
      (arms_close rest (line + 1 + (blockLines body).length) l ts) endLine
    rw [hwords, Arms.placed, armsFrom, if_pos (helsif _)]
    -- The alternative is read back or the tree is too deep, and then the rest follows from the recursion.
    generalize arm stmt cond ifLine endLine _ = r at hread ⊢
    cases hread with
    | tooDeep line h => exact .tooDeep line h
    | read hmore =>
      have hlater := reading_armsFrom rest hconds hbodies hlast ifLine endLine
        (line + 1 + (blockLines body).length) l ts (done ++ [(c, placedAll (line + 1) body)])
        (accepted_append.2 ⟨huses, hmore⟩)
      rw [ofList_concat] at hlater
      simp only []
      rw [if_pos (by simp; omega)]
      exact hlater

end Arms

section Statements

variable {stmt : Parser (Option Stmt)} {value : Parser Expr}

/-- An `IF` is read back when its conditions and its blocks are. -/
theorem reads_conditional {cond : Parser Expr} {arms : Arms} (hfirst : ∃ c body rest, arms = .arm c body rest)
    (hconds : ∀ arm ∈ arms.branches, RecoversCondition vars F cond arm.1)
    (hbodies : ∀ arm ∈ arms.branches, ∀ s ∈ arm.2, Recovers vars F stmt s)
    (hlast : ∀ body, arms.last? = some body → ∀ s ∈ body, Recovers vars F stmt s) (l : UInt32) (line : ℕ)
    (ts : List Token) : (conditional stmt cond (.ofNat line)).Reads vars F (place line (Stmt.choose l arms).lines ++ ts)
      ((Stmt.choose l arms).placed line) ts := by
  obtain ⟨c, body, rest, rfl⟩ := hfirst
  rw [Arms.branches] at hconds hbodies
  obtain ⟨hcond, hconds⟩ := List.forall_mem_cons.1 hconds
  obtain ⟨hbody, hbodies⟩ := List.forall_mem_cons.1 hbodies
  -- The first alternative starts with `IF` instead of `ELSIF`, and the rest is read as for any alternatives.
  obtain ⟨last, hend⟩ : ∃ last, place line (Stmt.choose l (.arm c body rest)).lines ++ ts =
      ⟨.ident "IF", .ofNat line⟩ :: (onLine (.ofNat line) c.words ++ ⟨.ident "THEN", .ofNat line⟩ ::
        (place (line + 1) (blockLines body) ++
          (place (line + 1 + (blockLines body).length) (rest.lines "ELSIF") ++
            ⟨.ident "END_IF", last⟩ :: ⟨.symbol .semi, last⟩ :: ts))) := by
    refine ⟨.ofNat (line + ((Arms.arm c body rest).lines "IF").length), ?_⟩
    rw [Stmt.lines, place_append]
    simp [Arms.lines, place, place_append]
  have harm := reads_arm hcond hbody (.ofNat line) line
    (arms_close rest (line + 1 + (blockLines body).length) last (⟨.symbol .semi, last⟩ :: ts))
  have harms : Reads vars F
      (fun endLine ts => armsFrom stmt cond (.ofNat line) endLine [(c, placedAll (line + 1) body)] [] ts)
      (place (line + 1 + (blockLines body).length) (rest.lines "ELSIF") ++
        ⟨.ident "END_IF", last⟩ :: ⟨.symbol .semi, last⟩ :: ts)
      (.arm c (placedAll (line + 1) body) (rest.placed (line + 1 + (blockLines body).length)))
      (⟨.ident "END_IF", last⟩ :: ⟨.symbol .semi, last⟩ :: ts) := fun endLine =>
    reading_armsFrom rest hconds hbodies hlast _ endLine _ last _ [(c, placedAll (line + 1) body)] accepted_nil
  rw [hend]
  exact .keyword rfl (harm.bind (harms.bind (.keyword rfl (.semicolon (.pure _ ts)))))

/-- A `WHILE` is read back when its condition and its block are. -/
theorem reads_repetition {cond : Parser Expr} {c : Expr} {body : List Stmt} (hcond : RecoversCondition vars F cond c)
    (hbody : ∀ s ∈ body, Recovers vars F stmt s) (l : UInt32) (line : ℕ) (ts : List Token) :
    (repetition stmt cond (.ofNat line)).Reads vars F (place line (Stmt.loop l c body).lines ++ ts)
      ((Stmt.loop l c body).placed line) ts := by
  obtain ⟨last, hend⟩ : ∃ last, place line (Stmt.loop l c body).lines ++ ts =
      ⟨.ident "WHILE", .ofNat line⟩ :: (onLine (.ofNat line) c.words ++ ⟨.ident "DO", .ofNat line⟩ ::
        (place (line + 1) (blockLines body) ++ ⟨.ident "END_WHILE", last⟩ :: ⟨.symbol .semi, last⟩ :: ts)) := by
    refine ⟨.ofNat (line + 1 + (blockLines body).length), ?_⟩
    simp [Stmt.lines, place, place_append]
  have hheader := hcond (.ofNat line) (⟨.ident "DO", .ofNat line⟩ ::
    (place (line + 1) (blockLines body) ++ ⟨.ident "END_WHILE", last⟩ :: ⟨.symbol .semi, last⟩ :: ts))
    (stops_closer (by decide) _ _)
  have hblock : (block stmt ["END_WHILE"] (.ofNat line) .unterminatedWhile).Reads vars F
      (place (line + 1) (blockLines body) ++ ⟨.ident "END_WHILE", last⟩ :: ⟨.symbol .semi, last⟩ :: ts)
      (placedAll (line + 1) body) (⟨.ident "END_WHILE", last⟩ :: ⟨.symbol .semi, last⟩ :: ts) :=
    reads_block hbody (by decide) rfl (line + 1) _ _
  rw [hend]
  exact .keyword rfl (hheader.bind (.keyword rfl (hblock.bind (.keyword rfl (.semicolon (.pure _ ts))))))

theorem reads_assignment {e : Expr} {key : String} (hkey : IsKey key) (h : Admits vars key false)
    (hvalue : RecoversCondition vars F value e) (line : UInt32) (ts : List Token) :
    (assignment value key line).Reads vars F (⟨.ident key, line⟩ :: ⟨.symbol .assign, line⟩ ::
      (onLine line e.words ++ ⟨.symbol .semi, line⟩ :: ts)) (.assign line key e) ts := by
  have hread := hvalue line (⟨.symbol .semi, line⟩ :: ts) (stops_closer (by decide) line ts)
  exact .drop (.look (.pos rfl (.drop ((Reads.use hkey.upper h line _).bind (hread.bind (.symbol (.pure _ ts)))))))

variable {ifs whiles : UInt32 → Parser Stmt}

/-- An assignment is read back if its value is. -/
theorem recovers_assign {e : Expr} {key : String} (hkey : IsKey key) (h : Admits vars key false)
    (hvalue : RecoversCondition vars F value e) (l : UInt32) :
    Recovers vars F (statementOf ifs whiles value) (.assign l key e) := by
  have hwords (line) (ts : List Token) : place line (Stmt.assign l key e).lines ++ ts =
      ⟨.ident key, .ofNat line⟩ :: ⟨.symbol .assign, .ofNat line⟩ ::
        (onLine (.ofNat line) e.words ++ ⟨.symbol .semi, .ofNat line⟩ :: ts) := by simp [Stmt.lines, place]
  refine ⟨fun line => ?_, fun line ts => ?_⟩
  · refine ⟨key, _, rfl, fun keyword hk => spells_eq_false hkey.free ?_⟩
    have hreserved : closingKeywords.all reservedWords.contains = true := by decide
    exact List.all_eq_true.1 hreserved keyword hk
  · rw [hwords]
    have hnot {keyword : String} (hk : reservedWords.contains keyword = true) : ¬ spells keyword key = true :=
      ne_true_of_eq_false (spells_eq_false hkey.free hk)
    have hfree : ¬ isTaken key = true := ne_true_of_eq_false hkey.free
    have hdevice : ¬ spells "DEVICE" key = true := ne_true_of_eq_false hkey.not_device
    have hread := reads_assignment hkey h hvalue (.ofNat line) ts
    exact .look (.neg (hnot (by decide)) (.neg (hnot (by decide)) (.neg hdevice (.neg hfree hread.map))))

/-- A call of the device is read back if its arguments are. -/
theorem recovers_call {func : DeviceOp} {args : List Expr} (harity : args.length = func.arity)
    (hargs : ∀ e ∈ args, RecoversCondition vars F value e) (l : UInt32) :
    Recovers vars F (statementOf ifs whiles value) (.call l func args) := by
  have hwords (line) (ts : List Token) : place line (Stmt.call l func args).lines ++ ts =
      onLine (.ofNat line) (Expr.device func args).words ++ ⟨.symbol .semi, .ofNat line⟩ :: ts := by
    simp [Stmt.lines, place]
  refine ⟨fun line => ⟨"Device", _, rfl, by decide⟩, fun line ts => ?_⟩
  have hcall := reads_deviceOp harity (fun e he => hargs e he (.ofNat line)) (⟨.symbol .semi, .ofNat line⟩ :: ts)
  rw [hwords]
  exact .look (.neg (by decide) (.neg (by decide) (.pos rfl (hcall.bind (.symbol (.pure _ ts))))))

/-- A conditional is read back as a statement by the parser for it. -/
theorem recovers_choose {arms : Arms} {l : UInt32} (hfirst : ∃ c body rest, arms = .arm c body rest)
    (h : ∀ line ts, (ifs (.ofNat line)).Reads vars F (place line (Stmt.choose l arms).lines ++ ts)
      ((Stmt.choose l arms).placed line) ts) :
    Recovers vars F (statementOf ifs whiles value) (.choose l arms) := by
  obtain ⟨c, body, rest, rfl⟩ := hfirst
  refine ⟨fun line => ⟨"IF", _, rfl, by decide⟩, fun line ts => ?_⟩
  exact .look (.pos rfl (h line ts).map)

/-- A loop is read back as a statement by the parser for it. -/
theorem recovers_loop {c : Expr} {body : List Stmt} {l : UInt32}
    (h : ∀ line ts, (whiles (.ofNat line)).Reads vars F (place line (Stmt.loop l c body).lines ++ ts)
      ((Stmt.loop l c body).placed line) ts) :
    Recovers vars F (statementOf ifs whiles value) (.loop l c body) := by
  refine ⟨fun line => ⟨"WHILE", _, rfl, by decide⟩, fun line ts => ?_⟩
  exact .look (.neg (by decide) (.pos rfl (h line ts).map))

end Statements

/-- On each level there is one parser of statements, and only the parsers of blocks differ. -/
theorem statement_eq (levels : ℕ) : ∃ ifs whiles, statement levels = statementOf ifs whiles (expr levels) := by
  cases levels with
  | zero => exact ⟨_, _, rfl⟩
  | succ levels => exact ⟨_, _, rfl⟩

/-- A condition is read back, as the keyword after it is no operator. -/
theorem recoversCondition_expr {e : Expr} (h : e.Plain) (he : e.WellFormed vars) (hvars : ∀ d ∈ vars, d.Plain)
    (levels : ℕ) (hfits : F → e.depth ≤ levels ∧ e.depth ≤ nestingLimit) : RecoversCondition vars F (expr levels) e :=
  fun line _ hstops => (reads_expr (understood h he hvars) hstops levels line).mono hfits

/-- **Every statement of the grammar is read back**, if it fits into the levels that are left. -/
theorem recovers_statement {s : Stmt} (h : s.Plain) (hs : s.WellFormed vars) (hvars : ∀ d ∈ vars, d.Plain)
    (levels : ℕ) : Recovers vars (s.Fits levels) (statement levels) s := by
  -- A block takes a level, so the induction leaves the levels open.
  induction h generalizing levels with
  | assign l key hvalue =>
    cases hs with
    | assign _ hkey he =>
      obtain ⟨ifs, whiles, heq⟩ := statement_eq levels
      rw [heq]
      refine recovers_assign (hkey.isKey hvars) hkey (recoversCondition_expr hvalue he hvars levels fun hF => ?_) l
      rw [Stmt.Fits, Stmt.nesting, Stmt.exprDepth] at hF
      exact ⟨by omega, hF.2⟩
  | call l func hargs =>
    cases hs with
    | call _ harity he =>
      obtain ⟨ifs, whiles, heq⟩ := statement_eq levels
      rw [heq]
      refine recovers_call harity (fun e hmem => ?_) l
      refine recoversCondition_expr (hargs e hmem) (he e hmem) hvars levels fun hF => ?_
      have hmax := depth_le_maxDepth hmem
      rw [Stmt.Fits, Stmt.nesting, Stmt.exprDepth] at hF
      exact ⟨by omega, by omega⟩
  | @choose l arms hfirst hconds _ _ ihbodies ihlast =>
    cases hs with
    | choose _ hconds' hbodies' hlast' =>
      cases levels with
      -- Without a level left the block is refused, and it would not have fitted either.
      | zero =>
        refine recovers_choose hfirst fun line ts => .tooDeep fun hF => ?_
        rw [Stmt.Fits, Stmt.nesting] at hF
        omega
      | succ levels =>
        refine recovers_choose hfirst fun line ts => reads_conditional hfirst ?_ ?_ ?_ l line ts
        · intro arm harm
          exact recoversCondition_expr (hconds arm harm) (hconds' arm harm) hvars levels fun hF => (hF.branch harm).1
        · intro arm harm s hs
          exact (ihbodies arm harm s hs (hbodies' arm harm s hs) levels).mono fun hF => (hF.branch harm).2 s hs
        · intro body hbody s hs
          exact (ihlast body hbody s hs (hlast' body hbody s hs) levels).mono fun hF => hF.last hbody s hs
  | loop l hcond _ ihbody =>
    cases hs with
    | loop _ hcond' hbody' =>
      cases levels with
      | zero =>
        refine recovers_loop fun line ts => .tooDeep fun hF => ?_
        rw [Stmt.Fits, Stmt.nesting] at hF
        omega
      | succ levels =>
        refine recovers_loop fun line ts => reads_repetition ?_ ?_ l line ts
        · exact recoversCondition_expr hcond hcond' hvars levels fun hF => hF.loop.1
        · intro s hs
          exact (ihbody s hs (hbody' s hs) levels).mono fun hF => hF.loop.2 s hs

section Declarations

variable {d : Declaration} {ts : List Token}

theorem reads_entryWord {word : String} {f : String → Parser β} {b : β} {rest : List Token} (l line : UInt32)
    (hf : (f word).Reads vars F ts b rest) : (entryWord l >>= f).Reads vars F (⟨.ident word, line⟩ :: ts) b rest := by
  have hword : (entryWord l).Reads vars F (⟨.ident word, line⟩ :: ts) word ts := .look (.drop (.pure word ts))
  exact hword.bind hf

theorem reads_entrySymbol {s : Symbol} {f : Unit → Parser β} {b : β} {rest : List Token} (l line : UInt32)
    (hf : (f ()).Reads vars F ts b rest) : (entrySymbol l s >>= f).Reads vars F (⟨.symbol s, line⟩ :: ts) b rest := by
  have hat : atSymbol s (⟨.symbol s, line⟩ :: ts) = true := decide_eq_true rfl
  have hsymbol : (entrySymbol l s).Reads vars F (⟨.symbol s, line⟩ :: ts) () ts :=
    .look (.pos hat fun _ => .read accepted_nil)
  exact hsymbol.bind hf

/-- An initializer is read back, and so is its absence. -/
theorem reads_initializer {init : Option Expr} (h : ∀ e, init = some e → RecoversCondition vars F (expr nestingLimit) e)
    (line : UInt32) : initializer.Reads vars F (onLine line (initializerWords init) ++ ⟨.symbol .semi, line⟩ :: ts) init
      (⟨.symbol .semi, line⟩ :: ts) := by
  cases init with
  | none => exact .look (.neg (by simp [initializerWords, atSymbol]) (.pure none _))
  | some e =>
    have hread := h e rfl line (⟨.symbol .semi, line⟩ :: ts) (stops_closer (by decide) line ts)
    exact .look (.pos rfl (.drop hread.map))

/-- A declaration is read back, on the line that it was written on. -/
theorem reads_varEntry (hd : d.Plain) (h : ∀ e, d.init = some e → RecoversCondition vars F (expr nestingLimit) e)
    (line : UInt32) (ts : List Token) :
    (varEntry line).Reads vars F (onLine line d.words ++ ts) { d with line := line } ts := by
  have hwords : onLine line d.words ++ ts = ⟨.ident d.name, line⟩ :: ⟨.symbol .colon, line⟩ ::
      ⟨.ident d.type.label, line⟩ :: (onLine line (initializerWords d.init) ++ ⟨.symbol .semi, line⟩ :: ts) := by
    simp [Declaration.words]
  have htype : TypeName.ofName? d.type.label = some d.type := by cases d.type <;> rfl
  have hfree : ¬ isTaken d.name = true := ne_true_of_eq_false hd.free
  rw [hwords]
  refine reads_entryWord line line (.neg hfree (reads_entrySymbol line line (reads_entryWord line line ?_)))
  rw [htype, ← hd.key]
  exact (reads_initializer h line).bind (reads_entrySymbol line line (.pure _ ts))

/-- Declarations are read back on the lines they are written on. -/
theorem reading_varEntriesFrom {ds : List Declaration} (hds : ∀ d ∈ ds, d.Plain)
    (h : ∀ d ∈ ds, ∀ e, d.init = some e → RecoversCondition vars F (expr nestingLimit) e)
    (hts : atSymbol .semi ts = false)
    (blockLine endLine : UInt32) (line : ℕ) (l : UInt32) (decls : List Declaration) {uses : List Use}
    (huses : Accepted vars uses) : Reading vars F (decls ++ placedDeclarations line ds) ts
      (varEntriesFrom blockLine endLine decls uses
        (place line (ds.map Declaration.words) ++ ⟨.ident "END_VAR", l⟩ :: ts)) := by
  induction ds generalizing line decls uses with
  | nil =>
    have hend : atKeyword "END_VAR" (⟨.ident "END_VAR", l⟩ :: ts) = true := rfl
    rw [List.map_nil, place, List.nil_append, placedDeclarations, List.append_nil, varEntriesFrom, if_pos hend, hts]
    exact .read huses
  | cons d ds ih =>
    obtain ⟨hd, hds⟩ := List.forall_mem_cons.1 hds
    obtain ⟨hinit, hinits⟩ := List.forall_mem_cons.1 h
    -- The name of the variable is free, so it is not taken for the end of the section.
    have hentry (rest : List Token) : ¬ atKeyword "END_VAR" (⟨.ident d.name, .ofNat line⟩ :: rest) = true :=
      ne_true_of_eq_false (spells_eq_false hd.free (by decide))
    have hwords (rest : List Token) : onLine (.ofNat line) d.words ++ rest =
        ⟨.ident d.name, .ofNat line⟩ :: (onLine (.ofNat line) d.words.tail ++ rest) := rfl
    have hread := reads_varEntry hd hinit (.ofNat line)
      (place (line + 1) (ds.map Declaration.words) ++ ⟨.ident "END_VAR", l⟩ :: ts) endLine
    rw [hwords] at hread
    rw [List.map_cons, place, List.append_assoc, hwords, varEntriesFrom, if_neg (hentry _)]
    generalize varEntry (.ofNat line) endLine _ = r at hread ⊢
    cases hread with
    | tooDeep line h => exact .tooDeep line h
    | read hmore =>
      have hlater := ih hds hinits (line + 1) (decls ++ [{ d with line := .ofNat line }])
        (accepted_append.2 ⟨huses, hmore⟩)
      rw [List.append_assoc, List.singleton_append] at hlater
      simp only []
      rw [if_pos (by simp)]
      exact hlater

/-- A section of declarations is read back up to `END_VAR`. -/
theorem reads_varSection {ds : List Declaration} (hds : ∀ d ∈ ds, d.Plain)
    (h : ∀ d ∈ ds, ∀ e, d.init = some e → RecoversCondition vars F (expr nestingLimit) e)
    (hts : atSymbol .semi ts = false) (line : ℕ) (l : UInt32) :
    varSection.Reads vars F
      (⟨.ident "VAR", .ofNat line⟩ :: (place (line + 1) (ds.map Declaration.words) ++ ⟨.ident "END_VAR", l⟩ :: ts))
      (placedDeclarations (line + 1) ds) ts :=
  .step (fun _ => rfl) (.keyword rfl fun endLine =>
    reading_varEntriesFrom hds h hts _ endLine (line + 1) l [] accepted_nil)

end Declarations

/-- The statements of a program are read back up to the end of the text. -/
theorem reading_itemsFrom {ss : List Stmt} (h : ∀ s ∈ ss, Recovers vars F (statement nestingLimit) s)
    (endLine : UInt32) (line : ℕ) (items : Items) {uses : List Use} (huses : Accepted vars uses) :
    Reading vars F ⟨items.vars, items.body ++ placedAll line ss⟩ []
      (itemsFrom endLine items uses (place line (blockLines ss))) := by
  induction ss generalizing line items uses with
  | nil =>
    rw [blockLines, place, placedAll, List.append_nil, itemsFrom]
    exact .read huses
  | cons s ss ih =>
    obtain ⟨hs, hss⟩ := List.forall_mem_cons.1 h
    obtain ⟨word, more, hplace, hword⟩ := hs.opens line
    have hvar (rest : List Token) : ¬ atKeyword "VAR" (⟨.ident word, .ofNat line⟩ :: rest) = true :=
      ne_true_of_eq_false (hword "VAR" (by decide))
    have hread := hs.reads line (place (line + s.lines.length) (blockLines ss)) endLine
    rw [hplace, List.cons_append] at hread
    rw [blockLines, place_append, hplace, List.cons_append, itemsFrom, if_neg (hvar _)]
    generalize statement nestingLimit endLine _ = r at hread ⊢
    cases hread with
    | tooDeep line h => exact .tooDeep line h
    | read hnew =>
      have hlater := ih hss (line + s.lines.length) { items with body := items.body ++ [s.placed line] }
        (accepted_append.2 ⟨huses, hnew⟩)
      rw [List.append_assoc, List.singleton_append] at hlater
      simp only []
      rw [if_pos (by simp)]
      exact hlater

/-- A program fits when its statements and its initializers do. -/
def Program.Fits (p : Program) : Prop :=
  (∀ s ∈ p.body, s.Fits nestingLimit) ∧ ∀ d ∈ p.vars, ∀ e, d.init = some e → e.depth ≤ nestingLimit

/-- **A program is read back from the tokens of its layout.** -/
theorem reading_program {p : Program} (h : p.Plain) (hp : p.WellFormed) (endLine : UInt32) :
    Reading p.vars p.Fits ⟨placedDeclarations 2 p.vars, placedAll (p.vars.length + 3) p.body⟩ []
      (itemsFrom endLine ⟨[], []⟩ [] (place 1 p.lines)) := by
  have hplace : place 1 p.lines = ⟨.ident "VAR", 1⟩ :: (place 2 (p.vars.map Declaration.words) ++
      ⟨.ident "END_VAR", .ofNat (p.vars.length + 2)⟩ :: place (p.vars.length + 3) (blockLines p.body)) := by
    have hline : 2 + p.vars.length = p.vars.length + 2 := Nat.add_comm _ _
    simp [Program.lines, place, place_append, hline]
  have hbody (s) (hs : s ∈ p.body) : Recovers p.vars p.Fits (statement nestingLimit) s :=
    (recovers_statement (h.body s hs) (hp.body s hs) h.vars nestingLimit).mono fun hF => hF.1 s hs
  have hinit (d) (hd : d ∈ p.vars) (e) (he : d.init = some e) :
      RecoversCondition p.vars p.Fits (expr nestingLimit) e :=
    recoversCondition_expr ((h.vars d hd).init e he) (hp.initializers d hd e he) h.vars nestingLimit fun hF =>
      ⟨hF.2 d hd e he, hF.2 d hd e he⟩
  -- the semicolon that may end the declarations is not written, and no statement starts with one
  have hsemi : atSymbol .semi (place (p.vars.length + 3) (blockLines p.body)) = false := by
    cases hss : p.body with
    | nil => rfl
    | cons s ss =>
      obtain ⟨word, more, hword, -⟩ := (hbody s (hss ▸ List.mem_cons_self)).opens (p.vars.length + 3)
      rw [blockLines, place_append, hword]
      rfl
  have hvar (rest : List Token) : atKeyword "VAR" (⟨.ident "VAR", 1⟩ :: rest) = true := rfl
  have hsection := reads_varSection h.vars hinit hsemi 1 (.ofNat (p.vars.length + 2)) endLine
  rw [hplace, itemsFrom, if_pos (hvar _)]
  generalize varSection endLine _ = r at hsection ⊢
  cases hsection with
  | tooDeep line h => exact .tooDeep line h
  | read huses =>
    simp only []
    rw [if_pos (by simp; omega)]
    exact reading_itemsFrom hbody endLine (p.vars.length + 3) ⟨placedDeclarations 2 p.vars, []⟩ huses

/-- Declarations have the same keys on whatever lines. -/
theorem map_key_placed (line : ℕ) (ds : List Declaration) :
    (placedDeclarations line ds).map Declaration.key = ds.map Declaration.key := by
  induction ds generalizing line with
  | nil => rfl
  | cons d ds ih => rw [placedDeclarations, List.map_cons, ih, List.map_cons]

/-- Declarations have the same initializers on whatever lines. -/
theorem mem_placed {line : ℕ} {d : Declaration} {ds : List Declaration} (h : d ∈ placedDeclarations line ds) :
    ∃ d' ∈ ds, d.init = d'.init := by
  induction ds generalizing line with
  | nil => cases h
  | cons d' ds ih =>
    rcases List.mem_cons.1 h with rfl | h
    · exact ⟨d', List.mem_cons_self, rfl⟩
    · obtain ⟨d'', hd'', hinit⟩ := ih h
      exact ⟨d'', List.mem_cons_of_mem _ hd'', hinit⟩

/-- The line of a declaration does not matter for what may be used. -/
theorem admits_placed {key : String} {stepTime : Bool} (line : ℕ) (h : Admits vars key stepTime) :
    Admits (placedDeclarations line vars) key stepTime := by
  obtain ⟨d, hd, hstate⟩ := h
  induction vars generalizing line with
  | nil => cases hd
  | cons d' ds ih =>
    rw [placedDeclarations, Admits, declared?, List.find?_cons]
    rw [declared?, List.find?_cons] at hd
    by_cases hkey : (d'.key == key) = true
    · rw [hkey] at hd ⊢
      cases hd
      exact ⟨{ d with line := .ofNat line }, rfl, hstate⟩
    · rw [Bool.eq_false_iff.2 hkey] at hd ⊢
      exact ih (line + 1) hd

/-- **Programs whose trees are not too deep.** -/
structure Program.Shallow (p : Program) : Prop where
  exprs : ∀ s ∈ p.body, s.exprDepth ≤ 30
  inits : ∀ d ∈ p.vars, ∀ e, d.init = some e → e.depth ≤ 30
  blocks : ∀ s ∈ p.body, s.nesting ≤ 60

/-- A program whose trees are not too deep fits. -/
theorem Program.Shallow.fits {p : Program} (h : p.Shallow) : p.Fits := by
  have hlimit : nestingLimit = 128 := rfl
  refine ⟨fun s hs => ?_, fun d hd e he => ?_⟩
  · have hexprs := h.exprs s hs
    have hblocks := h.blocks s hs
    exact ⟨by omega, by omega⟩
  · have hinits := h.inits d hd e he
    omega

/-- **Programs are read back.** The text of a program of the grammar that passes the checks compiles
to the same program, with the lines of the text, unless it is nested too deeply; and expressions at
most 30 deep in blocks at most 60 deep are not. -/
theorem compile_render {p : Program} (h : p.Plain) (hp : p.WellFormed) :
    (compile p.render = .ok p.placed ∨ ∃ line, compile p.render = .error ⟨.nestedTooDeeply, some line⟩) ∧
      (p.Shallow → compile p.render = .ok p.placed) := by
  have htokens : compile p.render = compileTokens p.render (place 1 p.lines) := by
    rw [compile, tokenize_render h hp]
    rfl
  -- the checks look at keys and initializers, which are the same on any line
  have hdeclarations : checkDeclarations [] (placedDeclarations 2 p.vars) = .ok () := by
    refine checkDeclarations_eq_ok.2 ⟨?_, fun d _ => List.not_mem_nil, fun d hd e he => ?_⟩
    · rw [map_key_placed]
      exact hp.distinct
    · obtain ⟨d', hd', hinit⟩ := mem_placed hd
      exact hp.detached d' hd' e (hinit ▸ he)
  have hread := reading_program h hp (lastLine (place 1 p.lines))
  rw [htokens, compileTokens]
  generalize itemsFrom (lastLine (place 1 p.lines)) ⟨[], []⟩ [] (place 1 p.lines) = r at hread ⊢
  cases hread with
  | tooDeep line hdeep => exact ⟨.inr ⟨line, rfl⟩, fun hshallow => absurd hshallow.fits hdeep⟩
  | @read uses huses =>
    have hchecked : allDeclared (placedDeclarations 2 p.vars) uses = .ok () :=
      allDeclared_eq_ok.2 fun u hu => admits_placed 2 (huses u hu)
    have hok : (do
        checkDeclarations [] (placedDeclarations 2 p.vars)
        allDeclared (placedDeclarations 2 p.vars) uses
        return ⟨p.render, placedDeclarations 2 p.vars, placedAll (p.vars.length + 3) p.body⟩ :
        Except CompileError Program) = .ok p.placed := by
      rw [hdeclarations, hchecked]
      rfl
    exact ⟨.inl hok, fun _ => hok⟩

/-- A lamp that is switched on unless it is on. -/
def switch : Program where
  source := ""
  vars := [⟨"Lamp", "LAMP", .bool, none, 0⟩]
  body := [.choose 0 (.arm
    (.binary .and (.binary .or (.var "LAMP") (.literal (.bool true))) (.unary .not (.var "LAMP")))
    [.assign 0 "LAMP" (.literal (.bool true))] .none)]

example : switch.render =
    "VAR\nLamp : BOOL;\nEND_VAR\nIF (LAMP OR TRUE) AND NOT LAMP THEN\nLAMP := TRUE;\nEND_IF;\n" := by rfl

theorem plain_switch : switch.Plain := by
  have hcond :
      (Expr.binary .and (.binary .or (.var "LAMP") (.literal (.bool true))) (.unary .not (.var "LAMP"))).Plain :=
    .binary nofun (.binary nofun (.var _) (.literal trivial)) (.unary _ (.var _))
  refine ⟨List.forall_mem_singleton.2 ⟨⟨rfl, rfl⟩, rfl, rfl, by decide, nofun⟩,
    List.forall_mem_singleton.2 (.choose 0 ⟨_, _, _, rfl⟩ ?_ ?_ nofun)⟩
  · exact List.forall_mem_singleton.2 hcond
  · exact List.forall_mem_singleton.2 (List.forall_mem_singleton.2 (.assign 0 _ (.literal trivial)))

theorem wellFormed_switch : switch.WellFormed := by
  have hlamp : Admits switch.vars "LAMP" false := ⟨⟨"Lamp", "LAMP", .bool, none, 0⟩, rfl, nofun⟩
  refine ⟨by decide, List.forall_mem_singleton.2 nofun, List.forall_mem_singleton.2 nofun,
    List.forall_mem_singleton.2 (.choose 0 ?_ ?_ nofun)⟩
  · exact List.forall_mem_singleton.2
      (.binary _ (.binary _ (.var hlamp) (.literal _)) (.unary _ (.var hlamp)))
  · exact List.forall_mem_singleton.2 (List.forall_mem_singleton.2 (.assign 0 hlamp (.literal _)))

theorem compile_render_switch : switch.Plain ∧ switch.WellFormed ∧ compile switch.render = .ok switch.placed := by
  have hshallow : switch.Shallow := by
    refine ⟨?_, ?_, ?_⟩ <;> exact List.forall_mem_singleton.2 (by decide)
  exact ⟨plain_switch, wellFormed_switch, (compile_render plain_switch wellFormed_switch).2 hshallow⟩

end Switchyard.Script

import Switchyard.Proofs.Script.Joining

/-!
# Texts with separators between them

White space and comments separate texts: a text that can be tokenized has the same
tokens in front of them, and what stands behind them is tokenized as if it stood
alone, but for the lines. These go on from the lines of all that stands in front,
the lines of comments included (`tokenize_separated`). The counter of lines has 32
bits, so it is exact in texts of fewer than `2 ^ 32 - 1` line feeds, and behind so
many it starts again (`tokenize_wrapped`).

* `Filler`, `Separates`: blanks and comments, and texts of them.
* `TokenAt`: a token at its place in a text.
* `LinesFit`, `IsLine`: texts whose lines can be counted in 32 bits, and their lines. Only these are
  reported (`isLine_of_reported`).
-/

namespace Switchyard.Script

/-- **What stands between tokens**: a blank, or a comment, which ends at the first end of a comment in it. -/
inductive Filler : List Char → Prop
  | blank {c : Char} (h : Text.isBlank c = true) : Filler [c]
  | comment {body : List Char} (h : ¬ ['*', ')'] <:+: body ++ ['*']) : Filler ('(' :: '*' :: (body ++ ['*', ')']))

/-- **A separator**: one or more blanks and comments. -/
def Separates (s : String) : Prop :=
  ∃ fillers : List (List Char), fillers ≠ [] ∧ (∀ filler ∈ fillers, Filler filler) ∧ s.toList = fillers.flatten

/-- The line feeds in a text. -/
def newlines (s : String) : ℕ := s.toList.count '\n'

/-- **A token at its place**, which is on a line of the text: it is the lexeme that stands behind some text in front,
the line feeds of that text count its line, and it and the tokens behind it are those of the text from there on. -/
def TokenAt (source : List Char) (line : ℕ) (t : Token) (behind : List Token) : Prop :=
  ∃ front text rest, source = front ++ text ∧ line = 1 + front.count '\n' ∧ Starts text t.content rest ∧
    tokensFrom t.line text = .ok (t :: behind)

/-- **The lines of a text**: as many as it has line feeds, and one more. -/
def IsLine (source : String) (line : UInt32) : Prop := 1 ≤ line.toNat ∧ line.toNat ≤ 1 + newlines source

/-- **A text whose lines can be counted** in 32 bits. -/
def LinesFit (source : String) : Prop := 1 + newlines source < UInt32.size

instance (source : String) : Decidable (LinesFit source) := inferInstanceAs (Decidable (_ < _))

/-- The lines that the tokenizer reports: those of the tokens, or the one of the error. -/
def Reported (r : Except CompileError (List Token)) (line : UInt32) : Prop :=
  match r with
  | .ok ts => ∃ t ∈ ts, t.line = line
  | .error e => e.line = some line

variable {cs more filler : List Char} {c : Char} {line : UInt32}

theorem isWordChar_of_isBlank (h : Text.isBlank c = true) : isWordChar c = false := by
  by_contra hword
  -- the characters of words are printable
  have hcode : 0x20 < c.toNat ∧ c.toNat < 0x85 := by
    rw [Bool.not_eq_false, isWordChar, Char.isAlphanum, isAlpha_eq, Bool.or_eq_true, Bool.or_eq_true, Bool.or_eq_true,
      isUpper_iff, isLower_iff, isDigit_iff, beq_iff_eq] at hword
    rcases hword with ((hupper | hlower) | hdigit) | rfl
    · omega
    · omega
    · omega
    · decide
  rw [not_isBlank hcode.1 hcode.2] at h
  cases h

theorem apart_of_isBlank (h : Text.isBlank c = true) : Apart c := by
  refine ⟨isWordChar_of_isBlank h, fun hmark => ?_⟩
  have hprintable : Text.isBlank c = false := by
    simp only [List.mem_cons, List.not_mem_nil, or_false] at hmark
    rcases hmark with rfl | rfl | rfl | rfl | rfl | rfl <;> decide
  rw [hprintable] at h
  cases h

/-- No lexeme goes on with what separates texts. -/
theorem Filler.apart (h : Filler filler) : ∀ d ∈ (filler ++ more).head?, Apart d := by
  cases h with
  | blank h =>
    rintro d ⟨⟩
    exact apart_of_isBlank h
  | comment h =>
    rintro d ⟨⟩
    exact ⟨by decide, by decide⟩

/-- **A comment ends at the first end of a comment**, and its line feeds are counted. -/
theorem commentEnd_body {body : List Char} (h : ¬ ['*', ')'] <:+: body ++ ['*']) (n : ℕ) (more : List Char) :
    commentEnd n (body ++ '*' :: ')' :: more) = some (n + body.count '\n', more) := by
  induction body generalizing n with
  | nil => rfl
  | cons c body ih =>
    have hlater : ¬ ['*', ')'] <:+: body ++ ['*'] := fun hend => h (hend.trans (List.infix_cons (List.infix_refl _)))
    rw [List.cons_append, commentEnd, ih hlater, List.count_cons]
    · by_cases hc : c = '\n'
      · simp only [hc, BEq.rfl, if_true]
        rw [Nat.add_assoc, Nat.add_comm 1]
      · simp only [hc, beq_iff_eq, if_false, Nat.add_zero]
    -- a star in the body is not followed by a parenthesis
    · rintro rest rfl hrest
      refine h ⟨[], ?_⟩
      cases body with
      | nil => cases hrest
      | cons c' body =>
        obtain ⟨rfl, -⟩ := List.cons.inj hrest
        exact ⟨body ++ ['*'], rfl⟩

/-- **What stands between tokens is skipped**, and its line feeds are counted. -/
theorem Filler.skipped (h : Filler filler) (line : UInt32) (more : List Char) :
    tokensFrom line (filler ++ more) = tokensFrom (line + .ofNat (filler.count '\n')) more := by
  cases h with
  | @blank c h =>
    by_cases hc : c = '\n'
    · subst hc
      exact tokensFrom_skip rfl line
    · rw [List.count_singleton, if_neg (by simpa using hc)]
      exact tokensFrom_skip (lexeme_eq_ok_iff.2 (.blank hc h)) line
  | @comment body h =>
    have hend : commentEnd 0 (body ++ '*' :: ')' :: more) = some (body.count '\n', more) := by
      rw [commentEnd_body h, Nat.zero_add]
    have hlexeme := lexeme_eq_ok_iff.2 (.comment rfl rfl hend)
    have hcount : ('(' :: '*' :: (body ++ ['*', ')'])).count '\n' = body.count '\n' := by simp
    have htext : '(' :: '*' :: (body ++ ['*', ')']) ++ more = '(' :: '*' :: (body ++ '*' :: ')' :: more) := by simp
    rw [hcount, htext]
    exact tokensFrom_skip hlexeme line

theorem skipped_flatten {fillers : List (List Char)} (h : ∀ filler ∈ fillers, Filler filler) (line : UInt32)
    (more : List Char) :
    tokensFrom line (fillers.flatten ++ more) = tokensFrom (line + .ofNat (fillers.flatten.count '\n')) more := by
  induction fillers generalizing line with
  | nil => rw [List.flatten_nil, List.count_nil, show UInt32.ofNat 0 = 0 from rfl, UInt32.add_zero, List.nil_append]
  | cons filler fillers ih =>
    have hfiller := h filler List.mem_cons_self
    have hfillers := fun other hmem => h other (List.mem_cons_of_mem filler hmem)
    rw [List.flatten_cons, List.append_assoc, hfiller.skipped, ih hfillers, List.count_append, UInt32.ofNat_add,
      UInt32.add_assoc]

/-- Every token stands at its place and holds its line in 32 bits. The induction is along the lexemes, with a text in
front of them. -/
theorem tokenAt_of_tokensFrom (front : List Char) {before : List Token} {ts behind : List Token} {t : Token}
    (h : tokensFrom (.ofNat (1 + front.count '\n')) cs = .ok ts) (hts : ts = before ++ t :: behind) :
    ∃ line, TokenAt (front ++ cs) line t behind ∧ t.line = .ofNat line := by
  generalize hline : UInt32.ofNat (1 + front.count '\n') = line at h
  -- What has been passed over goes to the front, so the front counts the line feeds up to the place of reading.
  fun_induction tokensFrom line cs generalizing front before ts with
  | case1 =>
    cases h
    exact absurd hts (by simp)
  | case2 => cases h
  | case3 line c cs rest hle newlines hread ih =>
    obtain ⟨taken, rfl, hcount⟩ := lexeme_leaves hread
    rw [← List.cons_append, ← List.append_assoc]
    refine ih _ hts ?_ h
    rw [List.count_append, hcount, ← hline, ← UInt32.ofNat_add, Nat.add_assoc]
    rfl
  | case4 line c cs rest hle content hread ih =>
    have htext := tokensFrom_token hread line
    obtain ⟨taken, rfl, hcount⟩ := lexeme_leaves hread
    cases hlater : tokensFrom line rest with
    | error e => rw [hlater] at h; cases h
    | ok later =>
      rw [hlater] at h htext
      cases h
      cases before with
      | nil =>
        obtain ⟨rfl, rfl⟩ := List.cons.inj hts
        exact ⟨_, ⟨front, c :: (taken ++ rest), rest, rfl, rfl, ⟨c, taken ++ rest, rfl, hread⟩, htext⟩, hline.symm⟩
      | cons first before =>
        rw [← List.cons_append, ← List.append_assoc]
        refine ih _ (List.cons.inj hts).2 ?_ hlater
        rw [List.count_append, hcount, ← hline]
        rfl
  | case5 line c cs item rest hread hle => exact absurd (length_le_of_lexeme hread) hle

theorem toNat_ofNat_of_linesFit {source : String} {n : ℕ} (h : LinesFit source) (hn : n ≤ 1 + newlines source) :
    (UInt32.ofNat n).toNat = n := UInt32.toNat_ofNat_of_lt' (Nat.lt_of_le_of_lt hn h)

/-- As long as lines can be counted, line feeds add up. -/
theorem toNat_add_ofNat {n : ℕ} (h : line.toNat + n < UInt32.size) : (line + .ofNat n).toNat = line.toNat + n := by
  have hn : (UInt32.ofNat n).toNat = n := UInt32.toNat_ofNat_of_lt' (Nat.lt_of_le_of_lt (Nat.le_add_left n _) h)
  rw [UInt32.toNat_add, hn]
  exact Nat.mod_eq_of_lt h

/-- **Only lines of the text are reported.** -/
theorem bounds_of_reported {l : UInt32} (h : Reported (tokensFrom line cs) l)
    (hcs : line.toNat + cs.count '\n' < UInt32.size) :
    line.toNat ≤ l.toNat ∧ l.toNat ≤ line.toNat + cs.count '\n' := by
  fun_induction tokensFrom line cs with
  | case1 =>
    obtain ⟨t, ht, -⟩ := h
    cases ht
  | case2 line =>
    cases h
    exact ⟨Nat.le_refl _, Nat.le_add_right _ _⟩
  | case3 line c cs rest hle newlines hread ih =>
    -- no token: the line feeds that are passed raise the line of everything behind
    have hcount : (c :: cs).count '\n' = newlines + rest.count '\n' := count_of_lexeme hread
    have hline : (line + .ofNat newlines).toNat = line.toNat + newlines := toNat_add_ofNat (by omega)
    have hbounds := ih h (by omega)
    omega
  | case4 line c cs rest hle content hread ih =>
    have hcount : (c :: cs).count '\n' = 0 + rest.count '\n' := count_of_lexeme hread
    have hlater (h : Reported (tokensFrom line rest) l) : line.toNat ≤ l.toNat ∧
        l.toNat ≤ line.toNat + (c :: cs).count '\n' := by
      have hbounds := ih h (by omega)
      omega
    cases hrest : tokensFrom line rest with
    | error e =>
      rw [hrest] at h hlater
      exact hlater h
    | ok later =>
      rw [hrest] at h hlater
      obtain ⟨t, ht, rfl⟩ := h
      rcases List.mem_cons.1 ht with rfl | ht
      · exact ⟨Nat.le_refl _, Nat.le_add_right _ _⟩
      · exact hlater ⟨t, ht, rfl⟩
  | case5 line c cs item rest hread hle => exact absurd (length_le_of_lexeme hread) hle

/-- The tokenizer reports lines of the text only. -/
theorem isLine_of_reported {source : String} {l : UInt32} (hsource : LinesFit source)
    (h : Reported (tokenize source) l) : IsLine source l := bounds_of_reported h hsource

/-- **Separated texts are tokenized apart.** Let a text have tokens and a separator follow: white space and complete
comments. Then, whatever comes behind, the tokens of the whole are those of the text and those of what comes behind,
and an error is the one of what comes behind; lines are counted from the end of the separator. In every text that has
tokens, each of them is on the line that the line feeds in front of it count, in comments or not. Lines are counted
in 32 bits, which is exact in texts of fewer than `2 ^ 32 - 1` line feeds. -/
theorem tokenize_separated :
    (∀ (a s b : String) (ts : List Token), tokenize a = .ok ts → Separates s →
      (tokenize (a ++ s ++ b) =
        match tokenize b with
        | .ok us => .ok (ts ++ us.map (Token.later (.ofNat (newlines (a ++ s)))))
        | .error e => .error (e.later (.ofNat (newlines (a ++ s))))) ∧
      (LinesFit (a ++ s ++ b) → ∀ line, Reported (tokenize b) line →
        (line + .ofNat (newlines (a ++ s))).toNat = line.toNat + newlines (a ++ s))) ∧
      ∀ (source : String) (before behind : List Token) (t : Token), tokenize source = .ok (before ++ t :: behind) →
        ∃ line, TokenAt source.toList line t behind ∧ t.line = .ofNat line ∧
          (LinesFit source → t.line.toNat = line) := by
  refine ⟨?_, ?_⟩
  · rintro a s b ts ha ⟨fillers, hne, hfillers, hs⟩
    refine ⟨?_, fun hwhole line hline => ?_⟩
    · obtain ⟨filler, others, rfl⟩ := List.exists_cons_of_ne_nil hne
      have hcount : 1 + .ofNat (a.toList.count '\n') + .ofNat ((filler :: others).flatten.count '\n') =
          1 + UInt32.ofNat (newlines (a ++ s)) := by
        rw [newlines, String.toList_append, List.count_append, hs, UInt32.ofNat_add, UInt32.add_assoc]
      -- No token of the first text can go on over the separator.
      have happart : ∀ d ∈ ((filler :: others).flatten ++ b.toList).head?, Apart d := by
        rw [List.flatten_cons, List.append_assoc]
        exact (hfillers filler List.mem_cons_self).apart
      have htokens : tokenize (a ++ s ++ b) = (laterBy (.ofNat (newlines (a ++ s))) (tokenize b)).map (ts ++ ·) := by
        rw [tokenize, String.toList_append, String.toList_append, hs, List.append_assoc, tokensFrom_append ha happart,
          skipped_flatten hfillers, hcount, tokensFrom_later]
        rfl
      rw [htokens]
      cases tokenize b <;> rfl
    · have hsum : newlines (a ++ s ++ b) = newlines (a ++ s) + newlines b := by
        rw [newlines, String.toList_append, List.count_append, ← newlines, ← newlines]
      rw [LinesFit, hsum] at hwhole
      -- The line in the second text, counted from the start of the whole, is still a line of the whole.
      obtain ⟨-, hupper⟩ := isLine_of_reported (by rw [LinesFit]; omega) hline
      exact toNat_add_ofNat (by omega)
  · intro source before behind t h
    obtain ⟨line, hplace, hline⟩ := tokenAt_of_tokensFrom [] h rfl
    refine ⟨line, hplace, hline, fun hsource => ?_⟩
    obtain ⟨front, text, rest, hsplit, rfl, -, -⟩ := hplace
    -- The line feeds in front of a token are some of those of the text.
    have hcount : front.count '\n' ≤ newlines source := by
      rw [newlines, show source.toList = front ++ text from hsplit, List.count_append]
      exact Nat.le_add_right _ _
    rw [hline]
    exact toNat_ofNat_of_linesFit hsource (Nat.add_le_add_left hcount 1)

/-- **Why the line feeds are bounded**: `2 ^ 32 - 1` of them wrap the counter, so what stands behind them is on line 0,
where a text of its own would start on line 1. -/
theorem tokenize_wrapped (cs : List Char) :
    tokenize (String.ofList (List.replicate (UInt32.size - 1) '\n' ++ cs)) = tokensFrom 0 cs := by
  have hfeeds : List.replicate (UInt32.size - 1) '\n' = (List.replicate (UInt32.size - 1) ['\n']).flatten := by
    rw [List.flatten_replicate_singleton]
  have hblank (filler) (h : filler ∈ List.replicate (UInt32.size - 1) ['\n']) : Filler filler := by
    rw [List.eq_of_mem_replicate h]
    exact .blank (by decide)
  have hcount : (List.replicate (UInt32.size - 1) '\n').count '\n' = UInt32.size - 1 := List.count_replicate_self
  have hwrapped : 1 + UInt32.ofNat (UInt32.size - 1) = 0 := by decide
  rw [tokenize, String.toList_ofList, hfeeds, skipped_flatten hblank, ← hfeeds, hcount, hwrapped]

/-- An assignment with a comment of two lines before its value. -/
theorem tokenize_separated_comment :
    tokenize "x :=\n" = .ok [⟨.ident "x", 1⟩, ⟨.symbol .assign, 1⟩] ∧ Separates " (* a\nb *)\n" ∧
      tokenize ("x :=\n" ++ " (* a\nb *)\n" ++ "y\n") =
        .ok [⟨.ident "x", 1⟩, ⟨.symbol .assign, 1⟩, ⟨.ident "y", 4⟩] ∧
      (1 + UInt32.ofNat (newlines ("x :=\n" ++ " (* a\nb *)\n"))).toNat = 1 + 3 ∧
      TokenAt ("x :=\n" ++ " (* a\nb *)\n" ++ "y\n").toList 4 ⟨.ident "y", 4⟩ [] := by
  have hx : ∀ ts ∈ [[.ident "x", .symbol .assign]], ∀ t ∈ ts, TokenContent.Spelled t := by
    simp only [List.forall_mem_cons, List.not_mem_nil, false_implies, implies_true, and_true]
    exact ⟨⟨rfl, rfl⟩, trivial⟩
  have hy : ∀ ts ∈ [[.ident "y"]], ∀ t ∈ ts, TokenContent.Spelled t := by
    simp only [List.forall_mem_cons, List.not_mem_nil, false_implies, implies_true, and_true]
    exact ⟨rfl, rfl⟩
  have ha : tokenize "x :=\n" = .ok [⟨.ident "x", 1⟩, ⟨.symbol .assign, 1⟩] := tokenize_layout hx
  have hb : tokenize "y\n" = .ok [⟨.ident "y", 1⟩] := tokenize_layout hy
  -- A blank, a comment over two lines, and a line feed.
  have hs : Separates " (* a\nb *)\n" := by
    refine ⟨[[' '], '(' :: '*' :: ([' ', 'a', '\n', 'b', ' '] ++ ['*', ')']), ['\n']], by simp, ?_, rfl⟩
    intro filler hmem
    simp only [List.mem_cons, List.not_mem_nil, or_false] at hmem
    rcases hmem with rfl | rfl | rfl
    · exact .blank (by decide)
    · exact .comment (by decide)
    · exact .blank (by decide)
  have hfits : LinesFit ("x :=\n" ++ " (* a\nb *)\n" ++ "y\n") := by decide
  obtain ⟨hwhole, hexact⟩ := tokenize_separated.1 "x :=\n" " (* a\nb *)\n" "y\n" _ ha hs
  rw [hb] at hwhole hexact
  obtain ⟨line, hplace, -, hline⟩ :=
    tokenize_separated.2 _ [⟨.ident "x", 1⟩, ⟨.symbol .assign, 1⟩] [] ⟨.ident "y", 4⟩ hwhole
  obtain rfl : 4 = line := hline hfits
  exact ⟨ha, hs, hwhole, hexact hfits 1 ⟨_, List.mem_cons_self, rfl⟩, hplace⟩

end Switchyard.Script

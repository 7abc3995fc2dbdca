import Switchyard.Proofs.Script.Lexing

/-!
# Texts that are put together

A text that can be tokenized keeps its tokens where a character follows that no lexeme goes on
with, such as a comma, a closing parenthesis or a blank. Comments and quoted texts have their own
end. Behind the text its last line goes on, and in a text that starts later all lines are later;
nothing else depends on what is written in front.

* `lexeme_append`: a lexeme is the same in front of what is apart from it.
* `tokensFrom_later`, `tokensFrom_append`: texts that start later, and texts behind each other.
* `LexesTo`: the tokens of a text, wherever it starts. It is composed token by token.
-/

namespace Switchyard.Script

/-- **A character that no lexeme goes on with.** -/
structure Apart (d : Char) : Prop where
  word : isWordChar d = false
  mark : d ∉ ['.', '+', '-', '=', '>', '*']

/-- The characters after which an expression is over. -/
inductive Closing : Char → Prop
  | comma : Closing ','
  | rparen : Closing ')'

theorem Closing.apart {d : Char} (hd : Closing d) : Apart d := by
  cases hd <;> exact ⟨by decide, by decide⟩

variable {d : Char} {cs more rest : List Char}

theorem span_append {p : Char → Bool} (hd : p d = false) (cs more : List Char) :
    (cs ++ d :: more).takeWhile p = cs.takeWhile p ∧ (cs ++ d :: more).dropWhile p = cs.dropWhile p ++ d :: more := by
  induction cs with
  | nil => simp [hd]
  | cons c cs ih => by_cases hc : p c = true <;> simp [hc, ih]

namespace Apart

theorem number (hd : Apart d) : isNumberChar d = false := by
  have hword := hd.word
  rw [isWordChar, Char.isAlphanum, Bool.or_eq_false_iff, Bool.or_eq_false_iff] at hword
  rw [isNumberChar, hword.1.2, hword.2, Bool.or_false]

theorem digit (hd : Apart d) : d.isDigit = false := by
  have hnumber := hd.number
  rw [isNumberChar, Bool.or_eq_false_iff] at hnumber
  exact hnumber.1

theorem ne (hd : Apart d) {c : Char} (hc : isWordChar c = true ∨ c ∈ ['.', '+', '-', '=', '>', '*']) : d ≠ c := by
  rintro rfl
  rcases hc with hword | hmark
  · rw [hd.word] at hword
    cases hword
  · exact hd.mark hmark

end Apart

theorem startsWithDigit_append (hd : Apart d) (cs more : List Char) :
    startsWithDigit (cs ++ d :: more) = startsWithDigit cs := by
  cases cs with
  | nil => exact hd.digit
  | cons c cs => rfl

theorem fraction_append (hd : Apart d) (cs more : List Char) :
    fraction (cs ++ d :: more) = (fraction cs).map fun (digits, rest) => (digits, rest ++ d :: more) := by
  cases cs with
  | nil =>
    have hpoint : d ≠ '.' := hd.ne (.inr (by decide))
    simp [fraction, hpoint]
  | cons c cs =>
    by_cases hc : c = '.'
    · subst hc
      obtain ⟨htake, hdrop⟩ := span_append hd.digit cs more
      simp only [List.cons_append, fraction, startsWithDigit_append hd, htake, hdrop]
      split <;> rfl
    · simp [fraction, hc]

theorem exponentDigits_append (hd : Apart d) (negative : Bool) (cs more : List Char) :
    exponentDigits negative (cs ++ d :: more) =
      (exponentDigits negative cs).map fun (e, rest) => (e, rest ++ d :: more) := by
  obtain ⟨htake, hdrop⟩ := span_append hd.digit cs more
  rw [exponentDigits, exponentDigits, startsWithDigit_append hd, htake, hdrop]
  split <;> rfl

theorem exponent_append (hd : Apart d) (cs more : List Char) :
    exponent (cs ++ d :: more) = (exponent cs).map fun (e, rest) => (e, rest ++ d :: more) := by
  cases cs with
  | nil =>
    have hmark : ¬ (d = 'e' ∨ d = 'E') := not_or.2 ⟨hd.ne (.inl (by decide)), hd.ne (.inl (by decide))⟩
    simp [exponent, hmark]
  | cons c cs =>
    by_cases hc : c = 'e' ∨ c = 'E'
    · have hdigits (negative : Bool) := exponentDigits_append hd negative
      cases cs with
      | nil =>
        have hminus : d ≠ '-' := hd.ne (.inr (by decide))
        have hplus : d ≠ '+' := hd.ne (.inr (by decide))
        simp [exponent, hc, hminus, hplus, exponentDigits, startsWithDigit, hd.digit]
      | cons s cs =>
        -- a sign is the same sign, and anything else is the first digit or none
        by_cases hminus : s = '-'
        · subst hminus
          simp [exponent, hc, hdigits]
        · by_cases hplus : s = '+'
          · subst hplus
            simp [exponent, hc, hdigits]
          · have hrest := hdigits false (s :: cs) more
            rw [List.cons_append] at hrest
            simp [exponent, hc, hminus, hplus, hrest]
    · simp [exponent, hc]

theorem number_append (hd : Apart d) (cs more : List Char) :
    number (cs ++ d :: more) = (number cs).map fun (t, rest) => (t, rest ++ d :: more) := by
  obtain ⟨htake, hdrop⟩ := span_append hd.number cs more
  simp only [number, htake, hdrop, fraction_append hd]
  cases fraction (cs.dropWhile isNumberChar) with
  | some found =>
    simp only [Option.map_some, exponent_append hd]
    cases exponent found.2 <;> rfl
  | none =>
    simp only [Option.map_none, exponent_append hd]
    cases exponent (cs.dropWhile isNumberChar) with
    | some found => rfl
    | none =>
      simp only [Option.map_none]
      split <;> rfl

theorem commentEnd_append {n m : ℕ} (h : commentEnd n cs = some (m, rest)) (more : List Char) :
    commentEnd n (cs ++ more) = some (m, rest ++ more) := by
  fun_induction commentEnd n cs with
  | case1 => cases h
  | case2 => cases h; rfl
  | case3 n c cs hend ih =>
    rw [List.cons_append, commentEnd]
    · exact ih h
    -- the end that is found lies in the text, so a star before what follows is none
    · intro rest' hc hrest'
      cases cs with
      | nil => cases h
      | cons c' cs =>
        obtain ⟨hc', -⟩ := List.cons.inj hrest'
        exact hend cs hc (by rw [hc'])

theorem quoted_append_more {q : Char} {text : List Char} (h : quoted q cs = some (text, rest)) (more : List Char) :
    quoted q (cs ++ more) = some (text, rest ++ more) := by
  induction cs generalizing text with
  | nil => cases h
  | cons c cs ih =>
    rw [quoted] at h
    rw [List.cons_append, quoted]
    by_cases hnewline : c = '\n'
    · rw [if_pos hnewline] at h
      cases h
    rw [if_neg hnewline] at h ⊢
    by_cases hquote : c = q
    · rw [if_pos hquote] at h ⊢
      cases h
      rfl
    · rw [if_neg hquote] at h ⊢
      obtain ⟨⟨text', rest'⟩, hquoted, heq⟩ := Option.map_eq_some_iff.1 h
      cases heq
      rw [ih hquoted]
      rfl

theorem symbol?_append (hd : Apart d) {s : Symbol} (h : symbol? cs = some (s, rest)) (more : List Char) :
    symbol? (cs ++ d :: more) = some (s, rest ++ d :: more) := by
  have hequal : d ≠ '=' := hd.ne (.inr (by decide))
  have hgreater : d ≠ '>' := hd.ne (.inr (by decide))
  unfold symbol? at h
  split at h <;> cases h
  -- a mark of one character is not followed by what would make it one of two
  all_goals cases rest with
    | nil => simp [symbol?, hequal, hgreater]
    | cons c rest => simp_all [symbol?]

/-- A parenthesis at the end of a text does not become a comment. -/
theorem Solid.append (hd : Apart d) {c : Char} (h : Solid c cs) (more : List Char) : Solid c (cs ++ d :: more) := by
  refine ⟨h.newline, h.blank, Bool.eq_false_iff.2 fun hopens => ?_⟩
  obtain ⟨rfl, after, hafter⟩ := opensComment_eq_true hopens
  cases cs with
  | nil => exact hd.ne (.inr (by decide)) (List.cons.inj hafter).1
  | cons c cs =>
    obtain ⟨rfl, -⟩ := List.cons.inj hafter
    exact absurd h.comment (by simp [opensComment])

/-- **A lexeme is the same** in front of what is apart from it. -/
theorem lexeme_append (hd : Apart d) {c : Char} {item : Lexeme} (h : lexeme c cs = .ok (item, rest))
    (more : List Char) : lexeme c (cs ++ d :: more) = .ok (item, rest ++ d :: more) := by
  rw [lexeme_eq_ok_iff] at h ⊢
  cases h with
  | newline hc => exact .newline hc
  | blank hc hblank => exact .blank hc hblank
  | comment hc hcs hend =>
    subst hcs
    exact .comment hc rfl (commentEnd_append hend _)
  | word hsolid hword =>
    obtain ⟨htake, hdrop⟩ := span_append hd.word cs more
    rw [← htake, ← hdrop]
    exact .word (hsolid.append hd more) hword
  | number hsolid hword hdigit hnumber =>
    refine .number (hsolid.append hd more) hword hdigit ?_
    rw [← List.cons_append, number_append hd, hnumber]
    rfl
  | quoted hsolid hword hdigit hquote hquoted =>
    exact .quoted (hsolid.append hd more) hword hdigit hquote (quoted_append_more hquoted _)
  | symbol hsolid hword hdigit hquote hsymbol =>
    exact .symbol (hsolid.append hd more) hword hdigit hquote (symbol?_append hd hsymbol more)

/-- A token that stands some lines later. -/
def Token.later (k : UInt32) (t : Token) : Token := { t with line := t.line + k }

/-- An error that is reported for a line some lines later. -/
def CompileError.later (k : UInt32) (e : CompileError) : CompileError := { e with line := e.line.map (· + k) }

/-- **What is found in a text that starts some lines later.** -/
def laterBy (k : UInt32) : Except CompileError (List Token) → Except CompileError (List Token)
  | .ok ts => .ok (ts.map (Token.later k))
  | .error e => .error (e.later k)

/-- **In a text that starts later all lines are later.** -/
theorem tokensFrom_later (line k : UInt32) (cs : List Char) :
    tokensFrom (line + k) cs = laterBy k (tokensFrom line cs) := by
  fun_induction tokensFrom line cs with
  | case1 => rw [tokensFrom]; rfl
  | case2 line c cs fault hread => rw [tokensFrom_fault hread]; rfl
  | case3 line c cs rest hle newlines hread ih =>
    have hline : line + k + .ofNat newlines = line + .ofNat newlines + k := by
      rw [UInt32.add_assoc, UInt32.add_comm k, ← UInt32.add_assoc]
    rw [tokensFrom_skip hread, ← ih, hline]
  | case4 line c cs rest hle content hread ih =>
    rw [tokensFrom_token hread, ih]
    cases tokensFrom line rest <;> rfl
  | case5 line c cs item rest hread hle => exact absurd (length_le_of_lexeme hread) hle

/-- **Texts behind each other.** What stands behind a text starts on its last line. -/
theorem tokensFrom_append {line : UInt32} {ts : List Token} (h : tokensFrom line cs = .ok ts)
    (hmore : ∀ d ∈ more.head?, Apart d) :
    tokensFrom line (cs ++ more) = (tokensFrom (line + .ofNat (cs.count '\n')) more).map (ts ++ ·) := by
  have hlexeme {c : Char} {cs rest : List Char} {item : Lexeme} (h : lexeme c cs = .ok (item, rest)) :
      lexeme c (cs ++ more) = .ok (item, rest ++ more) := by
    cases more with
    | nil => rw [List.append_nil, List.append_nil, h]
    | cons d more => exact lexeme_append (hmore d rfl) h more
  -- what is left behind a lexeme starts on the line on which the lexeme ends
  fun_induction tokensFrom line cs generalizing ts with
  | case1 line =>
    cases h
    rw [List.nil_append, List.count_nil, show UInt32.ofNat 0 = 0 from rfl, UInt32.add_zero]
    cases tokensFrom line more <;> rfl
  | case2 => cases h
  | case3 line c cs rest hle newlines hread ih =>
    rw [List.cons_append, tokensFrom_skip (hlexeme hread), ih h, count_of_lexeme hread, Lexeme.newlines,
      UInt32.ofNat_add, UInt32.add_assoc]
  | case4 line c cs rest hle content hread ih =>
    cases hlater : tokensFrom line rest with
    | error e => rw [hlater] at h; cases h
    | ok later =>
      rw [hlater] at h
      cases h
      rw [List.cons_append, tokensFrom_token (hlexeme hread), ih hlater, count_of_lexeme hread,
        Lexeme.newlines, Nat.zero_add]
      cases tokensFrom (line + .ofNat (rest.count '\n')) more <;> rfl
  | case5 line c cs item rest hread hle => exact absurd (length_le_of_lexeme hread) hle

/-- Wherever the text starts, its tokens have the given contents. -/
def LexesTo (cs : List Char) (contents : List TokenContent) : Prop :=
  ∀ line, ∃ ts, tokensFrom line cs = .ok ts ∧ ts.map Token.content = contents

theorem lexesTo_nil : LexesTo [] [] := fun line => ⟨[], by rw [tokensFrom], rfl⟩

/-- What is tokenized on one line has these tokens on any line. -/
theorem lexesTo_of_tokensFrom {line : UInt32} {ts : List Token} (h : tokensFrom line cs = .ok ts) :
    LexesTo cs (ts.map Token.content) := by
  intro line'
  -- both are what is found from line 0 on, on later lines
  rw [← UInt32.zero_add line, tokensFrom_later] at h
  rw [← UInt32.zero_add line', tokensFrom_later]
  cases hzero : tokensFrom 0 cs with
  | error e => rw [hzero] at h; cases h
  | ok ts₀ =>
    rw [hzero] at h
    cases h
    refine ⟨ts₀.map (Token.later line'), rfl, ?_⟩
    rw [List.map_map, List.map_map]
    rfl

namespace LexesTo

variable {contents later : List TokenContent}

/-- A text, and then one that starts with what closes an expression. -/
theorem append (h : LexesTo cs contents) (hmore : LexesTo more later) (hd : ∀ d ∈ more.head?, Closing d) :
    LexesTo (cs ++ more) (contents ++ later) := by
  intro line
  obtain ⟨ts, hts, hcontent⟩ := h line
  obtain ⟨us, hus, hlater⟩ := hmore (line + .ofNat (cs.count '\n'))
  refine ⟨ts ++ us, by rw [tokensFrom_append hts fun d hmem => (hd d hmem).apart, hus]; rfl, ?_⟩
  rw [List.map_append, hcontent, hlater]

/-- A token, and then a text that is no part of it. -/
theorem token {t : TokenContent} (ht : t.Spelled) (hends : t.EndsAt rest) (h : LexesTo rest contents) :
    LexesTo (t.spelling ++ rest) (t :: contents) := by
  intro line
  obtain ⟨ts, hts, hcontent⟩ := h line
  refine ⟨⟨t, line⟩ :: ts, by rw [tokensFrom_spelling ht hends, hts]; rfl, ?_⟩
  rw [List.map_cons, hcontent]

/-- A blank is skipped. -/
theorem blank (h : LexesTo rest contents) : LexesTo (' ' :: rest) contents := by
  intro line
  rw [tokensFrom_blank rfl]
  exact h line

end LexesTo

end Switchyard.Script

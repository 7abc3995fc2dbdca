import Mathlib.Data.List.TakeWhile
import Mathlib.Tactic.Common
import Switchyard.Script.Token

/-!
# Lexemes

A lexeme is the first of some kinds that its first characters can be (`lexeme_eq_ok_iff`).
It takes up some text, which holds the line feeds that are counted for it, and none of
them if it is a token (`lexeme_leaves`). So a text is read lexeme by lexeme, and each
round leaves a shorter text.

* `Lexed`: all that a lexeme can be, and what it leaves.
* `SameLine`: texts that go on with others on the same line.
* `tokensFrom_skip`, `tokensFrom_token`, `tokensFrom_fault`: the rounds.
-/

namespace Switchyard.Script

variable {c : Char} {cs rest : List Char} {item : Lexeme}

/-- A character and the text after it start neither with white space nor with a comment. -/
structure Solid (c : Char) (cs : List Char) : Prop where
  newline : c ≠ '\n'
  blank : Text.isBlank c = false
  comment : opensComment (c :: cs) = false

/-- **All that a lexeme can be**, and what it leaves. -/
inductive Lexed (c : Char) (cs : List Char) : Lexeme → List Char → Prop
  | newline (hc : c = '\n') : Lexed c cs (.skip 1) cs
  | blank (hc : c ≠ '\n') (hblank : Text.isBlank c = true) : Lexed c cs (.skip 0) cs
  | comment {after n rest} (hc : c = '(') (hcs : cs = '*' :: after) (hend : commentEnd 0 after = some (n, rest)) :
      Lexed c cs (.skip n) rest
  | word (hsolid : Solid c cs) (hword : isWordStart c = true) :
      Lexed c cs (.token (.ident (String.ofList (c :: cs.takeWhile isWordChar)))) (cs.dropWhile isWordChar)
  | number {t rest} (hsolid : Solid c cs) (hword : isWordStart c = false) (hdigit : c.isDigit = true)
      (hnumber : number (c :: cs) = .ok (t, rest)) : Lexed c cs (.token t) rest
  | quoted {text rest} (hsolid : Solid c cs) (hword : isWordStart c = false) (hdigit : c.isDigit = false)
      (hquote : c = '\'' ∨ c = '"') (hquoted : quoted c cs = some (text, rest)) :
      Lexed c cs (.token (.text (String.ofList text))) rest
  | symbol {s rest} (hsolid : Solid c cs) (hword : isWordStart c = false) (hdigit : c.isDigit = false)
      (hquote : ¬ (c = '\'' ∨ c = '"')) (hsymbol : symbol? (c :: cs) = some (s, rest)) :
      Lexed c cs (.token (.symbol s)) rest

/-- A comment is opened by a parenthesis and an asterisk. -/
theorem opensComment_eq_true (h : opensComment (c :: cs) = true) : c = '(' ∧ ∃ after, cs = '*' :: after := by
  unfold opensComment at h
  split at h
  · rename_i heq
    exact ⟨(List.cons.inj heq).1, _, (List.cons.inj heq).2⟩
  · cases h

/-- **A lexeme is read** as the first kind that it can be. -/
theorem lexeme_eq_ok_iff : lexeme c cs = .ok (item, rest) ↔ Lexed c cs item rest := by
  constructor
  · intro h
    rw [lexeme] at h
    split at h
    · rename_i hc
      cases h
      exact .newline hc
    rename_i hnewline
    split at h
    · rename_i hblank
      cases h
      exact .blank hnewline hblank
    rename_i hblank
    split at h
    · rename_i hopens
      obtain ⟨hc, after, rfl⟩ := opensComment_eq_true hopens
      rw [List.tail_cons] at h
      split at h
      · rename_i hend
        cases h
        exact .comment hc rfl hend
      · cases h
    rename_i hcomment
    have hsolid : Solid c cs := ⟨hnewline, Bool.eq_false_iff.2 hblank, Bool.eq_false_iff.2 hcomment⟩
    split at h
    · rename_i hword
      cases h
      exact .word hsolid hword
    rename_i hword
    rw [Bool.not_eq_true] at hword
    split at h
    · rename_i hdigit
      split at h
      · rename_i hnumber
        cases h
        exact .number hsolid hword hdigit hnumber
      · cases h
    rename_i hdigit
    rw [Bool.not_eq_true] at hdigit
    split at h
    · rename_i hquote
      split at h
      · rename_i hquoted
        cases h
        exact .quoted hsolid hword hdigit hquote hquoted
      · cases h
    · rename_i hquote
      split at h
      · rename_i hsymbol
        cases h
        exact .symbol hsolid hword hdigit hquote hsymbol
      · cases h
  · intro h
    -- what is solid is looked at for its kind, one kind after the other
    have hkind (hsolid : Solid c cs) := And.intro hsolid.newline (And.intro hsolid.blank hsolid.comment)
    cases h with
    | newline hc => simp only [lexeme, hc, if_true]
    | blank hc hblank => simp only [lexeme, hc, hblank, if_true, if_false]
    | @comment after _ _ hc hcs hend =>
      subst hc hcs
      have hopens : opensComment ('(' :: '*' :: after) = true := rfl
      rw [lexeme, if_neg (by decide), if_neg (by decide), if_pos hopens, List.tail_cons, hend]
    | word hsolid hword => simp only [lexeme, hkind hsolid, hword, Bool.false_eq_true, if_true, if_false]
    | number hsolid hword hdigit hnumber =>
      simp only [lexeme, hkind hsolid, hword, hdigit, hnumber, Bool.false_eq_true, if_true, if_false]
    | quoted hsolid hword hdigit hquote hquoted =>
      simp only [lexeme, hkind hsolid, hword, hdigit, hquote, hquoted, Bool.false_eq_true, if_true, if_false]
    | symbol hsolid hword hdigit hquote hsymbol =>
      simp only [lexeme, hkind hsolid, hword, hdigit, hquote, hsymbol, Bool.false_eq_true, if_false]

/-- The line feeds in what a lexeme takes up. -/
def Lexeme.newlines : Lexeme → ℕ
  | skip newlines => newlines
  | token _ => 0

/-- The text goes on with the rest behind some characters, all of them on one line. -/
def SameLine (cs rest : List Char) : Prop := ∃ front, '\n' ∉ front ∧ cs = front ++ rest

namespace SameLine

variable {cs' : List Char}

theorem refl (cs : List Char) : SameLine cs cs := ⟨[], List.not_mem_nil, rfl⟩

/-- Parts of a line can be read one after the other. -/
theorem trans (h : SameLine cs cs') (h' : SameLine cs' rest) : SameLine cs rest := by
  obtain ⟨front, hfront, rfl⟩ := h
  obtain ⟨front', hfront', rfl⟩ := h'
  refine ⟨front ++ front', ?_, (List.append_assoc ..).symm⟩
  rw [List.mem_append, not_or]
  exact ⟨hfront, hfront'⟩

theorem cons (hc : c ≠ '\n') (h : SameLine cs rest) : SameLine (c :: cs) rest := by
  obtain ⟨front, hfront, rfl⟩ := h
  refine ⟨c :: front, ?_, rfl⟩
  rw [List.mem_cons, not_or]
  exact ⟨hc.symm, hfront⟩

/-- Characters that are passed over are on the line unless a line feed is among them. -/
theorem dropWhile {p : Char → Bool} (hp : p '\n' = false) (cs : List Char) : SameLine cs (cs.dropWhile p) := by
  refine ⟨cs.takeWhile p, fun hmem => ?_, List.takeWhile_append_dropWhile.symm⟩
  rw [List.mem_takeWhile_imp hmem] at hp
  cases hp

end SameLine

theorem fraction_sameLine {digits : List Char} (h : fraction cs = some (digits, rest)) : SameLine cs rest := by
  unfold fraction at h
  split at h
  · split at h
    · cases h
      exact (SameLine.dropWhile (by decide) _).cons (by decide)
    · cases h
  · cases h

theorem exponentDigits_sameLine {negative : Bool} {e : Int} (h : exponentDigits negative cs = some (e, rest)) :
    SameLine cs rest := by
  rw [exponentDigits] at h
  split at h
  · cases h
    exact SameLine.dropWhile (by decide) _
  · cases h

theorem exponent_sameLine {e : Int} (h : exponent cs = some (e, rest)) : SameLine cs rest := by
  unfold exponent at h
  split at h
  · rename_i c cs
    split at h
    · rename_i hc
      have hne : c ≠ '\n' := by rcases hc with rfl | rfl <;> decide
      split at h
      · exact ((exponentDigits_sameLine h).cons (by decide)).cons hne
      · exact ((exponentDigits_sameLine h).cons (by decide)).cons hne
      · exact (exponentDigits_sameLine h).cons hne
    · cases h
  · cases h

/-- A number ends on the line it starts on. -/
theorem number_sameLine {t : TokenContent} (h : number cs = .ok (t, rest)) :
    SameLine (cs.dropWhile isNumberChar) rest := by
  rw [number] at h
  cases hfraction : fraction (cs.dropWhile isNumberChar) with
  | some found =>
    simp only [hfraction] at h
    cases h
    have hleft := fraction_sameLine hfraction
    cases hexponent : exponent found.2 with
    | none => exact hleft
    | some left => exact hleft.trans (exponent_sameLine hexponent)
  | none =>
    simp only [hfraction] at h
    cases hexponent : exponent (cs.dropWhile isNumberChar) with
    | some found =>
      simp only [hexponent] at h
      cases h
      exact exponent_sameLine hexponent
    | none =>
      simp only [hexponent] at h
      split at h
      · cases h
        exact .refl _
      · cases h

/-- A text in quotes ends on the line it starts on. -/
theorem quoted_sameLine {q : Char} {text : List Char} (h : quoted q cs = some (text, rest)) : SameLine cs rest := by
  induction cs generalizing text with
  | nil => cases h
  | cons c cs ih =>
    rw [quoted] at h
    split at h
    · cases h
    · rename_i hc
      split at h
      · cases h
        exact (SameLine.refl _).cons hc
      · obtain ⟨⟨text', rest'⟩, hquoted, heq⟩ := Option.map_eq_some_iff.1 h
        cases heq
        exact (ih hquoted).cons hc

/-- A symbol ends on the line it starts on. -/
theorem symbol?_sameLine {s : Symbol} (h : symbol? (c :: cs) = some (s, rest)) : SameLine cs rest := by
  unfold symbol? at h
  split at h <;> cases h
  -- a mark is the first character, or the first two
  all_goals
    rename_i heq
    obtain ⟨rfl, rfl⟩ := List.cons.inj heq
    first
      | exact .refl _
      | exact (SameLine.refl _).cons (by decide)

/-- A comment is left with the line feeds in it counted. -/
theorem commentEnd_leaves {n m : ℕ} (h : commentEnd n cs = some (m, rest)) :
    ∃ front, cs = front ++ rest ∧ n + front.count '\n' = m := by
  fun_induction commentEnd n cs with
  | case1 => cases h
  | case2 n rest =>
    cases h
    exact ⟨['*', ')'], rfl, rfl⟩
  | case3 n c cs hend ih =>
    obtain ⟨front, rfl, hcount⟩ := ih h
    refine ⟨c :: front, rfl, ?_⟩
    rw [← hcount, List.count_cons]
    by_cases hc : c = '\n'
    · simp only [hc, BEq.rfl, if_true]
      omega
    · simp only [hc, beq_iff_eq, if_false]
      omega

/-- **What a lexeme takes up** is not empty. It holds the line feeds that are counted, and if it is a token, none. -/
theorem lexeme_leaves (h : lexeme c cs = .ok (item, rest)) :
    ∃ front, cs = front ++ rest ∧ (c :: front).count '\n' = item.newlines := by
  have htoken (hsolid : Solid c cs) {t : TokenContent} (hsame : SameLine cs rest) :
      ∃ front, cs = front ++ rest ∧ (c :: front).count '\n' = (Lexeme.token t).newlines := by
    obtain ⟨front, hfront, hcs⟩ := hsame
    exact ⟨front, hcs, (List.count_cons_of_ne hsolid.newline).trans (List.count_eq_zero.2 hfront)⟩
  cases lexeme_eq_ok_iff.1 h with
  | newline hc => exact ⟨[], rfl, by rw [hc]; rfl⟩
  | blank hc => exact ⟨[], rfl, List.count_cons_of_ne hc⟩
  | comment hc hcs hend =>
    obtain ⟨front, rfl, hcount⟩ := commentEnd_leaves hend
    refine ⟨'*' :: front, hcs, ?_⟩
    rw [hc, List.count_cons_of_ne (by decide), List.count_cons_of_ne (by decide), ← hcount, Nat.zero_add]
    rfl
  | word hsolid => exact htoken hsolid (.dropWhile (by decide) _)
  | number hsolid _ hdigit hnumber =>
    have hpart : isNumberChar c = true := by rw [isNumberChar, hdigit, Bool.true_or]
    have hleft := number_sameLine hnumber
    rw [List.dropWhile_cons_of_pos hpart] at hleft
    exact htoken hsolid ((SameLine.dropWhile (by decide) _).trans hleft)
  | quoted hsolid _ _ _ hquoted => exact htoken hsolid (quoted_sameLine hquoted)
  | symbol hsolid _ _ _ hsymbol => exact htoken hsolid (symbol?_sameLine hsymbol)

/-- A lexeme leaves no more than there was behind its first character. -/
theorem length_le_of_lexeme (h : lexeme c cs = .ok (item, rest)) : rest.length ≤ cs.length := by
  obtain ⟨front, rfl, -⟩ := lexeme_leaves h
  rw [List.length_append]
  exact Nat.le_add_left _ _

/-- The line feeds of a text are those of its first lexeme and those after it. -/
theorem count_of_lexeme (h : lexeme c cs = .ok (item, rest)) :
    (c :: cs).count '\n' = item.newlines + rest.count '\n' := by
  obtain ⟨front, rfl, hcount⟩ := lexeme_leaves h
  rw [← List.cons_append, List.count_append, hcount]

/-- What is skipped moves the line by its line feeds. -/
theorem tokensFrom_skip {newlines : ℕ} (h : lexeme c cs = .ok (.skip newlines, rest)) (line : UInt32) :
    tokensFrom line (c :: cs) = tokensFrom (line + .ofNat newlines) rest := by
  rw [tokensFrom, h]
  simp only [if_pos (length_le_of_lexeme h)]

theorem tokensFrom_blank (h : lexeme c cs = .ok (.skip 0, rest)) (line : UInt32) :
    tokensFrom line (c :: cs) = tokensFrom line rest :=
  (tokensFrom_skip h line).trans (by rw [show UInt32.ofNat 0 = 0 from rfl, UInt32.add_zero])

/-- A token is on the line that has been counted up to it. -/
theorem tokensFrom_token {t : TokenContent} (h : lexeme c cs = .ok (.token t, rest)) (line : UInt32) :
    tokensFrom line (c :: cs) = (tokensFrom line rest).map (⟨t, line⟩ :: ·) := by
  rw [tokensFrom, h]
  simp only [if_pos (length_le_of_lexeme h)]

/-- An error is on the line that has been counted up to it. -/
theorem tokensFrom_fault {fault : CompileFault} (h : lexeme c cs = .error fault) (line : UInt32) :
    tokensFrom line (c :: cs) = .error ⟨fault, some line⟩ := by
  rw [tokensFrom, h]

end Switchyard.Script

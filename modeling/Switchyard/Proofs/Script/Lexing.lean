import Switchyard.Proofs.Script.Lexemes
import Switchyard.Script.Parser

/-!
# Layouts and their tokens

A layout is a list of lines, each a list of tokens. It is written token by token, with
a blank between two of them unless they are `tight`. Reading the text gives back the
tokens, each on its line (`tokenize_layout`).

* `starts_spelling`: a token is read to its end when what follows cannot be part of it.
* `grows_of_tight`: tight tokens are apart even without a blank.
-/

namespace Switchyard.Script

/-- A letter or an underscore, and then letters, digits and underscores. -/
def IsWord (word : String) : Prop :=
  word.toList.head?.any isWordStart = true ∧ word.toList.tail.all isWordChar = true

/-- A text that can be quoted: it has no line feed, and not both of the quotes. -/
def Quotable (s : String) : Prop := '\n' ∉ s.toList ∧ ('\'' ∉ s.toList ∨ '"' ∉ s.toList)

/-- The quotes to put around a text. -/
def quoteFor (s : String) : Char := if '\'' ∈ s.toList then '"' else '\''

/-- How a token is written. -/
def TokenContent.spelling : TokenContent → List Char
  | .text s => quoteFor s :: (s.toList ++ [quoteFor s])
  | t => t.display.toList

/-- The tokens of a layout; it has no reals, which need not be written exactly. -/
def TokenContent.Spelled : TokenContent → Prop
  | .ident word => IsWord word
  | .int n => 0 ≤ n.toInt
  | .real _ => False
  | .text s => Quotable s
  | .symbol _ => True

/-- The tokens that are written without a blank between them. -/
def tight : TokenContent → TokenContent → Bool
  | _, .symbol .semi | _, .symbol .comma | _, .symbol .rparen => true
  | .ident word, .symbol .lparen => !isTaken word
  | .ident _, .symbol .dot | .symbol .dot, .ident _ => true
  | .symbol .lparen, .symbol .star => false
  | .symbol .lparen, _ => true
  | _, _ => false

/-- What stands between a token and the rest of its line. -/
def gap (t : TokenContent) : List TokenContent → List Char
  | [] => []
  | t' :: _ => if tight t t' then [] else [' ']

/-- The text of a line. -/
def lineText : List TokenContent → List Char
  | [] => []
  | t :: ts => t.spelling ++ gap t ts ++ lineText ts

/-- The text of a layout. -/
def layoutText (lines : List (List TokenContent)) : List Char :=
  lines.flatMap fun line => lineText line ++ ['\n']

/-- Tokens on a line. -/
def onLine (line : UInt32) (ts : List TokenContent) : List Token := ts.map fun t => ⟨t, line⟩

@[simp] theorem onLine_nil (line : UInt32) : onLine line [] = [] := rfl

@[simp] theorem onLine_cons (line : UInt32) (t : TokenContent) (ts : List TokenContent) :
    onLine line (t :: ts) = ⟨t, line⟩ :: onLine line ts := rfl

@[simp] theorem onLine_append (line : UInt32) (ts more : List TokenContent) :
    onLine line (ts ++ more) = onLine line ts ++ onLine line more := List.map_append

/-- The tokens of a layout whose first line has the given number. A token holds it in 32 bits. -/
def place : ℕ → List (List TokenContent) → List Token
  | _, [] => []
  | line, ts :: lines => onLine (.ofNat line) ts ++ place (line + 1) lines

/-- Further lines are placed on the numbers after the first ones. -/
theorem place_append (line : ℕ) (lines more : List (List TokenContent)) :
    place line (lines ++ more) = place line lines ++ place (line + lines.length) more := by
  induction lines generalizing line with
  | nil => rfl
  | cons ts lines ih =>
    have hline : line + 1 + lines.length = line + (lines.length + 1) := by omega
    rw [List.cons_append, place, place, ih, List.length_cons, hline, List.append_assoc]

/-- Whether a character right after a token could be taken for a part of it. -/
def TokenContent.grows : TokenContent → Char → Bool
  | .ident _, c => isWordChar c
  | .int _, c => isNumberChar c || c == '.' || c == 'e' || c == 'E'
  | .symbol .colon, c | .symbol .gt, c => c == '='
  | .symbol .lt, c => c == '=' || c == '>'
  | .symbol .lparen, c => c == '*'
  | _, _ => false

/-- A token ends where the text goes on with something that is no part of it. -/
def TokenContent.EndsAt (t : TokenContent) (rest : List Char) : Prop := ∀ c ∈ rest.head?, t.grows c = false

/-- The text starts with the token and goes on with `rest` after it. -/
def Starts (text : List Char) (t : TokenContent) (rest : List Char) : Prop :=
  ∃ c cs, text = c :: cs ∧ lexeme c cs = .ok (.token t, rest)

/-- No printing character below U+0085 is a blank. -/
theorem not_isBlank {c : Char} (hlow : 0x20 < c.toNat) (hhigh : c.toNat < 0x85) : Text.isBlank c = false := by
  simp only [Text.isBlank, Text.blankRanges, List.any_cons, List.any_nil, Bool.or_false, Bool.or_eq_false_iff,
    Bool.and_eq_false_iff, decide_eq_false_iff_not]
  omega

theorem isDigit_iff {c : Char} : c.isDigit = true ↔ 0x30 ≤ c.toNat ∧ c.toNat ≤ 0x39 := by
  change (decide (0x30 ≤ c.toNat) && decide (c.toNat ≤ 0x39)) = true ↔ _
  rw [Bool.and_eq_true, decide_eq_true_iff, decide_eq_true_iff]

theorem isUpper_iff {c : Char} : c.isUpper = true ↔ 0x41 ≤ c.toNat ∧ c.toNat ≤ 0x5a := decide_eq_true_iff

theorem isLower_iff {c : Char} : c.isLower = true ↔ 0x61 ≤ c.toNat ∧ c.toNat ≤ 0x7a := by
  change (decide (0x61 ≤ c.toNat) && decide (c.toNat ≤ 0x7a)) = true ↔ _
  rw [Bool.and_eq_true, decide_eq_true_iff, decide_eq_true_iff]

theorem isAlpha_eq (c : Char) : c.isAlpha = (c.isUpper || c.isLower) := rfl

/-- The first letter of a word lies between `A` and `z`. -/
theorem toNat_of_isWordStart {c : Char} (h : isWordStart c = true) : 0x41 ≤ c.toNat ∧ c.toNat ≤ 0x7a := by
  rw [isWordStart, Bool.or_eq_true, beq_iff_eq, isAlpha_eq, Bool.or_eq_true, isUpper_iff, isLower_iff] at h
  rcases h with (⟨hlow, hhigh⟩ | ⟨hlow, hhigh⟩) | rfl
  · omega
  · omega
  · decide

theorem opensComment_of_ne {c : Char} (h : c ≠ '(') (cs : List Char) : opensComment (c :: cs) = false := by
  unfold opensComment
  split
  · rename_i heq
    exact absurd (List.cons.inj heq).1 h
  · rfl

/-- A run of characters ends where the next one is not of its kind. -/
theorem span_of_stop {p : Char → Bool} {cs rest : List Char} (hcs : ∀ c ∈ cs, p c = true)
    (hrest : ∀ c ∈ rest.head?, p c = false) :
    (cs ++ rest).takeWhile p = cs ∧ (cs ++ rest).dropWhile p = rest := by
  rw [List.takeWhile_append_of_pos hcs, List.dropWhile_append_of_pos hcs]
  cases rest with
  | nil => simp
  | cons c rest =>
    have hc : p c = false := hrest c rfl
    simp [hc]

/-- A word has a first letter. -/
theorem IsWord.exists_cons {word : String} (h : IsWord word) :
    ∃ c cs, word.toList = c :: cs ∧ isWordStart c = true ∧ ∀ c ∈ cs, isWordChar c = true := by
  obtain ⟨hstart, hrest⟩ := h
  cases hword : word.toList with
  | nil =>
    rw [hword] at hstart
    cases hstart
  | cons c cs =>
    rw [hword] at hstart hrest
    exact ⟨c, cs, rfl, hstart, List.all_eq_true.1 hrest⟩

/-- A word is read up to its end. -/
theorem starts_word {word : String} (h : IsWord word) {rest : List Char}
    (hrest : (TokenContent.ident word).EndsAt rest) : Starts (word.toList ++ rest) (.ident word) rest := by
  obtain ⟨c, cs, hword, hc, hcs⟩ := h.exists_cons
  have hcode := toNat_of_isWordStart hc
  have hne {d : Char} (hd : d.toNat < 0x41) : c ≠ d := by
    rintro rfl
    omega
  obtain ⟨htake, hdrop⟩ := span_of_stop hcs hrest
  have hsolid : Solid c (cs ++ rest) :=
    ⟨hne (by decide), not_isBlank (by omega) (by omega), opensComment_of_ne (hne (by decide)) _⟩
  have hlexeme := lexeme_eq_ok_iff.2 (.word hsolid hc)
  rw [htake, hdrop, ← hword, String.ofList_toList] at hlexeme
  exact ⟨c, cs ++ rest, by rw [hword, List.cons_append], hlexeme⟩

/-- The digits of a number are read as that number. -/
theorem number_toDigits {n : Int64} (hn : 0 ≤ n.toInt) {rest : List Char} (hrest : (TokenContent.int n).EndsAt rest) :
    number (Nat.toDigits 10 n.toInt.toNat ++ rest) = .ok (.int n, rest) := by
  have hdigits (c : Char) (hc : c ∈ Nat.toDigits 10 n.toInt.toNat) : c.isDigit = true :=
    Nat.isDigit_of_mem_toDigits (by decide) (by decide) hc
  have hstop (c : Char) (hc : c ∈ rest.head?) : isNumberChar c = false ∧ c ≠ '.' ∧ c ≠ 'e' ∧ c ≠ 'E' := by
    have hgrows : (isNumberChar c || c == '.' || c == 'e' || c == 'E') = false := hrest c hc
    rw [Bool.or_eq_false_iff, Bool.or_eq_false_iff, Bool.or_eq_false_iff, beq_eq_false_iff_ne, beq_eq_false_iff_ne,
      beq_eq_false_iff_ne] at hgrows
    obtain ⟨⟨⟨hnumber, hdot⟩, he⟩, hE⟩ := hgrows
    exact ⟨hnumber, hdot, he, hE⟩
  have hspan : (Nat.toDigits 10 n.toInt.toNat ++ rest).takeWhile isNumberChar = Nat.toDigits 10 n.toInt.toNat ∧
      (Nat.toDigits 10 n.toInt.toNat ++ rest).dropWhile isNumberChar = rest :=
    span_of_stop (fun c hc => by rw [isNumberChar, hdigits c hc, Bool.true_or]) fun c hc => (hstop c hc).1
  -- the underscores that the language admits between digits are not written
  have hwhole : (Nat.toDigits 10 n.toInt.toNat).filter (· != '_') = Nat.toDigits 10 n.toInt.toNat := by
    refine List.filter_eq_self.2 fun c hc => bne_iff_ne.2 ?_
    rintro rfl
    exact Nat.underscore_not_in_toDigits hc
  have hvalue : Decimal.digitsValue (Nat.toDigits 10 n.toInt.toNat) = n.toInt.toNat :=
    Nat.ofDigitChars_eq_foldl.symm.trans Nat.ofDigitChars_ten_toDigits
  have hfraction : fraction rest = none := by
    unfold fraction
    split
    · exact absurd rfl (hstop '.' rfl).2.1
    · rfl
  have hexponent : exponent rest = none := by
    cases rest with
    | nil => rfl
    | cons c rest =>
      obtain ⟨-, -, he, hE⟩ := hstop c rfl
      simp only [exponent, he, hE, or_self, if_false]
  have hbound : n.toInt.toNat < Nat.pow 2 63 := by
    have hlt := Int64.toInt_lt n
    change n.toInt.toNat < 9223372036854775808
    omega
  have hback : Int64.ofNat n.toInt.toNat = n := by
    rw [← Int64.ofInt_eq_ofNat, Int.toNat_of_nonneg hn, Int64.ofInt_toInt]
  simp only [number, hspan.1, hspan.2, hwhole, hfraction, hexponent, hvalue, if_pos hbound, hback]

/-- A number is read up to its end, with its value. -/
theorem starts_number {n : Int64} (hn : 0 ≤ n.toInt) {rest : List Char} (hrest : (TokenContent.int n).EndsAt rest) :
    Starts ((TokenContent.int n).spelling ++ rest) (.int n) rest := by
  have hspelling : (TokenContent.int n).spelling = Nat.toDigits 10 n.toInt.toNat := by
    obtain ⟨k, hk⟩ := Int.eq_ofNat_of_zero_le hn
    rw [TokenContent.spelling, TokenContent.display, hk]
    · change (toString k).toList = Nat.toDigits 10 k
      rw [Nat.toString_eq_ofList_toDigits, String.toList_ofList]
    · exact nofun
  obtain ⟨c, cs, hcs⟩ := List.exists_cons_of_ne_nil (Nat.toDigits_ne_nil (n := n.toInt.toNat) (b := 10))
  have hdigit : c.isDigit = true := by
    refine Nat.isDigit_of_mem_toDigits (b := 10) (n := n.toInt.toNat) (by decide) (by decide) ?_
    rw [hcs]
    exact List.mem_cons_self
  have hcode := isDigit_iff.1 hdigit
  have hword : isWordStart c = false := by
    by_contra hstart
    have := toNat_of_isWordStart (Bool.not_eq_false _ ▸ hstart)
    omega
  have hne {d : Char} (hd : d.toNat < 0x30) : c ≠ d := by
    rintro rfl
    omega
  have hnumber : number (c :: (cs ++ rest)) = .ok (.int n, rest) := by
    rw [← List.cons_append, ← hcs]
    exact number_toDigits hn hrest
  have hsolid : Solid c (cs ++ rest) :=
    ⟨hne (by decide), not_isBlank (by omega) (by omega), opensComment_of_ne (hne (by decide)) _⟩
  exact ⟨c, cs ++ rest, by rw [hspelling, hcs, List.cons_append],
    lexeme_eq_ok_iff.2 (.number hsolid hword hdigit hnumber)⟩

/-- A text in quotes ends at the next quote. -/
theorem quoted_append {quote : Char} {cs : List Char} (hnewline : '\n' ∉ cs) (hquote : quote ∉ cs)
    (hne : quote ≠ '\n') (rest : List Char) : quoted quote (cs ++ quote :: rest) = some (cs, rest) := by
  induction cs with
  | nil => rw [List.nil_append, quoted, if_neg hne, if_pos rfl]
  | cons c cs ih =>
    obtain ⟨hc, hcs⟩ := List.ne_and_not_mem_of_not_mem_cons hnewline
    obtain ⟨hc', hcs'⟩ := List.ne_and_not_mem_of_not_mem_cons hquote
    rw [List.cons_append, quoted, if_neg hc.symm, if_neg hc'.symm, ih hcs hcs']
    rfl

/-- A text is read up to the quote that it is closed with. -/
theorem starts_text {s : String} (h : Quotable s) (rest : List Char) :
    Starts ((TokenContent.text s).spelling ++ rest) (.text s) rest := by
  have hfree : quoteFor s ∉ s.toList := by
    unfold quoteFor
    split
    · rename_i hmem
      exact h.2.resolve_left (not_not_intro hmem)
    · assumption
  have hquote : quoteFor s = '\'' ∨ quoteFor s = '"' := by
    unfold quoteFor
    split
    · exact .inr rfl
    · exact .inl rfl
  have hread := quoted_append h.1 hfree (by rcases hquote with h | h <;> rw [h] <;> decide) rest
  refine ⟨quoteFor s, s.toList ++ quoteFor s :: rest, by simp [TokenContent.spelling], ?_⟩
  have hlexeme {q : Char} (hq : q = '\'' ∨ q = '"') {cs text rest : List Char}
      (h : quoted q cs = some (text, rest)) : lexeme q cs = .ok (.token (.text (String.ofList text)), rest) := by
    have hmark : q ≠ '\n' ∧ Text.isBlank q = false ∧ q ≠ '(' ∧ isWordStart q = false ∧ q.isDigit = false := by
      rcases hq with rfl | rfl <;> decide
    obtain ⟨hnewline, hblank, hparen, hword, hdigit⟩ := hmark
    exact lexeme_eq_ok_iff.2 (.quoted ⟨hnewline, hblank, opensComment_of_ne hparen _⟩ hword hdigit hq h)
  rw [hlexeme hquote hread, String.ofList_toList]

/-- A character that starts no word, number, text or comment is taken for a mark. -/
theorem lexeme_of_mark {c : Char} {cs rest : List Char} {s : Symbol}
    (hc : (c == '\n' || Text.isBlank c || isWordStart c || c.isDigit || c == '\'' || c == '"') = false)
    (hcomment : opensComment (c :: cs) = false) (h : symbol? (c :: cs) = some (s, rest)) :
    lexeme c cs = .ok (.token (.symbol s), rest) := by
  simp only [Bool.or_eq_false_iff, beq_eq_false_iff_ne] at hc
  obtain ⟨⟨⟨⟨⟨hnewline, hblank⟩, hword⟩, hdigit⟩, hquote⟩, hquotes⟩ := hc
  exact lexeme_eq_ok_iff.2 (.symbol ⟨hnewline, hblank, hcomment⟩ hword hdigit (not_or.2 ⟨hquote, hquotes⟩) h)

/-- A mark is read as the longest one that is there. -/
theorem starts_symbol (s : Symbol) {rest : List Char} (hrest : (TokenContent.symbol s).EndsAt rest) :
    Starts ((TokenContent.symbol s).spelling ++ rest) (.symbol s) rest := by
  cases s with
  -- A mark that no other one starts with is read at once.
  | assign => exact ⟨':', '=' :: rest, rfl, rfl⟩
  | ne => exact ⟨'<', '>' :: rest, rfl, rfl⟩
  | le => exact ⟨'<', '=' :: rest, rfl, rfl⟩
  | ge => exact ⟨'>', '=' :: rest, rfl, rfl⟩
  | semi => exact ⟨';', rest, rfl, rfl⟩
  | comma => exact ⟨',', rest, rfl, rfl⟩
  | dot => exact ⟨'.', rest, rfl, rfl⟩
  | rparen => exact ⟨')', rest, rfl, rfl⟩
  | eq => exact ⟨'=', rest, rfl, rfl⟩
  | plus => exact ⟨'+', rest, rfl, rfl⟩
  | minus => exact ⟨'-', rest, rfl, rfl⟩
  | star => exact ⟨'*', rest, rfl, rfl⟩
  | slash => exact ⟨'/', rest, rfl, rfl⟩
  -- These could be the start of a longer mark or of a comment, which the end of the token excludes.
  | colon =>
    refine ⟨':', rest, rfl, lexeme_of_mark rfl rfl ?_⟩
    cases rest with
    | nil => rfl
    | cons c rest =>
      have hc : (c == '=') = false := hrest c rfl
      rw [beq_eq_false_iff_ne] at hc
      simp [symbol?, hc]
  | lt =>
    refine ⟨'<', rest, rfl, lexeme_of_mark rfl rfl ?_⟩
    cases rest with
    | nil => rfl
    | cons c rest =>
      have hc : (c == '=' || c == '>') = false := hrest c rfl
      rw [Bool.or_eq_false_iff, beq_eq_false_iff_ne, beq_eq_false_iff_ne] at hc
      simp [symbol?, hc.1, hc.2]
  | gt =>
    refine ⟨'>', rest, rfl, lexeme_of_mark rfl rfl ?_⟩
    cases rest with
    | nil => rfl
    | cons c rest =>
      have hc : (c == '=') = false := hrest c rfl
      rw [beq_eq_false_iff_ne] at hc
      simp [symbol?, hc]
  | lparen =>
    refine ⟨'(', rest, rfl, lexeme_of_mark rfl ?_ rfl⟩
    cases rest with
    | nil => rfl
    | cons c rest =>
      have hc : (c == '*') = false := hrest c rfl
      rw [beq_eq_false_iff_ne] at hc
      simp [opensComment, hc]

/-- **A token is read to its end** when what follows cannot be part of it. -/
theorem starts_spelling {t : TokenContent} (ht : t.Spelled) {rest : List Char} (hrest : t.EndsAt rest) :
    Starts (t.spelling ++ rest) t rest := by
  cases t with
  | ident word => exact starts_word ht hrest
  | int n => exact starts_number ht hrest
  | real x => exact ht.elim
  | text s => exact starts_text ht rest
  | symbol s => exact starts_symbol s hrest

theorem spelling_ne_nil {t : TokenContent} (ht : t.Spelled) : t.spelling ≠ [] := by
  have hends : t.EndsAt [] := nofun
  obtain ⟨c, cs, h, -⟩ := starts_spelling ht hends
  rw [List.append_nil] at h
  rw [h]
  exact List.cons_ne_nil c cs

/-- **A token that is written is read back**, and the tokens after it are those of the rest. -/
theorem tokensFrom_spelling {t : TokenContent} (ht : t.Spelled) {rest : List Char} (hrest : t.EndsAt rest)
    (line : UInt32) : tokensFrom line (t.spelling ++ rest) = (tokensFrom line rest).map (⟨t, line⟩ :: ·) := by
  obtain ⟨c, cs, htext, hlexeme⟩ := starts_spelling ht hrest
  rw [htext, tokensFrom_token hlexeme]

/-- No token goes on with a blank or a line feed. -/
theorem grows_blank (t : TokenContent) : t.grows ' ' = false ∧ t.grows '\n' = false := by
  cases t with
  | symbol s => cases s <;> exact ⟨rfl, rfl⟩
  | _ => exact ⟨rfl, rfl⟩

/-- **Tight tokens are apart.** The second one starts with a character that is no part of the first. -/
theorem grows_of_tight {t t' : TokenContent} (h : tight t t' = true) (ht' : t'.Spelled) {c : Char} {cs : List Char}
    (hc : t'.spelling = c :: cs) : t.grows c = false := by
  have hmark (s : Symbol) (hs : s = .semi ∨ s = .comma ∨ s = .rparen) (hc : s.text.toList = c :: cs) :
      t.grows c = false := by
    rcases hs with rfl | rfl | rfl <;> obtain ⟨rfl, -⟩ := List.cons.inj hc <;> cases t with
    | symbol s => cases s <;> rfl
    | _ => rfl
  unfold tight at h
  split at h
  case h_1 => exact hmark .semi (.inl rfl) hc
  case h_2 => exact hmark .comma (.inr (.inl rfl)) hc
  case h_3 => exact hmark .rparen (.inr (.inr rfl)) hc
  case h_4 | h_5 => obtain ⟨rfl, -⟩ := List.cons.inj hc; rfl
  case h_6 => rfl
  case h_7 | h_9 => cases h
  case h_8 hstar =>
    -- after a parenthesis only a star is not apart: it would open a comment
    refine beq_eq_false_iff_ne.2 ?_
    rintro rfl
    have hends : t'.EndsAt [] := nofun
    obtain ⟨c', cs', heq, hlexeme⟩ := starts_spelling ht' hends
    rw [List.append_nil, hc] at heq
    cases heq
    have hread : lexeme '*' cs = .ok (.token (.symbol .star), cs) := rfl
    rw [hread] at hlexeme
    cases hlexeme
    exact hstar rfl

/-- A token ends where the rest of its line or the line feed follows. -/
theorem endsAt_gap {t : TokenContent} {ts : List TokenContent} (hts : ∀ t' ∈ ts, t'.Spelled) (rest : List Char) :
    t.EndsAt (gap t ts ++ (lineText ts ++ '\n' :: rest)) := by
  intro c hc
  cases ts with
  | nil =>
    cases hc
    exact (grows_blank t).2
  | cons t' ts =>
    rw [gap] at hc
    split at hc
    · rename_i htight
      have ht' := hts t' List.mem_cons_self
      obtain ⟨c', cs, hspelling⟩ := List.exists_cons_of_ne_nil (spelling_ne_nil ht')
      rw [lineText, hspelling] at hc
      cases hc
      exact grows_of_tight htight ht' hspelling
    · cases hc
      exact (grows_blank t).1

/-- Blanks between tokens are passed over. -/
theorem tokensFrom_gap (t : TokenContent) (ts : List TokenContent) (line : UInt32) (rest : List Char) :
    tokensFrom line (gap t ts ++ rest) = tokensFrom line rest := by
  have hblank : tokensFrom line (' ' :: rest) = tokensFrom line rest := tokensFrom_blank rfl line
  cases ts with
  | nil => rfl
  | cons t' ts =>
    rw [gap]
    split
    · rfl
    · exact hblank

/-- The tokens of a line that a line feed ends. -/
theorem tokensFrom_lineText {ts : List TokenContent} (hts : ∀ t ∈ ts, t.Spelled) (line : UInt32) (rest : List Char) :
    tokensFrom line (lineText ts ++ '\n' :: rest) = (tokensFrom (line + 1) rest).map (onLine line ts ++ ·) := by
  -- each token is read up to its gap, and the gap is skipped
  induction ts with
  | nil =>
    rw [lineText, List.nil_append, tokensFrom_skip rfl line]
    cases tokensFrom (line + 1) rest <;> rfl
  | cons t ts ih =>
    obtain ⟨ht, hts⟩ := List.forall_mem_cons.1 hts
    rw [lineText, List.append_assoc, List.append_assoc, tokensFrom_spelling ht (endsAt_gap hts rest), tokensFrom_gap,
      ih hts]
    cases tokensFrom (line + 1) rest <;> rfl

/-- **The tokens of a layout are read back**, each on its line. -/
theorem tokensFrom_layoutText {lines : List (List TokenContent)} (h : ∀ ts ∈ lines, ∀ t ∈ ts, t.Spelled)
    (line : ℕ) : tokensFrom (.ofNat line) (layoutText lines) = .ok (place line lines) := by
  induction lines generalizing line with
  | nil => rw [layoutText, List.flatMap_nil, tokensFrom, place]
  | cons ts lines ih =>
    obtain ⟨hts, hlines⟩ := List.forall_mem_cons.1 h
    have htext : layoutText (ts :: lines) = lineText ts ++ '\n' :: layoutText lines := by
      rw [layoutText, List.flatMap_cons, List.append_assoc, List.singleton_append]
      rfl
    have hnext : UInt32.ofNat line + 1 = .ofNat (line + 1) := (UInt32.ofNat_add line 1).symm
    rw [htext, tokensFrom_lineText hts, hnext, ih hlines, place]
    rfl

/-- **A layout is read back**: its text has its tokens, each on its line. -/
theorem tokenize_layout {lines : List (List TokenContent)} (h : ∀ ts ∈ lines, ∀ t ∈ ts, t.Spelled) :
    tokenize (String.ofList (layoutText lines)) = .ok (place 1 lines) := by
  rw [tokenize, String.toList_ofList]
  exact tokensFrom_layoutText h 1

end Switchyard.Script

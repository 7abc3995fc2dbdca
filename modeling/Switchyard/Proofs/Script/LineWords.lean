import Switchyard.Proofs.Script.Lines
import Switchyard.Proofs.Script.Rendering
import Switchyard.Proofs.Script.Separation
import Switchyard.Text

/-!
# Where words stand in a text

Some features look for words in a text without reading it. What they find agrees with the tokens of the text, if it is
one line without comments and string literals: a text that is trimmed starts with the characters of its first token
(`front_of_line`), and what is put together of letters like a word stands inside of a word, if no number can end in its
midst (`word_of_occurrence`).

* `exists_trimChars`: what trimming takes off.
* `Bare`: pieces of a text in which no terminator begins.
-/

namespace Switchyard.Script

variable {c : Char} {cs front rest part : List Char} {n : UInt32} {ts : List Token} {w : String}

/-- **Trimming** takes off white space at both ends. -/
theorem exists_trimChars (cs : List Char) : ∃ front back, cs = front ++ (Text.trimChars cs ++ back) ∧
    (∀ c ∈ front, Text.isBlank c = true) ∧ ∀ c ∈ back, Text.isBlank c = true := by
  refine ⟨cs.takeWhile Text.isBlank, ((cs.dropWhile Text.isBlank).reverse.takeWhile Text.isBlank).reverse, ?_,
    fun c hc => List.mem_takeWhile_imp hc, fun c hc => List.mem_takeWhile_imp (List.mem_reverse.1 hc)⟩
  rw [Text.trimChars, ← List.reverse_append, List.takeWhile_append_dropWhile, List.reverse_reverse,
    List.takeWhile_append_dropWhile]

/-- A trimmed text does not start with white space. -/
theorem not_isBlank_of_trimChars (h : Text.trimChars cs = c :: rest) : Text.isBlank c = false := by
  obtain ⟨ending, hending⟩ : Text.trimChars cs <+: cs.dropWhile Text.isBlank := by
    rw [Text.trimChars, ← List.reverse_suffix, List.reverse_reverse]
    exact List.dropWhile_suffix _
  rw [h, List.cons_append] at hending
  have hhead := List.head?_dropWhile_not Text.isBlank cs
  rw [← hending] at hhead
  simpa using hhead

/-- Trimming leaves a text as it is that has no white space at its ends. -/
theorem trimChars_eq_self (hfirst : ∀ c ∈ cs.head?, Text.isBlank c = false)
    (hlast : ∀ c ∈ cs.getLast?, Text.isBlank c = false) : Text.trimChars cs = cs := by
  have hkeep {ds : List Char} (h : ∀ c ∈ ds.head?, Text.isBlank c = false) : ds.dropWhile Text.isBlank = ds := by
    cases ds with
    | nil => rfl
    | cons d ds => exact List.dropWhile_cons_of_neg (Bool.eq_false_iff.1 (h d rfl))
  rw [Text.trimChars, hkeep hfirst, hkeep (by rwa [List.head?_reverse]), List.reverse_reverse]

/-- **A search** finds what stands in the text. -/
theorem occursIn_iff : Text.occursIn part cs = true ↔ part <:+: cs := by
  induction cs with
  | nil => rw [Text.occursIn, List.isEmpty_iff, List.infix_nil]
  | cons c cs ih => rw [Text.occursIn, Bool.or_eq_true, List.isPrefixOf_iff_prefix, ih, List.infix_cons_iff]

/-- What goes on as a word is no part of it when the text goes on with something else. -/
theorem prefix_append_iff (hpart : ∀ c ∈ part, isWordChar c = true) (hrest : ∀ c ∈ rest.head?, isWordChar c = false) :
    part <+: front ++ rest ↔ part <+: front := by
  refine ⟨fun h => ?_, fun h => h.trans (List.prefix_append _ _)⟩
  induction front generalizing part with
  | nil =>
    cases part with
    | nil => exact List.nil_prefix
    | cons d part =>
      cases rest with
      | nil => exact h
      | cons c rest =>
        obtain ⟨rfl, -⟩ := List.cons_prefix_cons.1 h
        have hd := hpart d List.mem_cons_self
        rw [hrest d rfl] at hd
        cases hd
  | cons c front ih =>
    cases part with
    | nil => exact List.nil_prefix
    | cons d part =>
      obtain ⟨rfl, htail⟩ := List.cons_prefix_cons.1 h
      exact List.cons_prefix_cons.2 ⟨rfl, ih (List.forall_mem_cons.1 hpart).2 htail⟩

/-- What is a piece of two texts is a piece of one of them, if it is like a word and the first text is a word. -/
theorem infix_append_of_stop (hpart : ∀ c ∈ part, isWordChar c = true)
    (hrest : ∀ c ∈ rest.head?, isWordChar c = false) (h : part <:+: front ++ rest) :
    part <:+: front ∨ part <:+: rest := by
  induction front with
  | nil => exact .inr h
  | cons c front ih =>
    rw [List.cons_append, List.infix_cons_iff, ← List.cons_append, prefix_append_iff hpart hrest] at h
    rcases h with hstarts | hinside
    · exact .inl hstarts.isInfix
    · exact (ih hinside).imp_left fun h => h.trans (List.suffix_cons _ _).isInfix

theorem toList_upper (s : String) : (Text.upper s).toList = s.toList.map Char.toUpper := String.toList_ofList

theorem toUpper_of_not_isLower (h : c.isLower = false) : c.toUpper = c := by
  unfold Char.toUpper
  split
  · rename_i hlower
    have hlow : c.isLower = true := isLower_iff.2 ⟨hlower.1, hlower.2⟩
    rw [h] at hlow
    cases hlow
  · rfl

/-- Upper case makes no character of a word out of another one. -/
theorem not_isWordChar_toUpper (h : isWordChar c = false) : isWordChar c.toUpper = false := by
  rw [toUpper_of_not_isLower]
  · exact h
  · rw [isWordChar, Char.isAlphanum, isAlpha_eq, Bool.or_eq_false_iff, Bool.or_eq_false_iff, Bool.or_eq_false_iff] at h
    exact h.1.1.2

theorem toUpper_of_isNumberChar (h : isNumberChar c = true) : c.toUpper = c := by
  refine toUpper_of_not_isLower ?_
  rw [← Bool.not_eq_true, isLower_iff]
  rw [isNumberChar, Bool.or_eq_true, isDigit_iff, beq_iff_eq] at h
  rcases h with h | rfl
  · omega
  · decide

theorem isWordChar_of_isWordStart (h : isWordStart c = true) : isWordChar c = true := by
  rw [isWordStart] at h
  rw [isWordChar, Char.isAlphanum, Bool.or_right_comm, h, Bool.true_or]

/-- A word consists of characters of words. -/
theorem IsWord.isWordChar (h : IsWord w) : ∀ c ∈ w.toList, isWordChar c = true := by
  obtain ⟨c, cs, hw, hc, hcs⟩ := h.exists_cons
  rw [hw]
  exact List.forall_mem_cons.2 ⟨isWordChar_of_isWordStart hc, hcs⟩

/-- No letter `N` stands in a piece, and no letter `E` at its end. So none of the words that end a block begins
in it. -/
structure Bare (piece : List Char) : Prop where
  n : ∀ c ∈ piece, c.toUpper ≠ 'N'
  e : ∀ c ∈ piece.getLast?, c.toUpper ≠ 'E'

namespace Bare

theorem singleton (hn : c.toUpper ≠ 'N') (he : c.toUpper ≠ 'E') : Bare [c] := by
  refine ⟨List.forall_mem_singleton.2 hn, fun d hd => ?_⟩
  cases hd
  exact he

/-- Bare pieces put together are bare. -/
theorem append {piece more : List Char} (h : Bare piece) (h' : Bare more) : Bare (piece ++ more) := by
  refine ⟨List.forall_mem_append.2 ⟨h.n, h'.n⟩, fun c hc => ?_⟩
  rw [List.getLast?_append, Option.mem_def, Option.or_eq_some_iff] at hc
  rcases hc with hc | ⟨-, hc⟩
  · exact h'.e c hc
  · exact h.e c hc

/-- The piece goes on behind a character that is no `N`. -/
theorem cons (hn : c.toUpper ≠ 'N') (h : Bare cs) (hne : cs ≠ []) : Bare (c :: cs) := by
  refine ⟨List.forall_mem_cons.2 ⟨hn, h.n⟩, fun d hd => ?_⟩
  obtain ⟨c', cs', rfl⟩ := List.exists_cons_of_ne_nil hne
  exact h.e d hd

theorem tail (h : Bare (c :: cs)) : Bare cs := by
  refine ⟨(List.forall_mem_cons.1 h.n).2, fun d hd => ?_⟩
  cases cs with
  | nil => cases hd
  | cons c' cs => exact h.e d hd

/-- No end of a block begins in a number. -/
theorem of_isNumberChar (h : ∀ c ∈ cs, isNumberChar c = true) : Bare cs := by
  have hne (c : Char) (hc : c ∈ cs) : c.toUpper ≠ 'N' ∧ c.toUpper ≠ 'E' := by
    have hnumber := h c hc
    rw [toUpper_of_isNumberChar hnumber]
    constructor <;> rintro rfl <;> cases hnumber
  exact ⟨fun c hc => (hne c hc).1, fun c hc => (hne c (List.mem_of_getLast? hc)).2⟩

theorem of_isDigit (h : ∀ c ∈ cs, c.isDigit = true) : Bare cs :=
  of_isNumberChar fun c hc => by rw [isNumberChar, h c hc, Bool.true_or]

/-- **No terminator begins in a bare piece.** -/
theorem infix_of_append {more : List Char} (h : Bare front)
    (hinside : 'E' :: 'N' :: more <:+: (front ++ rest).map Char.toUpper) :
    'E' :: 'N' :: more <:+: rest.map Char.toUpper := by
  induction front with
  | nil => exact hinside
  | cons c front ih =>
    rw [List.cons_append, List.map_cons, List.infix_cons_iff] at hinside
    refine hinside.elim (fun hstarts => ?_) (ih h.tail)
    obtain ⟨hc, hnext⟩ := List.cons_prefix_cons.1 hstarts
    cases front with
    | nil => exact absurd hc.symm (h.e c rfl)
    | cons d front =>
      obtain ⟨hd, -⟩ := List.cons_prefix_cons.1 hnext
      exact absurd hd.symm (h.n d (List.mem_cons_of_mem _ List.mem_cons_self))

end Bare

/-- A text goes on behind a bare piece. -/
def BareThen (cs rest : List Char) : Prop := ∃ piece, cs = piece ++ rest ∧ Bare piece

/-- What stands in front of the rest may be read in two parts. -/
theorem BareThen.trans {mid : List Char} (h : BareThen cs mid) (h' : BareThen mid rest) : BareThen cs rest := by
  obtain ⟨piece, rfl, hpiece⟩ := h
  obtain ⟨more, rfl, hmore⟩ := h'
  exact ⟨piece ++ more, (List.append_assoc ..).symm, hpiece.append hmore⟩

theorem bareThen_digits (cs : List Char) : BareThen cs (cs.dropWhile Char.isDigit) :=
  ⟨cs.takeWhile Char.isDigit, List.takeWhile_append_dropWhile.symm, .of_isDigit fun _ hc => List.mem_takeWhile_imp hc⟩

/-- No end of a block begins in a fraction. -/
theorem bareThen_fraction {digits : List Char} (h : fraction cs = some (digits, rest)) : BareThen cs rest := by
  unfold fraction at h
  split at h
  · split at h
    · cases h
      exact BareThen.trans ⟨['.'], rfl, .singleton (by decide) (by decide)⟩ (bareThen_digits _)
    · cases h
  · cases h

/-- The digits of an exponent go on behind at least one of them. -/
theorem bareThen_exponentDigits {negative : Bool} {e : Int} (h : exponentDigits negative cs = some (e, rest)) :
    ∃ piece, cs = piece ++ rest ∧ Bare piece ∧ piece ≠ [] := by
  rw [exponentDigits] at h
  split at h
  · rename_i hstart
    cases h
    obtain ⟨piece, hcs, hpiece⟩ := bareThen_digits cs
    refine ⟨piece, hcs, hpiece, ?_⟩
    rintro rfl
    cases cs with
    | nil => cases hstart
    | cons c cs =>
      have hdigit : c.isDigit = true := hstart
      rw [List.nil_append, List.dropWhile_cons_of_pos hdigit] at hcs
      have hlength := (List.dropWhile_suffix Char.isDigit (l := cs)).length_le
      rw [← hcs, List.length_cons] at hlength
      omega
  · cases h

/-- No end of a block begins in an exponent, whose `E` a digit or a sign follows. -/
theorem bareThen_exponent {e : Int} (h : exponent cs = some (e, rest)) : BareThen cs rest := by
  unfold exponent at h
  split at h
  · rename_i c cs
    split at h
    · rename_i hc
      have hn : c.toUpper ≠ 'N' := by rcases hc with rfl | rfl <;> decide
      split at h
      all_goals
        obtain ⟨piece, rfl, hpiece, hne⟩ := bareThen_exponentDigits h
        first
          | exact ⟨c :: _ :: piece, rfl, .cons hn (.cons (by decide) hpiece hne) (List.cons_ne_nil _ _)⟩
          | exact ⟨c :: piece, rfl, .cons hn hpiece hne⟩
    · cases h
  · cases h

/-- A number is a bare piece, and no word. -/
theorem bareThen_number {t : TokenContent} (h : number cs = .ok (t, rest)) :
    BareThen cs rest ∧ ∀ w, t ≠ .ident w := by
  -- A number is digits, maybe a fraction, and maybe an exponent.
  have hwhole : BareThen cs (cs.dropWhile isNumberChar) :=
    ⟨cs.takeWhile isNumberChar, List.takeWhile_append_dropWhile.symm,
      .of_isNumberChar fun _ hc => List.mem_takeWhile_imp hc⟩
  have hreal (x : Float) (w : String) : TokenContent.real x ≠ .ident w := by
    intro heq
    cases heq
  rw [number] at h
  cases hfraction : fraction (cs.dropWhile isNumberChar) with
  | some found =>
    simp only [hfraction] at h
    cases h
    refine ⟨hwhole.trans ?_, hreal _⟩
    have hleft := bareThen_fraction hfraction
    cases hexponent : exponent found.2 with
    | none => exact hleft
    | some left => exact hleft.trans (bareThen_exponent hexponent)
  | none =>
    simp only [hfraction] at h
    cases hexponent : exponent (cs.dropWhile isNumberChar) with
    | some found =>
      simp only [hexponent] at h
      cases h
      exact ⟨hwhole.trans (bareThen_exponent hexponent), hreal _⟩
    | none =>
      simp only [hexponent] at h
      split at h
      · cases h
        refine ⟨hwhole, fun w heq => ?_⟩
        cases heq
      · cases h

/-- No end of a block begins in a symbol. -/
theorem bareThen_symbol {s : Symbol} (h : symbol? cs = some (s, rest)) : BareThen cs rest := by
  unfold symbol? at h
  split at h <;> cases h
  -- a mark is the first character, or the first two
  all_goals
    first
      | exact ⟨[_, _], rfl, .cons (by decide) (.singleton (by decide) (by decide)) (List.cons_ne_nil _ _)⟩
      | exact ⟨[_], rfl, .singleton (by decide) (by decide)⟩

/-- The tokens after the first one are those of the rest. -/
theorem tokensFrom_token_eq_ok {t : TokenContent} (hread : lexeme c cs = .ok (.token t, rest))
    (h : tokensFrom n (c :: cs) = .ok ts) : ∃ later, ts = ⟨t, n⟩ :: later ∧ tokensFrom n rest = .ok later := by
  rw [tokensFrom_token hread] at h
  cases hlater : tokensFrom n rest with
  | error e =>
    rw [hlater] at h
    cases h
  | ok later =>
    rw [hlater] at h
    cases h
    exact ⟨later, rfl, rfl⟩

/-- **A text of one line** without string literals and comments. -/
structure SingleLine (cs : List Char) : Prop where
  newline : '\n' ∉ cs
  quotes : '\'' ∉ cs ∧ '"' ∉ cs
  comments : ¬ ['(', '*'] <:+: cs

theorem SingleLine.piece (h : SingleLine cs) (hpart : part <:+: cs) : SingleLine part :=
  ⟨fun hmem => h.newline (hpart.subset hmem),
    ⟨fun hmem => h.quotes.1 (hpart.subset hmem), fun hmem => h.quotes.2 (hpart.subset hmem)⟩,
    fun hinside => h.comments (hinside.trans hpart)⟩

/-- **A lexeme of one line** is a word, or a bare piece of the text. -/
theorem Lexed.cases_single {item : Lexeme} (h : Lexed c cs item rest) (hline : SingleLine (c :: cs)) :
    (∃ w, item = .token (.ident w) ∧ c :: cs = w.toList ++ rest ∧ ∀ d ∈ rest.head?, isWordChar d = false) ∨
      BareThen (c :: cs) rest := by
  cases h with
  | newline hc => exact absurd (hc ▸ List.mem_cons_self) hline.newline
  | blank hc hblank =>
    have hne {d : Char} (hd : isWordChar d = true) : c.toUpper ≠ d := by
      rintro rfl
      rw [not_isWordChar_toUpper (isWordChar_of_isBlank hblank)] at hd
      cases hd
    exact .inr ⟨[c], rfl, .singleton (hne (by decide)) (hne (by decide))⟩
  | comment hc hcs =>
    subst hc hcs
    exact absurd ⟨[], _, rfl⟩ hline.comments
  | word hsolid hword =>
    refine .inl ⟨_, rfl, ?_, fun d hd => ?_⟩
    · rw [String.toList_ofList, List.cons_append, List.takeWhile_append_dropWhile]
    · have hstop := List.head?_dropWhile_not isWordChar cs
      rw [Option.mem_def.1 hd] at hstop
      simpa using hstop
  | number _ _ _ hnumber => exact .inr (bareThen_number hnumber).1
  | quoted _ _ _ hquote =>
    rcases hquote with rfl | rfl
    · exact absurd List.mem_cons_self hline.quotes.1
    · exact absurd List.mem_cons_self hline.quotes.2
  | symbol _ _ _ _ hsymbol => exact .inr (bareThen_symbol hsymbol)

/-- **What is found in a line is in one of its words**, if it is like a word and begins like a terminator. -/
theorem word_of_occurrence {more : List Char} (h : tokensFrom n cs = .ok ts) (hline : SingleLine cs)
    (hmore : ∀ c ∈ more, isWordChar c = true) (hinside : 'E' :: 'N' :: more <:+: cs.map Char.toUpper) :
    ∃ t ∈ ts, ∃ w, t.content = .ident w ∧ 'E' :: 'N' :: more <:+: (Text.upper w).toList := by
  have hpart : ∀ c ∈ 'E' :: 'N' :: more, isWordChar c = true :=
    List.forall_mem_cons.2 ⟨by decide, List.forall_mem_cons.2 ⟨by decide, hmore⟩⟩
  -- A piece that is no word has no `EN` in it, and none begins in it, so the occurrence lies behind it.
  fun_induction tokensFrom n cs generalizing ts with
  | case1 => cases List.infix_nil.1 hinside
  | case2 => cases h
  | case3 line c cs rest hle newlines hread ih =>
    rcases (lexeme_eq_ok_iff.1 hread).cases_single hline with ⟨w, hw, -⟩ | ⟨piece, hcs, hpiece⟩
    · cases hw
    · rw [hcs] at hinside hline
      exact ih h (hline.piece (List.suffix_append _ _).isInfix) (hpiece.infix_of_append hinside)
  | case4 line c cs rest hle content hread ih =>
    obtain ⟨later, rfl, hlater⟩ := tokensFrom_token_eq_ok hread (tokensFrom_token hread line ▸ h)
    suffices hsuffices : (∃ w, content = .ident w ∧ 'E' :: 'N' :: more <:+: (Text.upper w).toList) ∨
        'E' :: 'N' :: more <:+: rest.map Char.toUpper by
      rcases hsuffices with ⟨w, hw, hinside⟩ | hbehind
      · exact ⟨_, List.mem_cons_self, w, hw, hinside⟩
      · obtain ⟨front, hcs, -⟩ := lexeme_leaves hread
        have hline' : SingleLine rest := hline.piece (hcs ▸ (List.suffix_append (c :: front) rest).isInfix)
        obtain ⟨t, ht, hword⟩ := ih hlater hline' hbehind
        exact ⟨t, List.mem_cons_of_mem _ ht, hword⟩
    rcases (lexeme_eq_ok_iff.1 hread).cases_single hline with ⟨w, hw, hcs, hstop⟩ | ⟨piece, hcs, hpiece⟩
    · cases hw
      rw [hcs, List.map_append] at hinside
      -- The word ends before a character that is in no word, so the occurrence lies inside of it or behind it.
      have hstop' : ∀ d ∈ (rest.map Char.toUpper).head?, isWordChar d = false := by
        rw [List.head?_map]
        intro d hd
        obtain ⟨c, hc, rfl⟩ := Option.map_eq_some_iff.1 hd
        exact not_isWordChar_toUpper (hstop c hc)
      exact (infix_append_of_stop hpart hstop' hinside).imp_left fun hinside => ⟨w, rfl, by rwa [toList_upper]⟩
    · rw [hcs] at hinside
      exact .inr (hpiece.infix_of_append hinside)
  | case5 line c cs item rest hread hle => exact absurd (length_le_of_lexeme hread) hle

/-- What is read as a word is one. -/
theorem isWord_of_lexeme (h : lexeme c cs = .ok (.token (.ident w), rest)) : IsWord w := by
  cases lexeme_eq_ok_iff.1 h with
  | word _ hstart =>
    rw [IsWord, String.toList_ofList, List.head?_cons, Option.any_some, List.tail_cons, List.all_eq_true]
    exact ⟨hstart, fun d hd => List.mem_takeWhile_imp hd⟩
  | number _ _ _ hnumber => exact absurd rfl ((bareThen_number hnumber).2 w)

/-- **The words of a text** start like words and go on like words. -/
theorem isWord_of_tokensFrom (h : tokensFrom n cs = .ok ts) : ∀ t ∈ ts, ∀ w, t.content = .ident w → IsWord w := by
  fun_induction tokensFrom n cs generalizing ts with
  | case1 =>
    cases h
    exact List.forall_mem_nil _
  | case2 => cases h
  | case3 _ _ _ _ _ _ _ ih => exact ih h
  | case4 line c cs rest hle content hread ih =>
    obtain ⟨later, rfl, hlater⟩ := tokensFrom_token_eq_ok hread (tokensFrom_token hread line ▸ h)
    refine List.forall_mem_cons.2 ⟨fun w hw => ?_, ih hlater⟩
    cases hw
    exact isWord_of_lexeme hread
  | case5 _ c cs item rest hread hle => exact absurd (length_le_of_lexeme hread) hle

/-- Blanks in front of a line are passed over. -/
theorem tokensFrom_blanks (h : ∀ c ∈ front, Text.isBlank c = true) (hline : '\n' ∉ front) (n : UInt32)
    (cs : List Char) : tokensFrom n (front ++ cs) = tokensFrom n cs := by
  induction front with
  | nil => rfl
  | cons c front ih =>
    rw [List.mem_cons, not_or] at hline
    obtain ⟨hc, hfront⟩ := List.forall_mem_cons.1 h
    have hlexeme : lexeme c (front ++ cs) = .ok (.skip 0, front ++ cs) :=
      lexeme_eq_ok_iff.2 (.blank (fun heq => hline.1 heq.symm) hc)
    rw [List.cons_append, tokensFrom_blank hlexeme, ih hfront hline.2]

/-- White space at the end does not change a word. -/
theorem takeWhile_append_blanks {back : List Char} (cs : List Char) (hback : ∀ c ∈ back, Text.isBlank c = true) :
    (cs ++ back).takeWhile isWordChar = cs.takeWhile isWordChar := by
  have hstop : ∀ c ∈ (cs.dropWhile isWordChar ++ back).head?, isWordChar c = false := by
    intro c hc
    rw [List.head?_append, Option.mem_def, Option.or_eq_some_iff] at hc
    rcases hc with hc | ⟨-, hc⟩
    · have hnot := List.head?_dropWhile_not isWordChar cs
      rw [hc] at hnot
      simpa using hnot
    · exact isWordChar_of_isBlank (hback c (List.mem_of_head? hc))
  have hspan := (span_of_stop (fun c (hc : c ∈ cs.takeWhile isWordChar) => List.mem_takeWhile_imp hc) hstop).1
  rwa [← List.append_assoc, List.takeWhile_append_dropWhile] at hspan

/-- What starts with a visible character starts with its first token, white space at the end apart. -/
theorem front_of_solid {back : List Char} (h : tokensFrom n (c :: (rest ++ back)) = .ok ts)
    (hline : SingleLine (c :: (rest ++ back))) (hblank : Text.isBlank c = false)
    (hback : ∀ c ∈ back, Text.isBlank c = true) :
    ((∀ keyword, atKeyword keyword ts = false) ∧ isWordStart c = false) ∨
      ∃ w behind after, ts = ⟨.ident w, n⟩ :: behind ∧ c :: rest = w.toList ++ after ∧
        (∀ c ∈ w.toList, isWordChar c = true) ∧ ∀ c ∈ after.head?, isWordChar c = false := by
  cases hread : lexeme c (rest ++ back) with
  | error fault =>
    rw [tokensFrom_fault hread] at h
    cases h
  | ok found =>
    obtain ⟨item, left⟩ := found
    have hother {t : TokenContent} (hread : lexeme c (rest ++ back) = .ok (.token t, left))
        (ht : ∀ w, t ≠ .ident w) (keyword : String) : atKeyword keyword ts = false := by
      obtain ⟨later, rfl, -⟩ := tokensFrom_token_eq_ok hread h
      cases t with
      | ident w => exact absurd rfl (ht w)
      | _ => rfl
    -- The first character is no blank, so a token starts there, and it is a word or not.
    cases lexeme_eq_ok_iff.1 hread with
    | newline hc => exact absurd (hc ▸ List.mem_cons_self) hline.newline
    | blank _ hc =>
      rw [hblank] at hc
      cases hc
    | comment hc hafter =>
      rw [hc, hafter] at hline
      exact absurd ⟨[], _, rfl⟩ hline.comments
    | word hsolid hfirst =>
      obtain ⟨later, rfl, -⟩ := tokensFrom_token_eq_ok hread h
      have htake := takeWhile_append_blanks rest hback
      refine .inr ⟨_, later, rest.dropWhile isWordChar, rfl, ?_, ?_, fun d hd => ?_⟩
      · rw [String.toList_ofList, htake, List.cons_append, List.takeWhile_append_dropWhile]
      · rw [String.toList_ofList, htake]
        exact List.forall_mem_cons.2 ⟨isWordChar_of_isWordStart hfirst, fun d hd => List.mem_takeWhile_imp hd⟩
      · have hstop := List.head?_dropWhile_not isWordChar rest
        rw [Option.mem_def.1 hd] at hstop
        simpa using hstop
    | number _ hfirst _ hnumber => exact .inl ⟨hother hread (bareThen_number hnumber).2, hfirst⟩
    | quoted _ hfirst => exact .inl ⟨hother hread (fun _ heq => by cases heq), hfirst⟩
    | symbol _ hfirst => exact .inl ⟨hother hread (fun _ heq => by cases heq), hfirst⟩

/-- **A line starts with its first token**: with a word, which ends where it ends in the text, or with nothing like a
word. -/
theorem front_of_line (h : tokensFrom n cs = .ok ts) (hline : SingleLine cs) :
    ((∀ keyword, atKeyword keyword ts = false) ∧ ∀ c ∈ (Text.trimChars cs).head?, isWordStart c = false) ∨
      ∃ w behind after, ts = ⟨.ident w, n⟩ :: behind ∧ Text.trimChars cs = w.toList ++ after ∧
        (∀ c ∈ w.toList, isWordChar c = true) ∧ ∀ c ∈ after.head?, isWordChar c = false := by
  obtain ⟨front, back, hcs, hfront, hback⟩ := exists_trimChars cs
  have hline' : SingleLine (Text.trimChars cs ++ back) := hline.piece ⟨front, [], by rw [List.append_nil, ← hcs]⟩
  rw [hcs, tokensFrom_blanks hfront fun hmem => hline.newline (hcs ▸ List.mem_append_left _ hmem)] at h
  cases htrim : Text.trimChars cs with
  | nil =>
    rw [htrim, List.nil_append] at h hline'
    have hnone := tokensFrom_blanks hback hline'.newline n []
    rw [List.append_nil, h, tokensFrom] at hnone
    cases hnone
    refine .inl ⟨fun _ => rfl, fun c hc => ?_⟩
    cases hc
  | cons c rest =>
    rw [htrim, List.cons_append] at h hline'
    refine (front_of_solid h hline' (not_isBlank_of_trimChars htrim) hback).imp_left fun hother => ⟨hother.1, ?_⟩
    intro d hd
    cases hd
    exact hother.2

end Switchyard.Script

import Mathlib.Data.List.Infix
import Switchyard.Engine.CallStack
import Switchyard.Proofs.Script.LineWords
import Switchyard.Proofs.Script.Outline

/-!
# Call stacks and blocks

The call stack of a line is found in the text alone, by the first words of the lines before it. If a program is plainly
laid out, this is the nesting of its blocks (`scan_outlined`), as long as no variable has a name that looks like a word
for blocks (`Misleading`). Every such name misleads the scan of some program (`callStack_shows_blocks_iff`).

* `scanLine_eq`: what a line does to the stack, by its first token.
* `ShowsBlocks`: the call stacks of the statements of a program are the headers around them.
-/

namespace Switchyard.Engine

open Switchyard.Script

variable {stack : List StackFrame} {n : UInt32} {raw after : List Char} {w : String} {word : List Char}

/-- A text starts with a word exactly if the word is all of its front. -/
theorem opensWith_iff {front : List Char} (hword : ∀ c ∈ word, isWordChar c = true)
    (hfront : ∀ c ∈ front, isWordChar c = true) (hafter : ∀ c ∈ after.head?, isWordChar c = false) :
    opensWith word (front ++ after) = true ↔ word = front := by
  rw [opensWith, Bool.and_eq_true, List.isPrefixOf_iff_prefix, prefix_append_iff hword hafter]
  constructor
  · rintro ⟨⟨more, rfl⟩, hends⟩
    rw [List.append_assoc, List.drop_left] at hends
    cases more with
    | nil => exact (List.append_nil _).symm
    | cons c more =>
      have hc : isWordPart c = true := hfront c (by simp)
      rw [List.cons_append, List.head?_cons, Option.all_some, hc] at hends
      cases hends
  · rintro rfl
    refine ⟨List.prefix_refl _, ?_⟩
    rw [List.drop_left]
    cases hhead : after.head? with
    | none => rfl
    | some c =>
      have hc : isWordPart c = false := hafter c hhead
      rw [Option.all_some, hc]
      rfl

/-- A line that does not start with a word leaves the stack as it is. -/
theorem scanLine_of_front (h : ∀ c ∈ (Text.trimChars raw).head?, isWordStart c = false) :
    scanLine stack n raw = stack := by
  have hstarts (word : List Char) (hword : word.head?.any isWordStart = true) :
      word.isPrefixOf ((Text.trimChars raw).map Char.toUpper) = false := by
    cases word with
    | nil => cases hword
    | cons k more =>
      cases htext : Text.trimChars raw with
      | nil => rfl
      | cons c cs =>
        have hc : isWordStart c = false := h c (by rw [htext]; rfl)
        have hlower : c.isLower = false := by
          rw [isWordStart, isAlpha_eq, Bool.or_eq_false_iff, Bool.or_eq_false_iff] at hc
          exact hc.1.2
        rw [List.map_cons, List.isPrefixOf, toUpper_of_not_isLower hlower, Bool.and_eq_false_iff]
        refine .inl (beq_eq_false_iff_ne.2 ?_)
        rintro rfl
        rw [List.head?_cons, Option.any_some, hc] at hword
        cases hword
  have hopens (word : List Char) (hword : word.head?.any isWordStart = true) :
      opensWith word ((Text.trimChars raw).map Char.toUpper) = false := by
    rw [opensWith, hstarts word hword, Bool.false_and]
  simp only [scanLine, hstarts "END_IF".toList rfl, hstarts "END_WHILE".toList rfl, hstarts "ELSIF".toList rfl,
    hopens "IF".toList rfl, hopens "WHILE".toList rfl, Bool.or_self, Bool.false_eq_true, if_false]

/-- **What a line does to the stack** that starts with a word. -/
theorem scanLine_of_word (htrim : Text.trimChars raw = w.toList ++ after) (hw : ∀ c ∈ w.toList, isWordChar c = true)
    (hafter : ∀ c ∈ after.head?, isWordChar c = false) :
    scanLine stack n raw =
      if "END_IF".toList <+: (Text.upper w).toList ∨ "END_WHILE".toList <+: (Text.upper w).toList then stack.tail
      else if "ELSIF".toList <+: (Text.upper w).toList then ⟨n, Text.trimChars raw⟩ :: stack.tail
      else if Text.upper w = "IF" ∨ Text.upper w = "WHILE" then
        if "END_IF".toList <:+: (Text.trimChars raw).map Char.toUpper ∨
          "END_WHILE".toList <:+: (Text.trimChars raw).map Char.toUpper then stack
        else ⟨n, Text.trimChars raw⟩ :: stack
      else stack := by
  have hupper : (Text.trimChars raw).map Char.toUpper = (Text.upper w).toList ++ after.map Char.toUpper := by
    rw [htrim, List.map_append, toList_upper]
  have hfront : ∀ c ∈ (Text.upper w).toList, isWordChar c = true := by
    rw [toList_upper]
    intro c hc
    obtain ⟨d, hd, rfl⟩ := List.mem_map.1 hc
    exact isWordChar_toUpper (hw d hd)
  -- Upper case turns no other character into one of a word, so the front of the line ends at the same place.
  have hends : ∀ c ∈ (after.map Char.toUpper).head?, isWordChar c = false := by
    rw [List.head?_map]
    intro c hc
    obtain ⟨d, hd, rfl⟩ := Option.map_eq_some_iff.1 hc
    exact not_isWordChar_toUpper (hafter d hd)
  have hstarts (word : List Char) (hword : word.all isWordChar = true) :
      word.isPrefixOf ((Text.trimChars raw).map Char.toUpper) = true ↔ word <+: (Text.upper w).toList := by
    rw [List.isPrefixOf_iff_prefix, hupper, prefix_append_iff (List.all_eq_true.1 hword) hends]
  have hopens (keyword : String) (hword : keyword.toList.all isWordChar = true) :
      opensWith keyword.toList ((Text.trimChars raw).map Char.toUpper) = true ↔ Text.upper w = keyword := by
    rw [hupper, opensWith_iff (List.all_eq_true.1 hword) hfront hends, String.toList_inj, eq_comm]
  simp only [scanLine, Bool.or_eq_true, hstarts "END_IF".toList rfl, hstarts "END_WHILE".toList rfl,
    hstarts "ELSIF".toList rfl, hopens "IF" rfl, hopens "WHILE" rfl, occursIn_iff]

/-- **The scan of a line that starts with a word** goes by this word alone, but for a look for ends of blocks behind a
header. -/
theorem scanLine_of_ident {behind : List Token} (h : tokensFrom n raw = .ok (⟨.ident w, n⟩ :: behind))
    (hline : SingleLine raw) : scanLine stack n raw =
      if "END_IF".toList <+: (Text.upper w).toList ∨ "END_WHILE".toList <+: (Text.upper w).toList then stack.tail
      else if "ELSIF".toList <+: (Text.upper w).toList then ⟨n, Text.trimChars raw⟩ :: stack.tail
      else if Text.upper w = "IF" ∨ Text.upper w = "WHILE" then
        if "END_IF".toList <:+: (Text.trimChars raw).map Char.toUpper ∨
          "END_WHILE".toList <:+: (Text.trimChars raw).map Char.toUpper then stack
        else ⟨n, Text.trimChars raw⟩ :: stack
      else stack := by
  rcases front_of_line h hline with ⟨hnone, -⟩ | ⟨w', behind', after, htokens, htrim, hw, hafter⟩
  · have hword := hnone (Text.upper w)
    rw [atKeyword, spells, BEq.rfl] at hword
    cases hword
  · cases htokens
    exact scanLine_of_word htrim hw hafter

/-- **Names that the scan takes for words of blocks**: those that start with `ELSIF`, and those in which there is
`END_IF` or `END_WHILE`. -/
def Misleading (key : String) : Prop :=
  "ELSIF".toList <+: key.toList ∨ "END_IF".toList <:+: key.toList ∨ "END_WHILE".toList <:+: key.toList

instance (key : String) : Decidable (Misleading key) :=
  inferInstanceAs (Decidable
    ("ELSIF".toList <+: key.toList ∨ "END_IF".toList <:+: key.toList ∨ "END_WHILE".toList <:+: key.toList))

/-- A word of the language, or a name that does not mislead. -/
def Clear (word : String) : Prop := word ∈ languageWords ∨ ¬ Misleading word

/-- Clear words are what they look like. -/
theorem Clear.eq_of_elsif {word : String} (h : Clear word) (hstarts : "ELSIF".toList <+: word.toList) :
    word = "ELSIF" := by
  have hlanguage : ∀ word ∈ languageWords, "ELSIF".toList <+: word.toList → word = "ELSIF" := by decide +kernel
  exact h.elim (fun hmem => hlanguage word hmem hstarts) (absurd (.inl hstarts))

/-- In a word that does not mislead, the end of a block stands only by itself. -/
theorem Clear.eq_of_end {word keyword : String} (h : Clear word) (hkeyword : keyword ∈ ["END_IF", "END_WHILE"])
    (hinside : keyword.toList <:+: word.toList) : word = keyword := by
  have hlanguage : ∀ keyword ∈ ["END_IF", "END_WHILE"], ∀ word ∈ languageWords,
      keyword.toList <:+: word.toList → word = keyword := by decide +kernel
  refine h.elim (fun hmem => hlanguage keyword hkeyword word hmem hinside) (absurd ?_)
  rcases List.mem_cons.1 hkeyword with rfl | hkeyword
  · exact .inr (.inl hinside)
  · rw [List.mem_singleton.1 hkeyword] at hinside
    exact .inr (.inr hinside)

/-- **Lines that can be scanned**: they are laid out plainly, and no name in them misleads. -/
structure Readable (l : SourceLine) : Prop where
  regular : l.Regular
  read : tokensFrom l.number l.text = .ok l.tokens
  single : SingleLine l.text
  words : ∀ t ∈ l.tokens, ∀ w, t.content = .ident w → Clear (Text.upper w)

/-- The header of a block as the call stack shows it. -/
def headerFrame (l : SourceLine) : StackFrame := ⟨l.number, Text.trimChars l.text⟩

variable {l : SourceLine}

/-- In a header there is no word that ends a block. -/
theorem Readable.not_occurs {behind : List Token} (h : Readable l) (htokens : l.tokens = ⟨.ident w, n⟩ :: behind)
    (hw : Text.upper w ∈ headerFrames.map Prod.fst) (keyword : String) (hkeyword : keyword ∈ ["END_IF", "END_WHILE"]) :
    ¬ keyword.toList <:+: (Text.trimChars l.text).map Char.toUpper := by
  intro hinside
  obtain ⟨more, hmore, hword⟩ : ∃ more, keyword.toList = 'E' :: 'N' :: more ∧ more.all isWordChar = true := by
    rcases List.mem_cons.1 hkeyword with rfl | hkeyword
    · exact ⟨"D_IF".toList, rfl, rfl⟩
    · rw [List.mem_singleton.1 hkeyword]
      exact ⟨"D_WHILE".toList, rfl, rfl⟩
  have htext : (Text.trimChars l.text).map Char.toUpper <:+: l.text.map Char.toUpper := by
    obtain ⟨front, back, htext, -, -⟩ := exists_trimChars l.text
    exact List.IsInfix.map _ ⟨front, back, by rw [List.append_assoc, ← htext]⟩
  rw [hmore] at hinside
  obtain ⟨t, ht, w', hw', hinside⟩ :=
    word_of_occurrence h.read h.single (List.all_eq_true.1 hword) (hinside.trans htext)
  rw [← hmore] at hinside
  have hkey : Text.upper w' = keyword := (h.words t ht w' hw').eq_of_end hkeyword hinside
  have hform := h.regular.form
  rw [htokens, List.map_cons] at hform
  obtain ⟨inner, closing, hcs, hclosing, hinner⟩ := hform.of_header hw
  -- the word that is found opens or closes the header, or it stands in between
  have hcontent : TokenContent.ident w' ∈ .ident w :: (inner ++ [.ident closing]) := by
    rw [← hcs, ← List.map_cons (f := Token.content) (a := ⟨.ident w, n⟩), ← htokens, ← hw']
    exact List.mem_map_of_mem ht
  have hframes : ∀ keyword ∈ ["END_IF", "END_WHILE"], keyword ∉ headerFrames.map Prod.fst ∧
      keyword ∉ headerFrames.map Prod.snd ∧ keyword ∈ blockWords := by decide
  obtain ⟨hfirst, hlast, hblock⟩ := hframes keyword hkeyword
  rcases List.mem_cons.1 hcontent with heq | hmem
  · cases heq
    exact hfirst (hkey ▸ hw)
  rcases List.mem_append.1 hmem with hmem | hmem
  · exact (hinner _ hmem).2 w' rfl (hkey ▸ hblock)
  · cases List.mem_singleton.1 hmem
    exact hlast (hkey ▸ hclosing)

/-- **What a line does to the stack**, by the word that it starts with. -/
theorem scanLine_eq (h : Readable l) : scanLine stack l.number l.text =
    if l.leads "END_IF" ∨ l.leads "END_WHILE" then stack.tail
    else if l.leads "ELSIF" then headerFrame l :: stack.tail
    else if l.leads "IF" ∨ l.leads "WHILE" then headerFrame l :: stack
    else stack := by
  rcases front_of_line h.read h.single with ⟨hnone, hfront⟩ | ⟨w, behind, after, htokens, htrim, hw, hafter⟩
  · simp only [scanLine_of_front hfront, SourceLine.leads, hnone, Bool.false_eq_true, or_self, if_false]
  · have hclear : Clear (Text.upper w) := h.words _ (htokens ▸ List.mem_cons_self) w rfl
    have hend (keyword : String) (hkeyword : keyword ∈ ["END_IF", "END_WHILE"]) :
        keyword.toList <+: (Text.upper w).toList ↔ Text.upper w = keyword :=
      ⟨fun hstarts => hclear.eq_of_end hkeyword hstarts.isInfix, fun heq => heq ▸ List.prefix_refl _⟩
    have helsif : "ELSIF".toList <+: (Text.upper w).toList ↔ Text.upper w = "ELSIF" :=
      ⟨hclear.eq_of_elsif, fun heq => heq ▸ List.prefix_refl _⟩
    rw [scanLine_of_word htrim hw hafter]
    simp only [SourceLine.leads_iff htokens, hend "END_IF" (by decide), hend "END_WHILE" (by decide), helsif,
      headerFrame]
    by_cases hheader : Text.upper w = "IF" ∨ Text.upper w = "WHILE"
    · have hmem : Text.upper w ∈ headerFrames.map Prod.fst := by rcases hheader with hw | hw <;> rw [hw] <;> decide
      have hoccurs := not_or.2 ⟨h.not_occurs htokens hmem "END_IF" (by decide),
        h.not_occurs htokens hmem "END_WHILE" (by decide)⟩
      simp only [if_neg hoccurs]
    · simp only [if_neg hheader]

/-- The stack in front of a line with these headers around it, from the outside in. -/
def openHeaders (hs : List SourceLine) : List StackFrame := (hs.map headerFrame).reverse

/-- The header of an inner block goes on top. -/
theorem openHeaders_concat (hs : List SourceLine) (l : SourceLine) :
    openHeaders (hs ++ [l]) = headerFrame l :: openHeaders hs := by
  rw [openHeaders, List.map_append, List.reverse_append]
  rfl

/-- What some lines do to the stack. -/
def scan (stack : List StackFrame) (ls : List SourceLine) : List StackFrame :=
  ls.foldl (fun stack l => scanLine stack l.number l.text) stack

theorem scan_cons (stack : List StackFrame) (l : SourceLine) (ls : List SourceLine) :
    scan stack (l :: ls) = scan (scanLine stack l.number l.text) ls := rfl

/-- The lines of two parts are scanned one part after the other. -/
theorem scan_append (stack : List StackFrame) (ls more : List SourceLine) :
    scan stack (ls ++ more) = scan (scan stack ls) more := List.foldl_append

/-- The line of a statement comes when the stack has the headers around the statement. -/
def Shown (stack : List StackFrame) (ls : List SourceLine) (placed : Stmt × List SourceLine) : Prop :=
  ∃ before l behind, ls = before ++ l :: behind ∧ placed.1.line = l.number ∧ scan stack before = openHeaders placed.2

variable {ls more : List SourceLine}

/-- Some lines lead from one stack to another one, and show the statements in them. -/
def Scans (stack : List StackFrame) (ls : List SourceLine) (all : List (Stmt × List SourceLine))
    (left : List StackFrame) : Prop :=
  scan stack ls = left ∧ ∀ placed ∈ all, Shown stack ls placed

namespace Scans

variable {mid left : List StackFrame} {all others : List (Stmt × List SourceLine)}

theorem nil (stack : List StackFrame) : Scans stack [] [] stack := ⟨rfl, List.forall_mem_nil _⟩

/-- Parts that lead from stack to stack show the statements of both. -/
theorem append (h : Scans stack ls all mid) (h' : Scans mid more others left) :
    Scans stack (ls ++ more) (all ++ others) left := by
  obtain ⟨hscan, hall⟩ := h
  obtain ⟨hscan', hothers⟩ := h'
  refine ⟨by rw [scan_append, hscan, hscan'],
    List.forall_mem_append.2 ⟨fun placed hplaced => ?_, fun placed hplaced => ?_⟩⟩
  · obtain ⟨before, l, behind, rfl, hline, hopen⟩ := hall placed hplaced
    exact ⟨before, l, behind ++ more, by rw [List.append_assoc, List.cons_append], hline, hopen⟩
  · obtain ⟨before, l, behind, rfl, hline, hopen⟩ := hothers placed hplaced
    exact ⟨ls ++ before, l, behind, (List.append_assoc ..).symm, hline, by rw [scan_append, hscan, hopen]⟩

/-- A line without a statement leads on to the next ones. -/
theorem cons (hl : scanLine stack l.number l.text = mid) (h : Scans mid ls all left) :
    Scans stack (l :: ls) all left := by
  have hfirst : Scans stack [l] [] mid := ⟨hl, List.forall_mem_nil _⟩
  exact hfirst.append h

/-- The first line is the one of a statement. -/
theorem place {s : Stmt} {hs : List SourceLine} (hline : s.line = l.number)
    (h : Scans (openHeaders hs) (l :: ls) all left) : Scans (openHeaders hs) (l :: ls) ((s, hs) :: all) left :=
  ⟨h.1, List.forall_mem_cons.2 ⟨⟨[], l, ls, rfl, hline, rfl⟩, h.2⟩⟩

end Scans

/-- A line that starts with no word of blocks leaves the stack alone. -/
theorem scanLine_of_unframed (h : Readable l) (hl : ∀ word ∈ frameWords, l.leads word = false) :
    scanLine stack l.number l.text = stack := by
  have hnone (word : String) (hword : word ∈ frameWords) : ¬ l.leads word = true := Bool.eq_false_iff.1 (hl word hword)
  rw [scanLine_eq h, if_neg, if_neg, if_neg]
  · exact not_or.2 ⟨hnone _ (by decide), hnone _ (by decide)⟩
  · exact hnone _ (by decide)
  · exact not_or.2 ⟨hnone _ (by decide), hnone _ (by decide)⟩

/-- `ELSE` leaves the stack alone, so the header of the alternative before it is still shown. -/
theorem scanLine_of_else (h : Readable l) (hl : l.leads "ELSE" = true) : scanLine stack l.number l.text = stack := by
  have hnone {word : String} (hne : "ELSE" ≠ word) : ¬ l.leads word = true := not_atKeyword hl hne
  rw [scanLine_eq h, if_neg, if_neg, if_neg]
  · exact not_or.2 ⟨hnone (by decide), hnone (by decide)⟩
  · exact hnone (by decide)
  · exact not_or.2 ⟨hnone (by decide), hnone (by decide)⟩

/-- The end of a block takes the innermost header off the stack. -/
theorem scanLine_of_end (h : Readable l) (hl : l.leads "END_IF" = true ∨ l.leads "END_WHILE" = true) :
    scanLine stack l.number l.text = stack.tail := by
  rw [scanLine_eq h, if_pos hl]

/-- `ELSIF` puts its line in the place of the innermost header. -/
theorem scanLine_of_elsif (h : Readable l) (hl : l.leads "ELSIF" = true) :
    scanLine stack l.number l.text = headerFrame l :: stack.tail := by
  rw [scanLine_eq h, if_neg, if_pos hl]
  exact not_or.2 ⟨not_atKeyword hl (by decide), not_atKeyword hl (by decide)⟩

/-- The header of a block goes on top of the stack. -/
theorem scanLine_of_header {word : String} (h : Readable l) (hword : word = "IF" ∨ word = "WHILE")
    (hl : l.leads word = true) : scanLine stack l.number l.text = headerFrame l :: stack := by
  rw [scanLine_eq h, if_neg, if_neg, if_pos]
  · rcases hword with rfl | rfl
    · exact .inl hl
    · exact .inr hl
  · exact not_atKeyword hl (by rcases hword with rfl | rfl <;> decide)
  · exact not_or.2 ⟨not_atKeyword hl (by rcases hword with rfl | rfl <;> decide),
      not_atKeyword hl (by rcases hword with rfl | rfl <;> decide)⟩

/-- The stack in front of the lines of a part: behind the header of an alternative, this header is still open. -/
def opened (hs : List SourceLine) : Part → List StackFrame
  | .block _ => openHeaders hs
  | .arms header _ => headerFrame header :: openHeaders hs

/-- The stack behind the lines of a part. -/
def Left (hs : List SourceLine) (stack : List StackFrame) : Part → Prop
  | .block _ => stack = openHeaders hs
  | .arms _ _ => stack.tail = openHeaders hs

/-- **The scan follows the blocks.** Behind a block the stack is the one in front of it, and in front of each of its
statements it has the headers around the statement. -/
theorem scan_outlined {hs : List SourceLine} {part : Part} {all : List (Stmt × List SourceLine)}
    (h : Outlined hs part ls all) (hread : ∀ l ∈ ls, Readable l) :
    ∃ left, Scans (opened hs part) ls all left ∧ Left hs left part := by
  have hpush {l : SourceLine} {word : String} (hs : List SourceLine) (hl : Readable l)
      (hword : word = "IF" ∨ word = "WHILE") (hlead : l.leads word = true) :
      scanLine (openHeaders hs) l.number l.text = openHeaders (hs ++ [l]) := by
    rw [scanLine_of_header hl hword hlead, openHeaders_concat]
  -- along the outline: the innermost header is on top until its terminator or the next alternative
  induction h with
  | nil | none => exact ⟨_, .nil _, rfl⟩
  | idle hl _ ih =>
    obtain ⟨hline, hls⟩ := List.forall_mem_cons.1 hread
    obtain ⟨left, hscan, hleft⟩ := ih hls
    exact ⟨left, .cons (scanLine_of_unframed hline hl.unframed) hscan, hleft⟩
  | simple hl _ ih =>
    obtain ⟨hline, hls⟩ := List.forall_mem_cons.1 hread
    obtain ⟨left, hscan, hleft⟩ := ih hls
    exact ⟨left, .place hl.line (.cons (scanLine_of_unframed hline hl.unframed) hscan), hleft⟩
  | @loop hs _ _ _ header _ terminator _ _ _ hheader _ hterminator _ ihbody ih =>
    obtain ⟨hfirst, hrest⟩ := List.forall_mem_cons.1 hread
    obtain ⟨hinside, hrest⟩ := List.forall_mem_append.1 hrest
    obtain ⟨hend, hls⟩ := List.forall_mem_cons.1 hrest
    obtain ⟨_, hbody, rfl⟩ := ihbody hinside
    obtain ⟨left, hlater, hleft⟩ := ih hls
    have hpop : scanLine (openHeaders (hs ++ [header])) terminator.number terminator.text = openHeaders hs := by
      rw [scanLine_of_end hend (.inr hterminator), openHeaders_concat, List.tail_cons]
    exact ⟨left, .place rfl (.cons (hpush hs hfirst (.inr rfl) hheader) (hbody.append (.cons hpop hlater))), hleft⟩
  | @choose hs _ _ _ _ header _ _ terminator _ _ _ _ hheader _ _ hterminator _ ihbody ihrest ih =>
    obtain ⟨hfirst, hrest⟩ := List.forall_mem_cons.1 hread
    obtain ⟨hinside, hrest⟩ := List.forall_mem_append.1 hrest
    obtain ⟨hothers, hrest⟩ := List.forall_mem_append.1 hrest
    obtain ⟨hend, hls⟩ := List.forall_mem_cons.1 hrest
    obtain ⟨_, hbody, rfl⟩ := ihbody hinside
    obtain ⟨mid, harms, hmid⟩ := ihrest hothers
    obtain ⟨left, hlater, hleft⟩ := ih hls
    have hpop : scanLine mid terminator.number terminator.text = openHeaders hs := by
      rw [scanLine_of_end hend (.inl hterminator)]
      exact hmid
    rw [opened, ← openHeaders_concat] at harms
    exact ⟨left, .place rfl (.cons (hpush hs hfirst (.inl rfl) hheader)
      (hbody.append (harms.append (.cons hpop hlater)))), hleft⟩
  | @otherwise hs header _ divider _ _ hdivider _ ih =>
    obtain ⟨hfirst, hinside⟩ := List.forall_mem_cons.1 hread
    obtain ⟨_, hbody, rfl⟩ := ih hinside
    rw [opened, ← openHeaders_concat]
    refine ⟨_, .cons (scanLine_of_else hfirst hdivider) hbody, ?_⟩
    rw [Left, openHeaders_concat, List.tail_cons]
  | @arm hs header _ _ _ next _ _ _ _ hnext _ _ ihbody ihrest =>
    obtain ⟨hfirst, hrest⟩ := List.forall_mem_cons.1 hread
    obtain ⟨hinside, hothers⟩ := List.forall_mem_append.1 hrest
    obtain ⟨_, hbody, rfl⟩ := ihbody hinside
    obtain ⟨left, harms, hleft⟩ := ihrest hothers
    have hreplace : scanLine (headerFrame header :: openHeaders hs) next.number next.text =
        openHeaders (hs ++ [next]) := by
      rw [scanLine_of_elsif hfirst hnext, openHeaders_concat, List.tail_cons]
    rw [opened, ← openHeaders_concat] at harms
    exact ⟨left, .cons hreplace (hbody.append harms), hleft⟩

/-- The scan ends in front of the current line. -/
theorem scanLines_eq (current : UInt32) (stack : List StackFrame) (n : UInt32) (raws : List (List Char)) :
    scanLines current stack n raws = scan stack ((numbered n raws).takeWhile (·.number < current)) := by
  induction raws generalizing stack n with
  | nil => rfl
  | cons raw raws ih =>
    rw [scanLines, numbered, List.takeWhile_cons]
    by_cases hend : current ≤ n
    · have hstop : ¬ n < current := UInt32.not_lt.2 hend
      simp only [hend, hstop, if_true, decide_false, Bool.false_eq_true, if_false]
      rfl
    · have hgo : n < current := UInt32.not_le.1 hend
      simp only [hend, hgo, if_false, decide_true, if_true]
      rw [ih, scan_cons]

/-- The call stack of a line is what the lines before it leave. -/
theorem callStack_eq {source : String} {before behind : List SourceLine} (hsource : LinesFit source)
    (h : sourceLines source = before ++ l :: behind) : callStack source l.number = (scan [] before).reverse := by
  have hsorted := ascending_sourceLines hsource
  rw [h, List.pairwise_append] at hsorted
  have hbefore : ∀ l' ∈ before, decide (l'.number < l.number) = true :=
    fun l' hl' => decide_eq_true (hsorted.2.2 l' hl' l List.mem_cons_self)
  have hend : decide (l.number < l.number) = false := decide_eq_false (UInt32.lt_irrefl _)
  rw [callStack, scanLines_eq, ← sourceLines, h, List.takeWhile_append_of_pos hbefore, List.takeWhile_cons, hend]
  simp only [Bool.false_eq_true, if_false, List.append_nil]

/-- **The call stacks of a program show its blocks**: the lines of its text have the outline of its statements, and in
every such outline the call stack of the line of each statement has the headers around the statement, from the outside
in. -/
def ShowsBlocks (source : String) (p : Program) : Prop :=
  (∃ all, Outlined [] (.block p.body) (sourceLines source) all) ∧
    ∀ all, Outlined [] (.block p.body) (sourceLines source) all →
      ∀ s hs, (s, hs) ∈ all → callStack source s.line = hs.map headerFrame

/-- The lines of a program without misleading names can be scanned. -/
theorem readable_of_compile {source : String} {p : Program} (h : compile source = .ok p)
    (hplain : PlainlyLaidOut source) (hnames : ∀ d ∈ p.vars, ¬ Misleading d.key) :
    ∀ l ∈ sourceLines source, Readable l := by
  intro l hl
  have htext := infix_of_mem_lineChars (mem_lineChars_of_mem hl)
  have htokens := tokenize_lines hplain.lines
  refine ⟨(hplain.lines l hl).regular htext.2, (hplain.lines l hl).tokensFrom_eq, ?_, fun t ht w hw => ?_⟩
  · exact ⟨htext.2,
      ⟨fun hmem => hplain.quotes.1 (htext.1.subset hmem), fun hmem => hplain.quotes.2 (htext.1.subset hmem)⟩,
      fun hinside => hplain.comments (hinside.trans htext.1)⟩
  · rcases word_of_compile h htokens (List.mem_flatMap.2 ⟨l, hl, ht⟩) hw with hlanguage | ⟨d, hd, hkey⟩
    · exact .inl hlanguage
    · exact .inr (hkey ▸ hnames d hd)

/-- The call stacks of a program show its blocks if no name in it misleads. -/
theorem showsBlocks_of_names {source : String} {p : Program} (h : compile source = .ok p)
    (hplain : PlainlyLaidOut source) (hsource : LinesFit source) (hnames : ∀ d ∈ p.vars, ¬ Misleading d.key) :
    ShowsBlocks source p := by
  refine ⟨exists_outline h hplain, fun all houtline s hs hmem => ?_⟩
  obtain ⟨_, ⟨-, hshown⟩, -⟩ := scan_outlined houtline (readable_of_compile h hplain hnames)
  obtain ⟨before, l, behind, hlines, hline, hscan⟩ := hshown (s, hs) hmem
  have hempty : opened [] (.block p.body) = [] := rfl
  rw [hempty] at hscan
  rw [hline, callStack_eq hsource hlines, hscan, openHeaders, List.reverse_reverse]

/-- The variables of a program that compiles have keys, but for one that is called `DEVICE`. -/
theorem isKey_of_compile {source : String} {p : Program} {d : Declaration} (h : compile source = .ok p)
    (hd : d ∈ p.vars) (hdevice : d.key ≠ "DEVICE") : IsKey d.key := by
  obtain ⟨ts, hread, hnamed⟩ := namedIn_of_compile h
  obtain ⟨t, ht, name, hname, hfree, hkey⟩ := hnamed d hd
  refine ⟨?_, ?_, ?_, hdevice⟩
  · rw [hkey]
    exact (isWord_of_tokensFrom hread t ht name hname).upper
  · rw [hkey, upper_upper]
  · rw [hkey, isTaken, upper_upper]
    exact hfree

/-- `DEVICE` does not mislead. -/
theorem Misleading.ne_device {key : String} (h : Misleading key) : key ≠ "DEVICE" := by
  have hclear : ¬ Misleading "DEVICE" := by decide +kernel
  rintro rfl
  exact hclear h

section Misleading

/-- A program with one variable, which is asked for in the header of a block and assigned twice inside. -/
def guarded (key : String) : Program where
  source := ""
  vars := [⟨key, key, .int, none, 0⟩]
  body := [.choose 0 (.arm (.binary .eq (.var key) (.literal (.int 0)))
    [.assign 0 key (.literal (.int 1)), .assign 0 key (.literal (.int 2))] .none)]

variable {key : String}

theorem lines_guarded (key : String) : (guarded key).lines =
    [[.ident "VAR"], [.ident key, .symbol .colon, .ident "INT", .symbol .semi], [.ident "END_VAR"],
      [.ident "IF", .ident key, .symbol .eq, .int 0, .ident "THEN"],
      [.ident key, .symbol .assign, .int 1, .symbol .semi], [.ident key, .symbol .assign, .int 2, .symbol .semi],
      [.ident "END_IF", .symbol .semi]] := rfl

theorem texts_guarded (key : String) : (guarded key).lines.map lineText =
    ["VAR".toList, key.toList ++ " : INT;".toList, "END_VAR".toList, "IF ".toList ++ (key.toList ++ " = 0 THEN".toList),
      key.toList ++ " := 1;".toList, key.toList ++ " := 2;".toList, "END_IF;".toList] := by
  have hname (ts : List TokenContent) :
      lineText (.ident key :: ts) = key.toList ++ (gap (.ident key) ts ++ lineText ts) := by
    rw [lineText, List.append_assoc]
    rfl
  have hheader : lineText [.ident "IF", .ident key, .symbol .eq, .int 0, .ident "THEN"] =
      "IF ".toList ++ lineText [.ident key, .symbol .eq, .int 0, .ident "THEN"] := rfl
  simp only [lines_guarded, List.map_cons, hheader, hname, List.map_nil]
  rfl

theorem written_zero : Written (.int 0) := (by decide : 0 ≤ (0 : Int64).toInt)

theorem written_one : Written (.int 1) := (by decide : 0 ≤ (1 : Int64).toInt)

theorem written_two : Written (.int 2) := (by decide : 0 ≤ (2 : Int64).toInt)

/-- The program can be written down. -/
theorem plain_guarded (h : IsKey key) : (guarded key).Plain := by
  have hcond : (Expr.binary .eq (.var key) (.literal (.int 0))).Plain :=
    .binary nofun (.var _) (.literal written_zero)
  refine ⟨List.forall_mem_singleton.2 ⟨h.word, h.upper.symm, h.free, h.device, nofun⟩,
    List.forall_mem_singleton.2 (.choose 0 ⟨_, _, _, rfl⟩ (List.forall_mem_singleton.2 hcond) ?_ nofun)⟩
  refine List.forall_mem_singleton.2 (List.forall_mem_cons.2 ⟨.assign 0 _ (.literal written_one), ?_⟩)
  exact List.forall_mem_singleton.2 (.assign 0 _ (.literal written_two))

/-- Its variable is declared. -/
theorem wellFormed_guarded (key : String) : (guarded key).WellFormed := by
  have hkey : Admits (guarded key).vars key false := by
    refine ⟨⟨key, key, .int, none, 0⟩, ?_, fun htime => absurd htime Bool.false_ne_true⟩
    rw [declared?, guarded, List.find?_cons_of_pos]
    exact BEq.rfl
  have hcond : (Expr.binary .eq (.var key) (.literal (.int 0))).WellFormed (guarded key).vars :=
    .binary _ (.var hkey) (.literal _)
  have hassign (k : Int64) : (Stmt.assign 0 key (.literal (.int k))).WellFormed (guarded key).vars :=
    .assign 0 hkey (.literal _)
  refine ⟨List.pairwise_singleton _ _, List.forall_mem_singleton.2 fun _ hinit => ?_,
    List.forall_mem_singleton.2 fun _ hinit => ?_,
    List.forall_mem_singleton.2 (.choose 0 (List.forall_mem_singleton.2 hcond) ?_ fun _ hlast => ?_)⟩
  · cases hinit
  · cases hinit
  · exact List.forall_mem_singleton.2 (List.forall_mem_cons.2 ⟨hassign 1, List.forall_mem_singleton.2 (hassign 2)⟩)
  · cases hlast

/-- Its text compiles to it, with the lines filled in. -/
theorem compile_guarded (h : IsKey key) : compile (guarded key).render = .ok (guarded key).placed := by
  have hshallow : (guarded key).Shallow := by
    refine ⟨List.forall_mem_singleton.2 ?_, List.forall_mem_singleton.2 nofun, List.forall_mem_singleton.2 ?_⟩
    · exact Nat.le_of_ble_eq_true rfl
    · exact Nat.le_of_ble_eq_true rfl
  have hread := reading_program (plain_guarded h) (wellFormed_guarded key) (lastLine (place 1 (guarded key).lines))
  rw [compile, tokenize_render (plain_guarded h) (wellFormed_guarded key)]
  change compileTokens _ _ = _
  rw [compileTokens]
  generalize itemsFrom (lastLine (place 1 (guarded key).lines)) ⟨[], []⟩ [] (place 1 (guarded key).lines) = r at hread ⊢
  cases hread with
  | tooDeep line hdeep => exact absurd hshallow.fits hdeep
  | @read uses huses =>
    have hchecked : allDeclared (placedDeclarations 2 (guarded key).vars) uses = .ok () :=
      allDeclared_eq_ok.2 fun u hu => admits_placed 2 (huses u hu)
    have hdeclared : checkDeclarations [] (placedDeclarations 2 (guarded key).vars) = .ok () := rfl
    change (do
      checkDeclarations [] (placedDeclarations 2 (guarded key).vars)
      allDeclared (placedDeclarations 2 (guarded key).vars) uses
      return _ : Except CompileError Program) = _
    rw [hdeclared, hchecked]
    rfl

theorem spelled_guarded (h : IsKey key) : ∀ ts ∈ (guarded key).lines, ∀ t ∈ ts, t.Spelled := by
  have hword : (TokenContent.ident key).Spelled := h.word
  have hfixed {w : String} (hstart : w.toList.head?.any isWordStart = true)
      (htail : w.toList.tail.all isWordChar = true) :
      (TokenContent.ident w).Spelled := ⟨hstart, htail⟩
  have hint0 : (TokenContent.int 0).Spelled := written_zero
  have hint1 : (TokenContent.int 1).Spelled := written_one
  have hint2 : (TokenContent.int 2).Spelled := written_two
  have hmark (s : Symbol) : (TokenContent.symbol s).Spelled := trivial
  simp only [lines_guarded, List.forall_mem_cons, List.not_mem_nil, false_implies, implies_true, and_true, hword, hint0,
    hint1, hint2, hmark, true_and]
  exact ⟨hfixed rfl rfl, hfixed rfl rfl, hfixed rfl rfl, ⟨hfixed rfl rfl, hfixed rfl rfl⟩, hfixed rfl rfl⟩

/-- Each of its lines has the form of a line. -/
theorem form_guarded (h : IsKey key) : ∀ ts ∈ (guarded key).lines, LineForm ts := by
  have hname : Inner (.ident key) := inner_of_free h.free
  have hentry (mark : Symbol) (c : TokenContent) (hmark : mark ≠ .semi) (hc : Inner c) :
      LineForm [.ident key, .symbol mark, c, .symbol .semi] :=
    .entry (List.forall_mem_cons.2 ⟨hname, List.forall_mem_cons.2
      ⟨⟨fun heq => hmark (TokenContent.symbol.inj heq), nofun⟩, List.forall_mem_singleton.2 hc⟩⟩)
  have hint (n : Int64) : Inner (.int n) := ⟨nofun, nofun⟩
  have htype : Inner (.ident "INT") := inner_of_free (by decide)
  simp only [lines_guarded, List.forall_mem_cons, List.not_mem_nil, false_implies, implies_true, and_true]
  refine ⟨.lone (by decide), hentry _ _ nofun htype, .terminator (by decide), ?_, hentry _ _ nofun (hint 1),
    hentry _ _ nofun (hint 2), .closed (by decide)⟩
  have hinner : ∀ c ∈ [TokenContent.ident key, .symbol .eq, .int 0], Inner c :=
    List.forall_mem_cons.2 ⟨hname, List.forall_mem_cons.2 ⟨⟨nofun, nofun⟩, List.forall_mem_singleton.2 (hint 0)⟩⟩
  exact .header (by decide : (Text.upper "IF", Text.upper "THEN") ∈ headerFrames) hinner

/-- In none of its lines there is a text or a comment. -/
theorem chars_guarded (h : IsKey key) :
    ∀ ts ∈ (guarded key).lines, ∀ c ∈ lineText ts, c ∉ ['\n', '\r', '\'', '"', '('] := by
  have hword (c : Char) (hc : c ∈ key.toList) : c ∉ ['\n', '\r', '\'', '"', '('] := by
    have hmarks : ['\n', '\r', '\'', '"', '('].all (!isWordChar ·) = true := by decide
    intro hmem
    have hmark := List.all_eq_true.1 hmarks c hmem
    rw [h.word.isWordChar c hc] at hmark
    cases hmark
  have hfixed {cs : List Char} (hcs : cs.all (· ∉ ['\n', '\r', '\'', '"', '(']) = true) :
      ∀ c ∈ cs, c ∉ ['\n', '\r', '\'', '"', '('] :=
    fun c hc => of_decide_eq_true (List.all_eq_true.1 hcs c hc)
  suffices hall : ∀ text ∈ (guarded key).lines.map lineText, ∀ c ∈ text, c ∉ ['\n', '\r', '\'', '"', '('] from
    fun ts hts => hall _ (List.mem_map_of_mem hts)
  rw [texts_guarded]
  simp only [List.forall_mem_cons, List.forall_mem_append, List.not_mem_nil, false_implies, implies_true, and_true]
  exact ⟨hfixed rfl, ⟨hword, hfixed rfl⟩, hfixed rfl, ⟨hfixed rfl, hword, hfixed rfl⟩, ⟨hword, hfixed rfl⟩,
    ⟨hword, hfixed rfl⟩, hfixed rfl⟩

/-- Its text is laid out plainly. -/
theorem plainlyLaidOut_guarded (h : IsKey key) : PlainlyLaidOut (guarded key).render :=
  plainlyLaidOut_layout (spelled_guarded h) (form_guarded h) (chars_guarded h)

theorem single_guarded (h : IsKey key) : ∀ ts ∈ (guarded key).lines, SingleLine (lineText ts) := by
  intro ts hts
  have habsent (c : Char) (hc : c ∈ ['\n', '\r', '\'', '"', '(']) : c ∉ lineText ts :=
    fun hmem => chars_guarded h ts hts c hmem hc
  exact ⟨habsent _ (by decide), ⟨habsent _ (by decide), habsent _ (by decide)⟩,
    fun hinside => habsent '(' (by decide) (hinside.subset List.mem_cons_self)⟩

/-- The line of the header in the text of the program. -/
def guardLine (key : String) : SourceLine := ⟨4, lineText [.ident "IF", .ident key, .symbol .eq, .int 0, .ident "THEN"]⟩

/-- The lines before the second assignment. -/
def guardedBefore (key : String) : List SourceLine :=
  [⟨1, lineText [.ident "VAR"]⟩, ⟨2, lineText [.ident key, .symbol .colon, .ident "INT", .symbol .semi]⟩,
    ⟨3, lineText [.ident "END_VAR"]⟩, guardLine key, ⟨5, lineText [.ident key, .symbol .assign, .int 1, .symbol .semi]⟩]

/-- The lines of its text, with the second assignment on the sixth. -/
theorem sourceLines_guarded (h : IsKey key) : sourceLines (guarded key).render =
    guardedBefore key ++ ⟨6, lineText [.ident key, .symbol .assign, .int 2, .symbol .semi]⟩ ::
      [⟨7, lineText [.ident "END_IF", .symbol .semi]⟩] := by
  rw [Program.render, sourceLines_layout, lines_guarded]
  · rfl
  · intro ts hts c hc
    constructor <;> rintro rfl <;> exact chars_guarded h ts hts _ hc (by decide)

/-- Its text has few lines. -/
theorem linesFit_guarded (h : IsKey key) : LinesFit (guarded key).render := by
  have hlength : newlines (guarded key).render = 7 :=
    newlines_layout fun ts hts hmem => chars_guarded h ts hts _ hmem (by decide)
  rw [LinesFit, hlength]
  decide

/-- **The outline of the program**: its assignments are inside of its header. -/
theorem outlined_guarded (h : IsKey key) : ∃ outer inner, Outlined [] (.block (guarded key).placed.body)
    (sourceLines (guarded key).render)
      [outer, inner, (.assign 6 key (.literal (.int 2)), [guardLine key])] := by
  have htokens (n : UInt32) (ts : List TokenContent) (hts : ts ∈ (guarded key).lines) :
      (⟨n, lineText ts⟩ : SourceLine).tokens = onLine n ts := tokens_lineText (spelled_guarded h ts hts) n
  have hfree : Text.upper key ∉ frameWords := not_frame_of_free h.free
  have hholds (n : UInt32) (k : Int64)
      (hk : [.ident key, .symbol .assign, .int k, .symbol .semi] ∈ (guarded key).lines) :
      (⟨n, lineText [.ident key, .symbol .assign, .int k, .symbol .semi]⟩ : SourceLine).Holds
        (.assign n key (.literal (.int k))) := by
    refine ⟨unframed_of_ident (htokens n _ hk) hfree, ?_, by rw [Stmt.all], rfl⟩
    rw [SourceLine.holdsStatement, htokens n _ hk]
    rfl
  have hbody : Outlined [guardLine key]
      (.block [.assign 5 key (.literal (.int 1)), .assign 6 key (.literal (.int 2))]) _ _ :=
    .simple (hholds 5 1 (by simp [lines_guarded])) (.simple (hholds 6 2 (by simp [lines_guarded])) .nil)
  have hheader : (guardLine key).leads "IF" = true :=
    (SourceLine.leads_iff (htokens 4 _ (by simp [lines_guarded]))).2 (by rfl)
  have hend : (⟨7, lineText [.ident "END_IF", .symbol .semi]⟩ : SourceLine).leads "END_IF" = true :=
    (SourceLine.leads_iff (htokens 7 _ (by simp [lines_guarded]))).2 (by rfl)
  have hvar := idle_of_ident (htokens 1 [.ident "VAR"] (by simp [lines_guarded])) (by decide) rfl rfl
  have hentry := idle_of_ident (htokens 2 [.ident key, .symbol .colon, .ident "INT", .symbol .semi]
    (by simp [lines_guarded])) hfree rfl rfl
  have hclosed := idle_of_ident (htokens 3 [.ident "END_VAR"] (by simp [lines_guarded])) (by decide) rfl rfl
  -- The three lines of the declarations add nothing, and the conditional is the last four lines.
  have hchoose : Outlined [] (.block (guarded key).placed.body) _ _ := .choose hheader hbody .none hend .nil
  rw [sourceLines_guarded h]
  exact ⟨_, _, .idle hvar (.idle hentry (.idle hclosed hchoose))⟩

/-- What a line does to the stack that starts with a variable. -/
theorem scanLine_of_key {ts : List TokenContent} (h : IsKey key) (hts : .ident key :: ts ∈ (guarded key).lines) :
    scanLine stack n (lineText (.ident key :: ts)) =
      if "END_IF".toList <+: key.toList ∨ "END_WHILE".toList <+: key.toList then stack.tail
      else if "ELSIF".toList <+: key.toList then
        ⟨n, Text.trimChars (lineText (.ident key :: ts))⟩ :: stack.tail
      else stack := by
  have hread : tokensFrom n (lineText (.ident key :: ts)) = .ok (⟨.ident key, n⟩ :: onLine n ts) :=
    tokensFrom_lineText_end (spelled_guarded h _ hts) n
  have hword : ¬ (key = "IF" ∨ key = "WHILE") := by
    rintro (rfl | rfl) <;> cases h.free
  rw [scanLine_of_ident hread (single_guarded h _ hts), h.upper]
  simp only [if_neg hword]

/-- The header is not pushed when one of the words that end a block is in it. -/
theorem scanLine_of_guard (h : IsKey key)
    (hend : "END_IF".toList <:+: key.toList ∨ "END_WHILE".toList <:+: key.toList) :
    scanLine stack 4 (guardLine key).text = stack := by
  have htext : (guardLine key).text = "IF ".toList ++ (key.toList ++ " = 0 THEN".toList) :=
    (List.cons.inj (List.cons.inj (List.cons.inj (List.cons.inj (texts_guarded key)).2).2).2).1
  have hmem : [.ident "IF", .ident key, .symbol .eq, .int 0, .ident "THEN"] ∈ (guarded key).lines := by
    simp [lines_guarded]
  have hread : tokensFrom 4 (guardLine key).text = .ok (⟨.ident "IF", 4⟩ :: onLine 4 _) :=
    tokensFrom_lineText_end (spelled_guarded h _ hmem) 4
  have htrim : Text.trimChars (guardLine key).text = (guardLine key).text := by
    rw [htext]
    refine trimChars_eq_self (fun c hc => ?_) fun c hc => ?_
    · cases hc
      decide
    · rw [← List.append_assoc, List.getLast?_append, Option.mem_def, Option.or_eq_some_iff] at hc
      rcases hc with hc | ⟨hc, -⟩
      · cases hc
        decide
      · cases hc
  have hkey : key.toList <:+: (guardLine key).text.map Char.toUpper := by
    have hupper : key.toList.map Char.toUpper = key.toList := by rw [← toList_upper, h.upper]
    rw [htext, List.map_append, List.map_append, hupper]
    exact ⟨_, _, List.append_assoc _ _ _⟩
  rw [scanLine_of_ident hread (single_guarded h _ hmem), htrim, if_neg (by decide), if_neg (by decide),
    if_pos (by decide), if_pos]
  exact hend.imp (fun hinside => hinside.trans hkey) fun hinside => hinside.trans hkey

/-- **A name that misleads** hides the header around the second assignment. -/
theorem not_showsBlocks_guarded (h : IsKey key) (hkey : Misleading key) :
    ¬ ShowsBlocks (guarded key).render (guarded key).placed := by
  intro hshows
  obtain ⟨outer, inner, houtline⟩ := outlined_guarded h
  have hstack := hshows.2 _ houtline (.assign 6 key (.literal (.int 2))) [guardLine key] (by simp)
  have hscan : (scan [] (guardedBefore key)).reverse = [headerFrame (guardLine key)] := by
    rw [← callStack_eq (linesFit_guarded h) (sourceLines_guarded h)]
    exact hstack
  have hfirst : [.ident key, .symbol .assign, .int 1, .symbol .semi] ∈ (guarded key).lines := by simp [lines_guarded]
  by_cases helsif : "ELSIF".toList <+: key.toList
  · -- the first assignment is innermost, since it takes the place of the header
    have hend : ¬ ("END_IF".toList <+: key.toList ∨ "END_WHILE".toList <+: key.toList) := by
      obtain ⟨rest, hrest⟩ := helsif
      rw [← hrest]
      rintro (hstarts | hstarts) <;> simp at hstarts
    have hinnermost := congrArg List.reverse hscan
    rw [List.reverse_reverse, guardedBefore, scan_cons, scan_cons, scan_cons, scan_cons, scan_cons,
      scanLine_of_key h hfirst, if_neg hend, if_pos helsif] at hinnermost
    cases congrArg StackFrame.line (List.cons.inj hinnermost).1
  · -- nothing is ever pushed
    have hkeep (n : UInt32) {ts : List TokenContent} (hts : .ident key :: ts ∈ (guarded key).lines) :
        scanLine [] n (lineText (.ident key :: ts)) = [] := by
      rw [scanLine_of_key h hts, if_neg helsif, List.tail_nil, ite_self]
    have hentry : [.ident key, .symbol .colon, .ident "INT", .symbol .semi] ∈ (guarded key).lines := by
      simp [lines_guarded]
    have hvar : scanLine [] 1 (lineText [.ident "VAR"]) = [] := rfl
    have hclosed : scanLine [] 3 (lineText [.ident "END_VAR"]) = [] := rfl
    have hguard : scanLine [] (guardLine key).number (guardLine key).text = [] :=
      scanLine_of_guard h (hkey.resolve_left helsif)
    rw [guardedBefore, scan_cons, hvar, scan_cons, hkeep 2 hentry, scan_cons, hclosed, scan_cons, hguard, scan_cons,
      hkeep 5 hfirst] at hscan
    cases hscan

end Misleading

/-- **Which names are safe.** Let the variables have names of a certain kind only. The call stacks of all plainly laid
out programs show their blocks exactly if no name of the kind misleads: each name that does hides a header of a program
with no other variable. The programs have fewer than `2 ^ 32 - 1` line feeds, so that their lines have numbers. -/
theorem callStack_shows_blocks_iff (names : String → Prop) :
    (∀ source p, compile source = .ok p → PlainlyLaidOut source → LinesFit source → (∀ d ∈ p.vars, names d.key) →
      ShowsBlocks source p) ↔ ∀ key, IsKey key → names key → ¬ Misleading key := by
  constructor
  · intro hshows key h hname hkey
    exact not_showsBlocks_guarded h hkey (hshows _ _ (compile_guarded h) (plainlyLaidOut_guarded h)
      (linesFit_guarded h) (List.forall_mem_singleton.2 hname))
  · intro hnames source p h hplain hsource hkind
    refine showsBlocks_of_names h hplain hsource fun d hd hkey => ?_
    exact hnames d.key (isKey_of_compile h hd hkey.ne_device) (hkind d hd) hkey

theorem isKey_count : IsKey "COUNT" := ⟨⟨rfl, rfl⟩, rfl, rfl, by decide⟩

theorem callStack_shows_count : ¬ Misleading "COUNT" ∧ compile (guarded "COUNT").render = .ok (guarded "COUNT").placed ∧
    PlainlyLaidOut (guarded "COUNT").render ∧ ShowsBlocks (guarded "COUNT").render (guarded "COUNT").placed := by
  have hclear : ¬ Misleading "COUNT" := by decide +kernel
  exact ⟨hclear, compile_guarded isKey_count, plainlyLaidOut_guarded isKey_count,
    (callStack_shows_blocks_iff (· = "COUNT")).2 (fun _ _ hname => hname ▸ hclear) _ _ (compile_guarded isKey_count)
      (plainlyLaidOut_guarded isKey_count) (linesFit_guarded isKey_count) (List.forall_mem_singleton.2 rfl)⟩

/-- A program with a variable that is named like the end of a block. -/
def endIfCount : String :=
  "VAR\nEND_IF_COUNT : INT;\nEND_VAR\nIF END_IF_COUNT = 0 THEN\nEND_IF_COUNT := 1;\nEND_IF_COUNT := 2;\nEND_IF;\n"

/-- The header on line 4 is not on the call stack of the assignment on line 6. -/
theorem end_if_count_hides_header : ∃ p, compile endIfCount = .ok p ∧ PlainlyLaidOut endIfCount ∧
    LinesFit endIfCount ∧ ¬ ShowsBlocks endIfCount p ∧ callStack endIfCount 6 = [] := by
  have hkey : IsKey "END_IF_COUNT" := ⟨⟨rfl, rfl⟩, rfl, rfl, by decide⟩
  have hmisleading : Misleading "END_IF_COUNT" := .inr (.inl ⟨[], "_COUNT".toList, rfl⟩)
  have htext : (guarded "END_IF_COUNT").render = endIfCount := by decide +kernel
  have hstack : callStack endIfCount 6 = [] := by decide +kernel
  rw [← htext]
  exact ⟨_, compile_guarded hkey, plainlyLaidOut_guarded hkey, linesFit_guarded hkey,
    not_showsBlocks_guarded hkey hmisleading, htext ▸ hstack⟩

end Switchyard.Engine

import Switchyard.Proofs.Script.Consumption
import Switchyard.Proofs.Script.Separation
import Switchyard.Text

/-!
# Programs that are plainly laid out

In a text without comments and string literals every line can be read on its own: its tokens are those that the
tokenizer finds on it, and the tokens of the text are those of its lines, one after the other (`tokenize_lines`). Such a
text is plainly laid out if each of its lines holds nothing, or one declaration, one statement without blocks, or one
header or terminator of a block.

* `SourceLine`, `sourceLines`: the numbered lines of a text.
* `LineForm`: what the tokens of a line are.
* `PlainlyLaidOut`: texts with one construct on a line.
-/

namespace Switchyard.Script

variable {cs front rest : List Char} {n : UInt32} {l : SourceLine} {source : String}

/-- A line of a text: its number, and its characters without the line end. -/
structure SourceLine where
  number : UInt32
  text : List Char

/-- Lines with their numbers, from the given one on. -/
def numbered : UInt32 → List (List Char) → List SourceLine
  | _, [] => []
  | n, cs :: rest => ⟨n, cs⟩ :: numbered (n + 1) rest

/-- The lines of a text. -/
def sourceLines (source : String) : List SourceLine := numbered 1 (Text.lineChars source.toList)

/-- The tokens of a line that is read on its own. -/
def SourceLine.tokens (l : SourceLine) : List Token := (tokensFrom l.number l.text).toOption.getD []

theorem linesFrom_append (h : '\n' ∉ front) (line rest : List Char) :
    Text.linesFrom line (front ++ '\n' :: rest) =
      Text.dropReturn (line.reverse ++ front) :: Text.lineChars rest := by
  induction front generalizing line with
  | nil => rw [List.nil_append, Text.linesFrom, List.append_nil, Text.lineChars]
  | cons c front ih =>
    rw [List.mem_cons, not_or] at h
    rw [List.cons_append, Text.linesFrom, ih h.2, List.reverse_cons, List.append_assoc, List.singleton_append]
    exact fun heq => h.1 heq.symm

theorem linesFrom_of_notMem (h : '\n' ∉ cs) (line : List Char) (hne : line.reverse ++ cs ≠ []) :
    Text.linesFrom line cs = [line.reverse ++ cs] := by
  induction cs generalizing line with
  | nil =>
    rw [List.append_nil] at hne ⊢
    rw [Text.linesFrom, if_neg]
    simpa using hne
  | cons c cs ih =>
    rw [List.mem_cons, not_or] at h
    have hgrown : (c :: line).reverse ++ cs = line.reverse ++ c :: cs := by
      rw [List.reverse_cons, List.append_assoc, List.singleton_append]
    rw [Text.linesFrom, ih h.2 _ (hgrown ▸ hne), hgrown]
    exact fun heq => h.1 heq.symm

/-- **A text by its lines**: nothing, one line without an end, or a line and the text after its end. -/
theorem lineByLine {P : List Char → Prop} (nil : P []) (last : ∀ cs, cs ≠ [] → '\n' ∉ cs → P cs)
    (next : ∀ front rest, '\n' ∉ front → P rest → P (front ++ '\n' :: rest)) (cs : List Char) : P cs := by
  induction hlength : cs.length using Nat.strong_induction_on generalizing cs with
  | _ k ih =>
    by_cases hmem : '\n' ∈ cs
    · obtain ⟨front, rest, rfl, hfront⟩ := List.eq_append_cons_of_mem hmem
      refine next front rest hfront (ih rest.length ?_ rest rfl)
      rw [← hlength, List.length_append, List.length_cons]
      omega
    · cases cs with
      | nil => exact nil
      | cons c cs => exact last _ (by simp) hmem

theorem lineChars_of_notMem (hne : cs ≠ []) (h : '\n' ∉ cs) : Text.lineChars cs = [cs] :=
  linesFrom_of_notMem h [] hne

theorem lineChars_append (h : '\n' ∉ front) (rest : List Char) :
    Text.lineChars (front ++ '\n' :: rest) = Text.dropReturn front :: Text.lineChars rest :=
  linesFrom_append h [] rest

/-- What is dropped at the end of a line is blank. -/
theorem exists_dropReturn (cs : List Char) : ∃ ending, cs = Text.dropReturn cs ++ ending ∧ ∀ c ∈ ending, c = '\r' := by
  unfold Text.dropReturn
  split
  · rename_i hlast
    obtain ⟨front, rfl⟩ := List.getLast?_eq_some_iff.1 hlast
    exact ⟨['\r'], by simp, by simp⟩
  · exact ⟨[], (List.append_nil _).symm, List.forall_mem_nil _⟩

/-- Lines are pieces of the text without line feeds. -/
theorem infix_of_mem_lineChars {text : List Char} (h : text ∈ Text.lineChars cs) : text <:+: cs ∧ '\n' ∉ text := by
  induction cs using lineByLine with
  | nil => cases h
  | last cs hne hcs =>
    rw [lineChars_of_notMem hne hcs, List.mem_singleton] at h
    subst h
    exact ⟨List.infix_refl _, hcs⟩
  | next front rest hfront ih =>
    rw [lineChars_append hfront, List.mem_cons] at h
    rcases h with rfl | h
    · obtain ⟨ending, hending, -⟩ := exists_dropReturn front
      refine ⟨?_, fun hmem => hfront (hending ▸ List.mem_append_left _ hmem)⟩
      exact ⟨[], ending ++ '\n' :: rest, by rw [List.nil_append, ← List.append_assoc, ← hending]⟩
    · obtain ⟨hinside, hline⟩ := ih h
      exact ⟨hinside.trans ⟨front ++ ['\n'], [], by simp⟩, hline⟩

theorem mem_lineChars_of_mem (h : l ∈ numbered n (Text.lineChars cs)) : l.text ∈ Text.lineChars cs := by
  generalize Text.lineChars cs = ls at h ⊢
  induction ls generalizing n with
  | nil => cases h
  | cons text ls ih =>
    rcases List.mem_cons.1 h with rfl | h
    · exact List.mem_cons_self
    · exact List.mem_cons_of_mem _ (ih h)

/-- There is at most one line more than there are line feeds. -/
theorem length_lineChars (cs : List Char) : (Text.lineChars cs).length ≤ 1 + cs.count '\n' := by
  induction cs using lineByLine with
  | nil => exact Nat.zero_le _
  | last cs hne hcs =>
    rw [lineChars_of_notMem hne hcs]
    exact Nat.le_add_right _ _
  | next front rest hfront ih =>
    rw [lineChars_append hfront, List.length_cons, List.count_append, List.count_cons_self]
    omega

/-- **The numbers of lines go up** as long as they can be counted. -/
theorem ascending_numbered {raws : List (List Char)} (h : n.toNat + raws.length ≤ UInt32.size) :
    (∀ l ∈ numbered n raws, n.toNat ≤ l.number.toNat) ∧
      (numbered n raws).Pairwise fun l l' => l.number < l'.number := by
  induction raws generalizing n with
  | nil => exact ⟨List.forall_mem_nil _, .nil⟩
  | cons raw raws ih =>
    rw [List.length_cons] at h
    cases raws with
    | nil => exact ⟨List.forall_mem_singleton.2 (Nat.le_refl _), List.pairwise_singleton _ _⟩
    | cons raw' raws =>
      rw [List.length_cons] at h
      have hnext : (n + 1).toNat = n.toNat + 1 := toNat_add_ofNat (n := 1) (by omega)
      obtain ⟨hlow, hsorted⟩ := ih (n := n + 1) (by rw [List.length_cons]; omega)
      have habove : ∀ l ∈ numbered (n + 1) (raw' :: raws), n.toNat < l.number.toNat := by
        intro l hl
        have hle := hlow l hl
        omega
      exact ⟨List.forall_mem_cons.2 ⟨Nat.le_refl _, fun l hl => Nat.le_of_lt (habove l hl)⟩,
        List.pairwise_cons.2 ⟨fun l hl => UInt32.lt_iff_toNat_lt.2 (habove l hl), hsorted⟩⟩

theorem ascending_sourceLines (h : LinesFit source) :
    (sourceLines source).Pairwise fun l l' => l.number < l'.number := by
  have hlength : (Text.lineChars source.toList).length ≤ 1 + newlines source := length_lineChars _
  rw [LinesFit] at h
  exact (ascending_numbered (by rw [UInt32.toNat_one]; omega)).2

/-- The end of a line is white space. -/
theorem tokensFrom_ending {ending : List Char} (hreturns : ∀ c ∈ ending, c = '\r') (n : UInt32) (rest : List Char) :
    tokensFrom n (ending ++ ['\n'] ++ rest) = tokensFrom (n + 1) rest := by
  have hfillers : ∀ filler ∈ ending.map ([·]) ++ [['\n']], Filler filler := by
    intro filler hmem
    rcases List.mem_append.1 hmem with hmem | hmem
    · obtain ⟨c, hc, rfl⟩ := List.mem_map.1 hmem
      exact .blank (hreturns c hc ▸ by decide)
    · rw [List.mem_singleton.1 hmem]
      exact .blank (by decide)
  have hend : (ending.map ([·]) ++ [['\n']]).flatten = ending ++ ['\n'] := by simp [← List.flatMap_def]
  have hskipped := skipped_flatten hfillers n rest
  rw [hend, List.count_append, List.count_eq_zero.2 fun hmem => absurd (hreturns _ hmem) (by decide)] at hskipped
  exact hskipped

/-- A line is read on its own, and what comes behind it with the number of the next line. -/
theorem tokensFrom_line {own : List Token} (hfront : '\n' ∉ front)
    (hline : tokensFrom n (Text.dropReturn front) = .ok own) (rest : List Char) :
    tokensFrom n (front ++ '\n' :: rest) = (tokensFrom (n + 1) rest).map (own ++ ·) := by
  obtain ⟨ending, hending, hreturns⟩ := exists_dropReturn front
  have hcount : (Text.dropReturn front).count '\n' = 0 :=
    List.count_eq_zero.2 fun hmem => hfront (hending ▸ List.mem_append_left _ hmem)
  have hsplit : front ++ '\n' :: rest = Text.dropReturn front ++ (ending ++ ['\n'] ++ rest) := by
    rw [List.append_assoc, ← List.append_assoc (Text.dropReturn front), ← hending]
    rfl
  have happart : ∀ d ∈ (ending ++ ['\n'] ++ rest).head?, Apart d := by
    intro d hd
    cases ending with
    | nil =>
      cases hd
      exact apart_of_isBlank (by decide)
    | cons c ending =>
      cases hd
      exact apart_of_isBlank (hreturns _ List.mem_cons_self ▸ by decide)
  rw [hsplit, tokensFrom_append hline happart, hcount, show UInt32.ofNat 0 = 0 from rfl, UInt32.add_zero,
    tokensFrom_ending hreturns]

/-- **The tokens of a text** are those of its lines, if every line can be read on its own. -/
theorem tokensFrom_lines (h : ∀ l ∈ numbered n (Text.lineChars cs), ∃ ts, tokensFrom l.number l.text = .ok ts) :
    tokensFrom n cs = .ok ((numbered n (Text.lineChars cs)).flatMap SourceLine.tokens) := by
  have hread {l : SourceLine} (hl : ∃ ts, tokensFrom l.number l.text = .ok ts) :
      tokensFrom l.number l.text = .ok l.tokens := by
    obtain ⟨ts, hts⟩ := hl
    rw [SourceLine.tokens, hts]
    rfl
  induction cs using lineByLine generalizing n with
  | nil => rw [tokensFrom]; rfl
  | last cs hne hcs =>
    rw [lineChars_of_notMem hne hcs, numbered, numbered] at h ⊢
    rw [List.flatMap_singleton]
    exact hread (h _ List.mem_cons_self)
  | next front rest hfront ih =>
    rw [lineChars_append hfront, numbered] at h ⊢
    have hline := hread (h _ List.mem_cons_self)
    have hlater := ih fun l hl => h l (List.mem_cons_of_mem _ hl)
    rw [tokensFrom_line hfront hline, hlater, List.flatMap_cons]
    rfl

/-- A token inside of a construct: it ends no statement, and it opens, divides and closes no block. -/
def Inner (c : TokenContent) : Prop := c ≠ .symbol .semi ∧ ∀ w, c = .ident w → Text.upper w ∉ blockWords

/-- The first and the last word of each header with a condition. -/
def headerFrames : List (String × String) := [("IF", "THEN"), ("ELSIF", "THEN"), ("WHILE", "DO")]

/-- The words that end a section of declarations or a statement. A semicolon may follow them. -/
def terminators : List String := ["END_VAR", "END_IF", "END_WHILE"]

/-- **What a line holds** in a plain layout. -/
inductive LineForm : List TokenContent → Prop
  | blank : LineForm []
  /-- A declaration or a statement without blocks. -/
  | entry {inner : List TokenContent} (h : ∀ c ∈ inner, Inner c) : LineForm (inner ++ [.symbol .semi])
  | header {opening closing : String} {inner : List TokenContent}
      (hframe : (Text.upper opening, Text.upper closing) ∈ headerFrames) (h : ∀ c ∈ inner, Inner c) :
      LineForm (.ident opening :: (inner ++ [.ident closing]))
  /-- A word that is a header on its own. -/
  | lone {w : String} (h : Text.upper w ∈ ["VAR", "ELSE"]) : LineForm [.ident w]
  | terminator {w : String} (h : Text.upper w ∈ terminators) : LineForm [.ident w]
  | closed {w : String} (h : Text.upper w ∈ terminators) : LineForm [.ident w, .symbol .semi]

/-- A line that holds nothing or one construct. -/
def SourceLine.Plain (l : SourceLine) : Prop :=
  ∃ ts, tokensFrom l.number l.text = .ok ts ∧ LineForm (ts.map Token.content)

/-- **Texts that are plainly laid out**: without string literals and comments, and with one construct on a line. -/
structure PlainlyLaidOut (source : String) : Prop where
  quotes : '\'' ∉ source.toList ∧ '"' ∉ source.toList
  comments : ¬ ['(', '*'] <:+: source.toList
  lines : ∀ l ∈ sourceLines source, l.Plain

theorem SourceLine.Plain.tokensFrom_eq (h : l.Plain) : tokensFrom l.number l.text = .ok l.tokens := by
  obtain ⟨ts, hts, -⟩ := h
  rw [SourceLine.tokens, hts]
  rfl

theorem SourceLine.Plain.form (h : l.Plain) : LineForm (l.tokens.map Token.content) := by
  obtain ⟨ts, hts, hform⟩ := h
  rw [SourceLine.tokens, hts]
  exact hform

theorem tokenize_lines (h : ∀ l ∈ sourceLines source, l.Plain) :
    tokenize source = .ok ((sourceLines source).flatMap SourceLine.tokens) :=
  tokensFrom_lines fun l hl => ⟨_, (h l hl).tokensFrom_eq⟩

/-- The tokens of a line of a layout. -/
theorem tokensFrom_lineText_end {ts : List TokenContent} (hts : ∀ t ∈ ts, t.Spelled) (n : UInt32) :
    tokensFrom n (lineText ts) = .ok (onLine n ts) := by
  induction ts with
  | nil => rw [lineText, tokensFrom, onLine_nil]
  | cons t ts ih =>
    obtain ⟨ht, hts⟩ := List.forall_mem_cons.1 hts
    have hends : t.EndsAt (gap t ts ++ lineText ts) := by
      intro c hc
      refine endsAt_gap hts [] c ?_
      rw [← List.append_assoc, List.head?_append, Option.mem_def.1 hc]
      rfl
    rw [lineText, List.append_assoc, tokensFrom_spelling ht hends, tokensFrom_gap, ih hts]
    rfl

theorem tokens_lineText {ts : List TokenContent} (hts : ∀ t ∈ ts, t.Spelled) (n : UInt32) :
    (⟨n, lineText ts⟩ : SourceLine).tokens = onLine n ts := by
  rw [SourceLine.tokens, tokensFrom_lineText_end hts]
  rfl

theorem lineChars_layoutText {lines : List (List TokenContent)}
    (h : ∀ ts ∈ lines, ∀ c ∈ lineText ts, c ≠ '\n' ∧ c ≠ '\r') :
    Text.lineChars (layoutText lines) = lines.map lineText := by
  induction lines with
  | nil => rfl
  | cons ts lines ih =>
    obtain ⟨hts, hlines⟩ := List.forall_mem_cons.1 h
    have htext : layoutText (ts :: lines) = lineText ts ++ '\n' :: layoutText lines := by
      rw [layoutText, List.flatMap_cons, List.append_assoc, List.singleton_append]
      rfl
    have hreturn : Text.dropReturn (lineText ts) = lineText ts :=
      if_neg fun hlast => (hts '\r' (List.mem_of_getLast? hlast)).2 rfl
    rw [htext, lineChars_append fun hmem => (hts '\n' hmem).1 rfl, hreturn, ih hlines, List.map_cons]

/-- Every line of a layout ends with a line feed. -/
theorem newlines_layout {lines : List (List TokenContent)} (h : ∀ ts ∈ lines, '\n' ∉ lineText ts) :
    newlines (String.ofList (layoutText lines)) = lines.length := by
  rw [newlines, String.toList_ofList]
  induction lines with
  | nil => rfl
  | cons ts lines ih =>
    obtain ⟨hts, hlines⟩ := List.forall_mem_cons.1 h
    have htext : layoutText (ts :: lines) = lineText ts ++ '\n' :: layoutText lines := by
      rw [layoutText, List.flatMap_cons, List.append_assoc, List.singleton_append]
      rfl
    rw [htext, List.count_append, List.count_eq_zero.2 hts, List.count_cons_self, ih hlines, List.length_cons,
      Nat.zero_add]

theorem sourceLines_layout {lines : List (List TokenContent)}
    (h : ∀ ts ∈ lines, ∀ c ∈ lineText ts, c ≠ '\n' ∧ c ≠ '\r') :
    sourceLines (String.ofList (layoutText lines)) = numbered 1 (lines.map lineText) := by
  rw [sourceLines, String.toList_ofList, lineChars_layoutText h]

/-- **Layouts with one construct on a line** are plainly laid out, if they are without quotes and parentheses. -/
theorem plainlyLaidOut_layout {lines : List (List TokenContent)} (hspelled : ∀ ts ∈ lines, ∀ t ∈ ts, t.Spelled)
    (hform : ∀ ts ∈ lines, LineForm ts) (hchars : ∀ ts ∈ lines, ∀ c ∈ lineText ts, c ∉ ['\n', '\r', '\'', '"', '(']) :
    PlainlyLaidOut (String.ofList (layoutText lines)) := by
  have habsent (c : Char) (hc : c ∈ ['\'', '"', '(']) : c ∉ (String.ofList (layoutText lines)).toList := by
    rw [String.toList_ofList, layoutText, List.mem_flatMap]
    rintro ⟨ts, hts, hmem⟩
    rcases List.mem_append.1 hmem with hmem | hmem
    · exact hchars ts hts c hmem (List.mem_cons_of_mem _ (List.mem_cons_of_mem _ hc))
    · rw [List.mem_singleton.1 hmem] at hc
      revert hc
      decide
  refine ⟨⟨habsent _ (by decide), habsent _ (by decide)⟩,
    fun hopens => habsent '(' (by decide) (hopens.subset List.mem_cons_self), fun l hl => ?_⟩
  have hbreaks (ts) (hts : ts ∈ lines) (c) (hc : c ∈ lineText ts) : c ≠ '\n' ∧ c ≠ '\r' := by
    constructor <;> rintro rfl <;> exact hchars ts hts _ hc (by decide)
  rw [sourceLines_layout hbreaks] at hl
  obtain ⟨ts, hts, htext⟩ : ∃ ts ∈ lines, lineText ts = l.text := by
    rw [← List.mem_map, ← lineChars_layoutText hbreaks]
    rw [← lineChars_layoutText hbreaks] at hl
    exact mem_lineChars_of_mem hl
  refine ⟨onLine l.number ts, by rw [← htext, tokensFrom_lineText_end (hspelled ts hts)], ?_⟩
  rw [onLine, List.map_map]
  change LineForm (ts.map id)
  rw [List.map_id]
  exact hform ts hts

end Switchyard.Script

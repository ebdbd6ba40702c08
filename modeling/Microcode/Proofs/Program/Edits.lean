import Microcode.Proofs.Program.RoundTrip
import Mathlib.Data.List.Infix
import Mathlib.Logic.Relation

/-!
# Microcode.Proofs.Program.Edits

Changes of a written control store that its reader does not notice.

A file is taken apart into rows, and a row that was written for a word into the literal and what stands
before and after it, so that an edit can say where it takes place (`Edit`).  A row is `Sound` when the
reader sees on it what was written there.  One edit keeps all rows sound and the words the same
(`Edit.sound`), and so do any number of them; the rows of both forms are sound to begin with.

The comments are the point where this could fail: a line is cut at `--` before it is cut at `//`, and
either may stand in the other.  `codeOf_append_dashes` and `codeOf_append_slashes` say that a
comment behind a line, whatever there is in it, never lets more of the line be seen than before.
-/

namespace Microcode.Program

open Text

/-! ## lines that are passed over -/

/-- A line on which the reader sees nothing: there is no quote and no mark of a literal before its
comment. -/
structure Passed (line : List Char) : Prop where
  no_feed : '\n' ∉ line
  no_quote : '"' ∉ codeOf line
  no_mark : ¬['3', '2', '\'', 'b'] <:+: codeOf line

theorem passed_iff {line : List Char} :
    Passed line ↔
      '\n' ∉ line ∧ '"' ∉ codeOf line ∧ ¬['3', '2', '\'', 'b'] <:+: codeOf line :=
  ⟨fun h => ⟨h.no_feed, h.no_quote, h.no_mark⟩, fun h => ⟨h.1, h.2.1, h.2.2⟩⟩

instance (line : List Char) : Decidable (Passed line) := decidable_of_iff _ passed_iff.symm

/-- What may be written behind a line: blanks, or a comment. -/
inductive Trailing : List Char → Prop where
  | blanks {s : List Char} (h : ∀ c ∈ s, isBlank c = true) : Trailing s
  | dashes (comment : List Char) : Trailing ('-' :: '-' :: comment)
  | slashes (comment : List Char) : Trailing ('/' :: '/' :: comment)

/-- Blanks behind a line are in its comment, or they are all that is seen besides. -/
theorem codeOf_append_blanks {s blanks : List Char} (h : ∀ c ∈ blanks, isBlank c = true) :
    codeOf (s ++ blanks) = codeOf s ∨ codeOf (s ++ blanks) = codeOf s ++ blanks := by
  have hdash : '-' ∉ blanks := fun hmem => absurd (h _ hmem) (by decide)
  have hslash : '/' ∉ blanks := fun hmem => absurd (h _ hmem) (by decide)
  rcases before_append (s := s) hdash with hcut | hcut
  · left
    rw [codeOf, hcut, ← codeOf]
  · rw [codeOf, hcut]
    exact before_append hslash

/-- With a comment after dashes behind it, no more is seen of a line than before. -/
theorem codeOf_append_dashes (s comment : List Char) :
    codeOf (s ++ '-' :: '-' :: comment) <+: codeOf s := by
  -- at most a dash of the line goes with the comment, and no slashes meet where it stood
  obtain ⟨lost, hlost, hcut⟩ := exists_before_append_pair '-' s comment
  have hslash : '/' ∉ lost := fun hmem => absurd (hlost _ hmem) (by decide)
  rw [codeOf, codeOf, hcut]
  rcases before_append (s := before ['-', '-'] (s ++ '-' :: '-' :: comment)) hslash with hcode | hcode
  · rw [hcode]
  · rw [hcode]
    exact List.prefix_append _ _

/-- Nor with a comment after slashes. -/
theorem codeOf_append_slashes (s comment : List Char) :
    codeOf (s ++ '/' :: '/' :: comment) <+: codeOf s := by
  have hhead : ('/' :: '/' :: comment).head? ≠ some '-' := by simp
  rcases before_append_right (s := s) hhead with hcut | hcut
  · rw [codeOf, hcut, ← codeOf]
  · -- dashes in the comment cut off only a part of it
    have hslashes : before ['-', '-'] ('/' :: '/' :: comment) =
        '/' :: '/' :: before ['-', '-'] comment :=
      before_append_left (s := ['/', '/']) (by decide) ['-'] comment
    obtain ⟨lost, -, hcode⟩ :=
      exists_before_append_pair '/' (before ['-', '-'] s) (before ['-', '-'] comment)
    rw [codeOf, codeOf, hcut, hslashes, hcode]
    exact List.prefix_append _ _

namespace Passed

variable {s t : List Char}

theorem literal?_eq_none (h : Passed s) : literal? s = none := by
  rw [literal?, quotedLiteral?, after?_of_notMem h.no_quote, sizedLiteral?, after?_eq_none h.no_mark]
  rfl

/-- A line is passed over if no more of it is seen than of one that is. -/
theorem of_codeOf (h : Passed s) (hfeed : '\n' ∉ t) (hcode : codeOf t <+: codeOf s) : Passed t where
  no_feed := hfeed
  no_quote hmem := h.no_quote (hcode.subset hmem)
  no_mark hmark := h.no_mark (hmark.trans hcode.isInfix)

/-- What may be written behind a line does not make it be seen. -/
theorem append (h : Passed s) (ht : Trailing t) (hfeed : '\n' ∉ t) : Passed (s ++ t) := by
  have hfeed' : '\n' ∉ s ++ t := by simp [h.no_feed, hfeed]
  cases ht with
  | dashes comment => exact h.of_codeOf hfeed' (codeOf_append_dashes s comment)
  | slashes comment => exact h.of_codeOf hfeed' (codeOf_append_slashes s comment)
  | blanks hblanks =>
      rcases codeOf_append_blanks (s := s) hblanks with hcode | hcode
      · exact h.of_codeOf hfeed' (by rw [hcode])
      · have hquote : '"' ∉ t := fun hmem => absurd (hblanks _ hmem) (by decide)
        have hb : 'b' ∉ t := fun hmem => absurd (hblanks _ hmem) (by decide)
        refine ⟨hfeed', by simp [hcode, h.no_quote, hquote], fun hmark => h.no_mark ?_⟩
        have hmark' : ['3', '2', '\''] ++ ['b'] <:+: codeOf s ++ t := by rwa [← hcode]
        exact infix_of_infix_append_right hb hmark'

/-- Nor does a carriage return that is taken away. -/
theorem dropReturn (h : Passed s) : Passed (dropReturn s) := by
  unfold Text.dropReturn
  split
  · next hlast =>
      obtain ⟨front, rfl⟩ := List.getLast?_eq_some_iff.mp (beq_iff_eq.mp hlast)
      have hfeed := h.no_feed
      rw [List.mem_append, not_or] at hfeed
      have hreturn : ∀ c ∈ ['\r'], isBlank c = true := List.forall_mem_singleton.mpr rfl
      rw [List.dropLast_concat]
      refine h.of_codeOf hfeed.1 ?_
      rcases codeOf_append_blanks (s := front) hreturn with hcode | hcode
      · rw [hcode]
      · rw [hcode]
        exact List.prefix_append _ _
  · exact h

end Passed

/-! ## rows -/

/-- How a line ends. -/
inductive LineEnd where
  | feed
  | returnFeed

def LineEnd.chars : LineEnd → List Char
  | .feed => ['\n']
  | .returnFeed => ['\r', '\n']

/-- What stands on a line. -/
inductive Content where
  /-- A line that was not written for a word. -/
  | plain (text : List Char)
  /-- The literal of a word, and what stands before and after it. -/
  | word (front literal back : List Char)

namespace Content

def chars : Content → List Char
  | .plain text => text
  | .word front literal back => front ++ (literal ++ back)

def append (more : List Char) : Content → Content
  | .plain text => .plain (text ++ more)
  | .word front literal back => .word front literal (back ++ more)

/-- The word that the line was written for. -/
def word? : Content → Option MicroWord
  | .plain _ => none
  | .word _ literal _ => wordOfLiteral? literal

end Content

/-- A line of a file, with its end. -/
structure Row where
  content : Content
  ending : LineEnd

/-- The text of a file. -/
def textOf (rows : List Row) : List Char :=
  rows.flatMap fun row => row.content.chars ++ row.ending.chars

/-- The words that a file was written for. -/
def wordsOf (rows : List Row) : List MicroWord := rows.filterMap (·.content.word?)

theorem wordsOf_cons (row : Row) (rows : List Row) :
    wordsOf (row :: rows) = row.content.word?.toList ++ wordsOf rows := by
  cases hword : row.content.word? <;> simp [wordsOf, hword]

/-! ## edits -/

/-- One edit of a line. -/
inductive Row.Edit : Row → Row → Prop where
  /-- An underscore, anywhere in the literal. -/
  | underscore (front before after back : List Char) (ending : LineEnd) :
      Edit ⟨.word front (before ++ after) back, ending⟩
        ⟨.word front (before ++ '_' :: after) back, ending⟩
  /-- Blanks or a comment, at the end of the line. -/
  | append (row : Row) {more : List Char} (h : Trailing more) (hfeed : '\n' ∉ more) :
      Edit row { row with content := row.content.append more }
  /-- A carriage return as a part of the line end. -/
  | returnFeed (row : Row) : Edit row { row with ending := .returnFeed }

/-- One edit of a file. -/
inductive Edit : List Row → List Row → Prop where
  /-- An edit of one of its lines. -/
  | change (front back : List Row) {row row' : Row} (h : row.Edit row') :
      Edit (front ++ row :: back) (front ++ row' :: back)
  /-- Another line, anywhere. -/
  | insert (front back : List Row) {line : List Char} (h : Passed line) (ending : LineEnd) :
      Edit (front ++ back) (front ++ ⟨.plain line, ending⟩ :: back)

/-! ## rows that are read as they were written -/

/-- Between these two any literal is found, if nothing is seen of what follows. -/
structure Frames (front : List Char) (stop : Char) : Prop where
  no_feed : '\n' ∉ front
  stop_ne : stop ≠ '\n' ∧ stop ≠ '\r'
  literal?_eq : ∀ {literal rest : List Char}, IsBinary literal → Passed rest →
    literal? (front ++ (literal ++ stop :: rest)) = some literal

/-- The reader sees on a line what was written there. -/
inductive Content.Sound : Content → Prop where
  | plain {text : List Char} (h : Passed text) : Sound (.plain text)
  | word {front literal rest : List Char} {stop : Char} {w : MicroWord} (hframes : Frames front stop)
      (hliteral : IsBinary literal) (hword : wordOfLiteral? literal = some w)
      (hrest : Passed rest) : Sound (.word front literal (stop :: rest))

namespace Content.Sound

variable {content : Content}

theorem no_feed (h : content.Sound) : '\n' ∉ content.chars := by
  cases h with
  | plain htext => exact htext.no_feed
  | word hframes hliteral _ hrest =>
      simp [chars, hframes.no_feed, hliteral.notMem, hframes.stop_ne.1.symm, hrest.no_feed]

/-- The literal of a line, with a carriage return at its end or without it. -/
theorem spells_cons (h : content.Sound) {line : List Char}
    (hline : line = content.chars ∨ line = dropReturn content.chars) {lines : List (List Char)}
    {words : List MicroWord} (hlines : Spells lines words) :
    Spells (line :: lines) (content.word?.toList ++ words) := by
  cases h with
  | plain htext =>
      refine .skip ?_ hlines
      rcases hline with rfl | rfl
      · exact htext.literal?_eq_none
      · exact htext.dropReturn.literal?_eq_none
  | word hframes hliteral hword hrest =>
      rw [word?, hword]
      refine .word ?_ hword hlines
      rcases hline with rfl | rfl
      · exact hframes.literal?_eq hliteral hrest
      · -- the carriage return, if there is one, stands behind the end of the literal
        rw [chars, ← List.append_assoc, dropReturn_append_cons hframes.stop_ne.2, List.append_assoc]
        exact hframes.literal?_eq hliteral hrest.dropReturn

end Content.Sound

/-- Every line of a file is read as it was written. -/
def Sound (rows : List Row) : Prop := ∀ row ∈ rows, row.content.Sound

/-- The first line of a file. -/
theorem lines_row {row : Row} (h : '\n' ∉ row.content.chars) (t : List Char) :
    ∃ line, (line = row.content.chars ∨ line = dropReturn row.content.chars) ∧
      lines (row.content.chars ++ row.ending.chars ++ t) = line :: lines t := by
  cases hending : row.ending with
  | feed =>
      refine ⟨_, .inr rfl, ?_⟩
      rw [LineEnd.chars, List.append_assoc, List.singleton_append, lines_cons_dropReturn h]
  | returnFeed =>
      have hfeed : '\n' ∉ row.content.chars ++ ['\r'] := by simp [h]
      have hlines := lines_cons_dropReturn hfeed t
      refine ⟨_, .inl rfl, ?_⟩
      simpa [LineEnd.chars, dropReturn] using hlines

/-- Every row is a line, and the words on these lines are those that the file was written for. -/
theorem Sound.exists_lines {rows : List Row} (h : Sound rows) (rest : List Char) :
    ∃ ls, lines (textOf rows ++ rest) = ls ++ lines rest ∧ ls.length = rows.length ∧
      Spells ls (wordsOf rows) := by
  induction rows with
  | nil => exact ⟨[], rfl, rfl, .nil⟩
  | cons row rows ih =>
      obtain ⟨hrow, hrows⟩ := List.forall_mem_cons.mp h
      obtain ⟨ls, hls, hlength, hspells⟩ := ih hrows
      obtain ⟨line, hline, hlines⟩ := lines_row hrow.no_feed (textOf rows ++ rest)
      refine ⟨line :: ls, ?_, congrArg (· + 1) hlength, ?_⟩
      · rw [textOf, List.flatMap_cons, List.append_assoc, ← textOf, hlines, hls, List.cons_append]
      · rw [wordsOf_cons]
        exact hrow.spells_cons hline hspells

/-- The words of a file are the same with another line at its end. -/
theorem Sound.spells {rows : List Row} (h : Sound rows) {rest : List Char} (hrest : Passed rest) :
    Spells (lines (textOf rows ++ rest)) (wordsOf rows) := by
  obtain ⟨ls, hls, -, hspells⟩ := h.exists_lines rest
  have hlast : Spells (lines rest) [] := spells_nil fun line hline => by
    rw [mem_lines_of_notMem hrest.no_feed hline]
    exact hrest.literal?_eq_none
  rw [hls, ← List.append_nil (wordsOf rows)]
  exact hspells.append hlast

/-! ## edits keep this -/

/-- Underscores in a literal do not matter. -/
theorem wordOfLiteral?_underscore (s t : List Char) :
    wordOfLiteral? (s ++ '_' :: t) = wordOfLiteral? (s ++ t) := by
  simp [wordOfLiteral?]

/-- An edit of a line keeps what is read from it. -/
theorem Row.Edit.sound {row row' : Row} (h : row.Edit row') (hrow : row.content.Sound) :
    row'.content.Sound ∧ row'.content.word? = row.content.word? := by
  cases h with
  | underscore front before after back ending =>
      have hword := wordOfLiteral?_underscore before after
      cases hrow with
      | word hframes hliteral hw hrest =>
          have hliteral' : IsBinary (before ++ '_' :: after) := by
            simp only [IsBinary, List.forall_mem_append, List.forall_mem_cons] at hliteral ⊢
            exact ⟨hliteral.1, by simp, hliteral.2⟩
          exact ⟨.word hframes hliteral' (hword.trans hw) hrest, hword⟩
  | append row hmore hfeed =>
      obtain ⟨content, ending⟩ := row
      cases hrow with
      | plain htext => exact ⟨.plain (htext.append hmore hfeed), rfl⟩
      | word hframes hliteral hw hrest =>
          exact ⟨.word hframes hliteral hw (hrest.append hmore hfeed), rfl⟩
  | returnFeed row => exact ⟨hrow, rfl⟩

/-- An edit of a file keeps the words that are read from it. -/
theorem Edit.sound {rows rows' : List Row} (h : Edit rows rows') (hrows : Sound rows) :
    Sound rows' ∧ wordsOf rows' = wordsOf rows := by
  cases h with
  | change front back hrow =>
      simp only [Sound, List.forall_mem_append, List.forall_mem_cons] at hrows ⊢
      obtain ⟨hsound, hword⟩ := hrow.sound hrows.2.1
      refine ⟨⟨hrows.1, hsound, hrows.2.2⟩, ?_⟩
      simp [wordsOf, List.filterMap_append, List.filterMap_cons, hword]
  | insert front back hline ending =>
      simp only [Sound, List.forall_mem_append, List.forall_mem_cons] at hrows ⊢
      refine ⟨⟨hrows.1, .plain hline, hrows.2⟩, ?_⟩
      simp [wordsOf, List.filterMap_append, Content.word?]

/-- So do any number of edits. -/
theorem sound_of_edits {rows rows' : List Row} (h : Relation.ReflTransGen Edit rows rows')
    (hrows : Sound rows) : Sound rows' ∧ wordsOf rows' = wordsOf rows := by
  induction h with
  | refl => exact ⟨hrows, rfl⟩
  | tail _ hedit ih =>
      obtain ⟨hsound, hwords⟩ := hedit.sound ih.1
      exact ⟨hsound, hwords.trans ih.2⟩

/-! ## the rows of the written forms -/

/-- The rows of a text without words. -/
def plainRows (text : String) : List Row :=
  (lines text.toList).map fun line => ⟨.plain line, .feed⟩

/-- The rows of a form: those of its head, one for every word, and those of its foot. -/
def formRows (p : Program) (head foot : String) (content : MicroWord → Nat → Content) : List Row :=
  plainRows head ++ p.words.zipIdx.map (fun x => ⟨content x.1 x.2, .feed⟩) ++ plainRows foot

def vhdlContent (w : MicroWord) (address : Nat) : Content :=
  .word [' ', ' ', '"'] w.digits.toList
    ('"' :: (if address < 511 then ',' else ' ') :: ' ' :: '-' :: '-' :: ' ' :: padded 16 3 address)

def verilogContent (w : MicroWord) (address : Nat) : Content :=
  .word (verilogTarget ++ (verilogIndex address ++ ['3', '2', '\'', 'b'])) w.digits.toList [';']

/-- The rows of the forms that are read line by line. -/
def rows? (p : Program) : TableFormat → Option (List Row)
  | .vhdl => some (p.formRows vhdlHead vhdlFoot vhdlContent)
  | .verilog => some (p.formRows verilogHead verilogFoot verilogContent)
  | .json => none

/-- A text of whole lines that are passed over. -/
structure Tidy (text : String) : Prop where
  whole : text.toList.getLast? = some '\n'
  no_return : '\r' ∉ text.toList
  passed : ∀ line ∈ lines text.toList, Passed line

theorem tidy_iff {text : String} :
    Tidy text ↔ text.toList.getLast? = some '\n' ∧ '\r' ∉ text.toList ∧
      ∀ line ∈ lines text.toList, Passed line :=
  ⟨fun h => ⟨h.whole, h.no_return, h.passed⟩, fun h => ⟨h.1, h.2.1, h.2.2⟩⟩

instance (text : String) : Decidable (Tidy text) := decidable_of_iff _ tidy_iff.symm

theorem Tidy.append {s t : String} (hs : Tidy s) (ht : Tidy t) : Tidy (s ++ t) where
  whole := by rw [String.toList_append, List.getLast?_append, ht.whole, Option.some_or]
  no_return := by simp [hs.no_return, ht.no_return]
  passed := by
    rw [String.toList_append, lines_append hs.whole, List.forall_mem_append]
    exact ⟨hs.passed, ht.passed⟩

/-- A form whose lines are read as they are written. -/
structure RowForm (head foot : String) (row : MicroWord → Nat → String)
    (content : MicroWord → Nat → Content) : Prop where
  head_tidy : Tidy head
  foot_tidy : Tidy foot
  toList_row : ∀ w address, (row w address).toList = (content w address).chars ++ ['\n']
  sound : ∀ w address, (content w address).Sound
  word?_eq : ∀ w address, (content w address).word? = some w

theorem Tidy.textOf_plainRows {text : String} (h : Tidy text) :
    textOf (plainRows text) = text.toList := by
  rw [textOf, plainRows, List.flatMap_map]
  exact flatMap_lines h.whole h.no_return

theorem Tidy.sound_plainRows {text : String} (h : Tidy text) : Sound (plainRows text) := by
  intro row hrow
  obtain ⟨line, hline, rfl⟩ := List.mem_map.mp hrow
  exact .plain (h.passed line hline)

theorem wordsOf_plainRows (text : String) : wordsOf (plainRows text) = [] := by
  simp [wordsOf, plainRows, Content.word?]

namespace RowForm

variable {head foot : String} {row : MicroWord → Nat → String} {content : MicroWord → Nat → Content}

theorem textOf_formRows (form : RowForm head foot row content) (p : Program) :
    textOf (p.formRows head foot content) =
      (head ++ String.join (p.words.zipIdx.map fun (w, address) => row w address) ++ foot).toList := by
  have hhead := form.head_tidy.textOf_plainRows
  have hfoot := form.foot_tidy.textOf_plainRows
  have hrows : (p.words.zipIdx.flatMap fun x => (content x.1 x.2).chars ++ LineEnd.feed.chars) =
      p.words.zipIdx.flatMap fun x => (row x.1 x.2).toList := by
    simp [form.toList_row, LineEnd.chars]
  simp only [textOf] at hhead hfoot ⊢
  rw [formRows, List.flatMap_append, List.flatMap_append, hhead, hfoot, List.flatMap_map, hrows]
  simp [String.toList_join, List.flatMap_map]

theorem sound_formRows (form : RowForm head foot row content) (p : Program) :
    Sound (p.formRows head foot content) := by
  have hhead := form.head_tidy.sound_plainRows
  have hfoot := form.foot_tidy.sound_plainRows
  simp only [Sound] at hhead hfoot ⊢
  rw [formRows, List.forall_mem_append, List.forall_mem_append, List.forall_mem_map]
  exact ⟨⟨hhead, fun x _ => form.sound x.1 x.2⟩, hfoot⟩

theorem wordsOf_formRows (form : RowForm head foot row content) (p : Program) :
    wordsOf (p.formRows head foot content) = p.words := by
  have hhead := wordsOf_plainRows head
  have hfoot := wordsOf_plainRows foot
  simp only [wordsOf] at hhead hfoot ⊢
  rw [formRows, List.filterMap_append, List.filterMap_append, hhead, hfoot, List.filterMap_map]
  simp [form.word?_eq]

end RowForm

/-- Quotes frame a literal, whatever follows. -/
theorem frames_quotes : Frames [' ', ' ', '"'] '"' where
  no_feed := by decide
  stop_ne := by decide
  literal?_eq hliteral _ := literal?_quoted hliteral _

/-- Before the literal of a word in a Verilog include file there are digits, letters and marks. -/
theorem notMem_verilogFront (address : Nat) {c : Char} (hc : c.isAlphanum = false)
    (h : c ∉ [' ', '[', '\'', ']', '=', ';']) :
    c ∉ verilogTarget ++ (verilogIndex address ++ ['3', '2', '\'', 'b']) := by
  have hcode : c ∉ verilogCode address [] := notMem_verilogCode address hc h List.not_mem_nil
  simp only [verilogCode, List.mem_append, not_or] at hcode ⊢
  exact ⟨hcode.1, hcode.2.1, hcode.2.2.1⟩

/-- The mark and a semicolon frame a literal, as long as no quotes are seen behind them. -/
theorem frames_mark (address : Nat) :
    Frames (verilogTarget ++ (verilogIndex address ++ ['3', '2', '\'', 'b'])) ';' where
  no_feed := notMem_verilogFront address (by decide) (by decide)
  stop_ne := by decide
  literal?_eq hliteral hrest := by
    have hline := literal?_verilogCode address hliteral hrest.no_quote
    simpa [verilogCode] using hline

/-- What follows the literal of a word in a VHDL package is a comma, and a comment. -/
theorem passed_vhdlBack (address : Nat) :
    Passed ((if address < 511 then ',' else ' ') :: ' ' :: '-' :: '-' :: ' ' ::
      padded 16 3 address) := by
  have hfront : Passed [if address < 511 then ',' else ' ', ' '] := by
    split <;> decide
  have haddress : '\n' ∉ padded 16 3 address :=
    notMem_padded (by decide) (by decide) (by decide) 3 address
  exact hfront.append (.dashes (' ' :: padded 16 3 address)) (by simp [haddress])

theorem tidy_vhdlHead : Tidy vhdlHead := by
  unfold vhdlHead
  refine .append (.append (.append (.append (.append (.append ?_ ?_) ?_) ?_) ?_) ?_) ?_ <;>
    decide +kernel

theorem tidy_verilogHead : Tidy verilogHead := by
  unfold verilogHead
  refine .append (.append ?_ ?_) ?_ <;> decide +kernel

theorem vhdlRowForm : RowForm vhdlHead vhdlFoot vhdlRow vhdlContent where
  head_tidy := tidy_vhdlHead
  foot_tidy := by decide +kernel
  toList_row w address := by
    rw [toList_vhdlRow]
    simp [vhdlLine, vhdlCode, vhdlContent, Content.chars]
  sound w address :=
    .word frames_quotes (isBinary_digits w) (wordOfLiteral?_digits w) (passed_vhdlBack address)
  word?_eq w _ := wordOfLiteral?_digits w

theorem verilogRowForm : RowForm verilogHead verilogFoot verilogRow verilogContent where
  head_tidy := tidy_verilogHead
  foot_tidy := by decide +kernel
  toList_row w address := by
    rw [toList_verilogRow]
    simp [verilogLine, verilogContent, Content.chars]
  sound w address :=
    .word (frames_mark address) (isBinary_digits w) (wordOfLiteral?_digits w) (by decide)
  word?_eq w _ := wordOfLiteral?_digits w

/-- A form that is read line by line has a row for every line, and its rows are sound. -/
theorem exists_rows? (p : Program) {format : TableFormat} (h : format ≠ .json) :
    ∃ rows, p.rows? format = some rows ∧ textOf rows = (p.write format).toList ∧ Sound rows ∧
      wordsOf rows = p.words := by
  cases format with
  | vhdl =>
      exact ⟨_, rfl, vhdlRowForm.textOf_formRows p, vhdlRowForm.sound_formRows p,
        vhdlRowForm.wordsOf_formRows p⟩
  | verilog =>
      exact ⟨_, rfl, verilogRowForm.textOf_formRows p, verilogRowForm.sound_formRows p,
        verilogRowForm.wordsOf_formRows p⟩
  | json => exact absurd rfl h

/-- A control store reads back from either form after any number of edits, with another line at the
end or not, unless the text now looks like a JSON list. -/
theorem read_edited (p : Program) {format : TableFormat} (hformat : format ≠ .json) :
    ∃ written, p.rows? format = some written ∧ textOf written = (p.write format).toList ∧
      ∀ (rows : List Row) (rest : List Char) (text : String),
        Relation.ReflTransGen Edit written rows → Passed rest → text.toList = textOf rows ++ rest →
          (trimStart text.toList).head? ≠ some '[' → read text = .ok p := by
  obtain ⟨written, hwritten, htextOf, hsound, hwords⟩ := p.exists_rows? hformat
  refine ⟨written, hwritten, htextOf, fun rows rest text hedits hrest htext hbracket => ?_⟩
  obtain ⟨hrows, hsame⟩ := sound_of_edits hedits hsound
  have hspells := hrows.spells hrest
  rw [← htext, hsame, hwords] at hspells
  rw [read, if_neg (by simpa using hbracket), ofHdl_eq hspells, p.ofWords_words]

/-- The control store with only zeros. -/
def cleared : Program := ⟨List.replicate 512 .zero, List.length_replicate⟩

/-- The line of the first word of that control store, with this literal, this behind it and this end. -/
def clearedRow (literal back : List Char) (ending : LineEnd) : Row :=
  ⟨.word (verilogTarget ++ (verilogIndex 0 ++ ['3', '2', '\'', 'b'])) literal (';' :: back), ending⟩

/-- Four edits around that line. -/
theorem edits_clearedRow (front more : List Row) :
    Relation.ReflTransGen Edit
      (front ++ clearedRow (List.replicate 8 '0' ++ List.replicate 24 '0') [] .feed :: more)
      (⟨.plain ['/', '/', '"'], .feed⟩ ::
        (front ++ clearedRow (List.replicate 8 '0' ++ '_' :: List.replicate 24 '0')
          ['-', '-', '"', '1', '"', '/', '/', '3', '2', '\'', 'b'] .returnFeed :: more)) := by
  have hunderscore : (clearedRow (List.replicate 8 '0' ++ List.replicate 24 '0') [] .feed).Edit
      (clearedRow (List.replicate 8 '0' ++ '_' :: List.replicate 24 '0') [] .feed) :=
    .underscore _ _ _ _ _
  have hcomment := Row.Edit.append
    (clearedRow (List.replicate 8 '0' ++ '_' :: List.replicate 24 '0') [] .feed)
    (.dashes ['"', '1', '"', '/', '/', '3', '2', '\'', 'b']) (by decide)
  refine .tail (.tail (.tail (.single (.change front more hunderscore))
    (.change front more hcomment)) (.change front more (.returnFeed _))) ?_
  exact .insert [] _ (by decide) .feed

/-- The zeros still read back when there is an underscore in the first literal, a comment with quotes,
slashes and a mark behind it, a carriage return at the end of its line and another line above all. -/
theorem read_edited_cleared :
    TableFormat.verilog ≠ .json ∧ ∃ more,
      cleared.rows? .verilog = some (plainRows verilogHead ++
        clearedRow (List.replicate 8 '0' ++ List.replicate 24 '0') [] .feed :: more) ∧
      read (String.ofList (textOf (⟨.plain ['/', '/', '"'], .feed⟩ :: (plainRows verilogHead ++
        clearedRow (List.replicate 8 '0' ++ '_' :: List.replicate 24 '0')
          ['-', '-', '"', '1', '"', '/', '/', '3', '2', '\'', 'b'] .returnFeed :: more)))) =
        .ok cleared := by
  have hformat : TableFormat.verilog ≠ .json := by decide
  have hdigits : MicroWord.zero.digits.toList = List.replicate 8 '0' ++ List.replicate 24 '0' := by
    decide +kernel
  have hwords : cleared.words.zipIdx = (.zero, 0) :: (List.replicate 511 .zero).zipIdx 1 := rfl
  obtain ⟨more, hrows⟩ : ∃ more, cleared.rows? .verilog = some (plainRows verilogHead ++
      clearedRow (List.replicate 8 '0' ++ List.replicate 24 '0') [] .feed :: more) := by
    rw [rows?, formRows, hwords, List.map_cons, List.append_assoc, List.cons_append, verilogContent,
      hdigits]
    exact ⟨_, rfl⟩
  obtain ⟨written, hwritten, -, hread⟩ := cleared.read_edited hformat
  rw [hwritten, Option.some.injEq] at hrows
  rw [hrows] at hwritten hread
  refine ⟨hformat, more, hwritten, hread _ [] _ (edits_clearedRow _ more) (by decide) ?_ ?_⟩
  · rw [String.toList_ofList, List.append_nil]
  · rw [String.toList_ofList, textOf, List.flatMap_cons]
    simp [Content.chars, trimStart, isBlank]

end Microcode.Program

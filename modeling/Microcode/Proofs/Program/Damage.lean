import Microcode.Proofs.Program.Edits

/-!
# Microcode.Proofs.Program.Damage

Changes of a written control store that its reader reports.

The reader passes over every line without a literal, so a literal that no longer looked like one would
be lost without a word, and all words behind it would move up by one place.  That this cannot happen is
what `Guards` says: with any one character in the place of a digit, be it a quote, a semicolon, a
blank or half of a comment mark, the reader still takes a literal from the line, and what it takes is
the beginning of the damaged one.  Such a beginning never has 32 digits (`wordOfLiteral?_eq_none`), so
the line is reported with its number (`Garbled.ofHdl_eq`).

Lines that are missing altogether leave all others as they were, and their number is told by the
number of words (`Lost.sound`).
-/

namespace Microcode.Program

open Text

/-! ## damage -/

/-- In one literal of a file a digit is replaced by a character that is none: the line with this
number has this literal now. -/
inductive Garbled : List Row → Nat → List Char → List Row → Prop where
  | mk (before after : List Row) (front left right back : List Char) (ending : LineEnd)
      (digit c : Char) (hc : c ≠ '0' ∧ c ≠ '1' ∧ c ≠ '\n') :
      Garbled (before ++ ⟨.word front (left ++ digit :: right) back, ending⟩ :: after)
        (before.length + 1) (left ++ c :: right)
        (before ++ ⟨.word front (left ++ c :: right) back, ending⟩ :: after)

/-- Of the lines that were written for words, this many are missing. -/
inductive Lost : Nat → List Row → List Row → Prop where
  | nil : Lost 0 [] []
  | keep (row : Row) {k : Nat} {rows rows' : List Row} (h : Lost k rows rows') :
      Lost k (row :: rows) (row :: rows')
  | drop (front literal back : List Char) (ending : LineEnd) {k : Nat} {rows rows' : List Row}
      (h : Lost k rows rows') : Lost (k + 1) (⟨.word front literal back, ending⟩ :: rows) rows'

/-- Nothing is missing from a file itself. -/
theorem Lost.refl (rows : List Row) : Lost 0 rows rows := by
  induction rows with
  | nil => exact .nil
  | cons row rows ih => exact .keep row ih

/-- What is missing may be missing anywhere. -/
theorem Lost.append_left (front : List Row) {k : Nat} {rows rows' : List Row} (h : Lost k rows rows') :
    Lost k (front ++ rows) (front ++ rows') := by
  induction front with
  | nil => exact h
  | cons row front ih => exact .keep row ih

/-! ## damaged literals -/

/-- No beginning of a literal with 32 characters stands for a word if one of them is no digit. -/
theorem wordOfLiteral?_eq_none {literal shown : List Char} {c : Char} (hlength : literal.length = 32)
    (hmem : c ∈ literal) (hc : c ≠ '0' ∧ c ≠ '1') (hshown : shown <+: literal) :
    wordOfLiteral? shown = none := by
  refine if_neg fun hdigits => ?_
  simp only [Bool.and_eq_true, beq_iff_eq, List.all_eq_true, Bool.or_eq_true] at hdigits
  -- 32 digits are left only if nothing was cut off and no underscore taken out
  have hall : shown.filter (· != '_') = literal :=
    (List.filter_sublist.trans hshown.sublist).eq_of_length (by rw [hdigits.1, hlength])
  rw [hall] at hdigits
  exact (hdigits.2 c hmem).elim hc.1 hc.2

/-- What is taken up to a character that ends it lies before that character. -/
theorem takeWhile_append_cons_isPrefix {p : Char → Bool} {stop : Char} (h : p stop = false)
    (s rest : List Char) : (s ++ stop :: rest).takeWhile p <+: s := by
  rw [List.takeWhile_append]
  split
  · simp [h]
  · exact List.takeWhile_prefix p

/-- One dash or slash begins no comment. -/
theorem codeOf_append_cons {front back : List Char} (hfront : '-' ∉ front ∧ '/' ∉ front)
    (hback : '-' ∉ back ∧ '/' ∉ back) (hne : back ≠ []) (c : Char) (rest : List Char) :
    codeOf (front ++ c :: (back ++ rest)) = front ++ c :: (back ++ codeOf rest) := by
  rw [codeOf, before_append_left hfront.1, before_cons_append hback.1 hne,
    before_append_left hfront.2, before_cons_append hback.2 hne, ← codeOf]

/-- One quote makes no quoted literal. -/
theorem quotedLiteral?_eq_none {front back : List Char} (hfront : '"' ∉ front) (hback : '"' ∉ back)
    (c : Char) : quotedLiteral? (front ++ c :: back) = none := by
  by_cases hc : c = '"'
  · have hafter : after? ['"'] (front ++ c :: back) = some back := by
      rw [hc, after?_append (k := 0) rfl (by simpa using hfront)]
      exact after?_marker [] back
    simp [quotedLiteral?, hafter, hback]
  · have hnone : '"' ∉ front ++ c :: back := by simp [hfront, hback, Ne.symm hc]
    rw [quotedLiteral?, after?_of_notMem hnone]
    rfl

/-- These two frame a literal, also one in which a digit is replaced by another character: some
beginning of it is found. -/
structure Guards (front : List Char) (stop : Char) : Prop extends Frames front stop where
  exists_literal? : ∀ {left right rest : List Char} (c : Char), IsBinary left → IsBinary right →
    Passed rest → ∃ shown, shown <+: left ++ c :: right ∧
      literal? (front ++ (left ++ c :: right ++ stop :: rest)) = some shown

/-- The text from the first quote to the next one is found, whatever it is. -/
theorem guards_quotes : Guards [' ', ' ', '"'] '"' where
  toFrames := frames_quotes
  exists_literal? {left right rest} c hleft hright _ := by
    have hfront : '-' ∉ [' ', ' ', '"'] ++ left ∧ '/' ∉ [' ', ' ', '"'] ++ left := by
      simp [hleft.notMem]
    have hback : '-' ∉ right ++ ['"'] ∧ '/' ∉ right ++ ['"'] := by simp [hright.notMem]
    have hcode := codeOf_append_cons hfront hback (by simp) c rest
    have hafter : after? ['"'] ([' ', ' '] ++ '"' :: (left ++ c :: right ++ '"' :: codeOf rest)) =
        some (left ++ c :: right ++ '"' :: codeOf rest) := by
      rw [after?_append (k := 0) rfl (by simp)]
      exact after?_marker [] _
    have hshown : (left ++ c :: right ++ '"' :: codeOf rest).takeWhile (· != '"') <+:
        left ++ c :: right := takeWhile_append_cons_isPrefix rfl _ _
    refine ⟨_, hshown, ?_⟩
    simp only [List.append_assoc, List.cons_append, List.nil_append] at hcode hafter ⊢
    simp [literal?, hcode, quotedLiteral?, hafter]

/-- What follows the mark is found, up to where a semicolon or a blank ends it. -/
theorem guards_mark (address : Nat) :
    Guards (verilogTarget ++ (verilogIndex address ++ ['3', '2', '\'', 'b'])) ';' where
  toFrames := frames_mark address
  exists_literal? {left right rest} c hleft hright hrest := by
    have hfront : ∀ {x : Char}, x.isAlphanum = false →
        x ∉ [' ', '[', '\'', ']', '=', ';', '0', '1', '_'] →
          x ∉ verilogTarget ++ (verilogIndex address ++ ['3', '2', '\'', 'b']) ++ left := by
      intro x hx hmarks
      have hleft' : x ∉ left := hleft.notMem fun hmem => hmarks (by simp_all)
      have hstart := notMem_verilogFront address hx fun hmem => hmarks (by simp_all)
      rw [List.mem_append, not_or]
      exact ⟨hstart, hleft'⟩
    have hback : '-' ∉ right ++ [';'] ∧ '/' ∉ right ++ [';'] := by simp [hright.notMem]
    have hcode := codeOf_append_cons ⟨hfront (by decide) (by decide), hfront (by decide) (by decide)⟩
      hback (by simp) c rest
    have hrest' : '"' ∉ right ++ ';' :: codeOf rest := by simp [hright.notMem, hrest.no_quote]
    have hquote := quotedLiteral?_eq_none (hfront (by decide) (by decide)) hrest' c
    have hmark := after?_verilogTarget address (left ++ c :: right ++ ';' :: codeOf rest)
    have hshown : (left ++ c :: right ++ ';' :: codeOf rest).takeWhile
        (fun x => x != ';' && !isBlank x) <+: left ++ c :: right :=
      takeWhile_append_cons_isPrefix rfl _ _
    refine ⟨_, hshown, ?_⟩
    simp only [List.append_assoc, List.cons_append, List.nil_append] at hcode hquote hmark ⊢
    simp [literal?, hcode, hquote, sizedLiteral?, hmark]

/-! ## damaged lines -/

/-- If the line was written for a word, its literal has 32 digits and is guarded. -/
inductive Content.Guarded : Content → Prop where
  | plain (text : List Char) : Guarded (.plain text)
  | word {front literal rest : List Char} {stop : Char} (hguards : Guards front stop)
      (hliteral : IsBinary literal) (hlength : literal.length = 32) (hrest : Passed rest) :
      Guarded (.word front literal (stop :: rest))

/-- A line with a character in the place of a digit, with a carriage return at its end or without it,
is a bad line. -/
theorem Content.Guarded.readLine_eq {front left right back : List Char} {digit c : Char}
    (h : (Content.word front (left ++ digit :: right) back).Guarded) (hc : c ≠ '0' ∧ c ≠ '1')
    {line : List Char} (hline : line = (Content.word front (left ++ c :: right) back).chars ∨
      line = dropReturn (Content.word front (left ++ c :: right) back).chars) (number : Nat) :
    ∃ shown, shown <+: left ++ c :: right ∧
      readLine line number = .error (.badLiteral number (String.ofList shown)) := by
  cases h with
  | @word _ _ rest stop hguards hliteral hlength hrest =>
      obtain ⟨hleft, hright⟩ : IsBinary left ∧ IsBinary right := by
        simp only [IsBinary, List.forall_mem_append, List.forall_mem_cons] at hliteral ⊢
        exact ⟨hliteral.1, hliteral.2.2⟩
      have hshown : ∃ shown, shown <+: left ++ c :: right ∧ literal? line = some shown := by
        rcases hline with rfl | rfl
        · exact hguards.exists_literal? c hleft hright hrest
        · -- the carriage return, if there is one, stands behind the end of the literal
          rw [chars, ← List.append_assoc, dropReturn_append_cons hguards.stop_ne.2, List.append_assoc]
          exact hguards.exists_literal? c hleft hright hrest.dropReturn
      obtain ⟨shown, hbegins, hread⟩ := hshown
      have hword : wordOfLiteral? shown = none :=
        wordOfLiteral?_eq_none (by simpa using hlength) (by simp) hc hbegins
      refine ⟨shown, hbegins, ?_⟩
      simp only [readLine, hread, hword]

/-- Reading ends at the first bad line. -/
theorem ofHdl_eq_error {text line : List Char} {ls more : List (List Char)} {words : List MicroWord}
    {e : LoadError} (htext : lines text = ls ++ line :: more) (hls : Spells ls words)
    (hline : readLine line (ls.length + 1) = .error e) : ofHdl text = .error e := by
  obtain ⟨found, hfound, -⟩ := hls.mapM_readLine 1
  rw [Nat.add_comm] at hline
  rw [ofHdl, htext, List.zipIdx_append, List.mapM_append, hfound, List.zipIdx_cons, List.mapM_cons]
  simp only [hline]
  rfl

/-- Behind sound rows, a row that is a bad line is the first one. -/
theorem Sound.exists_ofHdl_eq {before : List Row} (h : Sound before) {row : Row}
    (hfeed : '\n' ∉ row.content.chars) (after : List Row) :
    ∃ line, (line = row.content.chars ∨ line = dropReturn row.content.chars) ∧
      ∀ e, readLine line (before.length + 1) = .error e →
        ofHdl (textOf (before ++ row :: after)) = .error e := by
  obtain ⟨line, hline, hlines⟩ := lines_row hfeed (textOf after)
  obtain ⟨ls, hls, hlength, hspells⟩ := h.exists_lines (textOf (row :: after))
  have htext : textOf (row :: after) = row.content.chars ++ row.ending.chars ++ textOf after :=
    List.flatMap_cons
  rw [htext, hlines] at hls
  refine ⟨line, hline, fun e hread => ?_⟩
  rw [← hlength] at hread
  rw [textOf, List.flatMap_append, ← textOf, ← textOf, htext]
  exact ofHdl_eq_error hls hspells hread

/-- The damaged line is reported, with its number and the beginning of its literal. -/
theorem Garbled.ofHdl_eq {rows rows' : List Row} {number : Nat} {literal : List Char}
    (h : Garbled rows number literal rows') (hsound : Sound rows)
    (hguarded : ∀ row ∈ rows, row.content.Guarded) :
    ∃ shown, shown <+: literal ∧
      ofHdl (textOf rows') = .error (.badLiteral number (String.ofList shown)) := by
  obtain ⟨before, after, front, left, right, back, ending, digit, c, hc⟩ := h
  simp only [Sound, List.forall_mem_append, List.forall_mem_cons] at hsound hguarded
  obtain ⟨hbefore, hrow, -⟩ := hsound
  have hfeed : '\n' ∉ (Row.mk (.word front (left ++ c :: right) back) ending).content.chars := by
    have hwritten := hrow.no_feed
    simp only [Content.chars, List.mem_append, List.mem_cons, not_or] at hwritten
    simp [Content.chars, hwritten, hc.2.2.symm]
  obtain ⟨line, hline, hend⟩ := Sound.exists_ofHdl_eq hbefore hfeed after
  obtain ⟨shown, hshown, hread⟩ :=
    hguarded.2.1.readLine_eq ⟨hc.1, hc.2.1⟩ hline (before.length + 1)
  exact ⟨shown, hshown, hend _ hread⟩

/-! ## missing lines -/

/-- What is left of a file is read as before, with fewer words. -/
theorem Lost.sound {k : Nat} {rows rows' : List Row} (h : Lost k rows rows') (hrows : Sound rows) :
    Sound rows' ∧ (wordsOf rows').length + k = (wordsOf rows).length := by
  induction h with
  | nil => exact ⟨hrows, rfl⟩
  | keep row _ ih =>
      obtain ⟨hrow, hrest⟩ := List.forall_mem_cons.mp hrows
      obtain ⟨hsound, hlength⟩ := ih hrest
      refine ⟨List.forall_mem_cons.mpr ⟨hrow, hsound⟩, ?_⟩
      simp only [wordsOf_cons, List.length_append]
      omega
  | drop front literal back ending _ ih =>
      obtain ⟨hrow, hrest⟩ := List.forall_mem_cons.mp hrows
      obtain ⟨hsound, hlength⟩ := ih hrest
      cases hrow with
      | word _ _ hword _ =>
          refine ⟨hsound, ?_⟩
          simp only [wordsOf_cons, Content.word?, hword, Option.toList_some, List.singleton_append,
            List.length_cons]
          omega

/-- Any other number of words than 512 is wrong. -/
theorem ofWords_eq_error {words : List MicroWord} (h : words.length ≠ 512) :
    ofWords words = .error (.wrongLength words.length 512) := dif_neg h

/-! ## the written forms -/

/-- The first line of a file begins with a character that begins no JSON list. -/
def Opens (rows : List Row) : Prop :=
  ∃ c line ending more, rows = ⟨.plain (c :: line), ending⟩ :: more ∧ isBlank c = false ∧ c ≠ '['

/-- A file that begins so is read line by line. -/
theorem Opens.read_eq {rows : List Row} (h : Opens rows) {text : String}
    (htext : text.toList = textOf rows) : read text = ofHdl (textOf rows) := by
  obtain ⟨c, line, ending, more, rfl, hblank, hbracket⟩ := h
  have hbegins : BeginsHdl text := ⟨c, by rw [htext]; rfl, hblank, hbracket⟩
  rw [hbegins.read_eq, htext]

/-- A line without a literal is not damaged. -/
theorem Garbled.opens {rows rows' : List Row} {number : Nat} {literal : List Char}
    (h : Garbled rows number literal rows') (hrows : Opens rows) : Opens rows' := by
  obtain ⟨c, line, ending, more, hfirst, hc⟩ := hrows
  obtain ⟨before, after, front, left, right, back, ending', digit, c', -⟩ := h
  cases before with
  | nil => simp at hfirst
  | cons row before =>
      obtain ⟨rfl, -⟩ := List.cons.inj hfirst
      exact ⟨c, line, ending, _, rfl, hc⟩

/-- Nor is it missing. -/
theorem Lost.opens {k : Nat} {rows rows' : List Row} (h : Lost k rows rows') (hrows : Opens rows) :
    Opens rows' := by
  obtain ⟨c, line, ending, more, rfl, hc⟩ := hrows
  cases h with
  | keep _ _ => exact ⟨c, line, ending, _, rfl, hc⟩

/-- A form begins as its head does. -/
theorem opens_formRows (p : Program) {head : String} (hbegins : BeginsHdl head) (htidy : Tidy head)
    (foot : String) (content : MicroWord → Nat → Content) :
    Opens (p.formRows head foot content) := by
  obtain ⟨c, hc, hblank, hbracket⟩ := hbegins
  have htext : (lines head.toList).flatMap (· ++ ['\n']) = head.toList :=
    flatMap_lines htidy.whole htidy.no_return
  rw [← htext] at hc
  cases hlines : lines head.toList with
  | nil => simp [hlines] at hc
  | cons line more =>
      cases line with
      | nil =>
          -- the head would begin with a line feed, which is a blank
          obtain rfl : '\n' = c := by simpa [hlines] using hc
          exact absurd hblank (by decide)
      | cons x line =>
          obtain rfl : x = c := by simpa [hlines] using hc
          rw [formRows, plainRows, hlines]
          exact ⟨x, line, .feed, _, rfl, hblank, hbracket⟩

/-- The rows of a form are guarded if those of its words are. -/
theorem guarded_formRows (p : Program) (head foot : String) {content : MicroWord → Nat → Content}
    (h : ∀ w address, (content w address).Guarded) :
    ∀ row ∈ p.formRows head foot content, row.content.Guarded := by
  have hplain : ∀ text, ∀ row ∈ plainRows text, row.content.Guarded := by
    intro text row hrow
    obtain ⟨line, -, rfl⟩ := List.mem_map.mp hrow
    exact .plain line
  rw [formRows, List.forall_mem_append, List.forall_mem_append, List.forall_mem_map]
  exact ⟨⟨hplain head, fun x _ => h x.1 x.2⟩, hplain foot⟩

/-- The rows of the forms that are read line by line begin with a line of their head, and all of them
are guarded. -/
theorem opens_and_guarded {p : Program} {format : TableFormat} {rows : List Row}
    (h : p.rows? format = some rows) : Opens rows ∧ ∀ row ∈ rows, row.content.Guarded := by
  have hlength : ∀ w : MicroWord, w.digits.toList.length = 32 := fun w => by
    simp [MicroWord.toList_digits]
  cases format with
  | vhdl =>
      obtain rfl := Option.some.inj h
      refine ⟨p.opens_formRows vhdlForm.begins tidy_vhdlHead _ _,
        p.guarded_formRows _ _ fun w address => ?_⟩
      exact .word guards_quotes (isBinary_digits w) (hlength w) (passed_vhdlBack address)
  | verilog =>
      obtain rfl := Option.some.inj h
      refine ⟨p.opens_formRows verilogForm.begins tidy_verilogHead _ _,
        p.guarded_formRows _ _ fun w address => ?_⟩
      exact .word (guards_mark address) (isBinary_digits w) (hlength w) (by decide)
  | json => contradiction

/-- In either form, a character that is no digit in the place of a digit of any literal is reported
with the number of the line, and lines of words that are missing with the number of the words that are
left.  So no such text is read as a control store. -/
theorem read_damaged (p : Program) {format : TableFormat} (hformat : format ≠ .json) :
    ∃ written, p.rows? format = some written ∧ textOf written = (p.write format).toList ∧
      wordsOf written = p.words ∧
      (∀ (number : Nat) (literal : List Char) (rows : List Row) (text : String),
        Garbled written number literal rows → text.toList = textOf rows →
          ∃ shown, shown <+: literal ∧
            read text = .error (.badLiteral number (String.ofList shown))) ∧
      ∀ (k : Nat) (rows : List Row) (text : String), 1 ≤ k → Lost k written rows →
        text.toList = textOf rows → read text = .error (.wrongLength (512 - k) 512) := by
  obtain ⟨written, hwritten, htextOf, hsound, hwords⟩ := p.exists_rows? hformat
  obtain ⟨hopens, hguarded⟩ := opens_and_guarded hwritten
  refine ⟨written, hwritten, htextOf, hwords, fun number literal rows text h htext => ?_,
    fun k rows text hk h htext => ?_⟩
  · obtain ⟨shown, hshown, hread⟩ := h.ofHdl_eq hsound hguarded
    exact ⟨shown, hshown, by rw [(h.opens hopens).read_eq htext, hread]⟩
  · obtain ⟨hrows, hlength⟩ := h.sound hsound
    rw [hwords, p.length_words] at hlength
    have hspells := hrows.spells (show Passed [] by decide)
    rw [List.append_nil] at hspells
    have hleft : (wordsOf rows).length = 512 - k := by omega
    rw [(h.opens hopens).read_eq htext, ofHdl_eq hspells, ofWords_eq_error (by omega), hleft]

/-- In the control store with only zeros, a semicolon in the first literal is reported for line 5, and
without that line there are 511 words. -/
theorem read_damaged_cleared :
    TableFormat.verilog ≠ .json ∧ ∃ more,
      cleared.rows? .verilog = some (plainRows verilogHead ++
        clearedRow (List.replicate 8 '0' ++ '0' :: List.replicate 23 '0') [] .feed :: more) ∧
      (∃ shown, shown <+: List.replicate 8 '0' ++ ';' :: List.replicate 23 '0' ∧
        read (String.ofList (textOf (plainRows verilogHead ++
          clearedRow (List.replicate 8 '0' ++ ';' :: List.replicate 23 '0') [] .feed :: more))) =
            .error (.badLiteral 5 (String.ofList shown))) ∧
      read (String.ofList (textOf (plainRows verilogHead ++ more))) = .error (.wrongLength 511 512) := by
  have hformat : TableFormat.verilog ≠ .json := by decide
  have hdigits : MicroWord.zero.digits.toList = List.replicate 8 '0' ++ '0' :: List.replicate 23 '0' := by
    decide +kernel
  have hwords : cleared.words.zipIdx = (.zero, 0) :: (List.replicate 511 .zero).zipIdx 1 := rfl
  have hhead : (plainRows verilogHead).length = 4 := by decide +kernel
  obtain ⟨more, hrows⟩ : ∃ more, cleared.rows? .verilog = some (plainRows verilogHead ++
      clearedRow (List.replicate 8 '0' ++ '0' :: List.replicate 23 '0') [] .feed :: more) := by
    rw [rows?, formRows, hwords, List.map_cons, List.append_assoc, List.cons_append, verilogContent,
      hdigits]
    exact ⟨_, rfl⟩
  obtain ⟨written, hwritten, -, -, hgarbled, hlost⟩ := cleared.read_damaged hformat
  rw [hwritten, Option.some.injEq] at hrows
  rw [hrows] at hwritten hgarbled hlost
  have hsemicolon := Garbled.mk (plainRows verilogHead) more
    (verilogTarget ++ (verilogIndex 0 ++ ['3', '2', '\'', 'b'])) (List.replicate 8 '0')
    (List.replicate 23 '0') [';'] .feed '0' ';' (by decide)
  rw [hhead] at hsemicolon
  refine ⟨hformat, more, hwritten, hgarbled _ _ _ _ hsemicolon String.toList_ofList, ?_⟩
  exact hlost 1 _ _ (Nat.le_refl 1) (.append_left _ (.drop _ _ _ _ (.refl more)))
    String.toList_ofList

end Microcode.Program

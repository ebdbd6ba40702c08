import Microcode.Program.Reader
import Microcode.Program.Writer
import Microcode.Proofs.Text.Numeral
import Microcode.Proofs.Text.Pieces
import Microcode.Proofs.Word.Field

/-!
# Microcode.Proofs.Program.RoundTrip

A control store reads back from each of its written forms.

The reader of hardware description languages knows no grammar: it looks for a literal on every line
and passes over the lines that have none.  `Spells` says which words it finds on a list of lines,
and `HdlForm` what a form has to keep to so that they are the words of the control store: nothing on
the lines of its head and foot looks like a literal, and a row is one line with one literal on it.
Addresses are written next to the words, so both rows have to keep them out of the reader's sight:
one has them in a comment, the other where the mark `32'b` cannot begin.

In a JSON list the items are cut at the commas, and each is the number of a word.
-/

namespace Microcode

namespace MicroWord

/-- A word is the word with its number. -/
theorem ofNat_toNat (w : MicroWord) : ofNat w.toNat = w := by
  simp [ofNat, toNat]

/-- A word is the word with its bits. -/
theorem ofBits_toBits (w : MicroWord) : ofBits w.toBits = w := by
  rw [ofBits, toBits, Bits.value_ofNat, Nat.mod_eq_of_lt w.toNat_lt, ofNat_toNat]

theorem toList_digits (w : MicroWord) : w.digits.toList = w.toBits.map Bits.digit :=
  String.toList_ofList

/-- The digits of a word are zeros and ones. -/
theorem mem_digits {w : MicroWord} {c : Char} (h : c ∈ w.digits.toList) : c = '0' ∨ c = '1' := by
  rw [toList_digits, List.mem_map] at h
  obtain ⟨b, -, rfl⟩ := h
  cases b with
  | false => exact .inl rfl
  | true => exact .inr rfl

/-- No other character stands between the digits of a word. -/
theorem notMem_digits (w : MicroWord) {c : Char} (h : c ≠ '0' ∧ c ≠ '1') : c ∉ w.digits.toList :=
  fun hc => (mem_digits hc).elim h.1 h.2

end MicroWord

namespace Program

/-! ## the words on a list of lines -/

/-- The digits of a word are a literal of that word. -/
theorem wordOfLiteral?_digits (w : MicroWord) : wordOfLiteral? w.digits.toList = some w := by
  have hfilter : w.digits.toList.filter (· != '_') = w.digits.toList := by
    rw [List.filter_eq_self]
    intro c hc
    rcases MicroWord.mem_digits hc with rfl | rfl <;> rfl
  have hlength : w.digits.toList.length = 32 := by simp [MicroWord.toList_digits]
  have hall : w.digits.toList.all (fun c => c == '0' || c == '1') = true := by
    rw [List.all_eq_true]
    intro c hc
    rcases MicroWord.mem_digits hc with rfl | rfl <;> rfl
  have hdigit : ∀ b, (Bits.digit b == '1') = b := by decide
  have hbits : w.digits.toList.map (· == '1') = w.toBits := by
    simp [MicroWord.toList_digits, Function.comp_def, hdigit]
  rw [wordOfLiteral?, hfilter, hlength, hall, hbits, MicroWord.ofBits_toBits]
  rfl

/-- The characters of a literal: binary digits and underscores. -/
def IsBinary (literal : List Char) : Prop := ∀ c ∈ literal, c = '0' ∨ c = '1' ∨ c = '_'

theorem isBinary_digits (w : MicroWord) : IsBinary w.digits.toList := fun _ hc =>
  (MicroWord.mem_digits hc).imp_right .inl

theorem IsBinary.notMem {literal : List Char} (h : IsBinary literal) {c : Char}
    (hc : c ∉ ['0', '1', '_']) : c ∉ literal := by
  intro hmem
  rcases h c hmem with rfl | rfl | rfl <;> exact hc (by decide)

/-- The words that stand on a list of lines, one at most on each. -/
inductive Spells : List (List Char) → List MicroWord → Prop where
  | nil : Spells [] []
  | skip {line : List Char} {lines : List (List Char)} {words : List MicroWord}
      (hline : literal? line = none) (hlines : Spells lines words) : Spells (line :: lines) words
  | word {line literal : List Char} {w : MicroWord} {lines : List (List Char)}
      {words : List MicroWord} (hline : literal? line = some literal)
      (hliteral : wordOfLiteral? literal = some w) (hlines : Spells lines words) :
      Spells (line :: lines) (w :: words)

/-- The words on some lines come before those on the next lines. -/
theorem Spells.append {lines more : List (List Char)} {words others : List MicroWord}
    (h : Spells lines words) (hmore : Spells more others) :
    Spells (lines ++ more) (words ++ others) := by
  induction h with
  | nil => exact hmore
  | skip hline _ ih => exact .skip hline ih
  | word hline hliteral _ ih => exact .word hline hliteral ih

/-- Lines without a literal have no words on them. -/
theorem spells_nil {lines : List (List Char)} (h : ∀ line ∈ lines, literal? line = none) :
    Spells lines [] := by
  induction lines with
  | nil => exact .nil
  | cons line lines ih =>
      rw [List.forall_mem_cons] at h
      exact .skip h.1 (ih h.2)

/-- The reader finds the words that stand on the lines, whatever their numbers are. -/
theorem Spells.mapM_readLine {lines : List (List Char)} {words : List MicroWord}
    (h : Spells lines words) (first : Nat) :
    ∃ found, (lines.zipIdx first).mapM (fun (line, number) => readLine line number) = .ok found ∧
      found.filterMap id = words := by
  induction h generalizing first with
  | nil => exact ⟨[], rfl, rfl⟩
  | @skip line lines words hline _ ih =>
      obtain ⟨found, hfound, hwords⟩ := ih (first + 1)
      have hread : readLine line first = .ok none := by rw [readLine, hline]
      refine ⟨none :: found, ?_, hwords⟩
      rw [Result.mapM_eq_ok_iff] at hfound ⊢
      exact .cons hread hfound
  | @word line literal w lines words hline hliteral _ ih =>
      obtain ⟨found, hfound, hwords⟩ := ih (first + 1)
      have hread : readLine line first = .ok (some w) := by simp [readLine, hline, hliteral]
      refine ⟨some w :: found, ?_, congrArg (w :: ·) hwords⟩
      rw [Result.mapM_eq_ok_iff] at hfound ⊢
      exact .cons hread hfound

/-- A text is read as the words that stand on its lines. -/
theorem ofHdl_eq {text : List Char} {words : List MicroWord} (h : Spells (Text.lines text) words) :
    ofHdl text = ofWords words := by
  obtain ⟨found, hfound, hwords⟩ := h.mapM_readLine 1
  rw [ofHdl, hfound, ← hwords]
  rfl

/-- The words of a control store make up the control store. -/
theorem ofWords_words (p : Program) : ofWords p.words = .ok p := by
  rw [ofWords, dif_pos p.length_words]

/-! ## forms with a row for every word -/

/-- A text of whole lines, none of which has a literal. -/
def Silent (text : String) : Prop :=
  text.toList.getLast? = some '\n' ∧ ∀ line ∈ Text.lines text.toList, literal? line = none

instance (text : String) : Decidable (Silent text) := inferInstanceAs (Decidable (_ ∧ _))

theorem Silent.append {s t : String} (hs : Silent s) (ht : Silent t) : Silent (s ++ t) := by
  rw [Silent, String.toList_append, List.getLast?_append, ht.1, Text.lines_append hs.1,
    List.forall_mem_append]
  exact ⟨rfl, hs.2, ht.2⟩

/-- A text that is not taken for a JSON list. -/
def BeginsHdl (text : String) : Prop :=
  ∃ c, text.toList.head? = some c ∧ Text.isBlank c = false ∧ c ≠ '['

theorem BeginsHdl.append {s : String} (h : BeginsHdl s) (t : String) : BeginsHdl (s ++ t) := by
  obtain ⟨c, hc, hblank, hbracket⟩ := h
  refine ⟨c, ?_, hblank, hbracket⟩
  rw [String.toList_append, List.head?_append, hc, Option.some_or]

/-- Such a text is read line by line. -/
theorem BeginsHdl.read_eq {text : String} (h : BeginsHdl text) : read text = ofHdl text.toList := by
  obtain ⟨c, hc, hblank, hbracket⟩ := h
  obtain ⟨rest, htext⟩ := List.head?_eq_some_iff.mp hc
  simp [read, htext, Text.trimStart, hblank, hbracket]

/-- A row of a form: a line with the digits of the word as its literal. -/
def IsRow (row : String) (w : MicroWord) : Prop :=
  ∃ line, row.toList = line ++ ['\n'] ∧ Text.IsLine line ∧ literal? line = some w.digits.toList

/-- A form that has a row for every word and no other literals. -/
structure HdlForm (head foot : String) (row : MicroWord → Nat → String) : Prop where
  begins : BeginsHdl head
  head_silent : Silent head
  foot_silent : Silent foot
  isRow : ∀ w address, IsRow (row w address) w

namespace HdlForm

variable {head foot : String} {row : MicroWord → Nat → String}

/-- The rows spell their words, and what follows them its own. -/
theorem spells_rows (form : HdlForm head foot row) (words : List MicroWord) (first : Nat)
    {rest : List Char} {others : List MicroWord} (hrest : Spells (Text.lines rest) others) :
    Spells (Text.lines (((words.zipIdx first).flatMap fun x => (row x.1 x.2).toList) ++ rest))
      (words ++ others) := by
  induction words generalizing first with
  | nil => exact hrest
  | cons w words ih =>
      obtain ⟨line, hrow, hline, hliteral⟩ := form.isRow w first
      rw [List.zipIdx_cons, List.flatMap_cons, hrow, List.append_assoc, List.append_assoc,
        List.singleton_append, Text.lines_cons hline]
      exact .word hliteral (wordOfLiteral?_digits w) (ih (first + 1))

/-- A control store reads back from a form. -/
theorem read_eq (form : HdlForm head foot row) (p : Program) :
    read (head ++ String.join (p.words.zipIdx.map fun (w, address) => row w address) ++ foot) =
      .ok p := by
  have htext : (head ++ String.join (p.words.zipIdx.map fun (w, address) => row w address) ++
      foot).toList =
        head.toList ++ ((p.words.zipIdx.flatMap fun x => (row x.1 x.2).toList) ++ foot.toList) := by
    simp [String.toList_join, List.flatMap_map]
  have hspells := (spells_nil form.head_silent.2).append
    (form.spells_rows p.words 0 (spells_nil form.foot_silent.2))
  rw [← Text.lines_append form.head_silent.1, List.nil_append, List.append_nil] at hspells
  rw [((form.begins.append _).append foot).read_eq, htext, ofHdl_eq hspells, p.ofWords_words]

end HdlForm

/-! ## VHDL -/

/-- A text that begins no comment is looked at, and what follows it as if it stood alone. -/
theorem codeOf_append {code : List Char} (hdash : '-' ∉ code) (hslash : '/' ∉ code)
    (rest : List Char) : codeOf (code ++ rest) = code ++ codeOf rest := by
  rw [codeOf, Text.before_append_left hdash, Text.before_append_left hslash, ← codeOf]

/-- The text between two quotes is found if nothing in it, or before it, is a quote. -/
theorem quotedLiteral?_eq_some {before literal : List Char} (hbefore : '"' ∉ before)
    (hliteral : '"' ∉ literal) (after : List Char) :
    quotedLiteral? (before ++ '"' :: (literal ++ '"' :: after)) = some literal := by
  have hmark : ['"'][0]? = some '"' := rfl
  have hafter : Text.after? ['"'] (before ++ '"' :: (literal ++ '"' :: after)) =
      some (literal ++ '"' :: after) := by
    rw [Text.after?_append hmark (by simpa using hbefore)]
    exact Text.after?_marker [] _
  have htake : (literal ++ '"' :: after).takeWhile (· != '"') = literal := by
    rw [List.takeWhile_append_of_pos]
    · simp
    · intro c hc
      simpa using ne_of_mem_of_not_mem hc hliteral
  simp [quotedLiteral?, hafter, htake]

/-- A quoted literal is found whatever follows it. -/
theorem literal?_quoted {literal : List Char} (h : IsBinary literal) (rest : List Char) :
    literal? ([' ', ' ', '"'] ++ (literal ++ '"' :: rest)) = some literal := by
  have hfront : ∀ {c : Char}, c ∉ [' ', '"', '0', '1', '_'] →
      c ∉ [' ', ' ', '"'] ++ (literal ++ ['"']) := by
    intro c hc
    have hliteral : c ∉ literal := h.notMem fun hmem => hc (by simp_all)
    simp_all
  have hcode := codeOf_append (hfront (c := '-') (by decide)) (hfront (c := '/') (by decide)) rest
  have hquotes : quotedLiteral? ([' ', ' '] ++ '"' :: (literal ++ '"' :: codeOf rest)) =
      some literal :=
    quotedLiteral?_eq_some (by decide) (h.notMem (by decide)) _
  simp only [List.append_assoc, List.cons_append, List.nil_append] at hcode hquotes ⊢
  rw [literal?, hcode, hquotes]
  rfl

/-- The line of a word in a VHDL package, up to its comment. -/
def vhdlCode (w : MicroWord) (address : Nat) : List Char :=
  [' ', ' '] ++ '"' :: (w.digits.toList ++ '"' :: [if address < 511 then ',' else ' ', ' '])

def vhdlLine (w : MicroWord) (address : Nat) : List Char :=
  vhdlCode w address ++ '-' :: '-' :: ' ' :: Text.padded 16 3 address

theorem toList_vhdlRow (w : MicroWord) (address : Nat) :
    (vhdlRow w address).toList = vhdlLine w address ++ ['\n'] := by
  by_cases hlast : address < 511
  · simp [vhdlRow, vhdlLine, vhdlCode, Text.hex, hlast]
  · simp [vhdlRow, vhdlLine, vhdlCode, Text.hex, hlast]

/-- Before the comment there are only digits of the word, quotes, a comma and blanks. -/
theorem notMem_vhdlCode (w : MicroWord) (address : Nat) {c : Char}
    (h : c ∉ [' ', '"', ',', '0', '1']) : c ∉ vhdlCode w address := by
  simp only [List.mem_cons, List.not_mem_nil, or_false, not_or] at h
  obtain ⟨hspace, hquote, hcomma, hzero, hone⟩ := h
  by_cases hlast : address < 511
  · simp [vhdlCode, hlast, hspace, hquote, hcomma, w.notMem_digits ⟨hzero, hone⟩]
  · simp [vhdlCode, hlast, hspace, hquote, w.notMem_digits ⟨hzero, hone⟩]

theorem isLine_vhdlLine (w : MicroWord) (address : Nat) : Text.IsLine (vhdlLine w address) := by
  have hline : ∀ {c : Char}, c ∉ [' ', '"', ',', '0', '1', '-'] → c.isAlphanum = false →
      c ∉ vhdlLine w address := by
    intro c hcode hc
    have haddress : c ∉ Text.padded 16 3 address :=
      Text.notMem_padded (by decide) (by decide) hc 3 address
    have hbefore : c ∉ vhdlCode w address :=
      notMem_vhdlCode w address fun hmem => hcode (List.mem_append_left ['-'] hmem)
    simp only [List.mem_cons, List.not_mem_nil, or_false, not_or] at hcode
    simp [vhdlLine, hbefore, haddress, hcode]
  exact Text.isLine_of_notMem (hline (by decide) (by decide)) (hline (by decide) (by decide))

/-- The digits of the word are between the first two quotes. -/
theorem literal?_vhdlLine (w : MicroWord) (address : Nat) :
    literal? (vhdlLine w address) = some w.digits.toList := by
  have hline := literal?_quoted (isBinary_digits w)
    ([if address < 511 then ',' else ' ', ' '] ++ '-' :: '-' :: ' ' :: Text.padded 16 3 address)
  simpa [vhdlLine, vhdlCode] using hline

/-- Nothing in the head is a literal, in particular not the words of the comment. -/
theorem silent_vhdlHead : Silent vhdlHead := by
  unfold vhdlHead
  refine .append (.append (.append (.append (.append (.append ?_ ?_) ?_) ?_) ?_) ?_) ?_ <;>
    decide +kernel

theorem beginsHdl_vhdlHead : BeginsHdl vhdlHead := by
  have hdashes : BeginsHdl
      "-- light8080_ucode_pkg.vhdl -- Microcode table for light8080 CPU core.\n" :=
    ⟨'-', by decide +kernel, by decide, by decide⟩
  exact (((((hdashes.append _).append _).append _).append _).append _).append _

theorem vhdlForm : HdlForm vhdlHead vhdlFoot vhdlRow where
  begins := beginsHdl_vhdlHead
  head_silent := silent_vhdlHead
  foot_silent := by decide +kernel
  isRow w address :=
    ⟨_, toList_vhdlRow w address, isLine_vhdlLine w address, literal?_vhdlLine w address⟩

/-! ## Verilog -/

/-- A sized literal is found if its mark begins nowhere before it. -/
theorem sizedLiteral?_eq_some {code literal after : List Char}
    (hcode : Text.after? ['3', '2', '\'', 'b'] code = some (literal ++ ';' :: after))
    (hliteral : ∀ c ∈ literal, c ≠ ';' ∧ Text.isBlank c = false) :
    sizedLiteral? code = some literal := by
  have htake : (literal ++ ';' :: after).takeWhile (fun c => c != ';' && !Text.isBlank c) =
      literal := by
    rw [List.takeWhile_append_of_pos]
    · simp
    · intro c hc
      simpa using hliteral c hc
  simp [sizedLiteral?, hcode, htake]

/-- The line of a word up to the quote in its address. -/
def verilogTarget : List Char :=
  [' ', ' ', 'm', 'i', 'c', 'r', 'o', 'c', 'o', 'd', 'e', '[', '9', '\'']

/-- What stands between the quote in the address and the literal. -/
def verilogIndex (address : Nat) : List Char :=
  'h' :: (Text.padded 16 3 address ++ [']', ' ', '=', ' '])

def verilogLine (w : MicroWord) (address : Nat) : List Char :=
  verilogTarget ++
    (verilogIndex address ++ (['3', '2', '\'', 'b'] ++ (w.digits.toList ++ [';'])))

theorem toList_verilogRow (w : MicroWord) (address : Nat) :
    (verilogRow w address).toList = verilogLine w address ++ ['\n'] := by
  unfold verilogRow
  simp [Text.hex, verilogLine, verilogTarget, verilogIndex]

/-- A line with the given literal, up to the semicolon after it. -/
def verilogCode (address : Nat) (literal : List Char) : List Char :=
  verilogTarget ++ (verilogIndex address ++ (['3', '2', '\'', 'b'] ++ (literal ++ [';'])))

/-- A character of a line is a digit or letter, or one of the marks, or it stands in the literal. -/
theorem notMem_verilogCode (address : Nat) {literal : List Char} {c : Char}
    (hc : c.isAlphanum = false) (h : c ∉ [' ', '[', '\'', ']', '=', ';']) (hliteral : c ∉ literal) :
    c ∉ verilogCode address literal := by
  have haddress : c ∉ Text.padded 16 3 address :=
    Text.notMem_padded (by decide) (by decide) hc 3 address
  have hne : ∀ x : Char, x.isAlphanum = true → c ≠ x := by
    rintro x hx rfl
    rw [hc] at hx
    contradiction
  simp only [List.mem_cons, List.not_mem_nil, or_false, not_or] at h
  simp [verilogCode, verilogTarget, verilogIndex, haddress, hliteral, h, hne]

/-- The mark of the literal begins nowhere before it: not up to the quote in the address, where
there is no `3`, and not after that, where no quote stands two places further on. -/
theorem after?_verilogTarget (address : Nat) (s : List Char) :
    Text.after? ['3', '2', '\'', 'b']
      (verilogTarget ++ (verilogIndex address ++ (['3', '2', '\'', 'b'] ++ s))) = some s := by
  have haddress : '\'' ∉ Text.padded 16 3 address :=
    Text.notMem_padded (by decide) (by decide) (by decide) 3 _
  have htarget : '3' ∉ verilogTarget ++
      (verilogIndex address ++ (['3', '2', '\'', 'b'] ++ s)).take 0 := by
    simp [verilogTarget]
  have hindex : '\'' ∉ verilogIndex address ++ (['3', '2', '\'', 'b'] ++ s).take 2 := by
    simp [verilogIndex, haddress]
  rw [Text.after?_append (k := 0) rfl htarget, Text.after?_append (k := 2) rfl hindex]
  exact Text.after?_marker _ _

/-- A literal after the mark is found, if there is no quote behind it. -/
theorem literal?_verilogCode (address : Nat) {literal rest : List Char} (h : IsBinary literal)
    (hrest : '"' ∉ codeOf rest) : literal? (verilogCode address literal ++ rest) = some literal := by
  have hcode : codeOf (verilogCode address literal ++ rest) =
      verilogCode address literal ++ codeOf rest :=
    codeOf_append (notMem_verilogCode address (by decide) (by decide) (h.notMem (by decide)))
      (notMem_verilogCode address (by decide) (by decide) (h.notMem (by decide))) rest
  have hfront : '"' ∉ verilogCode address literal :=
    notMem_verilogCode address (by decide) (by decide) (h.notMem (by decide))
  have hquote : Text.after? ['"'] (verilogCode address literal ++ codeOf rest) = none :=
    Text.after?_of_notMem (by simp [hfront, hrest]) []
  have hmark : Text.after? ['3', '2', '\'', 'b'] (verilogCode address literal ++ codeOf rest) =
      some (literal ++ ';' :: codeOf rest) := by
    simpa [verilogCode] using after?_verilogTarget address (literal ++ ';' :: codeOf rest)
  have hsized : sizedLiteral? (verilogCode address literal ++ codeOf rest) = some literal := by
    refine sizedLiteral?_eq_some hmark fun c hc => ?_
    rcases h c hc with rfl | rfl | rfl <;> decide
  rw [literal?, hcode, quotedLiteral?, hquote, hsized]
  rfl

theorem isLine_verilogLine (w : MicroWord) (address : Nat) :
    Text.IsLine (verilogLine w address) :=
  Text.isLine_of_notMem
    (notMem_verilogCode address (by decide) (by decide) (w.notMem_digits (by decide)))
    (notMem_verilogCode address (by decide) (by decide) (w.notMem_digits (by decide)))

/-- There is no quoted text on the line, and the digits of the word follow the mark. -/
theorem literal?_verilogLine (w : MicroWord) (address : Nat) :
    literal? (verilogLine w address) = some w.digits.toList := by
  have hline : literal? (verilogCode address w.digits.toList ++ []) = some w.digits.toList :=
    literal?_verilogCode address (isBinary_digits w) (by decide)
  rwa [List.append_nil] at hline

theorem verilogForm : HdlForm verilogHead verilogFoot verilogRow where
  begins := ⟨'/', by decide +kernel, by decide, by decide⟩
  head_silent := by decide +kernel
  foot_silent := by decide +kernel
  isRow w address :=
    ⟨_, toList_verilogRow w address, isLine_verilogLine w address, literal?_verilogLine w address⟩

/-! ## JSON -/

/-- A text without blanks is what is left of it between blanks. -/
theorem trimSpace_eq {before s after : List Char}
    (hbefore : ∀ c ∈ before, JsonToken.isSpace c = true) (hs : s ≠ [])
    (h : ∀ c ∈ s, JsonToken.isSpace c = false)
    (hafter : ∀ c ∈ after, JsonToken.isSpace c = true) :
    trimSpace (before ++ (s ++ after)) = s := by
  have hkeep : ∀ {t u : List Char}, t ≠ [] → (∀ c ∈ t, JsonToken.isSpace c = false) →
      (t ++ u).dropWhile JsonToken.isSpace = t ++ u := by
    intro t u ht hspace
    obtain ⟨c, rest, rfl⟩ := List.exists_cons_of_ne_nil ht
    rw [List.cons_append, List.dropWhile_cons, hspace c List.mem_cons_self]
    rfl
  have hback := hkeep (t := s.reverse) (u := []) (by simpa) (by simpa)
  rw [List.append_nil] at hback
  rw [trimSpace, List.dropWhile_append_of_pos hbefore, hkeep hs h, List.reverse_append,
    List.dropWhile_append_of_pos (by simpa), hback, List.reverse_reverse]

/-- The item of a word, on a row of its own. -/
def jsonItem (w : MicroWord) : List Char := ['\n', ' ', ' '] ++ Nat.toDigits 10 w.toNat

/-- The digits of a number are decimal digits. -/
theorem isDigit_of_mem_toDigits {n : Nat} {c : Char} (h : c ∈ Nat.toDigits 10 n) :
    c.isDigit = true :=
  Nat.isDigit_of_mem_toDigits (by decide) (by decide) h

/-- A digit is no blank. -/
theorem isSpace_of_isDigit {c : Char} (h : c.isDigit = true) : JsonToken.isSpace c = false := by
  rw [← Bool.not_eq_true]
  intro hspace
  simp only [JsonToken.isSpace, Bool.or_eq_true, beq_iff_eq] at hspace
  rcases hspace with ((rfl | rfl) | rfl) | rfl <;> contradiction

/-- An item is the item of its word, with blanks after it or not. -/
theorem wordOfItem?_jsonItem (w : MicroWord) {after : List Char}
    (hafter : ∀ c ∈ after, JsonToken.isSpace c = true) :
    wordOfItem? (jsonItem w ++ after) = some w := by
  have hspace : ∀ c ∈ Nat.toDigits 10 w.toNat, JsonToken.isSpace c = false := fun c hc =>
    isSpace_of_isDigit (isDigit_of_mem_toDigits hc)
  have htrim : trimSpace (jsonItem w ++ after) = Nat.toDigits 10 w.toNat := by
    rw [jsonItem, List.append_assoc]
    exact trimSpace_eq (by simp [JsonToken.isSpace]) Nat.toDigits_ne_nil hspace hafter
  have hdigits : JsonToken.isDigits (Nat.toDigits 10 w.toNat) = true := by
    rw [JsonToken.isDigits, Bool.and_eq_true, List.all_eq_true]
    exact ⟨by simp [Nat.toDigits_ne_nil], fun c hc => isDigit_of_mem_toDigits hc⟩
  have hzero : ((Nat.toDigits 10 w.toNat).length == 1 ||
      (Nat.toDigits 10 w.toNat).head? != some '0') = true := by
    rcases Nat.eq_zero_or_pos w.toNat with hw | hw
    · rw [hw]
      rfl
    · have hhead := Text.head?_toDigits (show 1 < 10 by decide) hw
      simp [hhead]
  have hread : Text.readDigits 10 0 (Nat.toDigits 10 w.toNat) = .ok w.toNat :=
    Text.readDigits_toDigits (by decide) (by decide) w.toNat_lt
  simp only [wordOfItem?, htrim, hdigits, hzero, hread, Bool.and_self, if_true,
    MicroWord.ofNat_toNat]

/-- Commas and brackets do not stand in an item. -/
theorem notMem_jsonItem (w : MicroWord) {c : Char} (hc : c.isDigit = false)
    (hspace : c ∉ ['\n', ' ', ' ']) : c ∉ jsonItem w := by
  rw [jsonItem, List.mem_append, not_or]
  refine ⟨hspace, fun hmem => ?_⟩
  rw [isDigit_of_mem_toDigits hmem] at hc
  contradiction

/-- The items of a list, cut at the commas, are the items of the words. -/
theorem mapM_wordOfItem? {words : List MicroWord} (hwords : words ≠ []) :
    (([','].intercalate (words.map jsonItem) ++ ['\n']).splitOn ',').mapM wordOfItem? =
      some words := by
  induction words with
  | nil => contradiction
  | cons w words ih =>
      have hcomma : ',' ∉ jsonItem w := notMem_jsonItem w (by decide) (by decide)
      cases words with
      | nil =>
          have hpiece : ',' ∉ jsonItem w ++ ['\n'] := by simpa using hcomma
          have hitem : wordOfItem? (jsonItem w ++ ['\n']) = some w :=
            wordOfItem?_jsonItem w (by simp [JsonToken.isSpace])
          simp [List.splitOn_eq_singleton hpiece, hitem]
      | cons w' rest =>
          have hitem : wordOfItem? (jsonItem w ++ []) = some w :=
            wordOfItem?_jsonItem w (by simp)
          rw [List.append_nil] at hitem
          have hrest := ih (List.cons_ne_nil _ _)
          rw [List.map_cons] at hrest
          rw [List.map_cons, List.map_cons, List.intercalate_cons_cons, List.append_assoc,
            List.append_assoc, List.singleton_append,
            List.splitOn_append_cons_self_of_not_mem hcomma, List.mapM_cons, hitem, hrest]
          rfl

/-- The items of the words are the words between the brackets. -/
theorem wordsOfItems?_eq {words : List MicroWord} (hwords : words ≠ []) :
    wordsOfItems? ([','].intercalate (words.map jsonItem) ++ ['\n']) = some words := by
  have hspace :
      ([','].intercalate (words.map jsonItem) ++ ['\n']).all JsonToken.isSpace = false := by
    obtain ⟨w, rest, rfl⟩ := List.exists_cons_of_ne_nil hwords
    obtain ⟨c, hc⟩ := List.exists_mem_of_ne_nil _ (Nat.toDigits_ne_nil (b := 10) (n := w.toNat))
    have hmem : c ∈ [','].intercalate ((w :: rest).map jsonItem) ++ ['\n'] := by
      cases rest with
      | nil => simp [jsonItem, hc]
      | cons w' rest => simp [List.intercalate_cons_cons, jsonItem, hc]
    rw [List.all_eq_false]
    exact ⟨c, hmem, by simp [isSpace_of_isDigit (isDigit_of_mem_toDigits hc)]⟩
  rw [wordsOfItems?, hspace]
  exact mapM_wordOfItem? hwords

/-- A control store has words. -/
theorem words_ne_nil (p : Program) : p.words ≠ [] := by
  intro h
  have hlength := p.length_words
  rw [h] at hlength
  contradiction

/-- The JSON list of a control store: its items between brackets. -/
theorem toList_toJson (p : Program) :
    p.toJson.toList =
      '[' :: ([','].intercalate (p.words.map jsonItem) ++ ['\n'] ++ [']']) := by
  have hmap : p.words.map (fun w => JsonValue.ofNat w.toNat) =
      (p.words.map MicroWord.toNat).map JsonValue.ofNat := by
    rw [List.map_map]
    rfl
  have hrows : p.words.map (fun w => [' ', ' '] ++ Nat.toDigits 10 w.toNat) ≠ [] := by
    simp [p.words_ne_nil]
  have hglue : ['\n'] ++ [',', '\n'].intercalate
      (p.words.map fun w => [' ', ' '] ++ Nat.toDigits 10 w.toNat) =
        [','].intercalate (p.words.map jsonItem) := by
    have happend := Text.append_intercalate [','] ['\n'] hrows
    rw [List.map_map] at happend
    exact happend
  rw [toJson, hmap, JsonValue.pretty, JsonValue.prettyItems_map_ofNat, JsonValue.block, ← hglue]
  simp [JsonValue.margin, p.words_ne_nil, String.toList_intercalate, Function.comp_def]

/-- A list of as many words as a control store has is read as the control store. -/
theorem ofJson_eq {items : List Char} {words : List MicroWord} (hbracket : ']' ∉ items)
    (hitems : wordsOfItems? items = some words) (hlength : words.length = 512) :
    ofJson ('[' :: (items ++ [']'])) = .ok ⟨words, hlength⟩ := by
  have hopen : ∀ t, ('[' :: t).dropWhile JsonToken.isSpace = '[' :: t := fun t => rfl
  have hne : ∀ c ∈ items, (c != ']') = true := fun c hc => by
    simpa using ne_of_mem_of_not_mem hc hbracket
  have htake : (items ++ [']']).takeWhile (· != ']') = items := by
    rw [List.takeWhile_append_of_pos hne]
    simp
  have hdrop : (items ++ [']']).dropWhile (· != ']') = [']'] := by
    rw [List.dropWhile_append_of_pos hne]
    rfl
  simp only [ofJson, hopen, htake, hdrop, hitems, dif_pos hlength]
  rfl

/-- A control store reads back from its JSON list. -/
theorem read_toJson (p : Program) : read p.toJson = .ok p := by
  have hbracket : ']' ∉ [','].intercalate (p.words.map jsonItem) ++ ['\n'] := by
    have hitem : ∀ item ∈ p.words.map jsonItem, ∀ c ∈ item, c ≠ ']' := by
      intro item hitem c hc
      obtain ⟨w, -, rfl⟩ := List.mem_map.mp hitem
      exact ne_of_mem_of_not_mem hc (notMem_jsonItem w (by decide) (by decide))
    have hglue : ∀ c ∈ [','], c ≠ ']' := by simp
    have hitems := Text.forall_mem_intercalate hglue hitem
    rw [List.mem_append, not_or]
    exact ⟨fun hmem => hitems _ hmem rfl, by decide⟩
  have hlist : ∀ t, ((Text.trimStart ('[' :: t)).head? == some '[') = true := fun t => rfl
  rw [read, toList_toJson]
  simp only [hlist, if_true]
  exact ofJson_eq hbracket (wordsOfItems?_eq p.words_ne_nil) p.length_words

/-! ## all forms -/

theorem read_of_write (p : Program) (format : TableFormat) : read (p.write format) = .ok p := by
  cases format with
  | vhdl => exact vhdlForm.read_eq p
  | verilog => exact verilogForm.read_eq p
  | json => exact p.read_toJson

/-- Every control store, whatever its words are, reads back from each of its written forms. -/
theorem read_write (p : Program) (format : TableFormat) : read (p.write format) = .ok p :=
  p.read_of_write format

end Program

end Microcode

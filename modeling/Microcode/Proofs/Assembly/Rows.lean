import Microcode.Assembly.Listing
import Microcode.Proofs.Program.RoundTrip

/-!
# Microcode.Proofs.Assembly.Rows

A listing falls into the rows that it was put together from.

A listing is cut into rows at its line feeds, and they come out as they were put in when no text that
is shown has a line feed in it (`Listing.splitOn_listing`).  Which rows have an address is seen from
their first four characters alone (`Listing.isAddressed`), since the other rows are blank there.  So
the rows with an address are some of the source, and all of the padding and of the decode table
(`Listing.filter_isAddressed_rows`); when the code fills the places it should, they are 512
(`Listing.length_filter_isAddressed`), one for each word and in order.
-/

namespace Microcode

/-! ## rows -/

namespace Listing

/-- Three hexadecimal digits of an address, and a colon. -/
def addressColumn (address : Nat) : List Char :=
  [(address / 256 % 16).digitChar, (address / 16 % 16).digitChar, (address % 16).digitChar, ':']

/-- The bits of a word, from bit 31 down to bit 0. -/
def wordColumn (w : MicroWord) : List Char :=
  (List.range 32).map fun k => if w.bits.getLsbD (31 - k) then '1' else '0'

/-- A row that shows a word. -/
def wordRow (address : Nat) (w : MicroWord) (text : List Char) : List Char :=
  addressColumn address ++ [' ', ' '] ++ wordColumn w ++ [' ', ' '] ++ text

/-- A row that shows no word. -/
def textRow (text : List Char) : List Char := List.replicate 40 ' ' ++ text

/-- Whether a character is a lower-case hexadecimal digit. -/
def isHexDigit (c : Char) : Bool := '0' ≤ c && c ≤ '9' || 'a' ≤ c && c ≤ 'f'

/-- Whether a row begins with three hexadecimal digits and a colon. -/
def isAddressed : List Char → Bool
  | a :: b :: c :: ':' :: _ => isHexDigit a && isHexDigit b && isHexDigit c
  | _ => false

/-- A remainder by 16 is written as a hexadecimal digit. -/
theorem isHexDigit_digitChar (n : Nat) : isHexDigit (n % 16).digitChar = true := by
  have hdigits : ∀ d < 16, isHexDigit d.digitChar = true := by decide
  exact hdigits _ (Nat.mod_lt n (by decide))

@[simp] theorem isAddressed_wordRow (address : Nat) (w : MicroWord) (text : List Char) :
    isAddressed (wordRow address w text) = true := by
  simp [wordRow, addressColumn, isAddressed, isHexDigit_digitChar]

@[simp] theorem isAddressed_textRow (text : List Char) : isAddressed (textRow text) = false := rfl

@[simp] theorem isAddressed_nil : isAddressed [] = false := rfl

theorem wordColumn_eq (w : MicroWord) : wordColumn w = w.digits.toList := by
  rw [MicroWord.toList_digits, MicroWord.toBits, Bits.ofNat, List.map_map, wordColumn]
  rfl

theorem notMem_wordRow {text : List Char} (h : '\n' ∉ text) (address : Nat) (w : MicroWord) :
    '\n' ∉ wordRow address w text := by
  have hdigits : ∀ d < 16, '\n' ≠ d.digitChar := by decide
  have hdigit : ∀ n, '\n' ≠ (n % 16).digitChar := fun n => hdigits _ (Nat.mod_lt n (by decide))
  have hword : '\n' ∉ wordColumn w := by
    rw [wordColumn_eq]
    exact w.notMem_digits (by decide)
  simp [wordRow, addressColumn, hdigit, hword, h]

theorem notMem_textRow {text : List Char} (h : '\n' ∉ text) : '\n' ∉ textRow text := by
  simp [textRow, h]

/-- The row of a word, as it is written. -/
theorem toList_wordRow {address : Nat} (h : address < 4096) (w : MicroWord) (text : String) :
    (Assembly.wordRow address w text).toList = wordRow address w text.toList ++ ['\n'] := by
  have hfirst : address / 16 / 16 < 16 := by omega
  have hhex : Text.padded 16 3 address ++ [':'] = addressColumn address := by
    rw [Text.padded_succ (by decide) (by decide), Text.padded_succ (by decide) (by decide),
      Text.padded_one hfirst, addressColumn, ← Nat.div_div_eq_div_mul address 16 16,
      Nat.mod_eq_of_lt hfirst]
    rfl
  have haddress : (Text.hex 3 address ++ ":").toList = addressColumn address := by
    rw [String.toList_append, Text.hex, String.toList_ofList]
    exact hhex
  have hlength : (wordColumn w).length = 32 := by simp [wordColumn]
  simp [Assembly.wordRow, Assembly.row, Assembly.column, haddress, ← wordColumn_eq, List.leftpad,
    hlength, wordRow, addressColumn]

/-- A row without a word, as it is written. -/
theorem toList_row_empty (text : String) :
    (Assembly.row "" "" text).toList = textRow text.toList ++ ['\n'] := by
  simp [Assembly.row, Assembly.column, List.leftpad, textRow]

/-! ## the rows of a listing -/

/-- The row of a source line. -/
def sourceRow (p : Program) (line : TraceLine) : List Char :=
  match line.address with
  | some address => wordRow address.toNat ((p.get? address.toNat).getD .zero) line.text.toList
  | none => textRow line.text.toList

def headingRows (text : String) : List (List Char) := [[], [], textRow text.toList]

variable (asm : Assembly)

def sourceRows : List (List Char) := asm.trace.map (sourceRow asm.program)

def paddingRows : List (List Char) :=
  ((asm.addressed.take Program.decodeBase).drop asm.authored).map fun (w, address) =>
    wordRow address w []

def decodeRows : List (List Char) :=
  (asm.addressed.drop Program.decodeBase).map fun (w, address) =>
    wordRow address w (asm.note (.ofNat (address - Program.decodeBase))).toList

/-- The rows of a listing, section by section. -/
def rows : List (List Char) :=
  sourceRows asm ++
    (headingRows "// PADDING INSTRUCTIONS INSERTED AUTOMATICALLY." ++
      (paddingRows asm ++
        (headingRows "// DECODING TABLE INSERTED AUTOMATICALLY." ++
          (decodeRows asm ++ headingRows "// END OF LISTING."))))

end Listing

/-- An assembly whose addresses have three digits, and whose texts can be shown in a row. -/
structure Assembly.Printable (asm : Assembly) : Prop where
  address_lt : ∀ line ∈ asm.trace, ∀ address, line.address = some address → address.toNat < 4096
  text_row : ∀ line ∈ asm.trace, '\n' ∉ line.text.toList
  mnemonic_row : ∀ m ∈ asm.mnemonics.bindings, '\n' ∉ m.text.toList

namespace Listing

variable {asm : Assembly}

/-- The words of a control store stand at the addresses below 512. -/
theorem lt_of_mem_addressed {w : MicroWord} {address : Nat} (h : (w, address) ∈ asm.addressed) :
    address < 512 := by
  have hlt := List.snd_lt_of_mem_zipIdx h
  rwa [asm.program.length_words] at hlt

/-- Texts that are joined from rows. -/
theorem toList_join_map {α : Type} {xs : List α} {f : α → String} {g : α → List Char}
    (h : ∀ x ∈ xs, (f x).toList = g x ++ ['\n']) :
    (String.join (xs.map f)).toList = (xs.map g).flatMap (· ++ ['\n']) := by
  rw [String.toList_join, List.flatMap_map, List.flatMap_map]
  exact List.flatMap_congr h

theorem toList_banner (text : String) :
    (Assembly.banner text).toList = (headingRows text).flatMap (· ++ ['\n']) := by
  rw [Assembly.banner, String.toList_append, toList_row_empty]
  simp [headingRows]

theorem toList_traceRow (h : asm.Printable) {line : TraceLine} (hline : line ∈ asm.trace) :
    (Assembly.traceRow asm.program line).toList = sourceRow asm.program line ++ ['\n'] := by
  cases haddress : line.address with
  | none =>
      simp only [Assembly.traceRow, sourceRow, haddress]
      exact toList_row_empty line.text
  | some address =>
      simp only [Assembly.traceRow, sourceRow, haddress]
      exact toList_wordRow (h.address_lt line hline address haddress) _ _

/-- The listing is written row by row. -/
theorem toList_listing (h : asm.Printable) :
    asm.listing.toList = (rows asm).flatMap (· ++ ['\n']) := by
  have hsource : (String.join (asm.trace.map (Assembly.traceRow asm.program))).toList =
      (sourceRows asm).flatMap (· ++ ['\n']) := toList_join_map fun _ => toList_traceRow h
  have hpadding : (String.join asm.paddingRows).toList = (paddingRows asm).flatMap (· ++ ['\n']) := by
    refine toList_join_map fun (w, address) hmem => ?_
    have hlt := lt_of_mem_addressed (List.mem_of_mem_take (List.mem_of_mem_drop hmem))
    exact toList_wordRow (by omega) w ""
  have hdecode : (String.join asm.decodeRows).toList = (decodeRows asm).flatMap (· ++ ['\n']) := by
    refine toList_join_map fun (w, address) hmem => ?_
    have hlt := lt_of_mem_addressed (List.mem_of_mem_drop hmem)
    exact toList_wordRow (by omega) w _
  simp only [Assembly.listing, rows, String.toList_append, toList_banner, hsource, hpadding, hdecode,
    List.flatMap_append, List.append_assoc]

/-- The note on an opcode can be shown in a row. -/
theorem notMem_note (h : asm.Printable) (opcode : UInt8) : '\n' ∉ (asm.note opcode).toList := by
  unfold Assembly.note
  split
  · next text hget =>
      obtain ⟨entry, -, hentry⟩ := Option.bind_eq_some_iff.mp hget
      obtain ⟨m, hm, rfl⟩ := Option.map_eq_some_iff.mp hentry
      have htext := h.mnemonic_row m (List.mem_of_find?_eq_some hm)
      simp [htext]
  · decide

theorem notMem_rows (h : asm.Printable) : ∀ row ∈ rows asm, '\n' ∉ row := by
  have hheading : ∀ text : String, '\n' ∉ text.toList → ∀ row ∈ headingRows text, '\n' ∉ row := by
    intro text htext row hrow
    simp only [headingRows, List.mem_cons, List.not_mem_nil, or_false] at hrow
    obtain rfl | rfl | rfl := hrow
    · exact List.not_mem_nil
    · exact List.not_mem_nil
    · exact notMem_textRow htext
  have hsource : ∀ row ∈ sourceRows asm, '\n' ∉ row := by
    refine List.forall_mem_map.mpr fun line hline => ?_
    unfold sourceRow
    split
    · exact notMem_wordRow (h.text_row line hline) _ _
    · exact notMem_textRow (h.text_row line hline)
  have hpadding : ∀ row ∈ paddingRows asm, '\n' ∉ row :=
    List.forall_mem_map.mpr fun _ _ => notMem_wordRow List.not_mem_nil _ _
  have hdecode : ∀ row ∈ decodeRows asm, '\n' ∉ row :=
    List.forall_mem_map.mpr fun _ _ => notMem_wordRow (notMem_note h _) _ _
  simp only [rows, List.forall_mem_append]
  exact ⟨hsource, hheading _ (by decide), hpadding, hheading _ (by decide), hdecode,
    hheading _ (by decide)⟩

/-- Cutting a listing at its line feeds gives its rows, and nothing after the last one. -/
theorem splitOn_listing (h : asm.Printable) : asm.listing.toList.splitOn '\n' = rows asm ++ [[]] := by
  have hcut := Text.splitOn_flatMap_newline (notMem_rows h) []
  rw [List.append_nil, List.splitOn_nil] at hcut
  rw [toList_listing h, hcut]

/-- The rows with an address: some of the source, and all of the padding and of the decode table. -/
theorem filter_isAddressed_rows :
    (rows asm ++ [[]]).filter isAddressed =
      (sourceRows asm).filter isAddressed ++ (paddingRows asm ++ decodeRows asm) := by
  have hheading : ∀ text, (headingRows text).filter isAddressed = [] := fun _ => rfl
  have hpadding : (paddingRows asm).filter isAddressed = paddingRows asm :=
    List.filter_eq_self.mpr (List.forall_mem_map.mpr fun _ _ => isAddressed_wordRow _ _ _)
  have hdecode : (decodeRows asm).filter isAddressed = decodeRows asm :=
    List.filter_eq_self.mpr (List.forall_mem_map.mpr fun _ _ => isAddressed_wordRow _ _ _)
  simp only [rows, List.filter_append, hheading, hpadding, hdecode, List.nil_append, List.append_nil]
  simp

/-- The first section ends where the first heading begins, since no row of the source is empty. -/
theorem takeWhile_rows : (rows asm ++ [[]]).takeWhile (!·.isEmpty) = sourceRows asm := by
  have hsource : ∀ row ∈ sourceRows asm, (!row.isEmpty) = true := by
    refine List.forall_mem_map.mpr fun line _ => ?_
    unfold sourceRow
    split
    · rfl
    · rfl
  rw [rows, List.append_assoc, List.takeWhile_append_of_pos hsource]
  simp [headingRows]

end Listing

namespace Listing

/-! ## the rows with an address -/

section Addressed

variable {asm : Assembly} {a : Nat} {w : MicroWord}

theorem length_paddingRows : (paddingRows asm).length = 256 - asm.authored := by
  simp [paddingRows, Assembly.addressed, Program.decodeBase, asm.program.length_words]

theorem length_decodeRows : (decodeRows asm).length = 256 := by
  simp [decodeRows, Assembly.addressed, Program.decodeBase, asm.program.length_words]

/-- The word of a padding row. -/
theorem getElem?_paddingRows (hauthored : asm.authored ≤ a) (ha : a < 256)
    (hw : asm.program.get? a = some w) :
    (paddingRows asm)[a - asm.authored]? = some (wordRow a w []) := by
  rw [Program.get?] at hw
  simp [paddingRows, Assembly.addressed, Program.decodeBase, ha, hw,
    Nat.add_sub_cancel' hauthored]

/-- The word of a row of the decode table, and the note on its opcode. -/
theorem getElem?_decodeRows (ha : Program.decodeBase ≤ a) (hw : asm.program.get? a = some w) :
    (decodeRows asm)[a - Program.decodeBase]? =
      some (wordRow a w (asm.note (.ofNat (a - Program.decodeBase))).toList) := by
  rw [Program.get?] at hw
  simp [decodeRows, Assembly.addressed, hw, Nat.add_sub_cancel' ha]

variable (hcode : ((sourceRows asm).filter isAddressed).length = asm.authored)
  (hfits : asm.authored ≤ 256)
include hcode

/-- The code comes first. -/
theorem getElem?_filter_of_lt (ha : a < asm.authored) :
    ((rows asm ++ [[]]).filter isAddressed)[a]? = ((sourceRows asm).filter isAddressed)[a]? := by
  rw [filter_isAddressed_rows, List.getElem?_append_left (by omega)]

/-- Then comes the padding. -/
theorem getElem?_filter_padding (hauthored : asm.authored ≤ a) (ha : a < 256)
    (hw : asm.program.get? a = some w) :
    ((rows asm ++ [[]]).filter isAddressed)[a]? = some (wordRow a w []) := by
  have hrow := getElem?_paddingRows hauthored ha hw
  have hlt := (List.getElem?_eq_some_iff.mp hrow).1
  rw [filter_isAddressed_rows, List.getElem?_append_right (by omega), hcode,
    List.getElem?_append_left hlt, hrow]

include hfits

/-- Then comes the decode table. -/
theorem getElem?_filter_decode (ha : Program.decodeBase ≤ a) (hw : asm.program.get? a = some w) :
    ((rows asm ++ [[]]).filter isAddressed)[a]? =
      some (wordRow a w (asm.note (.ofNat (a - Program.decodeBase))).toList) := by
  have hbase : Program.decodeBase = 256 := rfl
  have hindex : a - asm.authored - (256 - asm.authored) = a - Program.decodeBase := by omega
  rw [filter_isAddressed_rows, List.getElem?_append_right (by omega), hcode,
    List.getElem?_append_right (by rw [length_paddingRows]; omega),
    length_paddingRows, hindex, getElem?_decodeRows ha hw]

theorem length_filter_isAddressed : ((rows asm ++ [[]]).filter isAddressed).length = 512 := by
  rw [filter_isAddressed_rows, List.length_append, List.length_append, hcode, length_paddingRows,
    length_decodeRows]
  omega

end Addressed

end Listing

end Microcode

import Microcode.Proofs.Assembly.Outcome
import Microcode.Proofs.Assembly.Rows

/-!
# Microcode.Proofs.Assembly.Listing

The listing shows the whole control store, word by word and in order.

`Source.Listed` says what is found on the rows of a listing: the lines of the source, the words that
they give, and the rest of the control store with the mnemonics of the opcodes.  The texts that are
shown are taken from the lines of the source, so that they have no line feeds (`Draft.Reads.printable`)
and the listing falls into its rows; a line is then shown on the row with its index, and a word on
the row of its line (`Draft.Reads.getElem?_rows`, `Draft.Reads.getElem?_filter_sourceRows`).
`assemble_listed` puts this together.
-/

namespace Microcode

open Result Source

/-- There is a word at every address below 512. -/
theorem Program.exists_get? (p : Program) {a : Nat} (h : a < 512) : ∃ w, p.get? a = some w := by
  have hlt : a < p.words.length := by rw [p.length_words]; exact h
  exact ⟨p.words[a], List.getElem?_eq_getElem hlt⟩

/-! ## what a source has on its listing -/

namespace Source

open Listing

/-- The last line that gives a mnemonic at an address gives this one. -/
def LastMnemonic (lines : List String) (address : Nat) (text : String) : Prop :=
  ∃ i, Holds lines i (.pragma .mnemonic text) ∧ addressAt lines i = address ∧
    ∀ j other, Holds lines j (.pragma .mnemonic other) → addressAt lines j = address → j ≤ i

/-- What is noted on an opcode with the given entry address. -/
inductive Noted (lines : List String) : Option UInt16 → List Char → Prop
  | mnemonic {entry : UInt16} {text : String} (h : LastMnemonic lines entry.toNat text) :
      Noted lines (some entry) (['/', '/', ' '] ++ text.toList)
  | bare { entry? : Option UInt16}
      (h : ∀ entry, entry? = some entry →
        ∀ i text, Holds lines i (.pragma .mnemonic text) → addressAt lines i ≠ entry.toNat) :
      Noted lines entry? ['/', '/']

/-- What the rows of a listing show of a source and its control store. -/
structure Listed (lines : List String) (asm : Assembly) (rows : List (List Char)) : Prop where
  length_addressed : (rows.filter isAddressed).length = 512
  /-- The rows with an address show the words, from address 0 on. -/
  addressed : ∀ a < 512, ∃ w text,
    asm.program.get? a = some w ∧ (rows.filter isAddressed)[a]? = some (wordRow a w text)
  /-- Before the first empty row there is one for every line. -/
  length_section : (rows.takeWhile (!·.isEmpty)).length = lines.length
  /-- A line that gives a word is shown with its address and the word. -/
  word_line : ∀ (i : Nat) raw, lines[i]? = some raw → emits raw = true →
    ∃ w, asm.program.get? (addressAt lines i) = some w ∧
      rows[i]? = some (wordRow (addressAt lines i) w (Text.trimEnd raw.toList))
  /-- Any other line is shown alone. -/
  text_line : ∀ (i : Nat) raw, lines[i]? = some raw → emits raw = false →
    rows[i]? = some (textRow (Text.trimEnd raw.toList))
  /-- Each word of the code is shown on the line that it comes from. -/
  line_of : ∀ a < asm.authored, ∃ i line,
    Holds lines i line ∧ line.emits = true ∧ addressAt lines i = a ∧
      (∀ i' line', Holds lines i' line' → line'.emits = true → addressAt lines i' = a → i' = i) ∧
        (rows.filter isAddressed)[a]? = rows[i]?
  /-- The words of the decode table are shown with the mnemonics of their opcodes. -/
  decode_row : ∀ opcode : UInt8, ∃ w note,
    asm.program.get? (Program.decodeBase + opcode.toNat) = some w ∧
      Noted lines (asm.decode.get? opcode) note ∧
        (rows.filter isAddressed)[Program.decodeBase + opcode.toNat]? =
          some (wordRow (Program.decodeBase + opcode.toNat) w note)

/-- The row of a line that has `a` words before it. -/
def lineRow (p : Program) (raw : String) (a : Nat) : List Char :=
  if emits raw then wordRow a ((p.get? a).getD .zero) (Text.trimEnd raw.toList)
  else textRow (Text.trimEnd raw.toList)

theorem lineRow_of_emits {p : Program} {raw : String} {a : Nat} {w : MicroWord}
    (hemits : emits raw = true) (hw : p.get? a = some w) :
    lineRow p raw a = wordRow a w (Text.trimEnd raw.toList) := by
  rw [lineRow, if_pos hemits, hw, Option.getD_some]

theorem lineRow_of_not_emits {raw : String} (hemits : emits raw = false) (p : Program) (a : Nat) :
    lineRow p raw a = textRow (Text.trimEnd raw.toList) := by
  rw [lineRow, hemits, if_neg Bool.false_ne_true]

theorem isAddressed_lineRow (p : Program) (raw : String) (a : Nat) :
    isAddressed (lineRow p raw a) = emits raw := by
  unfold lineRow
  cases emits raw <;> simp

/-- The rows of the lines that give a word. -/
theorem filter_gather_lineRow (p : Program) (lines : List String) :
    (gather (fun raw a _ => some (lineRow p raw a)) lines).filter isAddressed =
      gather (fun raw a _ => Option.guard isAddressed (lineRow p raw a)) lines := by
  rw [← List.filterMap_eq_filter, filterMap_gather]
  simp only [Option.bind_some]

theorem isSome_guard_lineRow (p : Program) (raw : String) (a _n : Nat) :
    (Option.guard isAddressed (lineRow p raw a)).isSome = emits raw := by
  rw [Option.isSome_guard, isAddressed_lineRow]

end Source

namespace Draft

open Listing

variable {d : Draft} {lines : List String} {asm : Assembly}

/-- Later mnemonics come first. -/
theorem Reads.pairwise_bindings (hd : d.Reads lines) :
    d.mnemonics.bindings.Pairwise fun x y => y.line < x.line := by
  rw [hd.mnemonics, List.pairwise_reverse]
  refine pairwise_gather (fun raw a n m hm => ?_) lines
  obtain ⟨text, -, rfl⟩ := Option.map_eq_some_iff.mp hm
  rfl

/-- The mnemonic that counts at an address is given by the last line that gives one there. -/
theorem Reads.lastMnemonic_of_get? (hd : d.Reads lines) (hfits : wordCount lines ≤ 256)
    {entry : UInt16} {text : String} (h : d.mnemonics.get? entry = some text) :
    LastMnemonic lines entry.toNat text := by
  obtain ⟨m, hfind, rfl⟩ := Option.map_eq_some_iff.mp h
  obtain ⟨hentry, newer, older, hbindings, hnewer⟩ := List.find?_eq_some_iff_append.mp hfind
  obtain ⟨i, hi, haddress, hline⟩ := hd.mem_bindings_iff.mp (List.mem_of_find?_eq_some hfind)
  have hlater := hd.pairwise_bindings
  rw [hbindings, List.pairwise_append, List.pairwise_cons] at hlater
  rw [beq_iff_eq] at hentry
  refine ⟨i, hi, ?_, fun j other hj haddr => ?_⟩
  · rw [← hentry, haddress, toNat_ofNat_addressAt hfits]
  · have hmem : ⟨other, .ofNat (addressAt lines j), j + 1⟩ ∈ d.mnemonics.bindings :=
      hd.mem_bindings_iff.mpr ⟨j, hj, rfl, rfl⟩
    rw [hbindings, List.mem_append, List.mem_cons] at hmem
    rcases hmem with hmem | heq | hmem
    · have hother := hnewer _ hmem
      simp [haddr] at hother
    · rw [← heq] at hline
      simp only at hline
      omega
    · have hlt := hlater.2.1.1 _ hmem
      simp only at hlt
      omega

/-- No mnemonic counts at an address when no line gives one there. -/
theorem Reads.addressAt_ne_of_get? (hd : d.Reads lines) {entry : UInt16}
    (h : d.mnemonics.get? entry = none) {i : Nat} {text : String}
    (hi : Holds lines i (.pragma .mnemonic text)) : addressAt lines i ≠ entry.toNat := by
  intro haddr
  have hnone := List.find?_eq_none.mp (Option.map_eq_none_iff.mp h)
    ⟨text, .ofNat (addressAt lines i), i + 1⟩ (hd.mem_bindings_iff.mpr ⟨i, hi, rfl, rfl⟩)
  simp [haddr] at hnone

/-- What an opcode is noted with. -/
theorem Reads.noted (hd : d.Reads lines) (hfits : wordCount lines ≤ 256)
    (hmnemonics : asm.mnemonics = d.mnemonics) (opcode : UInt8) :
    Noted lines (asm.decode.get? opcode) (asm.note opcode).toList := by
  unfold Assembly.note
  rw [hmnemonics]
  cases hentry : asm.decode.get? opcode with
  | none =>
      rw [Option.bind_none]
      exact .bare fun entry h => nomatch h
  | some entry =>
      rw [Option.bind_some]
      cases hget : d.mnemonics.get? entry with
      | none =>
          refine .bare fun entry' h i text hi => ?_
          rw [← Option.some.inj h]
          exact hd.addressAt_ne_of_get? hget hi
      | some text =>
          rw [String.toList_append]
          exact .mnemonic (hd.lastMnemonic_of_get? hfits hget)

section Rows

variable (hd : d.Reads lines) (hfits : wordCount lines ≤ 256)
  (htrace : asm.trace = d.trace.toList)
include hd hfits htrace

/-- The rows of the source are those of its lines. -/
theorem Reads.sourceRows_eq :
    sourceRows asm = gather (fun raw a _ => some (lineRow asm.program raw a)) lines := by
  rw [sourceRows, htrace, hd.trace, gather, List.map_filterMap, gather]
  refine List.filterMap_congr ?_
  rintro ⟨raw, i⟩ -
  simp only [Option.map_some, sourceRow, lineRow, Text.trimEndString]
  cases emits raw with
  | false => simp
  | true => simp [toNat_ofNat_addressAt hfits]

/-- A line is shown on the row with its index. -/
theorem Reads.getElem?_rows {i : Nat} {raw : String} (hraw : lines[i]? = some raw) :
    (rows asm ++ [[]])[i]? = some (lineRow asm.program raw (addressAt lines i)) := by
  have hrow : (sourceRows asm)[i]? = some (lineRow asm.program raw (addressAt lines i)) := by
    rw [hd.sourceRows_eq hfits htrace]
    exact getElem?_gather_some (fun raw a _ => lineRow asm.program raw a) hraw
  have hlt := (List.getElem?_eq_some_iff.mp hrow).1
  rw [rows, List.append_assoc, List.getElem?_append_left hlt, hrow]

/-- There are as many rows with an address in the first section as the source gives words. -/
theorem Reads.length_filter_sourceRows :
    ((sourceRows asm).filter isAddressed).length = wordCount lines := by
  rw [hd.sourceRows_eq hfits htrace, filter_gather_lineRow,
    length_gather (isSome_guard_lineRow asm.program)]

/-- And the row of a line that gives a word is the one with its address. -/
theorem Reads.getElem?_filter_sourceRows {i : Nat} {raw : String} (hraw : lines[i]? = some raw)
    (hemits : emits raw = true) :
    ((sourceRows asm).filter isAddressed)[addressAt lines i]? =
      some (lineRow asm.program raw (addressAt lines i)) := by
  rw [hd.sourceRows_eq hfits htrace, filter_gather_lineRow,
    getElem?_gather (isSome_guard_lineRow asm.program) hraw hemits]
  simp [isAddressed_lineRow, hemits]

/-- Every word is shown on the row with its address, wherever it comes from. -/
theorem Reads.exists_wordRow (hauthored : asm.authored = wordCount lines) {a : Nat} (ha : a < 512) :
    ∃ w text, asm.program.get? a = some w ∧
      ((rows asm ++ [[]]).filter isAddressed)[a]? = some (wordRow a w text) := by
  have hcode := (hd.length_filter_sourceRows hfits htrace).trans hauthored.symm
  obtain ⟨w, hw⟩ := asm.program.exists_get? ha
  by_cases hlt : a < asm.authored
  · obtain ⟨i, raw, hraw, hemits, rfl⟩ := exists_line_of_lt_wordCount (hauthored ▸ hlt)
    refine ⟨w, Text.trimEnd raw.toList, hw, ?_⟩
    rw [getElem?_filter_of_lt hcode hlt, hd.getElem?_filter_sourceRows hfits htrace hraw hemits,
      lineRow_of_emits hemits hw]
  · by_cases hdecode : a < 256
    · exact ⟨w, [], hw, getElem?_filter_padding hcode (Nat.le_of_not_lt hlt) hdecode hw⟩
    · exact ⟨w, _, hw, getElem?_filter_decode hcode (hauthored ▸ hfits)
        (Nat.le_of_not_lt hdecode) hw⟩

end Rows

/-- A source without line feeds in its lines can be shown. -/
theorem Reads.printable (hd : d.Reads lines) (hfits : wordCount lines ≤ 256)
    (htrace : asm.trace = d.trace.toList) (hmnemonics : asm.mnemonics = d.mnemonics)
    (hfeed : ∀ raw ∈ lines, '\n' ∉ raw.toList) : asm.Printable where
  address_lt := by
    intro line hline address haddress
    rw [htrace, hd.trace, mem_gather_iff] at hline
    obtain ⟨i, raw, -, hrow⟩ := hline
    rw [← Option.some.inj hrow] at haddress
    simp only [Option.ite_none_right_eq_some, Option.some.injEq] at haddress
    have hle := addressAt_le lines i
    rw [← haddress.2, toNat_ofNat_addressAt hfits]
    omega
  text_row := by
    intro line hline
    rw [htrace, hd.trace, mem_gather_iff] at hline
    obtain ⟨i, raw, hraw, hrow⟩ := hline
    rw [← Option.some.inj hrow, Text.trimEndString, String.toList_ofList]
    exact fun hmem => hfeed raw (List.mem_of_getElem? hraw) (Text.trimEnd_subset _ hmem)
  mnemonic_row := by
    intro m hm
    rw [hmnemonics] at hm
    obtain ⟨i, ⟨raw, hraw, hparse⟩, -⟩ := hd.mem_bindings_iff.mp hm
    exact fun hmem =>
      hfeed raw (List.mem_of_getElem? hraw) (Line.params_subset_of_parse hparse hmem)

/-- The second pass gives an assembly whose listing shows the source. -/
theorem Reads.listed (hd : d.Reads lines) (hwf : WellFormed lines) {config : Config}
    (hfeed : ∀ raw ∈ lines, '\n' ∉ raw.toList) (h : d.finish config lines = .ok asm) :
    Listed lines asm (asm.listing.toList.splitOn '\n') := by
  have hlayout := hd.layout hwf h
  obtain ⟨hsize, code, decode, decodeWords, -, -, _, hasm⟩ := finish_eq_ok_iff.mp h
  have htrace : asm.trace = d.trace.toList := by rw [hasm, assembly]
  have hmnemonics : asm.mnemonics = d.mnemonics := by rw [hasm, assembly]
  rw [hd.size_slots] at hsize
  have hfits : asm.authored ≤ 256 := by rw [hlayout.authored]; exact hsize
  have hcode : ((sourceRows asm).filter isAddressed).length = asm.authored := by
    rw [hd.length_filter_sourceRows hsize htrace, hlayout.authored]
  rw [splitOn_listing (hd.printable hsize htrace hmnemonics hfeed)]
  refine
    { length_addressed := length_filter_isAddressed hcode hfits
      addressed := fun a ha => hd.exists_wordRow hsize htrace hlayout.authored ha
      length_section := ?_
      word_line := fun i raw hraw hemits => ?_
      text_line := fun i raw hraw hemits => ?_
      line_of := fun a ha => ?_
      decode_row := fun opcode => ?_ }
  · rw [takeWhile_rows, hd.sourceRows_eq hsize htrace, length_gather_some]
  · have hlt := addressAt_lt_of_emits hraw hemits (List.getElem?_eq_some_iff.mp hraw).1
    rw [addressAt_length] at hlt
    obtain ⟨w, hw⟩ := asm.program.exists_get? (a := addressAt lines i) (by omega)
    exact ⟨w, hw, by rw [hd.getElem?_rows hsize htrace hraw, lineRow_of_emits hemits hw]⟩
  · rw [hd.getElem?_rows hsize htrace hraw, lineRow_of_not_emits hemits]
  · obtain ⟨i, line, w, hi, hemits, haddr, hunique, -⟩ := hlayout.line_of a ha
    refine ⟨i, line, hi, hemits, haddr, hunique, ?_⟩
    obtain ⟨raw, hraw, hparse⟩ := hi
    rw [getElem?_filter_of_lt hcode ha, hd.getElem?_rows hsize htrace hraw, ← haddr]
    exact hd.getElem?_filter_sourceRows hsize htrace hraw
      (emits_eq_true_iff.mpr ⟨line, hparse, hemits⟩)
  · obtain ⟨w, hw⟩ := asm.program.exists_get? (a := Program.decodeBase + opcode.toNat)
      (Nat.add_lt_add_left opcode.toNat_lt 256)
    have hrow := getElem?_filter_decode hcode hfits (Nat.le_add_right _ _) hw
    rw [Nat.add_sub_cancel_left, UInt8.ofNat_toNat] at hrow
    exact ⟨w, _, hw, hd.noted hsize hmnemonics opcode, hrow⟩

end Draft

/-- The listing of a source that assembles shows its lines and its whole control store. -/
theorem assemble_listed {config : Config} {source : String} {asm : Assembly}
    (h : assemble config source = .ok asm) :
    Listed (Text.linesOf source) asm (asm.listing.toList.splitOn '\n') := by
  obtain ⟨hwf, d, hd, hfinish⟩ := exists_reads_of_assembleLines h
  exact hd.listed hwf (fun _ => Text.notMem_of_mem_linesOf) hfinish

/-- An opcode pattern and two mnemonics for the same address, then a word. -/
def twiceNamed : String := "__code \"0000000-\"\n__asm halt\n__asm stop\n  NOP // wait \n"

/-- Of two mnemonics the last one is listed. -/
theorem assemble_listed_twiceNamed :
    ∃ asm, assemble {} twiceNamed = .ok asm ∧ (asm.authored, asm.note 0) = (1, "// stop") ∧
      Listed (Text.linesOf twiceNamed) asm (asm.listing.toList.splitOn '\n') := by
  have hnote : (assemble {} twiceNamed).map (fun asm => (asm.authored, asm.note 0)) =
      .ok (1, "// stop") := by
    decide +kernel
  obtain ⟨asm, hasm, hshown⟩ := map_eq_ok_iff.mp hnote
  exact ⟨asm, hasm, hshown, assemble_listed hasm⟩

end Microcode

import Microcode.Proofs.Assembly.Outcome

/-!
# Microcode.Proofs.Assembly.Attribution

Errors are blamed on the right line.

Both passes can blame a line.  The first pass blames the line that it stops at, so neither the lines
after it nor the settings can change the error (`Draft.firstRefused_of_ofLines`).  The second pass
blames a line only for an ambiguous opcode, and takes the line's number from the pattern that was
declared there (`Draft.Reads.tied_of_decodeTable`).
-/

namespace Microcode

open Result

namespace Source

/-! ## what a blamed line is blamed for -/

/-- Line `i` has a property that, of the lines before it, the one with the given number has, and no
other.  Numbers count from 1, and indices from 0. -/
def Repeats (P : Nat → Prop) (i number : Nat) : Prop :=
  P i ∧ ∃ j < i, number = j + 1 ∧ P j ∧ ∀ k < i, P k → k = j

/-- Line `i` is refused by the first pass. -/
structure FirstRefused (lines : List String) (i : Nat) (text : String) (cause : LineError) :
    Prop where
  /-- When ties are not refused, the lines before it alone are not to blame for anything. -/
  blameless : ∀ line text' cause',
    assembleLines { tieBreak := .first } (lines.take i) ≠ .error (.source line text' cause')
  /-- Neither the lines after it nor the settings matter. -/
  settled : ∀ config lines', lines'.take (i + 1) = lines.take (i + 1) →
    assembleLines config lines' = .error (.source (i + 1) text cause)
  label_repeated : ∀ name number, cause = .duplicateLabel name number →
    Repeats (Holds lines · (.label name)) i number
  pattern_repeated : ∀ pattern number, cause = .duplicatePattern pattern number →
    Repeats (Declares lines · pattern.toList) i number
  mnemonic_repeated : ∀ mnemonic number, cause = .duplicateMnemonic mnemonic number →
    Repeats (Holds lines · (.pragma .mnemonic mnemonic)) i number

/-- Line `i` declares the second of two cheapest patterns for an opcode, and the line with the given
number declares the first. -/
structure Tied (lines : List String) (i : Nat) (opcode : UInt8) (first : String) (number : Nat)
    (second : String) : Prop where
  declares : Declares lines i second.toList
  cheapest : Cheapest lines opcode i
  exists_first : ∃ j < i, number = j + 1 ∧ Declares lines j first.toList ∧ Cheapest lines opcode j
  /-- No smaller opcode has two cheapest patterns. -/
  least : ∀ smaller < opcode, ∀ j k, Cheapest lines smaller j → Cheapest lines smaller k → j = k

/-- A line repeats the line before it that has the same property, since no two of these lines have
it. -/
theorem repeats_of_take {P Q : Nat → Prop} {i j : Nat} (htake : ∀ k, Q k ↔ k < i ∧ P k)
    (hunique : ∀ j k, Q j → Q k → j = k) (hi : P i) (hj : Q j) : Repeats P i (j + 1) := by
  obtain ⟨hlt, hPj⟩ := (htake j).mp hj
  refine ⟨hi, j, hlt, rfl, hPj, fun k hk hPk => ?_⟩
  exact hunique k j ((htake k).mpr ⟨hk, hPk⟩) hj

/-- A line is never refused for an ambiguity. -/
theorem Refuses.ne_ambiguousOpcode {lines : List String} {raw : String} {e : LineError}
    (h : Refuses lines raw e) (opcode : UInt8) (first : String) (number : Nat) (second : String) :
    e ≠ .ambiguousOpcode opcode first number second := by
  rintro rfl
  cases h with
  | unreadable h => exact nomatch Line.unreadable_of_parse_eq_error h

section Repeated

variable {lines : List String} {i : Nat} {raw : String}

/-- A line is refused for its label when one earlier line defines it. -/
theorem Refuses.label_repeated {name : String} {number : Nat} (hwf : WellFormed (lines.take i))
    (hraw : lines[i]? = some raw)
    (h : Refuses (lines.take i) raw (.duplicateLabel name number)) :
    Repeats (Holds lines · (.label name)) i number := by
  cases h with
  | unreadable h => exact nomatch Line.unreadable_of_parse_eq_error h
  | duplicateLabel hparse hj =>
      exact repeats_of_take (fun k => holds_take_iff) (fun j k => hwf.labels_unique j k name)
        ⟨raw, hraw, hparse⟩ hj

/-- A line is refused for its pattern when one earlier line declares it. -/
theorem Refuses.pattern_repeated {pattern : String} {number : Nat}
    (hwf : WellFormed (lines.take i)) (hraw : lines[i]? = some raw)
    (h : Refuses (lines.take i) raw (.duplicatePattern pattern number)) :
    Repeats (Declares lines · pattern.toList) i number := by
  cases h with
  | unreadable h => exact nomatch Line.unreadable_of_parse_eq_error h
  | duplicatePattern hparse hj =>
      rw [String.toList_ofList]
      exact repeats_of_take (fun k => declares_take_iff) (fun j k => hwf.patterns_unique j k _)
        ⟨_, ⟨raw, hraw, hparse⟩, rfl⟩ hj

/-- A line is refused for its mnemonic when one earlier line gives it. -/
theorem Refuses.mnemonic_repeated {mnemonic : String} {number : Nat}
    (hwf : WellFormed (lines.take i)) (hraw : lines[i]? = some raw)
    (h : Refuses (lines.take i) raw (.duplicateMnemonic mnemonic number)) :
    Repeats (Holds lines · (.pragma .mnemonic mnemonic)) i number := by
  cases h with
  | unreadable h => exact nomatch Line.unreadable_of_parse_eq_error h
  | duplicateMnemonic hparse hj =>
      exact repeats_of_take (fun k => holds_take_iff)
        (fun j k => hwf.mnemonics_unique j k mnemonic) ⟨raw, hraw, hparse⟩ hj

end Repeated

end Source

open Source

/-! ## the two passes -/

namespace Draft

variable {lines : List String}

/-- The second pass does not blame a line when ties are not refused. -/
theorem Reads.finish_first_ne_source {d : Draft} (hd : d.Reads lines) (line : Nat) (text : String)
    (cause : LineError) :
    d.finish { tieBreak := .first } lines ≠ .error (.source line text cause) := by
  intro h
  obtain ⟨t, ht⟩ : ∃ t, d.decodeTable { tieBreak := .first } lines = .ok t :=
    hd.exists_decodeTable_iff.mpr nofun
  rw [decodeTable_of_finish_eq_source h] at ht
  contradiction

/-- The first pass depends on the lines up to the one it stops at only. -/
theorem ofLines_eq_error_of_take {lines' : List String} {i : Nat} {raw : String} {d : Draft}
    {cause : LineError} (hraw : lines[i]? = some raw) (hd : ofLines (lines.take i) = .ok d)
    (hadd : d.addLine (i + 1) raw = .error cause)
    (hsame : lines'.take (i + 1) = lines.take (i + 1)) :
    ofLines lines' = .error (.ofLine (i + 1) raw cause) := by
  have hraw' : lines'[i]? = some raw := by
    rw [← List.getElem?_take_of_lt (Nat.lt_succ_self i), hsame,
      List.getElem?_take_of_lt (Nat.lt_succ_self i), hraw]
  have htake : lines'.take i = lines.take i := by
    have := congrArg (List.take i) hsame
    rwa [List.take_take, List.take_take, Nat.min_eq_left (Nat.le_succ i)] at this
  exact ofLines_eq_error_iff.mpr ⟨i, raw, d, cause, hraw', htake ▸ hd, hadd, rfl⟩

/-- When the first pass fails, it blames the line that it refuses, and not for an ambiguity. -/
theorem firstRefused_of_ofLines {e : AsmError} (h : ofLines lines = .error e) :
    ∃ i raw cause, lines[i]? = some raw ∧ e = .ofLine (i + 1) raw cause ∧
      (∀ opcode first number second, cause ≠ .ambiguousOpcode opcode first number second) ∧
        FirstRefused lines i (Text.trimEndString raw) cause := by
  obtain ⟨i, raw, d, cause, hraw, hd, hadd, rfl⟩ := ofLines_eq_error_iff.mp h
  have hreads := reads_of_ofLines hd
  have hwf := exists_ofLines_iff.mp ⟨d, hd⟩
  have hrefuses := hreads.refuses_of_addLine hadd
  refine ⟨i, raw, cause, hraw, rfl, hrefuses.ne_ambiguousOpcode, ?_⟩
  refine
    { blameless := ?_
      settled := ?_
      label_repeated := ?_
      pattern_repeated := ?_
      mnemonic_repeated := ?_ }
  · intro line text' cause' hsource
    rw [assembleLines, hd] at hsource
    exact hreads.finish_first_ne_source line text' cause' hsource
  · intro config lines' hsame
    rw [assembleLines, ofLines_eq_error_of_take hraw hd hadd hsame]
    rfl
  · rintro name number rfl
    exact hrefuses.label_repeated hwf hraw
  · rintro pattern number rfl
    exact hrefuses.pattern_repeated hwf hraw
  · rintro mnemonic number rfl
    exact hrefuses.mnemonic_repeated hwf hraw

/-- When the decode table is refused, the lines that declare the first two cheapest patterns for the
smallest ambiguous opcode are reported. -/
theorem Reads.tied_of_decodeTable {d : Draft} (hd : d.Reads lines) {tie : TieBreak} {a : Ambiguity}
    (h : d.patterns.decodeTable tie = .error a) :
    ∃ i, a.second.line = i + 1 ∧
      Tied lines i a.opcode a.first.text a.first.line a.second.text := by
  obtain ⟨-, ⟨rest, hcheap⟩, hleast⟩ := PatternSet.decodeTable_eq_error_iff.mp h
  have hordered := hd.pairwise_cheapest a.opcode
  rw [hcheap, List.pairwise_cons] at hordered
  have hlt := hordered.1 a.second List.mem_cons_self
  obtain ⟨j, hj, hjtext, hjline, -⟩ :=
    hd.exists_line_of_mem_cheapest (show a.first ∈ d.patterns.cheapest a.opcode by simp [hcheap])
  obtain ⟨i, hi, hitext, hiline, -⟩ :=
    hd.exists_line_of_mem_cheapest (show a.second ∈ d.patterns.cheapest a.opcode by simp [hcheap])
  refine ⟨i, hiline, hitext, hi, ⟨j, by omega, hjline, hjtext, hj⟩, fun smaller hsmaller => ?_⟩
  exact hd.length_cheapest_le_one_iff.mp (hleast smaller hsmaller)

end Draft

/-! ## attribution -/

/-- An error of a line names that line, and is right about it: the first pass could not go on there,
or the second pass found there the later of two patterns that it cannot choose from. -/
theorem assemble_eq_source {config : Config} {source : String} {line : Nat} {text : String}
    {cause : LineError} (h : assemble config source = .error (.source line text cause)) :
    ∃ i raw, line = i + 1 ∧ (Text.linesOf source)[i]? = some raw ∧ text = Text.trimEndString raw ∧
      ((∀ opcode first number second, cause ≠ .ambiguousOpcode opcode first number second) →
        FirstRefused (Text.linesOf source) i text cause) ∧
      ∀ opcode first number second, cause = .ambiguousOpcode opcode first number second →
        Tied (Text.linesOf source) i opcode first number second := by
  rcases bind_eq_error_iff.mp h with hfirst | ⟨d, hd, hfinish⟩
  · obtain ⟨i, raw, cause', hraw, he, hne, hrefused⟩ := Draft.firstRefused_of_ofLines hfirst
    obtain ⟨rfl, rfl, rfl⟩ := AsmError.source.inj he
    refine ⟨i, raw, rfl, hraw, rfl, fun _ => hrefused, fun opcode first number second heq => ?_⟩
    exact absurd heq (hne opcode first number second)
  · obtain ⟨a, hdecode, he⟩ :=
      mapError_eq_error_iff.mp (Draft.decodeTable_of_finish_eq_source hfinish)
    obtain ⟨i, hline, htied⟩ := (Draft.reads_of_ofLines hd).tied_of_decodeTable hdecode
    obtain ⟨params, ⟨raw, hraw, -⟩, -⟩ := htied.declares
    -- the number stored in the pattern is used once more, to look up the text of its line
    rw [hline] at he
    obtain ⟨rfl, rfl, rfl⟩ := AsmError.source.inj he
    refine ⟨i, raw, rfl, hraw, ?_, fun hne => ?_, fun opcode first number second heq => ?_⟩
    · simp [List.getD_eq_getElem?_getD, hraw]
    · exact absurd rfl (hne _ _ _ _)
    · obtain ⟨rfl, rfl, rfl, rfl⟩ := LineError.ambiguousOpcode.inj heq
      exact htied

/-- A label that is defined twice, and two patterns between which there is no choice. -/
theorem assemble_eq_source_repeated_tied :
    (assemble {} ":a\nNOP\n:a \nJSR b\n" = .error (.source 3 ":a" (.duplicateLabel "a" 1)) ∧
      FirstRefused (Text.linesOf ":a\nNOP\n:a \nJSR b\n") 2 ":a" (.duplicateLabel "a" 1)) ∧
    assemble { tieBreak := .reject } "__code \"0000----\"\nNOP\n__code \"----0000\"\nNOP\n" =
        .error (.source 3 "__code \"----0000\"" (.ambiguousOpcode 0 "0000----" 1 "----0000")) ∧
      Tied (Text.linesOf "__code \"0000----\"\nNOP\n__code \"----0000\"\nNOP\n") 2 0 "0000----" 1
        "----0000" := by
  have hrepeated : assemble {} ":a\nNOP\n:a \nJSR b\n" =
      .error (.source 3 ":a" (.duplicateLabel "a" 1)) := by
    decide +kernel
  have htied :
      assemble { tieBreak := .reject } "__code \"0000----\"\nNOP\n__code \"----0000\"\nNOP\n" =
        .error (.source 3 "__code \"----0000\"" (.ambiguousOpcode 0 "0000----" 1 "----0000")) := by
    decide +kernel
  constructor
  · obtain ⟨i, raw, hi, -, -, hrefused, -⟩ := assemble_eq_source hrepeated
    obtain rfl : i = 2 := by omega
    exact ⟨hrepeated, hrefused (by simp)⟩
  · obtain ⟨i, raw, hi, -, -, -, htie⟩ := assemble_eq_source htied
    obtain rfl : i = 2 := by omega
    exact ⟨htied, htie _ _ _ _ rfl⟩

end Microcode

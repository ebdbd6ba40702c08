import Microcode.Proofs.Assembly.Source
import Microcode.Proofs.Line.Parser

/-!
# Microcode.Proofs.Assembly.FirstPass

The first pass gives the draft that the lines of a source describe.

`Draft.Reads` says what a draft holds after some lines, table by table.  One line keeps it
(`Draft.exists_addLine`), and a line is refused exactly when it may not follow the lines before it
(`Draft.follows_of_addLine`), for the reason that `Source.Refuses` gives
(`Draft.Reads.refuses_of_addLine`).  Hence, over all lines of a source:

* `Draft.exists_ofLines_iff` — the first pass succeeds exactly for well-formed sources;
* `Draft.reads_of_ofLines` — and then its draft is the one that the lines describe;
* `Draft.ofLines_eq_error_iff` — it fails at the first line that is refused.
-/

namespace Microcode

open Result

/-! ## the tables of a draft -/

namespace LabelTable

variable {t : LabelTable} {name : String} {address : UInt16} {line : Nat}

/-- What is found for a label is its definition. -/
theorem mem_defs_of_get? {def_ : LabelDef} (h : t.get? name = some def_) : (name, def_) ∈ t.defs := by
  obtain ⟨front, back, hdefs, -⟩ := List.lookup_eq_some_iff.mp h
  rw [hdefs]
  exact List.mem_append_right _ List.mem_cons_self

/-- A label is defined, before the others, exactly when it is not in the table. -/
theorem define_eq_ok_iff {t' : LabelTable} :
    t.define name address line = .ok t' ↔
      t.get? name = none ∧ t' = ⟨(name, ⟨address, line⟩) :: t.defs⟩ := by
  unfold define
  split
  · next h => simp [h]
  · next h => simp [h, eq_comm]

/-- A label is refused exactly when it is in the table. -/
theorem define_eq_error_iff {e : LineError} :
    t.define name address line = .error e ↔
      ∃ earlier, t.get? name = some earlier ∧ e = .duplicateLabel name earlier.line := by
  unfold define
  split
  · next h => simp [h, eq_comm]
  · next h => simp [h]

end LabelTable

namespace MnemonicTable

variable {t : MnemonicTable} {text : String} {address : UInt16} {line : Nat}

/-- A mnemonic is bound, before the others, exactly when it is not in the table. -/
theorem bind_eq_ok_iff {t' : MnemonicTable} :
    t.bind text address line = .ok t' ↔
      t.bindings.find? (·.text == text) = none ∧ t' = ⟨⟨text, address, line⟩ :: t.bindings⟩ := by
  unfold MnemonicTable.bind
  split
  · next h => simp [h]
  · next h => simp [h, eq_comm]

/-- A mnemonic is refused exactly when it is in the table. -/
theorem bind_eq_error_iff {e : LineError} :
    t.bind text address line = .error e ↔
      ∃ earlier, t.bindings.find? (·.text == text) = some earlier ∧
        e = .duplicateMnemonic text earlier.line := by
  unfold MnemonicTable.bind
  split
  · next h => simp [h, eq_comm]
  · next h => simp [h]

end MnemonicTable

namespace Source

/-! ## what one line defines -/

/-- The label that a line defines. -/
def label? (raw : String) : Option String :=
  match content? raw with
  | some (.label name) => some name
  | _ => none

/-- The text of the opcode pattern that a line declares. -/
def pattern? (raw : String) : Option (List Char) :=
  match content? raw with
  | some (.pragma .code params) => some (PatternText.unquoted params)
  | _ => none

/-- The mnemonic that a line gives. -/
def mnemonic? (raw : String) : Option String :=
  match content? raw with
  | some (.pragma .mnemonic text) => some text
  | _ => none

/-- The slot of the word that a line gives. -/
def slot? (raw : String) (line : Nat) : Option Slot :=
  match content? raw with
  | some (.word word) => some { word, line }
  | some (.jump kind label) =>
    some {
      word := .opened kind
      line
      pending := some ⟨label, line, Text.trimEndString raw⟩
    }
  | _ => none

theorem label?_eq_some_iff {raw name : String} :
    label? raw = some name ↔ Line.parse raw = .ok (some (.label name)) := by
  rw [← content?_eq_some_iff, label?]
  split
  · next h => rw [h]; simp
  · next h => exact ⟨fun h' => (nomatch h'), fun h' => (h name h').elim⟩

theorem pattern?_eq_some_iff {raw : String} {text : List Char} :
    pattern? raw = some text ↔
      ∃ params, Line.parse raw = .ok (some (.pragma .code params)) ∧
        text = PatternText.unquoted params := by
  simp only [← content?_eq_some_iff, pattern?]
  split
  · next h => rw [h]; simp [eq_comm]
  · next h => exact ⟨fun h' => (nomatch h'), fun ⟨params, h', _⟩ => (h params h').elim⟩

theorem mnemonic?_eq_some_iff {raw text : String} :
    mnemonic? raw = some text ↔ Line.parse raw = .ok (some (.pragma .mnemonic text)) := by
  rw [← content?_eq_some_iff, mnemonic?]
  split
  · next h => rw [h]; simp
  · next h => exact ⟨fun h' => (nomatch h'), fun h' => (h text h').elim⟩

/-- Exactly the lines that give a word have a slot. -/
theorem isSome_slot? (raw : String) (line : Nat) : (slot? raw line).isSome = emits raw := by
  unfold slot? emits
  split
  · next h => rw [h]; rfl
  · next h => rw [h]; rfl
  · next hword hjump =>
      cases h : content? raw with
      | none => rfl
      | some content =>
          cases content with
          | label name => rfl
          | pragma p params => rfl
          | jump kind label => exact (hjump kind label h).elim
          | word w => exact (hword w h).elim

/-- There are as many slots as words. -/
theorem length_gather_slot? (lines : List String) :
    (gather (fun raw _ n => slot? raw n) lines).length = wordCount lines :=
  length_gather (fun raw _ n => isSome_slot? raw n) lines

end Source

open Source

/-- A line is never refused for the packer's sake. -/
theorem Source.Refuses.kind_ne {lines : List String} {raw : String} {e : LineError}
    (h : Refuses lines raw e) : e.kind ≠ .encodingOverflow := by
  cases h with
  | unreadable h => exact LineError.kind_of_unreadable (Line.unreadable_of_parse_eq_error h)
  | invalidPattern => exact fun h => nomatch h
  | duplicateLabel => exact fun h => nomatch h
  | duplicatePattern => exact fun h => nomatch h
  | duplicateMnemonic => exact fun h => nomatch h

/-! ## the draft that lines describe -/

/-- A draft holds what the given lines define. -/
structure Draft.Reads (d : Draft) (lines : List String) : Prop where
  labels : d.labels.defs =
    (gather (fun raw a n => (label? raw).map fun name => (name, ⟨.ofNat a, n⟩)) lines).reverse
  patterns : d.patterns.patterns.map (fun p => (p.text.toList, p.entry, p.line)) =
    gather (fun raw a n => (pattern? raw).map fun text => (text, .ofNat a, n)) lines
  mnemonics : d.mnemonics.bindings =
    (gather (fun raw a n => (mnemonic? raw).map fun text => ⟨text, .ofNat a, n⟩) lines).reverse
  slots : d.slots.toList = gather (fun raw _ n => slot? raw n) lines
  trace : d.trace.toList =
    gather (fun raw a _ => some ⟨Text.trimEndString raw, if emits raw then some (.ofNat a) else none⟩)
      lines

namespace Draft

variable {d : Draft} {lines : List String}

/-- The address of the next slot is the number of words so far. -/
theorem Reads.size_slots (hd : d.Reads lines) : d.slots.size = wordCount lines := by
  rw [← Array.length_toList, hd.slots, length_gather_slot?]

theorem Reads.here_eq (hd : d.Reads lines) : d.here = .ofNat (wordCount lines) := by
  rw [here, hd.size_slots]

/-- The labels of a draft are those that lines define. -/
theorem Reads.mem_defs_iff (hd : d.Reads lines) {name : String} {def_ : LabelDef} :
    (name, def_) ∈ d.labels.defs ↔
      ∃ i, Holds lines i (.label name) ∧ def_ = ⟨.ofNat (addressAt lines i), i + 1⟩ := by
  rw [hd.labels, List.mem_reverse, mem_gather_iff]
  constructor
  · rintro ⟨i, raw, hraw, hdef⟩
    obtain ⟨name', hname, heq⟩ := Option.map_eq_some_iff.mp hdef
    obtain ⟨rfl, rfl⟩ := Prod.mk.inj heq
    exact ⟨i, ⟨raw, hraw, label?_eq_some_iff.mp hname⟩, rfl⟩
  · rintro ⟨i, ⟨raw, hraw, hparse⟩, rfl⟩
    exact ⟨i, raw, hraw, by rw [label?_eq_some_iff.mpr hparse]; rfl⟩

/-- The patterns of a draft are those that lines declare. -/
theorem Reads.exists_pattern_iff (hd : d.Reads lines) {text : List Char} {entry : UInt16}
    {line : Nat} :
    (∃ p ∈ d.patterns.patterns, p.text.toList = text ∧ p.entry = entry ∧ p.line = line) ↔
      ∃ i, Declares lines i text ∧ entry = .ofNat (addressAt lines i) ∧ line = i + 1 := by
  have hmem : (∃ p ∈ d.patterns.patterns, p.text.toList = text ∧ p.entry = entry ∧ p.line = line) ↔
      (text, entry, line) ∈ d.patterns.patterns.map fun p => (p.text.toList, p.entry, p.line) := by
    simp [List.mem_map]
  rw [hmem, hd.patterns, mem_gather_iff]
  constructor
  · rintro ⟨i, raw, hraw, hpattern⟩
    obtain ⟨text', htext, heq⟩ := Option.map_eq_some_iff.mp hpattern
    obtain ⟨params, hparse, rfl⟩ := pattern?_eq_some_iff.mp htext
    simp only [Prod.mk.injEq] at heq
    obtain ⟨rfl, rfl, rfl⟩ := heq
    exact ⟨i, ⟨params, ⟨raw, hraw, hparse⟩, rfl⟩, rfl, rfl⟩
  · rintro ⟨i, ⟨params, ⟨raw, hraw, hparse⟩, rfl⟩, rfl, rfl⟩
    exact ⟨i, raw, hraw, by rw [pattern?_eq_some_iff.mpr ⟨params, hparse, rfl⟩]; rfl⟩

/-- The mnemonics of a draft are those that lines give. -/
theorem Reads.mem_bindings_iff (hd : d.Reads lines) {m : Mnemonic} :
    m ∈ d.mnemonics.bindings ↔
      ∃ i, Holds lines i (.pragma .mnemonic m.text) ∧ m.address = .ofNat (addressAt lines i) ∧
        m.line = i + 1 := by
  rw [hd.mnemonics, List.mem_reverse, mem_gather_iff]
  constructor
  · rintro ⟨i, raw, hraw, hm⟩
    obtain ⟨text, htext, rfl⟩ := Option.map_eq_some_iff.mp hm
    exact ⟨i, ⟨raw, hraw, mnemonic?_eq_some_iff.mp htext⟩, rfl, rfl⟩
  · rintro ⟨i, ⟨raw, hraw, hparse⟩, haddress, hline⟩
    refine ⟨i, raw, hraw, ?_⟩
    rw [mnemonic?_eq_some_iff.mpr hparse, ← haddress, ← hline]
    rfl

/-- A label is not in the table exactly when no line defines it. -/
theorem Reads.get?_label_eq_none_iff (hd : d.Reads lines) {name : String} :
    d.labels.get? name = none ↔ ∀ i, ¬Holds lines i (.label name) := by
  rw [LabelTable.get?, List.lookup_eq_none_iff]
  constructor
  · intro h i hi
    have := h _ (hd.mem_defs_iff.mpr ⟨i, hi, rfl⟩)
    simp at this
  · rintro h ⟨name', def_⟩ hmem
    obtain ⟨i, hi, -⟩ := hd.mem_defs_iff.mp hmem
    rw [bne_iff_ne]
    rintro rfl
    exact h i hi

/-- A pattern can be registered exactly when no line declares its text. -/
theorem Reads.find?_pattern_eq_none_iff (hd : d.Reads lines) {text : List Char} :
    d.patterns.patterns.find? (·.text == String.ofList text) = none ↔
      ∀ i, ¬Declares lines i text := by
  rw [List.find?_eq_none]
  constructor
  · intro h i hi
    obtain ⟨p, hp, htext, -⟩ := hd.exists_pattern_iff.mpr ⟨i, hi, rfl, rfl⟩
    apply h p hp
    rw [beq_iff_eq, ← String.toList_inj, htext, String.toList_ofList]
  · intro h p hp htext
    rw [beq_iff_eq, ← String.toList_inj, String.toList_ofList] at htext
    obtain ⟨i, hi, -⟩ := hd.exists_pattern_iff.mp ⟨p, hp, htext, rfl, rfl⟩
    exact h i hi

/-- A mnemonic can be bound exactly when no line gives it. -/
theorem Reads.find?_mnemonic_eq_none_iff (hd : d.Reads lines) {text : String} :
    d.mnemonics.bindings.find? (·.text == text) = none ↔
      ∀ i, ¬Holds lines i (.pragma .mnemonic text) := by
  rw [List.find?_eq_none]
  constructor
  · intro h i hi
    exact h ⟨text, .ofNat (addressAt lines i), i + 1⟩
      (hd.mem_bindings_iff.mpr ⟨i, hi, rfl, rfl⟩) (beq_self_eq_true text)
  · intro h m hm htext
    obtain ⟨i, hi, -⟩ := hd.mem_bindings_iff.mp hm
    rw [beq_iff_eq.mp htext] at hi
    exact h i hi

/-! ## one line -/

variable {raw : String}

/-- A draft reads a further line when each of its tables grows by what the line defines. -/
theorem Reads.snoc {d' : Draft} (hd : d.Reads lines)
    (hlabels : d'.labels.defs =
      ((label? raw).map fun name => (name, ⟨d.here, lines.length + 1⟩)).toList ++ d.labels.defs)
    (hpatterns : d'.patterns.patterns.map (fun p => (p.text.toList, p.entry, p.line)) =
      d.patterns.patterns.map (fun p => (p.text.toList, p.entry, p.line)) ++
        ((pattern? raw).map fun text => (text, d.here, lines.length + 1)).toList)
    (hmnemonics : d'.mnemonics.bindings =
      ((mnemonic? raw).map fun text => ⟨text, d.here, lines.length + 1⟩).toList ++
        d.mnemonics.bindings)
    (hslots : d'.slots.toList = d.slots.toList ++ (slot? raw (lines.length + 1)).toList)
    (htrace : d'.trace.toList = d.trace.toList ++
      [⟨Text.trimEndString raw, if emits raw then some d.here else none⟩]) :
    d'.Reads (lines ++ [raw]) where
  labels := by
    rw [hlabels, hd.labels, hd.here_eq, gather_append_singleton, List.reverse_append]
    cases label? raw <;> rfl
  patterns := by rw [hpatterns, hd.patterns, hd.here_eq, gather_append_singleton]
  mnemonics := by
    rw [hmnemonics, hd.mnemonics, hd.here_eq, gather_append_singleton, List.reverse_append]
    cases mnemonic? raw <;> rfl
  slots := by rw [hslots, hd.slots, gather_append_singleton]
  trace := by rw [htrace, hd.trace, hd.here_eq, gather_append_singleton]; rfl

/-- Reading a line: its content is taken in, and the trace gets the line. -/
theorem addLine_eq {content : Option Line} (h : Line.parse raw = .ok content) (n : Nat) :
    d.addLine n raw =
      (content.elim (.ok d) (d.addContent n raw)).map fun d' =>
        { d' with
          trace := d'.trace.push
            ⟨Text.trimEndString raw, if emits raw then some d.here else none⟩ } := by
  have hemits : emits raw = content.any Line.emits := by rw [emits, content?_of_parse h]
  rw [addLine, h, hemits]
  rfl

/-- A label is taken in exactly when it is new. -/
theorem addContent_label_iff {d' : Draft} {n : Nat} {name : String} :
    d.addContent n raw (.label name) = .ok d' ↔
      d.labels.get? name = none ∧
        d' = { d with labels := ⟨(name, ⟨d.here, n⟩) :: d.labels.defs⟩ } := by
  rw [addContent, bind_eq_ok_iff]
  constructor
  · rintro ⟨labels, hdefine, hpure⟩
    obtain ⟨hfresh, rfl⟩ := LabelTable.define_eq_ok_iff.mp hdefine
    exact ⟨hfresh, (Except.ok.inj hpure).symm⟩
  · rintro ⟨hfresh, rfl⟩
    exact ⟨_, LabelTable.define_eq_ok_iff.mpr ⟨hfresh, rfl⟩, rfl⟩

/-- A pattern is taken in exactly when its text is a new one. -/
theorem addContent_code_iff {d' : Draft} {n : Nat} {params : String} :
    d.addContent n raw (.pragma .code params) = .ok d' ↔
      ∃ p, OpcodePattern.parse params d.here n = .ok p ∧
        d.patterns.patterns.find? (·.text == p.text) = none ∧
        d' = { d with patterns := ⟨d.patterns.patterns ++ [p]⟩ } := by
  rw [addContent, addPragma, bind_eq_ok_iff]
  refine exists_congr fun p => and_congr_right fun _ => ?_
  rw [bind_eq_ok_iff]
  constructor
  · rintro ⟨patterns, hregister, hpure⟩
    obtain ⟨hfresh, rfl⟩ := PatternSet.register_eq_ok_iff.mp hregister
    exact ⟨hfresh, (Except.ok.inj hpure).symm⟩
  · rintro ⟨hfresh, rfl⟩
    exact ⟨_, PatternSet.register_eq_ok_iff.mpr ⟨hfresh, rfl⟩, rfl⟩

/-- A mnemonic is taken in exactly when it is new. -/
theorem addContent_mnemonic_iff {d' : Draft} {n : Nat} {text : String} :
    d.addContent n raw (.pragma .mnemonic text) = .ok d' ↔
      d.mnemonics.bindings.find? (·.text == text) = none ∧
        d' = { d with mnemonics := ⟨⟨text, d.here, n⟩ :: d.mnemonics.bindings⟩ } := by
  rw [addContent, addPragma, bind_eq_ok_iff]
  constructor
  · rintro ⟨mnemonics, hbind, hpure⟩
    obtain ⟨hfresh, rfl⟩ := MnemonicTable.bind_eq_ok_iff.mp hbind
    exact ⟨hfresh, (Except.ok.inj hpure).symm⟩
  · rintro ⟨hfresh, rfl⟩
    exact ⟨_, MnemonicTable.bind_eq_ok_iff.mpr ⟨hfresh, rfl⟩, rfl⟩

/-- A line that may follow the lines before it is taken in. -/
theorem exists_addLine (hd : d.Reads lines) (hfollows : Follows lines raw) :
    ∃ d', d.addLine (lines.length + 1) raw = .ok d' ∧ d'.Reads (lines ++ [raw]) := by
  obtain ⟨content, hparse⟩ := hfollows.readable
  have hcontent := content?_of_parse hparse
  rw [addLine_eq hparse]
  -- once the content is taken in, each table has grown by what the line defines
  rcases content with _ | name | ⟨p, params⟩ | ⟨kind, label⟩ | w
  · refine ⟨_, rfl, ?_⟩
    apply hd.snoc <;> simp [label?, pattern?, mnemonic?, slot?, hcontent]
  · have hfresh := hd.get?_label_eq_none_iff.mpr (hfollows.label_fresh name hparse)
    rw [Option.elim_some, addContent_label_iff.mpr ⟨hfresh, rfl⟩]
    refine ⟨_, rfl, ?_⟩
    apply hd.snoc <;> simp [label?, pattern?, mnemonic?, slot?, hcontent]
  · cases p with
    | code =>
        obtain ⟨pattern, hpattern⟩ : ∃ pattern, OpcodePattern.parse params d.here
            (lines.length + 1) = .ok pattern := by
          have hvalid := hfollows.pattern_valid params hparse
          refine ⟨⟨String.ofList (PatternText.unquoted params), d.here, lines.length + 1, ?_⟩, ?_⟩
          · rw [String.toList_ofList, hvalid.1]
          · exact OpcodePattern.parse_eq_ok_iff.mpr ⟨hvalid, rfl, rfl, rfl⟩
        obtain ⟨-, htext, hentry, hnumber⟩ := OpcodePattern.parse_eq_ok_iff.mp hpattern
        have hfresh := hd.find?_pattern_eq_none_iff.mpr (hfollows.pattern_fresh params hparse)
        rw [← htext] at hfresh
        rw [Option.elim_some, addContent_code_iff.mpr ⟨pattern, hpattern, hfresh, rfl⟩]
        refine ⟨_, rfl, ?_⟩
        apply hd.snoc <;>
          simp [label?, pattern?, mnemonic?, slot?, hcontent, htext, hentry, hnumber]
    | mnemonic =>
        have hfresh := hd.find?_mnemonic_eq_none_iff.mpr (hfollows.mnemonic_fresh params hparse)
        rw [Option.elim_some, addContent_mnemonic_iff.mpr ⟨hfresh, rfl⟩]
        refine ⟨_, rfl, ?_⟩
        apply hd.snoc <;> simp [label?, pattern?, mnemonic?, slot?, hcontent]
    | reset | fetch | halt =>
        refine ⟨_, rfl, ?_⟩
        apply hd.snoc <;> simp [label?, pattern?, mnemonic?, slot?, hcontent]
  · rw [Option.elim_some, addContent, MicroWord.openJump_eq]
    refine ⟨_, rfl, ?_⟩
    apply hd.snoc <;> simp [label?, pattern?, mnemonic?, slot?, hcontent]
  · refine ⟨_, rfl, ?_⟩
    apply hd.snoc <;> simp [label?, pattern?, mnemonic?, slot?, hcontent]

/-- A line that is taken in was readable, and so was its content. -/
theorem exists_addContent_of_addLine {d' : Draft} {n : Nat} (h : d.addLine n raw = .ok d') :
    ∃ content, Line.parse raw = .ok content ∧
      ∃ d'', content.elim (.ok d) (d.addContent n raw) = .ok d'' := by
  cases hparse : Line.parse raw with
  | error e => rw [addLine, hparse] at h; contradiction
  | ok content =>
      rw [addLine_eq hparse] at h
      obtain ⟨d'', hd'', -⟩ := map_eq_ok_iff.mp h
      exact ⟨content, rfl, d'', hd''⟩

/-- A line that is taken in may follow the lines before it. -/
theorem follows_of_addLine {d' : Draft} {n : Nat} (hd : d.Reads lines)
    (h : d.addLine n raw = .ok d') : Follows lines raw := by
  obtain ⟨content, hparse, d'', hadd⟩ := exists_addContent_of_addLine h
  have hcontent : ∀ line, Line.parse raw = .ok (some line) →
      d.addContent n raw line = .ok d'' := by
    intro line hline
    obtain rfl : content = some line := Except.ok.inj (hparse.symm.trans hline)
    exact hadd
  refine ⟨⟨content, hparse⟩, ?_, ?_, ?_, ?_⟩
  · intro params hline
    obtain ⟨pattern, hpattern, -⟩ := addContent_code_iff.mp (hcontent _ hline)
    exact (OpcodePattern.parse_eq_ok_iff.mp hpattern).1
  · intro name hline
    exact hd.get?_label_eq_none_iff.mp (addContent_label_iff.mp (hcontent _ hline)).1
  · intro params hline
    obtain ⟨pattern, hpattern, hfresh, -⟩ := addContent_code_iff.mp (hcontent _ hline)
    rw [(OpcodePattern.parse_eq_ok_iff.mp hpattern).2.1] at hfresh
    exact hd.find?_pattern_eq_none_iff.mp hfresh
  · intro text hline
    exact hd.find?_mnemonic_eq_none_iff.mp (addContent_mnemonic_iff.mp (hcontent _ hline)).1

/-- A label is refused when an earlier line defines it. -/
theorem Reads.refuses_of_define (hd : d.Reads lines) {n : Nat} {name : String} {e : LineError}
    (hparse : Line.parse raw = .ok (some (.label name)))
    (h : d.labels.define name d.here n = .error e) : Refuses lines raw e := by
  obtain ⟨earlier, hget, rfl⟩ := LabelTable.define_eq_error_iff.mp h
  obtain ⟨i, hi, rfl⟩ := hd.mem_defs_iff.mp (LabelTable.mem_defs_of_get? hget)
  exact .duplicateLabel hparse hi

/-- A pattern is refused when an earlier line declares it. -/
theorem Reads.refuses_of_register (hd : d.Reads lines) {n : Nat} {params : String}
    {p : OpcodePattern} {e : LineError}
    (hparse : Line.parse raw = .ok (some (.pragma .code params)))
    (hp : OpcodePattern.parse params d.here n = .ok p) (h : d.patterns.register p = .error e) :
    Refuses lines raw e := by
  obtain ⟨earlier, hfind, rfl⟩ := PatternSet.register_eq_error_iff.mp h
  have htext : earlier.text = p.text := by simpa using List.find?_some hfind
  obtain ⟨i, hi, -, hline⟩ := hd.exists_pattern_iff.mp
    ⟨earlier, List.mem_of_find?_eq_some hfind, rfl, rfl, rfl⟩
  rw [(OpcodePattern.parse_eq_ok_iff.mp hp).2.1] at htext ⊢
  rw [htext, String.toList_ofList] at hi
  rw [hline]
  exact .duplicatePattern hparse hi

/-- A mnemonic is refused when an earlier line gives it. -/
theorem Reads.refuses_of_bind (hd : d.Reads lines) {n : Nat} {text : String} {e : LineError}
    (hparse : Line.parse raw = .ok (some (.pragma .mnemonic text)))
    (h : d.mnemonics.bind text d.here n = .error e) : Refuses lines raw e := by
  obtain ⟨earlier, hfind, rfl⟩ := MnemonicTable.bind_eq_error_iff.mp h
  have htext : earlier.text = text := by simpa using List.find?_some hfind
  obtain ⟨i, hi, -, hline⟩ := hd.mem_bindings_iff.mp (List.mem_of_find?_eq_some hfind)
  rw [htext] at hi
  rw [hline]
  exact .duplicateMnemonic hparse hi

/-- A line that is read, but not taken in, repeats an earlier line or is no pattern. -/
theorem Reads.refuses_of_addContent (hd : d.Reads lines) {n : Nat} {line : Line} {e : LineError}
    (hparse : Line.parse raw = .ok (some line)) (h : d.addContent n raw line = .error e) :
    Refuses lines raw e := by
  cases line with
  | label name =>
      rw [addContent, bind_eq_error_iff] at h
      obtain hdefine | ⟨labels, -, hpure⟩ := h
      · exact hd.refuses_of_define hparse hdefine
      · contradiction
  | pragma p params =>
      rw [addContent] at h
      cases p with
      | code =>
          rw [addPragma, bind_eq_error_iff] at h
          obtain hpattern | ⟨p, hp, hrest⟩ := h
          · obtain ⟨hinvalid, rfl⟩ := OpcodePattern.parse_eq_error_iff.mp hpattern
            exact .invalidPattern hparse hinvalid
          · obtain hregister | ⟨patterns, -, hpure⟩ := bind_eq_error_iff.mp hrest
            · exact hd.refuses_of_register hparse hp hregister
            · contradiction
      | mnemonic =>
          rw [addPragma, bind_eq_error_iff] at h
          obtain hbind | ⟨mnemonics, -, hpure⟩ := h
          · exact hd.refuses_of_bind hparse hbind
          · contradiction
      | reset => rw [addPragma] at h; contradiction
      | fetch => rw [addPragma] at h; contradiction
      | halt => rw [addPragma] at h; contradiction
  | jump kind label =>
      rw [addContent, MicroWord.openJump_eq] at h
      contradiction
  | word w => rw [addContent] at h; contradiction

/-- A line is refused for what stands on it and on the lines before it. -/
theorem Reads.refuses_of_addLine (hd : d.Reads lines) {n : Nat} {e : LineError}
    (h : d.addLine n raw = .error e) : Refuses lines raw e := by
  cases hparse : Line.parse raw with
  | error e' =>
      rw [addLine, hparse] at h
      rw [← Except.error.inj h]
      exact .unreadable hparse
  | ok content =>
      rw [addLine_eq hparse, map_eq_error_iff] at h
      cases content with
      | none => contradiction
      | some line => exact hd.refuses_of_addContent hparse h

/-! ## all lines -/

/-- The lines are read from left to right. -/
theorem ofLines_append_singleton (lines : List String) (raw : String) :
    ofLines (lines ++ [raw]) =
      ofLines lines >>= fun d =>
        (d.addLine (lines.length + 1) raw).mapError (.ofLine (lines.length + 1) raw) := by
  rw [ofLines, List.zipIdx_append, List.foldlM_append, Nat.add_comm 1]
  refine bind_congr fun d => ?_
  rw [List.zipIdx_cons, List.zipIdx_nil, List.foldlM_cons]
  simp only [List.foldlM_nil]
  exact bind_pure _

/-- The draft of the first pass is the one that the lines describe. -/
theorem reads_of_ofLines {lines : List String} {d : Draft} (h : ofLines lines = .ok d) :
    d.Reads lines := by
  induction lines using List.reverseRecOn generalizing d with
  | nil =>
      rw [← Except.ok.inj h]
      exact ⟨rfl, rfl, rfl, rfl, rfl⟩
  | append_singleton lines raw ih =>
      rw [ofLines_append_singleton] at h
      obtain ⟨d', hd', hadd⟩ := bind_eq_ok_iff.mp h
      have hreads := ih hd'
      rw [mapError_eq_ok_iff] at hadd
      obtain ⟨d'', hd'', hreads'⟩ := exists_addLine hreads (follows_of_addLine hreads hadd)
      rw [hadd] at hd''
      rw [Except.ok.inj hd'']
      exact hreads'

/-- The first pass succeeds exactly for well-formed sources. -/
theorem exists_ofLines_iff {lines : List String} :
    (∃ d, ofLines lines = .ok d) ↔ WellFormed lines := by
  induction lines using List.reverseRecOn with
  | nil => exact ⟨fun _ => wellFormed_nil, fun _ => ⟨{}, rfl⟩⟩
  | append_singleton lines raw ih =>
      rw [wellFormed_append_singleton, ofLines_append_singleton, ← ih]
      constructor
      · rintro ⟨d, h⟩
        obtain ⟨d', hd', hadd⟩ := bind_eq_ok_iff.mp h
        rw [mapError_eq_ok_iff] at hadd
        exact ⟨⟨d', hd'⟩, follows_of_addLine (reads_of_ofLines hd') hadd⟩
      · rintro ⟨⟨d', hd'⟩, hfollows⟩
        obtain ⟨d, hadd, -⟩ := exists_addLine (reads_of_ofLines hd') hfollows
        exact ⟨d, bind_eq_ok_iff.mpr ⟨d', hd', mapError_eq_ok_iff.mpr hadd⟩⟩

/-- The first pass fails at the first line that is refused after the lines before it. -/
theorem ofLines_eq_error_iff {lines : List String} {e : AsmError} :
    ofLines lines = .error e ↔
      ∃ i raw d cause, lines[i]? = some raw ∧ ofLines (lines.take i) = .ok d ∧
        d.addLine (i + 1) raw = .error cause ∧ e = .ofLine (i + 1) raw cause := by
  induction lines using List.reverseRecOn with
  | nil =>
      constructor
      · intro h
        contradiction
      · rintro ⟨i, raw, d, cause, hraw, -⟩
        simp at hraw
  | append_singleton lines last ih =>
      rw [ofLines_append_singleton, bind_eq_error_iff, ih]
      simp only [mapError_eq_error_iff]
      constructor
      · rintro (⟨i, raw, d, cause, hraw, hd, hcause, he⟩ | ⟨d, hd, cause, hcause, he⟩)
        · have hi := (List.getElem?_eq_some_iff.mp hraw).1
          refine ⟨i, raw, d, cause, ?_, ?_, hcause, he⟩
          · rw [List.getElem?_append_left hi, hraw]
          · rw [List.take_append_of_le_length (Nat.le_of_lt hi), hd]
        · exact ⟨lines.length, last, d, cause, by simp, by simpa using hd, hcause, he.symm⟩
      · rintro ⟨i, raw, d, cause, hraw, hd, hcause, he⟩
        have hle : i ≤ lines.length := by
          have := (List.getElem?_eq_some_iff.mp hraw).1
          rw [List.length_append, List.length_singleton] at this
          omega
        rw [List.take_append_of_le_length hle] at hd
        rcases Nat.lt_or_eq_of_le hle with hlt | rfl
        · rw [List.getElem?_append_left hlt] at hraw
          exact .inl ⟨i, raw, d, cause, hraw, hd, hcause, he⟩
        · obtain rfl : last = raw := by simpa using hraw
          rw [List.take_length] at hd
          exact .inr ⟨d, hd, cause, hcause, he.symm⟩

/-- The first pass fails with an error of a line that is not the packer's. -/
theorem ofLines_eq_error {lines : List String} {e : AsmError} (h : ofLines lines = .error e) :
    ∃ line text cause, e = .source line text cause ∧ cause.kind ≠ .encodingOverflow := by
  obtain ⟨i, raw, d, cause, -, hd, hadd, rfl⟩ := ofLines_eq_error_iff.mp h
  exact ⟨_, _, cause, rfl, ((reads_of_ofLines hd).refuses_of_addLine hadd).kind_ne⟩

end Draft

end Microcode

import Microcode.Proofs.Assembly.Outcome

/-!
# Microcode.Proofs.Assembly.Renumbering

Nothing is decided by the numbers of lines.

A draft remembers for everything it holds which line it comes from, and errors name these lines.  When
the same lines are read under other numbers, two drafts are built side by side that differ in the
numbers only (`Draft.Renumbers`): a line keeps it so (`Draft.Renumbers.addLine`), and hence any number
of lines does (`Draft.Renumbers.addLines`).  The second pass then ends alike on both of them, up to
the numbers in its errors (`Draft.Renumbers.finish`).  In one place a number is looked up again: the
text of a line that an ambiguity is blamed on is found by its number.
-/

namespace Microcode

open Result Source

variable {f : Nat → Nat}

/-! ## errors -/

namespace LineError

/-- The error with other numbers for the lines that it names. -/
def renumber (f : Nat → Nat) : LineError → LineError
  | .duplicateLabel name line => .duplicateLabel name (f line)
  | .duplicatePattern text line => .duplicatePattern text (f line)
  | .duplicateMnemonic text line => .duplicateMnemonic text (f line)
  | .ambiguousOpcode opcode first line second => .ambiguousOpcode opcode first (f line) second
  | e => e

/-- An error that is about its line alone names no line. -/
theorem renumber_of_unreadable {e : LineError} (h : e.unreadable = true) : e.renumber f = e := by
  cases e <;> simp_all [renumber, unreadable]

end LineError

def PendingJump.renumber (f : Nat → Nat) (jump : PendingJump) : PendingJump :=
  { jump with line := f jump.line }

/-- The error with other numbers for the lines that it names. -/
def AsmError.renumber (f : Nat → Nat) : AsmError → AsmError
  | .source line text cause => .source (f line) text (cause.renumber f)
  | .undefinedLabels jumps => .undefinedLabels (jumps.map (·.renumber f))
  | e => e

/-! ## labels -/

def LabelDef.renumber (f : Nat → Nat) (def_ : LabelDef) : LabelDef :=
  { def_ with line := f def_.line }

namespace LabelTable

def renumber (f : Nat → Nat) (t : LabelTable) : LabelTable :=
  ⟨t.defs.map fun (name, def_) => (name, def_.renumber f)⟩

variable (t : LabelTable) (name : String)

@[simp] theorem get?_renumber : (t.renumber f).get? name = (t.get? name).map (·.renumber f) := by
  obtain ⟨defs⟩ := t
  simp only [renumber, get?]
  induction defs with
  | nil => rfl
  | cons head defs ih =>
      obtain ⟨key, def_⟩ := head
      simp only [List.map_cons, List.lookup_cons, ih]
      cases name == key <;> rfl

@[simp] theorem address?_renumber : (t.renumber f).address? name = t.address? name := by
  simp [address?, Function.comp_def, LabelDef.renumber]

theorem related_define (address : UInt16) (line : Nat) :
    Related (·.renumber f = ·) (·.renumber f = ·) (t.define name address line)
      ((t.renumber f).define name address (f line)) := by
  unfold define
  rw [get?_renumber]
  cases t.get? name with
  | none => exact .ok rfl
  | some earlier => exact .error rfl

end LabelTable

/-! ## opcode patterns -/

namespace OpcodePattern

def renumber (f : Nat → Nat) (p : OpcodePattern) : OpcodePattern := { p with line := f p.line }

variable (p : OpcodePattern)

@[simp] theorem text_renumber : (p.renumber f).text = p.text := rfl

@[simp] theorem entry_renumber : (p.renumber f).entry = p.entry := rfl

@[simp] theorem cost_renumber : (p.renumber f).cost = p.cost := rfl

@[simp] theorem covers_renumber (opcode : UInt8) : (p.renumber f).covers opcode = p.covers opcode :=
  rfl

theorem related_parse (params : String) (entry : UInt16) (line : Nat) :
    Related (LineError.renumber f · = ·) (·.renumber f = ·) (parse params entry line)
      (parse params entry (f line)) := by
  unfold parse
  simp only
  split
  · exact .ok rfl
  · exact .error rfl

end OpcodePattern

def Ambiguity.renumber (f : Nat → Nat) (a : Ambiguity) : Ambiguity :=
  { a with first := a.first.renumber f, second := a.second.renumber f }

namespace PatternSet

def renumber (f : Nat → Nat) (s : PatternSet) : PatternSet := ⟨s.patterns.map (·.renumber f)⟩

variable (s : PatternSet)

theorem related_register (p : OpcodePattern) :
    Related (·.renumber f = ·) (·.renumber f = ·) (s.register p)
      ((s.renumber f).register (p.renumber f)) := by
  have hfind : (s.renumber f).patterns.find? (·.text == (p.renumber f).text) =
      (s.patterns.find? (·.text == p.text)).map (·.renumber f) := by
    simp [renumber, List.find?_map, Function.comp_def]
  unfold register
  rw [hfind]
  cases s.patterns.find? (·.text == p.text) with
  | none => exact .ok (by simp [renumber])
  | some earlier => exact .error rfl

/-- Which patterns are the cheapest does not depend on where they stand. -/
theorem cheapest_renumber (opcode : UInt8) :
    (s.renumber f).cheapest opcode = (s.cheapest opcode).map (·.renumber f) := by
  simp only [cheapest, renumber, List.filter_map, List.map_map, Function.comp_def,
    OpcodePattern.covers_renumber, OpcodePattern.cost_renumber]
  split <;> rfl

/-- Nor does the decode table. -/
theorem decodeTable_renumber (tie : TieBreak) :
    (s.renumber f).decodeTable tie = (s.decodeTable tie).mapError (·.renumber f) := by
  rcases ok_or_error (s.decodeTable tie) with ⟨t, ht⟩ | ⟨a, ha⟩
  · rw [ht]
    obtain ⟨hsingle, hentries⟩ := decodeTable_eq_ok_iff.mp ht
    refine decodeTable_eq_ok_iff.mpr ⟨by simpa [cheapest_renumber] using hsingle, ?_⟩
    simp [hentries, entry?, cheapest_renumber, Function.comp_def]
  · rw [ha]
    obtain ⟨htie, ⟨rest, hcheap⟩, hbefore⟩ := decodeTable_eq_error_iff.mp ha
    refine decodeTable_eq_error_iff.mpr ⟨htie, ⟨rest.map (·.renumber f), ?_⟩, fun opcode hlt => ?_⟩
    · show (s.renumber f).cheapest a.opcode = _
      rw [cheapest_renumber, hcheap]
      rfl
    · rw [cheapest_renumber, List.length_map]
      exact hbefore opcode hlt

end PatternSet

/-! ## mnemonics -/

namespace MnemonicTable

def renumber (f : Nat → Nat) (t : MnemonicTable) : MnemonicTable :=
  ⟨t.bindings.map fun m => { m with line := f m.line }⟩

variable (t : MnemonicTable)

@[simp] theorem get?_renumber (address : UInt16) : (t.renumber f).get? address = t.get? address := by
  simp [get?, renumber, List.find?_map, Function.comp_def]

theorem related_bind (text : String) (address : UInt16) (line : Nat) :
    Related (·.renumber f = ·) (·.renumber f = ·) (t.bind text address line)
      ((t.renumber f).bind text address (f line)) := by
  have hfind : (t.renumber f).bindings.find? (·.text == text) =
      (t.bindings.find? (·.text == text)).map fun m => { m with line := f m.line } := by
    rw [renumber, List.find?_map]
    rfl
  unfold MnemonicTable.bind
  rw [hfind]
  cases t.bindings.find? (·.text == text) with
  | none => exact .ok rfl
  | some earlier => exact .error rfl

end MnemonicTable

/-! ## slots -/

namespace Slot

def renumber (f : Nat → Nat) (slot : Slot) : Slot :=
  { slot with line := f slot.line, pending := slot.pending.map (·.renumber f) }

/-- Slots that are patched alike, and wait for the same labels up to what is said of the jumps, are
resolved alike. -/
theorem resolve_map {labels labels' : LabelTable} {g : Slot → Slot} {j : PendingJump → PendingJump}
    {k : AsmError → AsmError} (hpatch : ∀ slot, (g slot).patch labels' = slot.patch labels)
    (hundefined : ∀ slot, (g slot).undefined? labels' = (slot.undefined? labels).map j)
    (hencoding : ∀ e, k (.encoding e) = .encoding e)
    (hjumps : ∀ jumps, k (.undefinedLabels jumps) = .undefinedLabels (jumps.map j))
    (slots : List Slot) :
    resolve labels' (slots.map g) = (resolve labels slots).mapError k := by
  have hwords : (slots.map g).mapM (patch labels') = slots.mapM (patch labels) := by
    rw [List.mapM_map]
    exact congrArg (slots.mapM ·) (funext hpatch)
  have hwaiting : (slots.map g).filterMap (undefined? labels') =
      (slots.filterMap (undefined? labels)).map j := by
    rw [List.filterMap_map, List.map_filterMap]
    exact congrArg (slots.filterMap ·) (funext hundefined)
  rw [resolve_eq, resolve_eq, hwords, hwaiting]
  cases slots.mapM (patch labels) with
  | error e => exact congrArg Except.error (hencoding e).symm
  | ok words =>
      cases slots.filterMap (undefined? labels) with
      | nil => rfl
      | cons jump jumps => exact congrArg Except.error (hjumps (jump :: jumps)).symm

variable (labels : LabelTable) (slot : Slot)

@[simp] theorem patch_renumber : (slot.renumber f).patch (labels.renumber f) = slot.patch labels := by
  have htarget : (slot.renumber f).target? (labels.renumber f) = slot.target? labels := by
    unfold target? renumber
    cases slot.pending with
    | none => rfl
    | some jump => exact labels.address?_renumber jump.label
  rw [patch, htarget, patch]
  rfl

@[simp] theorem undefined?_renumber :
    (slot.renumber f).undefined? (labels.renumber f) =
      (slot.undefined? labels).map (·.renumber f) := by
  simp [undefined?, renumber, Option.filter_map, Function.comp_def, PendingJump.renumber]

/-- The jumps are resolved alike. -/
theorem resolve_renumber (slots : List Slot) :
    resolve (labels.renumber f) (slots.map (·.renumber f)) =
      (resolve labels slots).mapError (·.renumber f) :=
  resolve_map (patch_renumber labels) (undefined?_renumber labels) (fun _ => rfl) (fun _ => rfl) slots

end Slot

/-! ## drafts -/

/-- The second draft is the first one with other line numbers; what they show of the lines in their
traces may differ. -/
structure Draft.Renumbers (f : Nat → Nat) (d d' : Draft) : Prop where
  labels : d.labels.renumber f = d'.labels
  patterns : d.patterns.renumber f = d'.patterns
  mnemonics : d.mnemonics.renumber f = d'.mnemonics
  slots : d.slots.map (·.renumber f) = d'.slots

/-- The second assembly is the first one with other line numbers, apart from the trace. -/
structure Assembly.Renumbers (f : Nat → Nat) (asm asm' : Assembly) : Prop where
  program : asm.program = asm'.program
  authored : asm.authored = asm'.authored
  labels : asm.labels.renumber f = asm'.labels
  patterns : asm.patterns.renumber f = asm'.patterns
  decode : asm.decode = asm'.decode
  mnemonics : asm.mnemonics.renumber f = asm'.mnemonics

namespace Draft

/-- Reads lines that are numbered from `n` on. -/
def addLines (d : Draft) (n : Nat) (lines : List String) : Except AsmError Draft :=
  (lines.zipIdx n).foldlM
    (fun d (raw, line) => (d.addLine line raw).mapError (.ofLine line raw)) d

theorem ofLines_eq_addLines (lines : List String) : ofLines lines = addLines {} 1 lines := rfl

theorem addLines_cons (d : Draft) (n : Nat) (raw : String) (lines : List String) :
    d.addLines n (raw :: lines) =
      (d.addLine n raw).mapError (.ofLine n raw) >>= fun d => d.addLines (n + 1) lines := by
  rw [addLines, List.zipIdx_cons, List.foldlM_cons]
  rfl

theorem addLines_append (d : Draft) (n : Nat) (lines more : List String) :
    d.addLines n (lines ++ more) =
      d.addLines n lines >>= fun d => d.addLines (n + lines.length) more := by
  rw [addLines, List.zipIdx_append, List.foldlM_append]
  rfl

namespace Renumbers

variable {d d' : Draft}

theorem size_slots (h : d.Renumbers f d') : d'.slots.size = d.slots.size := by
  rw [← h.slots, Array.size_map]

theorem here_eq (h : d.Renumbers f d') : d'.here = d.here := by
  rw [here, here, h.size_slots]

/-- What stands on a line is taken in alike. -/
theorem addContent (h : d.Renumbers f d') (n : Nat) (raw : String) (line : Line) :
    Related (·.renumber f = ·) (Renumbers f) (d.addContent n raw line)
      (d'.addContent (f n) raw line) := by
  cases line with
  | label name =>
      simp only [Draft.addContent, h.here_eq, ← h.labels]
      exact (LabelTable.related_define _ _ _ _).bind fun _ _ hlabels => .ok { h with labels := hlabels }
  | pragma p params =>
      cases p with
      | code =>
          simp only [Draft.addContent, addPragma, h.here_eq, ← h.patterns]
          refine (OpcodePattern.related_parse _ _ _).bind ?_
          rintro p _ rfl
          exact (PatternSet.related_register _ p).bind fun _ _ hpatterns =>
            .ok { h with patterns := hpatterns }
      | mnemonic =>
          simp only [Draft.addContent, addPragma, h.here_eq, ← h.mnemonics]
          exact (MnemonicTable.related_bind _ _ _ _).bind fun _ _ hmnemonics =>
            .ok { h with mnemonics := hmnemonics }
      | reset => exact .ok h
      | fetch => exact .ok h
      | halt => exact .ok h
  | jump kind label =>
      simp only [Draft.addContent, MicroWord.openJump_eq]
      exact .ok { h with slots := by simp [← h.slots, Slot.renumber, PendingJump.renumber] }
  | word w => exact .ok { h with slots := by simp [← h.slots, Slot.renumber] }

/-- A line is taken in alike. -/
theorem addLine (h : d.Renumbers f d') (n : Nat) (raw : String) :
    Related (·.renumber f = ·) (Renumbers f) (d.addLine n raw) (d'.addLine (f n) raw) := by
  cases hparse : Line.parse raw with
  | error e =>
      rw [Draft.addLine, Draft.addLine, hparse]
      exact .error (LineError.renumber_of_unreadable (Line.unreadable_of_parse_eq_error hparse))
  | ok content =>
      have hcontent : Related (·.renumber f = ·) (Renumbers f)
          (content.elim (.ok d) (d.addContent n raw))
          (content.elim (.ok d') (d'.addContent (f n) raw)) := by
        cases content with
        | none => exact .ok h
        | some line => exact h.addContent n raw line
      rw [addLine_eq hparse, addLine_eq hparse]
      exact hcontent.map fun _ _ h => ⟨h.labels, h.patterns, h.mnemonics, h.slots⟩

/-- Any number of lines is taken in alike. -/
theorem addLines {lines : List String} (h : d.Renumbers f d') {n n' : Nat}
    (hf : ∀ i < lines.length, f (n + i) = n' + i) :
    Related (·.renumber f = ·) (Renumbers f) (d.addLines n lines) (d'.addLines n' lines) := by
  induction lines generalizing d d' n n' with
  | nil => exact .ok h
  | cons raw lines ih =>
      obtain rfl : f n = n' := hf 0 (by simp)
      rw [addLines_cons, addLines_cons]
      refine ((h.addLine n raw).mapError ?_).bind fun _ _ h => ih h fun i hi => ?_
      · rintro e _ rfl
        rfl
      · have hnext := hf (i + 1) (by simpa using hi)
        rw [Nat.add_assoc, Nat.add_comm 1, hnext]
        omega

variable {config : Config} {lines lines' : List String}

/-- The decode table is made alike, if the lines have the same texts under the new numbers. -/
theorem decodeTable (h : d.Renumbers f d')
    (htext : ∀ p ∈ d.patterns.patterns,
      lines'.getD (f p.line - 1) "" = lines.getD (p.line - 1) "") :
    d'.decodeTable config lines' = (d.decodeTable config lines).mapError (·.renumber f) := by
  rw [Draft.decodeTable, Draft.decodeTable, ← h.patterns, PatternSet.decodeTable_renumber]
  cases htable : d.patterns.decodeTable config.tieBreak with
  | ok t => rfl
  | error a =>
      obtain ⟨-, ⟨rest, hcheap⟩, -⟩ := PatternSet.decodeTable_eq_error_iff.mp htable
      have hmem : a.second ∈ d.patterns.patterns :=
        (d.patterns.cheapest_sublist a.opcode).subset (by simp [hcheap])
      have hsecond := htext a.second hmem
      simp only [Except.mapError, Ambiguity.renumber, OpcodePattern.renumber, hsecond]
      rfl

/-- The second pass ends alike. -/
theorem finish (h : d.Renumbers f d')
    (htext : ∀ p ∈ d.patterns.patterns,
      lines'.getD (f p.line - 1) "" = lines.getD (p.line - 1) "") :
    Related (·.renumber f = ·) (Assembly.Renumbers f) (d.finish config lines)
      (d'.finish config lines') := by
  have hresolve : Slot.resolve d'.labels d'.slots.toList =
      (Slot.resolve d.labels d.slots.toList).mapError (·.renumber f) := by
    rw [← h.labels, ← h.slots, Array.toList_map, Slot.resolve_renumber]
  rw [finish_eq, finish_eq, h.size_slots, hresolve, h.decodeTable htext]
  split
  · exact .error rfl
  · refine (Related.mapError_right _ _).bind ?_
    rintro code _ rfl
    refine (Related.mapError_right _ _).bind ?_
    rintro decode _ rfl
    cases Program.ofTable code decode with
    | error e => exact .error rfl
    | ok program =>
        exact .ok
          { program := rfl
            authored := h.size_slots.symm
            labels := h.labels
            patterns := h.patterns
            decode := rfl
            mnemonics := h.mnemonics }

end Renumbers

end Draft

end Microcode

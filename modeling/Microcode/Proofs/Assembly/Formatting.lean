import Microcode.Proofs.Assembly.Renumbering
import Microcode.Proofs.Line.Strip

/-!
# Microcode.Proofs.Assembly.Formatting

How the lines of a source are written does not matter.

Both passes look at a line only through what is read from it.  All else that is kept of a line is
its text, which errors and the trace show.  So two sources whose lines are read alike give drafts
that differ in such texts only (`Draft.Alike`): a line keeps it so (`Draft.Alike.addLine`), hence any
number of lines does (`Draft.Alike.addLines`), and the second pass ends alike
(`Draft.Alike.finish`).

Blanks around a line, comments behind it and carriage returns before line feeds leave what is read
from it as it is (`Source.Dressed.parse_eq`, `Source.Written.map_parse_linesOf`), so none of them
makes a difference (`assemble_dressed`).
-/

namespace Microcode

open Result Source

/-! ## without the texts of lines -/

def PendingJump.unquoted (jump : PendingJump) : PendingJump := { jump with text := "" }

/-- The error without the texts of the lines that it names. -/
def AsmError.unquoted : AsmError → AsmError
  | .source line _ cause => .source line "" cause
  | .undefinedLabels jumps => .undefinedLabels (jumps.map (·.unquoted))
  | e => e

namespace Slot

def unquoted (slot : Slot) : Slot := { slot with pending := slot.pending.map (·.unquoted) }

variable (labels : LabelTable) (slot : Slot)

@[simp] theorem patch_unquoted : slot.unquoted.patch labels = slot.patch labels := by
  have htarget : slot.unquoted.target? labels = slot.target? labels := by
    unfold target? unquoted
    cases slot.pending <;> rfl
  rw [patch, htarget, patch]
  rfl

@[simp] theorem undefined?_unquoted :
    slot.unquoted.undefined? labels = (slot.undefined? labels).map (·.unquoted) := by
  simp [undefined?, unquoted, Option.filter_map, Function.comp_def, PendingJump.unquoted]

/-- Texts play no part when jumps are resolved. -/
theorem resolve_unquoted (slots : List Slot) :
    resolve labels (slots.map (·.unquoted)) = (resolve labels slots).mapError (·.unquoted) :=
  resolve_map (patch_unquoted labels) (undefined?_unquoted labels) (fun _ => rfl) (fun _ => rfl) slots

end Slot

/-! ## drafts -/

/-- The drafts differ in the texts of lines only. -/
structure Draft.Alike (d d' : Draft) : Prop where
  labels : d.labels = d'.labels
  patterns : d.patterns = d'.patterns
  mnemonics : d.mnemonics = d'.mnemonics
  slots : d.slots.map (·.unquoted) = d'.slots.map (·.unquoted)
  trace : d.trace.map (·.address) = d'.trace.map (·.address)

/-- The assemblies differ in the texts of lines only, which their traces show. -/
structure Assembly.Alike (asm asm' : Assembly) : Prop where
  program : asm.program = asm'.program
  authored : asm.authored = asm'.authored
  labels : asm.labels = asm'.labels
  patterns : asm.patterns = asm'.patterns
  decode : asm.decode = asm'.decode
  mnemonics : asm.mnemonics = asm'.mnemonics
  trace : asm.trace.map (·.address) = asm'.trace.map (·.address)

namespace Draft.Alike

variable {d d' : Draft} {raw raw' : String}

theorem size_slots (h : d.Alike d') : d.slots.size = d'.slots.size := by
  have hsize := congrArg Array.size h.slots
  rwa [Array.size_map, Array.size_map] at hsize

theorem here_eq (h : d.Alike d') : d.here = d'.here := by
  rw [here, here, h.size_slots]

/-- What stands on a line is taken in alike, whatever the text of the line is. -/
theorem addContent (h : d.Alike d') (n : Nat) (raw raw' : String) (line : Line) :
    Related (· = ·) Alike (d.addContent n raw line) (d'.addContent n raw' line) := by
  cases line with
  | label name =>
      simp only [Draft.addContent, h.here_eq, h.labels]
      refine (Related.refl _).bind ?_
      rintro labels _ rfl
      exact .ok { h with labels := rfl }
  | pragma p params =>
      cases p with
      | code =>
          simp only [Draft.addContent, addPragma, h.here_eq, h.patterns]
          refine (Related.refl _).bind ?_
          rintro p _ rfl
          refine (Related.refl _).bind ?_
          rintro patterns _ rfl
          exact .ok { h with patterns := rfl }
      | mnemonic =>
          simp only [Draft.addContent, addPragma, h.here_eq, h.mnemonics]
          refine (Related.refl _).bind ?_
          rintro mnemonics _ rfl
          exact .ok { h with mnemonics := rfl }
      | reset => exact .ok h
      | fetch => exact .ok h
      | halt => exact .ok h
  | jump kind label =>
      simp only [Draft.addContent, MicroWord.openJump_eq]
      exact .ok { h with slots := by rw [Array.map_push, Array.map_push, h.slots]; rfl }
  | word w => exact .ok { h with slots := by rw [Array.map_push, Array.map_push, h.slots] }

/-- Lines that are read alike are taken in alike. -/
theorem addLine (h : d.Alike d') (hparse : Line.parse raw = Line.parse raw') (n : Nat) :
    Related (· = ·) Alike (d.addLine n raw) (d'.addLine n raw') := by
  have hemits : emits raw = emits raw' := by rw [emits, emits, content?, content?, hparse]
  cases hcontent : Line.parse raw' with
  | error e =>
      rw [Draft.addLine, Draft.addLine, hparse, hcontent]
      exact .error rfl
  | ok content =>
      have hadd : Related (· = ·) Alike (content.elim (.ok d) (d.addContent n raw))
          (content.elim (.ok d') (d'.addContent n raw')) := by
        cases content with
        | none => exact .ok h
        | some line => exact h.addContent n raw raw' line
      rw [addLine_eq (hparse.trans hcontent), addLine_eq hcontent, hemits, h.here_eq]
      refine hadd.map fun e e' he => { he with trace := ?_ }
      simp [he.trace]

/-- Any number of lines that are read alike is taken in alike, up to the texts that an error
quotes. -/
theorem addLines {lines lines' : List String} (h : d.Alike d')
    (hlines : lines.map Line.parse = lines'.map Line.parse) (n : Nat) :
    Related (fun e e' => e.unquoted = e'.unquoted) Alike (d.addLines n lines)
      (d'.addLines n lines') := by
  induction lines generalizing d d' n lines' with
  | nil =>
      obtain rfl : lines' = [] := by simpa using hlines.symm
      exact .ok h
  | cons raw lines ih =>
      obtain ⟨raw', rest', rfl, hparse, hrest⟩ := List.map_eq_cons_iff.mp hlines.symm
      rw [addLines_cons, addLines_cons]
      refine ((h.addLine hparse.symm n).mapError ?_).bind fun _ _ h => ih h hrest.symm (n + 1)
      rintro e _ rfl
      rfl

variable {config : Config}

/-- The second pass ends alike, up to the texts that an error quotes. -/
theorem finish (h : d.Alike d') (lines lines' : List String) :
    Related (fun e e' => e.unquoted = e'.unquoted) Assembly.Alike (d.finish config lines)
      (d'.finish config lines') := by
  have hresolve : Related (fun e e' => e.unquoted = e'.unquoted) (· = ·)
      (Slot.resolve d.labels d.slots.toList) (Slot.resolve d'.labels d'.slots.toList) := by
    have hslots := congrArg Array.toList h.slots
    rw [Array.toList_map, Array.toList_map] at hslots
    refine .of_mapError_eq ?_
    rw [← Slot.resolve_unquoted, ← Slot.resolve_unquoted, hslots, h.labels]
  have hdecode : Related (fun e e' => e.unquoted = e'.unquoted) (· = ·)
      (d.decodeTable config lines) (d'.decodeTable config lines') := by
    rw [Draft.decodeTable, Draft.decodeTable, h.patterns]
    refine (Related.refl _).mapError ?_
    rintro a _ rfl
    rfl
  have htrace : d.trace.toList.map (·.address) = d'.trace.toList.map (·.address) := by
    simpa using congrArg Array.toList h.trace
  rw [finish_eq, finish_eq, h.size_slots]
  split
  · exact .error rfl
  · refine hresolve.bind ?_
    rintro code _ rfl
    refine hdecode.bind ?_
    rintro decode _ rfl
    cases Program.ofTable code decode with
    | error e => exact .error rfl
    | ok program =>
        exact .ok
          { program := rfl
            authored := h.size_slots
            labels := h.labels
            patterns := h.patterns
            decode := rfl
            mnemonics := h.mnemonics
            trace := htrace }

end Draft.Alike

/-- Sources whose lines are read alike assemble alike, up to the texts that an error quotes. -/
theorem assembleLines_congr {config : Config} {lines lines' : List String}
    (h : lines.map Line.parse = lines'.map Line.parse) :
    Related (fun e e' => e.unquoted = e'.unquoted) Assembly.Alike (assembleLines config lines)
      (assembleLines config lines') := by
  have hstart : Draft.Alike {} {} := ⟨rfl, rfl, rfl, rfl, rfl⟩
  exact (hstart.addLines h 1).bind fun _ _ hd => hd.finish lines lines'

/-! ## blanks, comments and line ends -/

namespace Source

/-- Blanks that can stand on a line. -/
def IsPadding (s : String) : Prop := ∀ c ∈ s.toList, Text.isBlank c = true ∧ c ≠ '\n'

/-- The second line is the first one with blanks around it, and perhaps a comment behind them. -/
inductive Dressed (line : String) : String → Prop
  | blanks {p q : String} (hp : IsPadding p) (hq : IsPadding q) : Dressed line (p ++ line ++ q)
  /-- The comment must not find a slash before it. -/
  | comment {p q c : String} (hp : IsPadding p) (hq : IsPadding q) (hc : '\n' ∉ c.toList)
      (hslash : (line ++ q).toList.getLast? ≠ some '/') : Dressed line (p ++ line ++ q ++ "//" ++ c)

/-- The text has the given lines.  Each of them ends in a line feed; the last one need not, if there
is something on it. -/
inductive Written : List String → String → Prop
  | ended (lines : List String) : Written lines (String.join (lines.map (· ++ "\n")))
  | unended (lines : List String) {last : String} (h : last ≠ "") :
      Written (lines ++ [last]) (String.join (lines.map (· ++ "\n")) ++ last)

namespace Dressed

variable {line line' : String}

/-- A dressed line is read as before. -/
theorem parse_eq (h : Dressed line line') : Line.parse line' = Line.parse line := by
  apply Line.parse_congr
  cases h with
  | blanks hp hq =>
      rw [String.toList_append, String.toList_append, Line.strip_append_blanks fun c hc => (hq c hc).1,
        Line.strip_blanks_append fun c hc => (hp c hc).1]
  | @comment p q c hp hq hc hslash =>
      have hcode : (p ++ line ++ q ++ "//" ++ c).toList =
          p.toList ++ ((line ++ q).toList ++ '/' :: '/' :: c.toList) := by simp
      rw [hcode, Line.strip_blanks_append fun c hc => (hp c hc).1,
        Line.strip_append_comment hslash, String.toList_append,
        Line.strip_append_blanks fun c hc => (hq c hc).1]

/-- A dressed line is still a single one. -/
theorem notMem (h : Dressed line line') (hline : '\n' ∉ line.toList) : '\n' ∉ line'.toList := by
  have hpadding : ∀ {s : String}, IsPadding s → '\n' ∉ s.toList := fun hs hmem => (hs _ hmem).2 rfl
  cases h with
  | blanks hp hq => simp [hpadding hp, hpadding hq, hline]
  | comment hp hq hc hslash => simp [hpadding hp, hpadding hq, hc, hline]

end Dressed

/-- The lines of a text are read as the lines that it was written from. -/
theorem Written.map_parse_linesOf {lines : List String} {text : String} (h : Written lines text)
    (hlines : ∀ line ∈ lines, '\n' ∉ line.toList) :
    (Text.linesOf text).map Line.parse = lines.map Line.parse := by
  have hreturn : ∀ line : String,
      Line.parse (String.ofList (Text.dropReturn line.toList)) = Line.parse line := fun line =>
    Line.parse_congr (by rw [String.toList_ofList, Line.strip_dropReturn])
  cases h with
  | ended lines =>
      have hcut := @Text.linesOf_join_append _ "" hlines (by simp)
      rw [String.append_empty] at hcut
      simp [hcut, Function.comp_def, hreturn]
  | unended lines hlast =>
      simp only [List.forall_mem_append, List.forall_mem_singleton] at hlines
      simp [Text.linesOf_join_append hlines.1 hlines.2, hlast, Function.comp_def, hreturn]

end Source

/-- Blanks, comments and the way lines end do not matter.  When every line of a source gets other blanks
around it, and perhaps a comment, the source gives the same assembly up to the texts in its trace, or
the same error up to the texts that it quotes. -/
theorem assemble_dressed (config : Config) (source : String) {lines' : List String}
    {source' : String} (hlines : List.Forall₂ Dressed (Text.linesOf source) lines')
    (hsource : Written lines' source') :
    Related (fun e e' => e.unquoted = e'.unquoted) Assembly.Alike (assemble config source)
      (assemble config source') := by
  have hboth : List.Forall₂
      (fun line' line => '\n' ∉ line'.toList ∧ Line.parse line' = Line.parse line) lines'
      (Text.linesOf source) := by
    have hline := (List.forall₂_and_left _ _).mpr ⟨fun _ => Text.notMem_of_mem_linesOf, hlines⟩
    exact (hline.imp fun _ _ ⟨hfeed, h⟩ => ⟨h.notMem hfeed, h.parse_eq⟩).flip
  obtain ⟨hfeed, hparse⟩ := (List.forall₂_and_left _ _).mp hboth
  have hmap : lines'.map Line.parse = (Text.linesOf source).map Line.parse := by
    rw [← List.forall₂_eq_eq_eq, List.forall₂_map_left_iff, List.forall₂_map_right_iff]
    exact hparse
  exact assembleLines_congr (hmap.symm.trans (hsource.map_parse_linesOf hfeed).symm)

/-- A tab, a carriage return, a no-break space and a second comment make no difference. -/
theorem assemble_dressed_loop :
    List.Forall₂ Dressed (Text.linesOf ":loop\nJSR loop // back\n")
        ["\t:loop\r", "\u00a0JSR loop // back // again"] ∧
      Written ["\t:loop\r", "\u00a0JSR loop // back // again"]
        "\t:loop\r\n\u00a0JSR loop // back // again" ∧
        ∃ asm asm', assemble {} ":loop\nJSR loop // back\n" = .ok asm ∧
          assemble {} "\t:loop\r\n\u00a0JSR loop // back // again" = .ok asm' ∧
            asm.trace ≠ asm'.trace ∧ asm.Alike asm' := by
  have hlines : List.Forall₂ Dressed (Text.linesOf ":loop\nJSR loop // back\n")
      ["\t:loop\r", "\u00a0JSR loop // back // again"] := by
    have hcut : Text.linesOf ":loop\nJSR loop // back\n" = [":loop", "JSR loop // back"] := by
      decide +kernel
    rw [hcut]
    have hpadding : IsPadding "\t" ∧ IsPadding "\r" ∧ IsPadding "\u00a0" ∧ IsPadding " " := by
      simp [IsPadding, Text.isBlank]
    obtain ⟨htab, hreturn, hspace, hblank⟩ := hpadding
    exact .cons (.blanks htab hreturn)
      (.cons (.comment (c := " again") hspace hblank (by simp) (by simp)) .nil)
  have hsource : Written ["\t:loop\r", "\u00a0JSR loop // back // again"]
      "\t:loop\r\n\u00a0JSR loop // back // again" :=
    .unended ["\t:loop\r"] (by simp)
  have hrun : (assemble {} ":loop\nJSR loop // back\n").map (·.trace.map (·.text)) =
      .ok [":loop", "JSR loop // back"] := by
    decide +kernel
  have hrun' : (assemble {} "\t:loop\r\n\u00a0JSR loop // back // again").map
      (·.trace.map (·.text)) = .ok ["\t:loop", "\u00a0JSR loop // back // again"] := by
    decide +kernel
  obtain ⟨asm, hasm, htexts⟩ := map_eq_ok_iff.mp hrun
  obtain ⟨asm', hasm', htexts'⟩ := map_eq_ok_iff.mp hrun'
  have hrel := assemble_dressed {} _ hlines hsource
  rw [hasm, hasm'] at hrel
  refine ⟨hlines, hsource, asm, asm', hasm, hasm', fun heq => ?_, ?_⟩
  · rw [heq, htexts'] at htexts
    simp at htexts
  · cases hrel with
    | ok h => exact h

end Microcode

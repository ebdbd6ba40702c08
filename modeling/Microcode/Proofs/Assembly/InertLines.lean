import Microcode.Proofs.Assembly.Renumbering

/-!
# Microcode.Proofs.Assembly.InertLines

Blank lines, comments and the pragmas that only document a source may be put anywhere.

Such a line only leaves its mark in the trace of a draft (`Source.Inert.addLine_eq`).  The lines before
it keep their numbers and those after it move down by one, so reading the source with the line and
without it are two runs that differ in line numbers only (`Source.Inert.related_ofLines`), and so are
the second passes.  Both give the same control store, or the same error with the numbers of the
lines moved (`assembleLines_insertIdx_inert`).
-/

namespace Microcode

open Result Source

/-- A line that defines nothing and gives no word: it is blank, holds a comment only, or is one of
the pragmas `__reset`, `__fetch` and `__halt`. -/
def Source.Inert (raw : String) : Prop :=
  Line.parse raw = .ok none ∨
    ∃ p ∈ [Pragma.reset, .fetch, .halt], ∃ params, Line.parse raw = .ok (some (.pragma p params))

/-- The number of a line after another one is put behind the first `k` lines. -/
def Source.movedNumber (k n : Nat) : Nat := if k < n then n + 1 else n

/-- What an assembly becomes when a line that gives no word is put behind the first `k` lines: its
trace shows the line at that place, and nothing else is seen of it. -/
structure Assembly.GainsLine (k : Nat) (raw : String) (asm asm' : Assembly) : Prop where
  program : asm'.program = asm.program
  authored : asm'.authored = asm.authored
  decode : asm'.decode = asm.decode
  mnemonics : ∀ address, asm'.mnemonics.get? address = asm.mnemonics.get? address
  labels : ∀ name, asm'.labels.address? name = asm.labels.address? name
  trace : asm'.trace = asm.trace.insertIdx k ⟨Text.trimEndString raw, none⟩

namespace Source

variable {raw : String}

@[simp] theorem movedNumber_of_le {k n : Nat} (h : n ≤ k) : movedNumber k n = n :=
  if_neg (Nat.not_lt.mpr h)

@[simp] theorem movedNumber_of_lt {k n : Nat} (h : k < n) : movedNumber k n = n + 1 := if_pos h

/-- A line keeps its text when its number moves. -/
theorem getD_movedNumber {before after : List String} (i : Nat) :
    (before ++ raw :: after).getD (movedNumber before.length (i + 1) - 1) "" =
      (before ++ after).getD i "" := by
  by_cases hi : i < before.length
  · rw [movedNumber_of_le hi]
    simp [List.getD, List.getElem?_append_left hi]
  · obtain ⟨j, rfl⟩ := Nat.exists_eq_add_of_le (Nat.not_lt.mp hi)
    rw [movedNumber_of_lt (by omega), Nat.add_sub_cancel]
    simp [List.getD, List.getElem?_append_right, Nat.add_assoc]

namespace Inert

theorem emits_eq_false (h : Inert raw) : emits raw = false := by
  obtain hblank | ⟨p, -, params, hpragma⟩ := h
  · rw [emits, content?_of_parse hblank]
    rfl
  · rw [emits, content?_of_parse hpragma]
    rfl

/-- All that an inert line does is seen in the trace. -/
theorem addLine_eq (h : Inert raw) (d : Draft) (n : Nat) :
    d.addLine n raw = .ok { d with trace := d.trace.push ⟨Text.trimEndString raw, none⟩ } := by
  have hemits := h.emits_eq_false
  obtain hblank | ⟨p, hp, params, hpragma⟩ := h
  · rw [Draft.addLine_eq hblank, hemits]
    rfl
  · rw [Draft.addLine_eq hpragma, hemits]
    simp only [List.mem_cons, List.not_mem_nil, or_false] at hp
    obtain rfl | rfl | rfl := hp <;> rfl

/-- An inert line is passed over, and the lines after it are read as the next ones. -/
theorem addLines_cons (h : Inert raw) (d : Draft) (n : Nat) (lines : List String) :
    d.addLines n (raw :: lines) =
      Draft.addLines { d with trace := d.trace.push ⟨Text.trimEndString raw, none⟩ } (n + 1)
        lines := by
  rw [Draft.addLines_cons, h.addLine_eq]
  rfl

/-- With an inert line in between, the first pass goes as without it, up to the line numbers. -/
theorem related_ofLines (h : Inert raw) (before after : List String) :
    Related (·.renumber (movedNumber before.length) = ·)
      (Draft.Renumbers (movedNumber before.length)) (Draft.ofLines (before ++ after))
      (Draft.ofLines (before ++ raw :: after)) := by
  have hstart : Draft.Renumbers (movedNumber before.length) {} {} := ⟨rfl, rfl, rfl, by simp⟩
  have hbefore : Related (·.renumber (movedNumber before.length) = ·)
      (Draft.Renumbers (movedNumber before.length)) (Draft.addLines {} 1 before)
      (Draft.addLines {} 1 before) :=
    hstart.addLines fun i hi => movedNumber_of_le (by omega)
  rw [Draft.ofLines_eq_addLines, Draft.ofLines_eq_addLines, Draft.addLines_append,
    Draft.addLines_append]
  refine hbefore.bind fun d d' hd => ?_
  have hskip : d.Renumbers (movedNumber before.length)
      { d' with trace := d'.trace.push ⟨Text.trimEndString raw, none⟩ } :=
    ⟨hd.labels, hd.patterns, hd.mnemonics, hd.slots⟩
  rw [h.addLines_cons]
  refine hskip.addLines fun i _ => ?_
  rw [movedNumber_of_lt (by omega)]
  omega

end Inert

theorem insertIdx_length_append {α : Type} (before after : List α) (x : α) :
    (before ++ after).insertIdx before.length x = before ++ x :: after := by
  induction before with
  | nil => rfl
  | cons y before ih => simp [ih]

/-- What every line leaves is left by an inserted line at its place; a line that gives no word changes
nothing for the lines after it. -/
theorem gather_insert {α : Type} (f : String → Nat → α) (hemits : emits raw = false)
    (before after : List String) :
    gather (fun raw a _ => some (f raw a)) (before ++ raw :: after) =
      (gather (fun raw a _ => some (f raw a)) (before ++ after)).insertIdx before.length
        (f raw (wordCount before)) := by
  have hwords : wordCount [raw] = 0 := by rw [wordCount_singleton, hemits, Bool.toNat_false]
  have hlength : (gather (fun raw a _ => some (f raw a)) before).length = before.length :=
    length_gather_some _ before
  rw [List.append_cons, gather_append, gather_append, gather_append, gather_singleton,
    wordCount_append, hwords, Nat.add_zero, ← hlength, insertIdx_length_append]
  simp

end Source

/-- The trace shows the inserted line. -/
theorem Draft.Reads.trace_insert {d d' : Draft} {before after : List String} {raw : String}
    (hd : d.Reads (before ++ after)) (hd' : d'.Reads (before ++ raw :: after))
    (hemits : emits raw = false) :
    d'.trace.toList = d.trace.toList.insertIdx before.length ⟨Text.trimEndString raw, none⟩ := by
  rw [hd.trace, hd'.trace, gather_insert (fun raw a =>
    (⟨Text.trimEndString raw, if emits raw then some (.ofNat a) else none⟩ : TraceLine)) hemits,
    hemits]
  rfl

/-- A draft that reads the source finds each pattern's line under its new number. -/
theorem Draft.Reads.getD_movedNumber {d : Draft} {before after : List String}
    (hd : d.Reads (before ++ after)) (raw : String) :
    ∀ p ∈ d.patterns.patterns,
      (before ++ raw :: after).getD (movedNumber before.length p.line - 1) "" =
        (before ++ after).getD (p.line - 1) "" := by
  intro p hp
  obtain ⟨i, -, -, hline⟩ := hd.exists_pattern_iff.mp ⟨p, hp, rfl, rfl, rfl⟩
  rw [hline, Source.getD_movedNumber, Nat.add_sub_cancel]

/-- With an inert line in between, the second pass ends as without it, up to the line numbers. -/
theorem Draft.Renumbers.related_finish {d d' : Draft} {config : Config}
    {before after : List String} {raw : String}
    (h : d.Renumbers (movedNumber before.length) d') (hd : d.Reads (before ++ after))
    (hd' : d'.Reads (before ++ raw :: after)) (hemits : emits raw = false) :
    Related (·.renumber (movedNumber before.length) = ·) (Assembly.GainsLine before.length raw)
      (d.finish config (before ++ after)) (d'.finish config (before ++ raw :: after)) := by
  refine (h.finish (hd.getD_movedNumber raw)).imp_ok fun asm asm' hasm hasm' hrel => ?_
  obtain ⟨-, _, _, _, -, -, _, rfl⟩ := finish_eq_ok_iff.mp hasm
  obtain ⟨-, _, _, _, -, -, _, rfl⟩ := finish_eq_ok_iff.mp hasm'
  exact
    { program := hrel.program.symm
      authored := hrel.authored.symm
      decode := hrel.decode.symm
      mnemonics := fun address => by rw [← hrel.mnemonics, MnemonicTable.get?_renumber]
      labels := fun name => by rw [← hrel.labels, LabelTable.address?_renumber]
      trace := hd.trace_insert hd' hemits }

/-- An inert line may be put anywhere.  Either both sources assemble, and all the line does is to be
shown in the trace; or both fail with the same error, in which the numbers of the lines behind the
inserted one have moved on by one. -/
theorem assembleLines_insertIdx_inert (config : Config) (lines : List String) {raw : String}
    (h : Inert raw) {k : Nat} (hk : k ≤ lines.length) :
    Related (·.renumber (movedNumber k) = ·) (Assembly.GainsLine k raw)
      (assembleLines config lines) (assembleLines config (lines.insertIdx k raw)) := by
  obtain ⟨before, after, rfl, rfl⟩ : ∃ before after, lines = before ++ after ∧ k = before.length :=
    ⟨lines.take k, lines.drop k, (List.take_append_drop k lines).symm, by simp [hk]⟩
  rw [insertIdx_length_append]
  have hfirst := (h.related_ofLines before after).imp_ok fun d d' hd hd' hrel =>
    (⟨hrel, Draft.reads_of_ofLines hd, Draft.reads_of_ofLines hd'⟩ : _ ∧ _ ∧ _)
  exact hfirst.bind fun d d' ⟨hrel, hd, hd'⟩ => hrel.related_finish hd hd' h.emits_eq_false

/-- Two patterns of the same cost match opcode 0. -/
def tiedLines : List String := ["__code \"0000000-\"", "NOP", " __code \"000000-0\" ", "NOP"]

/-- An ambiguity between the first and the third line is one between the first and the fourth line
when a pragma is put in between. -/
theorem assembleLines_insertIdx_inert_tied :
    Inert "__fetch // the next opcode" ∧
      assembleLines { tieBreak := .reject } tiedLines =
        .error (.source 3 " __code \"000000-0\"" (.ambiguousOpcode 0 "0000000-" 1 "000000-0")) ∧
      assembleLines { tieBreak := .reject } (tiedLines.insertIdx 1 "__fetch // the next opcode") =
        .error (.source 4 " __code \"000000-0\"" (.ambiguousOpcode 0 "0000000-" 1 "000000-0")) := by
  have hinert : Inert "__fetch // the next opcode" :=
    .inr ⟨.fetch, by decide, "", by decide +kernel⟩
  have hrun : assembleLines { tieBreak := .reject } tiedLines =
      .error (.source 3 " __code \"000000-0\"" (.ambiguousOpcode 0 "0000000-" 1 "000000-0")) := by
    decide +kernel
  have hrel := assembleLines_insertIdx_inert { tieBreak := .reject } tiedLines hinert (k := 1)
    (by decide)
  refine ⟨hinert, hrun, ?_⟩
  rw [hrun] at hrel
  generalize assembleLines { tieBreak := .reject } (tiedLines.insertIdx 1 _) = result at hrel ⊢
  cases hrel with
  | error h => rw [← h]; rfl

end Microcode

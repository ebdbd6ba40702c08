import Microcode.Proofs.Assembly.Attribution

/-!
# Microcode.Proofs.Assembly.TieBreak

Refusing ties changes nothing but whether a source is refused.

The settings are looked at in one place, when the decode table is made, and the first pass and the
jumps are done by then (`Draft.finish_congr`).  A table that is made although ties are refused has no
ties, so it is the one that keeping the first pattern gives (`PatternSet.decodeTable_first_of_reject`).
Ties among patterns that are not the cheapest ones play no part in either.
-/

namespace Microcode

open Result

/-- The error is that two cheapest patterns match one opcode. -/
def AsmError.IsAmbiguity (e : AsmError) : Prop :=
  ∃ line text opcode first number second,
    e = .source line text (.ambiguousOpcode opcode first number second)

/-- A table that is made although ties are refused is made without refusing them, too. -/
theorem PatternSet.decodeTable_first_of_reject {s : PatternSet} {t : DecodeTable}
    (h : s.decodeTable .reject = .ok t) : s.decodeTable .first = .ok t :=
  decodeTable_eq_ok_iff.mpr ⟨nofun, (decodeTable_eq_ok_iff.mp h).2⟩

namespace Draft

variable {d : Draft} {lines : List String}

theorem decodeTable_first_of_reject {t : DecodeTable}
    (h : d.decodeTable { tieBreak := .reject } lines = .ok t) :
    d.decodeTable { tieBreak := .first } lines = .ok t :=
  mapError_eq_ok_iff.mpr (PatternSet.decodeTable_first_of_reject (mapError_eq_ok_iff.mp h))

/-- A table is refused for an ambiguity only. -/
theorem isAmbiguity_of_decodeTable {config : Config} {e : AsmError}
    (h : d.decodeTable config lines = .error e) : e.IsAmbiguity := by
  obtain ⟨a, -, rfl⟩ := mapError_eq_error_iff.mp h
  exact ⟨_, _, _, _, _, _, rfl⟩

/-- The settings matter for the decode table only, and only once the jumps are resolved. -/
theorem finish_congr {config config' : Config}
    (h : d.slots.size ≤ 256 → ∀ code, Slot.resolve d.labels d.slots.toList = .ok code →
      d.decodeTable config lines = d.decodeTable config' lines) :
    d.finish config lines = d.finish config' lines := by
  rw [finish_eq, finish_eq]
  by_cases hfits : d.slots.size ≤ 256
  · cases hresolve : Slot.resolve d.labels d.slots.toList with
    | error e => simp only [bind, Except.bind]
    | ok code => rw [h hfits code hresolve]
  · rw [if_pos (Nat.lt_of_not_le hfits), if_pos (Nat.lt_of_not_le hfits)]

/-- Unless it finds an ambiguity, the second pass does not depend on whether ties are refused. -/
theorem finish_first_eq_finish_reject
    (h : ∀ e, d.finish { tieBreak := .reject } lines = .error e → ¬e.IsAmbiguity) :
    d.finish { tieBreak := .first } lines = d.finish { tieBreak := .reject } lines := by
  refine finish_congr fun hfits code hcode => ?_
  cases hdecode : d.decodeTable { tieBreak := .reject } lines with
  | ok t => exact decodeTable_first_of_reject hdecode
  | error e =>
      have hfinish : d.finish { tieBreak := .reject } lines = .error e :=
        finish_eq_error_iff.mpr (.inr ⟨hfits, .inr ⟨code, hcode, .inl hdecode⟩⟩)
      exact absurd (isAmbiguity_of_decodeTable hdecode) (h e hfinish)

/-- The first pass never finds an ambiguity. -/
theorem not_isAmbiguity_of_ofLines {e : AsmError} (h : ofLines lines = .error e) :
    ¬e.IsAmbiguity := by
  rintro ⟨line, text, opcode, first, number, second, rfl⟩
  obtain ⟨i, raw, cause, -, he, hne, -⟩ := firstRefused_of_ofLines h
  exact hne opcode first number second (AsmError.source.inj he).2.2.symm

/-- Nor does the second one when ties are not refused. -/
theorem Reads.not_isAmbiguity_of_finish_first (hd : d.Reads lines) {e : AsmError}
    (h : d.finish { tieBreak := .first } lines = .error e) : ¬e.IsAmbiguity := by
  rintro ⟨line, text, opcode, first, number, second, rfl⟩
  exact hd.finish_first_ne_source line text _ h

end Draft

/-- Unless refusing ties finds an ambiguity, it gives what keeping the first pattern gives: the same
assembly or the same error.  Keeping the first pattern never finds an ambiguity. -/
theorem assemble_first_eq_assemble_reject (source : String) :
    ((∀ e, assemble { tieBreak := .reject } source = .error e → ¬e.IsAmbiguity) →
      assemble { tieBreak := .first } source = assemble { tieBreak := .reject } source) ∧
      ∀ e, assemble { tieBreak := .first } source = .error e → ¬e.IsAmbiguity := by
  simp only [assemble, assembleLines]
  cases hfirst : Draft.ofLines (Text.linesOf source) with
  | error e =>
      simp only [bind, Except.bind, Except.error.injEq, implies_true, true_and]
      rintro _ rfl
      exact Draft.not_isAmbiguity_of_ofLines hfirst
  | ok d =>
      exact ⟨Draft.finish_first_eq_finish_reject,
        fun e => (Draft.reads_of_ofLines hfirst).not_isAmbiguity_of_finish_first⟩

/-- Two patterns of the same cost match opcode 0, and a third one that costs less settles it. -/
def settledTie : String :=
  "__code \"000000--\"\nNOP\n__code \"0000--00\"\nNOP\n__code \"00000000\"\nNOP\n"

/-- A tie that is settled by a third pattern is not refused. -/
theorem assemble_first_eq_assemble_reject_settled :
    (∃ asm, assemble { tieBreak := .reject } settledTie = .ok asm) ∧
      assemble { tieBreak := .first } settledTie = assemble { tieBreak := .reject } settledTie := by
  have hauthored : (assemble { tieBreak := .reject } settledTie).map (·.authored) = .ok 3 := by
    decide +kernel
  obtain ⟨asm, hasm, -⟩ := map_eq_ok_iff.mp hauthored
  refine ⟨⟨asm, hasm⟩, (assemble_first_eq_assemble_reject settledTie).1 fun e he => ?_⟩
  rw [hasm] at he
  exact nomatch he

end Microcode

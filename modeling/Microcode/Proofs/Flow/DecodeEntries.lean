import Microcode.Flow.Basic
import Microcode.Proofs.Assembly.Outcome
import Microcode.Proofs.Program.RoundTrip

/-!
# Microcode.Proofs.Flow.DecodeEntries

The decode table of a source, recovered from its written control store.

An opcode is decoded by a call of its entry address (`entryOf_eq_some_iff`).  The word of an opcode
without entry is such a call, too, of address 0.  So the entries that are read off an assembled
control store are those of the decode table, except that an entry at address 0 is lost
(`Source.Layout.getElem?_decodeEntries_iff`); and none of the written forms changes them
(`Program.map_decodeEntries_read`).
-/

namespace Microcode

open Result Source

namespace Program

/-! ## entries of a control store -/

/-- A word stands for the entry address that it calls, unless it calls address 0. -/
theorem entryOf_eq_some_iff {w : MicroWord} {address : Nat} :
    entryOf w = some address ↔
      w.jumpKind? = some .call ∧ w.jumpTarget? = some address ∧ address ≠ 0 := by
  unfold entryOf
  split
  · next target hkind htarget =>
      by_cases hzero : target = 0
      · simp [htarget, hzero, eq_comm]
      · simp only [hkind, htarget, hzero, if_false, Option.some.injEq, true_and]
        exact ⟨fun h => ⟨h, h ▸ hzero⟩, fun h => h.1⟩
  · next hother =>
      constructor
      · intro h
        contradiction
      · rintro ⟨hkind, htarget, -⟩
        exact (hother _ hkind htarget).elim

/-- The entry of an opcode is that of its word. -/
theorem getElem?_decodeEntries (p : Program) (v : Nat) :
    p.decodeEntries[v]? = (p.get? (decodeBase + v)).map entryOf := by
  simp [decodeEntries, decodeWords, get?]

@[simp] theorem length_decodeEntries (p : Program) : p.decodeEntries.length = 256 := by
  simp [decodeEntries]

/-- The entries of a control store can be read off each of its written forms. -/
theorem map_decodeEntries_read (p : Program) (format : TableFormat) :
    (read (p.write format)).map decodeEntries = .ok p.decodeEntries := by
  rw [p.read_of_write format]
  rfl

end Program

/-! ## entries of an assembled source -/

/-- The entries of an assembled control store are those of the decode table, but for address 0. -/
theorem Source.Layout.getElem?_decodeEntries_iff {lines : List String} {asm : Assembly}
    (h : Layout lines asm) {opcode : UInt8} {entry : Nat} :
    asm.program.decodeEntries[opcode.toNat]? = some (some entry) ↔
      (asm.decode.get? opcode).map (·.toNat) = some entry ∧ entry ≠ 0 := by
  rw [Program.getElem?_decodeEntries]
  cases hget : asm.decode.get? opcode with
  | none =>
      -- its word calls address 0, and so do the words that are lost in the other case
      have hcall : Program.entryOf DecodeTable.unmatchedWord = none := by decide
      simp [h.unmatched opcode hget, hcall]
  | some address =>
      obtain ⟨w, hmade, hw⟩ := h.matched opcode address hget
      simp [hw, Program.entryOf_eq_some_iff, MicroWord.jumpKind?_of_jump hmade,
        (MicroWord.jumpTarget?_of_jump hmade).1]

/-- Reading an assembled control store back from any of its written forms gives the decode table of
the source, except for entries at address 0. -/
theorem assemble_decodeEntries {config : Config} {source : String} {asm : Assembly}
    (h : assemble config source = .ok asm) (format : TableFormat) :
    ∃ p, Program.read (asm.program.write format) = .ok p ∧ p.decodeEntries.length = 256 ∧
      ∀ (opcode : UInt8) (entry : Nat), p.decodeEntries[opcode.toNat]? = some (some entry) ↔
        (asm.decode.get? opcode).map (·.toNat) = some entry ∧ entry ≠ 0 := by
  obtain ⟨p, hread, hentries⟩ := map_eq_ok_iff.mp (asm.program.map_decodeEntries_read format)
  refine ⟨p, hread, p.length_decodeEntries, fun opcode entry => ?_⟩
  rw [hentries]
  exact (layout_of_assembleLines h).getElem?_decodeEntries_iff

/-- The entry at address 1 is recovered, and the one at address 0 is not. -/
theorem assemble_decodeEntries_zero_lost :
    ∃ asm p,
      assemble {} "__code \"00000000\"\nNOP ; NOP ; #end\n__code \"01------\"\nNOP\n" = .ok asm ∧
        Program.read (asm.program.write .verilog) = .ok p ∧
          asm.decode.get? 0x00 = some 0 ∧ p.decodeEntries[0x00]? = some none ∧
            asm.decode.get? 0x55 = some 1 ∧ p.decodeEntries[0x55]? = some (some 1) := by
  have hrun : (assemble {} "__code \"00000000\"\nNOP ; NOP ; #end\n__code \"01------\"\nNOP\n").map
      (fun asm => (asm.decode.get? 0x00, asm.decode.get? 0x55)) = .ok (some 0, some 1) := by
    decide +kernel
  obtain ⟨asm, h, hasm⟩ := map_eq_ok_iff.mp hrun
  obtain ⟨hzero, hone⟩ := Prod.mk.inj hasm
  obtain ⟨p, hread, hlength, hentries⟩ := assemble_decodeEntries h .verilog
  have hlost : p.decodeEntries[0x00]? = some none := by
    obtain ⟨entry, hentry⟩ : ∃ entry, p.decodeEntries[0x00]? = some entry :=
      ⟨_, List.getElem?_eq_getElem (by rw [hlength]; decide)⟩
    cases entry with
    | none => exact hentry
    | some entry =>
        obtain ⟨heq, hne⟩ := (hentries 0x00 entry).mp hentry
        rw [hzero] at heq
        exact absurd (Option.some.inj heq).symm hne
  refine ⟨asm, p, h, hread, hzero, hlost, hone, (hentries 0x55 1).mpr ⟨?_, by decide⟩⟩
  rw [hone]
  rfl

end Microcode

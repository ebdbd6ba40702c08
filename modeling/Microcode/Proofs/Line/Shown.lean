import Microcode.Proofs.Instruction.Canonical
import Microcode.Proofs.Line.Instruction

/-!
# Microcode.Proofs.Line.Shown

What the text of a line's word shows of the line.

The text is put together from control lines and from codes, and the two stages share the bank address.
Apart from the register that is selected there, it shows the stages as they were written
(`Instruction.operandText_image`, `Instruction.aluText_image`): each of them is recovered from lines
and a code that no other part of the line writes.  The flags are found again by comparing every flag
field with every flag for it.  This gives the flags of the line, since each field holds 0 or the value of
the one flag that wrote it (`Instruction.mem_flags_image`).
-/

namespace Microcode

/-! ## stages as they are shown -/

/-- How a temporary register is shown. -/
def Temp.shown : Temp → String
  | .t1 => "T1"
  | .t2 => "T2"

/-- How an operand stage is shown when the word selects the given register of the bank. -/
def Operand.shown (bank : String) : Operand → String
  | .nop => "NOP"
  | .load temp (.bank _) => temp.shown ++ " = " ++ bank
  | .load temp .dataIn => temp.shown ++ " = " ++ "DI"

/-- How an ALU stage is shown when the word selects the given register of the bank. -/
def Alu.shown (bank : String) : Alu → String
  | .nop => "NOP"
  | .carry op => op.name
  | .assign (.bank _) op => bank ++ " = " ++ op.name
  | .assign .dataOut op => "DO = " ++ op.name

namespace Instruction

/-- The operand stage is shown as it was written, up to the register of the bank. -/
theorem operandText_image (i : Instruction) :
    i.image.operandText = i.operand.shown i.image.bankName := by
  have hstages := i.stages_image.trans i.after_stages
  have ht1 : i.image.drives .ldT1 = _ := congrArg Stages.t1 hstages
  have ht2 : i.image.drives .ldT2 = _ := congrArg Stages.t2 hstages
  have hmux : i.image.drives .muxIn = _ := congrArg Stages.muxIn hstages
  simp only [MicroWord.operandText, ht1, ht2, hmux]
  cases i.operand with
  | nop => rfl
  | load temp source => cases source <;> cases temp <;> rfl

/-- The ALU stage is shown as it was written, up to the register of the bank. -/
theorem aluText_image (i : Instruction) : i.image.aluText = i.alu.shown i.image.bankName := by
  have hstages := i.stages_image.trans i.after_stages
  have hdo : i.image.drives .doWe = _ := congrArg Stages.doWe hstages
  have hassigned : ∀ op : AluOp, AluOp.ofCode? op.code = some op := fun op =>
    AluOp.ofCode?_eq_some_iff.mpr rfl
  have hcarry : ∀ op : CarryOp, op.code ≠ 0 ∧ CarryOp.ofCode? op.code = some op := fun op =>
    ⟨by cases op <;> decide, CarryOp.ofCode?_eq_some_iff.mpr rfl⟩
  simp only [MicroWord.aluText, i.drives_rbWe_image, hdo, i.read_aluOp_image]
  cases i.alu with
  | nop => rfl
  | carry op => simp [Alu.dest?, Alu.code, Alu.shown, hcarry]
  | assign dest op => cases dest <;> simp [Alu.dest?, Alu.code, Alu.shown, hassigned]

/-- The flags that are shown are those that were written. -/
theorem mem_flags_image {i : Instruction} (h : i.flags.Pairwise fun a b => a.field ≠ b.field)
    (flag : Flag) : flag ∈ i.image.flags ↔ flag ∈ i.flags := by
  have hshown : ∀ flag, flag ∈ i.image.flags ↔ i.image.read flag.field = flag.value := by
    simp [MicroWord.flags, Flag.mem_all]
  constructor
  · intro hflag
    have hread := (hshown flag).mp hflag
    rw [read_image i (Field.flagFields_subset flag.value_fits.1),
      read_stageImage i flag.value_fits.1, Flag.valueIn?] at hread
    cases hlast : i.flags.reverse.find? (·.field == flag.field) with
    | none =>
        have hne : flag.value ≠ 0 := by cases flag <;> decide
        rw [hlast] at hread
        exact absurd hread.symm hne
    | some last =>
        have hmem := List.mem_reverse.mp (List.mem_of_find?_eq_some hlast)
        have hfield : last.field = flag.field := by simpa using List.find?_some hlast
        have hlast' : last ∈ i.image.flags := (hshown last).mpr (read_image_flag h hmem)
        rwa [← List.inj_on_of_nodup_map (List.pairwise_map.mpr i.image.pairwise_flags) hlast' hflag
          hfield]
  · intro hflag
    exact (hshown flag).mpr (read_image_flag h hflag)

end Instruction

/-! ## lines as they are shown -/

/-- How two stages and flags are shown; without flags there is no third field. -/
def shownFields (operand alu : String) (flags : List Flag) : List String :=
  operand :: alu :: if flags.isEmpty then [] else [", ".intercalate (flags.map (·.token))]

/-- The text of a word that is no jump. -/
theorem MicroWord.disassemble_eq {w : MicroWord} (h : w.jumpKind? = none) :
    w.disassemble = " ; ".intercalate (shownFields w.operandText w.aluText w.flags) := by
  rw [disassemble, h]
  simp only [plainText, shownFields]
  cases w.flags.isEmpty <;> simp [String.intercalate_cons_cons, String.append_assoc]

namespace Line

/-- The text of a line's word shows the stages that the line spells, each with the bank register that
the word selects in place of the one that was written, and the flags of the line once each in the order
of `Flag.all`.  The name of a bank register is never taken for the data input or output. -/
theorem shows_all_but_bank {raw : String} {w : MicroWord} (h : parse raw = .ok (some (.word w))) :
    ∃ (i : Instruction) (flags : List Flag), i.Spelled (fields raw) ∧
      (∀ flag, flag ∈ flags ↔ flag ∈ i.flags) ∧ flags.Nodup ∧ flags.Sublist Flag.all ∧
        (w.bankName ≠ "DI" ∧ w.bankName ≠ "DO") ∧
          w.disassemble = " ; ".intercalate
            (shownFields (i.operand.shown w.bankName) (i.alu.shown w.bankName) flags) := by
  obtain ⟨i, hi, rfl⟩ := parse_eq_image_iff.mp h
  have hnodup : Flag.all.Nodup := by decide
  obtain ⟨-, -, hdi, hdo⟩ := i.image.bankName_spec
  refine ⟨i, i.image.flags, hi, Instruction.mem_flags_image hi.pairwise_flags, hnodup.filter _,
    List.filter_sublist, ⟨fun hname => hdi ?_, fun hname => hdo ?_⟩, ?_⟩
  · rw [hname]; decide
  · rw [hname]; decide
  · rw [MicroWord.disassemble_eq i.jumpKind?_image, i.operandText_image, i.aluText_image]

/-- Flags in another order, in capitals and with few blanks. -/
theorem shows_all_but_bank_reordered :
    parse "t2 = \x7bP\x7d1;DO=Rla;#END,#fp_RC ,#Ld_Al" = .ok (some (.word ⟨0x05788380⟩)) ∧
      ∃ (i : Instruction) (flags : List Flag),
        i.Spelled (fields "t2 = \x7bP\x7d1;DO=Rla;#END,#fp_RC ,#Ld_Al") ∧
          (∀ flag, flag ∈ flags ↔ flag ∈ i.flags) ∧ flags.Sublist Flag.all ∧
            MicroWord.disassemble ⟨0x05788380⟩ = " ; ".intercalate
              (shownFields (i.operand.shown "\x7bp\x7d1") (i.alu.shown "\x7bp\x7d1") flags) := by
  have hparse : parse "t2 = \x7bP\x7d1;DO=Rla;#END,#fp_RC ,#Ld_Al" =
      .ok (some (.word ⟨0x05788380⟩)) := by decide +kernel
  have hbank : MicroWord.bankName ⟨0x05788380⟩ = "\x7bp\x7d1" := by decide +kernel
  obtain ⟨i, flags, hi, hmem, -, hsub, -, htext⟩ := shows_all_but_bank hparse
  rw [hbank] at htext
  exact ⟨hparse, i, flags, hi, hmem, hsub, htext⟩

end Line

end Microcode

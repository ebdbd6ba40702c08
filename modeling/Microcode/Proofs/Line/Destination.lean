import Microcode.Proofs.Line.Shown

/-!
# Microcode.Proofs.Line.Destination

Whether the destination of a line is the register that its word selects.

The two stages of an instruction share the fields that address the bank, and the ALU stage writes
them last.  A destination that is an alias writes the select code; a register of the bank does not,
and relies on the 0 that the operand stage leaves there.  It is not there when the operand stage reads
through an alias, and this is the only case in which the destination is lost
(`Line.shows_destination_iff`).
-/

namespace Microcode

/-- The source of an operand stage, as it is spelled. -/
theorem Operand.Spelled.source?_eq_iff {o : Operand} {names : List String} (h : o.Spelled names)
    (source : OperandSource) :
    o.source? = some source ↔ ∃ target, names = [target, source.name] := by
  cases h with
  | nop => simp [source?]
  | load temp source' =>
      have hname : source'.name = source.name ↔ source' = source := by
        rw [← OperandSource.ofName?_eq_some_iff, OperandSource.ofName?_eq_some_iff.mpr rfl,
          Option.some.injEq]
      simp [source?, hname]

namespace Instruction

/-- The word of an instruction with a destination in the bank selects it, unless it is a register
and the source is an alias. -/
theorem bankRef?_image_iff {i : Instruction} {ref : BankRef} {op : AluOp}
    (h : i.alu = .assign (.bank ref) op) :
    i.image.bankRef? = some ref ↔
      ¬((∃ r, ref = .register r) ∧ ∃ a, i.operand.source? = some (.bank (.alias a))) := by
  have hregister : ∀ r : Register, Register.ofIndex? r.index = some r := by
    intro r
    cases r <;> decide
  have halias : ∀ a : Alias, a.select ≠ 0 ∧ Alias.ofSelect? a.select a.high = some a := by
    intro a
    cases a <;> decide
  rw [MicroWord.bankRef?, ← MicroWord.read_rbAddr_mod, read_rbAddrSel_image, read_rbAddr_image]
  simp only [select, address, h, Alu.dest?]
  obtain r | d := ref
  · rcases i.operand.source? with _ | (r' | a) | _ <;>
      simp [BankRef.applyTo, hregister, halias]
  · have hhigh : ∀ n, (2 * (n / 2) + d.high) % 2 = d.high := by
      intro n
      have hbit : d.high < 2 := d.select_lt.2
      omega
    simp [BankRef.applyTo, hhigh, halias]

/-- The word of an instruction with a destination in the bank shows the bank register that it selects
as the destination. -/
theorem fields_disassemble_image {i : Instruction} {ref : BankRef} {op : AluOp}
    (h : i.alu = .assign (.bank ref) op) :
    (Line.fields i.image.disassemble)[1]? =
      some (i.image.bankName ++ " = " ++ op.name).toList := by
  rw [MicroWord.fields_disassemble i.jumpKind?_image, MicroWord.furtherFields, i.aluText_image, h]
  rfl

end Instruction

namespace Line

/-- The second field of the line assigns the result of an operation to a register of the bank. -/
def Assigns (raw : String) (ref : BankRef) (op : AluOp) : Prop :=
  ∃ field, (fields raw)[1]? = some field ∧ pieces '=' field = [ref.name, op.name]

/-- The first field of the line reads the bank through an alias. -/
def ReadsThrough (raw : String) (a : Alias) : Prop :=
  ∃ target, pieces '=' ((fields raw).headD []) = [target, a.name]

/-- The ALU stage of a line that assigns. -/
theorem Assigns.alu_eq {raw : String} {ref : BankRef} {op : AluOp} (h : Assigns raw ref op)
    {i : Instruction} (hi : i.Spelled (fields raw)) : i.alu = .assign (.bank ref) op := by
  obtain ⟨field, hfield, hpieces⟩ := h
  have hspelled : (Alu.assign (.bank ref) op).Spelled (pieces '=' field) := by
    rw [hpieces]
    exact .assign (.bank ref) op
  generalize fields raw = ls at hi hfield
  cases hi with
  | operand _ => simp at hfield
  | alu _ ha =>
      obtain rfl : _ = field := by simpa using hfield
      exact ha.unique hspelled
  | flags _ ha _ =>
      obtain rfl : _ = field := by simpa using hfield
      exact ha.unique hspelled

/-- The source of a line that reads through an alias. -/
theorem readsThrough_iff {raw : String} {a : Alias} {i : Instruction}
    (hi : i.Spelled (fields raw)) :
    ReadsThrough raw a ↔ i.operand.source? = some (.bank (.alias a)) :=
  (hi.operand_spelled.source?_eq_iff (.bank (.alias a))).symm

/-- The word of a line selects the destination, and shows it, unless the line assigns to a register
of the bank and reads through an alias.  Then the select code of the alias is left. -/
theorem shows_destination_iff {raw : String} {w : MicroWord} {ref : BankRef} {op : AluOp}
    (h : parse raw = .ok (some (.word w))) (hassigns : Assigns raw ref op) :
    (w.bankName = ref.name ∧
        (fields w.disassemble)[1]? = some (ref.name ++ " = " ++ op.name).toList ↔
      ¬((∃ r, ref = .register r) ∧ ∃ a, ReadsThrough raw a)) ∧
    ∀ r a, ref = .register r → ReadsThrough raw a →
      w.read .rbAddrSel = a.select ∧ w.read .rbAddr = r.index := by
  obtain ⟨i, hi, rfl⟩ := parse_eq_image_iff.mp h
  have halu := hassigns.alu_eq hi
  have hselects : i.image.bankName = ref.name ↔
      ¬((∃ r, ref = .register r) ∧ ∃ a, ReadsThrough raw a) := by
    simp only [MicroWord.bankName_eq_iff, Instruction.bankRef?_image_iff halu, readsThrough_iff hi]
  refine ⟨⟨fun hshown => hselects.mp hshown.1, fun hapart => ?_⟩, ?_⟩
  · rw [Instruction.fields_disassemble_image halu, hselects.mpr hapart]
    exact ⟨rfl, rfl⟩
  · rintro r a rfl hreads
    rw [Instruction.read_rbAddrSel_image, Instruction.read_rbAddr_image]
    simp [Instruction.select, Instruction.address, halu, (readsThrough_iff hi).mp hreads, Alu.dest?,
      BankRef.applyTo]

/-- An alias is written over another one. -/
theorem shows_destination_alias :
    ∃ w, parse "T1 = \x7bs\x7d ; \x7bp\x7d1 = ADD" = .ok (some (.word w)) ∧
      Assigns "T1 = \x7bs\x7d ; \x7bp\x7d1 = ADD" (.alias .pairSecond) .add ∧
        w.bankName = "\x7bp\x7d1" ∧ (fields w.disassemble)[1]? = some "\x7bp\x7d1 = add".toList := by
  have hparse : parse "T1 = \x7bs\x7d ; \x7bp\x7d1 = ADD" = .ok (some (.word ⟨0xB8804C⟩)) := by
    decide +kernel
  have hassigns : Assigns "T1 = \x7bs\x7d ; \x7bp\x7d1 = ADD" (.alias .pairSecond) .add :=
    ⟨_, rfl, by decide +kernel⟩
  have hapart : ¬((∃ r, BankRef.alias .pairSecond = .register r) ∧
      ∃ a, ReadsThrough "T1 = \x7bs\x7d ; \x7bp\x7d1 = ADD" a) := by
    rintro ⟨⟨_, h⟩, -⟩
    cases h
  obtain ⟨hname, htext⟩ := (shows_destination_iff hparse hassigns).1.mpr hapart
  exact ⟨_, hparse, hassigns, hname, htext⟩

/-- A register of the bank is not selected after an alias was read. -/
theorem register_lost_after_alias :
    ∃ w, parse "T1 = \x7bs\x7d ; _b = add" = .ok (some (.word w)) ∧
      Assigns "T1 = \x7bs\x7d ; _b = add" (.register .b) .add ∧ w.bankName = "\x7bs\x7d" ∧
        w.disassemble = "T1 = \x7bs\x7d ; \x7bs\x7d = add" :=
  ⟨⟨0xA8004C⟩, by decide +kernel, ⟨_, rfl, by decide +kernel⟩, by decide +kernel, by decide +kernel⟩

end Line

end Microcode

import Microcode.Proofs.Instruction.Encoding
import Microcode.Proofs.Instruction.Parser
import Microcode.Proofs.Word.Mask

/-!
# Microcode.Proofs.Instruction.Build

The word that is built while the fields of an instruction are read is the word of the instruction
that the fields say.

Each stage writes the field values of its syntax into the word it finds (`after_operandStage`,
`after_aluStage`), and refuses what the reader of the syntax refuses.  The flags look at the word:
before them no flag field is set, and each flag leaves its field set, so the field of a flag is set
exactly when an earlier flag has the same field (`isSet_putFlags`).  Hence building is reading, then
encoding (`build_eq`).
-/

namespace Microcode.Instruction

open MicroWord

/-! ## writing -/

/-- A value that fits is written. -/
theorem after_write (w : MicroWord) {f : Field} {value : Nat} (h : value < 2 ^ f.width) :
    w.after (write f value) = .ok (w.put f value) := by
  have hstore : w.after (store f value) = .ok (w.put f value) := w.write_of_lt h
  rw [write, after_adapt, hstore]
  rfl

/-- Values that fit are written one after the other. -/
theorem after_writeAll (w : MicroWord) {values : List (Field × Nat)}
    (h : ∀ x ∈ values, x.2 < 2 ^ x.1.width) :
    w.after (writeAll values) = .ok (w.putAll values) := by
  unfold writeAll
  induction values generalizing w with
  | nil => rfl
  | cons x values ih =>
      obtain ⟨f, value⟩ := x
      rw [List.forall_mem_cons] at h
      rw [List.forM_eq_forM, List.forM_cons, after_bind, after_write w h.1, putAll_cons]
      exact ih (w.put f value) h.2

/-! ## stages -/

/-- Building the operand stage is reading it and writing its field values. -/
theorem after_operandStage (w : MicroWord) (field : List Char) :
    w.after (operandStage field) = (Operand.parse field).map fun o => w.putAll o.values := by
  unfold operandStage Operand.parse
  rcases pieces '=' field with _ | ⟨target, _ | ⟨origin, _ | ⟨third, others⟩⟩⟩
  · rfl
  · by_cases hnop : target = "nop" <;> simp only [hnop, beq_iff_eq, if_true, if_false] <;> rfl
  · cases htemp : Temp.ofName? target with
    | none => simp only [htemp]; rfl
    | some temp =>
        simp only [htemp]
        rw [after_bind, after_write w temp.field_fits.2]
        cases OperandSource.ofName? origin with
        | none => rfl
        | some source =>
            exact after_writeAll (w.put temp.field 1) fun x hx => (source.values_fit x hx).2
  · rfl

/-- Building the ALU stage is reading it and writing its field values. -/
theorem after_aluStage (w : MicroWord) (field : List Char) :
    w.after (aluStage field) = (Alu.parse field).map fun a => w.putAll a.values := by
  unfold aluStage Alu.parse
  rcases pieces '=' field with _ | ⟨target, _ | ⟨name, _ | ⟨third, others⟩⟩⟩
  · rfl
  · by_cases hnop : (target == "" || target == "nop") = true
    · simp only [hnop, if_true]
      rfl
    · simp only [hnop]
      cases CarryOp.ofName? target with
      | none => rfl
      | some op => exact after_write w (by cases op <;> decide)
  · cases hdest : AluDest.ofName? target with
    | none => simp only [hdest]; rfl
    | some dest =>
        simp only [hdest]
        rw [after_bind, after_writeAll w fun x hx => (dest.values_fit x hx).2]
        cases AluOp.ofName? name with
        | none => rfl
        | some op =>
            show (w.putAll dest.values).after (write .aluOp op.code) =
              .ok (w.putAll (dest.values ++ [(.aluOp, op.code)]))
            rw [after_write _ (by cases op <;> decide), putAll_append]
            rfl
  · rfl

/-! ## flags -/

/-- Over a word in which no flag field is set, the field of a flag is set exactly when an earlier
flag has the same field: no flag writes 0. -/
theorem isSet_putFlags {w : MicroWord} (h : ∀ g ∈ Field.flagFields, w.read g = 0)
    (flags : List Flag) {g : Field} (hg : g ∈ Field.flagFields) :
    (w.putFlags flags).isSet g = flags.any (·.field == g) := by
  have hvalue : ∀ flag : Flag, flag.value ≠ 0 := fun flag => by cases flag <;> decide
  rw [Bool.eq_iff_iff, isSet_iff_read, read_putFlags _ _ (Field.flagFields_subset hg), h g hg,
    Flag.valueIn?]
  cases hfind : flags.reverse.find? (·.field == g) with
  | none =>
      rw [List.find?_eq_none] at hfind
      simpa using hfind
  | some flag =>
      have hmem := List.mem_of_find?_eq_some hfind
      have hfield := List.find?_some hfind
      have hany : flags.any (·.field == g) = true :=
        List.any_eq_true.mpr ⟨flag, List.mem_reverse.mp hmem, hfield⟩
      simp [hany, hvalue flag]

/-- Building a flag over those before it is adding it to them, and fails as that does. -/
theorem after_writeFlag {w : MicroWord} (h : ∀ g ∈ Field.flagFields, w.read g = 0)
    (earlier : List Flag) (token : String) :
    (w.putFlags earlier).after (writeFlag token) =
      (Flag.append earlier token).map w.putFlags := by
  unfold writeFlag
  rw [Flag.append_eq]
  by_cases hempty : token = ""
  · simp only [hempty, beq_self_eq_true, if_true]
    rfl
  · simp only [hempty, beq_iff_eq, if_false]
    cases Flag.ofToken? token with
    | none => rfl
    | some flag =>
        have hset := isSet_putFlags h earlier flag.value_fits.1
        show (w.putFlags earlier).after (if (w.putFlags earlier).isSet flag.field then
          throw (.flagConflict token) >>= fun _ => write flag.field flag.value
          else write flag.field flag.value) =
            Except.map w.putFlags (if earlier.any (·.field == flag.field) then
              .error (.flagConflict token) else .ok (earlier ++ [flag]))
        rw [hset]
        split
        · rfl
        · rw [after_write _ flag.value_fits.2, Except.map, putFlags, putFlags, List.map_append,
            putAll_append]
          rfl

/-- The loop over the flags carries a word, and the reader the flags that were written into it. -/
theorem after_forM_writeFlag {w : MicroWord} (h : ∀ g ∈ Field.flagFields, w.read g = 0)
    (tokens : List String) (earlier : List Flag) :
    (w.putFlags earlier).after (tokens.forM writeFlag) =
      (tokens.foldlM Flag.append earlier).map w.putFlags := by
  induction tokens generalizing earlier with
  | nil => rfl
  | cons token tokens ih =>
      rw [List.forM_eq_forM, List.forM_cons, List.foldlM_cons, after_bind, after_writeFlag h]
      cases Flag.append earlier token with
      | error e => rfl
      | ok flags => exact ih flags

/-- Building a list of flags is reading it and writing its flags. -/
theorem after_flagList {w : MicroWord} (h : ∀ g ∈ Field.flagFields, w.read g = 0)
    (field : List Char) :
    w.after (flagList field) = (Flag.parseList field).map w.putFlags := by
  unfold flagList Flag.parseList
  split
  · rfl
  · exact after_forM_writeFlag h (pieces ',' field) []

/-! ## instructions -/

/-- A field that may be missing is built as it is read, if leaving it out gives what is there. -/
theorem after_option_forM {ε α β : Type} {w : MicroWord} {step : α → InPlace ε Unit}
    {reader : α → Except ε β} {written : β → MicroWord} {absent : β}
    (hstep : ∀ x, w.after (step x) = (reader x).map written) (habsent : written absent = w)
    (field : Option α) :
    w.after (field.forM step) = (field.elim (.ok absent) reader).map written := by
  cases field with
  | none =>
      rw [← habsent]
      rfl
  | some x => exact hstep x

/-- Building the word of an instruction is reading the instruction, then encoding it. -/
theorem build_eq (operand : List Char) (rest : List (List Char)) :
    build operand rest = (Instruction.parse operand rest).map image := by
  unfold build Instruction.parse
  rw [after_bind, after_operandStage]
  cases Operand.parse operand with
  | error e => rfl
  | ok o =>
      have halu : (zero.putAll o.values).after (rest[0]?.forM aluStage) =
          (rest[0]?.elim (.ok .nop) Alu.parse).map
            fun a => (zero.putAll o.values).putAll a.values :=
        after_option_forM (after_aluStage _) rfl _
      show (zero.putAll o.values).after (rest[0]?.forM aluStage >>= fun _ =>
        rest[1]?.forM flagList) = _
      rw [after_bind, halu]
      cases rest[0]?.elim (.ok .nop) Alu.parse with
      | error e => rfl
      | ok a =>
          -- no stage has set a flag field
          have hclear : ∀ g ∈ Field.flagFields,
              ((zero.putAll o.values).putAll a.values).read g = 0 := fun g hg =>
            read_stageImage { operand := o, alu := a } hg
          have hflags : ((zero.putAll o.values).putAll a.values).after (rest[1]?.forM flagList) =
              (rest[1]?.elim (.ok []) Flag.parseList).map
                ((zero.putAll o.values).putAll a.values).putFlags :=
            after_option_forM (after_flagList hclear) rfl _
          show ((zero.putAll o.values).putAll a.values).after (rest[1]?.forM flagList) = _
          rw [hflags]
          cases rest[1]?.elim (.ok []) Flag.parseList with
          | error e => rfl
          | ok flags => exact congrArg Except.ok (image_eq { operand := o, alu := a, flags }).symm

end Microcode.Instruction

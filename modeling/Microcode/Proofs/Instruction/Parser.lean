import Microcode.Proofs.Instruction.Syntax
import Microcode.Proofs.Result
import Microcode.Proofs.Text.Pieces

/-!
# Microcode.Proofs.Instruction.Parser

Which fields are read as the stages and the flags of an instruction, and why others are not.

A stage is settled by the pieces between its equal signs (`Operand.parse_eq_ok_iff`,
`Alu.parse_eq_ok_iff`).  A field that is refused cannot be read by itself
(`Instruction.unreadable_of_parse_eq_error`): it is blamed neither on other lines nor on the packer.
-/

namespace Microcode

open Result

/-! ## stages -/

/-- An operand stage is `nop`, or a temporary register and what it is loaded from. -/
theorem Operand.parse_eq_ok_iff {field : List Char} {o : Operand} :
    Operand.parse field = .ok o ↔
      pieces '=' field = ["nop"] ∧ o = .nop ∨
        ∃ target origin temp source, pieces '=' field = [target, origin] ∧
          Temp.ofName? target = some temp ∧ OperandSource.ofName? origin = some source ∧
            o = .load temp source := by
  have hok : ∀ x : Operand, (pure x : Except LineError Operand) = .ok o ↔ o = x := fun x =>
    ⟨fun h => (Except.ok.inj h).symm, fun h => h ▸ rfl⟩
  unfold Operand.parse
  split
  · next op hop =>
      rw [hop]
      by_cases hnop : op = "nop"
      · simp [hnop, eq_comm (a := o)]
      · simp [hnop]
  · next target origin hpieces =>
      rw [hpieces]
      cases htemp : Temp.ofName? target with
      | none => simp [htemp]
      | some temp =>
          cases hsource : OperandSource.ofName? origin with
          | none => simp [hsource]
          | some source => simp [htemp, hsource, hok]
  · next hnone hpair =>
      constructor
      · intro h
        exact nomatch h
      · rintro (⟨hpieces, -⟩ | ⟨target, origin, temp, source, hpieces, -⟩)
        · exact absurd hpieces (hnone _)
        · exact absurd hpieces (hpair _ _)

/-- An ALU stage is empty or `nop`, a carry operation, or a destination and an operation. -/
theorem Alu.parse_eq_ok_iff {field : List Char} {a : Alu} :
    Alu.parse field = .ok a ↔
      (pieces '=' field = [""] ∨ pieces '=' field = ["nop"]) ∧ a = .nop ∨
        (∃ name op, pieces '=' field = [name] ∧ name ≠ "" ∧ name ≠ "nop" ∧
          CarryOp.ofName? name = some op ∧ a = .carry op) ∨
        ∃ target name dest op, pieces '=' field = [target, name] ∧
          AluDest.ofName? target = some dest ∧ AluOp.ofName? name = some op ∧
            a = .assign dest op := by
  have hok : ∀ x : Alu, (pure x : Except LineError Alu) = .ok a ↔ a = x := fun x =>
    ⟨fun h => (Except.ok.inj h).symm, fun h => h ▸ rfl⟩
  unfold Alu.parse
  split
  · next op hop =>
      rw [hop]
      by_cases hnop : op = "" ∨ op = "nop"
      · rcases hnop with rfl | rfl <;> simp [hok]
      · rw [not_or] at hnop
        cases hcarry : CarryOp.ofName? op with
        | none => simp [hnop, hcarry]
        | some carry => simp [hnop, hcarry, hok]
  · next target op hpieces =>
      rw [hpieces]
      cases hdest : AluDest.ofName? target with
      | none => simp [hdest]
      | some dest =>
          cases halu : AluOp.ofName? op with
          | none => simp [halu]
          | some aluOp => simp [hdest, halu, hok]
  · next hnone hpair =>
      constructor
      · intro h
        exact nomatch h
      · rintro (⟨hpieces | hpieces, -⟩ | ⟨name, op, hpieces, -⟩ | ⟨target, name, dest, op, hpieces, -⟩)
        · exact absurd hpieces (hnone _)
        · exact absurd hpieces (hnone _)
        · exact absurd hpieces (hnone _)
        · exact absurd hpieces (hpair _ _)

/-- An instruction is read from its operand stage and the fields after it, which may be missing. -/
theorem Instruction.parse_eq_ok_iff {operand : List Char} {rest : List (List Char)}
    {i : Instruction} :
    Instruction.parse operand rest = .ok i ↔
      Operand.parse operand = .ok i.operand ∧
        rest[0]?.elim (.ok .nop) Alu.parse = .ok i.alu ∧
          rest[1]?.elim (.ok []) Flag.parseList = .ok i.flags := by
  unfold Instruction.parse
  simp only [bind_eq_ok_iff]
  constructor
  · rintro ⟨o, ho, a, ha, flags, hflags, hi⟩
    rw [← Except.ok.inj hi]
    exact ⟨ho, ha, hflags⟩
  · rintro ⟨ho, ha, hflags⟩
    exact ⟨_, ho, _, ha, _, hflags, rfl⟩

/-! ## fields joined from tokens -/

namespace Text

/-- A string in lower case. -/
def lowered (s : String) : String := String.ofList (lower s.toList)

/-- Whether a string is not empty and has no blank and none of the characters that separate the
parts of a line. -/
def isToken (s : String) : Bool :=
  !s.toList.isEmpty && s.toList.all fun c =>
    !isBlank c && c != ';' && c != '=' && c != ',' && c != '/'

/-- The parts of `isToken`. -/
theorem isToken_iff {s : String} :
    isToken s = true ↔
      s.toList ≠ [] ∧ ∀ c ∈ s.toList, isBlank c = false ∧ c ≠ ';' ∧ c ≠ '=' ∧ c ≠ ',' ∧ c ≠ '/' := by
  simp [isToken, and_assoc]

/-- A token has no blanks around it. -/
theorem trimmed_of_isToken {s : String} (h : isToken s = true) : Trimmed s.toList :=
  ⟨fun c hc => ((isToken_iff.mp h).2 c (List.mem_of_mem_head? hc)).1,
    fun c hc => ((isToken_iff.mp h).2 c (List.mem_of_getLast? hc)).1⟩

end Text

open Text

/-- The pieces of a field that was joined from tokens are the tokens, in lower case. -/
theorem pieces_intercalate {separator : Char} (hsep : separator = '=' ∨ separator = ',')
    (before after : List Char) (hbefore : ∀ c ∈ before, isBlank c = true)
    (hafter : ∀ c ∈ after, isBlank c = true) {names : List String} (hne : names ≠ [])
    (h : ∀ name ∈ names, isToken name = true) :
    pieces separator ((before ++ separator :: after).intercalate (names.map String.toList)) =
      names.map lowered := by
  have hblank : isBlank separator = false := by rcases hsep with rfl | rfl <;> decide
  have hcut : ∀ l ∈ names.map String.toList, separator ∉ l := by
    intro l hl hmem
    obtain ⟨name, hname, rfl⟩ := List.mem_map.mp hl
    obtain ⟨-, -, hequal, hcomma, -⟩ := (isToken_iff.mp (h name hname)).2 separator hmem
    rcases hsep with rfl | rfl <;> contradiction
  have htrim := map_trim_splitOn_intercalate hblank hbefore hafter (by simpa using hne) hcut
  have hpieces : ∀ field, pieces separator field =
      ((field.splitOn separator).map trim).map fun s => String.ofList (lower s) := by
    intro field
    rw [pieces, List.map_map]
    rfl
  rw [hpieces, htrim, List.map_map, List.map_map]
  refine List.map_congr_left fun name hname => ?_
  simp only [Function.comp_apply, trim_eq_self (trimmed_of_isToken (h name hname)), lowered]

/-! ## flags -/

/-- Adding a flag, case by case. -/
theorem Flag.append_eq (earlier : List Flag) (token : String) :
    Flag.append earlier token =
      if token = "" then .error .malformedFlagList
      else match Flag.ofToken? token with
        | none => .error (.unknownFlag token)
        | some flag =>
            if earlier.any (·.field == flag.field) then .error (.flagConflict token)
            else .ok (earlier ++ [flag]) := by
  unfold Flag.append
  by_cases hempty : token = ""
  · rw [if_pos hempty, if_pos (beq_iff_eq.mpr hempty)]
    rfl
  · rw [if_neg hempty, if_neg (fun h => hempty (beq_iff_eq.mp h))]
    cases Flag.ofToken? token with
    | none => rfl
    | some flag =>
        by_cases hfield : earlier.any (·.field == flag.field)
        · simp only [hfield, if_true]; rfl
        · simp only [hfield]; rfl

/-! ## errors of the fields -/

/-- Whether an error says that a line cannot be read, whatever the other lines are. -/
def LineError.unreadable : LineError → Bool
  | .duplicateLabel _ _ => false
  | .invalidPattern _ => false
  | .duplicatePattern _ _ => false
  | .duplicateMnemonic _ _ => false
  | .ambiguousOpcode _ _ _ _ => false
  | .encoding _ => false
  | _ => true

/-- A line that cannot be read is not blamed on the packer. -/
theorem LineError.kind_of_unreadable {e : LineError} (h : e.unreadable = true) :
    e.kind ≠ .encodingOverflow := by
  cases e <;> simp_all [LineError.unreadable, LineError.kind]

theorem Operand.unreadable_of_parse_eq_error {field : List Char} {e : LineError}
    (h : Operand.parse field = .error e) : e.unreadable = true := by
  unfold Operand.parse at h
  split at h
  · split at h
    · contradiction
    · rw [← Except.error.inj h]; rfl
  · split at h
    · split at h
      · contradiction
      · rw [← Except.error.inj h]; rfl
    · rw [← Except.error.inj h]; rfl
  · rw [← Except.error.inj h]; rfl

theorem Alu.unreadable_of_parse_eq_error {field : List Char} {e : LineError}
    (h : Alu.parse field = .error e) : e.unreadable = true := by
  unfold Alu.parse at h
  split at h
  · split at h
    · contradiction
    · split at h
      · contradiction
      · rw [← Except.error.inj h]; rfl
  · split at h
    · split at h
      · contradiction
      · rw [← Except.error.inj h]; rfl
    · rw [← Except.error.inj h]; rfl
  · rw [← Except.error.inj h]; rfl

theorem Flag.unreadable_of_append_eq_error {earlier : List Flag} {token : String} {e : LineError}
    (h : Flag.append earlier token = .error e) : e.unreadable = true := by
  rw [Flag.append_eq] at h
  split at h
  · rw [← Except.error.inj h]; rfl
  · split at h
    · rw [← Except.error.inj h]; rfl
    · split at h
      · rw [← Except.error.inj h]; rfl
      · contradiction

/-- A list of flags fails as one of its flags does. -/
theorem Flag.unreadable_of_parseList_eq_error {field : List Char} {e : LineError}
    (h : Flag.parseList field = .error e) : e.unreadable = true := by
  unfold Flag.parseList at h
  split at h
  · contradiction
  · generalize pieces ',' field = tokens at h
    generalize ([] : List Flag) = earlier at h
    induction tokens generalizing earlier with
    | nil => contradiction
    | cons token tokens ih =>
        rw [List.foldlM_cons, bind_eq_error_iff] at h
        rcases h with h | ⟨flags, -, h⟩
        · exact Flag.unreadable_of_append_eq_error h
        · exact ih flags h

/-- An instruction fails as one of its three fields does. -/
theorem Instruction.unreadable_of_parse_eq_error {operand : List Char} {rest : List (List Char)}
    {e : LineError} (h : Instruction.parse operand rest = .error e) : e.unreadable = true := by
  unfold Instruction.parse at h
  rcases bind_eq_error_iff.mp h with hop | ⟨o, -, hrest⟩
  · exact Operand.unreadable_of_parse_eq_error hop
  rcases bind_eq_error_iff.mp hrest with halu | ⟨a, -, hrest⟩
  · cases hfield : rest[0]? with
    | none => rw [hfield] at halu; contradiction
    | some field =>
        rw [hfield] at halu
        exact Alu.unreadable_of_parse_eq_error halu
  rcases bind_eq_error_iff.mp hrest with hflags | ⟨flags, -, hrest⟩
  · cases hfield : rest[1]? with
    | none => rw [hfield] at hflags; contradiction
    | some field =>
        rw [hfield] at hflags
        exact Flag.unreadable_of_parseList_eq_error hflags
  · contradiction

end Microcode

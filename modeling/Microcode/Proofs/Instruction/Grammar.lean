import Microcode.Proofs.Instruction.Parser
import Microcode.Proofs.Word.Jump

/-!
# Microcode.Proofs.Instruction.Grammar

The source syntax of regular instructions, as a grammar.

`Spelled` says which fields spell which stage, which flags and which instruction, once the pieces
of the fields are trimmed and in lower case.  There is nothing in it about the order in which a
field is looked at or about what is wrong with other fields.  Reading gives an instruction exactly
for the fields that spell it (`Instruction.parse_eq_ok_iff_spelled`).
-/

namespace Microcode

open Result

/-! ## names -/

theorem Temp.ofName?_eq_some_iff {s : String} {temp : Temp} :
    ofName? s = some temp ↔ s = temp.name :=
  find?_code_eq_some_iff fun temp => by cases temp <;> rfl

theorem CarryOp.ofName?_eq_some_iff {s : String} {op : CarryOp} :
    ofName? s = some op ↔ s = op.name :=
  find?_code_eq_some_iff fun op => by cases op <;> rfl

theorem AluOp.ofName?_eq_some_iff {s : String} {op : AluOp} : ofName? s = some op ↔ s = op.name :=
  find?_code_eq_some_iff fun op => by cases op <;> rfl

theorem Flag.ofToken?_eq_some_iff {s : String} {flag : Flag} :
    ofToken? s = some flag ↔ s = flag.token :=
  find?_code_eq_some_iff fun flag => by cases flag <;> rfl

theorem Register.ofName?_eq_some_iff {s : String} {r : Register} :
    ofName? s = some r ↔ s = r.name :=
  find?_code_eq_some_iff fun r => by cases r <;> rfl

theorem Alias.ofName?_eq_some_iff {s : String} {a : Alias} : ofName? s = some a ↔ s = a.name :=
  find?_code_eq_some_iff fun a => by cases a <;> rfl

/-- A register is never taken for an alias. -/
theorem BankRef.ofName?_eq_some_iff {s : String} {ref : BankRef} :
    ofName? s = some ref ↔ s = ref.name := by
  constructor
  · intro h
    unfold ofName? at h
    cases hr : Register.ofName? s with
    | some r =>
        rw [hr] at h
        rw [← Option.some.inj h]
        exact Register.ofName?_eq_some_iff.mp hr
    | none =>
        rw [hr] at h
        obtain ⟨a, ha, rfl⟩ := Option.map_eq_some_iff.mp h
        exact Alias.ofName?_eq_some_iff.mp ha
  · rintro rfl
    obtain r | a := ref
    · cases r <;> rfl
    · cases a <;> rfl

/-- A name is looked up in the bank first, and may stand for something else if it is not found. -/
theorem BankRef.orElse_eq_some_iff {β : Type} {bank : BankRef → β} {other : β} {word s : String}
    {x : β} (hword : ofName? word = none) :
    ((ofName? s).map bank <|> if s == word then some other else none) = some x ↔
      (∃ ref : BankRef, s = ref.name ∧ bank ref = x) ∨ s = word ∧ other = x := by
  cases h : ofName? s with
  | some ref =>
      have hne : s ≠ word := fun heq => by simp [heq, hword] at h
      obtain rfl := ofName?_eq_some_iff.mp h
      constructor
      · intro hx
        exact .inl ⟨ref, rfl, Option.some.inj hx⟩
      · rintro (⟨ref', hname, rfl⟩ | ⟨heq, -⟩)
        · rw [Option.some.inj (h.symm.trans (ofName?_eq_some_iff.mpr hname))]
          rfl
        · exact absurd heq hne
  | none =>
      have hnone : ¬∃ ref : BankRef, s = ref.name ∧ bank ref = x := by
        rintro ⟨ref, hname, -⟩
        simp [ofName?_eq_some_iff.mpr hname] at h
      simp [hnone]

def OperandSource.name : OperandSource → String
  | .bank ref => ref.name
  | .dataIn => "di"

theorem OperandSource.ofName?_eq_some_iff {s : String} {source : OperandSource} :
    ofName? s = some source ↔ s = source.name := by
  rw [ofName?, BankRef.orElse_eq_some_iff (by decide)]
  cases source <;> simp [name]

def AluDest.name : AluDest → String
  | .bank ref => ref.name
  | .dataOut => "do"

theorem AluDest.ofName?_eq_some_iff {s : String} {dest : AluDest} :
    ofName? s = some dest ↔ s = dest.name := by
  rw [ofName?, BankRef.orElse_eq_some_iff (by decide)]
  cases dest <;> simp [name]

/-! ## stages -/

/-- The pieces of a field that spell an operand stage. -/
inductive Operand.Spelled : Operand → List String → Prop
  | nop : Spelled .nop ["nop"]
  | load (temp : Temp) (source : OperandSource) :
      Spelled (.load temp source) [temp.name, source.name]

/-- The pieces of a field that spell an ALU stage. -/
inductive Alu.Spelled : Alu → List String → Prop
  | empty : Spelled .nop [""]
  | nop : Spelled .nop ["nop"]
  | carry (op : CarryOp) : Spelled (.carry op) [op.name]
  | assign (dest : AluDest) (op : AluOp) : Spelled (.assign dest op) [dest.name, op.name]

theorem Operand.parse_eq_ok_iff_spelled {field : List Char} {o : Operand} :
    Operand.parse field = .ok o ↔ o.Spelled (pieces '=' field) := by
  rw [parse_eq_ok_iff]
  generalize pieces '=' field = names
  constructor
  · rintro (⟨rfl, rfl⟩ | ⟨target, origin, temp, source, rfl, htemp, hsource, rfl⟩)
    · exact .nop
    · rw [Temp.ofName?_eq_some_iff.mp htemp, OperandSource.ofName?_eq_some_iff.mp hsource]
      exact .load temp source
  · intro h
    cases h with
    | nop => exact .inl ⟨rfl, rfl⟩
    | load temp source =>
        exact .inr ⟨_, _, temp, source, rfl, Temp.ofName?_eq_some_iff.mpr rfl,
          OperandSource.ofName?_eq_some_iff.mpr rfl, rfl⟩

theorem Alu.parse_eq_ok_iff_spelled {field : List Char} {a : Alu} :
    Alu.parse field = .ok a ↔ a.Spelled (pieces '=' field) := by
  rw [parse_eq_ok_iff]
  generalize pieces '=' field = names
  constructor
  · rintro (⟨rfl | rfl, rfl⟩ | ⟨name, op, rfl, -, -, hop, rfl⟩ |
      ⟨target, name, dest, op, rfl, hdest, hop, rfl⟩)
    · exact .empty
    · exact .nop
    · rw [CarryOp.ofName?_eq_some_iff.mp hop]
      exact .carry op
    · rw [AluDest.ofName?_eq_some_iff.mp hdest, AluOp.ofName?_eq_some_iff.mp hop]
      exact .assign dest op
  · intro h
    cases h with
    | empty => exact .inl ⟨.inl rfl, rfl⟩
    | nop => exact .inl ⟨.inr rfl, rfl⟩
    | carry op =>
        have hname : op.name ≠ "" ∧ op.name ≠ "nop" := by cases op <;> decide
        exact .inr (.inl ⟨_, op, rfl, hname.1, hname.2, CarryOp.ofName?_eq_some_iff.mpr rfl, rfl⟩)
    | assign dest op =>
        exact .inr (.inr ⟨_, _, dest, op, rfl, AluDest.ofName?_eq_some_iff.mpr rfl,
          AluOp.ofName?_eq_some_iff.mpr rfl, rfl⟩)

/-- A field spells at most one ALU stage. -/
theorem Alu.Spelled.unique {a b : Alu} {field : List Char} (ha : a.Spelled (pieces '=' field))
    (hb : b.Spelled (pieces '=' field)) : a = b :=
  Except.ok.inj ((parse_eq_ok_iff_spelled.mpr ha).symm.trans (parse_eq_ok_iff_spelled.mpr hb))

/-! ## flags -/

/-- Flags in a field: none in an empty one, otherwise tokens between commas, each for another
field of the word. -/
inductive Flag.Spelled : List Flag → List Char → Prop
  | none : Spelled [] []
  | list {flags : List Flag} {field : List Char} (hpieces : pieces ',' field = flags.map (·.token))
      (hfields : flags.Pairwise fun a b => a.field ≠ b.field) : Spelled flags field

/-- A token is added when it is that of a flag for a field that no earlier flag writes. -/
theorem Flag.append_eq_ok_iff {earlier flags : List Flag} {token : String} :
    Flag.append earlier token = .ok flags ↔
      ∃ flag : Flag, token = flag.token ∧ (∀ a ∈ earlier, a.field ≠ flag.field) ∧
        flags = earlier ++ [flag] := by
  rw [append_eq]
  constructor
  · intro h
    split at h
    · exact nomatch h
    · split at h
      · exact nomatch h
      · next flag hflag =>
          split at h
          · exact nomatch h
          · next hfresh =>
              exact ⟨flag, ofToken?_eq_some_iff.mp hflag, by simpa using hfresh,
                (Except.ok.inj h).symm⟩
  · rintro ⟨flag, rfl, hfresh, rfl⟩
    have hne : flag.token ≠ "" := by cases flag <;> decide
    have hany : earlier.any (·.field == flag.field) = false := by simpa using hfresh
    simp only [hne, if_false, ofToken?_eq_some_iff.mpr rfl, hany, Bool.false_eq_true]

/-- Reading tokens after other flags adds the flags that they are, all for different fields. -/
theorem Flag.foldlM_append_eq_ok_iff {earlier flags : List Flag} {tokens : List String}
    (h : earlier.Pairwise fun a b => a.field ≠ b.field) :
    tokens.foldlM Flag.append earlier = .ok flags ↔
      ∃ added : List Flag, tokens = added.map (·.token) ∧ flags = earlier ++ added ∧
        flags.Pairwise fun a b => a.field ≠ b.field := by
  induction tokens generalizing earlier with
  | nil =>
      constructor
      · intro hok
        obtain rfl : earlier = flags := Except.ok.inj hok
        exact ⟨[], rfl, (List.append_nil _).symm, h⟩
      · rintro ⟨added, htokens, rfl, -⟩
        rw [List.map_eq_nil_iff.mp htokens.symm, List.append_nil]
        rfl
  | cons token tokens ih =>
      rw [List.foldlM_cons, bind_eq_ok_iff]
      constructor
      · rintro ⟨next, hnext, hrest⟩
        obtain ⟨flag, rfl, hfresh, rfl⟩ := append_eq_ok_iff.mp hnext
        have hpairwise : (earlier ++ [flag]).Pairwise fun a b => a.field ≠ b.field := by
          simpa [List.pairwise_append, h] using hfresh
        obtain ⟨added, rfl, rfl, hflags⟩ := (ih hpairwise).mp hrest
        exact ⟨flag :: added, rfl, by simp, hflags⟩
      · rintro ⟨added, htokens, rfl, hflags⟩
        obtain ⟨flag, added, rfl, rfl, rfl⟩ := List.map_eq_cons_iff.mp htokens.symm
        have hsplit : earlier ++ flag :: added = (earlier ++ [flag]) ++ added := by simp
        have hfresh : ∀ a ∈ earlier, a.field ≠ flag.field := fun a ha =>
          (List.pairwise_append.mp hflags).2.2 a ha flag List.mem_cons_self
        have hpairwise := (List.pairwise_append.mp (hsplit ▸ hflags)).1
        exact ⟨_, append_eq_ok_iff.mpr ⟨flag, rfl, hfresh, rfl⟩,
          (ih hpairwise).mpr ⟨added, rfl, hsplit, hflags⟩⟩

theorem Flag.parseList_eq_ok_iff_spelled {field : List Char} {flags : List Flag} :
    Flag.parseList field = .ok flags ↔ Flag.Spelled flags field := by
  have hlist : (pieces ',' field).foldlM Flag.append [] = .ok flags ↔
      pieces ',' field = flags.map (·.token) ∧ flags.Pairwise fun a b => a.field ≠ b.field := by
    rw [foldlM_append_eq_ok_iff List.Pairwise.nil]
    constructor
    · rintro ⟨added, hpieces, rfl, hfields⟩
      exact ⟨hpieces, hfields⟩
    · rintro ⟨hpieces, hfields⟩
      exact ⟨flags, hpieces, rfl, hfields⟩
  unfold parseList
  split
  · next hempty =>
      obtain rfl := List.isEmpty_iff.mp hempty
      constructor
      · intro h
        obtain rfl := Except.ok.inj h
        exact .none
      · intro h
        cases h with
        | none => rfl
        | list hpieces hfields =>
            -- the one piece of an empty field is no token
            cases flags with
            | nil => rfl
            | cons flag rest =>
                have htoken : "" ≠ flag.token := by cases flag <;> decide
                exact absurd (List.cons.inj hpieces).1 htoken
  · next hne =>
      rw [hlist]
      constructor
      · rintro ⟨hpieces, hfields⟩
        exact .list hpieces hfields
      · intro h
        cases h with
        | none => exact absurd rfl hne
        | list hpieces hfields => exact ⟨hpieces, hfields⟩

/-- Flags that are spelled in a field write different fields of the word. -/
theorem Flag.Spelled.pairwise {flags : List Flag} {field : List Char}
    (h : Flag.Spelled flags field) : flags.Pairwise fun a b => a.field ≠ b.field := by
  cases h with
  | none => exact .nil
  | list _ hfields => exact hfields

/-! ## instructions -/

/-- The fields that spell an instruction: an operand stage, then an ALU stage and flags, which may
be missing. -/
inductive Instruction.Spelled : Instruction → List (List Char) → Prop
  | operand {o : Operand} {field : List Char} (ho : o.Spelled (pieces '=' field)) :
      Spelled { operand := o } [field]
  | alu {o : Operand} {a : Alu} {field field' : List Char} (ho : o.Spelled (pieces '=' field))
      (ha : a.Spelled (pieces '=' field')) : Spelled { operand := o, alu := a } [field, field']
  | flags {o : Operand} {a : Alu} {flags : List Flag} {field field' field'' : List Char}
      (ho : o.Spelled (pieces '=' field)) (ha : a.Spelled (pieces '=' field'))
      (hflags : Flag.Spelled flags field'') :
      Spelled { operand := o, alu := a, flags } [field, field', field'']

/-- An instruction has one to three fields, and the first one is not empty. -/
theorem Instruction.Spelled.bounds {i : Instruction} {fields : List (List Char)}
    (h : i.Spelled fields) : fields.length ≤ 3 ∧ fields.head? ≠ some [] := by
  have hne : ∀ {o : Operand} {field : List Char}, o.Spelled (pieces '=' field) → field ≠ [] := by
    rintro o _ ho rfl
    generalize hnames : pieces '=' [] = names at ho
    cases ho with
    | nop => exact absurd hnames (by decide)
    | load _ _ => exact absurd (congrArg List.length hnames) (by simp [pieces])
  cases h with
  | operand ho => simp [hne ho]
  | alu ho _ => simp [hne ho]
  | flags ho _ _ => simp [hne ho]

/-- The first field spells the operand stage. -/
theorem Instruction.Spelled.operand_spelled {i : Instruction} {fields : List (List Char)}
    (h : i.Spelled fields) : i.operand.Spelled (pieces '=' (fields.headD [])) := by
  cases h with
  | operand ho => exact ho
  | alu ho _ => exact ho
  | flags ho _ _ => exact ho

/-- The flags of an instruction write different fields of its word. -/
theorem Instruction.Spelled.pairwise_flags {i : Instruction} {fields : List (List Char)}
    (h : i.Spelled fields) : i.flags.Pairwise fun a b => a.field ≠ b.field := by
  cases h with
  | operand _ => exact .nil
  | alu _ _ => exact .nil
  | flags _ _ hflags => exact hflags.pairwise

/-- Reading gives an instruction exactly for the fields that spell it. -/
theorem Instruction.parse_eq_ok_iff_spelled {field : List Char} {rest : List (List Char)}
    (hrest : rest.length ≤ 2) {i : Instruction} :
    Instruction.parse field rest = .ok i ↔ i.Spelled (field :: rest) := by
  obtain ⟨o, a, flags⟩ := i
  rw [parse_eq_ok_iff, Operand.parse_eq_ok_iff_spelled]
  match rest with
  | [] =>
      constructor
      · rintro ⟨ho, ha, hflags⟩
        obtain rfl : .nop = a := Except.ok.inj ha
        obtain rfl : [] = flags := Except.ok.inj hflags
        exact .operand ho
      · intro h
        cases h with
        | operand ho => exact ⟨ho, rfl, rfl⟩
  | [field'] =>
      constructor
      · rintro ⟨ho, ha, hflags⟩
        obtain rfl : [] = flags := Except.ok.inj hflags
        exact .alu ho (Alu.parse_eq_ok_iff_spelled.mp ha)
      · intro h
        cases h with
        | alu ho ha => exact ⟨ho, Alu.parse_eq_ok_iff_spelled.mpr ha, rfl⟩
  | [field', field''] =>
      constructor
      · rintro ⟨ho, ha, hflags⟩
        exact .flags ho (Alu.parse_eq_ok_iff_spelled.mp ha)
          (Flag.parseList_eq_ok_iff_spelled.mp hflags)
      · intro h
        cases h with
        | flags ho ha hflags =>
            exact ⟨ho, Alu.parse_eq_ok_iff_spelled.mpr ha,
              Flag.parseList_eq_ok_iff_spelled.mpr hflags⟩

end Microcode

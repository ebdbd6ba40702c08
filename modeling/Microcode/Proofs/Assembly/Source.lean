import Microcode.Assembly.Config
import Microcode.Assembly.Draft
import Microcode.Proofs.Opcode.Decode
import Mathlib.Data.List.Induction

/-!
# Microcode.Proofs.Assembly.Source

A source as a list of lines, without drafts and tables.

What a source means is said here line by line: which line holds what (`Holds`), how many words
stand before a line (`addressAt`, a natural number that never wraps), and which lines decide an
opcode (`Cheapest`, `Decodes`).  A source is `WellFormed` when the first pass has no reason to refuse
a line, and `Assembles` when the second has none either.

`gather` collects what the lines define, in source order.  It grows by one line at a time
(`gather_append_singleton`), which is how a draft does.
-/

namespace Microcode.Source

/-! ## lines and addresses -/

/-- The line with the given index, counted from 0, reads as `line`. -/
def Holds (lines : List String) (i : Nat) (line : Line) : Prop :=
  ∃ raw, lines[i]? = some raw ∧ Line.parse raw = .ok (some line)

/-- What a source line holds, if it can be read and is not blank. -/
def content? (raw : String) : Option Line := (Line.parse raw).toOption.join

/-- Whether a source line gives a word. -/
def emits (raw : String) : Bool := (content? raw).any Line.emits

/-- The number of words that lines give. -/
def wordCount (lines : List String) : Nat := lines.countP emits

/-- The number of words that stand before the line with the given index. -/
def addressAt (lines : List String) (i : Nat) : Nat := wordCount (lines.take i)

/-- A readable line holds what was read. -/
theorem content?_of_parse {raw : String} {content : Option Line}
    (h : Line.parse raw = .ok content) : content? raw = content := by
  rw [content?, h]
  cases content <;> rfl

theorem content?_eq_some_iff {raw : String} {line : Line} :
    content? raw = some line ↔ Line.parse raw = .ok (some line) := by
  constructor
  · intro h
    cases hparse : Line.parse raw with
    | error e => rw [content?, hparse] at h; contradiction
    | ok content => rw [content?_of_parse hparse] at h; rw [h]
  · exact content?_of_parse

theorem emits_eq_true_iff {raw : String} :
    emits raw = true ↔ ∃ line, Line.parse raw = .ok (some line) ∧ line.emits = true := by
  unfold emits
  rw [Option.any_eq_true]
  simp only [content?_eq_some_iff]

/-- A line is an index of the source. -/
theorem Holds.lt_length {lines : List String} {i : Nat} {line : Line} (h : Holds lines i line) :
    i < lines.length := by
  obtain ⟨raw, hraw, -⟩ := h
  exact (List.getElem?_eq_some_iff.mp hraw).1

/-- The lines of a longer source. -/
theorem holds_append_singleton {lines : List String} {raw : String} {i : Nat} {line : Line} :
    Holds (lines ++ [raw]) i line ↔
      Holds lines i line ∨ (i = lines.length ∧ Line.parse raw = .ok (some line)) := by
  unfold Holds
  rcases Nat.lt_trichotomy i lines.length with hlt | rfl | hgt
  · simp [List.getElem?_append_left hlt, Nat.ne_of_lt hlt]
  · simp
  · have hout : (lines ++ [raw])[i]? = none := by
      rw [List.getElem?_eq_none_iff, List.length_append, List.length_singleton]
      omega
    have hout' : lines[i]? = none := List.getElem?_eq_none_iff.mpr (Nat.le_of_lt hgt)
    simp [hout, hout', Nat.ne_of_gt hgt]

@[simp] theorem not_holds_nil {i : Nat} {line : Line} : ¬Holds [] i line := by
  rintro ⟨raw, hraw, -⟩
  simp at hraw

theorem wordCount_append (lines more : List String) :
    wordCount (lines ++ more) = wordCount lines + wordCount more := List.countP_append

theorem wordCount_singleton (raw : String) : wordCount [raw] = (emits raw).toNat := by
  rw [wordCount, List.countP_singleton]
  cases emits raw <;> rfl

/-- The words before a line do not depend on what follows it. -/
theorem addressAt_append {lines : List String} {i : Nat} (h : i ≤ lines.length)
    (more : List String) : addressAt (lines ++ more) i = addressAt lines i := by
  rw [addressAt, List.take_append_of_le_length h, addressAt]

/-- The words before a line of the second part are those of the first part and those in the second. -/
theorem addressAt_append_right (before after : List String) (i : Nat) :
    addressAt (before ++ after) (before.length + i) = wordCount before + addressAt after i := by
  simp only [addressAt, List.take_length_add_append, wordCount_append]

@[simp] theorem addressAt_length (lines : List String) :
    addressAt lines lines.length = wordCount lines := by
  rw [addressAt, List.take_length]

/-- No more words stand before a line than before a later one. -/
theorem addressAt_mono (lines : List String) {i j : Nat} (h : i ≤ j) :
    addressAt lines i ≤ addressAt lines j := by
  rw [addressAt, addressAt, ← List.take_append_drop i (lines.take j), wordCount_append,
    List.take_take, Nat.min_eq_left h]
  exact Nat.le_add_right _ _

/-- No more words stand before a line than in the whole source. -/
theorem addressAt_le (lines : List String) (i : Nat) : addressAt lines i ≤ wordCount lines := by
  rw [← List.take_append_drop i lines, wordCount_append, ← addressAt, List.take_append_drop]
  exact Nat.le_add_right _ _

/-- A line that gives a word moves the address on by one. -/
theorem addressAt_succ {lines : List String} {i : Nat} {raw : String} (h : lines[i]? = some raw) :
    addressAt lines (i + 1) = addressAt lines i + (emits raw).toNat := by
  rw [addressAt, List.take_add_one, h, Option.toList_some, wordCount_append, wordCount_singleton,
    addressAt]

/-- The line that gives a word stands before the end of the code. -/
theorem addressAt_lt_of_emits {lines : List String} {i j : Nat} {raw : String}
    (h : lines[i]? = some raw) (hemits : emits raw = true) (hij : i < j) :
    addressAt lines i < addressAt lines j := by
  have hsucc := addressAt_succ h
  have hmono := addressAt_mono lines (show i + 1 ≤ j from hij)
  rw [hemits] at hsucc
  simp only [Bool.toNat_true] at hsucc
  omega

/-- Every word is given by a line. -/
theorem exists_line_of_lt_wordCount {lines : List String} {a : Nat} (h : a < wordCount lines) :
    ∃ i raw, lines[i]? = some raw ∧ emits raw = true ∧ addressAt lines i = a := by
  induction lines using List.reverseRecOn with
  | nil => exact absurd h (Nat.not_lt_zero a)
  | append_singleton lines raw ih =>
      rw [wordCount_append, wordCount_singleton] at h
      by_cases hlt : a < wordCount lines
      · obtain ⟨i, raw', hraw, hemits, haddr⟩ := ih hlt
        have hi := (List.getElem?_eq_some_iff.mp hraw).1
        refine ⟨i, raw', ?_, hemits, ?_⟩
        · rw [List.getElem?_append_left hi, hraw]
        · rw [addressAt_append (Nat.le_of_lt hi), haddr]
      · have hemits : emits raw = true := by
          cases hraw : emits raw with
          | true => rfl
          | false => rw [hraw] at h; exact absurd h hlt
        rw [hemits, Bool.toNat_true] at h
        refine ⟨lines.length, raw, ?_, hemits, ?_⟩
        · simp
        · rw [addressAt_append (Nat.le_refl _), addressAt_length]
          omega

/-- No two lines give the same word. -/
theorem eq_of_addressAt_eq {lines : List String} {i j : Nat} {raw raw' : String}
    (hi : lines[i]? = some raw) (hj : lines[j]? = some raw') (hemits : emits raw = true)
    (hemits' : emits raw' = true) (h : addressAt lines i = addressAt lines j) : i = j := by
  rcases Nat.lt_trichotomy i j with hlt | heq | hgt
  · exact absurd h (Nat.ne_of_lt (addressAt_lt_of_emits hi hemits hlt))
  · exact heq
  · exact absurd h.symm (Nat.ne_of_lt (addressAt_lt_of_emits hj hemits' hgt))

/-! ## a part of a source -/

section Part

variable (before : List String) {part : List String} (after : List String) {i : Nat}

/-- What a line holds depends on its text only. -/
theorem holds_congr {lines lines' : List String} {i j : Nat} (h : lines[i]? = lines'[j]?)
    {line : Line} : Holds lines i line ↔ Holds lines' j line := by
  simp only [Holds, h]

/-- The first lines of a source are lines of the source. -/
theorem holds_take_iff {lines : List String} {i j : Nat} {line : Line} :
    Holds (lines.take i) j line ↔ j < i ∧ Holds lines j line := by
  by_cases hlt : j < i
  · rw [holds_congr (List.getElem?_take_of_lt hlt)]
    simp [hlt]
  · have hout : (lines.take i)[j]? = none :=
      List.getElem?_eq_none (Nat.le_trans (List.length_take_le i lines) (Nat.le_of_not_lt hlt))
    simp only [Holds, hout, hlt, reduceCtorEq, false_and, exists_false]

/-- The lines of a part of a source are lines of the source. -/
theorem holds_part_iff (hi : i < part.length) {line : Line} :
    Holds (before ++ (part ++ after)) (before.length + i) line ↔ Holds part i line := by
  apply holds_congr
  simp [List.getElem?_append_right, List.getElem?_append_left hi]

/-- The words before a line of a part are those before the part and those in it. -/
theorem addressAt_part (hi : i ≤ part.length) :
    addressAt (before ++ (part ++ after)) (before.length + i) =
      wordCount before + addressAt part i := by
  simp only [addressAt, List.take_length_add_append, wordCount_append,
    List.take_append_of_le_length hi]

end Part

/-! ## what the lines define -/

/-- What the lines of a source define, in source order: `f` is given the text of a line, the number
of words before it, and its number, counted from 1. -/
def gather {α : Type} (f : String → Nat → Nat → Option α) (lines : List String) : List α :=
  lines.zipIdx.filterMap fun (raw, i) => f raw (addressAt lines i) (i + 1)

/-- Lines that stand after others define what they define alone, with the words and the lines before
them counted in. -/
theorem gather_append {α : Type} (f : String → Nat → Nat → Option α) (before after : List String) :
    gather f (before ++ after) =
      gather f before ++
        gather (fun raw a n => f raw (wordCount before + a) (before.length + n)) after := by
  unfold gather
  rw [List.zipIdx_append, List.filterMap_append]
  congr 1
  · refine List.filterMap_congr fun ⟨raw, i⟩ hx => ?_
    simp only [addressAt_append (Nat.le_of_lt (List.snd_lt_of_mem_zipIdx hx))]
  · rw [List.zipIdx_eq_map_add, List.filterMap_map]
    refine List.filterMap_congr fun x _ => ?_
    simp only [Function.comp_apply, Nat.zero_add, addressAt_append_right, Nat.add_assoc]

theorem gather_singleton {α : Type} (f : String → Nat → Nat → Option α) (raw : String) :
    gather f [raw] = (f raw 0 1).toList := by
  cases h : f raw 0 1 <;> simp [gather, addressAt, wordCount, h]

/-- A further line adds what it defines itself. -/
theorem gather_append_singleton {α : Type} (f : String → Nat → Nat → Option α)
    (lines : List String) (raw : String) :
    gather f (lines ++ [raw]) =
      gather f lines ++ (f raw (wordCount lines) (lines.length + 1)).toList := by
  rw [gather_append, gather_singleton, Nat.add_zero]

/-- What the lines define comes from one of them. -/
theorem mem_gather_iff {α : Type} {f : String → Nat → Nat → Option α} {lines : List String}
    {x : α} :
    x ∈ gather f lines ↔
      ∃ i raw, lines[i]? = some raw ∧ f raw (addressAt lines i) (i + 1) = some x := by
  unfold gather
  rw [List.mem_filterMap]
  constructor
  · rintro ⟨⟨raw, i⟩, hmem, hx⟩
    exact ⟨i, raw, List.mk_mem_zipIdx_iff_getElem?.mp hmem, hx⟩
  · rintro ⟨i, raw, hraw, hx⟩
    exact ⟨(raw, i), List.mk_mem_zipIdx_iff_getElem?.mpr hraw, hx⟩

/-- What the lines define stands in the order of the lines. -/
theorem pairwise_gather {α : Type} {f : String → Nat → Nat → Option α} {line : α → Nat}
    (hline : ∀ raw a n x, f raw a n = some x → line x = n) (lines : List String) :
    (gather f lines).Pairwise fun x y => line x < line y := by
  induction lines using List.reverseRecOn with
  | nil => exact List.Pairwise.nil
  | append_singleton lines raw ih =>
      rw [gather_append_singleton, List.pairwise_append]
      refine ⟨ih, ?_, ?_⟩
      · cases f raw (wordCount lines) (lines.length + 1) with
        | none => exact List.Pairwise.nil
        | some x => exact List.pairwise_singleton _ x
      · intro x hx y hy
        obtain ⟨i, raw', hraw', hx⟩ := mem_gather_iff.mp hx
        have hi := (List.getElem?_eq_some_iff.mp hraw').1
        rw [hline _ _ _ _ hx, hline _ _ _ _ (Option.mem_toList.mp hy)]
        omega

/-- Choosing among what the lines define is the same as choosing line by line. -/
theorem filterMap_gather {α β : Type} (f : String → Nat → Nat → Option α) (g : α → Option β)
    (lines : List String) :
    (gather f lines).filterMap g = gather (fun raw a n => (f raw a n).bind g) lines := by
  simp only [gather, List.filterMap_filterMap]

/-- When every line defines something, there is as much as there are lines. -/
theorem length_gather_some {α : Type} (f : String → Nat → Nat → α) (lines : List String) :
    (gather (fun raw a n => some (f raw a n)) lines).length = lines.length := by
  simp [gather]

/-- And what a line defines stands at the index of the line. -/
theorem getElem?_gather_some {α : Type} (f : String → Nat → Nat → α) {lines : List String} {i : Nat}
    {raw : String} (hraw : lines[i]? = some raw) :
    (gather (fun raw a n => some (f raw a n)) lines)[i]? =
      some (f raw (addressAt lines i) (i + 1)) := by
  simp [gather, List.filterMap_eq_map', hraw]

/-- When exactly the lines that give a word define something, they define as much as they give. -/
theorem length_gather {α : Type} {f : String → Nat → Nat → Option α}
    (hf : ∀ raw a n, (f raw a n).isSome = emits raw) (lines : List String) :
    (gather f lines).length = wordCount lines := by
  induction lines using List.reverseRecOn with
  | nil => rfl
  | append_singleton lines raw ih =>
      rw [gather_append_singleton, List.length_append, ih, wordCount_append, wordCount_singleton,
        ← hf raw (wordCount lines) (lines.length + 1)]
      cases f raw (wordCount lines) (lines.length + 1) <;> rfl

/-- And what a line defines stands at the address of the line. -/
theorem getElem?_gather {α : Type} {f : String → Nat → Nat → Option α}
    (hf : ∀ raw a n, (f raw a n).isSome = emits raw) {lines : List String} {i : Nat} {raw : String}
    (hraw : lines[i]? = some raw) (hemits : emits raw = true) :
    (gather f lines)[addressAt lines i]? = f raw (addressAt lines i) (i + 1) := by
  obtain ⟨hi, rfl⟩ := List.getElem?_eq_some_iff.mp hraw
  have hlines : lines = lines.take i ++ ([lines[i]] ++ lines.drop (i + 1)) := by simp
  have hlength : (gather f (lines.take i)).length = addressAt lines i := length_gather hf _
  obtain ⟨x, hx⟩ := Option.isSome_iff_exists.mp ((hf _ (addressAt lines i) (i + 1)).trans hemits)
  conv => lhs; arg 1; rw [hlines]
  rw [gather_append, gather_append, gather_singleton, List.getElem?_append_right (by omega), hlength,
    Nat.sub_self, Nat.add_zero, List.length_take_of_le (Nat.le_of_lt hi), ← addressAt, hx]
  rfl

/-! ## well-formed sources -/

/-- The line declares an opcode pattern with the given text. -/
def Declares (lines : List String) (i : Nat) (text : List Char) : Prop :=
  ∃ params, Holds lines i (.pragma .code params) ∧ text = PatternText.unquoted params

/-- What the first pass asks of a source. -/
structure WellFormed (lines : List String) : Prop where
  /-- Every line can be read. -/
  readable : ∀ raw ∈ lines, ∃ content, Line.parse raw = .ok content
  /-- Every opcode pattern is one. -/
  patterns_valid : ∀ i text, Declares lines i text → PatternText.Valid text
  /-- No label is defined twice. -/
  labels_unique : ∀ i j name, Holds lines i (.label name) → Holds lines j (.label name) → i = j
  /-- No opcode pattern is declared twice. -/
  patterns_unique : ∀ i j text, Declares lines i text → Declares lines j text → i = j
  /-- No mnemonic is given twice. -/
  mnemonics_unique : ∀ i j text,
    Holds lines i (.pragma .mnemonic text) → Holds lines j (.pragma .mnemonic text) → i = j

/-- Whether a line may follow the lines of a well-formed source. -/
structure Follows (lines : List String) (raw : String) : Prop where
  readable : ∃ content, Line.parse raw = .ok content
  pattern_valid : ∀ params, Line.parse raw = .ok (some (.pragma .code params)) →
    PatternText.Valid (PatternText.unquoted params)
  label_fresh : ∀ name, Line.parse raw = .ok (some (.label name)) →
    ∀ i, ¬Holds lines i (.label name)
  pattern_fresh : ∀ params, Line.parse raw = .ok (some (.pragma .code params)) →
    ∀ i, ¬Declares lines i (PatternText.unquoted params)
  mnemonic_fresh : ∀ text, Line.parse raw = .ok (some (.pragma .mnemonic text)) →
    ∀ i, ¬Holds lines i (.pragma .mnemonic text)

/-- Why a line may not follow the lines of a well-formed source. -/
inductive Refuses (lines : List String) (raw : String) : LineError → Prop
  | unreadable {e : LineError} (h : Line.parse raw = .error e) : Refuses lines raw e
  | invalidPattern {params : String} (h : Line.parse raw = .ok (some (.pragma .code params)))
      (hinvalid : ¬PatternText.Valid (PatternText.unquoted params)) :
      Refuses lines raw (.invalidPattern (String.ofList (PatternText.unquoted params)))
  | duplicateLabel {name : String} {i : Nat} (h : Line.parse raw = .ok (some (.label name)))
      (hi : Holds lines i (.label name)) : Refuses lines raw (.duplicateLabel name (i + 1))
  | duplicatePattern {params : String} {i : Nat}
      (h : Line.parse raw = .ok (some (.pragma .code params)))
      (hi : Declares lines i (PatternText.unquoted params)) :
      Refuses lines raw (.duplicatePattern (String.ofList (PatternText.unquoted params)) (i + 1))
  | duplicateMnemonic {text : String} {i : Nat}
      (h : Line.parse raw = .ok (some (.pragma .mnemonic text)))
      (hi : Holds lines i (.pragma .mnemonic text)) :
      Refuses lines raw (.duplicateMnemonic text (i + 1))

theorem declares_take_iff {lines : List String} {i j : Nat} {text : List Char} :
    Declares (lines.take i) j text ↔ j < i ∧ Declares lines j text := by
  simp only [Declares, holds_take_iff, and_assoc, exists_and_left]

theorem declares_append_singleton {lines : List String} {raw : String} {i : Nat}
    {text : List Char} :
    Declares (lines ++ [raw]) i text ↔
      Declares lines i text ∨
        (i = lines.length ∧ ∃ params, Line.parse raw = .ok (some (.pragma .code params)) ∧
          text = PatternText.unquoted params) := by
  unfold Declares
  simp only [holds_append_singleton]
  constructor
  · rintro ⟨params, h | ⟨hi, hparse⟩, htext⟩
    · exact .inl ⟨params, h, htext⟩
    · exact .inr ⟨hi, params, hparse, htext⟩
  · rintro (⟨params, h, htext⟩ | ⟨hi, params, hparse, htext⟩)
    · exact ⟨params, .inl h, htext⟩
    · exact ⟨params, .inr ⟨hi, hparse⟩, htext⟩

/-- A property of indices holds of at most one index of a longer list exactly when it does so of the
shorter one, and of none of its indices once the new index has it. -/
theorem unique_snoc_iff {P : Nat → Prop} {n : Nat} {Q : Prop} (hlt : ∀ i, P i → i < n) :
    (∀ i j, (P i ∨ (i = n ∧ Q)) → (P j ∨ (j = n ∧ Q)) → i = j) ↔
      (∀ i j, P i → P j → i = j) ∧ (Q → ∀ i, ¬P i) := by
  constructor
  · intro h
    refine ⟨fun i j hi hj => h i j (.inl hi) (.inl hj), fun hq i hi => ?_⟩
    exact Nat.ne_of_lt (hlt i hi) (h i n (.inl hi) (.inr ⟨rfl, hq⟩))
  · rintro ⟨hold, hnew⟩ i j (hi | ⟨rfl, hq⟩) (hj | ⟨rfl, hq'⟩)
    · exact hold i j hi hj
    · exact absurd hi (hnew hq' i)
    · exact absurd hj (hnew hq j)
    · rfl

/-- A source is well-formed exactly when each line may follow those before it. -/
theorem wellFormed_append_singleton {lines : List String} {raw : String} :
    WellFormed (lines ++ [raw]) ↔ WellFormed lines ∧ Follows lines raw := by
  -- labels, mnemonics and patterns: what was unique stays so exactly when the new one is fresh
  have hlabels := fun name => unique_snoc_iff (P := (Holds lines · (.label name)))
    (Q := Line.parse raw = .ok (some (.label name))) fun _ => Holds.lt_length
  have hmnemonics := fun text => unique_snoc_iff (P := (Holds lines · (.pragma .mnemonic text)))
    (Q := Line.parse raw = .ok (some (.pragma .mnemonic text))) fun _ => Holds.lt_length
  have hpatterns := fun text => unique_snoc_iff (P := (Declares lines · text))
    (Q := ∃ params, Line.parse raw = .ok (some (.pragma .code params)) ∧
      text = PatternText.unquoted params) fun _ ⟨_, h, _⟩ => h.lt_length
  simp only [← holds_append_singleton] at hlabels hmnemonics
  simp only [← declares_append_singleton] at hpatterns
  constructor
  · intro h
    refine ⟨⟨?_, ?_, ?_, ?_, ?_⟩, ⟨?_, ?_, ?_, ?_, ?_⟩⟩
    · exact fun raw' hraw' => h.readable raw' (List.mem_append_left _ hraw')
    · exact fun i text hi => h.patterns_valid i text (declares_append_singleton.mpr (.inl hi))
    · exact fun i j name => ((hlabels name).mp fun i j => h.labels_unique i j name).1 i j
    · exact fun i j text => ((hpatterns text).mp fun i j => h.patterns_unique i j text).1 i j
    · exact fun i j text => ((hmnemonics text).mp fun i j => h.mnemonics_unique i j text).1 i j
    · exact h.readable raw (List.mem_append_right _ List.mem_cons_self)
    · exact fun params hparse => h.patterns_valid lines.length _
        (declares_append_singleton.mpr (.inr ⟨rfl, params, hparse, rfl⟩))
    · exact fun name => ((hlabels name).mp fun i j => h.labels_unique i j name).2
    · exact fun params hparse => ((hpatterns _).mp fun i j => h.patterns_unique i j _).2
        ⟨params, hparse, rfl⟩
    · exact fun text => ((hmnemonics text).mp fun i j => h.mnemonics_unique i j text).2
  · rintro ⟨h, hnew⟩
    refine ⟨?_, ?_, ?_, ?_, ?_⟩
    · intro raw' hraw'
      rcases List.mem_append.mp hraw' with hold | hlast
      · exact h.readable raw' hold
      · rw [List.mem_singleton.mp hlast]
        exact hnew.readable
    · intro i text hi
      rcases declares_append_singleton.mp hi with hold | ⟨-, params, hparse, rfl⟩
      · exact h.patterns_valid i text hold
      · exact hnew.pattern_valid params hparse
    · exact fun i j name => (hlabels name).mpr
        ⟨fun i j => h.labels_unique i j name, hnew.label_fresh name⟩ i j
    · refine fun i j text => (hpatterns text).mpr ⟨fun i j => h.patterns_unique i j text, ?_⟩ i j
      rintro ⟨params, hparse, rfl⟩
      exact hnew.pattern_fresh params hparse
    · exact fun i j text => (hmnemonics text).mpr
        ⟨fun i j => h.mnemonics_unique i j text, hnew.mnemonic_fresh text⟩ i j

@[simp] theorem wellFormed_nil : WellFormed [] where
  readable := fun _ h => absurd h List.not_mem_nil
  patterns_valid := fun _ _ ⟨_, h, _⟩ => absurd h not_holds_nil
  labels_unique := fun _ _ _ h => absurd h not_holds_nil
  patterns_unique := fun _ _ _ ⟨_, h, _⟩ => absurd h not_holds_nil
  mnemonics_unique := fun _ _ _ h => absurd h not_holds_nil

/-! ## sources that assemble -/

/-- The line declares a pattern that matches the opcode, and no pattern that matches it has fewer
wildcards. -/
def Cheapest (lines : List String) (opcode : UInt8) (i : Nat) : Prop :=
  ∃ text, Declares lines i text ∧ PatternText.Matches text opcode ∧
    ∀ j other, Declares lines j other → PatternText.Matches other opcode →
      PatternText.wildcards text ≤ PatternText.wildcards other

/-- The line declares the pattern that decodes the opcode: the first of the cheapest ones. -/
def Decodes (lines : List String) (opcode : UInt8) (i : Nat) : Prop :=
  Cheapest lines opcode i ∧ ∀ j < i, ¬Cheapest lines opcode j

/-- Every jump goes to a label that has at most 255 words before it. -/
def JumpsLand (lines : List String) : Prop :=
  ∀ i kind label, Holds lines i (.jump kind label) →
    ∃ j, Holds lines j (.label label) ∧ addressAt lines j ≤ 255

/-- Some jump goes to a label that has 256 words before it, one more than a target can say. -/
def JumpPastEnd (lines : List String) : Prop :=
  ∃ i kind label j, Holds lines i (.jump kind label) ∧ Holds lines j (.label label) ∧
    addressAt lines j = 256

/-- No opcode has two cheapest patterns. -/
def Unambiguous (lines : List String) : Prop :=
  ∀ opcode i j, Cheapest lines opcode i → Cheapest lines opcode j → i = j

/-- Every opcode that is decoded is decoded to a line that has at most 255 words before it. -/
def EntriesLand (lines : List String) : Prop :=
  ∀ opcode i, Decodes lines opcode i → addressAt lines i ≤ 255

/-- Some opcode is decoded to a line that has 256 words before it. -/
def EntryPastEnd (lines : List String) : Prop :=
  ∃ opcode i, Decodes lines opcode i ∧ addressAt lines i = 256

/-- What the two passes ask of a source. -/
structure Assembles (config : Config) (lines : List String) : Prop where
  wellFormed : WellFormed lines
  /-- The words fit below the decode table. -/
  fits : wordCount lines ≤ 256
  jumps_land : JumpsLand lines
  /-- Ties are refused only on demand. -/
  unambiguous : config.tieBreak = .reject → Unambiguous lines
  entries_land : EntriesLand lines

/-- The first pass has nothing against the source, and what the second one meets first is a jump, or
the entry address of an opcode, just past the last address that can be said. -/
def PastEnd (config : Config) (lines : List String) : Prop :=
  WellFormed lines ∧ wordCount lines ≤ 256 ∧
    (JumpPastEnd lines ∨
      JumpsLand lines ∧ (config.tieBreak = .reject → Unambiguous lines) ∧ EntryPastEnd lines)

end Microcode.Source

import Microcode.Proofs.Assembly.Outcome
import Microcode.Proofs.Text.Pieces

/-!
# Microcode.Proofs.Assembly.Relocation

A source that stands between other lines gives the words it gives alone, moved to where it stands.

When a source assembles alone, all its jumps go to labels of its own; and when it assembles with
lines around it, these define none of its labels.  So a jump goes to the same line in both, and all
that changes is the number of words before that line:

* `Source.Layout.shifted` — a word of the part is found further on, by the words before the part, and
  the target of a jump is as much further on;
* `addressOf?_part` — so is the address of a label.

Of two sources one after the other, the first is a part with nothing before it and the second a part
with nothing after it (`assemble_append`).
-/

namespace Microcode

open Result Source

/-! ## moved words -/

namespace MicroWord

/-- The second word is the first one for a place `offset` words further on: a plain word is the same
everywhere, and the target of a jump moves with the jump. -/
inductive Shifted (offset : Nat) : MicroWord → MicroWord → Prop
  | plain {w : MicroWord} (h : w.jumpKind? = none) : Shifted offset w w
  | jump {kind : JumpKind} {target : Nat} {w w' : MicroWord} (h : jump kind target = .ok w)
      (h' : jump kind (target + offset) = .ok w') : Shifted offset w w'

namespace Shifted

variable {offset : Nat} {w w' : MicroWord}

/-- A word that stays in its place does not change. -/
theorem eq_of_zero (h : Shifted 0 w w') : w' = w := by
  cases h with
  | plain _ => rfl
  | jump h h' => exact Except.ok.inj (h'.symm.trans h)

/-- A plain word does not change. -/
theorem eq_of_plain (h : Shifted offset w w') (hplain : w.jumpKind? = none) : w' = w := by
  cases h with
  | plain _ => rfl
  | jump h _ => simp [jumpKind?_of_jump h] at hplain

/-- A jump keeps its kind, and its target moves with it. -/
theorem jump_of_jump (h : Shifted offset w w') {kind : JumpKind} (hkind : w.jumpKind? = some kind) :
    w'.jumpKind? = some kind ∧
      ∃ target, w.jumpTarget? = some target ∧ w'.jumpTarget? = some (target + offset) := by
  cases h with
  | plain hplain => simp [hplain] at hkind
  | @jump kind' target _ _ h h' =>
      obtain rfl : kind' = kind := Option.some.inj ((jumpKind?_of_jump h).symm.trans hkind)
      exact ⟨jumpKind?_of_jump h', target, (jumpTarget?_of_jump h).1, (jumpTarget?_of_jump h').1⟩

end Shifted

end MicroWord

/-- The address that a label stands for, as a number. -/
def Assembly.addressOf? (asm : Assembly) (name : String) : Option Nat :=
  (asm.labels.address? name).map (·.toNat)

/-! ## a part of a source -/

/-- The labels of an assembled source are those of its lines, with the words before them. -/
theorem addressOf?_eq_some_iff {config : Config} {lines : List String} {asm : Assembly}
    (h : assembleLines config lines = .ok asm) {name : String} {a : Nat} :
    asm.addressOf? name = some a ↔ ∃ j, Holds lines j (.label name) ∧ addressAt lines j = a := by
  obtain ⟨hwf, d, hd, hfinish⟩ := exists_reads_of_assembleLines h
  obtain ⟨hfits, code, decode, decodeWords, -, -, _, rfl⟩ := Draft.finish_eq_ok_iff.mp hfinish
  rw [hd.size_slots] at hfits
  simp only [Assembly.addressOf?, Draft.assembly, Option.map_eq_some_iff,
    hd.address?_eq_some_iff hwf]
  constructor
  · rintro ⟨_, ⟨j, hj, rfl⟩, rfl⟩
    exact ⟨j, hj, (Draft.toNat_ofNat_addressAt hfits j).symm⟩
  · rintro ⟨j, hj, rfl⟩
    exact ⟨_, ⟨j, hj, rfl⟩, Draft.toNat_ofNat_addressAt hfits j⟩

section Part

variable {before part after : List String} {asm whole : Assembly}

/-- The words of a part are found in the whole, further on by the words before the part. -/
theorem Source.Layout.shifted (hpart : Layout part asm)
    (hwhole : Layout (before ++ (part ++ after)) whole) {a : Nat} (ha : a < asm.authored) :
    ∃ w w', asm.program.get? a = some w ∧ whole.program.get? (wordCount before + a) = some w' ∧
      w.Shifted (wordCount before) w' := by
  obtain ⟨i, line, w, hi, hemits, rfl, -, hw, -⟩ := hpart.line_of a ha
  have hi' := (holds_part_iff before after hi.lt_length).mpr hi
  have haddress := addressAt_part before after (Nat.le_of_lt hi.lt_length)
  cases line with
  | label name => contradiction
  | pragma p params => contradiction
  | word word =>
      have hword := hpart.word_at i word hi
      have hword' := hwhole.word_at _ word hi'
      obtain ⟨raw, -, hparse⟩ := hi
      rw [haddress] at hword'
      exact ⟨word, word, hword, hword', .plain (Line.jumpKind?_of_parse hparse)⟩
  | jump kind label =>
      obtain ⟨j, u, hj, -, hmade, hu⟩ := hpart.jump_at i kind label hi
      obtain ⟨j', u', -, hunique, hmade', hu'⟩ := hwhole.jump_at _ kind label hi'
      -- the label that the part defines is the only one of its name in the whole
      obtain rfl := hunique _ ((holds_part_iff before after hj.lt_length).mpr hj)
      rw [addressAt_part before after (Nat.le_of_lt hj.lt_length), Nat.add_comm] at hmade'
      rw [haddress] at hu'
      exact ⟨u, u', hu, hu', .jump hmade hmade'⟩

/-- The labels of a part are labels of the whole, further on by the words before the part. -/
theorem addressOf?_part {config : Config} (hpart : assembleLines config part = .ok asm)
    (hwhole : assembleLines config (before ++ (part ++ after)) = .ok whole) {name : String}
    {a : Nat} (h : asm.addressOf? name = some a) :
    whole.addressOf? name = some (wordCount before + a) := by
  obtain ⟨j, hj, rfl⟩ := (addressOf?_eq_some_iff hpart).mp h
  exact (addressOf?_eq_some_iff hwhole).mpr ⟨before.length + j,
    (holds_part_iff before after hj.lt_length).mpr hj,
    addressAt_part before after (Nat.le_of_lt hj.lt_length)⟩

end Part

/-! ## two sources -/

/-- The third assembly has the words and labels of the first, and after them those of the second,
moved by the number of words of the first. -/
structure Assembly.Joins (first second joined : Assembly) : Prop where
  authored : joined.authored = first.authored + second.authored
  first_words : ∀ a < first.authored, joined.program.get? a = first.program.get? a
  second_words : ∀ a < second.authored, ∃ w w',
    second.program.get? a = some w ∧ joined.program.get? (first.authored + a) = some w' ∧
      (w.jumpKind? = none → w' = w) ∧
        ∀ kind, w.jumpKind? = some kind → w'.jumpKind? = some kind ∧
          ∃ target, w.jumpTarget? = some target ∧
            w'.jumpTarget? = some (target + first.authored)
  first_labels : ∀ name a, first.addressOf? name = some a → joined.addressOf? name = some a
  second_labels : ∀ name a, second.addressOf? name = some a →
    joined.addressOf? name = some (a + first.authored)

/-- The lines of a source that is empty or ends in a line feed come before those of what follows. -/
theorem Text.linesOf_append {s : String} (h : s = "" ∨ ∃ front, s = front ++ "\n") (t : String) :
    linesOf (s ++ t) = linesOf s ++ linesOf t := by
  rcases h with rfl | ⟨front, rfl⟩
  · simp [linesOf, lines]
  · have hlast : (front ++ "\n").toList.getLast? = some '\n' := by simp
    simp only [linesOf, String.toList_append (s := front ++ "\n"), lines_append hlast, List.map_append]

/-- Assembling two sources one after the other gives the words and labels of both, those of the second
moved by the number of words of the first. -/
theorem assemble_append {config : Config} {first second : String}
    (hends : first = "" ∨ ∃ front, first = front ++ "\n") {asm₁ asm₂ asm : Assembly}
    (h₁ : assemble config first = .ok asm₁) (h₂ : assemble config second = .ok asm₂)
    (h : assemble config (first ++ second) = .ok asm) : asm₁.Joins asm₂ asm := by
  rw [assemble, Text.linesOf_append hends] at h
  have hwhole₁ : assembleLines config ([] ++ (Text.linesOf first ++ Text.linesOf second)) = .ok asm :=
    h
  have hwhole₂ : assembleLines config (Text.linesOf first ++ (Text.linesOf second ++ [])) = .ok asm := by
    rw [List.append_nil]
    exact h
  have hlayout₁ := layout_of_assembleLines h₁
  have hlayout₂ := layout_of_assembleLines h₂
  have hcount : wordCount (Text.linesOf first) = asm₁.authored := hlayout₁.authored.symm
  refine
    { authored := ?_
      first_words := fun a ha => ?_
      second_words := fun a ha => ?_
      first_labels := fun name a ha => ?_
      second_labels := fun name a ha => ?_ }
  · rw [(layout_of_assembleLines h).authored, wordCount_append, hlayout₁.authored, hlayout₂.authored]
  · obtain ⟨w, w', hw, hw', hshifted⟩ := hlayout₁.shifted (layout_of_assembleLines hwhole₁) ha
    rw [wordCount, List.countP_nil, Nat.zero_add] at hw'
    rw [hw', hw, hshifted.eq_of_zero]
  · obtain ⟨w, w', hw, hw', hshifted⟩ := hlayout₂.shifted (layout_of_assembleLines hwhole₂) ha
    rw [hcount] at hw' hshifted
    exact ⟨w, w', hw, hw', hshifted.eq_of_plain, fun kind => hshifted.jump_of_jump⟩
  · have haddress := addressOf?_part h₁ hwhole₁ ha
    rwa [wordCount, List.countP_nil, Nat.zero_add] at haddress
  · rw [addressOf?_part h₂ hwhole₂ ha, hcount, Nat.add_comm]

/-- After a source of two words, a jump to the end and one to itself go two words further. -/
theorem assemble_append_two_jumps :
    ∃ asm₁ asm₂ asm, assemble {} ":a\nNOP\nJSR a\n" = .ok asm₁ ∧
      assemble {} "JSR c\n:b\nTJSR b\n:c\n" = .ok asm₂ ∧
        assemble {} (":a\nNOP\nJSR a\n" ++ "JSR c\n:b\nTJSR b\n:c\n") = .ok asm ∧
          asm₁.Joins asm₂ asm ∧
            asm₂.program.words.take 2 = [.ofNat 0x08000002, .ofNat 0x10000001] ∧
              asm.program.words.take 4 =
                [.zero, .ofNat 0x08000000, .ofNat 0x08000004, .ofNat 0x10000003] := by
  have hfirst : (assemble {} ":a\nNOP\nJSR a\n").map (·.authored) = .ok 2 := by decide +kernel
  have hsecond : (assemble {} "JSR c\n:b\nTJSR b\n:c\n").map (·.program.words.take 2) =
      .ok [.ofNat 0x08000002, .ofNat 0x10000001] := by
    decide +kernel
  have hboth :
      (assemble {} (":a\nNOP\nJSR a\n" ++ "JSR c\n:b\nTJSR b\n:c\n")).map
          (·.program.words.take 4) =
        .ok [.zero, .ofNat 0x08000000, .ofNat 0x08000004, .ofNat 0x10000003] := by
    decide +kernel
  obtain ⟨asm₁, h₁, -⟩ := map_eq_ok_iff.mp hfirst
  obtain ⟨asm₂, h₂, hwords₂⟩ := map_eq_ok_iff.mp hsecond
  obtain ⟨asm, h, hwords⟩ := map_eq_ok_iff.mp hboth
  have hends : ":a\nNOP\nJSR a\n" = ":a\nNOP\nJSR a" ++ "\n" := by decide
  exact ⟨asm₁, asm₂, asm, h₁, h₂, h, assemble_append (.inr ⟨_, hends⟩) h₁ h₂ h, hwords₂, hwords⟩

end Microcode

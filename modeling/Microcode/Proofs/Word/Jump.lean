import Microcode.Proofs.Word.Field
import Microcode.Word.Jump

/-!
# Microcode.Proofs.Word.Jump

Jump words: which words are jumps, and which targets can be written into them.

The kind of a jump stands in `flags2` and its target in `jumpDstH` and `jumpDstL`, which have no bit
in common with `flags2`.  So writing a target keeps the kind, and it fails only for a target that
needs more than eight bits (`aim_of_jump`); any other reads back from the word
(`jumpTarget?_of_jump`).
-/

namespace Microcode

/-- Where every item is found under its own code, an item is found exactly under its code. -/
theorem find?_code_eq_some_iff {α κ : Type} [BEq κ] [LawfulBEq κ] {items : List α} {code : α → κ}
    (h : ∀ x, items.find? (code · == code x) = some x) {n : κ} {x : α} :
    items.find? (code · == n) = some x ↔ n = code x := by
  constructor
  · intro hfind
    have hcode := List.find?_some hfind
    exact (beq_iff_eq.mp hcode).symm
  · rintro rfl
    exact h x

/-- A value of `flags2` belongs to a kind of jump exactly when it is the code of that kind. -/
theorem JumpKind.ofCode?_eq_some_iff {n : Nat} {kind : JumpKind} :
    ofCode? n = some kind ↔ n = kind.code :=
  find?_code_eq_some_iff fun kind => by cases kind <;> rfl

namespace MicroWord

/-- A word is a jump exactly when `flags2` holds the code of its kind. -/
theorem jumpKind?_eq_some_iff {w : MicroWord} {kind : JumpKind} :
    w.jumpKind? = some kind ↔ w.read .flags2 = kind.code :=
  JumpKind.ofCode?_eq_some_iff

/-- The word of a jump whose target is not yet known. -/
def opened (kind : JumpKind) : MicroWord := zero.put .flags2 kind.code

/-- The code of a jump always fits. -/
theorem openJump_eq (kind : JumpKind) : openJump kind = .ok (opened kind) := by
  have hfit : kind.code < 2 ^ Field.flags2.width := by cases kind <;> decide
  rw [openJump, write_of_lt _ hfit, opened]

/-- The word of a jump whose target is not yet known is a jump of that kind. -/
theorem jumpKind?_opened (kind : JumpKind) : (opened kind).jumpKind? = some kind := by
  have hfit : kind.code < 2 ^ Field.flags2.width := by cases kind <;> decide
  rw [jumpKind?_eq_some_iff, opened, read_put_self _ _ hfit]

/-- A word with the two parts of a target written into it. -/
def aimed (w : MicroWord) (target : Nat) : MicroWord :=
  (w.put .jumpDstH (target / 2 ^ 6)).put .jumpDstL target

/-- A target is written with eight bits, if it has no more. -/
theorem encode_target (target : Nat) :
    Bits.encode target targetWidth =
      if target < 256 then .ok (Bits.ofNat targetWidth target) else .error (.overflow target 8) :=
  Bits.encode_eq (by decide) (by decide) target

/-- The first two bits of a target are the first of its parts. -/
theorem storeBits_jumpDstH (w : MicroWord) (target : Nat) :
    storeBits .jumpDstH ((Bits.ofNat targetWidth target).take Field.jumpDstH.width) w =
      (.ok (), w.put .jumpDstH (target / 2 ^ 6)) := by
  have hhigh : (Bits.ofNat targetWidth target).take Field.jumpDstH.width =
      Bits.ofNat Field.jumpDstH.width (target / 2 ^ 6) := Bits.take_ofNat (by decide) target
  rw [hhigh, storeBits_ofNat]

/-- The other six bits of a target are the second of its parts. -/
theorem storeBits_jumpDstL (w : MicroWord) (target : Nat) :
    storeBits .jumpDstL ((Bits.ofNat targetWidth target).drop Field.jumpDstH.width) w =
      (.ok (), w.put .jumpDstL target) := by
  have hlow : (Bits.ofNat targetWidth target).drop Field.jumpDstH.width =
      Bits.ofNat Field.jumpDstL.width target := Bits.drop_ofNat _ _ target
  rw [hlow, storeBits_ofNat]

/-- No target is written into a plain word. -/
theorem aim_of_plain {w : MicroWord} (h : w.jumpKind? = none) (target : Nat) :
    aim target w = (.error .notAJump, w) := by
  have hget : (get : InPlace EncodingError MicroWord) w = (.ok w, w) := rfl
  rw [aim, bind_of_ok hget, if_pos h]
  rfl

/-- A target of at most eight bits is written into a jump.  Both checks come before the first write,
and no write is refused after them, so that no word is left with half of a target. -/
theorem aim_of_jump {w : MicroWord} {kind : JumpKind} (h : w.jumpKind? = some kind)
    (target : Nat) :
    aim target w =
      if target < 256 then (.ok (), w.aimed target) else (.error (.overflow target 8), w) := by
  have hget : (get : InPlace EncodingError MicroWord) w = (.ok w, w) := rfl
  have hjump : ¬w.jumpKind? = none := by simp [h]
  rw [aim, bind_of_ok hget, if_neg hjump, encode_target]
  by_cases ht : target < 256
  · simp only [ht, if_true]
    have hbits : (MonadExcept.ofExcept (.ok (Bits.ofNat targetWidth target)) :
        InPlace EncodingError (List Bool)) w = (.ok (Bits.ofNat targetWidth target), w) := rfl
    rw [bind_of_ok hbits, bind_of_ok (w.storeBits_jumpDstH target), storeBits_jumpDstL, aimed]
  · simp only [ht, if_false]
    rfl

theorem setJumpTarget_of_plain {w : MicroWord} (h : w.jumpKind? = none) (target : Nat) :
    w.setJumpTarget target = .error .notAJump := by
  rw [setJumpTarget, after, aim_of_plain h]

/-- Writing a target into a jump succeeds exactly when it has at most eight bits. -/
theorem setJumpTarget_eq {w : MicroWord} {kind : JumpKind} (h : w.jumpKind? = some kind)
    (target : Nat) :
    w.setJumpTarget target =
      if target < 256 then .ok (w.aimed target) else .error (.overflow target 8) := by
  rw [setJumpTarget, after, aim_of_jump h]
  by_cases ht : target < 256
  · simp only [ht, if_true]
  · simp only [ht, if_false]

/-- Writing a target keeps the kind of a jump. -/
theorem jumpKind?_aimed (w : MicroWord) (target : Nat) : (w.aimed target).jumpKind? = w.jumpKind? := by
  have hhigh : Field.jumpDstH.Disjoint .flags2 := by decide
  have hlow : Field.jumpDstL.Disjoint .flags2 := by decide
  rw [jumpKind?, aimed, read_put_of_disjoint _ hlow, read_put_of_disjoint _ hhigh, jumpKind?]

/-- There is a jump word to a target exactly when the target has at most eight bits. -/
theorem jump_eq (kind : JumpKind) (target : Nat) :
    jump kind target =
      if target < 256 then .ok ((opened kind).aimed target) else .error (.overflow target 8) := by
  have hopen : zero.after (store .flags2 kind.code) = .ok (opened kind) := openJump_eq kind
  rw [jump, after_bind, hopen]
  exact setJumpTarget_eq (jumpKind?_opened kind) target

/-- A jump word has the kind it was made with. -/
theorem jumpKind?_of_jump {kind : JumpKind} {target : Nat} {w : MicroWord}
    (h : jump kind target = .ok w) : w.jumpKind? = some kind := by
  rw [jump_eq] at h
  split at h
  · injection h with hw
    rw [← hw, jumpKind?_aimed, jumpKind?_opened]
  · contradiction

/-! ## reading a target -/

/-- The two parts of a target, put together as a number. -/
theorem jumpTarget?_eq {w : MicroWord} {kind : JumpKind} (h : w.jumpKind? = some kind) :
    w.jumpTarget? = some (w.read .jumpDstH * 2 ^ 6 + w.read .jumpDstL) := by
  have hlow : w.read .jumpDstL < 2 ^ 6 := w.read_lt .jumpDstL
  have hwidth : Field.jumpDstL.width = 6 := rfl
  rw [jumpTarget?, h, Option.map_some, hwidth, ← Nat.shiftLeft_add_eq_or_of_lt hlow,
    Nat.shiftLeft_eq]

/-- Exactly the jumps have a target. -/
theorem exists_jumpKind?_of_jumpTarget? {w : MicroWord} {target : Nat}
    (h : w.jumpTarget? = some target) : ∃ kind, w.jumpKind? = some kind := by
  obtain ⟨kind, hkind, -⟩ := Option.map_eq_some_iff.mp h
  exact ⟨kind, hkind⟩

/-- A target has eight bits. -/
theorem jumpTarget?_lt {w : MicroWord} {target : Nat} (h : w.jumpTarget? = some target) :
    target < 256 := by
  have hhigh : w.read .jumpDstH < 2 ^ 2 := w.read_lt .jumpDstH
  have hlow : w.read .jumpDstL < 2 ^ 6 := w.read_lt .jumpDstL
  obtain ⟨kind, hkind⟩ := exists_jumpKind?_of_jumpTarget? h
  rw [jumpTarget?_eq hkind, Option.some.injEq] at h
  omega

/-- A target of eight bits reads back from the jump it was written into. -/
theorem jumpTarget?_aimed {w : MicroWord} {kind : JumpKind} (h : w.jumpKind? = some kind)
    {target : Nat} (ht : target < 256) : (w.aimed target).jumpTarget? = some target := by
  have hdisjoint : Field.jumpDstL.Disjoint .jumpDstH := by decide
  have hhigh : (w.aimed target).read .jumpDstH = target / 2 ^ 6 % 2 ^ 2 := by
    rw [aimed, read_put_of_disjoint _ hdisjoint, read_put]
    rfl
  have hlow : (w.aimed target).read .jumpDstL = target % 2 ^ 6 := read_put _ _ _
  rw [jumpTarget?_eq ((jumpKind?_aimed w target).trans h), hhigh, hlow, Option.some.injEq]
  omega

/-- A jump word goes where it was made to go, to an address of eight bits. -/
theorem jumpTarget?_of_jump {kind : JumpKind} {target : Nat} {w : MicroWord}
    (h : jump kind target = .ok w) : w.jumpTarget? = some target ∧ target < 256 := by
  rw [jump_eq] at h
  split at h
  · next ht =>
      injection h with hw
      rw [← hw]
      exact ⟨jumpTarget?_aimed (jumpKind?_opened kind) ht, ht⟩
  · contradiction

end MicroWord

end Microcode

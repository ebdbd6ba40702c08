import Microcode.Proofs.Word.Jump
import Microcode.Proofs.Word.Mask

/-!
# Microcode.Proofs.Word.Target

Writing the target of a jump: what is read back, what is kept, and what a refusal leaves.

A target is split over two fields that are written in place, one after the other, so that a step
that is refused would leave what the steps before it have written.  Both checks come before the first
write and both writes succeed, hence no word is ever left with half of a target.

That a target replaces the one before it, and that the target of a word can be written into it again,
follow from the same two facts about a single field (`MicroWord.put_put_self`,
`MicroWord.put_eq_self`).
-/

namespace Microcode.MicroWord

/-! ## one field -/

/-- A field that is written twice holds the last value. -/
theorem put_put_self (w : MicroWord) (f : Field) (value value' : Nat) :
    (w.put f value).put f value' = w.put f value' := by
  apply eq_of_getLsbD
  intro k _
  by_cases hk : f.Contains k <;> simp [getLsbD_put, hk]

/-- Writing what a field holds already changes nothing; only the last bits of the value count. -/
theorem put_eq_self {w : MicroWord} {f : Field} {value : Nat}
    (h : value % 2 ^ f.width = w.read f) : w.put f value = w := by
  apply eq_of_getLsbD
  intro k _
  rw [getLsbD_put]
  split
  · next hk =>
      have hmsb := f.msb_eq
      have hj : k - f.shift < f.width := by
        rw [Field.Contains] at hk
        omega
      rw [getLsbD_eq_testBit_read w hk, ← h, Nat.testBit_mod_two_pow]
      simp [hj]
  · rfl

/-- Fields without a common bit may be written in any order. -/
theorem put_comm (w : MicroWord) {f g : Field} (h : f.Disjoint g) (value value' : Nat) :
    (w.put f value).put g value' = (w.put g value').put f value := by
  apply eq_of_getLsbD
  intro k _
  by_cases hk : g.Contains k
  · simp [getLsbD_put, hk, h.not_contains hk]
  · simp [getLsbD_put, hk]

/-! ## both fields of a target -/

/-- A target replaces the one before it. -/
theorem aimed_aimed (w : MicroWord) (target target' : Nat) :
    (w.aimed target).aimed target' = w.aimed target' := by
  have hdisjoint : Field.jumpDstL.Disjoint .jumpDstH := by decide
  unfold aimed
  rw [put_comm _ hdisjoint, put_put_self, put_put_self]

/-- Only the bits of the target are replaced. -/
theorem getLsbD_aimed (w : MicroWord) (target : Nat) {k : Nat} (hhigh : ¬(10 ≤ k ∧ k ≤ 11))
    (hlow : ¬k ≤ 5) : (w.aimed target).bits.getLsbD k = w.bits.getLsbD k := by
  have hh : ¬Field.jumpDstH.Contains k := hhigh
  have hl : ¬Field.jumpDstL.Contains k := fun h => hlow h.2
  simp [aimed, getLsbD_put, hh, hl]

/-- A word has its own target written into it already. -/
theorem aimed_jumpTarget? {w : MicroWord} {target : Nat} (h : w.jumpTarget? = some target) :
    w.aimed target = w := by
  obtain ⟨kind, hkind⟩ := exists_jumpKind?_of_jumpTarget? h
  have hhigh : w.read .jumpDstH < 2 ^ 2 := w.read_lt .jumpDstH
  have hlow : w.read .jumpDstL < 2 ^ 6 := w.read_lt .jumpDstL
  rw [jumpTarget?_eq hkind, Option.some.injEq] at h
  have hputHigh : w.put .jumpDstH (target / 2 ^ 6) = w :=
    put_eq_self (show target / 2 ^ 6 % 2 ^ 2 = w.read .jumpDstH by omega)
  have hputLow : w.put .jumpDstL target = w :=
    put_eq_self (show target % 2 ^ 6 = w.read .jumpDstL by omega)
  rw [aimed, hputHigh, hputLow]

/-! ## when a target is refused -/

/-- Exactly a target of eight bits is written, and into a jump only. -/
theorem setJumpTarget_eq_ok_iff {w w' : MicroWord} {target : Nat} :
    w.setJumpTarget target = .ok w' ↔
      (∃ kind, w.jumpKind? = some kind) ∧ target < 256 ∧ w' = w.aimed target := by
  cases hkind : w.jumpKind? with
  | none => simp [setJumpTarget_of_plain hkind]
  | some kind => by_cases ht : target < 256 <;> simp [setJumpTarget_eq hkind, ht, eq_comm]

/-- That a word is no jump is found first. -/
theorem setJumpTarget_eq_error_iff {w : MicroWord} {target : Nat} {e : EncodingError} :
    w.setJumpTarget target = .error e ↔
      w.jumpKind? = none ∧ e = .notAJump ∨
        (∃ kind, w.jumpKind? = some kind) ∧ ¬target < 256 ∧ e = .overflow target 8 := by
  cases hkind : w.jumpKind? with
  | none => simp [setJumpTarget_of_plain hkind, eq_comm]
  | some kind => by_cases ht : target < 256 <;> simp [setJumpTarget_eq hkind, ht, eq_comm]

/-! ## what writing a target does -/

/-- A target of eight bits is written into any jump and into nothing else.  It reads back, replaces
the target before it, and nothing else of the word changes; a refused one changes nothing at all.
The target of a jump is written into it without effect. -/
theorem setJumpTarget_spec (w : MicroWord) (target : Nat) :
    ((∃ w', w.setJumpTarget target = .ok w') ↔ (∃ kind, w.jumpKind? = some kind) ∧ target ≤ 255) ∧
      (∀ w', w.setJumpTarget target = .ok w' →
        aim target w = (.ok (), w') ∧ w'.jumpTarget? = some target ∧ w'.jumpKind? = w.jumpKind? ∧
          (∀ k, ¬(10 ≤ k ∧ k ≤ 11) → ¬k ≤ 5 → w'.bits.getLsbD k = w.bits.getLsbD k) ∧
            ∀ next, w'.setJumpTarget next = w.setJumpTarget next) ∧
      (∀ e, w.setJumpTarget target = .error e →
        aim target w = (.error e, w) ∧
          e = if w.jumpKind? = none then .notAJump else .overflow target 8) ∧
      ∀ own, w.jumpTarget? = some own → w.setJumpTarget own = .ok w := by
  refine ⟨?_, fun w' hset => ?_, fun e hset => ?_, fun own hown => ?_⟩
  · simp [setJumpTarget_eq_ok_iff, Nat.lt_succ_iff]
  · obtain ⟨⟨kind, hkind⟩, ht, rfl⟩ := setJumpTarget_eq_ok_iff.mp hset
    have hkept := w.jumpKind?_aimed target
    refine ⟨?_, jumpTarget?_aimed hkind ht, hkept, fun k hhigh hlow => ?_, fun next => ?_⟩
    · rw [aim_of_jump hkind, if_pos ht]
    · exact w.getLsbD_aimed target hhigh hlow
    · rw [setJumpTarget_eq (hkept.trans hkind), setJumpTarget_eq hkind, aimed_aimed]
  · obtain ⟨hkind, rfl⟩ | ⟨⟨kind, hkind⟩, ht, rfl⟩ := setJumpTarget_eq_error_iff.mp hset
    · exact ⟨aim_of_plain hkind target, by simp [hkind]⟩
    · exact ⟨by rw [aim_of_jump hkind, if_neg ht], by simp [hkind]⟩
  · obtain ⟨kind, hkind⟩ := exists_jumpKind?_of_jumpTarget? hown
    rw [setJumpTarget_eq hkind, if_pos (jumpTarget?_lt hown), aimed_jumpTarget? hown]

/-- A call with all other bits set keeps them. -/
theorem setJumpTarget_spec_full :
    (mk 0xEBFFFFFF).setJumpTarget 0x5A = .ok (mk 0xEBFFF7DA) ∧
      (mk 0xEBFFF7DA).jumpTarget? = some 0x5A ∧
        (mk 0xEBFFF7DA).jumpKind? = (mk 0xEBFFFFFF).jumpKind? := by
  have hset : (mk 0xEBFFFFFF).setJumpTarget 0x5A = .ok (mk 0xEBFFF7DA) :=
    setJumpTarget_eq_ok_iff.mpr ⟨⟨.call, by decide +kernel⟩, by decide, by decide +kernel⟩
  obtain ⟨-, htarget, hkind, -⟩ := (setJumpTarget_spec (mk 0xEBFFFFFF) 0x5A).2.1 _ hset
  exact ⟨hset, htarget, hkind⟩

end Microcode.MicroWord

import Microcode.Proofs.Result
import Microcode.Text.Numeral

/-!
# Microcode.Proofs.Text.Numeral

Numbers read back from their digits.

`readDigits_toDigits` is the main statement: reading goes from left to right, so it follows the
number digit by digit (`readDigits_append`), and no part of a number that fits is too large.
Written numbers have no other characters than digits and letters (`notMem_padded`), and no needless
zero in front (`head?_toDigits`).
-/

namespace Microcode.Text

open Result

variable {radix : Nat}

/-! ## digits -/

/-- A digit stands for its value. -/
theorem digit?_digitChar (hradix : radix ≤ 16) {d : Nat} (h : d < radix) :
    digit? radix d.digitChar = some d := by
  have hvalue : ∀ d < 16,
      (if d.digitChar.isDigit then some (d.digitChar.toNat - '0'.toNat)
        else if d.digitChar.isLower then some (d.digitChar.toNat - 'a'.toNat + 10)
        else if d.digitChar.isUpper then some (d.digitChar.toNat - 'A'.toNat + 10)
        else none) = some d := by
    decide
  rw [digit?, hvalue d (Nat.lt_of_lt_of_le h hradix)]
  simp [h]

/-- A number is written with the digits of its radix. -/
theorem exists_digit_of_mem_toDigits (hradix : 1 < radix) {n : Nat} {c : Char}
    (h : c ∈ Nat.toDigits radix n) : ∃ d < radix, c = d.digitChar := by
  induction n using Nat.strongRecOn with
  | ind n ih =>
      rw [Nat.toDigits_eq_if hradix] at h
      split at h
      · next hlt => exact ⟨n, hlt, List.mem_singleton.mp h⟩
      · next hge =>
          rcases List.mem_append.mp h with h | h
          · exact ih (n / radix) (Nat.div_lt_self (by omega) hradix) h
          · exact ⟨n % radix, Nat.mod_lt _ (by omega), List.mem_singleton.mp h⟩

/-- Digits are letters or decimal digits. -/
theorem isAlphanum_of_mem_toDigits (hradix : 1 < radix) (hradix' : radix ≤ 16) {n : Nat} {c : Char}
    (h : c ∈ Nat.toDigits radix n) : c.isAlphanum = true := by
  have hdigits : ∀ d < 16, d.digitChar.isAlphanum = true := by decide
  obtain ⟨d, hd, rfl⟩ := exists_digit_of_mem_toDigits hradix h
  exact hdigits d (Nat.lt_of_lt_of_le hd hradix')

/-- No other character stands in a number, filled up with zeros or not. -/
theorem notMem_padded (hradix : 1 < radix) (hradix' : radix ≤ 16) {c : Char}
    (hc : c.isAlphanum = false) (width n : Nat) : c ∉ padded radix width n := by
  intro h
  have halphanum : c.isAlphanum = true := by
    rcases List.mem_append.mp h with h | h
    · rw [(List.mem_replicate.mp h).2]
      rfl
    · exact isAlphanum_of_mem_toDigits hradix hradix' h
  rw [hc] at halphanum
  contradiction

/-- A positive number does not begin with a zero. -/
theorem head?_toDigits (hradix : 1 < radix) {n : Nat} (h : 0 < n) :
    (Nat.toDigits radix n).head? ≠ some '0' := by
  induction n using Nat.strongRecOn with
  | ind n ih =>
      rw [Nat.toDigits_eq_if hradix]
      split
      · simp only [List.head?_cons, ne_eq, Option.some.injEq, Nat.digitChar_eq_zero]
        omega
      · next hge =>
          have hpos : 0 < n / radix := Nat.div_pos (by omega) (by omega)
          rw [List.head?_append_of_ne_nil _ Nat.toDigits_ne_nil]
          exact ih (n / radix) (Nat.div_lt_self h hradix) hpos

/-- The last of several places is the last digit. -/
theorem padded_succ {width : Nat} (hradix : 1 < radix) (hwidth : 0 < width) (n : Nat) :
    padded radix (width + 1) n = padded radix width (n / radix) ++ [(n % radix).digitChar] := by
  unfold padded
  by_cases hn : n < radix
  · obtain ⟨k, rfl⟩ := Nat.exists_eq_add_of_le' hwidth
    rw [Nat.toDigits_of_lt_base hn, Nat.div_eq_of_lt hn, Nat.mod_eq_of_lt hn, Nat.toDigits_zero]
    simp [List.leftpad, List.replicate_succ']
  · rw [Nat.toDigits_of_base_le hradix (Nat.le_of_not_lt hn)]
    simp [List.leftpad]

/-- A number of one digit. -/
theorem padded_one {n : Nat} (h : n < radix) : padded radix 1 n = [n.digitChar] := by
  simp [padded, Nat.toDigits_of_lt_base h]

/-! ## reading -/

/-- Reading goes on with the number read so far. -/
theorem readDigits_append (n : Nat) (s t : List Char) :
    readDigits radix n (s ++ t) = readDigits radix n s >>= fun m => readDigits radix m t := by
  induction s generalizing n with
  | nil => rfl
  | cons c s ih =>
      simp only [List.cons_append, readDigits]
      cases digit? radix c with
      | none => rfl
      | some d =>
          by_cases hfits : n * radix + d < numberBound
          · simp only [hfits, if_true, ih]
          · simp only [hfits, if_false]
            rfl

/-- A number that fits reads back from its digits. -/
theorem readDigits_toDigits (hradix : 1 < radix) (hradix' : radix ≤ 16) {n : Nat}
    (h : n < numberBound) : readDigits radix 0 (Nat.toDigits radix n) = .ok n := by
  induction n using Nat.strongRecOn with
  | ind n ih =>
      have hlast : ∀ front d, d < radix → front * radix + d = n →
          readDigits radix front [d.digitChar] = .ok n := by
        intro front d hd heq
        simp [readDigits, digit?_digitChar hradix' hd, heq, h]
      rw [Nat.toDigits_eq_if hradix]
      split
      · next hlt => exact hlast 0 n hlt (by omega)
      · next hge =>
          have hfront := ih (n / radix) (Nat.div_lt_self (by omega) hradix)
            (Nat.lt_of_le_of_lt (Nat.div_le_self n radix) h)
          rw [readDigits_append, hfront]
          exact hlast _ _ (Nat.mod_lt _ (by omega)) (Nat.div_add_mod' n radix)

end Microcode.Text

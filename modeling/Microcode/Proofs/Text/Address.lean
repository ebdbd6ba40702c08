import Microcode.Proofs.Text.Numeral
import Microcode.Proofs.Text.Pieces
import Mathlib.Data.List.Induction
import Mathlib.Data.Nat.Digits.Defs

/-!
# Microcode.Proofs.Text.Address

Which texts are addresses, and which problem is reported for the others.

`Address` is the grammar: a mark for the radix, a sign, and digits with the value that
`Nat.ofDigits` gives them.  It says nothing of the order in which a text is read, and nothing of a
bound.  The reader keeps to 32 bits at every digit, so it may fail in the middle of a text; what it
has seen by then decides which problem it reports.  Both halves follow its last step, by induction on
the text from its end: a number that fits had no part that did not (`readDigits_eq_ok_iff`), and a
number is too large as soon as its first digits are (`readDigits_eq_tooLarge_iff`).

A text is taken apart in one way only, as `+` and `x` are no decimal digits
(`SignedNumeral.exists_of_isPrefix`, `Address.exists_of_isPrefix`).
-/

namespace Microcode.Text

open Result

variable {radix : Nat}

/-! ## the grammar -/

/-- The character is the digit `d` of the radix; letters may be of either case. -/
def IsDigit (radix : Nat) (c : Char) (d : Nat) : Prop :=
  d < radix ∧ (c = d.digitChar ∨ c = d.digitChar.toUpper)

/-- A row of digits and its value; the last character is the digit of the lowest place. -/
def Numeral (radix : Nat) (s : List Char) (n : Nat) : Prop :=
  ∃ ds, List.Forall₂ (IsDigit radix) s.reverse ds ∧ Nat.ofDigits radix ds = n

/-- What may stand before the digits. -/
inductive Sign : List Char → Prop where
  | none : Sign []
  | plus : Sign ['+']

/-- At least one digit, with a sign or without. -/
inductive SignedNumeral (radix : Nat) : List Char → Nat → Prop where
  | mk {sign digits : List Char} {n : Nat} (hsign : Sign sign) (hdigits : digits ≠ [])
      (hvalue : Numeral radix digits n) : SignedNumeral radix (sign ++ digits) n

/-- What may stand before the number, and the radix of its digits then. -/
inductive RadixMark : List Char → Nat → Prop where
  | decimal : RadixMark [] 10
  | hex {x : Char} (hx : x = 'x' ∨ x = 'X') : RadixMark ['0', x] 16

/-- An address and its value. -/
inductive Address : List Char → Nat → Prop where
  | mk {mark number : List Char} {radix n : Nat} (hmark : RadixMark mark radix)
      (hnumber : SignedNumeral radix number n) : Address (mark ++ number) n

/-! ## digits -/

/-- Digits and letters follow each other in the order of their values. -/
theorem exists_eq_digitChar {c : Char} {d : Nat} (hd : d < 16)
    (h : c.toNat = 48 + d ∧ d < 10 ∨ c.toNat = 87 + d ∧ 10 ≤ d ∨ c.toNat = 55 + d ∧ 10 ≤ d) :
    c = d.digitChar ∨ c = d.digitChar.toUpper := by
  have hdigits : ∀ d < 10, Char.ofNat (48 + d) = d.digitChar := by decide
  have hlower : ∀ d < 16, 10 ≤ d → Char.ofNat (87 + d) = d.digitChar := by decide
  have hupper : ∀ d < 16, 10 ≤ d → Char.ofNat (55 + d) = d.digitChar.toUpper := by decide
  rw [← Char.ofNat_toNat c]
  rcases h with ⟨hc, h⟩ | ⟨hc, h⟩ | ⟨hc, h⟩
  · exact .inl (hc ▸ hdigits d h)
  · exact .inl (hc ▸ hlower d hd h)
  · exact .inr (hc ▸ hupper d hd h)

/-- The digits of a radix are the characters that are read as such. -/
theorem digit?_eq_some_iff (hradix : radix ≤ 16) {c : Char} {d : Nat} :
    digit? radix c = some d ↔ IsDigit radix c d := by
  constructor
  · intro h
    rw [digit?, Option.filter_eq_some_iff, decide_eq_true_eq] at h
    obtain ⟨hvalue, hd⟩ := h
    refine ⟨hd, exists_eq_digitChar (Nat.lt_of_lt_of_le hd hradix) ?_⟩
    split at hvalue
    · next hc =>
        obtain ⟨hlow, hhigh⟩ : 48 ≤ c.toNat ∧ c.toNat ≤ 57 := Char.isDigit_iff_toNat.mp hc
        have hplace : c.toNat - 48 = d := Option.some.inj hvalue
        omega
    · split at hvalue
      · next hc =>
          have hrange : (decide (c.val ≥ 'a'.val) && decide (c.val ≤ 'z'.val)) = true := hc
          have hnat : 97 ≤ c.toNat ∧ c.toNat ≤ 122 := by simpa [UInt32.le_iff_toNat_le] using hrange
          have hplace : c.toNat - 97 + 10 = d := Option.some.inj hvalue
          omega
      · split at hvalue
        · next hc =>
            have hrange : decide (c.val ≥ 'A'.val ∧ c.val ≤ 'Z'.val) = true := hc
            have hnat : 65 ≤ c.toNat ∧ c.toNat ≤ 90 := by simpa [UInt32.le_iff_toNat_le] using hrange
            have hplace : c.toNat - 65 + 10 = d := Option.some.inj hvalue
            omega
        · contradiction
  · rintro ⟨hd, rfl | rfl⟩
    · exact digit?_digitChar hradix hd
    · have hupper : ∀ d < 16, digit? 16 d.digitChar.toUpper = some d := by decide
      have hvalue := (Option.filter_eq_some_iff.mp (hupper d (Nat.lt_of_lt_of_le hd hradix))).1
      exact Option.filter_eq_some_iff.mpr ⟨hvalue, decide_eq_true hd⟩

/-- A sign is no digit. -/
theorem not_isDigit_plus (hradix : radix ≤ 16) (d : Nat) : ¬IsDigit radix '+' d := by
  have hnone : digit? radix '+' = none := rfl
  simp [← digit?_eq_some_iff hradix, hnone]

/-- Nor is what marks the other radix, in decimal. -/
theorem not_isDigit_mark {x : Char} (hx : x = 'x' ∨ x = 'X') (d : Nat) : ¬IsDigit 10 x d := by
  have hnone : digit? 10 x = none := by rcases hx with rfl | rfl <;> rfl
  simp [← digit?_eq_some_iff (show 10 ≤ 16 by decide), hnone]

/-! ## rows of digits -/

theorem numeral_nil {n : Nat} : Numeral radix [] n ↔ n = 0 := by
  simp [Numeral, eq_comm]

/-- The last digit counts once, and all before it `radix` times. -/
theorem numeral_concat {s : List Char} {c : Char} {m : Nat} :
    Numeral radix (s ++ [c]) m ↔
      ∃ n d, Numeral radix s n ∧ IsDigit radix c d ∧ n * radix + d = m := by
  simp only [Numeral, List.reverse_append, List.reverse_singleton, List.singleton_append,
    List.forall₂_cons_left_iff]
  constructor
  · rintro ⟨_, ⟨d, ds, hd, hds, rfl⟩, rfl⟩
    refine ⟨_, d, ⟨ds, hds, rfl⟩, hd, ?_⟩
    rw [Nat.ofDigits_cons, Nat.mul_comm, Nat.add_comm]
  · rintro ⟨_, d, ⟨ds, hds, rfl⟩, hd, rfl⟩
    refine ⟨d :: ds, ⟨d, ds, hd, hds, rfl⟩, ?_⟩
    rw [Nat.ofDigits_cons, Nat.mul_comm, Nat.add_comm]

/-- What is too large has digits. -/
theorem Numeral.ne_nil {s : List Char} {n : Nat} (h : Numeral radix s n) (hn : numberBound ≤ n) :
    s ≠ [] := by
  rintro rfl
  rw [numeral_nil.mp h] at hn
  exact absurd hn (by decide)

/-- There is nothing but digits in a row of digits. -/
theorem Numeral.exists_isDigit {s : List Char} {n : Nat} (h : Numeral radix s n) {c : Char}
    (hc : c ∈ s) : ∃ d, IsDigit radix c d := by
  induction s using List.reverseRecOn generalizing n with
  | nil => contradiction
  | append_singleton s x ih =>
      obtain ⟨m, d, hs, hd, -⟩ := numeral_concat.mp h
      rcases List.mem_append.mp hc with hc | hc
      · exact ih hs hc
      · exact ⟨d, List.mem_singleton.mp hc ▸ hd⟩

/-! ## reading digits -/

/-- One more digit is read if the number still fits. -/
theorem readDigits_singleton_eq_ok_iff (hradix : radix ≤ 16) {c : Char} {m n : Nat} :
    readDigits radix m [c] = .ok n ↔
      ∃ d, IsDigit radix c d ∧ m * radix + d = n ∧ n < numberBound := by
  simp only [← digit?_eq_some_iff hradix, readDigits]
  cases digit? radix c with
  | none => simp
  | some d =>
      simp only [Option.some.injEq, exists_eq_left']
      split
      · next hfits =>
          rw [Except.ok.injEq]
          exact ⟨fun heq => ⟨heq, heq ▸ hfits⟩, fun h => h.1⟩
      · next hlarge =>
          simp only [reduceCtorEq, false_iff]
          rintro ⟨rfl, hfits⟩
          exact hlarge hfits

/-- One more digit is too much otherwise. -/
theorem readDigits_singleton_eq_tooLarge_iff (hradix : radix ≤ 16) {c : Char} {m : Nat} :
    readDigits radix m [c] = .error .tooLarge ↔
      ∃ d, IsDigit radix c d ∧ numberBound ≤ m * radix + d := by
  simp only [← digit?_eq_some_iff hradix, readDigits]
  cases digit? radix c with
  | none => simp
  | some d =>
      by_cases hfits : m * radix + d < numberBound
      · simp [hfits]
      · simp [hfits, Nat.le_of_not_lt hfits]

/-- A row of digits is read if its value fits. -/
theorem readDigits_eq_ok_iff (hpos : 0 < radix) (hradix : radix ≤ 16) {s : List Char} {n : Nat} :
    readDigits radix 0 s = .ok n ↔ Numeral radix s n ∧ n < numberBound := by
  induction s using List.reverseRecOn generalizing n with
  | nil =>
      simp only [readDigits, Except.ok.injEq, numeral_nil]
      constructor
      · rintro rfl
        exact ⟨rfl, by decide⟩
      · exact fun h => h.1.symm
  | append_singleton s c ih =>
      rw [readDigits_append, bind_eq_ok_iff, numeral_concat]
      simp only [ih, readDigits_singleton_eq_ok_iff hradix]
      constructor
      · rintro ⟨m, ⟨hs, -⟩, d, hd, hn, hfits⟩
        exact ⟨⟨m, d, hs, hd, hn⟩, hfits⟩
      · rintro ⟨⟨m, d, hs, hd, hn⟩, hfits⟩
        -- the part before the last digit is not above the whole number
        have hpart : m ≤ m * radix := Nat.le_mul_of_pos_right m hpos
        exact ⟨m, ⟨hs, by omega⟩, d, hd, hn, hfits⟩

/-- A text is too large if it begins with a row of digits that is, whatever follows. -/
theorem readDigits_eq_tooLarge_iff (hpos : 0 < radix) (hradix : radix ≤ 16) {s : List Char} :
    readDigits radix 0 s = .error .tooLarge ↔
      ∃ front n, front <+: s ∧ Numeral radix front n ∧ numberBound ≤ n := by
  induction s using List.reverseRecOn with
  | nil =>
      simp only [readDigits, List.prefix_nil, reduceCtorEq, false_iff]
      rintro ⟨front, n, hnil, hvalue, hn⟩
      exact hvalue.ne_nil hn hnil
  | append_singleton s c ih =>
      rw [readDigits_append, bind_eq_error_iff, ih]
      simp only [readDigits_eq_ok_iff hpos hradix, readDigits_singleton_eq_tooLarge_iff hradix]
      constructor
      · rintro (⟨front, n, hfront, hn⟩ | ⟨m, ⟨hs, -⟩, d, hd, hlarge⟩)
        · exact ⟨front, n, hfront.trans (List.prefix_append s [c]), hn⟩
        · exact ⟨s ++ [c], _, List.prefix_rfl, numeral_concat.mpr ⟨m, d, hs, hd, rfl⟩, hlarge⟩
      · rintro ⟨front, n, hfront, hvalue, hlarge⟩
        rcases List.prefix_concat_iff.mp hfront with rfl | hfront
        · obtain ⟨m, d, hs, hd, rfl⟩ := numeral_concat.mp hvalue
          rcases Nat.lt_or_ge m numberBound with hm | hm
          · exact .inr ⟨m, ⟨hs, hm⟩, d, hd, hlarge⟩
          · exact .inl ⟨s, m, List.prefix_rfl, hs, hm⟩
        · exact .inl ⟨front, n, hfront, hvalue, hlarge⟩

/-- Digits that are read are there. -/
theorem readDigits_ne_empty (n : Nat) (s : List Char) : readDigits radix n s ≠ .error .empty := by
  induction s generalizing n with
  | nil => simp [readDigits]
  | cons c s ih =>
      rw [readDigits]
      split
      · simp
      · split
        · exact ih _
        · simp

/-! ## reading numbers -/

/-- The sign of a text, and what follows it. -/
structure SignSplit (s sign digits : List Char) : Prop where
  isSign : Sign sign
  eq_append : s = sign ++ digits
  head?_ne : sign = [] → digits.head? ≠ some '+'

theorem exists_signSplit (s : List Char) : ∃ sign digits, SignSplit s sign digits := by
  by_cases hplus : s.head? = some '+'
  · obtain ⟨digits, rfl⟩ := List.head?_eq_some_iff.mp hplus
    exact ⟨['+'], digits, .plus, rfl, by simp⟩
  · exact ⟨[], s, .none, rfl, fun _ => hplus⟩

/-- There is one way to read the beginning of a text as a number, as a sign is no digit. -/
theorem SignedNumeral.exists_of_isPrefix (hradix : radix ≤ 16) {s sign digits t : List Char} {n : Nat}
    (h : SignedNumeral radix t n) (ht : t <+: s) (hs : SignSplit s sign digits) :
    ∃ front, t = sign ++ front ∧ front <+: digits ∧ front ≠ [] ∧ Numeral radix front n := by
  obtain ⟨hsign, rfl, hhead⟩ := hs
  obtain @⟨sign', front, _, hsign', hne, hvalue⟩ := h
  cases hsign with
  | none =>
      cases hsign' with
      | none => exact ⟨front, rfl, ht, hne, hvalue⟩
      | plus =>
          obtain ⟨rest, rfl⟩ := ht
          exact absurd rfl (hhead rfl)
  | plus =>
      cases hsign' with
      | none =>
          obtain ⟨c, front, rfl⟩ := List.exists_cons_of_ne_nil hne
          obtain ⟨rfl, -⟩ := List.cons_prefix_cons.mp ht
          obtain ⟨d, hd⟩ := hvalue.exists_isDigit List.mem_cons_self
          exact absurd hd (not_isDigit_plus hradix d)
      | plus => exact ⟨front, rfl, (List.prefix_append_right_inj _).mp ht, hne, hvalue⟩

/-- The digits after the sign are read; a sign alone has an error of its own. -/
theorem SignSplit.readNumber_eq {s sign digits : List Char} (h : SignSplit s sign digits) :
    readNumber radix s =
      if digits = [] then .error (if s = [] then .empty else .invalidDigit)
      else readDigits radix 0 digits := by
  obtain ⟨hsign, rfl, hhead⟩ := h
  cases digits with
  | nil => cases hsign <;> rfl
  | cons c digits =>
      cases hsign with
      | plus => rfl
      | none =>
          have hc : c ≠ '+' := fun heq => hhead rfl (by rw [heq]; rfl)
          simp [readNumber, hc]

/-- A number is read if its value fits. -/
theorem readNumber_eq_ok_iff (hpos : 0 < radix) (hradix : radix ≤ 16) {s : List Char} {n : Nat} :
    readNumber radix s = .ok n ↔ SignedNumeral radix s n ∧ n < numberBound := by
  obtain ⟨sign, digits, hs⟩ := exists_signSplit s
  have hsigned : SignedNumeral radix s n ↔ digits ≠ [] ∧ Numeral radix digits n := by
    constructor
    · intro h
      obtain ⟨front, hfront, -, hne, hvalue⟩ := h.exists_of_isPrefix hradix List.prefix_rfl hs
      rw [hs.eq_append, List.append_cancel_left_eq] at hfront
      rw [hfront]
      exact ⟨hne, hvalue⟩
    · rintro ⟨hne, hvalue⟩
      rw [hs.eq_append]
      exact .mk hs.isSign hne hvalue
  rw [hs.readNumber_eq, hsigned]
  split
  · next hnil => simp [hnil]
  · next hne => simp [readDigits_eq_ok_iff hpos hradix, hne]

/-- A text is too large if it begins with a number that is. -/
theorem readNumber_eq_tooLarge_iff (hpos : 0 < radix) (hradix : radix ≤ 16) {s : List Char} :
    readNumber radix s = .error .tooLarge ↔
      ∃ t n, t <+: s ∧ SignedNumeral radix t n ∧ numberBound ≤ n := by
  obtain ⟨sign, digits, hs⟩ := exists_signSplit s
  have hsigned : (∃ t n, t <+: s ∧ SignedNumeral radix t n ∧ numberBound ≤ n) ↔
      ∃ front n, front <+: digits ∧ Numeral radix front n ∧ numberBound ≤ n := by
    constructor
    · rintro ⟨t, n, ht, h, hn⟩
      obtain ⟨front, -, hfront, -, hvalue⟩ := h.exists_of_isPrefix hradix ht hs
      exact ⟨front, n, hfront, hvalue, hn⟩
    · rintro ⟨front, n, hfront, hvalue, hn⟩
      refine ⟨sign ++ front, n, ?_, .mk hs.isSign (hvalue.ne_nil hn) hvalue, hn⟩
      rw [hs.eq_append]
      exact (List.prefix_append_right_inj sign).mpr hfront
  rw [hs.readNumber_eq, hsigned, ← readDigits_eq_tooLarge_iff hpos hradix]
  split
  · next hnil =>
      rw [hnil]
      split <;> simp [readDigits]
  · rfl

/-- Only where there is nothing at all is nothing to be read. -/
theorem readNumber_eq_empty_iff {s : List Char} : readNumber radix s = .error .empty ↔ s = [] := by
  obtain ⟨sign, digits, hs⟩ := exists_signSplit s
  rw [hs.readNumber_eq]
  split
  · simp
  · next hne =>
      have hs' : s ≠ [] := by simp [hs.eq_append, hne]
      simp [readDigits_ne_empty, hs']

/-! ## reading addresses -/

/-- The mark of a text, and what follows it. -/
structure MarkSplit (s mark : List Char) (radix : Nat) (number : List Char) : Prop where
  isMark : RadixMark mark radix
  eq_append : s = mark ++ number
  not_isPrefix : mark = [] → ∀ x, x = 'x' ∨ x = 'X' → ¬['0', x] <+: number

namespace MarkSplit

variable {s mark number : List Char}

theorem radix_pos (h : MarkSplit s mark radix number) : 0 < radix := by
  cases h.isMark <;> decide

theorem radix_le (h : MarkSplit s mark radix number) : radix ≤ 16 := by
  cases h.isMark <;> decide

end MarkSplit

/-- An address is read as the number after its mark. -/
theorem exists_markSplit (s : String) : ∃ mark radix number,
    MarkSplit (trim s.toList) mark radix number ∧ readAddress s = readNumber radix number := by
  rw [readAddress]
  split
  · next number htrim => exact ⟨['0', 'x'], 16, number, ⟨.hex (.inl rfl), htrim, by simp⟩, rfl⟩
  · next number htrim => exact ⟨['0', 'X'], 16, number, ⟨.hex (.inr rfl), htrim, by simp⟩, rfl⟩
  · next hlower hupper =>
      refine ⟨[], 10, _, ⟨.decimal, rfl, fun _ x hx hmark => ?_⟩, rfl⟩
      obtain ⟨rest, hrest⟩ := hmark
      rcases hx with rfl | rfl
      · exact hlower rest hrest.symm
      · exact hupper rest hrest.symm

/-- A number is read from nothing more of a mark than its zero. -/
theorem SignedNumeral.eq_zero {t number : List Char} {n : Nat} (h : SignedNumeral 10 t n) {x : Char}
    (hx : x = 'x' ∨ x = 'X') (ht : t <+: '0' :: x :: number) : t = ['0'] ∧ n = 0 := by
  obtain @⟨sign, digits, _, hsign, hne, hvalue⟩ := h
  cases hsign with
  | plus => simp at ht
  | none =>
      obtain ⟨c, digits, rfl⟩ := List.exists_cons_of_ne_nil hne
      obtain ⟨rfl, htail⟩ := List.cons_prefix_cons.mp ht
      cases digits with
      | cons y digits =>
          obtain ⟨rfl, -⟩ := List.cons_prefix_cons.mp htail
          obtain ⟨d, hd⟩ := hvalue.exists_isDigit (List.mem_cons_of_mem _ List.mem_cons_self)
          exact absurd hd (not_isDigit_mark hx d)
      | nil =>
          obtain ⟨m, d, hm, hd, rfl⟩ := numeral_concat.mp (show Numeral 10 ([] ++ ['0']) n from hvalue)
          have hzero : digit? 10 '0' = some 0 := rfl
          rw [← digit?_eq_some_iff (by decide), hzero, Option.some.injEq] at hd
          exact ⟨rfl, by rw [numeral_nil.mp hm, ← hd]⟩

/-- There is one way to read the beginning of a text as an address, apart from the zero of a mark. -/
theorem Address.exists_of_isPrefix {s mark number t : List Char} {n : Nat} (h : Address t n)
    (ht : t <+: s) (hs : MarkSplit s mark radix number) (hn : t = s ∨ n ≠ 0) :
    ∃ front, t = mark ++ front ∧ front <+: number ∧ SignedNumeral radix front n := by
  obtain ⟨hmark, rfl, hunmarked⟩ := hs
  obtain @⟨mark', front, radix', _, hmark', hnumber⟩ := h
  cases hmark with
  | decimal =>
      cases hmark' with
      | decimal => exact ⟨front, rfl, ht, hnumber⟩
      | hex hx => exact absurd ((List.prefix_append _ _).trans ht) (hunmarked rfl _ hx)
  | hex hx =>
      cases hmark' with
      | decimal =>
          obtain ⟨hzero, hn'⟩ := hnumber.eq_zero hx ht
          rcases hn with hn | hn
          · simp [hzero] at hn
          · exact absurd hn' hn
      | hex hx' =>
          simp only [List.cons_append, List.nil_append, List.cons_prefix_cons, true_and] at ht
          obtain ⟨rfl, ht⟩ := ht
          exact ⟨front, rfl, ht, hnumber⟩

theorem numberBound_eq : numberBound = 2 ^ 32 := rfl

/-- An address is read if its value fits. -/
theorem readAddress_eq_ok_iff {s : String} {n : Nat} :
    readAddress s = .ok n ↔ Address (trim s.toList) n ∧ n < 2 ^ 32 := by
  obtain ⟨mark, radix, number, hs, hread⟩ := exists_markSplit s
  have haddress : Address (trim s.toList) n ↔ SignedNumeral radix number n := by
    constructor
    · intro h
      obtain ⟨front, hfront, -, hnumber⟩ := h.exists_of_isPrefix List.prefix_rfl hs (.inl rfl)
      rw [hs.eq_append, List.append_cancel_left_eq] at hfront
      rwa [hfront]
    · intro h
      rw [hs.eq_append]
      exact .mk hs.isMark h
  rw [hread, readNumber_eq_ok_iff hs.radix_pos hs.radix_le, haddress, numberBound_eq]

/-- A text is too large if it begins with an address that is. -/
theorem readAddress_eq_tooLarge_iff {s : String} :
    readAddress s = .error .tooLarge ↔
      ∃ t n, t <+: trim s.toList ∧ Address t n ∧ 2 ^ 32 ≤ n := by
  obtain ⟨mark, radix, number, hs, hread⟩ := exists_markSplit s
  rw [hread, readNumber_eq_tooLarge_iff hs.radix_pos hs.radix_le, numberBound_eq]
  constructor
  · rintro ⟨t, n, ht, h, hn⟩
    refine ⟨mark ++ t, n, ?_, .mk hs.isMark h, hn⟩
    rw [hs.eq_append]
    exact (List.prefix_append_right_inj mark).mpr ht
  · rintro ⟨t, n, ht, h, hn⟩
    have hpos : n ≠ 0 := by omega
    obtain ⟨front, -, hfront, hnumber⟩ := h.exists_of_isPrefix ht hs (.inr hpos)
    exact ⟨front, n, hfront, hnumber, hn⟩

/-- There is nothing to be read if there is nothing, or a mark alone. -/
theorem readAddress_eq_empty_iff {s : String} :
    readAddress s = .error .empty ↔ ∃ radix, RadixMark (trim s.toList) radix := by
  obtain ⟨mark, radix, number, hs, hread⟩ := exists_markSplit s
  rw [hread, readNumber_eq_empty_iff]
  obtain ⟨hmark, htrim, hunmarked⟩ := hs
  constructor
  · rintro rfl
    rw [htrim, List.append_nil]
    exact ⟨radix, hmark⟩
  · rintro ⟨radix', hmark'⟩
    rw [htrim] at hmark'
    generalize htext : mark ++ number = text at hmark'
    cases hmark' with
    | decimal => exact (List.append_eq_nil_iff.mp htext).2
    | @hex x hx =>
        cases hmark with
        | decimal => exact absurd (htext ▸ List.prefix_rfl) (hunmarked rfl x hx)
        | hex _ => simpa using (List.cons.inj (List.cons.inj htext).2).2

/-- The text of an address, without the blanks around it, is a mark, a sign and digits of a value below
`2 ^ 32`, and every other text is refused.  The problem is that there is nothing after the mark, or that
the first digits after mark and sign are already too large, and in all other cases a character that is no
digit. -/
theorem readAddress_exact (s : String) :
    (∀ n, readAddress s = .ok n ↔ Address (trim s.toList) n ∧ n < 2 ^ 32) ∧
    (readAddress s = .error .empty ↔ ∃ radix, RadixMark (trim s.toList) radix) ∧
    (readAddress s = .error .tooLarge ↔
      ∃ t n, t <+: trim s.toList ∧ Address t n ∧ 2 ^ 32 ≤ n) ∧
    (readAddress s = .error .invalidDigit ↔
      (¬∃ n, Address (trim s.toList) n ∧ n < 2 ^ 32) ∧
      (¬∃ radix, RadixMark (trim s.toList) radix) ∧
      ¬∃ t n, t <+: trim s.toList ∧ Address t n ∧ 2 ^ 32 ≤ n) := by
  refine ⟨fun n => readAddress_eq_ok_iff, readAddress_eq_empty_iff, readAddress_eq_tooLarge_iff, ?_⟩
  simp only [← readAddress_eq_ok_iff, ← readAddress_eq_empty_iff, ← readAddress_eq_tooLarge_iff]
  cases readAddress s with
  | ok n => simp
  | error e => cases e <;> simp

example : readAddress " 0X+00fF\n" = .ok 255 := by rfl

example : readAddress "4294967296z" = .error .tooLarge := by rfl

example : readAddress "429496729z6" = .error .invalidDigit := by rfl

end Microcode.Text

import Microcode.Word.Basic

/-!
# Microcode.Proofs.Word.InPlace

Steps that change a word in place, one after the other.

The outcome of a step is a pair: whether it was refused, and the word that stands there afterwards.
`MicroWord.after` keeps the word of steps that succeed.  The lemmas here take such a run apart along
the steps, down to `MicroWord.storeBits`, which checks the number of bits before it changes anything.
-/

namespace Microcode.MicroWord

variable {ε δ α β : Type}

/-! ## one step after another -/

/-- A step goes on from what the successful step before it left. -/
theorem bind_of_ok {x : InPlace ε α} {w u : MicroWord} {a : α} (h : x w = (.ok a, u))
    (f : α → InPlace ε β) : (x >>= f) w = f a u := by
  show ExceptT.bind x f w = f a u
  simp only [ExceptT.bind, ExceptT.bindCont, ExceptT.mk, bind, StateT.bind, h]

/-- A step that is refused ends the run, and what it left stays. -/
theorem bind_of_error {x : InPlace ε α} {w u : MicroWord} {e : ε} (h : x w = (.error e, u))
    (f : α → InPlace ε β) : (x >>= f) w = (.error e, u) := by
  show ExceptT.bind x f w = (.error e, u)
  simp only [ExceptT.bind, ExceptT.bindCont, ExceptT.mk, bind, StateT.bind, h]
  rfl

/-- A run of two parts is the second after the first. -/
theorem after_bind (w : MicroWord) (x : InPlace ε Unit) (f : Unit → InPlace ε Unit) :
    w.after (x >>= f) = w.after x >>= fun u => u.after (f ()) := by
  rcases h : x w with ⟨e | _, u⟩
  · simp only [after, bind_of_error h, h]
    rfl
  · simp only [after, bind_of_ok h, h]
    rfl

/-- A run whose errors are put into other words leaves the same word. -/
theorem after_adapt (w : MicroWord) (g : ε → δ) (steps : InPlace ε Unit) :
    w.after (ExceptT.adapt g steps) = (w.after steps).mapError g := by
  have hrun : ExceptT.adapt g steps w = ((steps w).1.mapError g, (steps w).2) := rfl
  unfold after
  rw [hrun]
  rcases steps w with ⟨e | _, u⟩ <;> rfl

/-! ## one field -/

/-- Exactly as many bits as the field has are written, and a refusal changes nothing. -/
theorem storeBits_eq (w : MicroWord) (f : Field) (bits : List Bool) :
    storeBits f bits w =
      if bits.length = f.width then (.ok (), w.splice f bits)
      else (.error (.widthMismatch f.name f.width bits.length), w) := by
  unfold storeBits
  by_cases h : bits.length = f.width
  · simp only [h, ne_eq, not_true_eq_false, if_false, if_true]
    rfl
  · simp only [h, ne_eq, not_false_eq_true, if_false, if_true]
    rfl

/-- Writing a number is writing its bits, if it has few enough. -/
theorem store_eq_of_encode {w : MicroWord} {f : Field} {value : Nat} {bits : List Bool}
    (h : Bits.encode value f.width = .ok bits) : store f value w = storeBits f bits w := by
  unfold store
  rw [h]
  rfl

/-- A number that has too many bits is not written. -/
theorem store_eq_of_overflow {w : MicroWord} {f : Field} {value : Nat} {e : EncodingError}
    (h : Bits.encode value f.width = .error e) : store f value w = (.error e, w) := by
  unfold store
  rw [h]
  rfl

end Microcode.MicroWord

import Microcode.Opcode.Decode
import Mathlib.Data.List.Forall2

/-!
# Microcode.Proofs.Result

Steps that may fail, one after the other.

Every stage of the assembler gives a value or an error.  The lemmas here take a chain of such steps
apart: from the outcome of the chain to the outcomes of its steps, for a single step after another
(`>>=`), for an error that is put into other words (`mapError`), and for a step that is repeated
over a list (`mapM`).

Two chains that are run side by side are `Related` when both fail or both succeed, alike.  Further
steps that end alike keep this (`Related.bind`).
-/

namespace Microcode.Result

variable {ε δ α β : Type}

/-! ## one step after another -/

/-- Two steps succeed exactly when both do. -/
theorem bind_eq_ok_iff {x : Except ε α} {f : α → Except ε β} {b : β} :
    (x >>= f) = .ok b ↔ ∃ a, x = .ok a ∧ f a = .ok b := by
  cases x with
  | error e => simp [bind, Except.bind]
  | ok a => simp [bind, Except.bind]

/-- Two steps fail exactly when the first does, or the second after it. -/
theorem bind_eq_error_iff {x : Except ε α} {f : α → Except ε β} {e : ε} :
    (x >>= f) = .error e ↔ x = .error e ∨ ∃ a, x = .ok a ∧ f a = .error e := by
  cases x with
  | error e' => simp [bind, Except.bind]
  | ok a => simp [bind, Except.bind]

/-- A step succeeds whatever its error is called. -/
theorem mapError_eq_ok_iff {x : Except ε α} {f : ε → δ} {a : α} :
    x.mapError f = .ok a ↔ x = .ok a := by
  cases x <;> simp [Except.mapError]

/-- A renamed error comes from an error of the step. -/
theorem mapError_eq_error_iff {x : Except ε α} {f : ε → δ} {e : δ} :
    x.mapError f = .error e ↔ ∃ e', x = .error e' ∧ f e' = e := by
  cases x <;> simp [Except.mapError]

/-- A step whose result is looked at differently succeeds as it did before. -/
theorem map_eq_ok_iff {x : Except ε α} {f : α → β} {b : β} :
    x.map f = .ok b ↔ ∃ a, x = .ok a ∧ f a = b := by
  cases x <;> simp [Except.map]

/-- A step whose result is looked at differently fails as it did before. -/
theorem map_eq_error_iff {x : Except ε α} {f : α → β} {e : ε} :
    x.map f = .error e ↔ x = .error e := by
  cases x <;> simp [Except.map]

/-- A step either succeeds or fails. -/
theorem ok_or_error (x : Except ε α) : (∃ a, x = .ok a) ∨ ∃ e, x = .error e := by
  cases x with
  | error e => exact .inr ⟨e, rfl⟩
  | ok a => exact .inl ⟨a, rfl⟩

/-! ## a step for every item of a list -/

/-- A step succeeds over a list exactly when it gives the results item by item. -/
theorem mapM_eq_ok_iff {f : α → Except ε β} {xs : List α} {ys : List β} :
    xs.mapM f = .ok ys ↔ List.Forall₂ (fun x y => f x = .ok y) xs ys := by
  induction xs generalizing ys with
  | nil =>
      rw [List.mapM_nil, List.forall₂_nil_left_iff]
      exact ⟨fun h => (Except.ok.inj h).symm, fun h => by rw [h]; rfl⟩
  | cons x xs ih =>
      rw [List.mapM_cons, bind_eq_ok_iff, List.forall₂_cons_left_iff]
      constructor
      · rintro ⟨y, hy, h⟩
        obtain ⟨rest, hrest, hys⟩ := bind_eq_ok_iff.mp h
        exact ⟨y, rest, hy, ih.mp hrest, (Except.ok.inj hys).symm⟩
      · rintro ⟨y, rest, hy, hrest, rfl⟩
        exact ⟨y, hy, bind_eq_ok_iff.mpr ⟨rest, ih.mpr hrest, rfl⟩⟩

/-- The result in a place comes from the item in that place. -/
theorem getElem?_of_mapM {f : α → Except ε β} {xs : List α} {ys : List β}
    (h : xs.mapM f = .ok ys) {k : Nat} {x : α} (hx : xs[k]? = some x) :
    ∃ y, ys[k]? = some y ∧ f x = .ok y := by
  obtain ⟨hk, rfl⟩ := List.getElem?_eq_some_iff.mp hx
  have hk' : k < ys.length := by rw [length_of_mapM h]; exact hk
  exact ⟨ys[k], List.getElem?_eq_getElem hk', (mapM_eq_ok_iff.mp h).get hk hk'⟩

/-- A step that gives `g x` under the condition `P x` gives over a list what `g` does, under the
condition that `P` holds of every item. -/
theorem mapM_eq_ok_iff_map {f : α → Except ε β} {P : α → Prop} {g : α → β}
    (h : ∀ x y, f x = .ok y ↔ P x ∧ y = g x) {xs : List α} {ys : List β} :
    xs.mapM f = .ok ys ↔ (∀ x ∈ xs, P x) ∧ ys = xs.map g := by
  have hrel : (fun x y => f x = .ok y) = fun x y => P x ∧ g x = y := by
    funext x y
    rw [eq_iff_iff, h, eq_comm]
  rw [mapM_eq_ok_iff, hrel, List.forall₂_and_left, ← List.forall₂_map_left_iff,
    List.forall₂_eq_eq_eq, eq_comm]

/-- A step succeeds over a list exactly when it succeeds for every item. -/
theorem exists_mapM_eq_ok_iff {f : α → Except ε β} {xs : List α} :
    (∃ ys, xs.mapM f = .ok ys) ↔ ∀ x ∈ xs, ∃ y, f x = .ok y := by
  induction xs with
  | nil => exact ⟨fun _ _ h => absurd h List.not_mem_nil, fun _ => ⟨[], rfl⟩⟩
  | cons x xs ih =>
      rw [List.forall_mem_cons, ← ih]
      constructor
      · rintro ⟨ys, h⟩
        rw [mapM_eq_ok_iff, List.forall₂_cons_left_iff] at h
        obtain ⟨y, rest, hy, hrest, -⟩ := h
        exact ⟨⟨y, hy⟩, rest, mapM_eq_ok_iff.mpr hrest⟩
      · rintro ⟨⟨y, hy⟩, rest, hrest⟩
        exact ⟨y :: rest, mapM_eq_ok_iff.mpr (.cons hy (mapM_eq_ok_iff.mp hrest))⟩

/-- A step over a list fails with the error of the first item that has one. -/
theorem mapM_eq_error_iff {f : α → Except ε β} {xs : List α} {e : ε} :
    xs.mapM f = .error e ↔
      ∃ (k : Nat) (x : α), xs[k]? = some x ∧ f x = .error e ∧
        ∀ j < k, ∀ y, xs[j]? = some y → ∃ b, f y = .ok b := by
  induction xs with
  | nil => simp [pure, Except.pure]
  | cons x xs ih =>
      rw [List.mapM_cons, bind_eq_error_iff]
      constructor
      · rintro (he | ⟨b, hb, h⟩)
        · exact ⟨0, x, rfl, he, fun j hj => absurd hj (Nat.not_lt_zero j)⟩
        · rcases bind_eq_error_iff.mp h with h | ⟨rest, -, h⟩
          · obtain ⟨k, y, hy, he, hbefore⟩ := ih.mp h
            refine ⟨k + 1, y, hy, he, fun j hj z hz => ?_⟩
            cases j with
            | zero => exact ⟨b, Option.some.inj hz ▸ hb⟩
            | succ j => exact hbefore j (Nat.lt_of_succ_lt_succ hj) z hz
          · exact nomatch h
      · rintro ⟨k, y, hy, he, hbefore⟩
        cases k with
        | zero => exact .inl (Option.some.inj hy ▸ he)
        | succ k =>
            obtain ⟨b, hb⟩ := hbefore 0 (Nat.succ_pos k) x rfl
            have hrest := ih.mpr ⟨k, y, hy, he, fun j hj z hz =>
              hbefore (j + 1) (Nat.succ_lt_succ hj) z hz⟩
            exact .inr ⟨b, hb, bind_eq_error_iff.mpr (.inl hrest)⟩

/-- The error of a step over a list is the error of one of the items. -/
theorem exists_mem_of_mapM_eq_error {f : α → Except ε β} {xs : List α} {e : ε}
    (h : xs.mapM f = .error e) : ∃ x ∈ xs, f x = .error e := by
  obtain ⟨k, x, hx, he, -⟩ := mapM_eq_error_iff.mp h
  exact ⟨x, List.mem_of_getElem? hx, he⟩

/-! ## two runs side by side -/

variable {ε' δ' α' β' : Type}

/-- Two steps end alike: both fail, with errors that `E` relates, or both succeed, with results that
`R` relates. -/
inductive Related (E : ε → ε' → Prop) (R : α → α' → Prop) : Except ε α → Except ε' α' → Prop
  | error {e : ε} {e' : ε'} (h : E e e') : Related E R (.error e) (.error e')
  | ok {a : α} {a' : α'} (h : R a a') : Related E R (.ok a) (.ok a')

namespace Related

variable {E : ε → ε' → Prop} {R : α → α' → Prop} {S : β → β' → Prop}

/-- A step ends like itself. -/
theorem refl (x : Except ε α) : Related (· = ·) (· = ·) x x := by
  cases x with
  | error e => exact .error rfl
  | ok a => exact .ok rfl

/-- Steps that end alike, after steps that end alike. -/
theorem bind {x : Except ε α} {x' : Except ε' α'} {f : α → Except ε β} {f' : α' → Except ε' β'}
    (h : Related E R x x') (hf : ∀ a a', R a a' → Related E S (f a) (f' a')) :
    Related E S (x >>= f) (x' >>= f') := by
  cases h with
  | error h => exact .error h
  | ok h => exact hf _ _ h

/-- Errors may be put into other words, as long as these are related. -/
theorem mapError {F : δ → δ' → Prop} {x : Except ε α} {x' : Except ε' α'} {f : ε → δ} {f' : ε' → δ'}
    (h : Related E R x x') (hf : ∀ e e', E e e' → F (f e) (f' e')) :
    Related F R (x.mapError f) (x'.mapError f') := by
  cases h with
  | error h => exact .error (hf _ _ h)
  | ok h => exact .ok h

/-- The results may be looked at differently, as long as what is seen is related. -/
theorem map {x : Except ε α} {x' : Except ε' α'} {f : α → β} {f' : α' → β'} (h : Related E R x x')
    (hf : ∀ a a', R a a' → S (f a) (f' a')) : Related E S (x.map f) (x'.map f') := by
  cases h with
  | error h => exact .error h
  | ok h => exact .ok (hf _ _ h)

/-- Putting an error into other words changes nothing else. -/
theorem mapError_right (x : Except ε α) (f : ε → δ) :
    Related (f · = ·) (· = ·) x (x.mapError f) := by
  cases x with
  | error e => exact .error rfl
  | ok a => exact .ok rfl

/-- Two steps that are the same once their errors are put into other words differ in their errors
only. -/
theorem of_mapError_eq {x x' : Except ε α} {f : ε → δ} (h : x.mapError f = x'.mapError f) :
    Related (fun e e' => f e = f e') (· = ·) x x' := by
  cases x <;> cases x' <;> simp only [Except.mapError, reduceCtorEq, Except.error.injEq,
    Except.ok.injEq] at h
  · exact .error h
  · exact .ok h

/-- What is known of the two results may be added to their relation. -/
theorem imp_ok {T : α → α' → Prop} {x : Except ε α} {x' : Except ε' α'} (h : Related E R x x')
    (hT : ∀ a a', x = .ok a → x' = .ok a' → R a a' → T a a') : Related E T x x' := by
  cases h with
  | error h => exact .error h
  | ok h => exact .ok (hT _ _ rfl rfl h)

/-- Steps of which one succeeds exactly when the other does end alike, if their results do. -/
theorem of_exists_ok_iff {x : Except ε α} {x' : Except ε' α'}
    (hok : (∃ a, x = .ok a) ↔ ∃ a', x' = .ok a')
    (hR : ∀ a a', x = .ok a → x' = .ok a' → R a a') : Related (fun _ _ => True) R x x' := by
  rcases ok_or_error x with ⟨a, ha⟩ | ⟨e, he⟩
  · obtain ⟨a', ha'⟩ := hok.mp ⟨a, ha⟩
    rw [ha, ha']
    exact .ok (hR a a' ha ha')
  · rcases ok_or_error x' with ⟨a', ha'⟩ | ⟨e', he'⟩
    · obtain ⟨a, ha⟩ := hok.mpr ⟨a', ha'⟩
      rw [he] at ha
      contradiction
    · rw [he, he']
      exact .error trivial

end Related

end Microcode.Result

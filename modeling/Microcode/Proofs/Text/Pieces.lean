import Microcode.Text.Pieces
import Mathlib.Data.List.TakeWhile

/-!
# Microcode.Proofs.Text.Pieces

Cutting a text that was joined from pieces gives the pieces back.

A separator may have blanks around it (`map_trim_splitOn_intercalate`), and pieces that are
`Trimmed` survive the trimming (`trim_eq_self`).  A text is cut where a marker begins for the first
time, and what is cut off from a text with another behind it depends on how the two meet
(`before_append_left`, `before_append_right`, `exists_before_append_pair`); the lines of a text are
those it was put together from (`lines_append`, `lines_cons`, `flatMap_lines`,
`splitOn_flatMap_newline`, `linesOf_join_append`).  No piece has characters that the text has not
(`trim_subset`, `before_subset`, `mem_of_mem_splitOn`).

Tokens are cut at blanks: a word ends at a blank (`tokens_append_cons`), and a text that begins with no
blank begins with its first token (`exists_append_of_tokens`).
-/

namespace Microcode.Text

/-! ## trimming -/

/-- The text neither begins nor ends with a blank. -/
def Trimmed (s : List Char) : Prop :=
  (∀ c ∈ s.head?, isBlank c = false) ∧ ∀ c ∈ s.getLast?, isBlank c = false

/-- A text that begins with no blank has none to lose there. -/
theorem trimStart_eq_self {s : List Char} (h : ∀ c ∈ s.head?, isBlank c = false) :
    trimStart s = s := by
  cases s with
  | nil => rfl
  | cons c rest =>
      rw [trimStart, List.dropWhile_cons, h c rfl]
      rfl

/-- A text that ends with no blank has none to lose there. -/
theorem trimEnd_eq_self {s : List Char} (h : ∀ c ∈ s.getLast?, isBlank c = false) :
    trimEnd s = s := by
  have hreverse : trimStart s.reverse = s.reverse := trimStart_eq_self (by rwa [List.head?_reverse])
  rw [trimEnd, ← trimStart, hreverse, List.reverse_reverse]

/-- Trimming keeps a trimmed text. -/
theorem trim_eq_self {s : List Char} (h : Trimmed s) : trim s = s := by
  rw [trim, trimStart_eq_self h.1, trimEnd_eq_self h.2]

/-- Blanks in front of a text do not matter. -/
theorem trim_blanks_append {blanks : List Char} (h : ∀ c ∈ blanks, isBlank c = true)
    (s : List Char) : trim (blanks ++ s) = trim s := by
  rw [trim, trimStart, List.dropWhile_append_of_pos h, ← trimStart, ← trim]

theorem trimEnd_append_blanks {blanks : List Char} (h : ∀ c ∈ blanks, isBlank c = true)
    (s : List Char) : trimEnd (s ++ blanks) = trimEnd s := by
  have hreverse : ∀ c ∈ blanks.reverse, isBlank c = true := fun c hc => h c (List.mem_reverse.mp hc)
  rw [trimEnd, List.reverse_append, List.dropWhile_append_of_pos hreverse, ← trimEnd]

/-- Blanks after a text do not matter. -/
theorem trim_append_blanks {blanks : List Char} (h : ∀ c ∈ blanks, isBlank c = true)
    (s : List Char) : trim (s ++ blanks) = trim s := by
  have hnil : trimStart blanks = [] := List.dropWhile_eq_nil_iff.mpr h
  rw [trim, trimStart, List.dropWhile_append]
  split
  · next hs =>
      rw [List.isEmpty_iff] at hs
      rw [← trimStart, hnil, trim, trimStart, hs]
  · rw [trimEnd_append_blanks h, ← trimStart, ← trim]

/-- A text that begins with no blank stops the blanks before it. -/
theorem trimStart_append {t : List Char} (h : trimStart t = t) (s : List Char) :
    trimStart (s ++ t) = trimStart s ++ t := by
  rw [trimStart, List.dropWhile_append]
  split
  · next hs =>
      rw [List.isEmpty_iff] at hs
      rw [trimStart, hs]
      exact h
  · rfl

/-- A text that ends with no blank stops the blanks after it. -/
theorem trimEnd_append {s : List Char} (h : trimEnd s = s) (t : List Char) :
    trimEnd (s ++ t) = s ++ trimEnd t := by
  have hreverse : trimStart s.reverse = s.reverse := by
    rw [← List.reverse_inj, List.reverse_reverse]
    exact h
  rw [trimEnd, List.reverse_append, ← trimStart, trimStart_append hreverse, List.reverse_append,
    List.reverse_reverse, trimStart, ← trimEnd]

/-- A text is what is left of it without the blanks it ends with, and these blanks. -/
theorem exists_trimEnd_append (s : List Char) :
    ∃ blanks, (∀ c ∈ blanks, isBlank c = true) ∧ trimEnd s ++ blanks = s := by
  refine ⟨(s.reverse.takeWhile isBlank).reverse, fun c hc => ?_, ?_⟩
  · exact List.mem_takeWhile_imp (List.mem_reverse.mp hc)
  · rw [trimEnd, ← List.reverse_append, List.takeWhile_append_dropWhile, List.reverse_reverse]

theorem trimEnd_isPrefix (s : List Char) : trimEnd s <+: s := by
  obtain ⟨blanks, -, hs⟩ := exists_trimEnd_append s
  exact ⟨blanks, hs⟩

/-- Trimming only cuts off. -/
theorem trim_isInfix (s : List Char) : trim s <:+: s :=
  (trimEnd_isPrefix (trimStart s)).isInfix.trans (List.dropWhile_suffix isBlank).isInfix

theorem isBlank_of_head?_trimStart {s : List Char} {c : Char} (h : (trimStart s).head? = some c) :
    isBlank c = false := by
  have hstop := List.head?_dropWhile_not isBlank s
  rw [← trimStart, h] at hstop
  exact hstop

theorem isBlank_of_getLast?_trimEnd {s : List Char} {c : Char} (h : (trimEnd s).getLast? = some c) :
    isBlank c = false := by
  rw [trimEnd, List.getLast?_reverse] at h
  exact isBlank_of_head?_trimStart h

/-- A text whose beginning is that of a text without blanks in front has none in front either. -/
theorem trimmed_trimEnd {s t : List Char} (h : trimEnd s <+: trimStart t) : Trimmed (trimEnd s) := by
  refine ⟨fun c hc => ?_, fun c hc => isBlank_of_getLast?_trimEnd hc⟩
  obtain ⟨rest, hrest⟩ := h
  refine isBlank_of_head?_trimStart (s := t) ?_
  rw [← hrest, List.head?_append, hc, Option.some_or]

theorem trimmed_trim (s : List Char) : Trimmed (trim s) := trimmed_trimEnd (trimEnd_isPrefix _)

/-- A text between two trimmed ones is trimmed with them. -/
theorem Trimmed.append {s t : List Char} (hs : Trimmed s) (ht : Trimmed t) (hs' : s ≠ [])
    (ht' : t ≠ []) (between : List Char) : Trimmed (s ++ between ++ t) := by
  constructor
  · obtain ⟨c, rest, rfl⟩ := List.exists_cons_of_ne_nil hs'
    exact hs.1
  · obtain ⟨last, hlast⟩ := Option.ne_none_iff_exists'.mp (mt List.getLast?_eq_none_iff.mp ht')
    rw [List.getLast?_append, hlast, Option.some_or, ← hlast]
    exact ht.2

/-! ## joining and cutting -/

/-- What is joined from pieces has their characters, and those of the glue. -/
theorem forall_mem_intercalate {P : Char → Prop} {glue : List Char} {ls : List (List Char)}
    (hglue : ∀ c ∈ glue, P c) (hls : ∀ l ∈ ls, ∀ c ∈ l, P c) : ∀ c ∈ glue.intercalate ls, P c := by
  induction ls with
  | nil => exact fun c hc => absurd hc List.not_mem_nil
  | cons l ls ih =>
      cases ls with
      | nil => rw [List.intercalate_singleton]; exact hls l List.mem_cons_self
      | cons l' rest =>
          intro c hc
          rw [List.intercalate_cons_cons, List.mem_append, List.mem_append] at hc
          rcases hc with (hc | hc) | hc
          · exact hls l List.mem_cons_self c hc
          · exact hglue c hc
          · exact ih (fun l hl => hls l (List.mem_cons_of_mem _ hl)) c hc

/-- What is joined from trimmed pieces is trimmed, and there is something in it. -/
theorem trimmed_intercalate {glue : List Char} {ls : List (List Char)} (hls : ls ≠ [])
    (h : ∀ l ∈ ls, l ≠ [] ∧ Trimmed l) :
    glue.intercalate ls ≠ [] ∧ Trimmed (glue.intercalate ls) := by
  induction ls with
  | nil => exact absurd rfl hls
  | cons l ls ih =>
      obtain ⟨hne, htrimmed⟩ := h l List.mem_cons_self
      cases ls with
      | nil => rw [List.intercalate_singleton]; exact ⟨hne, htrimmed⟩
      | cons l' rest =>
          obtain ⟨hne', htrimmed'⟩ := ih (List.cons_ne_nil _ _) fun l hl =>
            h l (List.mem_cons_of_mem _ hl)
          rw [List.intercalate_cons_cons]
          refine ⟨?_, htrimmed.append htrimmed' hne hne' glue⟩
          simp [hne]

/-- The end of the glue can as well be in front of every piece. -/
theorem append_intercalate (glue front : List Char) {ls : List (List Char)} (hls : ls ≠ []) :
    front ++ (glue ++ front).intercalate ls = glue.intercalate (ls.map (front ++ ·)) := by
  induction ls with
  | nil => contradiction
  | cons l ls ih =>
      cases ls with
      | nil => simp
      | cons l' rest =>
          have hrest := ih (List.cons_ne_nil _ _)
          rw [List.map_cons] at hrest
          rw [List.map_cons, List.map_cons, List.intercalate_cons_cons, List.intercalate_cons_cons,
            ← hrest]
          simp only [List.append_assoc]

theorem isBlank_of_mem_space : ∀ c ∈ [' '], isBlank c = true := List.forall_mem_singleton.mpr rfl

theorem notMem_of_isBlank {c : Char} (hc : isBlank c = false) {blanks : List Char}
    (h : ∀ c ∈ blanks, isBlank c = true) : c ∉ blanks := by
  intro hmem
  rw [h c hmem] at hc
  contradiction

/-- Cutting at a separator gives the pieces that were joined with it, up to blanks around the
separators and in front of all. -/
theorem map_trim_splitOn_append_intercalate {separator : Char} (hsep : isBlank separator = false)
    {before after : List Char} (hbefore : ∀ c ∈ before, isBlank c = true)
    (hafter : ∀ c ∈ after, isBlank c = true) {ls : List (List Char)} (hls : ls ≠ [])
    (h : ∀ l ∈ ls, separator ∉ l) {lead : List Char} (hlead : ∀ c ∈ lead, isBlank c = true) :
    ((lead ++ (before ++ separator :: after).intercalate ls).splitOn separator).map trim =
      ls.map trim := by
  -- the blanks after a separator lead the pieces that are left
  induction ls generalizing lead with
  | nil => exact absurd rfl hls
  | cons l ls ih =>
      rw [List.forall_mem_cons] at h
      cases ls with
      | nil =>
          have hpiece : separator ∉ lead ++ l := by
            rw [List.mem_append]
            exact fun hmem => hmem.elim (notMem_of_isBlank hsep hlead) h.1
          rw [List.intercalate_singleton, List.splitOn_eq_singleton hpiece, List.map_singleton,
            List.map_singleton, trim_blanks_append hlead]
      | cons l' rest =>
          have hshape : lead ++ (before ++ separator :: after).intercalate (l :: l' :: rest) =
              (lead ++ (l ++ before)) ++ separator ::
                (after ++ (before ++ separator :: after).intercalate (l' :: rest)) := by
            simp [List.intercalate_cons_cons]
          have hpiece : separator ∉ lead ++ (l ++ before) := by
            rw [List.mem_append, List.mem_append]
            rintro (hmem | hmem | hmem)
            · exact notMem_of_isBlank hsep hlead hmem
            · exact h.1 hmem
            · exact notMem_of_isBlank hsep hbefore hmem
          rw [hshape, List.splitOn_append_cons_self_of_not_mem hpiece, List.map_cons,
            ih (List.cons_ne_nil _ _) h.2 hafter, trim_blanks_append hlead,
            trim_append_blanks hbefore]
          rfl

/-- Cutting at a separator gives the pieces that were joined with it, up to blanks. -/
theorem map_trim_splitOn_intercalate {separator : Char} (hsep : isBlank separator = false)
    {before after : List Char} (hbefore : ∀ c ∈ before, isBlank c = true)
    (hafter : ∀ c ∈ after, isBlank c = true) {ls : List (List Char)} (hls : ls ≠ [])
    (h : ∀ l ∈ ls, separator ∉ l) :
    (((before ++ separator :: after).intercalate ls).splitOn separator).map trim = ls.map trim :=
  map_trim_splitOn_append_intercalate hsep hbefore hafter hls h (List.forall_mem_nil _)

/-! ## markers -/

/-- A text is cut where the marker begins for the first time. -/
theorem before_cons (marker : List Char) (c : Char) (s : List Char) :
    before marker (c :: s) = if marker.isPrefixOf (c :: s) then [] else c :: before marker s := by
  have hrest : ∀ s : List Char, (s.foldr
      (fun x (p : List Char × List Char) =>
        (x :: p.1, if marker.isPrefixOf (x :: p.1) then [] else x :: p.2)) ([], [])).1 = s := by
    intro s
    induction s with
    | nil => rfl
    | cons x s ih => rw [List.foldr_cons, ih]
  simp only [before, List.foldr_cons, hrest]

/-- The first character of a marker has to stand where the marker does. -/
theorem isPrefixOf_cons_eq_false {c x : Char} (h : x ≠ c) (marker s : List Char) :
    (c :: marker).isPrefixOf (x :: s) = false := by
  simp [List.isPrefixOf, h.symm]

/-- Cutting at a marker leaves the beginning of a text. -/
theorem before_isPrefix (marker s : List Char) : before marker s <+: s := by
  induction s with
  | nil => exact List.prefix_rfl
  | cons c s ih =>
      rw [before_cons]
      split
      · exact List.nil_prefix
      · exact (List.prefix_cons_inj c).mpr ih

/-- A text without a marker has nothing cut off. -/
theorem before_eq_self {marker s : List Char} (h : ¬marker <:+: s) : before marker s = s := by
  induction s with
  | nil => rfl
  | cons c s ih =>
      rw [List.infix_cons_iff, not_or] at h
      rw [before_cons, if_neg (by simpa using h.1), ih h.2]

/-- No marker is left after cutting at it. -/
theorem not_infix_before {marker : List Char} (hne : marker ≠ []) (s : List Char) :
    ¬marker <:+: before marker s := by
  induction s with
  | nil => simpa [before] using hne
  | cons c s ih =>
      rw [before_cons]
      split
      · simpa using hne
      · next hstart =>
          rw [List.infix_cons_iff, not_or]
          refine ⟨fun hprefix => hstart ?_, ih⟩
          rw [List.isPrefixOf_iff_prefix]
          exact hprefix.trans ((List.prefix_cons_inj c).mpr (before_isPrefix marker s))

/-- A marker does not begin where its first character does not stand. -/
theorem infix_of_infix_append {c : Char} {marker s t : List Char} (h : c ∉ s)
    (hmarker : c :: marker <:+: s ++ t) : c :: marker <:+: t := by
  induction s with
  | nil => exact hmarker
  | cons x s ih =>
      rw [List.mem_cons, not_or] at h
      rw [List.cons_append, List.infix_cons_iff, List.cons_prefix_cons] at hmarker
      exact ih h.2 (hmarker.resolve_left fun hstart => h.1 hstart.1)

/-- A marker does not end where its last character does not stand. -/
theorem infix_of_infix_append_right {c : Char} {marker s t : List Char} (h : c ∉ t)
    (hmarker : marker ++ [c] <:+: s ++ t) : marker ++ [c] <:+: s := by
  rw [← List.reverse_infix, List.reverse_append, List.reverse_singleton, List.singleton_append]
    at hmarker ⊢
  rw [List.reverse_append] at hmarker
  exact infix_of_infix_append (by simpa using h) hmarker

theorem not_infix_of_notMem {c : Char} {marker s : List Char} (h : c ∉ s) :
    ¬c :: marker <:+: s := fun hmarker => h (hmarker.subset List.mem_cons_self)

/-- A text without the first character of a marker has nothing cut off. -/
theorem before_of_notMem {c : Char} {marker s : List Char} (h : c ∉ s) :
    before (c :: marker) s = s := before_eq_self (not_infix_of_notMem h)

/-- A marker is looked for behind a text without its first character. -/
theorem before_append_left {c : Char} {s : List Char} (h : c ∉ s) (marker t : List Char) :
    before (c :: marker) (s ++ t) = s ++ before (c :: marker) t := by
  induction s with
  | nil => rfl
  | cons x s ih =>
      rw [List.mem_cons, not_or] at h
      rw [List.cons_append, before_cons, isPrefixOf_cons_eq_false (Ne.symm h.1), ih h.2]
      rfl

/-- One character of the marker is not yet the marker, if something else follows it. -/
theorem before_cons_append {x : Char} {s : List Char} (h : x ∉ s) (hs : s ≠ []) (c : Char)
    (t : List Char) : before [x, x] (c :: (s ++ t)) = c :: (s ++ before [x, x] t) := by
  have hstart : [x, x].isPrefixOf (c :: (s ++ t)) = false := by
    obtain ⟨y, s, rfl⟩ := List.exists_cons_of_ne_nil hs
    have hy : x ≠ y := fun heq => h (heq ▸ List.mem_cons_self)
    simp [List.isPrefixOf, hy]
  rw [before_cons, hstart, before_append_left h]
  rfl

/-- A text is cut as if nothing followed it if it has the marker, and otherwise what follows is cut,
where the marker cannot begin in one of the two and end in the other. -/
theorem before_append_right {c : Char} {s t : List Char} (h : t.head? ≠ some c) :
    before [c, c] (s ++ t) = before [c, c] s ∨
      before [c, c] (s ++ t) = before [c, c] s ++ before [c, c] t := by
  induction s with
  | nil => exact .inr rfl
  | cons x s ih =>
      have hstart : [c, c].isPrefixOf (x :: (s ++ t)) = [c, c].isPrefixOf (x :: s) := by
        cases s with
        | cons y s => rfl
        | nil =>
            cases t with
            | nil => rfl
            | cons y t =>
                have hy : c ≠ y := fun heq => h (heq ▸ rfl)
                simp [List.isPrefixOf, hy]
      rw [List.cons_append, before_cons, before_cons, hstart]
      split
      · exact .inl rfl
      · exact ih.imp (congrArg (x :: ·)) (congrArg (x :: ·))

/-- Behind a text that has the marker nothing matters, and behind one that has not, a text with other
characters than the marker is kept. -/
theorem before_append {c : Char} {s t : List Char} (h : c ∉ t) :
    before [c, c] (s ++ t) = before [c, c] s ∨ before [c, c] (s ++ t) = before [c, c] s ++ t := by
  have hcut := before_append_right (s := s) fun hhead => h (List.mem_of_head? hhead)
  rwa [before_of_notMem h] at hcut

/-- A marker behind a text is found there, or before, if the text does not end in a part of it. -/
theorem before_append_pair {c : Char} {s : List Char} (h : s.getLast? ≠ some c) (t : List Char) :
    before [c, c] (s ++ c :: c :: t) = before [c, c] s := by
  induction s with
  | nil => simp [List.isPrefixOf, before]
  | cons x s ih =>
      rw [List.cons_append, before_cons, before_cons]
      cases s with
      | nil =>
          have hx : c ≠ x := fun heq => h (by simp [heq])
          simp [List.isPrefixOf, hx, before]
      | cons y s =>
          rw [ih (by simpa [List.getLast?_cons_cons] using h)]
          rfl

/-- If it does, nothing but a part of the marker is lost. -/
theorem exists_before_append_pair (c : Char) (s t : List Char) :
    ∃ lost, (∀ x ∈ lost, x = c) ∧
      before [c, c] s = before [c, c] (s ++ c :: c :: t) ++ lost := by
  induction s with
  | nil => exact ⟨[], by simp, by simp [before]⟩
  | cons x s ih =>
      rw [List.cons_append, before_cons, before_cons]
      cases s with
      | nil =>
          by_cases hx : c = x
          · exact ⟨[x], by simp [hx], by simp [hx, before]⟩
          · exact ⟨[], by simp, by simp [hx, before]⟩
      | cons y s =>
          obtain ⟨lost, hlost, hcut⟩ := ih
          have hstart : [c, c].isPrefixOf (x :: (y :: s ++ c :: c :: t)) =
              [c, c].isPrefixOf (x :: y :: s) := rfl
          rw [hstart]
          split
          · exact ⟨[], by simp, rfl⟩
          · exact ⟨lost, hlost, congrArg (x :: ·) hcut⟩

/-- What follows a marker that the text begins with. -/
theorem after?_marker {c : Char} (marker t : List Char) :
    after? (c :: marker) (c :: marker ++ t) = some t := by
  simp [after?]

/-- A marker does not begin in the first part of a text when one of its characters is not where it
would have to be. -/
theorem after?_append {marker : List Char} {k : Nat} {x : Char} (hx : marker[k]? = some x)
    {s t : List Char} (h : x ∉ s ++ t.take k) : after? marker (s ++ t) = after? marker t := by
  induction s with
  | nil => rfl
  | cons c s ih =>
      rw [List.cons_append, List.mem_cons, not_or] at h
      have hstart : marker.isPrefixOf (c :: (s ++ t)) = false := by
        rw [Bool.eq_false_iff, Ne, List.isPrefixOf_iff_prefix]
        rintro ⟨rest, hrest⟩
        have hk := (List.getElem?_eq_some_iff.mp hx).1
        have hget : (c :: (s ++ t))[k]? = some x := by
          rw [← hrest, List.getElem?_append_left hk, hx]
        cases k with
        | zero => exact h.1 (Option.some.inj hget).symm
        | succ k =>
            rw [List.getElem?_cons_succ] at hget
            refine h.2 (List.mem_of_getElem? (i := k) ?_)
            rw [← List.take_length_add_append, List.getElem?_take_of_lt (by omega), hget]
      rw [List.cons_append, after?, hstart]
      exact ih h.2

/-- A text without a marker has nothing after it. -/
theorem after?_eq_none {marker s : List Char} (h : ¬marker <:+: s) : after? marker s = none := by
  induction s with
  | nil =>
      have hne : marker ≠ [] := by simpa using h
      simpa [after?] using hne
  | cons c s ih =>
      rw [List.infix_cons_iff, not_or] at h
      rw [after?, if_neg (by simpa using h.1), ih h.2]

/-- A text without the first character of a marker does not have the marker. -/
theorem after?_of_notMem {c : Char} {s : List Char} (h : c ∉ s) (marker : List Char) :
    after? (c :: marker) s = none := after?_eq_none (not_infix_of_notMem h)

/-! ## characters of the pieces -/

theorem trimEnd_subset (s : List Char) : trimEnd s ⊆ s := (trimEnd_isPrefix s).subset

theorem trim_subset (s : List Char) : trim s ⊆ s := (trim_isInfix s).subset

/-- Cutting at a marker leaves characters of the text. -/
theorem before_subset (marker s : List Char) : before marker s ⊆ s := (before_isPrefix marker s).subset

/-- The pieces of a text have its characters, apart from the separator. -/
theorem mem_of_mem_splitOn {separator c : Char} {s piece : List Char}
    (hpiece : piece ∈ s.splitOn separator) (hc : c ∈ piece) : c ∈ s ∧ c ≠ separator := by
  induction s generalizing piece with
  | nil =>
      rw [List.splitOn_nil, List.mem_singleton] at hpiece
      rw [hpiece] at hc
      contradiction
  | cons x s ih =>
      rw [List.splitOn_cons_eq_if_modifyHead] at hpiece
      by_cases hx : (x == separator) = true
      · rw [if_pos hx, List.mem_cons] at hpiece
        rcases hpiece with rfl | hpiece
        · contradiction
        · exact (ih hpiece hc).imp_left (List.mem_cons_of_mem x)
      · rw [if_neg hx] at hpiece
        obtain ⟨first, others, hpieces⟩ := List.exists_cons_of_ne_nil (List.splitOn_ne_nil separator s)
        rw [hpieces] at ih hpiece
        rw [List.modifyHead_cons, List.mem_cons] at hpiece
        rcases hpiece with rfl | hpiece
        · rcases List.mem_cons.mp hc with rfl | hc
          · exact ⟨List.mem_cons_self, fun heq => hx (beq_iff_eq.mpr heq)⟩
          · exact (ih List.mem_cons_self hc).imp_left (List.mem_cons_of_mem x)
        · exact (ih (List.mem_cons_of_mem _ hpiece) hc).imp_left (List.mem_cons_of_mem x)

/-! ## tokens -/

/-- A text that is not empty and has no blanks in it. -/
def IsWord (s : List Char) : Prop := s ≠ [] ∧ ∀ c ∈ s, isBlank c = false

theorem IsWord.trimmed {s : List Char} (h : IsWord s) : Trimmed s :=
  ⟨fun c hc => h.2 c (List.mem_of_head? hc), fun c hc => h.2 c (List.mem_of_getLast? hc)⟩

/-- What follows the first word of a text begins with a blank. -/
theorem isBlank_of_head?_dropWhile {s : List Char} {c : Char}
    (h : (s.dropWhile (!isBlank ·)).head? = some c) : isBlank c = true := by
  have hstop := List.head?_dropWhile_not (!isBlank ·) s
  rw [h] at hstop
  simpa using hstop

/-- A text that begins with a word is cut where the blanks after it begin. -/
theorem span_blank {s rest : List Char} (hs : ∀ c ∈ s, isBlank c = false)
    (hrest : ∀ c ∈ rest.head?, isBlank c = true) :
    (s ++ rest).takeWhile (!isBlank ·) = s ∧ (s ++ rest).dropWhile (!isBlank ·) = rest := by
  have hs' : ∀ c ∈ s, (!isBlank c) = true := by simpa using hs
  rw [List.takeWhile_append_of_pos hs', List.dropWhile_append_of_pos hs']
  cases rest with
  | nil => simp
  | cons c rest => simp [hrest c rfl]

theorem tokens_of_isWord {s : List Char} (h : IsWord s) : tokens s = [s] := by
  rw [tokens, List.splitOnP_eq_singleton h.2]
  simp [h.1]

/-- A word ends at a blank. -/
theorem tokens_append_cons {s : List Char} (h : IsWord s) {c : Char} (hc : isBlank c = true)
    (t : List Char) : tokens (s ++ c :: t) = s :: tokens t := by
  rw [tokens, List.splitOnP_append_cons s t hc, List.splitOnP_eq_singleton h.2]
  simp [h.1, tokens]

/-- A text that begins with no blank begins with its first token. -/
theorem exists_append_of_tokens {s first : List Char} {others : List (List Char)}
    (hs : ∀ c ∈ s.head?, isBlank c = false) (h : tokens s = first :: others) :
    ∃ rest, s = first ++ rest := by
  obtain ⟨c, s', rfl⟩ : ∃ c s', s = c :: s' := by
    refine List.exists_cons_of_ne_nil ?_
    rintro rfl
    simp [tokens] at h
  have hword : IsWord ((c :: s').takeWhile (!isBlank ·)) := by
    refine ⟨by simp [hs c rfl], fun x hx => ?_⟩
    simpa using List.mem_takeWhile_imp hx
  have hcut := List.takeWhile_append_dropWhile (p := (!isBlank ·)) (l := c :: s')
  refine ⟨(c :: s').dropWhile (!isBlank ·), ?_⟩
  cases hrest : (c :: s').dropWhile (!isBlank ·) with
  | nil =>
      rw [hrest, List.append_nil] at hcut
      rw [hcut] at hword
      rw [tokens_of_isWord hword] at h
      rw [List.append_nil, (List.cons.inj h).1]
  | cons x t =>
      have hx : isBlank x = true := isBlank_of_head?_dropWhile (by rw [hrest]; rfl)
      rw [hrest] at hcut
      rw [← hcut, tokens_append_cons hword hx] at h
      rw [← (List.cons.inj h).1, hcut]

/-! ## lines -/

/-- The lines of a text up to a line feed do not depend on what follows it. -/
theorem lines_append_newline (s t : List Char) :
    lines (s ++ '\n' :: t) = (s.splitOn '\n').map dropReturn ++ lines t := by
  have hne : t.splitOn '\n' ≠ [] := List.splitOn_ne_nil _ _
  have hlast : (s.splitOn '\n' ++ t.splitOn '\n').getLast? = (t.splitOn '\n').getLast? := by
    rw [List.getLast?_append, List.getLast?_eq_some_getLast hne, Option.some_or]
  simp only [lines, List.splitOn_append_cons_self, List.dropLast_append_of_ne_nil hne, hlast,
    List.map_append, List.append_assoc]

/-- The lines of a text that ends in a line feed come before those of what follows. -/
theorem lines_append {s : List Char} (h : s.getLast? = some '\n') (t : List Char) :
    lines (s ++ t) = lines s ++ lines t := by
  obtain ⟨front, rfl⟩ := List.getLast?_eq_some_iff.mp h
  have hfront := lines_append_newline front []
  rw [List.append_assoc, List.singleton_append, lines_append_newline, hfront]
  simp [lines]

/-- A text that can stand as a line. -/
def IsLine (line : List Char) : Prop := '\n' ∉ line ∧ line.getLast? ≠ some '\r'

theorem isLine_of_notMem {line : List Char} (hfeed : '\n' ∉ line) (hreturn : '\r' ∉ line) :
    IsLine line :=
  ⟨hfeed, fun hlast => hreturn (List.mem_of_getLast? hlast)⟩

/-- What stands before a line feed is a line, up to a carriage return. -/
theorem lines_cons_dropReturn {line : List Char} (h : '\n' ∉ line) (t : List Char) :
    lines (line ++ '\n' :: t) = dropReturn line :: lines t := by
  rw [lines_append_newline, List.splitOn_eq_singleton h]
  rfl

/-- The text without line feeds that a text ends with is its last line. -/
theorem mem_lines_of_notMem {rest line : List Char} (h : '\n' ∉ rest) (hline : line ∈ lines rest) :
    line = rest := by
  rw [lines, List.splitOn_eq_singleton h] at hline
  by_cases hempty : rest = []
  · simp [hempty] at hline
  · simpa [hempty] using hline

theorem dropReturn_append_cons {c : Char} (h : c ≠ '\r') (s t : List Char) :
    dropReturn (s ++ c :: t) = s ++ c :: dropReturn t := by
  cases t with
  | nil => simp [dropReturn, h]
  | cons x t =>
      have hlast : (s ++ c :: x :: t).getLast? = (x :: t).getLast? := by
        rw [List.getLast?_append, List.getLast?_cons_cons, List.getLast?_cons, Option.some_or]
      unfold dropReturn
      rw [hlast]
      split
      · rw [List.dropLast_append_cons, List.dropLast_cons_cons]
      · rfl

theorem flatMap_splitOn_newline (s : List Char) :
    (s.splitOn '\n').flatMap (· ++ ['\n']) = s ++ ['\n'] := by
  induction s with
  | nil => simp
  | cons c s ih =>
      rw [List.splitOn_cons_eq_if_modifyHead]
      by_cases hc : (c == '\n') = true
      · rw [if_pos hc, List.flatMap_cons, ih, beq_iff_eq.mp hc]
        rfl
      · obtain ⟨first, others, hpieces⟩ := List.exists_cons_of_ne_nil (List.splitOn_ne_nil '\n' s)
        rw [hpieces, List.flatMap_cons] at ih
        rw [if_neg hc, hpieces, List.modifyHead_cons, List.flatMap_cons, List.cons_append,
          List.cons_append, List.cons_append, ih]

/-- A text of whole lines is put together from its lines. -/
theorem flatMap_lines {s : List Char} (h : s.getLast? = some '\n') (hreturn : '\r' ∉ s) :
    (lines s).flatMap (· ++ ['\n']) = s := by
  obtain ⟨front, rfl⟩ := List.getLast?_eq_some_iff.mp h
  have hfront : ∀ piece ∈ front.splitOn '\n', dropReturn piece = piece := by
    intro piece hpiece
    refine if_neg fun hlast => hreturn ?_
    have hmem := List.mem_of_getLast? (beq_iff_eq.mp hlast)
    exact List.mem_append_left _ (mem_of_mem_splitOn hpiece hmem).1
  rw [lines_append_newline, List.map_congr_left hfront, List.map_id']
  simpa [lines] using flatMap_splitOn_newline front

/-- A line is the first one of the text that begins with it. -/
theorem lines_cons {line : List Char} (h : IsLine line) (t : List Char) :
    lines (line ++ '\n' :: t) = line :: lines t := by
  rw [lines_cons_dropReturn h.1, dropReturn, if_neg (by simpa using h.2)]

/-- A line of a text has no line feed. -/
theorem notMem_of_mem_linesOf {s line : String} (h : line ∈ linesOf s) : '\n' ∉ line.toList := by
  obtain ⟨piece, hpiece, rfl⟩ := List.mem_map.mp h
  rw [String.toList_ofList]
  intro hfeed
  have hcut : ∀ piece ∈ s.toList.splitOn '\n', '\n' ∉ piece := fun piece hpiece hmem =>
    (mem_of_mem_splitOn hpiece hmem).2 rfl
  have hlast : (s.toList.splitOn '\n').getLast?.getD [] ∈ s.toList.splitOn '\n' := by
    rw [List.getLast?_eq_some_getLast (List.splitOn_ne_nil _ _)]
    exact List.getLast_mem _
  rw [lines, List.mem_append, List.mem_map] at hpiece
  rcases hpiece with ⟨piece, hpiece, rfl⟩ | hpiece
  · refine hcut piece (List.dropLast_subset _ hpiece) ?_
    unfold dropReturn at hfeed
    split at hfeed
    · exact List.dropLast_subset _ hfeed
    · exact hfeed
  · split at hpiece
    · contradiction
    · rw [List.mem_singleton.mp hpiece] at hfeed
      exact hcut _ hlast hfeed

/-- Rows that are each ended by a line feed are found again by cutting there. -/
theorem splitOn_flatMap_newline {rows : List (List Char)} (h : ∀ row ∈ rows, '\n' ∉ row)
    (rest : List Char) :
    (rows.flatMap (· ++ ['\n']) ++ rest).splitOn '\n' = rows ++ rest.splitOn '\n' := by
  induction rows with
  | nil => rfl
  | cons row rows ih =>
      rw [List.forall_mem_cons] at h
      rw [List.flatMap_cons, List.append_assoc, List.append_assoc, List.singleton_append,
        List.splitOn_append_cons_self_of_not_mem h.1, ih h.2, List.cons_append]

/-- A text that is joined from lines has these lines, up to a carriage return before a line feed. -/
theorem linesOf_join_append {lines : List String} {rest : String}
    (h : ∀ line ∈ lines, '\n' ∉ line.toList) (hrest : '\n' ∉ rest.toList) :
    linesOf (String.join (lines.map (· ++ "\n")) ++ rest) =
      lines.map (fun line => String.ofList (dropReturn line.toList)) ++
        if rest = "" then [] else [rest] := by
  have hrows : (String.join (lines.map (· ++ "\n")) ++ rest).toList =
      (lines.map String.toList).flatMap (· ++ ['\n']) ++ rest.toList := by
    rw [String.toList_append, String.toList_join, List.flatMap_map, List.flatMap_map]
    simp
  have hcut : (String.join (lines.map (· ++ "\n")) ++ rest).toList.splitOn '\n' =
      lines.map String.toList ++ [rest.toList] := by
    rw [hrows, splitOn_flatMap_newline (by simpa using h), List.splitOn_eq_singleton hrest]
  rw [linesOf, Text.lines, hcut]
  by_cases hempty : rest = ""
  · simp [hempty, Function.comp_def]
  · simp [hempty, Function.comp_def]

end Microcode.Text

import Microcode.Flow.Basic
import Microcode.Proofs.Word.Jump
import Mathlib.Order.Bounds.Defs

/-!
# Microcode.Proofs.Flow.Walk

A walk through the code finds what can be reached, and nothing else.

`Step` says how control gets from one address to another, without queues and visited sets, and
`Closed` which sets of addresses a walk may end with.  `Found` is what a walk knows while it is
under way.  One visit keeps it (`Found.visit`), so does passing over an address (`Found.skip`), hence it
holds when the queue is empty (`Found.walkFrom`).  Then

* `visited_subset` — every closed set has all visited addresses;
* `closed_visited` — the visited addresses are a closed set;
* `mem_edges_walk_iff` — the edges of a walk are the steps that leave a visited address.
-/

namespace Microcode

/-- The three ways in which a plain word ends its sequence. -/
theorem MicroWord.endsSequence_eq_false_iff {w : MicroWord} :
    w.endsSequence = false ↔
      w.read .flags1 ≠ 0b111 ∧ w.read .flags2 ≠ 0b001 ∧ w.read .flags2 ≠ 0b011 := by
  simp [endsSequence, and_assoc]

namespace Program

/-! ## steps -/

/-- How control gets from one address of the code to another. -/
inductive Step (p : Program) : Edge → Prop where
  /-- A jump leads to its target. -/
  | jump {pc target : Nat} {w : MicroWord} {kind : JumpKind} (hpc : pc < decodeBase)
      (hw : p.get? pc = some w) (hkind : w.jumpKind? = some kind)
      (htarget : w.jumpTarget? = some target) : Step p ⟨pc, target, kind.edgeKind⟩
  /-- When it returns, it leads to the next address. -/
  | afterJump {pc : Nat} {w : MicroWord} {kind : JumpKind} (hw : p.get? pc = some w)
      (hkind : w.jumpKind? = some kind) (hnext : pc + 1 < decodeBase) :
      Step p ⟨pc, pc + 1, .fallthrough⟩
  /-- A plain word leads to the next address, unless it halts, ends or returns. -/
  | next {pc : Nat} {w : MicroWord} (hw : p.get? pc = some w) (hplain : w.jumpKind? = none)
      (hhalt : w.read .flags1 ≠ 0b111) (hend : w.read .flags2 ≠ 0b001)
      (hreturn : w.read .flags2 ≠ 0b011) (hnext : pc + 1 < decodeBase) :
      Step p ⟨pc, pc + 1, .fallthrough⟩

/-- A set that has the given addresses, as far as they are addresses of the code, and all that its
members lead to. -/
def Closed (p : Program) (seeds : List Nat) (s : Set Nat) : Prop :=
  (∀ a ∈ seeds, a < decodeBase → a ∈ s) ∧ ∀ e, p.Step e → e.source ∈ s → e.target ∈ s

variable {p : Program}

/-- A step leaves an address of the code. -/
theorem Step.source_lt {e : Edge} (h : p.Step e) : e.source < decodeBase := by
  cases h with
  | jump hpc _ _ _ => exact hpc
  | afterJump _ _ hnext => exact Nat.lt_of_succ_lt hnext
  | next _ _ _ _ _ hnext => exact Nat.lt_of_succ_lt hnext

/-- A step stays in the code. -/
theorem Step.target_lt {e : Edge} (h : p.Step e) : e.target < decodeBase := by
  cases h with
  | jump _ _ _ htarget => exact MicroWord.jumpTarget?_lt htarget
  | afterJump _ _ hnext => exact hnext
  | next _ _ _ _ _ hnext => exact hnext

theorem mem_fallthroughEdge_iff {pc : Nat} {e : Edge} :
    e ∈ fallthroughEdge pc ↔ pc + 1 < decodeBase ∧ e = ⟨pc, pc + 1, .fallthrough⟩ := by
  unfold fallthroughEdge
  by_cases hnext : pc + 1 < decodeBase <;> simp [hnext]

/-- The edges that leave an address of the code are the steps that do. -/
theorem mem_edgesFrom_iff {pc : Nat} (hpc : pc < decodeBase) {e : Edge} :
    e ∈ p.edgesFrom pc ↔ p.Step e ∧ e.source = pc := by
  constructor
  · intro he
    unfold edgesFrom at he
    split at he
    · contradiction
    · next w hw =>
        split at he
        · next kind target hkind htarget =>
            rcases List.mem_cons.mp he with rfl | he
            · exact ⟨.jump hpc hw hkind htarget, rfl⟩
            · obtain ⟨hnext, rfl⟩ := mem_fallthroughEdge_iff.mp he
              exact ⟨.afterJump hw hkind hnext, rfl⟩
        · next hplain =>
            have hkind : w.jumpKind? = none := Option.eq_none_iff_forall_ne_some.mpr
              fun kind hkind => hplain kind _ hkind (MicroWord.jumpTarget?_eq hkind)
            split at he
            · contradiction
            · next hends =>
                rw [Bool.not_eq_true, MicroWord.endsSequence_eq_false_iff] at hends
                obtain ⟨hnext, rfl⟩ := mem_fallthroughEdge_iff.mp he
                exact ⟨.next hw hkind hends.1 hends.2.1 hends.2.2 hnext, rfl⟩
  · rintro ⟨hstep, rfl⟩
    cases hstep with
    | jump _ hw hkind htarget => simp [edgesFrom, hw, hkind, htarget]
    | afterJump hw hkind hnext =>
        simp [edgesFrom, hw, hkind, MicroWord.jumpTarget?_eq hkind, mem_fallthroughEdge_iff, hnext]
    | next hw hplain hhalt hend hreturn hnext =>
        have hends := MicroWord.endsSequence_eq_false_iff.mpr ⟨hhalt, hend, hreturn⟩
        simp [edgesFrom, hw, hplain, hends, mem_fallthroughEdge_iff, hnext]

/-- No edge leaves an address twice. -/
theorem nodup_edgesFrom (p : Program) (pc : Nat) : (p.edgesFrom pc).Nodup := by
  have hfall : (fallthroughEdge pc).Nodup := by
    unfold fallthroughEdge
    split <;> simp
  unfold edgesFrom
  split
  · exact List.nodup_nil
  · split
    · next kind target _ _ =>
        refine List.nodup_cons.mpr ⟨fun hmem => ?_, hfall⟩
        have hkind := congrArg Edge.kind (mem_fallthroughEdge_iff.mp hmem).2
        cases kind <;> contradiction
    · split
      · exact List.nodup_nil
      · exact hfall

/-! ## a walk under way -/

theorem mem_codeAddresses_iff {a : Nat} : a ∈ codeAddresses ↔ a < decodeBase := List.mem_range

theorem nodup_codeAddresses : codeAddresses.Nodup := List.nodup_range

/-- What a walk knows while some addresses are still in its queue. -/
structure Found (p : Program) (seeds : List Nat) (s : WalkState) (queue : List Nat) : Prop where
  unvisited_nodup : s.unvisited.Nodup
  unvisited_lt : ∀ a ∈ s.unvisited, a < decodeBase
  edges_nodup : s.edges.toList.Nodup
  /-- The edges seen are the steps that leave a visited address. -/
  mem_edges : ∀ e, e ∈ s.edges.toList ↔ p.Step e ∧ e.source ∉ s.unvisited
  /-- The start is visited or in the queue, -/
  seeds_found : ∀ a ∈ seeds, a ∈ s.unvisited → a ∈ queue
  /-- and so is all that the edges seen lead to. -/
  targets_found : ∀ e ∈ s.edges.toList, e.target ∈ s.unvisited → e.target ∈ queue
  /-- What is visited, or will be, is in every closed set. -/
  visited_closed : ∀ t, p.Closed seeds t → ∀ a < decodeBase, a ∉ s.unvisited → a ∈ t
  queue_closed : ∀ t, p.Closed seeds t → ∀ a ∈ queue, a < decodeBase → a ∈ t

namespace Found

variable {seeds queue : List Nat} {s : WalkState} {pc : Nat}

/-- At the start no address of the code is visited, and nothing is known. -/
theorem start {unvisited : List Nat} (hnodup : unvisited.Nodup)
    (hmem : ∀ a, a ∈ unvisited ↔ a < decodeBase) : Found p seeds { unvisited } seeds where
  unvisited_nodup := hnodup
  unvisited_lt := fun a ha => (hmem a).mp ha
  edges_nodup := List.nodup_nil
  mem_edges := fun e => by
    simp only [List.not_mem_nil, false_iff, not_and, Decidable.not_not]
    exact fun he => (hmem e.source).mpr he.source_lt
  seeds_found := fun a ha _ => ha
  targets_found := fun e he => absurd he List.not_mem_nil
  visited_closed := fun t _ a ha hvisited => absurd ((hmem a).mpr ha) hvisited
  queue_closed := fun t ht => ht.1

/-- A visited address is passed over. -/
theorem skip (h : Found p seeds s (pc :: queue)) (hpc : pc ∉ s.unvisited) :
    Found p seeds s queue where
  unvisited_nodup := h.unvisited_nodup
  unvisited_lt := h.unvisited_lt
  edges_nodup := h.edges_nodup
  mem_edges := h.mem_edges
  seeds_found := fun a ha hun =>
    List.mem_of_ne_of_mem (ne_of_mem_of_not_mem hun hpc) (h.seeds_found a ha hun)
  targets_found := fun e he hun =>
    List.mem_of_ne_of_mem (ne_of_mem_of_not_mem hun hpc) (h.targets_found e he hun)
  visited_closed := h.visited_closed
  queue_closed := fun t ht a ha => h.queue_closed t ht a (List.mem_cons_of_mem _ ha)

/-- An address is visited, and what it leads to is put into the queue. -/
theorem visit (h : Found p seeds s (pc :: queue)) (hpc : pc ∈ s.unvisited) :
    Found p seeds ⟨s.unvisited.erase pc, s.edges ++ p.edgesFrom pc⟩
      (queue ++ (p.edgesFrom pc).map (·.target)) := by
  have hlt := h.unvisited_lt pc hpc
  have hmem : ∀ a, a ∈ s.unvisited.erase pc ↔ a ≠ pc ∧ a ∈ s.unvisited := fun a =>
    h.unvisited_nodup.mem_erase_iff
  have hedges : ∀ e, e ∈ (s.edges ++ p.edgesFrom pc).toList ↔
      e ∈ s.edges.toList ∨ e ∈ p.edgesFrom pc := by simp
  -- an address that is still to be visited and was in the queue is not the one visited now
  have hqueue : ∀ a, a ∈ s.unvisited.erase pc → (a ∈ s.unvisited → a ∈ pc :: queue) →
      a ∈ queue ++ (p.edgesFrom pc).map (·.target) := by
    intro a ha hfound
    obtain ⟨hne, hun⟩ := (hmem a).mp ha
    exact List.mem_append_left _ (List.mem_of_ne_of_mem hne (hfound hun))
  have hpcClosed : ∀ t, p.Closed seeds t → pc ∈ t := fun t ht =>
    h.queue_closed t ht pc List.mem_cons_self hlt
  constructor
  case unvisited_nodup => exact h.unvisited_nodup.erase pc
  case unvisited_lt => exact fun a ha => h.unvisited_lt a (List.mem_of_mem_erase ha)
  case edges_nodup =>
    rw [Array.toList_appendList, List.nodup_append]
    refine ⟨h.edges_nodup, nodup_edgesFrom p pc, ?_⟩
    rintro e he _ hfrom rfl
    have hsource := ((mem_edgesFrom_iff hlt).mp hfrom).2
    exact ((h.mem_edges e).mp he).2 (hsource ▸ hpc)
  case mem_edges =>
    intro e
    rw [hedges, h.mem_edges, mem_edgesFrom_iff hlt, hmem]
    by_cases hsource : e.source = pc
    · simp [hsource, hpc]
    · simp [hsource]
  case seeds_found => exact fun a ha hun => hqueue a hun (h.seeds_found a ha)
  case targets_found =>
    intro e he hun
    rcases (hedges e).mp he with he | he
    · exact hqueue e.target hun (h.targets_found e he)
    · exact List.mem_append_right _ (List.mem_map_of_mem he)
  case visited_closed =>
    intro t ht a ha hvisited
    by_cases heq : a = pc
    · exact heq ▸ hpcClosed t ht
    · exact h.visited_closed t ht a ha fun hun => hvisited ((hmem a).mpr ⟨heq, hun⟩)
  case queue_closed =>
    intro t ht a ha halt
    rcases List.mem_append.mp ha with ha | ha
    · exact h.queue_closed t ht a (List.mem_cons_of_mem _ ha) halt
    · obtain ⟨e, he, rfl⟩ := List.mem_map.mp ha
      obtain ⟨hstep, hsource⟩ := (mem_edgesFrom_iff hlt).mp he
      exact ht.2 e hstep (hsource ▸ hpcClosed t ht)

/-- A walk that has come to its end knows as much, with nothing left in the queue. -/
theorem walkFrom (h : Found p seeds s queue) : Found p seeds (p.walkFrom s queue) [] := by
  fun_induction p.walkFrom s queue with
  | case1 s => exact h
  | case2 s pc queue hpc found ih => exact ih (h.visit hpc)
  | case3 s pc queue hpc ih => exact ih (h.skip hpc)

end Found

/-! ## finished walks -/

variable {seeds : List Nat}

/-- What a finished walk knows. -/
theorem found_walk (p : Program) (seeds : List Nat) :
    Found p seeds (p.walkFrom { unvisited := codeAddresses } seeds) [] :=
  (Found.start nodup_codeAddresses fun _ => mem_codeAddresses_iff).walkFrom

theorem mem_visited_iff {a : Nat} :
    a ∈ (p.walk seeds).visited ↔
      a < decodeBase ∧ a ∉ (p.walkFrom { unvisited := codeAddresses } seeds).unvisited := by
  simp [walk, mem_codeAddresses_iff]

/-- No address is visited twice. -/
theorem nodup_visited (p : Program) (seeds : List Nat) : (p.walk seeds).visited.Nodup := by
  simp only [walk]
  exact nodup_codeAddresses.filter _

/-- The edges of a walk are the steps that leave a visited address. -/
theorem mem_edges_walk_iff {e : Edge} :
    e ∈ (p.walk seeds).edges ↔ p.Step e ∧ e.source ∈ (p.walk seeds).visited := by
  rw [mem_visited_iff]
  refine ((found_walk p seeds).mem_edges e).trans (and_congr_right fun he => ?_)
  simp [he.source_lt]

/-- The visited addresses are a closed set. -/
theorem closed_visited (p : Program) (seeds : List Nat) :
    p.Closed seeds {a | a ∈ (p.walk seeds).visited} := by
  have hfound := found_walk p seeds
  constructor
  · intro a ha hlt
    refine mem_visited_iff.mpr ⟨hlt, fun hun => ?_⟩
    exact absurd (hfound.seeds_found a ha hun) List.not_mem_nil
  · intro e he hsource
    have hedge := (hfound.mem_edges e).mpr ⟨he, (mem_visited_iff.mp hsource).2⟩
    exact mem_visited_iff.mpr
      ⟨he.target_lt, fun hun => absurd (hfound.targets_found e hedge hun) List.not_mem_nil⟩

/-- Every closed set has all visited addresses. -/
theorem visited_subset {t : Set Nat} (ht : p.Closed seeds t) {a : Nat}
    (ha : a ∈ (p.walk seeds).visited) : a ∈ t := by
  obtain ⟨hlt, hvisited⟩ := mem_visited_iff.mp ha
  exact (found_walk p seeds).visited_closed t ht a hlt hvisited

end Program

end Microcode

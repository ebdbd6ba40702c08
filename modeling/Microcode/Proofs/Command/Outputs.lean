import Microcode.Command.Assemble
import Microcode.Proofs.Command.FileMap
import Microcode.Proofs.Program.RoundTrip

/-!
# Microcode.Proofs.Command.Outputs

What a run of the assembler does to the files.

A run reads the source and writes at most two files, and each of these steps can fail.  `Runs` lists
the courses that a run can take, with what is reported and what the files are afterwards.  The files
are any that `FileMap` describes, so that every path may be missing, unreadable or unwritable, and
the three paths may lead to the same place.  There is a course for every run (`exists_runs`), and a
run that can take a course takes it (`runWith_of_runs`); all else here goes through the courses.

A failed run leaves no control store behind (`run_leaves_no_table`).  A complete run leaves the
control store and the listing that it was asked for (`run_delivers`), unless both go to the same
place: then the listing, which is written last, is all that is left (`run_listing_over_output`).
-/

namespace Microcode.Assembler

open Result FileTree

/-- An action goes on from where its first step ends. -/
theorem run_bind_of_eq {σ α β : Type} {x : StateM σ α} {f : α → StateM σ β} {a : α} {s s' : σ}
    (h : x.run s = (a, s')) : (x >>= f).run s = (f a).run s' := by
  rw [StateT.run_bind, h]
  rfl

variable {σ ι : Type} [FileAccess (StateM σ)] [DecidableEq ι]

/-! ## the courses of a run -/

section Courses

variable (o : AssembleOptions) (s : σ)

/-- The source is read, and assembling it gives the result. -/
def Assembles (result : Except AsmError Assembly) : Prop :=
  ∃ text, (readText o.source : StateM σ _).run s = (.ok text, s) ∧
    assemble { tieBreak := o.tieBreak } text = result

/-- Writing the control store has the given result and leads to another state. -/
def Stores (asm : Assembly) (result : Except FileFault Unit) (s' : σ) : Prop :=
  (writeText o.output (asm.program.write o.format) : StateM σ _).run s = (result, s')

/-- The courses that a run can take. -/
inductive Runs : Outcome → σ → Prop
  | sourceUnread {fault : FileFault}
      (hread : (readText o.source : StateM σ _).run s = (.error fault, s)) :
      Runs (fileFailure "reading" o.source fault) s
  | sourceRefused {e : AsmError} (hasm : Assembles o s (.error e)) :
      Runs { exit := sourceExit, errors := diagnostics o.source e } s
  | outputUnwritten {asm : Assembly} {fault : FileFault} (hasm : Assembles o s (.ok asm))
      (hstore : Stores o s asm (.error fault) s) : Runs (fileFailure "writing" o.output fault) s
  | unlisted {asm : Assembly} {s' : σ} (hasm : Assembles o s (.ok asm))
      (hstore : Stores o s asm (.ok ()) s') (hlisting : o.listing = none) : Runs {} s'
  | listed {asm : Assembly} {path : String} {s₁ s' : σ} (hasm : Assembles o s (.ok asm))
      (hstore : Stores o s asm (.ok ()) s₁) (hlisting : o.listing = some path)
      (hlist : (writeText path asm.listing : StateM σ _).run s₁ = (.ok (), s')) : Runs {} s'
  | listingUnwritten {asm : Assembly} {path : String} {fault : FileFault} {s₁ : σ}
      (hasm : Assembles o s (.ok asm)) (hstore : Stores o s asm (.ok ()) s₁)
      (hlisting : o.listing = some path)
      (hlist : (writeText path asm.listing : StateM σ _).run s₁ = (.error fault, s₁)) :
      Runs (fileFailure "writing" path fault)
        ((FileAccess.removeFile o.output : StateM σ _).run s₁).2

end Courses

variable {o : AssembleOptions} {s s' : σ} {outcome : Outcome} {asm : Assembly}

theorem runWith_of_assembles (h : Assembles o s (.ok asm)) :
    (runWith o : StateM σ _).run s = (writeOutputs o asm : StateM σ _).run s := by
  obtain ⟨text, hread, hasm⟩ := h
  rw [runWith, run_bind_of_eq hread]
  simp only [hasm]

/-- A run that can take a course takes it. -/
theorem runWith_of_runs (h : Runs o s outcome s') :
    (runWith o : StateM σ _).run s = (outcome, s') := by
  cases h with
  | sourceUnread hread =>
      rw [runWith, run_bind_of_eq hread]
      rfl
  | sourceRefused hasm =>
      obtain ⟨text, hread, hasm⟩ := hasm
      rw [runWith, run_bind_of_eq hread]
      simp only [hasm]
      rfl
  | outputUnwritten hasm hstore =>
      rw [runWith_of_assembles hasm, writeOutputs, run_bind_of_eq hstore]
      rfl
  | unlisted hasm hstore hlisting =>
      rw [runWith_of_assembles hasm, writeOutputs, run_bind_of_eq hstore, hlisting]
      rfl
  | listed hasm hstore hlisting hlist =>
      rw [runWith_of_assembles hasm, writeOutputs, run_bind_of_eq hstore, hlisting]
      dsimp only
      rw [run_bind_of_eq hlist]
      rfl
  | listingUnwritten hasm hstore hlisting hlist =>
      rw [runWith_of_assembles hasm, writeOutputs, run_bind_of_eq hstore, hlisting]
      dsimp only
      rw [run_bind_of_eq hlist]
      rfl

/-- There is a course for every run. -/
theorem exists_runs (fs : FileMap σ ι) (o : AssembleOptions) (s : σ) :
    ∃ outcome s', Runs o s outcome s' := by
  rcases hread : (readText o.source : StateM σ _).run s with ⟨fault | text, s₀⟩
  all_goals rw [fs.readText_state hread] at hread
  · exact ⟨_, _, .sourceUnread hread⟩
  rcases hasm : assemble { tieBreak := o.tieBreak } text with e | asm
  · exact ⟨_, _, .sourceRefused ⟨text, hread, hasm⟩⟩
  rcases hstore : (writeText o.output (asm.program.write o.format) : StateM σ _).run s with
    ⟨fault | _, s₁⟩
  · rw [fs.writeBytes_state hstore] at hstore
    exact ⟨_, _, .outputUnwritten ⟨text, hread, hasm⟩ hstore⟩
  rcases hlisting : o.listing with _ | path
  · exact ⟨_, _, .unlisted ⟨text, hread, hasm⟩ hstore hlisting⟩
  rcases hlist : (writeText path asm.listing : StateM σ _).run s₁ with ⟨fault | _, s₂⟩
  · rw [fs.writeBytes_state hlist] at hlist
    exact ⟨_, _, .listingUnwritten ⟨text, hread, hasm⟩ hstore hlisting hlist⟩
  · exact ⟨_, _, .listed ⟨text, hread, hasm⟩ hstore hlisting hlist⟩

/-- What the assembler does with the given arguments is one of the courses. -/
theorem run_eq_iff (fs : FileMap σ ι) {args : List String}
    (hargs : AssembleOptions.parse args = .ok o) :
    (run args : StateM σ _).run s = (outcome, s') ↔ Runs o s outcome s' := by
  rw [run, hargs]
  refine ⟨fun h => ?_, runWith_of_runs⟩
  obtain ⟨outcome', s'', hruns⟩ := exists_runs fs o s
  obtain ⟨rfl, rfl⟩ := Prod.mk.inj (h.symm.trans (runWith_of_runs hruns))
  exact hruns

/-! ## failed runs -/

section Failures

variable (o : AssembleOptions) (s : σ)

/-- The source cannot be read. -/
def SourceUnread : Prop :=
  ∃ fault, (readText o.source : StateM σ _).run s = (.error fault, s)

/-- The control store cannot be written. -/
def OutputUnwritten : Prop :=
  ∃ asm fault, Assembles o s (.ok asm) ∧ Stores o s asm (.error fault) s

/-- The control store is written, but then the listing cannot be. -/
def ListingUnwritten : Prop :=
  ∃ asm s₁ path fault, Assembles o s (.ok asm) ∧ Stores o s asm (.ok ()) s₁ ∧
    o.listing = some path ∧ (writeText path asm.listing : StateM σ _).run s₁ = (.error fault, s₁)

end Failures

/-- When the listing cannot be written, the control store is removed, and nothing else changes. -/
theorem node?_of_listingUnwritten (fs : FileMap σ ι) {s₁ : σ} (h : Stores o s asm (.ok ()) s₁) :
    fs.node? ((FileAccess.removeFile o.output : StateM σ _).run s₁).2 =
      Function.update (fs.node? s) (fs.place o.output) none := by
  rw [fs.node?_removeFile h, fs.node?_of_writeBytes h, Function.update_idem]

/-- A failed run leaves no control store behind.  A wrong source changes nothing.  The status of
file errors means that the source, the output or the listing fails.  Then no place but that of the
output changes, and nothing at all if the source or the output fails; if the listing fails, the
output is gone. -/
theorem run_leaves_no_table (fs : FileMap σ ι) {args : List String}
    (hargs : AssembleOptions.parse args = .ok o)
    (hrun : (run args : StateM σ Outcome).run s = (outcome, s')) :
    (outcome.exit = sourceExit → s' = s) ∧
      (outcome.exit = fileExit ↔
        SourceUnread o s ∨ OutputUnwritten o s ∨ ListingUnwritten o s) ∧
      (outcome.exit = fileExit →
        (∀ p, p ≠ fs.place o.output → fs.node? s' p = fs.node? s p) ∧
          (SourceUnread o s ∨ OutputUnwritten o s → s' = s) ∧
          (ListingUnwritten o s → fs.node? s' (fs.place o.output) = none)) := by
  have hruns := (run_eq_iff fs hargs).mp hrun
  -- A run takes one course only, so a failure tells which one it was.
  have hcourse : ∀ {outcome₁ s₁}, Runs o s outcome₁ s₁ → outcome = outcome₁ ∧ s' = s₁ := fun h =>
    Prod.mk.inj (hrun.symm.trans ((run_eq_iff fs hargs).mpr h))
  refine ⟨fun hexit => ?_, ⟨fun hexit => ?_, ?_⟩, fun hexit => ⟨fun p hp => ?_, ?_, ?_⟩⟩
  · cases hruns with
    | sourceRefused => rfl
    | _ => cases hexit
  · cases hruns with
    | sourceUnread hread => exact .inl ⟨_, hread⟩
    | outputUnwritten hasm hstore => exact .inr (.inl ⟨_, _, hasm, hstore⟩)
    | listingUnwritten hasm hstore hlisting hlist =>
        exact .inr (.inr ⟨_, _, _, _, hasm, hstore, hlisting, hlist⟩)
    | _ => cases hexit
  · rintro (⟨fault, hread⟩ | ⟨asm, fault, hasm, hstore⟩ |
      ⟨asm, s₁, path, fault, hasm, hstore, hlisting, hlist⟩)
    · rw [(hcourse (.sourceUnread hread)).1]
      rfl
    · rw [(hcourse (.outputUnwritten hasm hstore)).1]
      rfl
    · rw [(hcourse (.listingUnwritten hasm hstore hlisting hlist)).1]
      rfl
  · cases hruns with
    | sourceUnread | outputUnwritten => rfl
    | listingUnwritten _ hstore =>
        rw [node?_of_listingUnwritten fs hstore, Function.update_of_ne hp]
    | _ => cases hexit
  · rintro (⟨fault, hread⟩ | ⟨asm, fault, hasm, hstore⟩)
    · exact (hcourse (.sourceUnread hread)).2
    · exact (hcourse (.outputUnwritten hasm hstore)).2
  · rintro ⟨asm, s₁, path, fault, hasm, hstore, hlisting, hlist⟩
    rw [(hcourse (.listingUnwritten hasm hstore hlisting hlist)).2,
      node?_of_listingUnwritten fs hstore, Function.update_self]

/-- A source of one word assembles. -/
theorem exists_assembles_nop {t : FileTree} (hsource : o.source = "in.uc")
    (htie : o.tieBreak = .first)
    (hnode : fileMap.node? t (fileMap.place "in.uc") = some (.file "NOP".toUTF8)) :
    ∃ asm, assemble {} "NOP" = .ok asm ∧ Assembles o t (.ok asm) := by
  have hassembles : ((assemble {} "NOP").map fun _ => ()) = .ok () := by decide +kernel
  obtain ⟨asm, hasm, -⟩ := map_eq_ok_iff.mp hassembles
  refine ⟨asm, hasm, "NOP", ?_, htie ▸ hasm⟩
  rw [hsource]
  exact run_readText_of_holds (by decide +kernel) hnode

/-- The listing names a directory, and there was an output before. -/
theorem run_leaves_no_table_directory :
    let t := ((({} : FileTree).set { names := ["in.uc"] } (some (.file "NOP".toUTF8))).set
      { names := ["d"] } (some .directory)).set { names := ["o"] } (some (.file "old".toUTF8))
    let o : AssembleOptions := { listing := some "d", source := "in.uc", output := "o" }
    AssembleOptions.parse ["-l", "d", "in.uc", "o"] = .ok o ∧
      ∃ outcome t', (run ["-l", "d", "in.uc", "o"] : OnTree Outcome).run t = (outcome, t') ∧
        outcome.exit = fileExit ∧ ListingUnwritten o t ∧
          fileMap.node? t' (fileMap.place "o") = none := by
  intro t o
  have hargs : AssembleOptions.parse ["-l", "d", "in.uc", "o"] = .ok o := by decide +kernel
  obtain ⟨asm, -, hread⟩ := exists_assembles_nop (o := o) (t := t) rfl rfl rfl
  have houtput : IsName "o" := by decide +kernel
  have hlisting : IsName "d" := by decide +kernel
  have hstore : Stores o t asm (.ok ()) _ :=
    run_writeText_of_ne houtput _ (by rw [houtput.place_eq]; exact nofun)
  have hlist := run_writeText_of_directory (t := t.set (Place.child {} "o")
    (some (.file (asm.program.write .vhdl).toUTF8))) hlisting asm.listing rfl
  have hfails : ListingUnwritten o t := ⟨asm, _, "d", .isDirectory, hread, hstore, rfl, hlist⟩
  have hrun := (run_eq_iff fileMap hargs).mpr (.listingUnwritten hread hstore rfl hlist)
  obtain ⟨-, -, hgone⟩ := (run_leaves_no_table fileMap hargs hrun).2.2 rfl
  exact ⟨hargs, _, _, hrun, rfl, hfails, hgone hfails⟩

/-! ## complete runs -/

/-- A complete run delivers what it was asked for.  The listing is that of the assembled source, and
the output holds its control store, in the chosen form, unless the listing was written over it.
Nothing else changes. -/
theorem run_delivers (fs : FileMap σ ι) {args : List String}
    (hargs : AssembleOptions.parse args = .ok o)
    (hrun : (run args : StateM σ Outcome).run s = (outcome, s')) (hexit : outcome.exit = 0) :
    ∃ text asm, fs.Holds s o.source text ∧ assemble { tieBreak := o.tieBreak } text = .ok asm ∧
      (∀ path ∈ o.listing, fs.Holds s' path asm.listing) ∧
      ((∀ path ∈ o.listing, fs.place path ≠ fs.place o.output) →
        fs.Holds s' o.output (asm.program.write o.format) ∧
          Program.read (asm.program.write o.format) = .ok asm.program) ∧
      ∀ p, p ≠ fs.place o.output → (∀ path ∈ o.listing, p ≠ fs.place path) →
        fs.node? s' p = fs.node? s p := by
  cases (run_eq_iff fs hargs).mp hrun with
  | unlisted hasm hstore hlisting =>
      obtain ⟨text, hsource, hasm⟩ := hasm
      simp only [hlisting, Option.mem_def, reduceCtorEq, false_implies, implies_true, true_and]
      refine ⟨text, _, fs.holds_of_readText hsource, hasm,
        fun _ => ⟨fs.holds_of_writeText hstore, Program.read_of_write _ _⟩, fun p hp _ => ?_⟩
      rw [fs.node?_of_writeBytes hstore, Function.update_of_ne hp]
  | @listed asm path s₁ s' hasm hstore hlisting hlist =>
      obtain ⟨text, hsource, hasm⟩ := hasm
      have hnode := fs.node?_of_writeBytes hlist
      rw [fs.node?_of_writeBytes hstore] at hnode
      simp only [hlisting, Option.mem_def, Option.some.injEq, forall_eq']
      refine ⟨text, asm, fs.holds_of_readText hsource, hasm, fs.holds_of_writeText hlist,
        fun hne => ⟨?_, Program.read_of_write _ _⟩, fun p hp hpath => ?_⟩
      · rw [FileMap.Holds, hnode, Function.update_of_ne hne.symm, Function.update_self]
      · rw [hnode, Function.update_of_ne hpath, Function.update_of_ne hp]
  | _ => cases hexit

/-- The output is written over the source. -/
theorem run_delivers_in_place :
    let t := ({} : FileTree).set { names := ["in.uc"] } (some (.file "NOP".toUTF8))
    ∃ outcome t', (run ["-l", "l", "in.uc", "in.uc"] : OnTree Outcome).run t = (outcome, t') ∧
      outcome.exit = 0 ∧ ∃ text asm, fileMap.Holds t "in.uc" text ∧ assemble {} text = .ok asm ∧
        fileMap.Holds t' "l" asm.listing ∧ fileMap.Holds t' "in.uc" (asm.program.write .vhdl) ∧
          Program.read (asm.program.write .vhdl) = .ok asm.program := by
  intro t
  let o : AssembleOptions := { listing := some "l", source := "in.uc", output := "in.uc" }
  have hargs : AssembleOptions.parse ["-l", "l", "in.uc", "in.uc"] = .ok o := by decide +kernel
  obtain ⟨asm, -, hread⟩ := exists_assembles_nop (o := o) (t := t) rfl rfl rfl
  have houtput : IsName "in.uc" := by decide +kernel
  have hlisting : IsName "l" := by decide +kernel
  have hstore := run_writeText_of_ne (t := t) houtput (asm.program.write .vhdl)
    (by rw [houtput.place_eq]; exact nofun)
  have hlist := run_writeText_of_ne (t := t.set (Place.child {} "in.uc")
    (some (.file (asm.program.write .vhdl).toUTF8))) hlisting asm.listing
    (by rw [hlisting.place_eq]; exact nofun)
  have hrun := (run_eq_iff fileMap hargs).mpr (.listed hread hstore rfl hlist)
  obtain ⟨text, asm', hsource, hasm, hlisted, hstored, -⟩ := run_delivers fileMap hargs hrun rfl
  have hapart : fileMap.place "l" ≠ fileMap.place "in.uc" := by decide +kernel
  obtain ⟨hheld, hback⟩ := hstored fun _ hpath => Option.some.inj hpath ▸ hapart
  exact ⟨_, _, hrun, rfl, text, asm', hsource, hasm, hlisted "l" rfl, hheld, hback⟩

/-- A listing is not a JSON list. -/
theorem toJson_ne_listing (asm : Assembly) : asm.program.write .json ≠ asm.listing := by
  intro h
  have hjson : (asm.program.write .json).toList.getLast? = some ']' := by
    rw [Program.write, Program.toList_toJson, ← List.cons_append, List.getLast?_concat]
  have hlisting : asm.listing.toList.getLast? = some '\n' := by
    rw [Assembly.listing, String.toList_append, List.getLast?_append, Assembly.banner,
      String.toList_append, List.getLast?_append, Assembly.row, String.toList_append,
      List.getLast?_append]
    rfl
  rw [h, hlisting] at hjson
  cases hjson

/-- Where the listing goes to the same file as the control store, the control store is lost, and
the run still counts as complete. -/
theorem run_listing_over_output :
    let t := ({} : FileTree).set { names := ["in.uc"] } (some (.file "NOP".toUTF8))
    ∃ outcome t' asm,
      (run ["-l", "o", "-f", "json", "in.uc", "o"] : OnTree Outcome).run t = (outcome, t') ∧
        outcome.exit = 0 ∧ assemble {} "NOP" = .ok asm ∧ fileMap.Holds t' "o" asm.listing ∧
          ¬ fileMap.Holds t' "o" (asm.program.write .json) := by
  intro t
  let o : AssembleOptions :=
    { listing := some "o", format := .json, source := "in.uc", output := "o" }
  have hargs : AssembleOptions.parse ["-l", "o", "-f", "json", "in.uc", "o"] = .ok o := by
    decide +kernel
  obtain ⟨asm, hasm, hread⟩ := exists_assembles_nop (o := o) (t := t) rfl rfl rfl
  have houtput : IsName "o" := by decide +kernel
  have hstore := run_writeText_of_ne (t := t) houtput (asm.program.write .json)
    (by rw [houtput.place_eq]; exact nofun)
  have hlist := run_writeText_of_ne (t := t.set (Place.child {} "o")
    (some (.file (asm.program.write .json).toUTF8))) houtput asm.listing
    (by rw [houtput.place_eq]; exact nofun)
  have hrun := (run_eq_iff fileMap hargs).mpr (.listed hread hstore rfl hlist)
  have hheld := fileMap.holds_of_writeText hlist
  exact ⟨_, _, asm, hrun, rfl, hasm, hheld, fun h => toJson_ne_listing asm (h.unique hheld)⟩

end Microcode.Assembler

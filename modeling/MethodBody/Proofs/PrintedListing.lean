import MethodBody.Proofs.Declarations
import MethodBody.Proofs.PrintedCode
import MethodBody.Proofs.Rebinding
import MethodBody.Proofs.Reloading

namespace MethodBody

def listingLines (locals : Locals) (code : List Instruction) : List (List Char) :=
  locals.declarations.toList.map Declaration.print ++ code.map Instruction.print

theorem LocalTable.map_toDeclaration_toList (table : LocalTable) :
    table.toList.map (·.toDeclaration) = table.declarations.toList := by
  have hentries : table.entries.toList.zipIdx.map Prod.fst = table.entries.toList :=
    List.zipIdx_map_fst 0 table.entries.toList
  rw [declarations, Array.toList_map, ← hentries, toList, List.map_map, List.map_map]
  rfl

theorem printListing_eq (locals : Locals) (code : List Instruction) :
    printListing locals code = (listingLines locals code).flatMap fun line => line ++ ['\n'] := by
  rw [listingLines, ← locals.map_toDeclaration_toList, List.flatMap_append, List.map_map,
    List.flatMap_map, List.flatMap_map]
  rfl

theorem plainLines_printListing {locals : Locals} {code : List Instruction}
    (hl : locals.WellFormed) (hc : ∀ x ∈ code, x.WellFormed locals) :
    plainLines (printListing locals code) = listingLines locals code := by
  rw [printListing_eq]
  apply plainLines_flatMap
  intro line hm
  rcases List.mem_append.mp hm with hm | hm
  · obtain ⟨d, hd, rfl⟩ := List.mem_map.mp hm
    exact (hl d (Array.mem_toList_iff.mp hd)).isEffective_print
  · exact isEffective_of_mem_map_print hc line hm

theorem head?_mnemonic (op : Opcode) (rest : List Char) :
    (op.mnemonic.toList ++ rest).head? ≠ some '.' := by
  rw [List.head?_append_of_ne_nil _ (mnemonic_ne_nil op)]
  cases op <;> decide

/-- Code declares nothing, and no mnemonic is taken for a directive. -/
theorem Instruction.readLocal_print (locals : Locals) (x : Instruction) :
    readLocal locals x.print = .ok locals := by
  have hdot : x.print.head? ≠ some '.' := by
    obtain ⟨rest, hx⟩ := x.exists_print_eq
    rw [hx]
    exact head?_mnemonic x.opcode rest
  simp only [readLocal, x.directive?_print, if_neg hdot]

theorem foldlM_readLocal_code (locals : Locals) (code : List Instruction) :
    (code.map Instruction.print).foldlM readLocal locals = .ok locals := by
  induction code with
  | nil => rfl
  | cons x code ih =>
    rw [List.map_cons, List.foldlM_cons, x.readLocal_print]
    exact ih

theorem readLocals_printListing {locals : Locals} {code : List Instruction}
    (hl : locals.WellFormed) (hc : ∀ x ∈ code, x.WellFormed locals) :
    readLocals locals.method (String.ofList (printListing locals code)) = .ok locals := by
  have hdeclared : (locals.declarations.toList.map Declaration.print).foldlM readLocal
      (.empty locals.method) = .ok locals :=
    foldlM_readLocal_print (fun d hd => hl d (Array.mem_toList_iff.mp hd)) rfl (by simp)
  rw [readLocals_eq_ok_iff, String.toList_ofList, plainLines_printListing hl hc, listingLines,
    List.foldlM_append, hdeclared]
  exact foldlM_readLocal_code locals code

theorem readCode_printListing {locals : Locals} {code : List Instruction}
    (hl : locals.WellFormed) (hc : ∀ x ∈ code, x.WellFormed locals) :
    readCode locals (String.ofList (printListing locals code)) = .ok code := by
  have hnone : ((locals.declarations.toList.map Declaration.print).filter
      fun line => (directive? line).isNone) = [] := by
    rw [List.filter_eq_nil_iff]
    intro line hm
    obtain ⟨d, _, rfl⟩ := List.mem_map.mp hm
    simp [d.directive?_print]
  rw [readCode_eq_ok_iff, String.toList_ofList, plainLines_printListing hl hc, listingLines,
    List.filter_append, hnone]
  exact forall₂_readInstruction_print hc

theorem printListing_inMethod (locals : Locals) (code : List Instruction) (method : Nat) :
    printListing (locals.inMethod method) (code.map (Instruction.inMethod method)) =
      printListing locals code := by
  have hcode : (code.map (Instruction.inMethod method)).map Instruction.print =
      code.map Instruction.print := by
    rw [List.map_map]
    exact List.map_congr_left fun x _ => x.print_inMethod method
  rw [printListing_eq, printListing_eq, listingLines, hcode]
  rfl

/-- A listing that was read and reloaded is read again from its print, up to the names of methods.
-/
theorem printListing_of_reloads {method : Nat} {text : String} {locals : Locals}
    {code code' : List Instruction} (hl : readLocals method text = .ok locals)
    (hc : readCode locals text = .ok code) (hr : Reloads code code') (method' : Nat) :
    ∃ (locals' : Locals) (rebound : List Instruction),
      readLocals method' (String.ofList (printListing locals code')) = .ok locals' ∧
      List.Forall₂ (fun a b => a.index = b.index ∧ a.type = b.type ∧ a.pinned = b.pinned)
        locals'.toList locals.toList ∧
      code'.mapM (Instruction.rebind? locals') = some rebound ∧
      readCode locals' (String.ofList (printListing locals code')) = .ok rebound ∧
      printListing locals' rebound = printListing locals code' := by
  have hwf : locals.WellFormed := wellFormed_of_readLocals hl
  have hlwf : (locals.inMethod method').WellFormed := hwf
  have hcwf := hr.wellFormed (wellFormed_of_readCode hc)
  have hrwf : ∀ y ∈ code'.map (Instruction.inMethod method'),
      y.WellFormed (locals.inMethod method') := by
    intro y hy
    obtain ⟨x, hx, rfl⟩ := List.mem_map.mp hy
    exact (hcwf x hx).inMethod method'
  have hprint := printListing_inMethod locals code' method'
  have hlread := readLocals_printListing hlwf hrwf
  have hcread := readCode_printListing hlwf hrwf
  rw [hprint] at hlread hcread
  have hsame : List.Forall₂ (fun a b => a.index = b.index ∧ a.type = b.type ∧ a.pinned = b.pinned)
      (locals.inMethod method').toList locals.toList := by
    rw [Locals.toList_inMethod, List.forall₂_map_left_iff]
    exact List.forall₂_same.mpr fun l _ => ⟨rfl, rfl, rfl⟩
  exact ⟨locals.inMethod method', code'.map (Instruction.inMethod method'), hlread, hsame,
    mapM_rebind?_inMethod hcwf method', hcread, hprint⟩

/-- The type opens a literal that holds a comment marker, and its line is not spaced as printed. -/
theorem printListing_of_reloads_literal :
    ∃ (locals locals' : Locals) (code code' rebound : List Instruction),
      readLocals 0 ".local   \"a//b\"  pinned // kept\nIL_0000: stloc.s V_0" = .ok locals ∧
      readCode locals ".local   \"a//b\"  pinned // kept\nIL_0000: stloc.s V_0" = .ok code ∧
      reloadAfter 0 code = .ok code' ∧
      printListing locals code' =
        ".local \"a//b\" pinned\nstloc.s V_0\nldloc.s V_0\n".toList ∧
      readLocals 1 (String.ofList (printListing locals code')) = .ok locals' ∧
      code'.mapM (Instruction.rebind? locals') = some rebound ∧
      readCode locals' (String.ofList (printListing locals code')) = .ok rebound ∧
      printListing locals' rebound = printListing locals code' := by
  let l : Local := ⟨⟨⟨"\"a//b\"", true⟩, 0⟩, 0, 0⟩
  let locals : Locals := ((Locals.empty 0).declare l.toDeclaration).2
  let store : Instruction := ⟨.stlocS, some (.declared l)⟩
  let load : Instruction := ⟨.ldlocS, some (.declared l)⟩
  have hlocals : readLocals 0 ".local   \"a//b\"  pinned // kept\nIL_0000: stloc.s V_0" =
      .ok locals := rfl
  have hcode : readCode locals ".local   \"a//b\"  pinned // kept\nIL_0000: stloc.s V_0" =
      .ok [store] := rfl
  have hstep : reloadAfter 0 [store] = .ok [store, load] := rfl
  obtain ⟨locals', rebound, hl, _, hm, hc, hp⟩ :=
    printListing_of_reloads hlocals hcode (.single ⟨0, hstep⟩) 1
  exact ⟨locals, locals', [store], [store, load], rebound, hlocals, hcode, hstep, by decide, hl, hm,
    hc, hp⟩

end MethodBody

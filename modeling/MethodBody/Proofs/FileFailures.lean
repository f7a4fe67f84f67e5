import MethodBody.CommandLine.FileTree
import MethodBody.CommandLine.Outcome
import MethodBody.Proofs.Merging
import MethodBody.Proofs.Success

namespace MethodBody

theorem exists_scan_of_sitesOf {wanted : Option Direction} {code : List Instruction} {f : Failure}
    (h : sitesOf wanted code = .error f) : ∃ d e, f = .scan d e := by
  cases wanted with
  | some d =>
    rw [sitesOf_some] at h
    obtain ⟨e, _, he⟩ := mapError_eq_error_iff.mp h
    exact ⟨d, e, he.symm⟩
  | none =>
    rcases bind_eq_error_iff.mp h with hstores | ⟨stores, _, h⟩
    · obtain ⟨e, _, he⟩ := mapError_eq_error_iff.mp hstores
      exact ⟨.store, e, he.symm⟩
    · rcases bind_eq_error_iff.mp h with hloads | ⟨loads, _, h⟩
      · obtain ⟨e, _, he⟩ := mapError_eq_error_iff.mp hloads
        exact ⟨.load, e, he.symm⟩
      · cases h

theorem exists_encoding_of_printJson {sites : List Site} {f : Failure}
    (h : printJson sites = .error f) : ∃ position e, f = .encoding position e := by
  have hentries : sites.mapM Site.entry = .error f := map_eq_error_iff.mp h
  obtain ⟨s, _, hs⟩ := exists_mem_of_mapM_eq_error hentries
  rcases bind_eq_error_iff.mp hs with hbytes | ⟨bytes, _, hs⟩
  · obtain ⟨e, _, he⟩ := mapError_eq_error_iff.mp hbytes
    exact ⟨s.position, e, he.symm⟩
  · cases hs

theorem sitesOf_ne_file {wanted : Option Direction} {code : List Instruction} {path : String}
    {fault : FileFault} : sitesOf wanted code ≠ .error (.file path fault) := by
  intro h
  obtain ⟨d, e, hfile⟩ := exists_scan_of_sitesOf h
  cases hfile

theorem printJson_ne_file {sites : List Site} {path : String} {fault : FileFault} :
    printJson sites ≠ .error (.file path fault) := by
  intro h
  obtain ⟨position, e, hfile⟩ := exists_encoding_of_printJson h
  cases hfile

/-- Once there is a text, no failure of a command is blamed on its file. -/
theorem Command.run_eq_error_file_iff {c : Command} {content : Except FileFault ByteArray}
    {path : String} {fault : FileFault} :
    c.run content = .error (.file path fault) ↔
      path = c.input ∧ content.bind decodeText = .error fault := by
  unfold run
  constructor
  · intro h
    rcases bind_eq_error_iff.mp h with htext | ⟨text, _, h⟩
    · obtain ⟨e, he, hfile⟩ := mapError_eq_error_iff.mp htext
      cases hfile
      exact ⟨rfl, he⟩
    · obtain ⟨locals, _, h⟩ := of_bind_eq_error h (mapError_ne_error (by simp))
      obtain ⟨code, _, h⟩ := of_bind_eq_error h (mapError_ne_error (by simp))
      cases c with
      | complement input wanted json =>
        obtain ⟨sites, _, h⟩ := of_bind_eq_error h sitesOf_ne_file
        cases json with
        | false => cases h
        | true =>
          obtain ⟨output, _, h⟩ := of_bind_eq_error h printJson_ne_file
          cases h
      | reload input position =>
        obtain ⟨code', _, h⟩ := of_bind_eq_error h (mapError_ne_error (by simp))
        cases h
  · rintro ⟨rfl, h⟩
    rw [h]
    rfl

theorem respond_eq_failed_iff {read : String → Except FileFault ByteArray} {args : List String}
    {f : Failure} :
    Id.run (respond read args) = .failed f ↔
      ∃ c, Command.ofArguments? args = some c ∧ c.run (read c.input) = .error f := by
  unfold respond
  cases Command.ofArguments? args with
  | none => simp
  | some c =>
    simp only [Option.some.injEq, exists_eq_left']
    cases hrun : c.run (read c.input) with
    | error e => simp [Id.run, bind, pure, hrun]
    | ok output => simp [Id.run, bind, hrun]

/-- A run blames a file just if its path leads to none, or to one that holds no text. -/
theorem respond_eq_failed_file_iff {p : Place} {args : List String} {path : String}
    {fault : FileFault} :
    Id.run (respond p.read args) = .failed (.file path fault) ↔
      ∃ c, Command.ofArguments? args = some c ∧ path = c.input ∧
        (p.read c.input).bind decodeText = .error fault := by
  simp only [respond_eq_failed_iff, Command.run_eq_error_file_iff]

end MethodBody

import MethodBody.Proofs.Declarations

namespace MethodBody

def IsGap (cs : List Char) : Prop :=
  cs ≠ [] ∧ ∀ c ∈ cs, isBlank c = true

/-- A directive with a type and perhaps `pinned`. The rest behind that is empty in a well-written
line. -/
inductive DirectiveLine : Declaration → List Char → List Char → Prop
  | plain {gap word : List Char} (hgap : IsGap gap) (hword : IsWord word) :
    DirectiveLine ⟨String.ofList word, false⟩ [] (".local".toList ++ (gap ++ word))
  | pinned {gap word gap' rest : List Char} (hgap : IsGap gap) (hword : IsWord word)
    (hgap' : IsGap gap') (hrest : ∀ c ∈ rest.head?, isBlank c = true) :
    DirectiveLine ⟨String.ofList word, true⟩ rest
      (".local".toList ++ (gap ++ (word ++ (gap' ++ ("pinned".toList ++ rest)))))

theorem IsGap.blank_of_mem_head? {gap : List Char} (h : IsGap gap) (cs : List Char) :
    ∀ c ∈ (gap ++ cs).head?, isBlank c = true := by
  intro c hc
  rw [List.head?_append_of_ne_nil _ h.1] at hc
  exact h.2 c (List.mem_of_mem_head? hc)

/-- Blanks before a word are a gap if they begin a text that begins with a blank. -/
theorem isGap_of_append {before word rest : List Char} (hb : ∀ c ∈ before, isBlank c = true)
    (hw : IsWord word) (h : ∀ c ∈ (before ++ (word ++ rest)).head?, isBlank c = true) :
    IsGap before := by
  refine ⟨?_, hb⟩
  rintro rfl
  obtain ⟨c, cs, rfl⟩ := List.exists_cons_of_ne_nil hw.1
  have hblank := h c rfl
  rw [hw.2 c List.mem_cons_self] at hblank
  cases hblank

theorem nextWord?_eq_none_iff {cs : List Char} :
    nextWord? cs = none ↔ ∀ c ∈ cs, isBlank c = true := by
  have hs : trimStart cs = [] ↔ ∀ c ∈ cs, isBlank c = true := List.dropWhile_eq_nil_iff
  rw [← hs, nextWord?]
  split
  next he => simp [he]
  next he => simp [he]

theorem Trimmed.eq_nil_of_blank {cs behind : List Char} (h : Trimmed (cs ++ behind))
    (hb : ∀ c ∈ behind, isBlank c = true) : behind = [] := by
  by_contra hne
  have hlast := List.getLast?_eq_some_getLast hne
  have hcs : (cs ++ behind).getLast? = some (behind.getLast hne) := by
    rw [List.getLast?_append_of_ne_nil _ hne, hlast]
  have hblank := hb _ (List.getLast_mem hne)
  rw [h.2 _ hcs] at hblank
  cases hblank

theorem isWord_pinned : IsWord "pinned".toList := by
  have hblank : "pinned".toList.all (!isBlank ·) = true := by decide
  exact ⟨by decide, by simpa using List.all_eq_true.mp hblank⟩

namespace DirectiveLine

variable {d : Declaration} {rest line : List Char}

/-- The words of a directive line are found one behind the other. -/
theorem exists_words (h : DirectiveLine d rest line) :
    ∃ args behind, directive? line = some args ∧ nextWord? args = some (d.type.toList, behind) ∧
      ((d.pinned = false ∧ behind = []) ∨
        (d.pinned = true ∧ nextWord? behind = some ("pinned".toList, rest))) := by
  cases h with
  | @plain gap word hgap hword =>
    have hnext : nextWord? (gap ++ (word ++ [])) = some (word, []) :=
      nextWord?_eq hgap.2 hword (by simp)
    rw [List.append_nil] at hnext
    refine ⟨gap ++ word, [], directive?_eq_some_iff.mpr ⟨rfl, hgap.blank_of_mem_head? word⟩, ?_,
      .inl ⟨rfl, rfl⟩⟩
    rw [String.toList_ofList, hnext]
  | @pinned gap word gap' rest hgap hword hgap' hrest =>
    have htype : (String.ofList word).toList = word := String.toList_ofList
    have hnext : nextWord? (gap ++ (word ++ (gap' ++ ("pinned".toList ++ rest)))) =
        some ((String.ofList word).toList, gap' ++ ("pinned".toList ++ rest)) := by
      rw [htype]
      exact nextWord?_eq hgap.2 hword (hgap'.blank_of_mem_head? _)
    exact ⟨_, _, directive?_eq_some_iff.mpr ⟨rfl, hgap.blank_of_mem_head? _⟩, hnext,
      .inr ⟨rfl, nextWord?_eq hgap'.2 isWord_pinned hrest⟩⟩

theorem readDeclaration_eq (h : DirectiveLine d rest line) :
    ∃ args, directive? line = some args ∧ readDeclaration args = .ok d := by
  obtain ⟨args, behind, hargs, hword, hbehind⟩ := h.exists_words
  refine ⟨args, hargs, ?_⟩
  obtain ⟨type, pinned⟩ := d
  rw [readDeclaration, hword]
  rcases hbehind with ⟨rfl, rfl⟩ | ⟨rfl, hpinned⟩
  · have hnone : nextWord? [] = none := rfl
    simp [hnone]
  · simp [hpinned]

/-- The words of a declaration that is read make up its whole line, but for a rest behind them. -/
theorem of_readDeclaration {args : List Char} (hline : Trimmed line)
    (hargs : directive? line = some args) (h : readDeclaration args = .ok d) :
    ∃ rest, DirectiveLine d rest line := by
  obtain ⟨rfl, hblank⟩ := directive?_eq_some_iff.mp hargs
  unfold readDeclaration at h
  split at h
  next => cases h
  next word behind hnext =>
    obtain ⟨gap, hb, hword, hr, rfl⟩ := eq_of_nextWord? hnext
    have hgap : IsGap gap := isGap_of_append hb hword hblank
    split at h
    next hnone =>
      cases h
      -- Only blanks are left behind the type, and a trimmed line does not end with any.
      rw [← List.append_assoc, ← List.append_assoc] at hline
      have hbehind : behind = [] := hline.eq_nil_of_blank (nextWord?_eq_none_iff.mp hnone)
      rw [hbehind, List.append_nil]
      exact ⟨[], .plain hgap hword⟩
    next word' rest hnext' =>
      split at h
      next hpinned =>
        cases h
        obtain ⟨gap', hb', hword', hrest, rfl⟩ := eq_of_nextWord? hnext'
        rw [hpinned]
        exact ⟨rest, .pinned hgap hword (isGap_of_append hb' hword' hr) hrest⟩
      next => cases h

end DirectiveLine

/-- A directive line declares its local as long as there is room for it. -/
theorem DirectiveLine.readLocal_cases {d : Declaration} {rest line : List Char}
    (h : DirectiveLine d rest line) (locals : Locals) :
    (∃ next, readLocal locals line = .ok next ∧ next.method = locals.method ∧
        next.declarations = locals.declarations.push d) ∨
      (readLocal locals line = .error .tooManyLocals ∧ locals.size = localsLimit) := by
  obtain ⟨args, hargs, hd⟩ := h.readDeclaration_eq
  rcases locals.declare_cases d with ⟨_, next, hdeclare, hnext⟩ | ⟨hfull, hdeclare⟩
  · refine .inl ⟨next, ?_, hnext⟩
    simp only [readLocal, hargs, hd, bind, Except.bind, hdeclare]
    rfl
  · refine .inr ⟨?_, hfull⟩
    simp only [readLocal, hargs, hd, bind, Except.bind, hdeclare]

theorem readLocal_of_broken {line : List Char} (hline : Trimmed line)
    (hdot : line.head? = some '.') (h : ¬∃ d rest, DirectiveLine d rest line) (locals : Locals) :
    ∃ fault, readLocal locals line = .error fault := by
  cases hargs : directive? line with
  | none =>
    refine ⟨.unknownDirective (String.ofList (splitWord line).1), ?_⟩
    simp only [readLocal, hargs, if_pos hdot]
  | some args =>
    cases hd : readDeclaration args with
    | error fault =>
      refine ⟨fault, ?_⟩
      simp only [readLocal, hargs, hd]
      rfl
    | ok d =>
      obtain ⟨rest, hd⟩ := DirectiveLine.of_readDeclaration hline hargs hd
      exact absurd ⟨d, rest, hd⟩ h

/-- How the reading of numbered dot lines ends: all of them declare, or the first that cannot is
reported. -/
inductive Declared (locals : Locals) (lines : List (Nat × List Char)) : Except Error Locals → Prop
  | all {target : Locals} (ds : List Declaration) (hmethod : target.method = locals.method)
    (hlines : List.Forall₂ (fun p d => ∃ rest, DirectiveLine d rest p.2) lines ds)
    (hds : target.declarations.toList = locals.declarations.toList ++ ds) :
    Declared locals lines (.ok target)
  | fault {n : Nat} {line : List Char} {fault : Fault} (good behind : List (Nat × List Char))
    (hsplit : lines = good ++ (n, line) :: behind)
    (hgood : ∀ p ∈ good, ∃ d rest, DirectiveLine d rest p.2)
    (hroom : locals.size + good.length ≤ localsLimit)
    (hbad : (¬∃ d rest, DirectiveLine d rest line) ∨ locals.size + good.length = localsLimit) :
    Declared locals lines (.error (.atLine n fault))

theorem Declared.cons {locals next : Locals} {lines : List (Nat × List Char)} {n : Nat}
    {line rest : List Char} {d : Declaration} {result : Except Error Locals}
    (h : Declared next lines result) (hd : DirectiveLine d rest line)
    (hmethod : next.method = locals.method)
    (hpush : next.declarations = locals.declarations.push d) :
    Declared locals ((n, line) :: lines) result := by
  have hsize : next.size = locals.size + 1 := by
    rw [← LocalTable.size_declarations, hpush, Array.size_push, LocalTable.size_declarations]
  cases h with
  | all ds hm hlines hds =>
    refine .all (d :: ds) (hm.trans hmethod) (.cons ⟨rest, hd⟩ hlines) ?_
    rw [hds, hpush]
    simp
  | fault good behind hsplit hgood hroom hbad =>
    refine .fault ((n, line) :: good) behind (by rw [hsplit]; rfl) ?_ ?_ ?_
    · intro p hp
      rcases List.mem_cons.mp hp with rfl | hp
      · exact ⟨d, rest, hd⟩
      · exact hgood p hp
    · simp only [List.length_cons]
      omega
    · refine hbad.imp_right fun he => ?_
      simp only [List.length_cons]
      omega

theorem declared_foldlM {lines : List (Nat × List Char)} (htrimmed : ∀ p ∈ lines, Trimmed p.2)
    (locals : Locals) :
    Declared locals (lines.filter fun p => p.2.head? = some '.')
      (lines.foldlM (fun locals p => (readLocal locals p.2).mapError (.atLine p.1)) locals) := by
  induction lines generalizing locals with
  | nil => exact .all [] rfl .nil (by simp)
  | cons p lines ih =>
    have hrest := fun locals => ih (fun q hq => htrimmed q (List.mem_cons_of_mem _ hq)) locals
    rw [List.foldlM_cons]
    by_cases hdot : p.2.head? = some '.'
    · rw [List.filter_cons_of_pos (by simpa using hdot)]
      by_cases hline : ∃ d rest, DirectiveLine d rest p.2
      · obtain ⟨d, rest, hd⟩ := hline
        rcases hd.readLocal_cases locals with ⟨next, hread, hmethod, hpush⟩ | ⟨hread, hfull⟩
        · rw [hread]
          exact (hrest next).cons hd hmethod hpush
        · rw [hread]
          exact .fault [] _ rfl (by simp) locals.size_le (.inr hfull)
      · obtain ⟨fault, hread⟩ :=
          readLocal_of_broken (htrimmed _ List.mem_cons_self) hdot hline locals
        rw [hread]
        exact .fault [] _ rfl (by simp) locals.size_le (.inl hline)
    · rw [List.filter_cons_of_neg (by simpa using hdot), readLocal_of_no_dot hdot]
      exact hrest locals

/-- The effective lines of a text that begin with a dot, each with its number. -/
def dotLines (text : String) : List (Nat × List Char) :=
  (effectiveLines text.toList).filter fun p => p.2.head? = some '.'

theorem declared_readLocals (method : Nat) (text : String) :
    Declared (.empty method) (dotLines text) (readLocals method text) := by
  refine declared_foldlM ?_ (.empty method)
  intro p hp
  have hm : p.2 ∈ plainLines text.toList := by
    rw [← map_snd_effectiveLines]
    exact List.mem_map_of_mem hp
  exact (isEffective_of_mem hm).trimmed

theorem Declared.entries {method : Nat} {target : Locals} {lines : List (Nat × List Char)}
    (h : Declared (.empty method) lines (.ok target)) :
    target.size = lines.length ∧
      ∀ (k n : Nat) (line : List Char), lines[k]? = some (n, line) →
        ∃ l rest, target.get? k.toUInt16 = some l ∧ l.index.toNat = k ∧
          DirectiveLine l.toDeclaration rest line := by
  cases h with
  | all ds _ hlines hds =>
    have hds : target.declarations.toList = ds := by simpa using hds
    have hsize : target.size = ds.length := by
      simp [← hds]
    refine ⟨hsize.trans hlines.length_eq.symm, ?_⟩
    intro k n line hk
    obtain ⟨hkl, hline⟩ := List.getElem?_eq_some_iff.mp hk
    have hkd : k < ds.length := by
      rw [← hlines.length_eq]
      exact hkl
    obtain ⟨rest, hdirective⟩ := hlines.get hkl hkd
    simp only [List.get_eq_getElem, hline] at hdirective
    have hindex : k.toUInt16.toNat = k := by
      have hlimit : target.size ≤ 65535 := target.size_le
      exact UInt16.toNat_ofNat_of_lt' (show k < 65536 by omega)
    have hentry : target.declarations[k]? = some ds[k] := by
      rw [← Array.getElem?_toList, hds, List.getElem?_eq_getElem hkd]
    refine ⟨⟨⟨ds[k], k.toUInt16⟩, target.method, k⟩, rest, ?_, hindex, hdirective⟩
    exact target.numbered.get?_eq_some_iff.mpr ⟨rfl, hindex.symm, rfl, by rw [hindex, hentry]⟩

theorem Declared.ok_iff {method : Nat} {lines : List (Nat × List Char)}
    {result : Except Error Locals} (h : Declared (.empty method) lines result) :
    (∃ target, result = .ok target) ↔
      (∀ p ∈ lines, ∃ d rest, DirectiveLine d rest p.2) ∧ lines.length ≤ localsLimit := by
  have hzero : (Locals.empty method).size = 0 := rfl
  cases h with
  | @all target ds _ hlines hds =>
    have hdirectives : ∀ p ∈ lines, ∃ d rest, DirectiveLine d rest p.2 := by
      intro p hp
      obtain ⟨k, hk, rfl⟩ := List.mem_iff_getElem.mp hp
      have hkd : k < ds.length := by
        rw [← hlines.length_eq]
        exact hk
      obtain ⟨rest, hd⟩ := hlines.get hk hkd
      exact ⟨_, rest, hd⟩
    have hlimit : lines.length ≤ localsLimit := by
      have hlength := congrArg List.length hds
      simp only [Array.length_toList, LocalTable.size_declarations, List.length_append] at hlength
      have hsize := target.size_le
      rw [hlines.length_eq]
      omega
    exact iff_of_true ⟨target, rfl⟩ ⟨hdirectives, hlimit⟩
  | @fault n line f good behind hsplit _ _ hbad =>
    refine iff_of_false (by simp) fun h => ?_
    obtain ⟨hall, hlimit⟩ := h
    rcases hbad with hbad | hfull
    · exact hbad (hall (n, line) (by simp [hsplit]))
    · rw [hsplit, List.length_append, List.length_cons] at hlimit
      omega

theorem Declared.error_cases {method : Nat} {lines : List (Nat × List Char)} {e : Error}
    (h : Declared (.empty method) lines (.error e)) :
    ∃ (k n : Nat) (line : List Char) (fault : Fault), lines[k]? = some (n, line) ∧
      e = .atLine n fault ∧
      (∀ j < k, ∀ p, lines[j]? = some p → ∃ d rest, DirectiveLine d rest p.2) ∧
      k ≤ localsLimit ∧ ((¬∃ d rest, DirectiveLine d rest line) ∨ k = localsLimit) := by
  have hzero : (Locals.empty method).size = 0 := rfl
  cases h with
  | @fault n line f good behind hsplit hgood hroom hbad =>
    rw [hzero, Nat.zero_add] at hroom hbad
    refine ⟨good.length, n, line, f, by simp [hsplit], rfl, ?_, hroom, hbad⟩
    intro j hj p hp
    rw [hsplit, List.getElem?_append_left hj] at hp
    exact hgood p (List.mem_of_getElem? hp)

/-- The locals are read just if all dot lines are directives and there is room. Else the first that
fails is reported. -/
theorem readLocals_dotLines (method : Nat) (text : String) :
    ((∃ locals, readLocals method text = .ok locals) ↔
      (∀ p ∈ dotLines text, ∃ d rest, DirectiveLine d rest p.2) ∧
        (dotLines text).length ≤ localsLimit) ∧
    (∀ locals, readLocals method text = .ok locals →
      locals.size = (dotLines text).length ∧
      ∀ (k n : Nat) (line : List Char), (dotLines text)[k]? = some (n, line) →
        ∃ l rest, locals.get? k.toUInt16 = some l ∧ l.index.toNat = k ∧
          DirectiveLine l.toDeclaration rest line) ∧
    (∀ e, readLocals method text = .error e →
      ∃ (k n : Nat) (line : List Char) (fault : Fault), (dotLines text)[k]? = some (n, line) ∧
        e = .atLine n fault ∧
        (0 < n ∧ ∃ raw, (text.toList.splitOn '\n')[n - 1]? = some raw ∧
          effectiveLine? raw = some line) ∧
        (∀ j < k, ∀ p, (dotLines text)[j]? = some p → ∃ d rest, DirectiveLine d rest p.2) ∧
        k ≤ localsLimit ∧ ((¬∃ d rest, DirectiveLine d rest line) ∨ k = localsLimit)) := by
  have h := declared_readLocals method text
  refine ⟨h.ok_iff, ?_, ?_⟩
  · intro locals hl
    rw [hl] at h
    exact h.entries
  · intro e he
    rw [he] at h
    obtain ⟨k, n, line, fault, hk, hfault, hrest⟩ := h.error_cases
    have hm : (n, line) ∈ effectiveLines text.toList :=
      List.mem_of_mem_filter (List.mem_of_getElem? hk)
    exact ⟨k, n, line, fault, hk, hfault, exists_raw_of_mem_effectiveLines hm, hrest⟩

/-- A word behind `pinned` is accepted, although the line then goes on behind its declaration. -/
theorem readLocals_word_behind_pinned :
    dotLines ".local int32 pinned volatile" = [(1, ".local int32 pinned volatile".toList)] ∧
      (∃ locals, readLocals 0 ".local int32 pinned volatile" = .ok locals) ∧
      ∀ d, ¬DirectiveLine d [] ".local int32 pinned volatile".toList := by
  refine ⟨rfl, ?_, ?_⟩
  · exact ⟨((Locals.empty 0).declare ⟨"int32", true⟩).2, rfl⟩
  · intro d h
    obtain ⟨args, behind, hargs, hword, hbehind⟩ := h.exists_words
    have hargs' : directive? ".local int32 pinned volatile".toList =
        some " int32 pinned volatile".toList := rfl
    cases hargs.symm.trans hargs'
    have hword' : nextWord? " int32 pinned volatile".toList =
        some ("int32".toList, " pinned volatile".toList) := rfl
    obtain rfl := (Prod.mk.inj (Option.some.inj (hword.symm.trans hword'))).2
    have hrest : nextWord? " pinned volatile".toList =
        some ("pinned".toList, " volatile".toList) := rfl
    rcases hbehind with ⟨_, hnil⟩ | ⟨_, hpinned⟩
    · cases hnil
    · cases hpinned.symm.trans hrest

end MethodBody

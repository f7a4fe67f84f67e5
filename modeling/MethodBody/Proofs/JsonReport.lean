import MethodBody.CommandLine.Outcome
import MethodBody.Proofs.ComplementLayout
import MethodBody.Proofs.Encodable
import MethodBody.Proofs.JsonText
import MethodBody.Proofs.Merging

namespace MethodBody

/-- A number below sixteen as a digit in lower case. -/
def lowerDigit (n : Fin 16) : Char :=
  "0123456789abcdef".toList[n]

/-- The digits of a byte, high half first. -/
def lowerHex (b : UInt8) : List Char :=
  [lowerDigit ⟨b.toNat / 16, by have := b.toNat_lt; omega⟩, lowerDigit ⟨b.toNat % 16, by omega⟩]

theorem digitChar_eq_lowerDigit (n : Fin 16) : Nat.digitChar n.val = lowerDigit n := by
  revert n
  decide

theorem jsonChar_lowerDigit (n : Fin 16) : jsonChar (lowerDigit n) = [lowerDigit n] := by
  revert n
  decide

theorem hexDigits_eq_lowerHex (b : UInt8) : hexDigits 2 b.toNat = lowerHex b := by
  have hb := b.toNat_lt
  have hhigh : b.toNat / 16 % 16 = b.toNat / 16 := by omega
  simp only [hexDigits, List.nil_append, List.cons_append, hhigh, lowerHex,
    ← digitChar_eq_lowerDigit]

theorem hexText_eq (bytes : List UInt8) : hexText bytes = bytes.flatMap lowerHex := by
  simp only [hexText, hexDigits_eq_lowerHex]

/-- Nothing in a hex text is escaped. -/
theorem jsonString_hexText (bytes : List UInt8) :
    jsonString (String.ofList (hexText bytes)) =
      "\"" ++ String.ofList (bytes.flatMap lowerHex) ++ "\"" := by
  have hplain : (bytes.flatMap lowerHex).flatMap jsonChar = bytes.flatMap lowerHex := by
    induction bytes with
    | nil => rfl
    | cons b bytes ih =>
      simp only [List.flatMap_cons, List.flatMap_append, ih, lowerHex, jsonChar_lowerDigit]
      rfl
  rw [jsonString, String.toList_ofList, hexText_eq, hplain]

/-- The bytes that name a slot behind an opcode, the low one first. -/
def SlotForm.slotBytes : SlotForm → UInt16 → List UInt8
  | .fixed _, _ => []
  | .compact, n => [n.toUInt8]
  | .general, n => [n.toUInt8, (n >>> 8).toUInt8]

theorem SlotForm.slotBytes_of_hasOperand {form : SlotForm} (h : form.hasOperand = true)
    (n : UInt16) : form.slotBytes n = littleEndian form.operandKind.size n.toNat := by
  cases form with
  | fixed slot => cases h
  | compact => simp [slotBytes, operandKind, OperandKind.size, littleEndian]
  | general =>
    have hhigh : (n >>> 8).toUInt8 = (n.toNat / 256).toUInt8 := by
      simp [← UInt8.toNat_inj, Nat.shiftRight_eq_div_pow]
    simp [slotBytes, operandKind, OperandKind.size, littleEndian, hhigh]

namespace Instruction.IsCounterpart

variable {a : ValueAccess} {x y : Instruction} {s : Slot}

theorem exists_local (h : x.IsCounterpart a y) (hs : y.slot? = some s)
    (hf : a.form.hasOperand = true) :
    ∃ l, x.operand = some (.declared l) ∧ y.operand = some (.declared l) ∧ s = .declared l := by
  obtain ⟨l, hx, hy⟩ := h.named hf
  have hslot := slot?_of_declared h.access_counterpart hf hy
  exact ⟨l, hx, hy, Option.some.inj (hs.symm.trans hslot)⟩

/-- The encoding takes the number from the operand, if there is one, and not from the slot. -/
theorem encode_slot (h : x.IsCounterpart a y) (hs : y.slot? = some s)
    (hfits : a.form = .compact → s.index.toNat ≤ 255) :
    y.encode = .ok (y.opcode.bytes ++ a.form.slotBytes s.index) := by
  cases hf : a.form.hasOperand with
  | false =>
    obtain ⟨slot, hform⟩ := SlotForm.eq_fixed hf
    refine encode_eq_ok_iff.mpr ⟨0, ?_, ?_⟩
    · rw [h.operandKind_form, hform, h.dropped hf]
      rfl
    · rw [h.operandKind_form, hform]
      rfl
  | true =>
    obtain ⟨l, _, hy, rfl⟩ := h.exists_local hs hf
    refine encode_eq_ok_iff.mpr ⟨l.index.toNat, ?_, ?_⟩
    · rw [h.operandKind_form, hy]
      cases hform : a.form with
      | fixed slot =>
        rw [hform] at hf
        cases hf
      | compact =>
        have hle : ¬255 < l.index.toNat := Nat.not_lt.mpr (hfits hform)
        exact (OperandKind.payload?_shortVariable rfl).trans (if_neg hle)
      | general => rfl
    · rw [h.operandKind_form]
      exact congrArg (y.opcode.bytes ++ ·) (SlotForm.slotBytes_of_hasOperand hf l.index)

theorem encode_far (h : x.IsCounterpart a y) (hs : y.slot? = some s) (hform : a.form = .compact)
    (hfar : 255 < s.index.toNat) : y.encode = .error (.operandMisfit y.opcode) := by
  obtain ⟨l, _, hy, rfl⟩ := h.exists_local hs (by rw [hform]; rfl)
  have hshort : y.opcode.operandKind = .shortVariable := by
    rw [h.operandKind_form, hform]
    rfl
  have hunfit : Unfit ⟨y.opcode, some (.declared l)⟩ :=
    .farLocal (Opcode.mem_short_iff.mpr hshort) hfar
  rw [← hy] at hunfit
  exact hunfit.encode_eq

end Instruction.IsCounterpart

namespace AccessPair

open Instruction

/-- A pair in the compact form has one byte for its local. -/
def FitsByte (p : AccessPair) : Prop :=
  p.load.opcode.valueAccess? = some ⟨.load, .compact⟩ →
    ∃ l, p.local? = some l ∧ l.index.toNat ≤ 255

/-- Both halves of a pair are in one form and access one slot. -/
structure Shares (p : AccessPair) (form : SlotForm) (n : UInt16) : Prop where
  load : p.load.opcode.valueAccess? = some ⟨.load, form⟩
  store : p.store.opcode.valueAccess? = some ⟨.store, form⟩
  slot_load : p.load.slot?.map Slot.index = some n
  slot_store : p.store.slot?.map Slot.index = some n

theorem shares_ofHalves {a : ValueAccess} {x y : Instruction} {s : Slot}
    (h : x.IsCounterpart a y) (hx : x.slot? = some s) (hy : y.slot? = some s) :
    (ofHalves a.direction x y).Shares a.form s.index := by
  have hforms := forall_half (motive := fun d z => z.opcode.valueAccess? = some ⟨d, a.form⟩)
    h.access h.access_counterpart
  have hslots := forall_half (d := a.direction)
    (motive := fun _ z => z.slot?.map Slot.index = some s.index) (congrArg _ hx) (congrArg _ hy)
  exact ⟨hforms.1, hforms.2, hslots.1, hslots.2⟩

theorem fitsByte_ofHalves_iff {a : ValueAccess} {x y : Instruction} {s : Slot}
    (h : x.IsCounterpart a y) (hy : y.slot? = some s) :
    (ofHalves a.direction x y).FitsByte ↔ (a.form = .compact → s.index.toNat ≤ 255) := by
  have hload := (forall_half (motive := fun d z => z.opcode.valueAccess? = some ⟨d, a.form⟩)
    h.access h.access_counterpart).1
  have hlocal : a.form = .compact →
      ∃ l, (ofHalves a.direction x y).local? = some l ∧ s = .declared l := by
    intro hform
    obtain ⟨l, hxl, hyl, hs⟩ := h.exists_local hy (by rw [hform]; rfl)
    have hboth := forall_half (d := a.direction) (motive := fun _ z => z.local? = some l)
      (local?_eq_some_iff.mpr hxl) (local?_eq_some_iff.mpr hyl)
    exact ⟨l, hboth.1, hs⟩
  rw [FitsByte, hload]
  constructor
  · intro hfits hform
    obtain ⟨l, hl, rfl⟩ := hlocal hform
    obtain ⟨l', hl', hle⟩ := hfits (by rw [hform])
    obtain rfl : l = l' := Option.some.inj (hl.symm.trans hl')
    exact hle
  · intro hle he
    have hform : a.form = .compact := congrArg ValueAccess.form (Option.some.inj he)
    obtain ⟨l, hl, rfl⟩ := hlocal hform
    exact ⟨l, hl, hle hform⟩

/-- The complement of a pair names its slot by the bytes of the form, if they are enough. -/
theorem encode_cases {x : Instruction} {p : AccessPair} (h : ofInstruction x = .ok p) :
    ∃ form n, p.Shares form n ∧
      (p.FitsByte ↔ (form = .compact → n.toNat ≤ 255)) ∧
      (p.FitsByte → p.complement.encode = .ok (p.complement.opcode.bytes ++ form.slotBytes n)) ∧
      (¬p.FitsByte → p.complement.encode = .error (.operandMisfit p.complement.opcode)) := by
  obtain ⟨a, y, hxy, rfl⟩ := ofInstruction_eq_ok_iff.mp h
  obtain ⟨s, hx, hy⟩ := hxy.exists_slot
  have hfits := fitsByte_ofHalves_iff hxy hy
  rw [complement_ofHalves]
  refine ⟨a.form, s.index, shares_ofHalves hxy hx hy, hfits, ?_, ?_⟩
  · exact fun hfit => hxy.encode_slot hy (hfits.mp hfit)
  · intro hfar
    obtain ⟨hform, hfar⟩ := Classical.not_imp.mp (hfits.not.mp hfar)
    exact hxy.encode_far hy hform (Nat.lt_of_not_le hfar)

end AccessPair

/-- The entry is of a site whose pair is in the given form and accesses the given slot. -/
structure ReportEntry.Describes (e : ReportEntry) (s : Site) (form : SlotForm) (n : UInt16) :
    Prop where
  shares : s.pair.Shares form n
  fits : form = .compact → n.toNat ≤ 255
  members : e.members =
    [("complement_bytes", "\"" ++ String.ofList
        ((s.pair.complement.opcode.bytes ++ form.slotBytes n).flatMap lowerHex) ++ "\""),
      ("index", jsonNumber s.position),
      ("load", jsonString s.pair.load.text),
      ("slot", jsonNumber n.toNat),
      ("source", jsonString s.pair.source.word),
      ("store", jsonString s.pair.store.text)]
  value : e.value = .object
    [("complement_bytes", .string (String.ofList
        ((s.pair.complement.opcode.bytes ++ form.slotBytes n).flatMap lowerHex))),
      ("index", .number s.position),
      ("load", .string s.pair.load.text),
      ("slot", .number n.toNat),
      ("source", .string s.pair.source.word),
      ("store", .string s.pair.store.text)]

namespace Site

variable {s : Site} {x : Instruction}

theorem entry_eq_error (h : AccessPair.ofInstruction x = .ok s.pair) (hfar : ¬s.pair.FitsByte) :
    s.entry = .error (.encoding s.position (.operandMisfit s.pair.complement.opcode)) := by
  obtain ⟨_, _, _, _, _, hencode⟩ := AccessPair.encode_cases h
  rw [entry, hencode hfar]
  rfl

theorem entry_exists_iff (h : AccessPair.ofInstruction x = .ok s.pair) :
    (∃ e, s.entry = .ok e) ↔ s.pair.FitsByte := by
  constructor
  · rintro ⟨e, he⟩
    by_contra hfar
    cases (entry_eq_error h hfar).symm.trans he
  · intro hfits
    obtain ⟨form, n, _, _, hencode, _⟩ := AccessPair.encode_cases h
    exact ⟨_, by rw [entry, hencode hfits]; rfl⟩

theorem describes_of_entry {e : ReportEntry} (h : AccessPair.ofInstruction x = .ok s.pair)
    (he : s.entry = .ok e) : ∃ form n, e.Describes s form n := by
  have hfits : s.pair.FitsByte := (entry_exists_iff h).mp ⟨e, he⟩
  obtain ⟨form, n, hshares, hle, hencode, _⟩ := AccessPair.encode_cases h
  rw [entry, hencode hfits, hshares.slot_load] at he
  cases he
  refine ⟨form, n, hshares, hle.mp hfits, ?_, ?_⟩
  · rw [ReportEntry.members, jsonString_hexText]
    rfl
  · rw [ReportEntry.value, hexText_eq]
    rfl

end Site

/-- A report can be printed as JSON just if the number of every compact local fits into a byte. -/
theorem printJson_of_sitesOf {wanted : Option Direction} {code : List Instruction}
    {sites : List Site} (h : sitesOf wanted code = .ok sites) :
    (∀ d, wanted = some d → allSites d code = .ok sites) ∧
    (∀ s ∈ sites, ∃ x, code[s.position]? = some x ∧ AccessPair.ofInstruction x = .ok s.pair) ∧
    (∀ input bytes text locals, decodeText bytes = .ok text → readLocals 0 text = .ok locals →
      readCode locals text = .ok code →
      (Command.complement input wanted false).run (.ok bytes) = .ok (printText sites) ∧
      (Command.complement input wanted true).run (.ok bytes) =
        (printJson sites).map (· ++ "\n")) ∧
    ((∃ text, printJson sites = .ok text) ↔ ∀ s ∈ sites, s.pair.FitsByte) ∧
    (∀ before s behind, sites = before ++ s :: behind → (∀ t ∈ before, t.pair.FitsByte) →
      ¬s.pair.FitsByte →
      printJson sites =
        .error (.encoding s.position (.operandMisfit s.pair.complement.opcode))) ∧
    (∀ text, printJson sites = .ok text → ∃ entries, text = jsonReport entries ∧
      JsonText (.array (entries.map ReportEntry.value)) text.toList ∧
      List.Forall₂ (fun s e => ∃ form n, e.Describes s form n) sites entries) := by
  have hmem := ofInstruction_of_mem_sitesOf h
  have hentry : ∀ s ∈ sites, (∃ e, s.entry = .ok e) ↔ s.pair.FitsByte := by
    intro s hs
    obtain ⟨x, _, hx⟩ := hmem s hs
    exact s.entry_exists_iff hx
  refine ⟨?_, hmem, ?_, ?_, ?_, ?_⟩
  · rintro d rfl
    rwa [sitesOf_some, mapError_eq_ok_iff] at h
  · intro input bytes text locals htext hlocals hcode
    simp only [Command.run, bind, Except.bind, Except.mapError, htext, hlocals, hcode, h]
    constructor
    · rfl
    · cases printJson sites <;> rfl
  · rw [← forall₂_congr hentry, ← mapM_exists_iff]
    simp only [printJson, map_eq_ok_iff]
    constructor
    · rintro ⟨text, entries, hentries, _⟩
      exact ⟨entries, hentries⟩
    · rintro ⟨entries, hentries⟩
      exact ⟨_, entries, hentries, rfl⟩
  · rintro before s behind rfl hbefore hfar
    have hs : s ∈ before ++ s :: behind := List.mem_append_right before List.mem_cons_self
    obtain ⟨x, _, hx⟩ := hmem s hs
    have hfirst : ∀ t ∈ before, ∃ e, t.entry = .ok e := fun t ht =>
      (hentry t (List.mem_append_left _ ht)).mpr (hbefore t ht)
    rw [printJson, reportEntries, mapM_eq_error hfirst (s.entry_eq_error hx hfar)]
    rfl
  · intro text htext
    obtain ⟨entries, hentries, rfl⟩ := map_eq_ok_iff.mp htext
    have hall : List.Forall₂ (fun s e => (∃ x, code[s.position]? = some x ∧
        AccessPair.ofInstruction x = .ok s.pair) ∧ s.entry = .ok e) sites entries :=
      (List.forall₂_and_left _ _).mpr ⟨hmem, mapM_eq_ok_iff.mp hentries⟩
    refine ⟨entries, rfl, jsonText_jsonReport entries, hall.imp ?_⟩
    rintro s e ⟨⟨x, _, hx⟩, he⟩
    exact s.describes_of_entry hx he

/-- The local numbered 300 has no room in a compact store, but the store before it can be reported
alone. -/
theorem printJson_of_sitesOf_far :
    ∃ code : List Instruction,
      code = [⟨.stlocS, some (.declared ⟨⟨⟨"int32", false⟩, 4⟩, 0, 4⟩)⟩,
        ⟨.ldlocS, some (.declared ⟨⟨⟨"int32", false⟩, 300⟩, 0, 300⟩)⟩] ∧
      (∃ sites, sitesOf none code = .ok sites ∧
        printJson sites = .error (.encoding 1 (.operandMisfit .stlocS))) ∧
      ∃ sites e, sitesOf (some .store) code = .ok sites ∧ printJson sites = .ok (jsonReport [e]) ∧
        ("slot", "4") ∈ e.members ∧ ("complement_bytes", "\"1104\"") ∈ e.members := by
  let near : Local := ⟨⟨⟨"int32", false⟩, 4⟩, 0, 4⟩
  let far : Local := ⟨⟨⟨"int32", false⟩, 300⟩, 0, 300⟩
  let code : List Instruction := [⟨.stlocS, some (.declared near)⟩, ⟨.ldlocS, some (.declared far)⟩]
  let pair (l : Local) := AccessPair.mk ⟨.ldlocS, some (.declared l)⟩ ⟨.stlocS, some (.declared l)⟩
  let store : Site := ⟨0, pair near .store⟩
  let load : Site := ⟨1, pair far .load⟩
  have hstores : allSites .store code = .ok [store] := by
    rw [allSites_eq_sitesFrom]
    rfl
  have hloads : allSites .load code = .ok [load] := by
    rw [allSites_eq_sitesFrom]
    rfl
  have hboth : sitesOf none code = .ok [store, load] := by
    have hsort : ([store, load].mergeSort fun a b => a.position ≤ b.position) = [store, load] :=
      sort_eq_self (by decide)
    simp only [sitesOf, hstores, hloads]
    exact congrArg Except.ok hsort
  have hstore : sitesOf (some .store) code = .ok [store] := by
    rw [sitesOf_some, hstores]
    rfl
  have hnear : store.pair.FitsByte := fun _ => ⟨near, rfl, by decide⟩
  have hfar : ¬load.pair.FitsByte := by
    intro h
    obtain ⟨l, hl, hle⟩ := h rfl
    obtain rfl : far = l := Option.some.inj hl
    exact absurd hle (by decide)
  obtain ⟨_, _, _, _, herror, _⟩ := printJson_of_sitesOf hboth
  obtain ⟨_, _, _, hok, _, hentries⟩ := printJson_of_sitesOf hstore
  obtain ⟨text, htext⟩ := hok.mpr (List.forall_mem_singleton.mpr hnear)
  obtain ⟨entries, rfl, _, hdescribes⟩ := hentries text htext
  obtain ⟨e, _, ⟨form, n, he⟩, hnil, rfl⟩ := List.forall₂_cons_left_iff.mp hdescribes
  cases hnil
  refine ⟨code, rfl, ⟨_, hboth, ?_⟩, _, e, hstore, htext, ?_⟩
  · exact herror [store] load [] rfl (List.forall_mem_singleton.mpr hnear) hfar
  · obtain rfl : form = .compact := congrArg ValueAccess.form (Option.some.inj he.shares.load.symm)
    obtain rfl : n = 4 := Option.some.inj he.shares.slot_load.symm
    rw [he.members]
    decide

end MethodBody

import SubscriberMgmt.CsvSave
import SubscriberMgmt.SubscriberRecords

/-!
# Reading back the line of a record

A line that `subdb_save_csv` writes for a record of a reachable database fits
the reader's buffer, and its nine fields come back as they were printed.
-/

namespace SubscriberMgmt
open CText

/-- The record without its id and its times, with its texts read. -/
structure SubscriberFields where
  imsi : Str
  msisdn : Str
  name : Str
  region : Str
  plan : Str
  status : SubStatus
  deriving DecidableEq

def Subscriber.fields (strs : SStrPool) (s : Subscriber) : SubscriberFields :=
  ⟨s.imsi.chars, s.msisdn.chars, sstrCstr strs s.name, sstrCstr strs s.region,
    sstrCstr strs s.plan, s.status⟩

def SubStatus.IsEnumerator : SubStatus → Prop
  | .other _ => False
  | _ => True

theorem subStatus_round_trip {st : SubStatus} (h : st.IsEnumerator) :
    subStatusFromStr (subStatusToStr st) = st := by
  cases st with
  | other code => exact h.elim
  | _ => decide

/-! ### Characters of a line -/

def FieldText (s : Str) : Prop := ∀ c ∈ s, c ≠ 0 ∧ c ≠ newline ∧ c ≠ comma

def LineText (s : Str) : Prop := ∀ c ∈ s, c ≠ 0 ∧ c ≠ newline

theorem FieldText.line {s : Str} (h : FieldText s) : LineText s := fun c hc =>
  ⟨(h c hc).1, (h c hc).2.1⟩

theorem FieldText.cons_line {s rest : Str} (h : FieldText s) (hrest : LineText rest) :
    LineText (s ++ comma :: rest) := by
  intro c hc
  rcases List.mem_append.mp hc with hc | hc
  · exact h.line c hc
  · rcases List.mem_cons.mp hc with rfl | hc
    · decide
    · exact hrest c hc

theorem FieldText.of_digits {s : Str} (h : ∀ c ∈ s, isDigit c = true) : FieldText s := by
  intro c hc
  have hd := h c hc
  refine ⟨?_, ?_, ?_⟩
  · intro he
    subst he
    exact absurd hd (by decide)
  · intro he
    subst he
    exact absurd hd (by decide)
  · intro he
    subst he
    exact absurd hd (by decide)

theorem FieldText.of_validName {s : Str} (h : subValidateName s = true) : FieldText s := by
  intro c hc
  simp only [subValidateName, Bool.and_eq_true, List.all_eq_true] at h
  have hd := h.2 c hc
  refine ⟨?_, ?_, ?_⟩
  · intro he
    subst he
    exact absurd hd (by decide)
  · intro he
    subst he
    exact absurd hd (by decide)
  · intro he
    subst he
    exact absurd hd (by decide)

theorem fieldText_signedDecimal (z : ℤ) : FieldText (signedDecimal z) := by
  have h := FieldText.of_digits (decimal_isDigit z.natAbs)
  intro c hc
  unfold signedDecimal at hc
  split at hc
  · rcases List.mem_cons.mp hc with rfl | hc
    · decide
    · exact h c hc
  · exact h c hc

theorem FieldText.of_all {s : Str}
    (h : s.all (fun c => c != 0 && c != newline && c != comma) = true) : FieldText s := by
  intro c hc
  have hcheck := List.all_eq_true.mp h c hc
  simpa [and_assoc] using hcheck

theorem fieldText_status (st : SubStatus) : FieldText (subStatusToStr st) := by
  cases st with
  | other code =>
    show FieldText (lit "UNKNOWN")
    exact .of_all (by decide)
  | _ => exact .of_all (by decide)

theorem status_length (st : SubStatus) :
    subStatusToStr st ≠ [] ∧ (subStatusToStr st).length ≤ 10 := by
  cases st with
  | other code =>
    show lit "UNKNOWN" ≠ [] ∧ (lit "UNKNOWN").length ≤ 10
    decide
  | _ => decide

theorem validDigits_isDigit {lo hi : ℕ} {s : Str} (h : validDigits lo hi s = true) :
    lo ≤ s.length ∧ ∀ c ∈ s, isDigit c = true := by
  simp only [validDigits, Bool.and_eq_true, decide_eq_true_eq, List.all_eq_true] at h
  exact ⟨h.1.1, h.2⟩

/-! ### Lengths -/

theorem decimal_u64_length (n : UInt64) : (decimal n.toNat).length ≤ 20 :=
  decimal_length (by decide) (by have := n.toNat_lt; omega)

theorem signedDecimal_i64_length (t : Int64) : (signedDecimal t.toInt).length ≤ 20 := by
  have hlo := t.le_toInt
  have hhi := t.toInt_lt
  have h : (decimal t.toInt.natAbs).length ≤ 19 := decimal_length (by decide) (by omega)
  unfold signedDecimal
  split
  · simp only [List.length_cons]
    omega
  · omega

/-! ### A line of the file -/

def csvBody (strs : SStrPool) (s : Subscriber) : Str :=
  decimal s.subscriberId.toNat ++ comma :: (s.imsi.chars ++ comma :: (s.msisdn.chars ++
    comma :: (sstrCstr strs s.name ++ comma :: (sstrCstr strs s.region ++
    comma :: (sstrCstr strs s.plan ++ comma :: (subStatusToStr s.status ++
    comma :: (signedDecimal s.createdAt.toInt ++ comma :: signedDecimal s.updatedAt.toInt)))))))

theorem csvLine_eq (strs : SStrPool) (s : Subscriber) :
    csvLine strs s = csvBody strs s ++ [newline] := by
  simp only [csvLine, csvBody, List.append_assoc, List.cons_append]

theorem GoodText.cstr_valid {p : SStrPool} {h : Option Handle} (hg : GoodText p h) :
    subValidateName (sstrCstr p h) = true := by
  obtain ⟨t, hv, ht⟩ := hg
  rwa [ht.cstr]

theorem GoodRecord.lineText {p : SStrPool} {s : Subscriber} (h : GoodRecord p s) :
    LineText (csvBody p s) := by
  have himsi := FieldText.of_digits (validDigits_isDigit h.imsi).2
  have hmsisdn := FieldText.of_digits (validDigits_isDigit h.msisdn).2
  have hname := FieldText.of_validName h.name.cstr_valid
  have hregion := FieldText.of_validName h.region.cstr_valid
  have hplan := FieldText.of_validName h.plan.cstr_valid
  have hid := FieldText.of_digits (decimal_isDigit s.subscriberId.toNat)
  have hcreated := fieldText_signedDecimal s.createdAt.toInt
  have hupdated := (fieldText_signedDecimal s.updatedAt.toInt).line
  have hstatus := fieldText_status s.status
  exact hid.cons_line (himsi.cons_line (hmsisdn.cons_line (hname.cons_line (hregion.cons_line
    (hplan.cons_line (hstatus.cons_line (hcreated.cons_line hupdated)))))))

theorem GoodRecord.line_length {p : SStrPool} {s : Subscriber} (h : GoodRecord p s) :
    (csvBody p s).length ≤ 300 := by
  have himsi := s.imsi.fits
  have hmsisdn := s.msisdn.fits
  have hname := (validName_length h.name.cstr_valid).2
  have hregion := (validName_length h.region.cstr_valid).2
  have hplan := (validName_length h.plan.cstr_valid).2
  have hid := decimal_u64_length s.subscriberId
  have hstatus := (status_length s.status).2
  have hcreated := signedDecimal_i64_length s.createdAt
  have hupdated := signedDecimal_i64_length s.updatedAt
  simp only [smMaxImsiLen, smMaxMsisdnLen, smMaxNameLen] at himsi hmsisdn hname hregion hplan
  simp only [csvBody, List.length_append, List.length_cons]
  omega

theorem csvBody_ne_nil (p : SStrPool) (s : Subscriber) : csvBody p s ≠ [] := by
  simp [csvBody]

theorem chompLine_line {s : Str} (h : LineText s) : chompLine (s ++ [newline]) = s := by
  have hz : cString (s ++ [newline]) = s ++ [newline] := by
    apply List.takeWhile_eq_self_iff.mpr
    intro c hc
    rcases List.mem_append.mp hc with hc | hc
    · simpa using (h c hc).1
    · rw [List.mem_singleton.mp hc]
      decide
  simp only [chompLine, hz, List.getLast?_concat, if_true, List.dropLast_concat]

/-! ### The fields of a line -/

theorem scanField_comma {width : ℕ} {s : Str} (h : FieldText s) (hne : s ≠ [])
    (hlen : s.length ≤ width) {β : Type} (rest : Str) (k : Str × Str → Option β) :
    (scanField width (s ++ comma :: rest) >>= k) = k (s, comma :: rest) := by
  have hs : scanField width (s ++ comma :: rest) = some (s, comma :: rest) :=
    scanSet_append hne hlen (fun c hc => by simpa using (h c hc).2.2) (by decide)
  rw [hs]
  rfl

theorem scanChar_self {β : Type} (c : UInt8) (rest : Str) (k : Str → Option β) :
    (scanChar c (c :: rest) >>= k) = k rest := by
  rw [scanChar, if_pos rfl]
  rfl

theorem scanInt_time {β : Type} (t : Int64) (rest : Str)
    (hrest : ∀ x ∈ rest.head?, isDigit x = false) (k : ℤ × Str → Option β) :
    (scanInt longMin longMax (signedDecimal t.toInt ++ rest) >>= k) = k (t.toInt, rest) := by
  have hs : scanInt longMin longMax (signedDecimal t.toInt ++ rest) = some (t.toInt, rest) :=
    scanInt_signedDecimal t.le_toInt (Int.le_sub_one_of_lt t.toInt_lt) hrest
  rw [hs]
  rfl

theorem GoodRecord.scanRecord {p : SStrPool} {s : Subscriber} (h : GoodRecord p s) :
    scanRecord (csvBody p s) =
      some ⟨decimal s.subscriberId.toNat, s.imsi.chars, s.msisdn.chars, sstrCstr p s.name,
        sstrCstr p s.region, sstrCstr p s.plan, subStatusToStr s.status, s.createdAt.toInt,
        s.updatedAt.toInt⟩ := by
  obtain ⟨hni, hdi⟩ := validDigits_isDigit h.imsi
  obtain ⟨hnm, hdm⟩ := validDigits_isDigit h.msisdn
  obtain ⟨hnn, hln⟩ := validName_length h.name.cstr_valid
  obtain ⟨hnr, hlr⟩ := validName_length h.region.cstr_valid
  obtain ⟨hnp, hlp⟩ := validName_length h.plan.cstr_valid
  obtain ⟨hns, hls⟩ := status_length s.status
  have hlid := decimal_u64_length s.subscriberId
  have hli : s.imsi.chars.length ≤ 15 := s.imsi.fits
  have hlm : s.msisdn.chars.length ≤ 15 := s.msisdn.fits
  simp only [smMaxNameLen] at hln hlr hlp
  have hlast := scanInt_time (β := CsvFields) s.updatedAt [] (by simp)
  rw [List.append_nil] at hlast
  rw [SubscriberMgmt.scanRecord, csvBody,
    scanField_comma (FieldText.of_digits (decimal_isDigit _)) (decimal_ne_nil _) (by omega)]
  dsimp only
  rw [scanChar_self, scanField_comma (FieldText.of_digits hdi) (List.length_pos_iff.mp (by omega))
    hli]
  dsimp only
  rw [scanChar_self, scanField_comma (FieldText.of_digits hdm) (List.length_pos_iff.mp (by omega))
    hlm]
  dsimp only
  rw [scanChar_self, scanField_comma (FieldText.of_validName h.name.cstr_valid)
    (List.length_pos_iff.mp hnn) hln]
  dsimp only
  rw [scanChar_self, scanField_comma (FieldText.of_validName h.region.cstr_valid)
    (List.length_pos_iff.mp hnr) hlr]
  dsimp only
  rw [scanChar_self, scanField_comma (FieldText.of_validName h.plan.cstr_valid)
    (List.length_pos_iff.mp hnp) hlp]
  dsimp only
  rw [scanChar_self, scanField_comma (fieldText_status _) hns (by omega)]
  dsimp only
  rw [scanChar_self, scanInt_time _ _ (by simp [comma, isDigit])]
  dsimp only
  rw [scanChar_self, hlast]
  rfl

theorem GoodRecord.loadLine {p : SStrPool} {s : Subscriber} (h : GoodRecord p s)
    (strs : SStrPool) (db : SubscriberDb) (now : Int64) (a : Alloc) :
    let r := subdbAdd strs db (some s.imsi.chars) (some s.msisdn.chars) (some (sstrCstr p s.name))
      (some (sstrCstr p s.region)) (some (sstrCstr p s.plan))
      (subStatusFromStr (subStatusToStr s.status)) true now a
    loadLine strs db (csvLine p s) now a = (r.outcome, r.strs, r.db) := by
  have hne : (csvBody p s).isEmpty = false := by simpa using csvBody_ne_nil p s
  simp only [SubscriberMgmt.loadLine, csvLine_eq, chompLine_line h.lineText, hne, h.scanRecord,
    h.imsi, h.msisdn, h.name.cstr_valid, h.region.cstr_valid, h.plan.cstr_valid, Bool.and_self,
    Bool.not_true, Bool.false_eq_true, if_false]

/-! ### The lines of the file -/

theorem fgetsAll_csvFile {p : SStrPool} {db : SubscriberDb}
    (h : ∀ n ∈ db.byId.nodes, GoodRecord p (db.mem n.value)) :
    fgetsAll (smMaxLineLen - 2) (csvFile p db) = csvHeader :: csvLines p db := by
  have hhead : csvHeader = csvHeader.dropLast ++ [newline] := by decide
  have hline : ∀ n : HtNode (KeyRef Block UInt64) Block,
      csvLine p (db.mem n.value) = csvBody p (db.mem n.value) ++ [newline] := fun n => csvLine_eq p _
  have hfile : csvFile p db = (csvHeader.dropLast ::
      db.byId.nodes.map fun n => csvBody p (db.mem n.value)).flatMap (· ++ [newline]) := by
    rw [List.flatMap_cons, ← hhead, List.flatMap_map, List.flatMap_def]
    simp only [csvFile, csvLines, hline]
  rw [hfile, fgetsAll_lines]
  · simp only [csvLines, hline, List.map_cons, List.map_map, Function.comp_def, ← hhead]
  · intro b hb
    rcases List.mem_cons.mp hb with rfl | hb
    · decide
    · obtain ⟨n, hn, rfl⟩ := List.mem_map.mp hb
      have hlen := (h n hn).line_length
      exact ⟨fun hnl => ((h n hn).lineText _ hnl).2 rfl, Nat.le_trans hlen (by decide)⟩

end SubscriberMgmt

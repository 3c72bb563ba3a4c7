import SubscriberMgmt.SubscriberIndex

/-!
# What a save leaves on the disk

The outcomes of `subdb_save_csv`, the file that a successful one writes, and
when the file under `path` is replaced in one step.
-/

namespace SubscriberMgmt

def csvLines (strs : SStrPool) (db : SubscriberDb) : List Str :=
  db.byId.nodes.map fun n => csvLine strs (db.mem n.value)

def csvFile (strs : SStrPool) (db : SubscriberDb) : Str :=
  csvHeader ++ (csvLines strs db).flatten

theorem csvLine_same {p p' : SStrPool} (h : p.SameTexts p') (s : Subscriber) :
    csvLine p' s = csvLine p s := by
  simp only [csvLine, h.cstr]

def headerStream (files : Str → Option Str) (path : Str) (io : SaveIo) : OutStream Str :=
  (OutStream.write ⟨(Disk.start files).set (tmpPath path) (some []), tmpPath path, []⟩ io.header
    csvHeader).2

inductive SaveCase (strs : SStrPool) (db : SubscriberDb) (path : Str) (io : SaveIo) (a : Alloc)
    (files : Str → Option Str) : SmStatus → Disk Str → Prop
  | notOpened (ho : io.openOk = false) :
      SaveCase strs db path io a files .errIo (Disk.start files)
  | headerFailed (ho : io.openOk = true) (hh : io.header.ok = false) :
      SaveCase strs db path io a files .errIo
        ((headerStream files path io).flush io.close).2.disk
  | listFailed (ho : io.openOk = true) (hh : io.header.ok = true)
      (hl : ¬ ∀ k < db.byId.nodes.length, AllocAt a k) :
      SaveCase strs db path io a files .errAllocFailed
        (((headerStream files path io).flush io.close).2.disk.remove io.cleanupOk
          (tmpPath path)).2
  | writeFailed {d : Disk Str} (ho : io.openOk = true) (hh : io.header.ok = true)
      (hl : ∀ k < db.byId.nodes.length, AllocAt a k)
      (hw : writeRecords (headerStream files path io) io (csvLines strs db) = (false, d)) :
      SaveCase strs db path io a files .errIo (d.remove io.cleanupOk (tmpPath path)).2
  | written {d : Disk Str} (ho : io.openOk = true) (hh : io.header.ok = true)
      (hl : ∀ k < db.byId.nodes.length, AllocAt a k)
      (hw : writeRecords (headerStream files path io) io (csvLines strs db) = (true, d)) :
      SaveCase strs db path io a files (replaceFile d io (tmpPath path) path).1
        (replaceFile d io (tmpPath path) path).2

theorem subdbSaveCsv_cases (strs : SStrPool) (db : SubscriberDb) (path : Str) (io : SaveIo)
    (a : Alloc) (files : Str → Option Str) :
    let r := subdbSaveCsv strs db (some path) io a (Disk.start files)
    SaveCase strs db path io a files r.1 r.2.2 := by
  simp only [subdbSaveCsv, Disk.openWrite]
  cases ho : io.openOk with
  | false => exact .notOpened ho
  | true =>
    simp only [if_true]
    rcases hw : OutStream.write
      ⟨(Disk.start files).set (tmpPath path) (some []), tmpPath path, []⟩ io.header csvHeader with
      ⟨ok, fp⟩
    have hfp : headerStream files path io = fp := by rw [headerStream, hw]
    have hok : io.header.ok = ok := congrArg Prod.fst hw
    subst hfp hok
    cases hh : io.header.ok with
    | false => exact .headerFailed ho hh
    | true =>
      rcases subdbListAll_cases strs db a with ⟨hl, strs', hsame, he⟩ | ⟨hl, strs', he⟩
      · have hlines : (db.byId.nodes.map fun n => db.mem n.value).map (csvLine strs') =
            csvLines strs db := by
          simp only [csvLines, List.map_map, Function.comp_def, csvLine_same hsame]
        simp only [he, hlines]
        rcases hr : writeRecords (headerStream files path io) io (csvLines strs db) with ⟨ok, d⟩
        cases ok with
        | false => exact .writeFailed ho hh hl hr
        | true => exact .written ho hh hl hr
      · simp only [he]
        exact .listFailed ho hh hl

/-! ### The file of a successful save -/

theorem writeRecords_ok_iff (fp : OutStream Str) (io : SaveIo) (lines : List Str) :
    (writeRecords fp io lines).1 = true ↔
      (∀ i < lines.length, (io.lines i).ok = true) ∧ io.flush.ok = true := by
  simp only [writeRecords, Bool.and_eq_true, OutStream.writeAll_ok_iff, OutStream.flush]
  apply and_congr_right
  intro _
  cases io.flush.ok <;> simp

theorem writeRecords_file {fp : OutStream Str} {io : SaveIo} {lines : List Str}
    (hok : (writeRecords fp io lines).1 = true) :
    (writeRecords fp io lines).2.files fp.path = some (fp.text ++ lines.flatten) := by
  have hall := (writeRecords_ok_iff fp io lines).mp hok
  have hw := OutStream.writeAll_text ((OutStream.writeAll_ok_iff fp io.lines lines).mpr hall.1)
  have hp := OutStream.writeAll_path fp io.lines lines
  obtain ⟨hfile, hpend⟩ := OutStream.flush_file (f := (fp.writeAll io.lines lines).2) hall.2
  have hpath := OutStream.flush_path (fp.writeAll io.lines lines).2 io.flush
  rw [hw, hp] at hfile
  rw [hp] at hpath
  have hlast := OutStream.flush_empty hpend (by rw [hpath]; exact hfile) io.close
  rw [hpath] at hlast
  exact hlast

theorem headerStream_text (files : Str → Option Str) (path : Str) (io : SaveIo) :
    (headerStream files path io).text = csvHeader := by
  rw [headerStream, OutStream.write_text]
  simp [OutStream.text, Disk.set]

theorem headerStream_path (files : Str → Option Str) (path : Str) (io : SaveIo) :
    (headerStream files path io).path = tmpPath path := rfl

theorem writeRecords_csvFile {files : Str → Option Str} {path : Str} {io : SaveIo}
    {strs : SStrPool} {db : SubscriberDb} {d : Disk Str}
    (hw : writeRecords (headerStream files path io) io (csvLines strs db) = (true, d)) :
    d.files (tmpPath path) = some (csvFile strs db) := by
  have h := writeRecords_file (congrArg Prod.fst hw)
  rwa [headerStream_text, headerStream_path, hw] at h

theorem tmpPath_eq_iff (path : Str) : tmpPath path = path ↔ path.length = 599 := by
  have hlit : (lit ".tmp").length = 4 := by decide
  constructor
  · intro h
    have hlen := congrArg List.length h
    simp only [tmpPath, List.length_take, List.length_append, hlit] at hlen
    omega
  · intro h
    rw [tmpPath, List.take_append_of_le_length (by omega), List.take_of_length_le (by omega)]

theorem remove_other {d : Disk Str} {tmp path c : Str} (hc : d.files tmp = some c) (ok : Bool)
    (hne : tmp ≠ path) : (d.remove ok path).2.files tmp = some c := by
  unfold Disk.remove
  split
  · exact hc
  · split
    · simp only [Disk.set, Function.update_of_ne hne]
      exact hc
    · exact hc

theorem rename_ok {d d' : Disk Str} {ok : Bool} {tmp path c : Str} (hc : d.files tmp = some c)
    (h : d.rename ok tmp path = (true, d')) : d'.files path = some c := by
  simp only [Disk.rename, hc] at h
  split at h
  · cases h
    simp
  · cases h

theorem rename_missing {d : Disk Str} (ok : Bool) {tmp path : Str} (hn : d.files tmp = none) :
    d.rename ok tmp path = (false, d) := by
  simp only [Disk.rename, hn]

theorem remove_self {d : Disk Str} {ok : Bool} {path : Str}
    (h : (d.remove ok path).1 ≠ .failed) : (d.remove ok path).2.files path = none := by
  unfold Disk.remove at h ⊢
  split at h
  · rename_i hn
    rw [if_pos hn]
    exact hn
  · rename_i hs
    rw [if_neg hs]
    split at h
    · rename_i hok
      rw [if_pos hok]
      simp [Disk.set]
    · exact absurd rfl h

theorem replaceFile_cases (d : Disk Str) (io : SaveIo) (tmp path : Str) :
    ((d.remove io.removeOk path).1 = .failed ∧ replaceFile d io tmp path =
        (.errIo, ((d.remove io.removeOk path).2.remove io.cleanupOk tmp).2)) ∨
      ((d.remove io.removeOk path).1 ≠ .failed ∧ ∃ d',
        (d.remove io.removeOk path).2.rename io.renameOk tmp path = (false, d') ∧
          replaceFile d io tmp path = (.errIo, (d'.remove io.cleanupOk tmp).2)) ∨
      ((d.remove io.removeOk path).1 ≠ .failed ∧ ∃ d',
        (d.remove io.removeOk path).2.rename io.renameOk tmp path = (true, d') ∧
          replaceFile d io tmp path = (.ok, d')) := by
  unfold replaceFile
  rcases d.remove io.removeOk path with ⟨res, d1⟩
  by_cases hres : res = .failed
  · subst hres
    exact Or.inl ⟨rfl, rfl⟩
  · rcases hr : d1.rename io.renameOk tmp path with ⟨ok, d'⟩
    cases ok with
    | false =>
      refine Or.inr (Or.inl ⟨hres, d', rfl, ?_⟩)
      cases res with
      | failed => exact absurd rfl hres
      | _ => simp only [hr]
    | true =>
      refine Or.inr (Or.inr ⟨hres, d', rfl, ?_⟩)
      cases res with
      | failed => exact absurd rfl hres
      | _ => simp only [hr]

theorem subdbSaveCsv_file {strs : SStrPool} {db : SubscriberDb} {path : Str} {io : SaveIo}
    {a : Alloc} {files : Str → Option Str}
    (hok : (subdbSaveCsv strs db (some path) io a (Disk.start files)).1 = .ok) :
    (subdbSaveCsv strs db (some path) io a (Disk.start files)).2.2.files path =
      some (csvFile strs db) := by
  have hcase := subdbSaveCsv_cases strs db path io a files
  simp only at hcase
  generalize subdbSaveCsv strs db (some path) io a (Disk.start files) = r at hok hcase ⊢
  obtain ⟨st, s, d'⟩ := r
  simp only at hok hcase ⊢
  subst hok
  generalize hst : SmStatus.ok = st at hcase
  cases hcase with
  | notOpened => cases hst
  | headerFailed => cases hst
  | listFailed => cases hst
  | writeFailed => cases hst
  | @written d ho hh hl hw =>
    have hc := writeRecords_csvFile hw
    rcases replaceFile_cases d io (tmpPath path) path with
      ⟨-, he⟩ | ⟨-, d1, -, he⟩ | ⟨hrm, d1, hren, he⟩
    · rw [he] at hst
      cases hst
    · rw [he] at hst
      cases hst
    · rw [he]
      by_cases hne : tmpPath path = path
      · -- the file to be renamed has just been removed
        have hgone := remove_self hrm
        rw [rename_missing _ (by rw [hne]; exact hgone)] at hren
        cases hren
      · exact rename_ok (remove_other hc _ hne) hren

theorem replaceFile_ok {d : Disk Str} {io : SaveIo} {tmp path c : Str}
    (hc : d.files tmp = some c) (hne : tmp ≠ path) (hremove : io.removeOk = true)
    (hrename : io.renameOk = true) : (replaceFile d io tmp path).1 = .ok := by
  have hkept := remove_other hc io.removeOk hne
  rcases replaceFile_cases d io tmp path with ⟨hf, -⟩ | ⟨-, d1, hren, -⟩ | ⟨-, d1, -, he⟩
  · rw [hremove] at hf
    unfold Disk.remove at hf
    split at hf <;> cases hf
  · rw [hrename] at hren
    simp only [Disk.rename, hkept] at hren
    cases hren
  · rw [he]

/-- Every file operation of a save succeeds. -/
structure SaveIo.Succeeds (io : SaveIo) : Prop where
  openOk : io.openOk = true
  header : io.header.ok = true
  lines : ∀ i, (io.lines i).ok = true
  flush : io.flush.ok = true
  removeOk : io.removeOk = true
  renameOk : io.renameOk = true

theorem SaveIo.all_succeeds : SaveIo.all.Succeeds := ⟨rfl, rfl, fun _ => rfl, rfl, rfl, rfl⟩

/-- A save whose file operations succeed only fails for lack of memory. -/
theorem subdbSaveCsv_succeeds (strs : SStrPool) (db : SubscriberDb) {path : Str}
    (hlen : path.length ≠ 599) {io : SaveIo} (hio : io.Succeeds) (a : Alloc)
    (files : Str → Option Str) :
    (subdbSaveCsv strs db (some path) io a (Disk.start files)).1 = .ok ∨
      ¬ (∀ k < db.byId.nodes.length, AllocAt a k) ∧
        (subdbSaveCsv strs db (some path) io a (Disk.start files)).2.2 =
          (((headerStream files path io).flush io.close).2.disk.remove io.cleanupOk
            (tmpPath path)).2 := by
  have hcase := subdbSaveCsv_cases strs db path io a files
  simp only at hcase
  generalize subdbSaveCsv strs db (some path) io a (Disk.start files) = r at hcase ⊢
  obtain ⟨st, s, d'⟩ := r
  simp only at hcase ⊢
  cases hcase with
  | notOpened ho =>
    rw [hio.openOk] at ho
    cases ho
  | headerFailed _ hh =>
    rw [hio.header] at hh
    cases hh
  | listFailed _ _ hl => exact Or.inr ⟨hl, rfl⟩
  | writeFailed _ _ _ hw =>
    have hok := (writeRecords_ok_iff (headerStream files path io) io (csvLines strs db)).mpr
      ⟨fun i _ => hio.lines i, hio.flush⟩
    rw [hw] at hok
    cases hok
  | written _ _ _ hw =>
    exact Or.inl (replaceFile_ok (writeRecords_csvFile hw)
      (fun he => hlen ((tmpPath_eq_iff path).mp he)) hio.removeOk hio.renameOk)

theorem subdbSaveCsv_all (strs : SStrPool) (db : SubscriberDb) {path : Str}
    (hlen : path.length ≠ 599) (files : Str → Option Str) :
    (subdbSaveCsv strs db (some path) SaveIo.all Alloc.all (Disk.start files)).1 = .ok :=
  (subdbSaveCsv_succeeds strs db hlen SaveIo.all_succeeds Alloc.all files).resolve_right
    fun h => h.1 fun _ _ => ⟨fun _ => rfl, rfl⟩

/-! ### Atomic replacement -/

/-- `path` holds its old or the complete new content at every moment, and the
old one at the end if the call reports an error. -/
def SavedAtomically (old : Option Str) (new path : Str) (st : SmStatus) (d : Disk Str) : Prop :=
  (∀ m ∈ d.moments, m path = old ∨ m path = some new) ∧ (st ≠ .ok → d.files path = old)

theorem savedAtomically_of_steady {old : Option Str} {new path : Str} {st : SmStatus}
    {d : Disk Str} (h : d.Steady path old) : SavedAtomically old new path st d :=
  ⟨fun m hm => Or.inl (h m hm), fun _ => h.now⟩

def ReachesRemove (db : SubscriberDb) (io : SaveIo) (a : Alloc) : Prop :=
  io.openOk = true ∧ io.header.ok = true ∧ (∀ k < db.byId.nodes.length, AllocAt a k) ∧
    (∀ i < db.byId.nodes.length, (io.lines i).ok = true) ∧ io.flush.ok = true

theorem headerStream_steady {files : Str → Option Str} {path q : Str} (hne : q ≠ tmpPath path)
    (io : SaveIo) : (headerStream files path io).disk.Steady q (files q) :=
  OutStream.write_steady (f := ⟨_, tmpPath path, []⟩) ((Disk.start_steady files q).set hne) hne _ _

theorem writeRecords_steady {fp : OutStream Str} {path : Str} {old : Option Str}
    (h : fp.disk.Steady path old) (hne : path ≠ fp.path) (io : SaveIo) (lines : List Str) :
    (writeRecords fp io lines).2.Steady path old := by
  have h1 := OutStream.writeAll_steady h hne io.lines lines
  have p1 := OutStream.writeAll_path fp io.lines lines
  have h2 := OutStream.flush_steady h1 (by rw [p1]; exact hne) io.flush
  have p2 := OutStream.flush_path (fp.writeAll io.lines lines).2 io.flush
  exact OutStream.flush_steady h2 (by rw [p2, p1]; exact hne) io.close

theorem csvLines_length (strs : SStrPool) (db : SubscriberDb) :
    (csvLines strs db).length = db.byId.nodes.length := List.length_map _

section Replace

variable {path new : Str} {io : SaveIo} {d : Disk Str}

/-- With nothing to remove, the rename is the only change under `path`. -/
theorem replaceFile_nothing_there (hne : tmpPath path ≠ path) (hd : d.Steady path none)
    (hc : d.files (tmpPath path) = some new) :
    SavedAtomically none new path (replaceFile d io (tmpPath path) path).1
      (replaceFile d io (tmpPath path) path).2 := by
  have hcases := replaceFile_cases d io (tmpPath path) path
  have hrm : d.remove io.removeOk path = (.noEntry, d) := by
    simp only [Disk.remove, hd.now, if_true]
  rw [hrm] at hcases
  rcases hcases with ⟨hf, -⟩ | ⟨-, d', hren, he⟩ | ⟨-, d', hren, he⟩
  · cases hf
  · rw [he]
    have hd' : d' = d := by
      simp only [Disk.rename, hc] at hren
      split at hren <;> cases hren
      rfl
    rw [hd']
    exact savedAtomically_of_steady (hd.remove (Ne.symm hne) _)
  · rw [he]
    refine ⟨fun m hm => ?_, fun hst => absurd rfl hst⟩
    have hnew := rename_ok hc hren
    have hpast : d'.past = d.moments := by
      simp only [Disk.rename, hc] at hren
      split at hren <;> cases hren
      rfl
    rcases List.mem_cons.mp hm with rfl | hm
    · exact Or.inr hnew
    · rw [hpast] at hm
      exact Or.inl (hd m hm)

theorem replaceFile_not_removed {c : Str} (hne : tmpPath path ≠ path)
    (hd : d.Steady path (some c)) (hrem : io.removeOk = false) :
    SavedAtomically (some c) new path (replaceFile d io (tmpPath path) path).1
      (replaceFile d io (tmpPath path) path).2 := by
  have hcases := replaceFile_cases d io (tmpPath path) path
  have hrm : d.remove io.removeOk path = (.failed, d) := by
    simp [Disk.remove, hd.now, hrem]
  rw [hrm] at hcases
  rcases hcases with ⟨-, he⟩ | ⟨hf, -⟩ | ⟨hf, -⟩
  · rw [he]
    exact savedAtomically_of_steady (hd.remove (Ne.symm hne) _)
  · exact absurd rfl hf
  · exact absurd rfl hf

/-- Between the removal and the rename there is nothing under `path`. -/
theorem replaceFile_gap {c : Str} (hd : d.Steady path (some c)) (hrem : io.removeOk = true) :
    ¬ SavedAtomically (some c) new path (replaceFile d io (tmpPath path) path).1
      (replaceFile d io (tmpPath path) path).2 := by
  intro hsaved
  have hcases := replaceFile_cases d io (tmpPath path) path
  have hrm : d.remove io.removeOk path = (.removed, d.set path none) := by
    simp [Disk.remove, hd.now, hrem]
  rw [hrm] at hcases
  have hmem : (d.set path none).files ∈ (replaceFile d io (tmpPath path) path).2.moments := by
    have hgap := Disk.moments_rename (Disk.files_mem_moments (d.set path none)) io.renameOk
      (tmpPath path) path
    rcases hcases with ⟨hf, -⟩ | ⟨-, d', hren, he⟩ | ⟨-, d', hren, he⟩
    · cases hf
    · rw [hren] at hgap
      rw [he]
      exact Disk.moments_remove hgap _ _
    · rw [hren] at hgap
      rw [he]
      exact hgap
  have hnone : (d.set path none).files path = none := by simp [Disk.set]
  rcases hsaved.1 _ hmem with h | h <;> simp [hnone] at h

theorem replaceFile_other_tmp {db : SubscriberDb} {a : Alloc} {old : Option Str}
    (hne : tmpPath path ≠ path) (hd : d.Steady path old)
    (hc : d.files (tmpPath path) = some new) (hreach : ReachesRemove db io a) :
    SavedAtomically old new path (replaceFile d io (tmpPath path) path).1
        (replaceFile d io (tmpPath path) path).2 ↔
      old = none ∨ ¬ ReachesRemove db io a ∨ io.removeOk = false := by
  cases old with
  | none => exact iff_of_true (replaceFile_nothing_there hne hd hc) (Or.inl rfl)
  | some c =>
    cases hrem : io.removeOk with
    | false => exact iff_of_true (replaceFile_not_removed hne hd hrem) (Or.inr (Or.inr rfl))
    | true =>
      refine iff_of_false (replaceFile_gap hd hrem) ?_
      intro h
      obtain h | h | h := h
      · cases h
      · exact h hreach
      · cases h

end Replace

theorem save_other_tmp (strs : SStrPool) (db : SubscriberDb) {path : Str}
    (hne : tmpPath path ≠ path) (io : SaveIo) (a : Alloc) (files : Str → Option Str) :
    let r := subdbSaveCsv strs db (some path) io a (Disk.start files)
    SavedAtomically (files path) (csvFile strs db) path r.1 r.2.2 ↔
      files path = none ∨ ¬ ReachesRemove db io a ∨ io.removeOk = false := by
  have hcase := subdbSaveCsv_cases strs db path io a files
  simp only at hcase ⊢
  have hhead : (headerStream files path io).disk.Steady path (files path) :=
    headerStream_steady (Ne.symm hne) io
  have hpath : path ≠ (headerStream files path io).path := Ne.symm hne
  generalize subdbSaveCsv strs db (some path) io a (Disk.start files) = r at hcase ⊢
  obtain ⟨st, s, d'⟩ := r
  simp only at hcase ⊢
  cases hcase with
  | notOpened ho =>
    apply iff_of_true (savedAtomically_of_steady (Disk.start_steady files path))
    exact Or.inr (Or.inl fun h => Bool.false_ne_true (ho.symm.trans h.1))
  | headerFailed ho hh =>
    apply iff_of_true (savedAtomically_of_steady (OutStream.flush_steady hhead hpath _))
    exact Or.inr (Or.inl fun h => Bool.false_ne_true (hh.symm.trans h.2.1))
  | listFailed ho hh hl =>
    refine iff_of_true (savedAtomically_of_steady
      ((OutStream.flush_steady hhead hpath _).remove (Ne.symm hne) _)) ?_
    exact Or.inr (Or.inl fun h => hl h.2.2.1)
  | @writeFailed d ho hh hl hw =>
    have hd := writeRecords_steady hhead hpath io (csvLines strs db)
    rw [hw] at hd
    apply iff_of_true (savedAtomically_of_steady (hd.remove (Ne.symm hne) _))
    refine Or.inr (Or.inl fun h => ?_)
    have hok := (writeRecords_ok_iff (headerStream files path io) io (csvLines strs db)).mpr
      ⟨by rw [csvLines_length]; exact h.2.2.2.1, h.2.2.2.2⟩
    rw [hw] at hok
    cases hok
  | @written d ho hh hl hw =>
    have hd := writeRecords_steady hhead hpath io (csvLines strs db)
    have hreach : ReachesRemove db io a := by
      have hok := (writeRecords_ok_iff (headerStream files path io) io (csvLines strs db)).mp
        (congrArg Prod.fst hw)
      rw [csvLines_length] at hok
      exact ⟨ho, hh, hl, hok.1, hok.2⟩
    have hc := writeRecords_csvFile hw
    rw [hw] at hd
    exact replaceFile_other_tmp hne hd hc hreach

/-! ### Other files -/

theorem replaceFile_steady {d : Disk Str} {tmp path q : Str} {old : Option Str}
    (h : d.Steady q old) (htmp : q ≠ tmp) (hpath : q ≠ path) (io : SaveIo) :
    (replaceFile d io tmp path).2.Steady q old := by
  have hrm := h.remove hpath io.removeOk
  have hren := hrm.rename htmp hpath io.renameOk
  rcases replaceFile_cases d io tmp path with ⟨-, he⟩ | ⟨-, d', he', he⟩ | ⟨-, d', he', he⟩
  · rw [he]
    exact hrm.remove htmp _
  · rw [he]
    rw [he'] at hren
    exact hren.remove htmp _
  · rw [he]
    rw [he'] at hren
    exact hren

/-- A save leaves every file but `path` and its temporary file alone. -/
theorem subdbSaveCsv_other (strs : SStrPool) (db : SubscriberDb) {path q : Str} (hpath : q ≠ path)
    (htmp : q ≠ tmpPath path) (io : SaveIo) (a : Alloc) (files : Str → Option Str) :
    (subdbSaveCsv strs db (some path) io a (Disk.start files)).2.2.files q = files q := by
  have hhead : (headerStream files path io).disk.Steady q (files q) := headerStream_steady htmp io
  have hclosed := OutStream.flush_steady hhead htmp io.close
  have hcase := subdbSaveCsv_cases strs db path io a files
  simp only at hcase
  generalize subdbSaveCsv strs db (some path) io a (Disk.start files) = r at hcase ⊢
  obtain ⟨st, s, d'⟩ := r
  simp only at hcase ⊢
  cases hcase with
  | notOpened => rfl
  | headerFailed => exact hclosed.now
  | listFailed => exact (hclosed.remove htmp _).now
  | writeFailed _ _ _ hw =>
    have hd := writeRecords_steady hhead htmp io (csvLines strs db)
    rw [hw] at hd
    exact (hd.remove htmp _).now
  | written _ _ _ hw =>
    have hd := writeRecords_steady hhead htmp io (csvLines strs db)
    rw [hw] at hd
    exact (replaceFile_steady hd htmp hpath io).now

/-- Nor does one that fails for lack of memory change `path`. -/
theorem subdbSaveCsv_ok_or_kept (strs : SStrPool) (db : SubscriberDb) {path : Str}
    (hlen : path.length ≠ 599) {io : SaveIo} (hio : io.Succeeds) (a : Alloc)
    (files : Str → Option Str) :
    (subdbSaveCsv strs db (some path) io a (Disk.start files)).1 = .ok ∨
      (subdbSaveCsv strs db (some path) io a (Disk.start files)).2.2.files path = files path := by
  have htmp : path ≠ tmpPath path := fun he => hlen ((tmpPath_eq_iff path).mp he.symm)
  apply (subdbSaveCsv_succeeds strs db hlen hio a files).imp_right
  intro h
  rw [h.2]
  exact ((OutStream.flush_steady (headerStream_steady htmp io) htmp io.close).remove htmp _).now

/-- What a save does to the string pool. -/
theorem SStrPool.Tracks.saveCsv {R : SStrPool → SStrPool → Prop} (t : SStrPool.Tracks R)
    (p : SStrPool) (db : SubscriberDb) (path : Option Str) (io : SaveIo) (a : Alloc)
    (d : Disk Str) : R p (subdbSaveCsv p db path io a d).2.1 := by
  have hlist := t.filteredSearch p db (fun _ _ => true) a
  unfold subdbSaveCsv
  split
  case h_1 => exact t.refl p
  case h_2 path =>
    dsimp only
    split
    case h_1 => exact t.refl p
    case h_2 fp hopen =>
      split
      case h_1 => exact t.refl p
      case h_2 fp' hwrite =>
        have hall : R p (subdbListAll p db a).2 := hlist
        split
        case h_1 st strs he =>
          rw [he] at hall
          exact hall
        case h_2 all strs he =>
          rw [he] at hall
          have hfree := t.trans hall (t.freeResults strs all)
          split <;> exact hfree

/-! ### A path that is its own temporary file -/

def NothingWritten (db : SubscriberDb) (io : SaveIo) (a : Alloc) : Prop :=
  io.header.reach = 0 ∧ (io.close.ok = false ∧ io.close.reach = 0) ∧
    (io.header.ok = false ∨ io.cleanupOk = false ∧
      ((¬ ∀ k < db.byId.nodes.length, AllocAt a k) ∨
        OutStream.QuietWrites io.lines db.byId.nodes.length ∧
          io.flush.ok = false ∧ io.flush.reach = 0))

theorem csvHeader_ne_nil : csvHeader ≠ [] := by decide

theorem headerStream_phase {files : Str → Option Str} {path : Str} (he : tmpPath path = path)
    (hold : files path = some []) (io : SaveIo) :
    (headerStream files path io).Phase (io.header.reach = 0) := by
  have hidle : OutStream.Idle
      ⟨(Disk.start files).set (tmpPath path) (some []), tmpPath path, csvHeader⟩ := by
    refine ⟨fun m hm => ?_, csvHeader_ne_nil⟩
    rcases List.mem_cons.mp hm with rfl | hm
    · simp [Disk.set]
    · rw [List.mem_singleton.mp hm]
      simp only [he]
      exact hold
  exact hidle.drain io.header.reach

theorem writeRecords_phase {fp : OutStream Str} {q : Prop} (h : fp.Phase q) (io : SaveIo)
    (lines : List Str) :
    (((q ∧ OutStream.QuietWrites io.lines lines.length) ∧ io.flush.ok = false ∧
          io.flush.reach = 0) ∧ io.close.ok = false ∧ io.close.reach = 0) ∧
        (writeRecords fp io lines).2.Steady fp.path (some []) ∨
      ¬ (((q ∧ OutStream.QuietWrites io.lines lines.length) ∧ io.flush.ok = false ∧
          io.flush.reach = 0) ∧ io.close.ok = false ∧ io.close.reach = 0) ∧
        ∃ c, c ≠ [] ∧ (writeRecords fp io lines).2.files fp.path = some c := by
  have hfile := (((h.writeAll io.lines lines).flush io.flush).flush io.close).file
  rw [OutStream.flush_path, OutStream.flush_path, OutStream.writeAll_path] at hfile
  exact hfile

theorem cleanup_phase {q : Prop} {d : Disk Str} {path : Str}
    (h : (q ∧ d.Steady path (some [])) ∨ (¬ q ∧ ∃ c, c ≠ [] ∧ d.files path = some c))
    (ok : Bool) :
    ((ok = false ∧ q) ∧ (d.remove ok path).2.Steady path (some [])) ∨
      (¬ (ok = false ∧ q) ∧ (d.remove ok path).2.files path ≠ some []) := by
  cases ok with
  | true =>
    refine Or.inr ⟨by simp, ?_⟩
    have hne : (d.remove true path).1 ≠ .failed := by
      unfold Disk.remove
      split <;> simp
    rw [remove_self hne]
    simp
  | false =>
    have hsame : (d.remove false path).2 = d := by
      unfold Disk.remove
      split <;> simp
    rw [hsame]
    rcases h with ⟨hq, hs⟩ | ⟨hq, c, hc, hf⟩
    · exact Or.inl ⟨⟨rfl, hq⟩, hs⟩
    · refine Or.inr ⟨fun h => hq h.2, ?_⟩
      rw [hf]
      simpa using hc

theorem csvFile_ne_nil (strs : SStrPool) (db : SubscriberDb) : csvFile strs db ≠ [] := by
  simp [csvFile, csvHeader_ne_nil]

theorem replaceFile_moments {d : Disk Str} {m : Str → Option Str} (hm : m ∈ d.moments)
    (io : SaveIo) (tmp path : Str) : m ∈ (replaceFile d io tmp path).2.moments := by
  have h1 := Disk.moments_remove hm io.removeOk path
  have h2 := Disk.moments_rename h1 io.renameOk tmp path
  rcases replaceFile_cases d io tmp path with ⟨-, he⟩ | ⟨-, d', hren, he⟩ | ⟨-, d', hren, he⟩
  · rw [he]
    exact Disk.moments_remove h1 _ _
  · rw [hren] at h2
    rw [he]
    exact Disk.moments_remove h2 _ _
  · rw [hren] at h2
    rw [he]
    exact h2

theorem replaceFile_same_tmp {d : Disk Str} {path c : Str} (hc : d.files path = some c)
    (hne : c ≠ []) (io : SaveIo) :
    (replaceFile d io path path).1 ≠ .ok ∧ (replaceFile d io path path).2.files path ≠ some [] := by
  rcases replaceFile_cases d io path path with ⟨hf, he⟩ | ⟨hf, d', hren, he⟩ | ⟨hf, d', hren, he⟩
  · have hsame : (d.remove io.removeOk path).2 = d := by
      unfold Disk.remove at hf ⊢
      split at hf
      · cases hf
      · split at hf
        · cases hf
        · rename_i h1 h2
          rw [if_neg h1, if_neg h2]
    rw [he, hsame]
    rcases cleanup_phase (q := False) (Or.inr ⟨not_false, c, hne, hc⟩) io.cleanupOk with
      ⟨⟨-, hf⟩, -⟩ | ⟨-, hlast⟩
    · exact hf.elim
    · exact ⟨fun h => (by cases h), hlast⟩
  · have hgone := remove_self hf
    rw [rename_missing _ hgone] at hren
    cases hren
    rw [he]
    refine ⟨fun h => (by cases h), ?_⟩
    generalize (d.remove io.removeOk path).2 = d1 at hgone ⊢
    simp [Disk.remove, hgone]
  · rw [rename_missing _ (remove_self hf)] at hren
    cases hren

theorem SaveCase.open_moment {strs : SStrPool} {db : SubscriberDb} {path : Str} {io : SaveIo}
    {a : Alloc} {files : Str → Option Str} {st : SmStatus} {d : Disk Str}
    (h : SaveCase strs db path io a files st d) (ho : io.openOk = true) :
    ((Disk.start files).set (tmpPath path) (some [])).files ∈ d.moments := by
  have hm : ((Disk.start files).set (tmpPath path) (some [])).files ∈
      (headerStream files path io).disk.moments :=
    OutStream.drain_moments (f := ⟨_, _, csvHeader⟩) (Disk.files_mem_moments _) _
  have hrec : ∀ lines, ((Disk.start files).set (tmpPath path) (some [])).files ∈
      (writeRecords (headerStream files path io) io lines).2.moments := fun lines =>
    OutStream.flush_moments (OutStream.flush_moments (OutStream.writeAll_moments hm _ _) _) _
  cases h with
  | notOpened h => exact absurd (ho.symm.trans h) (by decide)
  | headerFailed => exact OutStream.flush_moments hm _
  | listFailed => exact Disk.moments_remove (OutStream.flush_moments hm _) _ _
  | writeFailed _ _ _ hw =>
    have h := hrec (csvLines strs db)
    rw [hw] at h
    exact Disk.moments_remove h _ _
  | written _ _ _ hw =>
    have h := hrec (csvLines strs db)
    rw [hw] at h
    exact replaceFile_moments h _ _ _

theorem SaveCase.same_tmp {strs : SStrPool} {db : SubscriberDb} {path : Str} {io : SaveIo}
    {a : Alloc} {files : Str → Option Str} {st : SmStatus} {d : Disk Str}
    (h : SaveCase strs db path io a files st d) (he : tmpPath path = path)
    (hold : files path = some []) (ho : io.openOk = true) :
    st ≠ .ok ∧ ((NothingWritten db io a ∧ d.Steady path (some [])) ∨
      (¬ NothingWritten db io a ∧ d.files path ≠ some [])) := by
  have hphase := headerStream_phase he hold io
  have hpath : (headerStream files path io).path = path := he
  have hclose := (hphase.flush io.close).file
  rw [OutStream.flush_path, hpath] at hclose
  have hrec := writeRecords_phase hphase io (csvLines strs db)
  rw [hpath, csvLines_length] at hrec
  cases h with
  | notOpened h => exact absurd (ho.symm.trans h) (by decide)
  | headerFailed _ hh =>
    refine ⟨by decide, ?_⟩
    rcases hclose with ⟨hq, hs⟩ | ⟨hq, c, hc, hf⟩
    · exact Or.inl ⟨⟨hq.1, hq.2, Or.inl hh⟩, hs⟩
    · refine Or.inr ⟨fun hn => hq ⟨hn.1, hn.2.1⟩, ?_⟩
      rw [hf]
      simpa using hc
  | listFailed _ hh hl =>
    refine ⟨by decide, ?_⟩
    rw [he]
    rcases cleanup_phase hclose io.cleanupOk with ⟨hq, hs⟩ | ⟨hq, hf⟩
    · exact Or.inl ⟨⟨hq.2.1, hq.2.2, Or.inr ⟨hq.1, Or.inl hl⟩⟩, hs⟩
    · refine Or.inr ⟨fun hn => ?_, hf⟩
      rcases hn.2.2 with h | h
      · exact absurd (hh.symm.trans h) (by decide)
      · exact hq ⟨h.1, hn.1, hn.2.1⟩
  | writeFailed _ hh hl hw =>
    refine ⟨by decide, ?_⟩
    rw [hw] at hrec
    rw [he]
    rcases cleanup_phase hrec io.cleanupOk with ⟨hq, hs⟩ | ⟨hq, hf⟩
    · exact Or.inl ⟨⟨hq.2.1.1.1, hq.2.2, Or.inr ⟨hq.1, Or.inr ⟨hq.2.1.1.2, hq.2.1.2⟩⟩⟩, hs⟩
    · refine Or.inr ⟨fun hn => ?_, hf⟩
      rcases hn.2.2 with h | ⟨h, h' | h'⟩
      · exact absurd (hh.symm.trans h) (by decide)
      · exact h' hl
      · exact hq ⟨h, ⟨⟨hn.1, h'.1⟩, h'.2⟩, hn.2.1⟩
  | @written d ho hh hl hw =>
    have hc := writeRecords_csvFile hw
    have hend := replaceFile_same_tmp (he ▸ hc) (csvFile_ne_nil strs db) io
    rw [he]
    refine ⟨hend.1, Or.inr ⟨fun hn => ?_, hend.2⟩⟩
    have hflush := ((writeRecords_ok_iff _ io (csvLines strs db)).mp (congrArg Prod.fst hw)).2
    rcases hn.2.2 with h | ⟨-, h | h⟩
    · exact absurd (hh.symm.trans h) (by decide)
    · exact h hl
    · exact absurd (hflush.symm.trans h.2.1) (by decide)

theorem save_same_tmp (strs : SStrPool) (db : SubscriberDb) {path : Str}
    (he : tmpPath path = path) (io : SaveIo) (a : Alloc) (files : Str → Option Str) :
    let r := subdbSaveCsv strs db (some path) io a (Disk.start files)
    SavedAtomically (files path) (csvFile strs db) path r.1 r.2.2 ↔
      io.openOk = false ∨ (files path = some [] ∧ NothingWritten db io a) := by
  have hcase := subdbSaveCsv_cases strs db path io a files
  simp only at hcase ⊢
  generalize subdbSaveCsv strs db (some path) io a (Disk.start files) = r at hcase ⊢
  obtain ⟨st, s, d⟩ := r
  simp only at hcase ⊢
  cases ho : io.openOk with
  | false =>
    refine iff_of_true ?_ (Or.inl rfl)
    cases hcase with
    | notOpened => exact savedAtomically_of_steady (Disk.start_steady files path)
    | headerFailed h => exact absurd (ho.symm.trans h) (by decide)
    | listFailed h => exact absurd (ho.symm.trans h) (by decide)
    | writeFailed h => exact absurd (ho.symm.trans h) (by decide)
    | written h => exact absurd (ho.symm.trans h) (by decide)
  | true =>
    simp only [reduceCtorEq, false_or]
    constructor
    · intro hsaved
      have hnow : ((Disk.start files).set (tmpPath path) (some [])).files path = some [] := by
        rw [he]
        simp [Disk.set]
      have hold : files path = some [] := by
        rcases hsaved.1 _ (hcase.open_moment ho) with h | h
        · exact h.symm.trans hnow
        · rw [hnow] at h
          exact absurd (Option.some.inj h).symm (csvFile_ne_nil strs db)
      obtain ⟨hst, ⟨hn, -⟩ | ⟨-, hf⟩⟩ := hcase.same_tmp he hold ho
      · exact ⟨hold, hn⟩
      · exact absurd ((hsaved.2 hst).trans hold) hf
    · intro h
      obtain ⟨hold, hn⟩ := h
      obtain ⟨-, ⟨-, hs⟩ | ⟨hn', -⟩⟩ := hcase.same_tmp he hold ho
      · rw [hold]
        exact savedAtomically_of_steady hs
      · exact absurd hn hn'

/-- A save is atomic exactly when `path` does not exist before, or the call
fails at or before the `remove(path)`. A path of 599 bytes is its own temporary
file; there the save has to stop before it opens it or do nothing to an empty
file. -/
theorem subdb_save_atomic_iff (strs : SStrPool) (db : SubscriberDb) (path : Str) (io : SaveIo)
    (a : Alloc) (files : Str → Option Str) :
    let r := subdbSaveCsv strs db (some path) io a (Disk.start files)
    SavedAtomically (files path) (csvFile strs db) path r.1 r.2.2 ↔
      if path.length = 599 then io.openOk = false ∨ (files path = some [] ∧ NothingWritten db io a)
      else files path = none ∨ ¬ ReachesRemove db io a ∨ io.removeOk = false := by
  split
  · rename_i h
    exact save_same_tmp strs db ((tmpPath_eq_iff path).mpr h) io a files
  · rename_i h
    exact save_other_tmp strs db (fun he => h ((tmpPath_eq_iff path).mp he)) io a files

/-- The removal succeeds and the rename fails: the old file and the temporary
file are both gone. -/
theorem subdb_save_loses_file :
    ∃ db, subdbCreate Alloc.all = .ok db ∧
      let files := Function.update (fun _ => none) (lit "s.csv") (some (lit "old"))
      let io := { SaveIo.all with renameOk := false }
      let r := subdbSaveCsv SStrPool.start db (some (lit "s.csv")) io Alloc.all (Disk.start files)
      (r.1 = .errIo ∧ r.2.2.files (lit "s.csv") = none ∧
          r.2.2.files (lit "s.csv.tmp") = none) ∧
        ¬ SavedAtomically (files (lit "s.csv")) (csvFile SStrPool.start db) (lit "s.csv")
          r.1 r.2.2 := by
  refine ⟨_, rfl, ⟨?_, ?_, ?_⟩, fun hsaved => ?_⟩
  · decide +kernel
  · decide +kernel
  · decide +kernel
  · exact absurd (hsaved.2 (by decide +kernel)) (by decide +kernel)

end SubscriberMgmt

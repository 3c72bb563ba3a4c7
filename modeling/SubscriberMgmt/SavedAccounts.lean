import SubscriberMgmt.CsvRestart
import SubscriberMgmt.SubscriberStatuses

/-!
# The accounts that a saved file gives back

Each status that comes in through an entry point has a word in the file, and the
keys of records differ. So a program that starts with the file of a save has the
accounts that were saved, under new ids.
-/

namespace SubscriberMgmt

/-! ### Statuses -/

/-- Every status is one that the file has a word for. -/
def Worded (db : SubscriberDb) : Prop := ∀ x ∈ db.records, x.status.IsEnumerator

theorem entryStep_worded {s : DbState} (hs : GoodState s) (h : Worded s.2) {e : Entry}
    (he : ∀ w ∈ e.word, w.read.IsEnumerator) : Worded (entryStep s e).1.2 := by
  intro x hx
  rcases entryStep_explains hs e x hx with ⟨y, hy, -, hst, -⟩ | ⟨w, hw, -, -, hst⟩
  · rw [← hst]
    exact h y hy
  · rw [hst]
    exact he w hw

theorem lineEntries_worded {piece : Str} {now : Int64} {a : Alloc} :
    ∀ e ∈ lineEntries piece now a, ∀ w ∈ e.word, w.read.IsEnumerator := by
  intro e he w hw
  unfold lineEntries at he
  dsimp only at he
  split at he
  · cases he
  · obtain ⟨f, -, rfl⟩ := List.mem_map.mp he
    cases hw
    exact subStatusFromStr_enumerator _

theorem fileEntries_worded {clock : ℕ → Int64} {a : Alloc} (i : ℕ) (pieces : List Str) :
    ∀ e ∈ fileEntries clock a i pieces, ∀ w ∈ e.word, w.read.IsEnumerator := by
  induction pieces generalizing i with
  | nil =>
    intro e he
    cases he
  | cons piece pieces ih =>
    intro e he
    rcases List.mem_append.mp he with he | he
    · exact lineEntries_worded e he
    · exact ih (i + 1) e he

/-- No entry point reads a word as anything else. -/
theorem StatusOp.entries_worded (op : StatusOp) :
    ∀ e ∈ op.entries, ∀ w ∈ e.word, w.read.IsEnumerator := by
  intro e he w hw
  cases op with
  | add args now a =>
    obtain ⟨f, -, rfl⟩ := List.mem_map.mp he
    cases hw
    exact subStatusFromStr_enumerator _
  | cliAdd =>
    cases List.mem_singleton.mp he
    cases hw
    trivial
  | cliUpdate =>
    cases List.mem_singleton.mp he
    obtain ⟨text, -, rfl⟩ := Option.map_eq_some_iff.mp hw
    exact subStatusFromStr_enumerator _
  | load path files clock a =>
    simp only [StatusOp.entries] at he
    split at he
    · split at he
      · cases he
      · exact fileEntries_worded 0 _ e he w hw
    · cases he
  | other op hop =>
    cases List.mem_singleton.mp he
    cases hw

/-- Every record is written so that it is read again. -/
structure Saveable (s : DbState) : Prop where
  good : GoodState s
  worded : Worded s.2

theorem Saveable.entries {s : DbState} (h : Saveable s) {es : List Entry}
    (hes : ∀ e ∈ es, ∀ w ∈ e.word, w.read.IsEnumerator) :
    Saveable (Machine.final entryStep s es) := by
  induction es generalizing s with
  | nil => exact h
  | cons e es ih =>
    rw [Machine.final_cons]
    apply ih
    · exact ⟨entryStep_good h.good e,
        entryStep_worded h.good h.worded (hes e (List.mem_cons_self ..))⟩
    · exact fun e' he' => hes e' (List.mem_cons_of_mem _ he')

theorem Saveable.run {s : DbState} (h : Saveable s) (op : StatusOp) : Saveable (op.run s) := by
  rw [StatusOp.run_entries]
  exact h.entries op.entries_worded

theorem Saveable.strings {p p' : SStrPool} {db : SubscriberDb} (h : Saveable (p, db))
    (hk : p.Keeps p') : Saveable (p', db) := ⟨h.good.keeps hk, h.worded⟩

theorem startUp_saveable {prog : Program} {path : Str} {opened : Str → Option Str}
    {i : StartInput} {s : DbState} (h : startUp prog path opened i = some s) : Saveable s := by
  obtain ⟨db, hdb, hp, rfl⟩ := startUp_cases h
  have hnone : db.records = [] :=
    List.perm_nil.mp (subdbCreate_inv hdb).indexed.records_perm
  have hnew : Saveable ((sstrPoolInit SStrPool.start 1024 i.pool).2, db) := by
    refine ⟨(GoodAfter.create hp hdb).good, fun x hx => ?_⟩
    rw [hnone] at hx
    cases hx
  have hrun := hnew.run (.load (some path) opened i.clock i.load)
  exact hrun

/-! ### Accounts across a restart -/

/-- The accounts of a database, without their ids. -/
def dbAccounts (s : DbState) : List SubscriberFields := (dbContents s).map Prod.snd

def SubscriberFields.Apart (r k : SubscriberFields) : Prop := r.imsi ≠ k.imsi ∧ r.msisdn ≠ k.msisdn

/-- Of records with different keys none is left out. -/
theorem newRecords_apart {rs : List SubscriberFields} (h : rs.Pairwise SubscriberFields.Apart) :
    newRecords rs = rs.reverse := by
  have hfold : ∀ (l kept : List SubscriberFields), l.Pairwise SubscriberFields.Apart →
      (∀ k ∈ kept, ∀ r ∈ l, k.Apart r) → l.foldl addNew kept = l.reverse ++ kept := by
    intro l
    induction l with
    | nil => exact fun kept _ _ => rfl
    | cons r l ih =>
      intro kept hl hkept
      obtain ⟨hr, hl⟩ := List.pairwise_cons.mp hl
      have hno : ¬ r.Clashes kept := by
        intro hclash
        obtain ⟨k, hk, heq⟩ := hclash
        have hapart := hkept k hk r (List.mem_cons_self ..)
        exact heq.elim hapart.1 hapart.2
      rw [List.foldl_cons, addNew, if_neg hno, ih _ hl, List.reverse_cons, List.append_assoc,
        List.singleton_append]
      intro k hk k' hk'
      rcases List.mem_cons.mp hk with rfl | hk
      · exact hr k' hk'
      · exact hkept k hk k' (List.mem_cons_of_mem _ hk')
  rw [newRecords, hfold rs [] h (fun _ hk => absurd hk List.not_mem_nil), List.append_nil]

section Restart

variable {s : DbState} {base bound : ℕ} {listed live : List Block}

theorem DbInv.listed_live (h : DbInv s.2 base listed live bound) {x : Subscriber}
    (hx : x ∈ dbRecords s.2) : ∃ b ∈ live, s.2.mem b = x := by
  obtain ⟨b, hb, rfl⟩ := List.mem_map.mp (h.records.mem_iff.mp hx)
  exact ⟨b, h.indexed.sub b hb, rfl⟩

theorem DbInv.accounts_apart (h : DbInv s.2 base listed live bound) :
    (dbAccounts s).Pairwise SubscriberFields.Apart := by
  simp only [dbAccounts, dbContents, List.map_map, List.pairwise_map]
  apply List.Nodup.pairwise_of_forall_ne h.listed_nodup
  intro x hx y hy hne
  obtain ⟨b, hb, rfl⟩ := h.listed_live hx
  obtain ⟨c, hc, rfl⟩ := h.listed_live hy
  constructor
  · exact fun he => hne (by rw [h.indexed.byImsi.inj hb hc he])
  · exact fun he => hne (by rw [h.indexed.byMsisdn.inj hb hc he])

theorem Saveable.statuses (h : Saveable s) (hinv : DbInv s.2 base listed live bound) :
    ∀ e ∈ dbContents s, e.2.status.IsEnumerator := by
  intro e he
  obtain ⟨x, hx, rfl⟩ := List.mem_map.mp he
  obtain ⟨b, hb, rfl⟩ := hinv.listed_live hx
  exact h.worded _ (hinv.indexed.records_perm.mem_iff.mpr (List.mem_map_of_mem hb))

/-- A start that reads the file of a save has the accounts that were saved. -/
theorem Saveable.restart (h : Saveable s) (hinv : DbInv s.2 1 listed live bound) {prog : Program}
    {path : Str} {opened : Str → Option Str} (hopen : opened path = some (csvFile s.1 s.2))
    {i : StartInput} (hi : i.HasMemory) {t : DbState} (hstart : startUp prog path opened i = some t) :
    (dbAccounts t).Perm (dbAccounts s) := by
  obtain ⟨p, db⟩ := s
  have hgood : GoodAfter bound (p, db) := .of_good h.good hinv (Nat.le_succ _)
  have hpieces := fgetsAll_csvFile fun n hn => hgood.records _ (List.mem_map_of_mem hn)
  have hshort : (csvLines p db).length ≤ 2 ^ 64 := by
    have hlen := hinv.records_length
    rw [dbRecords, List.length_map] at hlen
    rwa [csvLines, List.length_map]
  rw [← Function.update_eq_self path opened, hopen] at hstart
  have hloaded := startUp_loaded hpieces (by decide) hshort hi hstart
  have hrecords := fileRecords_csvFile hgood (h.statuses hinv)
  have hall : newRecords (fileRecords (csvFile p db)) = (dbAccounts (p, db)).reverse := by
    rw [hrecords]
    exact newRecords_apart hinv.accounts_apart
  rw [hall] at hloaded
  exact hloaded.records.trans (List.reverse_perm _)

end Restart

end SubscriberMgmt

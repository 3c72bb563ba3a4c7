import SubscriberMgmt.AuthReload
import SubscriberMgmt.CsvRestart
import SubscriberMgmt.Lib.FileLines

/-!
# Lines of the two files (`subscriber.c:896-961`, `auth.c:179-220`)

Both loaders take each `fgets` into 512 bytes for a line. A longer line is read in
pieces, and only the first of them begins where the line does.
-/

namespace SubscriberMgmt
open CText

/-! ### Pieces of lines -/

def filePieces (content : Str) : List Str := fgetsAll (smMaxLineLen - 2) content

def startOf (content : Str) (k : ℕ) : ℕ := pieceOffset (filePieces content) k

/-- The pieces of a kind begin at lines, each of them at its own. -/
structure OnePerLine (content : Str) (taken : ℕ → Prop) : Prop where
  begins : ∀ k, taken k → AtLineStart content (startOf content k)
  distinct : ∀ j k, taken j → taken k →
    lineNumber content (startOf content j) = lineNumber content (startOf content k) → j = k

theorem onePerLine_iff {content : Str} {taken : ℕ → Prop}
    (hread : ∀ k, taken k → k < (filePieces content).length) :
    OnePerLine content taken ↔ ∀ k, taken k → AtLineStart content (startOf content k) := by
  refine ⟨OnePerLine.begins, fun h => ⟨h, fun j k hj hk hline => ?_⟩⟩
  exact pieceOffset_unique (fgetsAll_ne_nil _ content) (hread j hj) (hread k hk) (h j hj) (h k hk)
    hline

/-! ### The credential file -/

/-- The accounts of consecutive pieces from the `i`-th on, each with its piece. -/
def accountPieces (stale : ℕ → Str × Str) (i : ℕ) (pieces : List Str) : List (ℕ × UserRecord) :=
  (pieces.zipIdx i).filterMap fun x => (credentialLine x.1 (stale x.2)).map fun u => (x.2, u)

/-- The accounts that are loaded, each with the piece that it comes from. -/
def loadedAccounts (stale : ℕ → Str × Str) (content : Str) : List (ℕ × UserRecord) :=
  (accountPieces stale 0 (filePieces content)).take smAuthMaxUsers

theorem accountPieces_cons (stale : ℕ → Str × Str) (i : ℕ) (piece : Str) (pieces : List Str) :
    accountPieces stale i (piece :: pieces) =
      ((credentialLine piece (stale i)).map fun u => (i, u)).toList ++
        accountPieces stale (i + 1) pieces := by
  simp only [accountPieces, List.zipIdx_cons, List.filterMap_cons]
  cases credentialLine piece (stale i) <;> rfl

theorem loadUsers_pieces (stale : ℕ → Str × Str) (i : ℕ) {users : List UserRecord}
    (hroom : users.length ≤ smAuthMaxUsers) (pieces : List Str) :
    loadUsers stale i users pieces =
      users ++ ((accountPieces stale i pieces).take (smAuthMaxUsers - users.length)).map
        Prod.snd := by
  induction pieces generalizing i users with
  | nil => simp [loadUsers, accountPieces]
  | cons piece pieces ih =>
    rw [accountPieces_cons]
    rcases Nat.lt_or_ge users.length smAuthMaxUsers with hlt | hge
    · simp only [loadUsers, if_pos hlt]
      cases credentialLine piece (stale i) with
      | none => simpa using ih (i + 1) hroom
      | some u =>
        have hlen : (users ++ [u]).length = users.length + 1 := by simp
        obtain ⟨r, hr⟩ : ∃ r, smAuthMaxUsers - users.length = r + 1 :=
          ⟨smAuthMaxUsers - users.length - 1, by omega⟩
        have hrest : smAuthMaxUsers - (users ++ [u]).length = r := by omega
        have hrec := ih (i + 1) (show (users ++ [u]).length ≤ smAuthMaxUsers by omega)
        simp only [Option.toList_some, Option.map_some, hrec, hrest, hr, List.singleton_append,
          List.take_succ_cons, List.map_cons, List.append_assoc]
    · simp only [loadUsers, if_neg (Nat.not_lt.mpr hge), Nat.sub_eq_zero_of_le hge, List.take_zero,
        List.map_nil, List.append_nil]

theorem loadUsersLocked_eq (stale : ℕ → Str × Str) (content : Str) :
    loadUsersLocked stale content = (loadedAccounts stale content).map Prod.snd :=
  loadUsers_pieces stale 0 (Nat.zero_le _) (filePieces content)

/-- A piece gives an account when it is well formed and the pieces before it leave
room. -/
theorem mem_take_accountPieces (stale : ℕ → Str × Str) (i n k : ℕ) (pieces : List Str)
    (u : UserRecord) :
    (k, u) ∈ (accountPieces stale i pieces).take n ↔
      ∃ j piece, k = i + j ∧ pieces[j]? = some piece ∧ credentialLine piece (stale k) = some u ∧
        (accountPieces stale i (pieces.take j)).length < n := by
  induction pieces generalizing i n with
  | nil => simp [accountPieces]
  | cons piece pieces ih =>
    have hrest : ∀ m, (k, u) ∈ (accountPieces stale (i + 1) pieces).take m ↔
        ∃ j q, k = i + (j + 1) ∧ pieces[j]? = some q ∧ credentialLine q (stale k) = some u ∧
          (accountPieces stale (i + 1) (pieces.take j)).length < m := by
      intro m
      rw [ih]
      exact exists_congr fun j => by rw [show i + (j + 1) = i + 1 + j by omega]
    rw [accountPieces_cons, ← Nat.or_exists_add_one]
    simp only [Nat.add_zero, List.getElem?_cons_zero, List.getElem?_cons_succ, List.take_zero,
      List.take_succ_cons, accountPieces_cons, List.length_append, Option.some.injEq]
    cases hc : credentialLine piece (stale i) with
    | none =>
      have hfirst : ¬ ∃ q, k = i ∧ piece = q ∧ credentialLine q (stale k) = some u ∧
          (accountPieces stale i []).length < n := by
        rintro ⟨q, rfl, rfl, hq, -⟩
        rw [hc] at hq
        cases hq
      simp only [Option.map_none, Option.toList_none, List.nil_append, List.length_nil,
        Nat.zero_add, hfirst, false_or]
      exact hrest n
    | some v =>
      cases n with
      | zero => simp
      | succ n =>
        simp only [Option.map_some, Option.toList_some, List.singleton_append, List.take_succ_cons,
          List.mem_cons, hrest n, List.length_singleton, Prod.mk.injEq]
        refine or_congr ⟨?_, ?_⟩ ?_
        · rintro ⟨rfl, rfl⟩
          exact ⟨piece, rfl, rfl, hc, Nat.succ_pos n⟩
        · rintro ⟨q, rfl, rfl, hq, -⟩
          rw [hc] at hq
          exact ⟨rfl, (Option.some.inj hq).symm⟩
        · simp only [Nat.add_comm 1, Nat.add_lt_add_iff_right]

/-- Each account comes from the beginning of a line of its own, which is no comment. -/
def AccountsPerLine (stale : ℕ → Str × Str) (content : Str) : Prop :=
  OnePerLine content (fun k => ∃ u, (k, u) ∈ loadedAccounts stale content) ∧
    ∀ k u, (k, u) ∈ loadedAccounts stale content → ∀ o, AtLineStart content o →
      lineNumber content o = lineNumber content (startOf content k) → content[o]? ≠ some 35

theorem loadedAccounts_iff (stale : ℕ → Str × Str) (content : Str) (k : ℕ) (u : UserRecord) :
    (k, u) ∈ loadedAccounts stale content ↔
      ∃ piece, (filePieces content)[k]? = some piece ∧ credentialLine piece (stale k) = some u ∧
        (accountPieces stale 0 ((filePieces content).take k)).length < smAuthMaxUsers := by
  rw [loadedAccounts, mem_take_accountPieces]
  constructor
  · rintro ⟨j, piece, hk, hrest⟩
    rw [Nat.zero_add] at hk
    exact ⟨piece, hk ▸ hrest⟩
  · rintro ⟨piece, hrest⟩
    exact ⟨k, piece, (Nat.zero_add k).symm, hrest⟩

/-- A comment is no account. -/
theorem credentialLine_head {piece : Str} {stale : Str × Str} {u : UserRecord}
    (h : credentialLine piece stale = some u) : piece ≠ [] ∧ piece.head? ≠ some 35 := by
  cases piece with
  | nil => cases h
  | cons c rest =>
    refine ⟨List.cons_ne_nil _ _, fun hc => ?_⟩
    rw [List.head?_cons, Option.some.injEq] at hc
    subst hc
    have hcut : (cutLine (35 :: rest)).head? = some 35 := rfl
    simp only [credentialLine, hcut, beq_self_eq_true, Bool.or_true, if_true] at h
    cases h

theorem accountsPerLine_iff (stale : ℕ → Str × Str) (content : Str) :
    AccountsPerLine stale content ↔
      ∀ k piece, (filePieces content)[k]? = some piece → ¬ AtLineStart content (startOf content k) →
        credentialLine piece (stale k) = none ∨
          smAuthMaxUsers ≤ (accountPieces stale 0 ((filePieces content).take k)).length := by
  have hread : ∀ k, (∃ u, (k, u) ∈ loadedAccounts stale content) →
      k < (filePieces content).length := by
    rintro k ⟨u, hk⟩
    obtain ⟨piece, hpiece, -⟩ := (loadedAccounts_iff stale content k u).mp hk
    exact (List.getElem?_eq_some_iff.mp hpiece).1
  rw [AccountsPerLine, onePerLine_iff hread]
  constructor
  · rintro ⟨hbegin, -⟩ k piece hpiece hmid
    cases hc : credentialLine piece (stale k) with
    | none => exact Or.inl rfl
    | some u =>
      refine Or.inr (Nat.le_of_not_lt fun hroom => hmid (hbegin k ⟨u, ?_⟩))
      exact (loadedAccounts_iff stale content k u).mpr ⟨piece, hpiece, hc, hroom⟩
  · intro h
    have hbegin : ∀ k, (∃ u, (k, u) ∈ loadedAccounts stale content) →
        AtLineStart content (startOf content k) := by
      rintro k ⟨u, hk⟩
      obtain ⟨piece, hpiece, hc, hroom⟩ := (loadedAccounts_iff stale content k u).mp hk
      by_contra hmid
      rcases h k piece hpiece hmid with hno | hfull
      · rw [hno] at hc
        cases hc
      · omega
    refine ⟨hbegin, fun k u hk o ho hline hcomment => ?_⟩
    obtain ⟨piece, hpiece, hc, -⟩ := (loadedAccounts_iff stale content k u).mp hk
    obtain ⟨hne, hhead⟩ := credentialLine_head hc
    rw [lineStart_unique ho (hbegin k ⟨u, hk⟩) hline] at hcomment
    -- the first byte of the piece is that of the line
    obtain ⟨rest, hrest⟩ := fgetsAll_prefix hpiece
    obtain ⟨c, cs, rfl⟩ := List.exists_cons_of_ne_nil hne
    have hfirst := congrArg (fun l : Str => l[0]?) hrest
    simp only [List.cons_append, List.getElem?_cons_zero, List.getElem?_drop,
      Nat.add_zero] at hfirst
    exact hhead (hfirst.trans hcomment)

/-! ### The CSV file -/

/-- The piece is the one that a record was added from; the first piece is the
header. -/
def RecordFrom (r : LoadResult) (k : ℕ) : Prop :=
  ∃ i id, k = i + 1 ∧ r.lines[i]? = some (.added id)

/-- Whatever the database and the memory: each record that is added comes from the
beginning of a line of its own. -/
def RecordsPerLine (content : Str) : Prop :=
  ∀ s : DbState, Reachable s → ∀ path files clock a, files path = some content →
    OnePerLine content (RecordFrom (subdbLoadCsv s.1 s.2 (some path) files clock a))

theorem loadLines_added {p : SStrPool} {db : SubscriberDb} {clock : ℕ → Int64} {a : Alloc} {i : ℕ}
    {pieces : List Str} {j : ℕ} {id : UInt64}
    (h : (loadLines p db clock a i pieces).1[j]? = some (.added id)) :
    ∃ piece, pieces[j]? = some piece ∧ lineRecord piece ≠ none := by
  induction pieces generalizing p db i j with
  | nil => cases h
  | cons piece pieces ih =>
    cases j with
    | zero => exact ⟨piece, rfl, loadLine_added (Option.some.inj h)⟩
    | succ j => exact ih h

theorem subdbLoadCsv_added {p : SStrPool} {db : SubscriberDb} {path content : Str}
    {files : Str → Option Str} (hfile : files path = some content) {clock : ℕ → Int64} {a : Alloc}
    {k : ℕ} (h : RecordFrom (subdbLoadCsv p db (some path) files clock a) k) :
    (∃ header, (filePieces content)[0]? = some header ∧ isHeader header = true) ∧
      ∃ i piece, k = i + 1 ∧ (filePieces content)[k]? = some piece ∧ lineRecord piece ≠ none := by
  obtain ⟨i, id, rfl, h⟩ := h
  have hl : fgetsAll (smMaxLineLen - 2) content = filePieces content := rfl
  simp only [subdbLoadCsv, hfile, hl] at h
  cases hp : filePieces content with
  | nil =>
    rw [hp] at h
    cases h
  | cons header pieces =>
    rw [hp] at h
    dsimp only at h
    split at h
    case isTrue => cases h
    case isFalse hhead =>
      obtain ⟨piece, hpiece, hrec⟩ := loadLines_added h
      exact ⟨⟨header, rfl, by simpa [isHeader] using hhead⟩, i, piece, rfl, hpiece, hrec⟩

/-! ### A piece that is reached -/

def firstPool : SStrPool := (sstrPoolInit SStrPool.start 1024 Alloc.all).2

theorem firstPool_intern (text : Str) {a : Alloc} (ha : a 0 = false) :
    ∃ st, st ≠ .ok ∧ sstrIntern firstPool text a = (.error st, firstPool) := by
  have hinit : firstPool.initialized = true := rfl
  have hget : htGet firstPool.ops firstPool.table (.value text) = .error .errNotFound := by
    have hwf : firstPool.WF := SStrPool.init_wf SStrPool.start_wf _ _
    cases hg : htGet firstPool.ops firstPool.table (.value text) with
    | error e => rw [(htGet_error (KeyRef.lawful _ _) hwf.table hg).1]
    | ok v =>
      obtain ⟨n, hn, -⟩ := htGet_ok hwf.table hg
      have htable : firstPool.table = HashTable.fresh (nextPrime 1024) false false := rfl
      rw [htable, fresh_nodes] at hn
      cases hn
  simp only [sstrIntern, hinit, Bool.not_true, Bool.false_eq_true, if_false, hget, ha,
    Bool.not_false, if_true]
  split
  · exact ⟨_, fun h => (by cases h), rfl⟩
  · exact ⟨_, fun h => (by cases h), rfl⟩

/-- Nothing was added or interned yet. -/
structure Waiting (s : DbState) : Prop where
  pool : s.1 = firstPool
  good : GoodAfter 0 s
  empty : dbContents s = []
  first : s.2.nextId = 1

theorem Waiting.refused {p : SStrPool} {db : SubscriberDb} (h : Waiting (p, db)) {a : Alloc}
    (ha : a 2 = false) (piece : Str) (now : Int64) : Waiting (loadLine p db piece now a).2 := by
  cases hline : lineRecord piece with
  | none =>
    rw [loadLine_other hline]
    exact h
  | some r =>
    rw [loadLine_record hline]
    obtain ⟨rfl, hgood, hempty, hfirst⟩ := h
    obtain ⟨hgood', hadd⟩ := hgood.add (by omega) (some r.imsi) (some r.msisdn) (some r.name)
      (some r.region) (some r.plan) r.status true now a
    obtain ⟨hst, hstrs, hid⟩ := subdbAdd_unread (fun text => firstPool_intern text ha) db
      (some r.imsi) (some r.msisdn) (some r.name) (some r.region) (some r.plan) r.status true now
    generalize subdbAdd firstPool db (some r.imsi) (some r.msisdn) (some r.name) (some r.region)
      (some r.plan) r.status true now a = x at hgood' hadd hst hstrs hid ⊢
    cases hadd with
    | kept _ hsame =>
      rw [hempty] at hsame
      exact ⟨hstrs, hgood'.of_first (by omega) (hid.trans hfirst), hsame.eq_nil, hid.trans hfirst⟩
    | added hok => exact absurd hok hst

theorem Waiting.accepted {p : SStrPool} {db : SubscriberDb} (h : Waiting (p, db)) {piece : Str}
    (hline : lineRecord piece ≠ none) (now : Int64) :
    ∃ id, (loadLine p db piece now Alloc.all).1 = .added id := by
  obtain ⟨r, hr⟩ := Option.ne_none_iff_exists'.mp hline
  obtain ⟨h1, h2, h3, h4, h5⟩ := lineRecord_valid hr
  have hpool : p = firstPool := h.pool
  have hinit : p.initialized = true := by
    rw [hpool]
    rfl
  have hnew : KeysNew r.imsi r.msisdn (dbContents (p, db)) := by
    rw [h.empty]
    exact fun e he => absurd he List.not_mem_nil
  have hok := h.good.add_ok (by omega) hinit h1 h2 h3 h4 h5 hnew r.status now
  rw [loadLine_eq hr]
  exact ⟨_, by simp only [AddResult.outcome, hok]; rfl⟩

/-- Without memory for the pieces before it, a well-formed piece is added to an
empty database. -/
theorem Waiting.lines {p : SStrPool} {db : SubscriberDb} (h : Waiting (p, db))
    (clock : ℕ → Int64) {a : Alloc} {i j : ℕ} {pieces : List Str} {piece : Str}
    (hpiece : pieces[j]? = some piece) (hline : lineRecord piece ≠ none)
    (hno : ∀ l < i + j, a (20 * l + 2) = false) (hall : a.skip (20 * (i + j)) = Alloc.all) :
    ∃ id, (loadLines p db clock a i pieces).1[j]? = some (.added id) := by
  induction pieces generalizing p db i j with
  | nil => cases hpiece
  | cons q pieces ih =>
    cases j with
    | zero =>
      cases hpiece
      obtain ⟨id, hid⟩ := h.accepted hline (clock i)
      rw [Nat.add_zero] at hall
      exact ⟨id, by simp only [loadLines, hall, List.getElem?_cons_zero, hid]⟩
    | succ j =>
      have hrest := h.refused (a := a.skip (20 * i)) (hno i (by omega)) q (clock i)
      have hshift : i + (j + 1) = i + 1 + j := by omega
      rw [hshift] at hno hall
      exact ih hrest hpiece hno hall

/-- Memory from the `k`-th line on. -/
def Alloc.fromLine (k : ℕ) : Alloc := fun i => decide (20 * k ≤ i)

theorem recordsPerLine_iff (content : Str) :
    RecordsPerLine content ↔
      ∀ header, (filePieces content)[0]? = some header → isHeader header = true →
        ∀ k piece, (filePieces content)[k + 1]? = some piece →
          ¬ AtLineStart content (startOf content (k + 1)) → lineRecord piece = none := by
  constructor
  · intro h header hheader hhead k piece hpiece hmid
    by_contra hline
    obtain ⟨pieces, hpieces⟩ : ∃ pieces, filePieces content = header :: pieces := by
      cases hp : filePieces content with
      | nil =>
        rw [hp] at hheader
        cases hheader
      | cons q pieces =>
        rw [hp] at hheader
        exact ⟨pieces, by rw [Option.some.inj hheader]⟩
    obtain ⟨db, hdb⟩ : ∃ db, subdbCreate Alloc.all = .ok db := ⟨_, rfl⟩
    have hwf : firstPool.WF := SStrPool.init_wf SStrPool.start_wf _ _
    have hwait : Waiting (firstPool, db) := by
      refine ⟨rfl, .create hwf hdb, (dbContents_live (subdbCreate_inv hdb) (by omega)).eq_nil, ?_⟩
      exact (subdbCreate_inv hdb).next
    rw [hpieces, List.getElem?_cons_succ] at hpiece
    obtain ⟨id, hid⟩ := hwait.lines (fun _ => 0) (a := Alloc.fromLine k) (i := 0) hpiece hline
      (fun l hl => decide_eq_false (by omega))
      (funext fun i => decide_eq_true (by omega))
    have hper := h (firstPool, db) (.created hwf hdb) (lit "s") (fun _ => some content) (fun _ => 0)
      (Alloc.fromLine k) rfl
    refine hmid (hper.begins (k + 1) ⟨k, id, rfl, ?_⟩)
    have hl : fgetsAll (smMaxLineLen - 2) content = header :: pieces := hpieces
    simp only [isHeader, decide_eq_true_eq] at hhead
    simp only [subdbLoadCsv, hl, ne_eq, hhead, not_true_eq_false, if_false]
    exact hid
  · intro h s _ path files clock a hfile
    refine (onePerLine_iff fun k hk => ?_).mpr fun k hk => ?_
    · obtain ⟨-, -, piece, -, hpiece, -⟩ := subdbLoadCsv_added hfile hk
      exact (List.getElem?_eq_some_iff.mp hpiece).1
    · obtain ⟨⟨header, hheader, hhead⟩, i, piece, rfl, hpiece, hline⟩ := subdbLoadCsv_added hfile hk
      by_contra hmid
      exact hline (h header hheader hhead i piece hpiece hmid)

/-! ### Both loaders -/

/-- Each record and each account is taken from the beginning of a line of its own,
exactly when no piece from the middle of a line is well formed: no record at all
after a header that is recognized, and no account while the table has room. -/
theorem one_record_per_line_iff (content : Str) :
    (RecordsPerLine content ↔
      ∀ header, (filePieces content)[0]? = some header → isHeader header = true →
        ∀ k piece, (filePieces content)[k + 1]? = some piece →
          ¬ AtLineStart content (startOf content (k + 1)) → lineRecord piece = none) ∧
    ∀ stale,
      loadUsersLocked stale content = (loadedAccounts stale content).map Prod.snd ∧
      (AccountsPerLine stale content ↔
        ∀ k piece, (filePieces content)[k]? = some piece →
          ¬ AtLineStart content (startOf content k) →
            credentialLine piece (stale k) = none ∨
              smAuthMaxUsers ≤ (accountPieces stale 0 ((filePieces content).take k)).length) :=
  ⟨recordsPerLine_iff content, fun stale =>
    ⟨loadUsersLocked_eq stale content, accountsPerLine_iff stale content⟩⟩

def hiddenUser : UserRecord :=
  ⟨true, CharField.copy _ (lit "op"), Vector.replicate _ 0, Vector.replicate _ 0, .admin, 0, 0⟩

def hiddenRecord : Str := lit "1,100000,1000000,A,R,P,ACTIVE,0,0"

/-- A comment of 511 bytes before the text of an account. -/
def overlongComment : Str := List.replicate 511 35 ++ (userBody hiddenUser ++ [newline])

/-- A header of 511 bytes before the text of a record. -/
def overlongHeader : Str :=
  lit "subscriber_id," ++ List.replicate 497 120 ++ (hiddenRecord ++ [newline])

theorem filePieces_overlong {body rest : Str} (hbody : newline ∉ body) (hlen : body.length = 511)
    (hrest : newline ∉ rest) (hshort : rest.length ≤ 510) :
    filePieces (body ++ (rest ++ [newline])) = [body, rest ++ [newline]] := by
  rw [filePieces, show smMaxLineLen - 2 = 510 from rfl, fgetsAll_full hbody hlen,
    fgetsAll_line hrest hshort, fgetsAll]

theorem hiddenUser_good : GoodUser hiddenUser :=
  ⟨by decide, .of_gt (by decide +kernel), by decide, by decide⟩

theorem overlong_midLine {body rest : Str} (hbody : newline ∉ body) (hlen : body.length = 511)
    (hpieces : filePieces (body ++ rest) = [body, rest]) :
    ¬ AtLineStart (body ++ rest) (startOf (body ++ rest) 1) := by
  have hstart : startOf (body ++ rest) 1 = 511 := by
    rw [startOf, hpieces, pieceOffset_succ, pieceOffset_zero, hlen]
  rw [hstart]
  rintro (h | h)
  · cases h
  · rw [List.getElem?_append_left (by omega)] at h
    exact hbody (List.mem_of_getElem? h)

/-- The rest of a comment becomes an account, and the rest of the header a record. -/
theorem middle_of_line_loaded :
    (∀ stale, (loadUsersLocked stale overlongComment).length = 1 ∧
      ¬ AccountsPerLine stale overlongComment) ∧
    ¬ RecordsPerLine overlongHeader := by
  constructor
  · intro stale
    have hbody : newline ∉ List.replicate 511 35 := by decide +kernel
    have hlen : (List.replicate 511 (35 : UInt8)).length = 511 := List.length_replicate ..
    have hpieces : filePieces overlongComment =
        [List.replicate 511 35, userBody hiddenUser ++ [newline]] :=
      filePieces_overlong hbody hlen (fun h => (hiddenUser_good.body_plain _ h).2.1 rfl)
        ((userBody_length _ hiddenUser_good.lockedUntil).trans (by decide))
    have hcomment : credentialLine (List.replicate 511 35) (stale 0) = none := rfl
    have haccount : credentialLine (userBody hiddenUser ++ [newline]) (stale 1) =
        some hiddenUser.reread := by
      rw [← userLine_eq]
      exact hiddenUser_good.credentialLine rfl (stale 1)
    constructor
    · rw [loadUsersLocked_eq, loadedAccounts, hpieces]
      simp only [accountPieces_cons, hcomment, haccount]
      rfl
    · intro h
      rcases (accountsPerLine_iff stale overlongComment).mp h 1 _ (by rw [hpieces]; rfl)
        (overlong_midLine hbody hlen hpieces) with hno | hfull
      · rw [haccount] at hno
        cases hno
      · rw [hpieces] at hfull
        simp only [List.take_succ_cons, List.take_zero, accountPieces_cons, hcomment] at hfull
        exact absurd hfull (show ¬ smAuthMaxUsers ≤ 0 by decide)
  · intro h
    have hbody : newline ∉ lit "subscriber_id," ++ List.replicate 497 120 := by decide +kernel
    have hlen : (lit "subscriber_id," ++ List.replicate 497 120).length = 511 := by decide +kernel
    have hrecord : newline ∉ hiddenRecord := by decide +kernel
    have hpieces := filePieces_overlong hbody hlen hrecord (by decide +kernel)
    have hno := (recordsPerLine_iff overlongHeader).mp h _ (by rw [overlongHeader, hpieces]; rfl)
      (by decide +kernel) 0 _ (by rw [overlongHeader, hpieces]; rfl)
      (overlong_midLine hbody hlen hpieces)
    exact absurd hno (by decide +kernel)

end SubscriberMgmt

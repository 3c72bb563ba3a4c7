import SubscriberMgmt.CsvRoundTrip
import SubscriberMgmt.ServerSessions

/-!
# The fields of LOGIN and ADD (`server.c:113-142`, `server.c:224-252`)

A conversion `%ws` stops after `w` bytes and the next one goes on there, so a
word that does not fit its buffer is split and every later field is shifted.
-/

namespace SubscriberMgmt
open CText

/-! ### What a line hands on -/

/-- The strings that `client_thread` gives to `auth_login`. -/
def loginCall (line : Str) : Option (Str × Str) :=
  match commandWord line with
  | some (cmd, rest) =>
    if cmd = lit "LOGIN" then scanLogin (rest.dropWhile (· == 32)) else none
  | none => none

/-- The strings that `cmd_add` uses for `subdb_add`: IMSI, MSISDN, the word of
the status and the name. -/
def addCall (line : Str) : Option (Str × Str × Str × Str) :=
  match commandWord line with
  | some (cmd, rest) =>
    if cmd = lit "ADD" then scanAdd (rest.dropWhile (· == 32)) else none
  | none => none

/-- LOGIN with the two strings that were read. -/
def loginWith (s : ServerState) (c : ℕ) (client : Client) (uname pass : Str)
    (input : LoginInput) : ServerState × List LogEntry :=
  let r := authLogin s.auth (some uname) (some pass) true input
  let s' := { s with auth := r.2 }
  let leases := (loginEvents input.now r.1).map .lease
  match r.1 with
  | .error st => (s', leases ++ [.reply c (.error st)])
  | .ok session =>
    (s'.setClient c
        (some { client with token := CharField.copy _ session.token, loggedIn := true }),
      leases ++ [.loggedIn c session ((findUserLocked s.auth.users uname).map Prod.snd),
        .reply c (.loggedIn session.user.role)])

/-- ADD with the four strings that were read. -/
def addWith (strs : SStrPool) (db : SubscriberDb) (imsi msisdn status name : Str) (now : Int64)
    (a : Alloc) : SStrPool × SubscriberDb × List Reply :=
  let r := subdbAdd strs db (some imsi) (some msisdn) (some name) (some (lit "UNSET"))
    (some (lit "UNSET")) (subStatusFromStr status) true now a
  (r.strs, r.db, [if r.status = .ok then .added (r.id.getD 0) else .error r.status])

theorem cmdLogin_none {args : Str} (h : scanLogin args = none) (s : ServerState) (c : ℕ)
    (client : Client) (input : LoginInput) :
    cmdLogin s c client args input = (s, [.reply c .usageLogin]) := by
  simp only [cmdLogin, h]

theorem cmdLogin_some {args uname pass : Str} (h : scanLogin args = some (uname, pass))
    (s : ServerState) (c : ℕ) (client : Client) (input : LoginInput) :
    cmdLogin s c client args input = loginWith s c client uname pass input := by
  unfold cmdLogin
  rw [h]
  rfl

theorem cmdAdd_none {args : Str} (h : scanAdd args = none) (strs : SStrPool) (db : SubscriberDb)
    (now : Int64) (a : Alloc) : cmdAdd strs db args now a = (strs, db, [.usageAdd]) := by
  simp only [cmdAdd, h]

theorem cmdAdd_some {args imsi msisdn status name : Str}
    (h : scanAdd args = some (imsi, msisdn, status, name)) (strs : SStrPool) (db : SubscriberDb)
    (now : Int64) (a : Alloc) :
    cmdAdd strs db args now a = addWith strs db imsi msisdn status name now a := by
  simp only [cmdAdd, h, addWith]

/-! ### Lines of fields -/

/-- Printable ASCII without blanks. -/
def IsField (w : Str) : Prop := w ≠ [] ∧ ∀ c ∈ w, 33 ≤ c ∧ c ≤ 126

instance (w : Str) : Decidable (IsField w) :=
  decidable_of_iff (w ≠ [] ∧ (w.all fun c => decide (33 ≤ c ∧ c ≤ 126)) = true)
    (and_congr_right fun _ => by simp only [List.all_eq_true, decide_eq_true_eq])

/-- A command with its fields, separated by single spaces. -/
def commandLine (cmd : String) (fields : List Str) : Str := joinWords (lit cmd :: fields)

theorem IsField.word {w : Str} (h : IsField w) : IsWord w := by
  refine ⟨h.1, fun c hc => ?_⟩
  have hc' := (h.2 c hc).1
  rw [UInt8.le_iff_toNat_le] at hc'
  have h33 : (33 : UInt8).toNat = 33 := rfl
  have h13 : (13 : UInt8).toNat = 13 := rfl
  have hne : c ≠ 32 := by
    intro he
    subst he
    exact absurd hc' (by decide)
  have hgt : ¬ c ≤ 13 := by
    rw [UInt8.le_iff_toNat_le]
    omega
  simp [isSpace, hne, hgt]

theorem joinWords_mem {ws : List Str} {c : UInt8} (h : c ∈ joinWords ws) :
    c = 32 ∨ ∃ w ∈ ws, c ∈ w := by
  cases ws with
  | nil => cases h
  | cons w ws =>
    simp only [joinWords, List.mem_append, List.mem_flatMap, List.mem_cons] at h
    rcases h with h | ⟨v, hv, h | h⟩
    · exact Or.inr ⟨w, List.mem_cons_self .., h⟩
    · exact Or.inl h
    · exact Or.inr ⟨v, List.mem_cons_of_mem _ hv, h⟩

theorem joinWords_printable {ws : List Str} (h : ∀ w ∈ ws, IsField w) {c : UInt8}
    (hc : c ∈ joinWords ws) : 32 ≤ c ∧ c ≤ 126 := by
  cases joinWords_mem hc with
  | inl he =>
    rw [he]
    decide
  | inr hw =>
    obtain ⟨w, hw, hc⟩ := hw
    obtain ⟨hlo, hhi⟩ := (h w hw).2 c hc
    exact ⟨UInt8.le_trans (by decide) hlo, hhi⟩

section Line

variable {cmd : String} {fields : List Str}

theorem commandLine_fields (hcmd : IsField (lit cmd)) (hfields : ∀ w ∈ fields, IsField w) :
    ∀ w ∈ lit cmd :: fields, IsField w := fun w hw => by
  cases List.mem_cons.mp hw with
  | inl he => rwa [he]
  | inr hw => exact hfields w hw

/-- The string that is parsed, `rest` being what the client sends later. -/
def receivedLine (last : RecvEnd) (rest beyond : Str) (buf : LineBuffer) (line : Str) : Str :=
  cString ((connRecvLine last (line ++ newline :: rest) buf).2.1.bytes ++ beyond)

theorem receivedLine_commandLine (hcmd : IsField (lit cmd)) (hfields : ∀ w ∈ fields, IsField w)
    (hlen : (commandLine cmd fields).length < smSrvLineMax) (last : RecvEnd)
    (rest beyond : Str) (buf : LineBuffer) :
    receivedLine last rest beyond buf (commandLine cmd fields) = commandLine cmd fields := by
  have hprint : ∀ c ∈ commandLine cmd fields, 32 ≤ c ∧ c ≤ 126 := fun c hc =>
    joinWords_printable (commandLine_fields hcmd hfields) hc
  have hnot : ∀ d : UInt8, ¬ (32 ≤ d ∧ d ≤ 126) → d ∉ commandLine cmd fields :=
    fun d hd hmem => hd (hprint d hmem)
  have htext : lineText (commandLine cmd fields) = commandLine cmd fields := by
    have hkeep : (commandLine cmd fields).filter (· != carriageReturn) =
        commandLine cmd fields := by
      rw [List.filter_eq_self]
      intro c hc
      simpa using ne_of_mem_of_not_mem hc (hnot carriageReturn (by decide))
    rw [lineText, hkeep, List.take_of_length_le (by omega)]
  obtain ⟨-, -, hbytes⟩ := connRecvLine_line last (hnot newline (by decide)) rest buf
  rw [receivedLine, hbytes, htext, List.append_assoc]
  exact cString_append_zero (hnot 0 (by decide)) _

/-- The command word is read, and `args` is at the first field. -/
theorem commandWord_commandLine (hcmd : IsField (lit cmd)) (hshort : (lit cmd).length ≤ 15)
    (hfields : ∀ w ∈ fields, IsField w) :
    ∃ rest, commandWord (commandLine cmd fields) = some (lit cmd, rest) ∧
      rest.dropWhile (· == 32) = joinWords fields := by
  have hwords : ∀ w ∈ lit cmd :: fields, IsWord w := fun w hw =>
    (commandLine_fields hcmd hfields w hw).word
  have hscan := scanWord_join (by decide : 0 < 15) (joinWords_dropWhile hwords) hcmd.word
  rw [List.take_of_length_le hshort, List.drop_eq_nil_of_le hshort, List.nil_append] at hscan
  refine ⟨_, hscan, dropWhile_flatMap (by decide) ?_⟩
  cases fields with
  | nil => rfl
  | cons w ws =>
    obtain ⟨hne, hprint⟩ := hfields w (List.mem_cons_self ..)
    cases w with
    | nil => exact absurd rfl hne
    | cons c w =>
      have hc : c ≠ 32 := by
        intro he
        subst he
        exact absurd (hprint 32 (List.mem_cons_self ..)).1 (by decide)
      simp [joinWords, hc]

end Line

/-! ### The two formats on fields -/

theorem scanLogin_fields {fields : List Str} (h : ∀ w ∈ fields, IsField w) :
    scanLogin (joinWords fields) =
      if dropPiece 32 fields = [] then none
      else some (firstPiece 32 fields, firstPiece 127 (dropPiece 32 fields)) := by
  have hwords : ∀ w ∈ fields, IsWord w := fun w hw => (h w hw).word
  obtain ⟨hnil, hscan⟩ | ⟨-, s, hscan, hs⟩ :=
    scanWord_words (by decide : 0 < 32) (joinWords_dropWhile hwords) hwords
  · rw [if_pos (by simp [hnil])]
    simp [scanLogin, hscan]
  · obtain ⟨hnil, hscan'⟩ | ⟨hne, s', hscan', -⟩ :=
      scanWord_words (by decide : 0 < 127) hs (dropPiece_words _ hwords)
    · simp [scanLogin, hscan, hscan', hnil]
    · simp [scanLogin, hscan, hscan', hne]

/-- `%63[^\n]` takes what is left of the line, up to its width. -/
theorem scanSet_name {ws : List Str} (h : ∀ w ∈ ws, IsWord w) :
    ws = [] ∧ scanSet 63 (· != newline) (joinWords ws) = none ∨
      ws ≠ [] ∧ ∃ rest, scanSet 63 (· != newline) (joinWords ws) =
        some ((joinWords ws).take 63, rest) := by
  cases ws with
  | nil => exact Or.inl ⟨rfl, rfl⟩
  | cons w ws =>
    have hline : ∀ c ∈ (joinWords (w :: ws)).take 63, (c != newline) = true := by
      intro c hc
      have hne : c ≠ newline := by
        cases joinWords_mem (List.mem_of_mem_take hc) with
        | inl he =>
          rw [he]
          decide
        | inr hv =>
          obtain ⟨v, hv, hcv⟩ := hv
          intro he
          subst he
          exact absurd ((h v hv).2 newline hcv) (by decide)
      simpa using hne
    have htake : ((joinWords (w :: ws)).take 63).takeWhile (· != newline) =
        (joinWords (w :: ws)).take 63 := List.takeWhile_eq_self_iff.mpr hline
    have hne : ((joinWords (w :: ws)).take 63).isEmpty = false := by
      have hlen : 0 < w.length := List.length_pos_iff.mpr (h w (List.mem_cons_self ..)).1
      rw [List.isEmpty_eq_false_iff, ← List.length_pos_iff, List.length_take, joinWords,
        List.length_append]
      omega
    refine Or.inr ⟨by simp, (joinWords (w :: ws)).drop ((joinWords (w :: ws)).take 63).length, ?_⟩
    simp only [scanSet, htake, hne, Bool.false_eq_true, if_false]

theorem scanAdd_fields {fields : List Str} (h : ∀ w ∈ fields, IsField w) :
    scanAdd (joinWords fields) =
      if dropPiece 15 (dropPiece 15 (dropPiece 15 fields)) = [] then none
      else some (firstPiece 15 fields, firstPiece 15 (dropPiece 15 fields),
        firstPiece 15 (dropPiece 15 (dropPiece 15 fields)),
        (joinWords (dropPiece 15 (dropPiece 15 (dropPiece 15 fields)))).take 63) := by
  have hwords : ∀ w ∈ fields, IsWord w := fun w hw => (h w hw).word
  have h1 := dropPiece_words 15 hwords
  have h2 := dropPiece_words 15 h1
  have h3 := dropPiece_words 15 h2
  obtain ⟨hnil, hscan⟩ | ⟨-, s, hscan, hs⟩ :=
    scanWord_words (by decide : 0 < 15) (joinWords_dropWhile hwords) hwords
  · rw [if_pos (by simp [hnil])]
    simp [scanAdd, hscan]
  · obtain ⟨hnil, hscan1⟩ | ⟨-, s1, hscan1, hs1⟩ :=
      scanWord_words (by decide : 0 < 15) hs h1
    · rw [if_pos (by simp [hnil])]
      simp [scanAdd, hscan, hscan1]
    · obtain ⟨hnil, hscan2⟩ | ⟨-, s2, hscan2, hs2⟩ :=
        scanWord_words (by decide : 0 < 15) hs1 h2
      · rw [if_pos (by simp [hnil])]
        simp [scanAdd, hscan, hscan1, hscan2]
      · obtain ⟨hnil, hname⟩ | ⟨hne, s3, hname⟩ := scanSet_name h3
        · rw [if_pos hnil]
          simp [scanAdd, hscan, hscan1, hscan2, hs2, hname]
        · simp [scanAdd, hscan, hscan1, hscan2, hs2, hname, hne]

/-! ### Whole or refused -/

/-- On every connection, in every state of the server: the line is refused for want of fields,
or `auth_login` gets exactly the first two. -/
def LoginWhole (fields : List Str) : Prop :=
  ∀ (last : RecvEnd) (rest beyond : Str) (buf : LineBuffer) (s : ServerState) (c : ℕ)
    (client : Client) (input : LoginInput),
    let line := receivedLine last rest beyond buf (commandLine "LOGIN" fields)
    fields.length < 2 ∧ loginCall line = none ∧
        clientLine s c client line input = (s, [.reply c .usageLogin]) ∨
      ∃ uname pass more, fields = uname :: pass :: more ∧ loginCall line = some (uname, pass) ∧
        clientLine s c client line input = loginWith s c client uname pass input

/-- On every connection that is logged in, in every state of the server: ADD is
authorized, and then the line is refused for want of fields, or `subdb_add` gets
exactly the first three and the remainder of the line. -/
def AddWhole (fields : List Str) : Prop :=
  ∀ (last : RecvEnd) (rest beyond : Str) (buf : LineBuffer) (s : ServerState) (c : ℕ)
    (client : Client) (input : LoginInput), client.loggedIn = true →
    let line := receivedLine last rest beyond buf (commandLine "ADD" fields)
    ∃ args, clientLine s c client line input =
        authorizeHandler s c client (.add args) input.now ∧
      (fields.length < 4 ∧ addCall line = none ∧
          (∀ strs db now a, cmdAdd strs db args now a = (strs, db, [.usageAdd])) ∨
        ∃ imsi msisdn status name, fields = imsi :: msisdn :: status :: name ∧ name ≠ [] ∧
          addCall line = some (imsi, msisdn, status, joinWords name) ∧
          ∀ strs db now a, cmdAdd strs db args now a =
            addWith strs db imsi msisdn status (joinWords name) now a)

def FitsLogin (fields : List Str) : Prop :=
  (∀ uname ∈ fields[0]?, uname.length ≤ 32) ∧ ∀ pass ∈ fields[1]?, pass.length ≤ 127

instance (fields : List Str) : Decidable (FitsLogin fields) :=
  inferInstanceAs (Decidable (_ ∧ _))

/-- The fields fit their conversions, or the pieces that they are cut into do
not make up four fields. -/
def FitsAdd (fields : List Str) : Prop :=
  (∀ w ∈ fields.take 3, w.length ≤ 15) ∧ (joinWords (fields.drop 3)).length ≤ 63 ∨
    pieceCount 15 fields ≤ 3

instance (fields : List Str) : Decidable (FitsAdd fields) := inferInstanceAs (Decidable (_ ∨ _))

theorem dropPiece_short {width : ℕ} {w : Str} (h : w.length ≤ width) (ws : List Str) :
    dropPiece width (w :: ws) = ws := if_pos h

theorem firstPiece_eq_iff {width : ℕ} {w : Str} {ws : List Str} :
    firstPiece width (w :: ws) = w ↔ w.length ≤ width := List.take_eq_self_iff w

/-- LOGIN is refused only for want of fields. -/
theorem scanLogin_none {fields : List Str} (h : ∀ w ∈ fields, IsField w)
    (hnone : scanLogin (joinWords fields) = none) : fields.length < 2 := by
  rw [scanLogin_fields h, ite_eq_left_iff] at hnone
  have hdrop : dropPiece 32 fields = [] := by
    by_contra hne
    cases hnone hne
  match fields, hdrop with
  | [], _ => exact Nat.zero_lt_two
  | [uname], _ => exact Nat.one_lt_two
  | uname :: pass :: more, hdrop =>
    simp only [dropPiece] at hdrop
    split at hdrop <;> cases hdrop

theorem scanLogin_whole_iff {fields : List Str} (h : ∀ w ∈ fields, IsField w) :
    (scanLogin (joinWords fields) = none ∨ ∃ uname pass more, fields = uname :: pass :: more ∧
      scanLogin (joinWords fields) = some (uname, pass)) ↔ FitsLogin fields := by
  rw [scanLogin_fields h]
  cases fields with
  | nil => simp [FitsLogin]
  | cons uname fields =>
    by_cases hshort : uname.length ≤ 32
    · rw [dropPiece_short hshort]
      cases fields with
      | nil => simp [FitsLogin, hshort]
      | cons pass more =>
        have huname : firstPiece 32 (uname :: pass :: more) = uname := firstPiece_eq_iff.mpr hshort
        have hpass : pass = firstPiece 127 (pass :: more) ↔ pass.length ≤ 127 :=
          eq_comm.trans firstPiece_eq_iff
        simp [FitsLogin, hshort, huname, hpass]
    · have hrest : dropPiece 32 (uname :: fields) ≠ [] := by simp [dropPiece, hshort]
      refine iff_of_false ?_ fun hfits => hshort (hfits.1 uname rfl)
      rw [if_neg hrest]
      intro h
      obtain hnone | ⟨u, pass, more, he, hsome⟩ := h
      · cases hnone
      · cases he
        simp only [Option.some.injEq, Prod.mk.injEq] at hsome
        exact hshort (firstPiece_eq_iff.mp hsome.1)

theorem scanAdd_none_iff {fields : List Str} (h : ∀ w ∈ fields, IsField w) :
    scanAdd (joinWords fields) = none ↔ pieceCount 15 fields ≤ 3 := by
  have hwords : ∀ w ∈ fields, IsWord w := fun w hw => (h w hw).word
  have h1 := dropPiece_words 15 hwords
  have h2 := dropPiece_words 15 h1
  have h3 := dropPiece_words 15 h2
  have hcount : pieceCount 15 (dropPiece 15 (dropPiece 15 (dropPiece 15 fields))) =
      pieceCount 15 fields - 3 := by
    rw [pieceCount_dropPiece (by decide) h2, pieceCount_dropPiece (by decide) h1,
      pieceCount_dropPiece (by decide) hwords]
    omega
  have hzero := pieceCount_eq_zero (by decide : 0 < 15) h3
  rw [hcount] at hzero
  rw [scanAdd_fields h, ite_eq_left_iff]
  constructor
  · intro hlast
    by_contra hmany
    exact absurd (hlast fun he => hmany (Nat.sub_eq_zero_iff_le.mp (hzero.mpr he))) (by simp)
  · exact fun hfew hlast => absurd (hzero.mp (Nat.sub_eq_zero_of_le hfew)) hlast

/-- Each field is one piece at least, so ADD is refused only for want of fields. -/
theorem scanAdd_none {fields : List Str} (h : ∀ w ∈ fields, IsField w)
    (hnone : scanAdd (joinWords fields) = none) : fields.length < 4 := by
  have hpieces := (scanAdd_none_iff h).mp hnone
  have hle := length_le_pieceCount (by decide : 0 < 15) fun w hw => (h w hw).word
  omega

theorem scanAdd_exact_iff {fields : List Str} (h : ∀ w ∈ fields, IsField w) :
    (∃ imsi msisdn status name, fields = imsi :: msisdn :: status :: name ∧ name ≠ [] ∧
      scanAdd (joinWords fields) = some (imsi, msisdn, status, joinWords name)) ↔
      scanAdd (joinWords fields) ≠ none ∧
        (∀ w ∈ fields.take 3, w.length ≤ 15) ∧ (joinWords (fields.drop 3)).length ≤ 63 := by
  rw [scanAdd_fields h]
  constructor
  · intro h
    obtain ⟨imsi, msisdn, status, name, rfl, -, hscan⟩ := h
    have hsome : dropPiece 15 (dropPiece 15 (dropPiece 15 (imsi :: msisdn :: status :: name))) ≠
        [] := fun he => by
      rw [if_pos he] at hscan
      cases hscan
    rw [if_neg hsome] at hscan ⊢
    simp only [Option.some.injEq, Prod.mk.injEq] at hscan
    obtain ⟨himsi, hmsisdn, hstatus, hname⟩ := hscan
    have h1 := firstPiece_eq_iff.mp himsi
    rw [dropPiece_short h1] at hmsisdn hstatus hname
    have h2 := firstPiece_eq_iff.mp hmsisdn
    rw [dropPiece_short h2] at hstatus hname
    have h3 := firstPiece_eq_iff.mp hstatus
    rw [dropPiece_short h3] at hname
    refine ⟨by simp, ?_, (List.take_eq_self_iff _).mp hname⟩
    simpa using ⟨h1, h2, h3⟩
  · intro h
    obtain ⟨hsome, hthree, hname⟩ := h
    have hlast : dropPiece 15 (dropPiece 15 (dropPiece 15 fields)) ≠ [] := fun he => by
      rw [if_pos he] at hsome
      exact hsome rfl
    rw [if_neg hlast]
    match fields, hthree, hname, hlast with
    | [], _, _, hlast => exact absurd rfl hlast
    | [imsi], hthree, _, hlast =>
      have h1 := hthree imsi (by simp)
      exact absurd (by rw [dropPiece_short h1]; rfl) hlast
    | [imsi, msisdn], hthree, _, hlast =>
      have h1 := hthree imsi (by simp)
      have h2 := hthree msisdn (by simp)
      exact absurd (by rw [dropPiece_short h1, dropPiece_short h2]; rfl) hlast
    | imsi :: msisdn :: status :: name, hthree, hname, hlast =>
      have h1 := hthree imsi (by simp)
      have h2 := hthree msisdn (by simp)
      have h3 := hthree status (by simp)
      have hname : (joinWords name).length ≤ 63 := hname
      rw [dropPiece_short h1, dropPiece_short h2, dropPiece_short h3] at hlast ⊢
      refine ⟨imsi, msisdn, status, name, rfl, hlast, ?_⟩
      rw [firstPiece_eq_iff.mpr h1, firstPiece_eq_iff.mpr h2, firstPiece_eq_iff.mpr h3,
        List.take_of_length_le hname]

theorem scanAdd_whole_iff {fields : List Str} (h : ∀ w ∈ fields, IsField w) :
    (scanAdd (joinWords fields) = none ∨
      ∃ imsi msisdn status name, fields = imsi :: msisdn :: status :: name ∧ name ≠ [] ∧
        scanAdd (joinWords fields) = some (imsi, msisdn, status, joinWords name)) ↔
      FitsAdd fields := by
  rw [scanAdd_exact_iff h, FitsAdd, ← scanAdd_none_iff h]
  by_cases hnone : scanAdd (joinWords fields) = none
  · exact iff_of_true (Or.inl hnone) (Or.inr hnone)
  · simp [hnone]

section Commands

variable {fields : List Str} (h : ∀ w ∈ fields, IsField w)
include h

theorem login_line :
    loginCall (commandLine "LOGIN" fields) = scanLogin (joinWords fields) ∧
      ∀ s c client input, clientLine s c client (commandLine "LOGIN" fields) input =
        cmdLogin s c client (joinWords fields) input := by
  have hfield : IsField (lit "LOGIN") := by decide
  obtain ⟨rest, hcmd, hargs⟩ := commandWord_commandLine hfield (by decide) h
  constructor
  · simp only [loginCall, hcmd, hargs, if_true]
  · intro s c client input
    simp only [clientLine, hcmd, hargs, if_true]

theorem add_line :
    addCall (commandLine "ADD" fields) = scanAdd (joinWords fields) ∧
      ∀ s c client input, client.loggedIn = true →
        clientLine s c client (commandLine "ADD" fields) input =
          authorizeHandler s c client (.add (joinWords fields)) input.now := by
  have hfield : IsField (lit "ADD") := by decide
  obtain ⟨rest, hcmd, hargs⟩ := commandWord_commandLine hfield (by decide) h
  have hlogin : lit "ADD" ≠ lit "LOGIN" := by decide
  have hlogout : lit "ADD" ≠ lit "LOGOUT" := by decide
  have hquit : lit "ADD" ≠ lit "QUIT" := by decide
  constructor
  · simp only [addCall, hcmd, hargs, if_true]
  · intro s c client input hin
    simp [clientLine, hcmd, hargs, hlogin, hlogout, hquit, hin, handlerOf]

theorem loginWhole_iff (hlen : (commandLine "LOGIN" fields).length < smSrvLineMax)
    (s : ServerState) : LoginWhole fields ↔ FitsLogin fields := by
  have hfield : IsField (lit "LOGIN") := by decide
  have hline := receivedLine_commandLine hfield h hlen
  obtain ⟨hcall, hstep⟩ := login_line h
  rw [← scanLogin_whole_iff h, ← hcall]
  constructor
  · intro hwhole
    have hone := hwhole .eof [] [] ⟨List.replicate smSrvLineMax 0, List.length_replicate ..⟩
      s 0 ⟨⟨[], Nat.zero_le _⟩, false, none⟩ (zeroLogin 0)
    simp only [hline] at hone
    cases hone with
    | inl hnone => exact Or.inl hnone.2.1
    | inr hsome =>
      obtain ⟨uname, pass, more, he, hsome, -⟩ := hsome
      exact Or.inr ⟨uname, pass, more, he, hsome⟩
  · intro hwhole last rest beyond buf s c client input
    simp only [hline, hstep]
    cases hwhole with
    | inl hnone =>
      have hscan := hcall ▸ hnone
      exact Or.inl ⟨scanLogin_none h hscan, hnone, cmdLogin_none hscan s c client input⟩
    | inr hsome =>
      obtain ⟨uname, pass, more, he, hsome⟩ := hsome
      exact Or.inr ⟨uname, pass, more, he, hsome,
        cmdLogin_some (hcall ▸ hsome) s c client input⟩

theorem addWhole_iff (hlen : (commandLine "ADD" fields).length < smSrvLineMax)
    (s : ServerState) : AddWhole fields ↔ FitsAdd fields := by
  have hfield : IsField (lit "ADD") := by decide
  have hline := receivedLine_commandLine hfield h hlen
  obtain ⟨hcall, hstep⟩ := add_line h
  rw [← scanAdd_whole_iff h, ← hcall]
  constructor
  · intro hwhole
    obtain ⟨args, -, hone⟩ := hwhole .eof [] []
      ⟨List.replicate smSrvLineMax 0, List.length_replicate ..⟩ s 0
      ⟨⟨[], Nat.zero_le _⟩, true, none⟩ (zeroLogin 0) rfl
    simp only [hline] at hone
    cases hone with
    | inl hnone => exact Or.inl hnone.2.1
    | inr hsome =>
      obtain ⟨imsi, msisdn, status, name, he, hne, hsome, -⟩ := hsome
      exact Or.inr ⟨imsi, msisdn, status, name, he, hne, hsome⟩
  · intro hwhole last rest beyond buf s c client input hin
    simp only [hline]
    refine ⟨joinWords fields, hstep s c client input hin, ?_⟩
    cases hwhole with
    | inl hnone =>
      have hscan := hcall ▸ hnone
      exact Or.inl ⟨scanAdd_none h hscan, hnone, cmdAdd_none hscan⟩
    | inr hsome =>
      obtain ⟨imsi, msisdn, status, name, he, hne, hsome⟩ := hsome
      exact Or.inr ⟨imsi, msisdn, status, name, he, hne, hsome, cmdAdd_some (hcall ▸ hsome)⟩

end Commands

/-- Fields arrive whole exactly when they fit. -/
theorem server_fields_whole_iff {fields : List Str} (h : ∀ w ∈ fields, IsField w) :
    ((commandLine "LOGIN" fields).length < smSrvLineMax →
      (LoginWhole fields ↔ FitsLogin fields)) ∧
    ((commandLine "ADD" fields).length < smSrvLineMax → (AddWhole fields ↔ FitsAdd fields)) := by
  obtain ⟨db, -⟩ : ∃ db, subdbCreate Alloc.all = .ok db := ⟨_, rfl⟩
  have s := ServerState.start (fun _ => none) SStrPool.start db
  exact ⟨fun hlen => loginWhole_iff h hlen s, fun hlen => addWhole_iff h hlen s⟩

theorem server_fields_whole_ann :
    LoginWhole [lit "admin", lit "secret"] ∧
      AddWhole [lit "310150000000001", lit "14155550101", lit "ACTIVE", lit "Ann", lit "Lee"] :=
  ⟨((server_fields_whole_iff (by decide)).1 (by decide)).mpr (by decide),
    ((server_fields_whole_iff (by decide)).2 (by decide)).mpr (by decide)⟩

/-- An IMSI of 22 digits. -/
def longAdd : List Str :=
  [lit "3101500000000011415555", lit "5550101", lit "ACTIVE", lit "Ann"]

def loginLongAdd : List ServerOp :=
  [.account adminInit, .connect 3, .line 3 (lit "LOGIN admin x") (zeroLogin 7),
    .line 3 (commandLine "ADD" longAdd) (zeroLogin 8), .finish 3 9 Alloc.all]

/-- A long user name is split into user name and password; the digits of the
IMSI that do not fit become the MSISDN, the MSISDN becomes the status and the
status a part of the name, and the server answers OK. -/
theorem server_fields_split :
    (∃ fields, (∀ w ∈ fields, IsField w) ∧
        (commandLine "LOGIN" fields).length < smSrvLineMax ∧ ¬ LoginWhole fields) ∧
      (∀ w ∈ longAdd, IsField w) ∧ (commandLine "ADD" longAdd).length < smSrvLineMax ∧
      ¬ AddWhole longAdd ∧
      ∃ db, subdbCreate Alloc.all = .ok db ∧
        let start := ServerState.start (adminFile 48 (lit "0"))
          (sstrPoolInit SStrPool.start 16 Alloc.all).2 db
        let s := Machine.final serverStep start loginLongAdd
        .reply 3 (.added 1) ∈ serverLog start loginLongAdd ∧
          (dbRecords s.db).map (Subscriber.fields s.strs) =
            [⟨lit "310150000000001", lit "1415555", lit "ACTIVE Ann", lit "UNSET", lit "UNSET",
              .unknown⟩] := by
  have hadd : ∀ w ∈ longAdd, IsField w := by decide
  have huser : ∀ w ∈ [List.replicate 40 97], IsField w := by decide
  refine ⟨⟨[List.replicate 40 97], huser, by decide, fun hwhole => ?_⟩, hadd, by decide, ?_,
    ?_⟩
  · exact absurd (((server_fields_whole_iff huser).1 (by decide)).mp hwhole) (by decide)
  · intro hwhole
    exact absurd (((server_fields_whole_iff hadd).2 (by decide)).mp hwhole) (by decide)
  · refine ⟨_, rfl, ?_⟩
    intro start s
    constructor
    · decide +kernel
    · decide +kernel

end SubscriberMgmt

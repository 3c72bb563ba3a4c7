import SubscriberMgmt.AuthAccounts
import SubscriberMgmt.HexDecode

/-!
# Reading back the credential file (`auth.c:179-347`, `sha256.c:117-135`)

A line that `save_users_locked` writes for an account fits the reader's buffer,
and its six fields come back as they were printed.
-/

namespace SubscriberMgmt
open CText

/-! ### Hexadecimal text -/

theorem hexChar_gt (b : UInt8) : comma < hexChar (b &&& 0x0F) := by
  have hdigits : ∀ c ∈ lit "0123456789abcdef", comma < c := by simp [lit, comma]
  have hlt : (b &&& 0x0F).toNat < (lit "0123456789abcdef").length := by
    rw [UInt8.toNat_and]
    exact Nat.lt_succ_of_le Nat.and_le_right
  rw [hexChar, List.getD_eq_getElem?_getD, List.getElem?_eq_getElem hlt, Option.getD_some]
  exact hdigits _ (List.getElem_mem hlt)

theorem smHexEncode_gt (l : List UInt8) : ∀ c ∈ smHexEncode l, comma < c := by
  intro c hc
  obtain ⟨b, -, hb⟩ := List.mem_flatMap.mp hc
  rcases List.mem_cons.mp hb with rfl | hb
  · exact hexChar_gt (b >>> 4)
  · rw [List.mem_singleton.mp hb]
    exact hexChar_gt b

/-! ### The fields of a line -/

def SmRole.IsEnumerator : SmRole → Prop
  | .other _ => False
  | _ => True

theorem smRole_round_trip {r : SmRole} (h : r.IsEnumerator) :
    smRoleFromStr (smRoleToStr r) = r := by
  cases r with
  | other code => exact h.elim
  | _ => decide

/-- The account with its role as a reader of its line understands it. -/
def UserRecord.reread (u : UserRecord) : UserRecord :=
  { u with role := smRoleFromStr (smRoleToStr u.role) }

theorem UserRecord.reread_eq {u : UserRecord} (h : u.role.IsEnumerator) : u.reread = u := by
  simp only [UserRecord.reread, smRole_round_trip h]

/-- The accounts that a restart finds in the file of a table. -/
def readBack (users : List UserRecord) : List UserRecord :=
  (users.filter UserRecord.inUse).map UserRecord.reread

theorem smRoleFromStr_enumerator (s : Str) : (smRoleFromStr s).IsEnumerator := by
  unfold smRoleFromStr
  split
  · trivial
  · split
    · trivial
    · split <;> trivial

/-- Characters that end neither a field nor a line. -/
def PlainText (s : Str) : Prop :=
  ∀ c ∈ s, c ≠ 0 ∧ c ≠ newline ∧ c ≠ carriageReturn ∧ c ≠ comma

/-- An account whose line can be read back. -/
structure GoodUser (u : UserRecord) : Prop where
  nonempty : u.username.chars ≠ []
  plain : PlainText u.username.chars
  noComment : u.username.chars.head? ≠ some 35
  lockedUntil : -2 ^ 63 ≤ u.lockedUntil ∧ u.lockedUntil ≤ 2 ^ 63 - 1

theorem PlainText.of_gt {s : Str} (h : ∀ c ∈ s, comma < c) : PlainText s := by
  intro c hc
  have hlt := h c hc
  refine ⟨?_, ?_, ?_, ?_⟩ <;> rintro rfl <;> exact absurd hlt (by decide)

theorem decimal_gt (n : ℕ) : ∀ c ∈ decimal n, comma < c := by
  intro c hc
  have hd := decimal_isDigit n c hc
  simp only [isDigit, Bool.and_eq_true, decide_eq_true_eq] at hd
  exact UInt8.lt_of_lt_of_le (by decide) hd.1

theorem signedDecimal_gt (z : ℤ) : ∀ c ∈ signedDecimal z, comma < c := by
  intro c hc
  unfold signedDecimal at hc
  split at hc
  · rcases List.mem_cons.mp hc with rfl | hc
    · decide
    · exact decimal_gt _ c hc
  · exact decimal_gt _ c hc

theorem smRoleToStr_text (r : SmRole) :
    smRoleToStr r ≠ [] ∧ (smRoleToStr r).length ≤ 15 ∧ ∀ c ∈ smRoleToStr r, comma < c := by
  cases r <;> simp [smRoleToStr, lit, comma]

/-- `%32[^,],` and the like. -/
theorem scanSet_comma {width : ℕ} {s : Str} (hs : PlainText s) (hne : s ≠ [])
    (hlen : s.length ≤ width) {β : Type} (rest : Str) (k : Str × Str → Option β) :
    (scanSet width (· != comma) (s ++ comma :: rest) >>= k) = k (s, comma :: rest) := by
  rw [scanSet_append hne hlen (fun c hc => by simpa using (hs c hc).2.2.2) (by decide)]
  rfl

theorem scanComma {β : Type} (rest : Str) (k : Str → Option β) :
    (scanChar comma (comma :: rest) >>= k) = k rest := by
  rw [scanChar, if_pos rfl]
  rfl

theorem scanUInt_comma (n : UInt32) {β : Type} (rest : Str) (k : ℕ × Str → Option β) :
    (scanUInt 32 (decimal n.toNat ++ comma :: rest) >>= k) = k (n.toNat, comma :: rest) := by
  have hd := decimal_isDigit n.toNat
  have hne := decimal_ne_nil n.toNat
  have hstop : ∀ x ∈ (comma :: rest).head?, isDigit x = false := by
    intro x he
    cases he
    decide
  have htw := takeWhile_append_stop hd hstop
  have hemp : (decimal n.toNat).isEmpty = false := by simpa using hne
  have hlt := n.toNat_lt
  have hmin : min n.toNat (2 ^ 64 - 1) % 2 ^ 32 = n.toNat := by omega
  simp only [scanUInt, digit_head _ hne hd, htw, hemp, digitsValue_decimal, List.drop_left,
    Bool.false_eq_true, if_false, false_and, hmin]
  rfl

theorem scanInt_end {z : ℤ} (hz : -2 ^ 63 ≤ z ∧ z ≤ 2 ^ 63 - 1) {β : Type}
    (k : ℤ × Str → Option β) :
    (scanInt (-2 ^ 63) (2 ^ 63 - 1) (signedDecimal z) >>= k) = k (z, []) := by
  have hstop : ∀ x ∈ ([] : Str).head?, isDigit x = false := by simp
  have h := scanInt_signedDecimal hz.1 hz.2 hstop
  rw [List.append_nil] at h
  rw [h]
  rfl

/-! ### The line -/

def userBody (u : UserRecord) : Str :=
  u.username.chars ++ comma :: (smHexEncode u.salt.toList ++ comma ::
    (smHexEncode u.hash.toList ++ comma :: (smRoleToStr u.role ++ comma ::
    (decimal u.failedAttempts.toNat ++ comma :: signedDecimal u.lockedUntil))))

theorem userLine_eq (u : UserRecord) : userLine u = userBody u ++ [newline] := by
  simp only [userLine, userBody, List.append_assoc, List.cons_append]

theorem smHexEncode_ne_nil {n : ℕ} (v : Vector UInt8 (n + 1)) : smHexEncode v.toList ≠ [] := by
  intro h
  have hlen := congrArg List.length h
  rw [smHexEncode_length, Vector.length_toList, List.length_nil] at hlen
  omega

theorem GoodUser.scan {u : UserRecord} (h : GoodUser u) :
    scanCredential (userBody u) = some (u.username.chars, smHexEncode u.salt.toList,
      smHexEncode u.hash.toList, smRoleToStr u.role, u.failedAttempts.toNat, u.lockedUntil) := by
  obtain ⟨hrne, hrlen, hrgt⟩ := smRoleToStr_text u.role
  have hslen : (smHexEncode u.salt.toList).length ≤ 32 := by
    rw [smHexEncode_length, Vector.length_toList]
    decide
  have hhlen : (smHexEncode u.hash.toList).length ≤ 64 := by
    rw [smHexEncode_length, Vector.length_toList]
  have hname : u.username.chars.length ≤ 32 := u.username.fits
  have hsalt := PlainText.of_gt (smHexEncode_gt u.salt.toList)
  have hhash := PlainText.of_gt (smHexEncode_gt u.hash.toList)
  simp only [scanCredential, userBody]
  rw [scanSet_comma h.plain h.nonempty hname, scanComma,
    scanSet_comma hsalt (smHexEncode_ne_nil u.salt) hslen, scanComma,
    scanSet_comma hhash (smHexEncode_ne_nil u.hash) hhlen, scanComma,
    scanSet_comma (.of_gt hrgt) hrne hrlen, scanComma, scanUInt_comma, scanComma,
    scanInt_end h.lockedUntil]
  rfl

theorem GoodUser.body_plain {u : UserRecord} (h : GoodUser u) :
    ∀ c ∈ userBody u, c ≠ 0 ∧ c ≠ newline ∧ c ≠ carriageReturn := by
  have hle : ∀ c : UInt8, comma ≤ c → c ≠ 0 ∧ c ≠ newline ∧ c ≠ carriageReturn := by
    intro c hc
    refine ⟨?_, ?_, ?_⟩ <;> rintro rfl <;> exact absurd hc (by decide)
  have hcons : ∀ {s rest : Str}, (∀ c ∈ s, comma < c) → (∀ c ∈ rest, comma ≤ c) →
      ∀ c ∈ s ++ comma :: rest, comma ≤ c := by
    intro s rest hs hrest c hc
    rcases List.mem_append.mp hc with hc | hc
    · exact UInt8.le_of_lt (hs c hc)
    · rcases List.mem_cons.mp hc with rfl | hc
      · decide
      · exact hrest c hc
  have hrest := hcons (smHexEncode_gt u.salt.toList) (hcons (smHexEncode_gt u.hash.toList)
    (hcons (smRoleToStr_text u.role).2.2 (hcons (decimal_gt u.failedAttempts.toNat)
      fun c hc => UInt8.le_of_lt (signedDecimal_gt u.lockedUntil c hc))))
  intro c hc
  rcases List.mem_append.mp hc with hc | hc
  · obtain ⟨h1, h2, h3, -⟩ := h.plain c hc
    exact ⟨h1, h2, h3⟩
  · rcases List.mem_cons.mp hc with rfl | hc
    · decide
    · exact hle c (hrest c hc)

theorem cutLine_line {s : Str} (h : ∀ c ∈ s, c ≠ 0 ∧ c ≠ newline ∧ c ≠ carriageReturn) :
    cutLine (s ++ [newline]) = s := by
  have hz : cString (s ++ [newline]) = s ++ [newline] := by
    apply List.takeWhile_eq_self_iff.mpr
    intro c hc
    rcases List.mem_append.mp hc with hc | hc
    · simpa using (h c hc).1
    · rw [List.mem_singleton.mp hc]
      decide
  rw [cutLine, hz]
  refine takeWhile_append_stop (fun c hc => ?_) (by simp)
  simpa [and_comm] using (h c hc).2

theorem GoodUser.credentialLine {u : UserRecord} (h : GoodUser u) (huse : u.inUse = true)
    (stale : Str × Str) : credentialLine (userLine u) stale = some u.reread := by
  have hcut : cutLine (userLine u) = userBody u := by
    rw [userLine_eq]
    exact cutLine_line h.body_plain
  have hne : (userBody u).isEmpty = false := by simp [userBody]
  have hhead : ((userBody u).head? == some 35) = false := by
    obtain ⟨c, cs, hc⟩ := List.exists_cons_of_ne_nil h.nonempty
    have hno := h.noComment
    simpa [userBody, hc] using hno
  have hcount : UInt32.ofNat u.failedAttempts.toNat = u.failedAttempts := UInt32.ofNat_toNat
  simp only [SubscriberMgmt.credentialLine, hcut, hne, hhead, Bool.or_self, Bool.false_eq_true,
    if_false, h.scan, Option.bind_eq_bind, Option.bind_some, smHexDecode_vector, hcount,
    CharField.copy, List.take_of_length_le u.username.fits, UserRecord.reread, huse]
  rfl

/-! ### The file -/

theorem userBody_length (u : UserRecord)
    (hl : -2 ^ 63 ≤ u.lockedUntil ∧ u.lockedUntil ≤ 2 ^ 63 - 1) :
    (userBody u).length ≤ 200 := by
  have hname := u.username.fits
  have hrole := (smRoleToStr_text u.role).2.1
  have hfailed : (decimal u.failedAttempts.toNat).length ≤ 10 :=
    decimal_length (by decide) (by have := u.failedAttempts.toNat_lt; omega)
  have hlocked : (signedDecimal u.lockedUntil).length ≤ 20 := by
    have habs : (decimal u.lockedUntil.natAbs).length ≤ 19 := decimal_length (by decide) (by omega)
    unfold signedDecimal
    split
    · exact Nat.succ_le_succ habs
    · omega
  have hsalt : u.salt.toList.length = 16 := Vector.length_toList
  have hhash : u.hash.toList.length = 32 := Vector.length_toList
  simp only [smAuthMaxUsername] at hname
  simp only [userBody, List.length_append, List.length_cons, smHexEncode_length, hsalt, hhash]
  omega

theorem fgetsAll_credentialFile {users : List UserRecord} (h : ∀ u ∈ users, GoodUser u) :
    fgetsAll (smMaxLineLen - 2) (credentialFile users) = credentialHeader :: userLines users := by
  have hhead : credentialHeader = credentialHeader.dropLast ++ [newline] := by decide
  have hbodies : credentialHeader :: userLines users =
      (credentialHeader.dropLast :: (users.filter UserRecord.inUse).map userBody).map
        (· ++ [newline]) := by
    have hlines : userLines users =
        (users.filter UserRecord.inUse).map fun u => userBody u ++ [newline] :=
      List.map_congr_left fun u _ => userLine_eq u
    rw [List.map_cons, List.map_map, ← hhead, hlines]
    rfl
  have hfile : credentialFile users =
      (credentialHeader.dropLast :: (users.filter UserRecord.inUse).map userBody).flatMap
        (· ++ [newline]) := by
    rw [List.flatMap_def, ← hbodies, List.flatten_cons, credentialFile]
  rw [hfile, hbodies]
  apply fgetsAll_lines _
  intro b hb
  rcases List.mem_cons.mp hb with rfl | hb
  · decide
  · obtain ⟨u, hu, rfl⟩ := List.mem_map.mp hb
    have hgood := h u (List.mem_of_mem_filter hu)
    refine ⟨fun hm => (hgood.body_plain _ hm).2.1 rfl, ?_⟩
    exact (userBody_length u hgood.lockedUntil).trans (by decide)

theorem loadUsers_lines (stale : ℕ → Str × Str) (i : ℕ) {users live : List UserRecord}
    (hgood : ∀ u ∈ live, GoodUser u ∧ u.inUse = true)
    (hroom : users.length + live.length ≤ smAuthMaxUsers) :
    loadUsers stale i users (live.map userLine) = users ++ live.map UserRecord.reread := by
  induction live generalizing users i with
  | nil => simp [loadUsers]
  | cons u live ih =>
    obtain ⟨hu, huse⟩ := hgood u (List.mem_cons_self ..)
    rw [List.length_cons] at hroom
    have hlt : users.length < smAuthMaxUsers := by omega
    have hlen : (users ++ [u.reread]).length + live.length ≤ smAuthMaxUsers := by
      rw [List.length_append, List.length_singleton]
      omega
    simp only [List.map_cons, loadUsers, if_pos hlt, hu.credentialLine huse,
      Option.toList_some]
    rw [ih (i + 1) (fun v hv => hgood v (List.mem_cons_of_mem _ hv)) hlen, List.append_assoc]
    rfl

/-- The file of a save is read as the live accounts. -/
theorem loadUsersLocked_saved (stale : ℕ → Str × Str) {users : List UserRecord}
    (hgood : ∀ u ∈ users, GoodUser u) (hlen : users.length ≤ smAuthMaxUsers) :
    loadUsersLocked stale (credentialFile users) = readBack users := by
  have hhead : credentialLine credentialHeader (stale 0) = none := by
    have hcut : cutLine credentialHeader = credentialHeader.dropLast := by decide
    have hcomment : (credentialHeader.dropLast.head? == some 35) = true := by decide
    simp only [credentialLine, hcut, hcomment, Bool.or_true, if_true]
  rw [loadUsersLocked, fgetsAll_credentialFile hgood]
  simp only [loadUsers, List.length_nil, if_pos (show 0 < smAuthMaxUsers by decide), hhead,
    Option.toList_none, List.append_nil, userLines]
  rw [loadUsers_lines stale _ (fun u hu => ⟨hgood u (List.mem_of_mem_filter hu),
    List.of_mem_filter hu⟩) ?_, List.nil_append, readBack]
  rw [List.length_nil, Nat.zero_add]
  exact (List.length_filter_le _ _).trans hlen

/-! ### Accounts that a run makes -/

theorem scanCredential_some {line name salt hash role : Str} {failed : ℕ} {locked : ℤ}
    (h : scanCredential line = some (name, salt, hash, role, failed, locked)) :
    (name = (line.take 32).takeWhile (· != comma) ∧ name ≠ [] ∧ name.length ≤ 32) ∧
      -2 ^ 63 ≤ locked ∧ locked ≤ 2 ^ 63 - 1 := by
  simp only [scanCredential, Option.bind_eq_bind, Option.bind_eq_some_iff, Prod.exists, pure,
    Option.some.injEq, Prod.mk.injEq] at h
  obtain ⟨n, s1, h1, s2, -, a, s3, -, s4, -, b, s5, -, s6, -, c, s7, -, s8, -, d, s9, -, s10, -, l,
    s11, hl, rfl, -, -, -, -, rfl⟩ := h
  exact ⟨scanSet_some h1, scanInt_range (by decide) hl⟩

theorem cutLine_plain (piece : Str) :
    ∀ c ∈ cutLine piece, c ≠ 0 ∧ c ≠ newline ∧ c ≠ carriageReturn := by
  intro c hc
  have h1 := List.mem_takeWhile_imp hc
  have h2 := List.mem_takeWhile_imp ((List.takeWhile_prefix _).subset hc)
  simp only [Bool.and_eq_true, bne_iff_ne] at h1
  exact ⟨by simpa using h2, h1.2, h1.1⟩

theorem credentialLine_role {piece : Str} {stale : Str × Str} {u : UserRecord}
    (h : credentialLine piece stale = some u) : u.role.IsEnumerator := by
  unfold credentialLine at h
  dsimp only at h
  split at h
  case isTrue => cases h
  case isFalse hline =>
    simp only [Option.bind_eq_bind, Option.bind_eq_some_iff, Prod.exists, pure,
      Option.some.injEq] at h
    obtain ⟨name, salt, hash, role, failed, locked, hscan, s, -, d, -, rfl⟩ := h
    exact smRoleFromStr_enumerator _

theorem credentialLine_good {piece : Str} {stale : Str × Str} {u : UserRecord}
    (h : credentialLine piece stale = some u) : GoodUser u := by
  unfold credentialLine at h
  dsimp only at h
  split at h
  case isTrue => cases h
  case isFalse hline =>
    simp only [Option.bind_eq_bind, Option.bind_eq_some_iff, Prod.exists, pure,
      Option.some.injEq] at h
    obtain ⟨name, salt, hash, role, failed, locked, hscan, s, -, d, -, rfl⟩ := h
    obtain ⟨⟨htext, hne, hlen⟩, hrange⟩ := scanCredential_some hscan
    have hchars : (CharField.copy smAuthMaxUsername name).chars = name :=
      CharField.copy_chars hlen
    have hsub : name.Sublist (cutLine piece) := by
      rw [htext]
      exact (List.takeWhile_prefix _).sublist.trans (List.take_sublist _ _)
    refine ⟨by rwa [hchars], fun c hc => ?_, ?_, hrange⟩
    · rw [hchars] at hc
      obtain ⟨h0, hn, hr⟩ := cutLine_plain piece c (hsub.subset hc)
      refine ⟨h0, hn, hr, ?_⟩
      rw [htext] at hc
      simpa using List.mem_takeWhile_imp hc
    · rw [hchars]
      -- the name starts where the line does
      cases hcut : cutLine piece with
      | nil => simp [hcut] at hline
      | cons c cs =>
        have hc : c ≠ 35 := by simpa [hcut] using hline
        rw [htext, hcut, List.take_succ_cons, List.takeWhile_cons]
        split
        · simpa using hc
        · simp

theorem loadUsers_good (stale : ℕ → Str × Str) (i : ℕ) {users : List UserRecord}
    (pieces : List Str) (hgood : ∀ u ∈ users, GoodUser u)
    (hroom : users.length ≤ smAuthMaxUsers) :
    (∀ u ∈ loadUsers stale i users pieces, GoodUser u) ∧
      (loadUsers stale i users pieces).length ≤ smAuthMaxUsers := by
  induction pieces generalizing users i with
  | nil => exact ⟨hgood, hroom⟩
  | cons piece pieces ih =>
    unfold loadUsers
    split
    case isFalse => exact ⟨hgood, hroom⟩
    case isTrue hlt =>
      refine ih (i + 1) (fun u hu => ?_) ?_
      · rcases List.mem_append.mp hu with hu | hu
        · exact hgood u hu
        · exact credentialLine_good (Option.mem_toList.mp hu)
      · have hone : (credentialLine piece (stale i)).toList.length ≤ 1 := by
          cases credentialLine piece (stale i) <;> simp
        rw [List.length_append]
        omega

theorem loadUsers_roles (stale : ℕ → Str × Str) (i : ℕ) {users : List UserRecord}
    (pieces : List Str) (h : ∀ u ∈ users, u.role.IsEnumerator) :
    ∀ u ∈ loadUsers stale i users pieces, u.role.IsEnumerator := by
  induction pieces generalizing users i with
  | nil => exact h
  | cons piece pieces ih =>
    unfold loadUsers
    split
    case isFalse => exact h
    case isTrue =>
      apply ih (i + 1)
      intro u hu
      rcases List.mem_append.mp hu with hu | hu
      · exact h u hu
      · exact credentialLine_role (Option.mem_toList.mp hu)

theorem GoodUser.update {u v : UserRecord} (h : GoodUser u) (hname : v.username = u.username)
    (hrange : -2 ^ 63 ≤ v.lockedUntil ∧ v.lockedUntil ≤ 2 ^ 63 - 1) : GoodUser v :=
  ⟨hname ▸ h.nonempty, hname ▸ h.plain, hname ▸ h.noComment, hrange⟩

theorem GoodUser.seeded {name : Str} (hne : name ≠ []) (hlen : name.length ≤ smAuthMaxUsername)
    (hgt : ∀ c ∈ name, comma < c) (salt : Salt) (password : Str) (role : SmRole) :
    GoodUser ⟨true, CharField.copy _ name, salt, hashPassword salt password, role, 0, 0⟩ := by
  have hchars : (CharField.copy smAuthMaxUsername name).chars = name := CharField.copy_chars hlen
  refine ⟨by rwa [hchars], by rw [hchars]; exact .of_gt hgt, ?_, by simp⟩
  rw [hchars]
  intro hhead
  exact absurd (hgt 35 (List.mem_of_mem_head? hhead)) (by decide)

theorem isNameChar_gt {c : UInt8} (h : isNameChar c = true) : comma < c := by
  simp only [isNameChar, isDigit, Bool.or_eq_true, Bool.and_eq_true, decide_eq_true_eq, beq_iff_eq,
    UInt8.le_iff_toNat_le, ← UInt8.toNat_inj] at h
  rw [UInt8.lt_iff_toNat_lt]
  simp only [comma, UInt8.reduceToNat] at h ⊢
  omega

theorem validUsername_fits {username : Str} (h : validUsername username = true) :
    username.length ≤ smAuthMaxUsername := by
  simp only [validUsername, Bool.and_eq_true, decide_eq_true_eq] at h
  exact h.1.2

theorem GoodUser.created {username : Str} (h : validUsername username = true) (salt : Salt)
    (password : Str) (role : SmRole) :
    GoodUser ⟨true, CharField.copy _ username, salt, hashPassword salt password, role, 0, 0⟩ := by
  simp only [validUsername, Bool.and_eq_true, decide_eq_true_eq, List.all_eq_true] at h
  obtain ⟨⟨hpos, hlen⟩, hchars⟩ := h
  exact .seeded (fun he => hpos (by rw [he]; rfl)) hlen (fun c hc => isNameChar_gt (hchars c hc))
    _ _ _

/-- The clock is a `time_t`, and a lock that starts now ends before its range
does. -/
def AuthOp.InTime : AuthOp → Prop
  | .login _ _ _ input => -2 ^ 63 ≤ input.now ∧ input.now + smAuthLockoutSeconds < 2 ^ 63
  | _ => True

structure AccountsInv (users : List UserRecord) : Prop where
  good : ∀ u ∈ users, GoodUser u
  room : users.length ≤ smAuthMaxUsers

theorem AccountsInv.set {users : List UserRecord} (h : AccountsInv users) {i : ℕ} {u v : UserRecord}
    {name : Str} (hfind : findUserLocked users name = some (i, u)) (hname : v.username = u.username)
    (hrange : -2 ^ 63 ≤ v.lockedUntil ∧ v.lockedUntil ≤ 2 ^ 63 - 1) :
    AccountsInv (users.set i v) := by
  have hu := h.good u (List.mem_of_getElem? (findUserLocked_some hfind).1)
  refine ⟨fun w hw => ?_, by rw [List.length_set]; exact h.room⟩
  rcases List.mem_or_eq_of_mem_set hw with hw | rfl
  · exact h.good w hw
  · exact hu.update hname hrange

theorem AccountsInv.append {users : List UserRecord} (h : AccountsInv users) {u : UserRecord}
    (hu : GoodUser u) (hroom : users.length < smAuthMaxUsers) : AccountsInv (users ++ [u]) := by
  refine ⟨fun v hv => ?_, by rw [List.length_append]; exact hroom⟩
  rcases List.mem_append.mp hv with hv | hv
  · exact h.good v hv
  · rw [List.mem_singleton.mp hv]
    exact hu

theorem AccountsInv.step {s : AuthState} (h : AccountsInv s.users) {op : AuthOp}
    (hop : op.InTime) : AccountsInv (authStep s op).1.users := by
  have ht := authStep_users s op
  have hold : ∀ {name i u}, findUserLocked s.users name = some (i, u) → GoodUser u :=
    fun hfind => h.good _ (List.mem_of_getElem? (findUserLocked_some hfind).1)
  generalize (authStep s op).1.users = users at ht
  cases ht with
  | same => exact h
  | @loaded path input users hread =>
    unfold readUsers at hread
    split at hread
    case isFalse => cases hread
    case isTrue =>
      obtain ⟨content, -, rfl⟩ := Option.map_eq_some_iff.mp hread
      obtain ⟨hgood, hlen⟩ := loadUsers_good input.stale 0 (fgetsAll (smMaxLineLen - 2) content)
        (fun u hu => absurd hu List.not_mem_nil) (Nat.zero_le _)
      exact ⟨hgood, hlen⟩
  | @seeded path input =>
    refine ⟨fun u hu => ?_, (show 3 ≤ smAuthMaxUsers by decide)⟩
    simp only [seedDefaultUsersLocked, List.mem_cons, List.not_mem_nil, or_false] at hu
    rcases hu with rfl | rfl | rfl
    · exact @GoodUser.seeded (lit "admin") (by decide) (by decide) (by simp [lit, comma]) _ _ _
    · exact @GoodUser.seeded (lit "operator") (by decide) (by decide) (by simp [lit, comma]) _ _ _
    · exact @GoodUser.seeded (lit "viewer") (by decide) (by decide) (by simp [lit, comma]) _ _ _
  | @failed username password input i u hfind =>
    refine h.set hfind rfl ?_
    have hrange := (hold hfind).lockedUntil
    simp only [AuthOp.InTime, smAuthLockoutSeconds] at hop
    simp only [countFailure, smAuthLockoutSeconds]
    split <;> omega
  | accepted hfind => exact h.set hfind rfl (by simp [UserRecord.cleared])
  | recovered hfind =>
    exact h.set hfind rfl (by simp [UserRecord.cleared, UserRecord.withPassword])
  | @created username password role salt io hname hrole hnew hroom =>
    exact h.append (.created hname _ _ _) hroom
  | rewritten hfind => exact h.set hfind rfl (hold hfind).lockedUntil
  | deleted hfind => exact h.set hfind rfl (hold hfind).lockedUntil

theorem authRun_accounts (files : Str → Option Str) {ops : List AuthOp}
    (hops : ∀ op ∈ ops, op.InTime) : AccountsInv (authRun files ops).users := by
  have hstart : AccountsInv (AuthState.start files).users :=
    ⟨fun u hu => (by cases hu), Nat.zero_le _⟩
  exact @Machine.final_keeps _ _ _ authStep (fun s => AccountsInv s.users) AuthOp.InTime
    (fun _ _ hs hop => hs.step hop) _ hstart ops hops

/-- No role outside the enumerators is given to an account. -/
def AuthOp.Listed : AuthOp → Prop
  | .createUser _ _ role _ _ => role.IsEnumerator
  | _ => True

theorem roles_step {s : AuthState} (h : ∀ u ∈ s.users, u.role.IsEnumerator) {op : AuthOp}
    (hop : op.Listed) : ∀ u ∈ (authStep s op).1.users, u.role.IsEnumerator := by
  have ht := authStep_users s op
  have hset : ∀ {name i u} {v : UserRecord}, findUserLocked s.users name = some (i, u) →
      v.role = u.role → ∀ w ∈ s.users.set i v, w.role.IsEnumerator := by
    intro name i u v hfind hrole w hw
    rcases List.mem_or_eq_of_mem_set hw with hw | rfl
    · exact h w hw
    · exact hrole ▸ h u (List.mem_of_getElem? (findUserLocked_some hfind).1)
  generalize (authStep s op).1.users = users at ht
  cases ht with
  | same => exact h
  | @loaded path input users hread =>
    unfold readUsers at hread
    split at hread
    case isFalse => cases hread
    case isTrue =>
      obtain ⟨content, -, rfl⟩ := Option.map_eq_some_iff.mp hread
      exact loadUsers_roles input.stale 0 _ fun u hu => absurd hu List.not_mem_nil
  | seeded =>
    intro u hu
    simp only [seedDefaultUsersLocked, List.mem_cons, List.not_mem_nil, or_false] at hu
    rcases hu with rfl | rfl | rfl <;> trivial
  | failed hfind => exact hset hfind rfl
  | accepted hfind => exact hset hfind rfl
  | recovered hfind => exact hset hfind rfl
  | created =>
    intro u hu
    rcases List.mem_append.mp hu with hu | hu
    · exact h u hu
    · rw [List.mem_singleton.mp hu]
      exact hop
  | rewritten hfind => exact hset hfind rfl
  | deleted hfind => exact hset hfind rfl

theorem authRun_roles (files : Str → Option Str) {ops : List AuthOp}
    (hops : ∀ op ∈ ops, op.Listed) : ∀ u ∈ (authRun files ops).users, u.role.IsEnumerator := by
  have hstart : ∀ u ∈ (AuthState.start files).users, u.role.IsEnumerator := fun u hu => by cases hu
  exact @Machine.final_keeps _ _ _ authStep (fun s => ∀ u ∈ s.users, u.role.IsEnumerator)
    AuthOp.Listed (fun _ _ hs hop => roles_step hs hop) _ hstart ops hops

/-! ### What a successful call leaves on the disk -/

/-- The file at `path` reads as `accounts`, whatever stands behind the strings
that `sm_hex_decode` is given. -/
def ReadsAs (files : Str → Option Str) (path : Str) (accounts : List UserRecord) : Prop :=
  ∃ content, files path = some content ∧ ∀ stale, loadUsersLocked stale content = accounts

def Durable (path : Str) (s : AuthState) : Prop :=
  ReadsAs s.disk.files path (s.users.filter UserRecord.inUse)

theorem AuthState.save_reads {s : AuthState} {io : UserIo} (hok : (s.save io).1 = .ok)
    (h : AccountsInv s.users) :
    ReadsAs (s.save io).2.disk.files s.usersPath.chars (readBack s.users) :=
  ⟨_, saveUsersLocked_written hok, fun stale => loadUsersLocked_saved stale h.good h.room⟩

theorem authCreateUser_saves {s : AuthState} {username password : Option Str} {role : SmRole}
    {salt : Salt} {io : UserIo} (hok : (authCreateUser s username password role salt io).1 = .ok) :
    ∃ s' : AuthState, authCreateUser s username password role salt io = s'.save io := by
  cases username with
  | none => cases hok
  | some username =>
  cases password with
  | none => cases hok
  | some password =>
  simp only [authCreateUser] at hok ⊢
  cases harg : !validUsername username || decide (password.length < 8) || role == .unknown with
  | true => simp [harg] at hok
  | false =>
  cases hnew : findUserLocked s.users username with
  | some e => simp [harg, hnew] at hok
  | none =>
  by_cases hroom : smAuthMaxUsers ≤ s.users.length
  · simp [harg, hnew, hroom] at hok
  · simp only [Bool.false_eq_true, if_false, hroom]
    exact ⟨_, rfl⟩

theorem changePasswordLocked_saves {s : AuthState} {caller : AuthUser}
    {oldPassword newPassword : Str} {salt : Salt} {lockOk : Bool} {io : UserIo}
    (hok : (changePasswordLocked s caller oldPassword newPassword salt lockOk io).1 = .ok) :
    ∃ s' : AuthState,
      changePasswordLocked s caller oldPassword newPassword salt lockOk io = s'.save io := by
  cases lockOk with
  | false => cases hok
  | true =>
  simp only [changePasswordLocked, Bool.not_true, Bool.false_eq_true, if_false] at hok ⊢
  cases hfind : findUserLocked s.users caller.username.chars with
  | none => simp [hfind] at hok
  | some e =>
  cases hhash : consttimeEq (hashPassword e.2.salt oldPassword) e.2.hash with
  | false => simp [hfind, hhash] at hok
  | true => exact ⟨_, by simp only [hhash, Bool.not_true, Bool.false_eq_true, if_false]; rfl⟩

theorem authDeleteUser_saves {s : AuthState} {username : Option Str} {io : UserIo}
    (hok : (authDeleteUser s username io).1 = .ok) :
    ∃ s' : AuthState, authDeleteUser s username io = s'.save io := by
  cases username with
  | none => cases hok
  | some username =>
  simp only [authDeleteUser] at hok ⊢
  cases hfind : findUserLocked s.users username with
  | none => simp [hfind] at hok
  | some e => exact ⟨_, rfl⟩

/-- The accounts can be read back from a save, and the module keeps them at `path`. -/
structure StoresAt (path : Str) (s : AuthState) : Prop where
  accounts : AccountsInv s.users
  roles : ∀ u ∈ s.users, u.role.IsEnumerator
  path : s.usersPath.chars = path

theorem StoresAt.congr {path : Str} {s s' : AuthState} (h : StoresAt path s)
    (husers : s'.users = s.users) (hpath : s'.usersPath = s.usersPath) : StoresAt path s' := by
  refine ⟨?_, ?_, ?_⟩
  · rw [husers]
    exact h.accounts
  · rw [husers]
    exact h.roles
  · rw [hpath]
    exact h.path

/-- A section that ends in a save leaves its accounts on the disk. -/
theorem StoresAt.durable_of_save {path : Str} {s s' : AuthState} (h : StoresAt path s)
    (op : AuthOp) {io : UserIo} (hop : op.InTime) (hlisted : op.Listed) (hsame : op.path = none)
    (hstep : (authStep s op).1 = (s'.save io).2) (hok : (s'.save io).1 = .ok) :
    Durable path (s'.save io).2 := by
  have hinv := h.accounts.step hop
  have hroles := roles_step h.roles hlisted
  have hpath : s'.usersPath.chars = path := by
    have hp := authStep_path s op
    rw [hstep, hsame] at hp
    exact (congrArg CharField.chars hp).trans h.path
  rw [hstep] at hinv hroles
  obtain ⟨content, hfile, hread⟩ := AuthState.save_reads hok hinv
  rw [hpath] at hfile
  have hsame' : readBack s'.users = s'.users.filter UserRecord.inUse :=
    (List.map_congr_left fun u hu =>
      UserRecord.reread_eq (hroles u (List.mem_of_mem_filter hu))).trans (List.map_id' _)
  exact ⟨content, hfile, fun stale => (hread stale).trans hsame'⟩

theorem StoresAt.rewrite_durable {path : Str} {s : AuthState} (h : StoresAt path s)
    {caller : AuthUser} {oldPassword newPassword : Str} {salt : Salt} {lockOk : Bool} {io : UserIo}
    (hok : (changePasswordLocked s caller oldPassword newPassword salt lockOk io).1 = .ok) :
    Durable path (changePasswordLocked s caller oldPassword newPassword salt lockOk io).2 := by
  obtain ⟨s', hs'⟩ := changePasswordLocked_saves hok
  rw [hs'] at hok ⊢
  exact h.durable_of_save (.rewrite caller oldPassword newPassword salt lockOk io) trivial trivial
    rfl (congrArg Prod.snd hs') hok

def AccountOp.Listed : AccountOp → Prop
  | .create _ _ role _ => role.IsEnumerator
  | _ => True

theorem StoresAt.call_durable {path : Str} {s : AuthState} (h : StoresAt path s) {op : AccountOp}
    {io : UserIo} (hop : op.Listed) (hok : (accountCall s op io).1 = .ok) :
    Durable path (accountCall s op io).2 := by
  cases op with
  | create username password role salt =>
    obtain ⟨s', hs'⟩ := authCreateUser_saves hok
    simp only [accountCall] at hok ⊢
    rw [hs'] at hok ⊢
    exact h.durable_of_save (.createUser username password role salt io) trivial hop rfl
      (congrArg Prod.snd hs') hok
  | delete username =>
    obtain ⟨s', hs'⟩ := authDeleteUser_saves hok
    simp only [accountCall] at hok ⊢
    rw [hs'] at hok ⊢
    exact h.durable_of_save (.deleteUser username io) trivial trivial rfl
      (congrArg Prod.snd hs') hok
  | changePassword token oldPassword newPassword now salt lockOk =>
    -- the session is verified first, which leaves the accounts alone
    simp only [accountCall, authChangePassword] at hok ⊢
    split at hok
    case h_2 => cases hok
    case h_1 token oldPassword newPassword =>
      split at hok
      case isTrue => cases hok
      case isFalse hshort =>
        rw [if_neg hshort]
        obtain ⟨husers, hupath⟩ := authVerifySession_accounts s (some token) now
        have herr := @authVerifySession_error s (some token) now
        generalize authVerifySession s (some token) now = v at hok husers hupath herr ⊢
        obtain ⟨r, s1⟩ := v
        cases r with
        | error st => exact absurd hok (herr st rfl)
        | ok caller => exact (h.congr husers hupath).rewrite_durable hok

/-- Whatever ran since the last `auth_init`, with a path shorter than its buffer:
a call on the accounts that succeeds leaves them on the disk, also when other
sections came between the two of a password change. -/
theorem accounts_durable (files : Str → Option Str) (ops : List AuthOp)
    (htime : ∀ op ∈ ops, op.InTime) (hlisted : ∀ op ∈ ops, op.Listed) (path : Str)
    (hpath : (ops.filterMap AuthOp.path).getLast? = some path) (hlen : path.length < 512) :
    (∀ (op : AccountOp) io, op.Listed → (accountCall (authRun files ops) op io).1 = .ok →
      Durable path (accountCall (authRun files ops) op io).2) ∧
    ∀ caller oldPassword newPassword salt lockOk io,
      (changePasswordLocked (authRun files ops) caller oldPassword newPassword salt lockOk io).1 =
        .ok →
      Durable path
        (changePasswordLocked (authRun files ops) caller oldPassword newPassword salt lockOk io).2 := by
  have hchars : (authRun files ops).usersPath.chars = path := by
    rw [authRun, final_path, hpath]
    exact CharField.copy_chars (Nat.le_of_lt_succ hlen)
  have h : StoresAt path (authRun files ops) :=
    ⟨authRun_accounts files htime, authRun_roles files hlisted, hchars⟩
  exact ⟨fun _ _ hop hok => h.call_durable hop hok, fun _ _ _ _ _ _ hok =>
    h.rewrite_durable hok⟩

theorem accounts_durable_bob :
    Durable (lit "u.csv") (accountCall (authRun (adminFile 48 (lit "0")) [adminInit])
      (.create (some (lit "bob")) (some (lit "password")) .operator (Vector.replicate _ 7))
      UserIo.all).2 :=
  (accounts_durable (adminFile 48 (lit "0")) [adminInit]
    (fun op hop => by rw [List.mem_singleton.mp hop]; trivial)
    (fun op hop => by rw [List.mem_singleton.mp hop]; trivial) (lit "u.csv") rfl (by decide)).1
    (.create (some (lit "bob")) (some (lit "password")) .operator (Vector.replicate _ 7)) UserIo.all
    trivial (by
      rw [authRun_adminInit adminFile_loads]
      rfl)

/-- A role outside the enumerators is not refused and not read back. -/
theorem unlisted_role_not_durable :
    let r := accountCall (authRun (adminFile 48 (lit "0")) [adminInit])
      (.create (some (lit "bob")) (some (lit "password")) (.other 7) (Vector.replicate _ 7))
      UserIo.all
    r.1 = .ok ∧ ¬ Durable (lit "u.csv") r.2 := by
  have hinit : AccountsInv (authRun (adminFile 48 (lit "0")) [adminInit]).users :=
    authRun_accounts _ fun op hop => by
      rw [List.mem_singleton.mp hop]
      trivial
  rw [authRun_adminInit adminFile_loads] at hinit ⊢
  intro r
  have hok : r.1 = .ok := rfl
  refine ⟨hok, fun ⟨content, hfile, hread⟩ => ?_⟩
  obtain ⟨s', hs'⟩ := authCreateUser_saves hok
  have hr : r = s'.save UserIo.all := hs'
  have hinv : AccountsInv r.2.users := @AccountsInv.step _ hinit (.createUser (some (lit "bob"))
    (some (lit "password")) (.other 7) (Vector.replicate _ 7) UserIo.all) trivial
  have hpath : s'.usersPath.chars = lit "u.csv" := by
    have hp : r.2.usersPath.chars = lit "u.csv" := rfl
    rwa [hr] at hp
  rw [hr] at hok hinv hfile hread
  obtain ⟨content', hfile', hread'⟩ := AuthState.save_reads hok hinv
  rw [hpath, hfile] at hfile'
  cases hfile'
  have hroles := congrArg (List.map UserRecord.role)
    ((hread fun _ => ([], [])).symm.trans (hread' fun _ => ([], [])))
  have husers : s'.users = r.2.users := by rw [hr]; rfl
  have hold : (r.2.users.filter UserRecord.inUse).map UserRecord.role = [.admin, .other 7] := rfl
  have hnew : (readBack r.2.users).map UserRecord.role = [.admin, .unknown] := rfl
  rw [← husers] at hold hnew
  have hne : ([.admin, .other 7] : List SmRole) ≠ [.admin, .unknown] := by decide
  exact hne (hold.symm.trans (hroles.trans hnew))

/-! ### The file at the start -/

/-- `auth_init` leaves a file at `path` as it is and takes the accounts from it,
whatever its other operations do and whatever bytes are drawn. -/
def KeepsStore (s : AuthState) (path : Str) (readOk : Bool) : Prop :=
  ∀ input, input.readOk = readOk → ∀ content, s.disk.files path = some content →
    (authInit s (some path) input).2.disk.files path = some content ∧
      (authInit s (some path) input).2.users = loadUsersLocked input.stale content

theorem authInit_read {s : AuthState} {path : Str} {input : InitInput} {content : Str}
    (hfile : s.disk.files path = some content) (hread : input.readOk = true) :
    (authInit s (some path) input).2.disk = s.disk ∧
      (authInit s (some path) input).2.users = loadUsersLocked input.stale content := by
  have hr : readUsers s.disk.files path input = some (loadUsersLocked input.stale content) := by
    simp only [readUsers, hread, if_true, hfile, Option.map_some]
  simp only [authInit, hr, and_self]

theorem authInit_unread {s : AuthState} {path : Str} {input : InitInput}
    (hread : input.readOk = false) :
    (authInit s (some path) input).2.users =
      seedDefaultUsersLocked input.adminSalt input.operator input.viewer := by
  have hr : readUsers s.disk.files path input = none := by
    simp only [readUsers, hread, Bool.false_eq_true, if_false]
  simp only [authInit, hr]

def drawn (readOk : Bool) (byte : UInt8) : InitInput :=
  ⟨readOk, fun _ => ([], []), Vector.replicate _ byte,
    ⟨Vector.replicate _ 0, Vector.replicate _ 0⟩, ⟨Vector.replicate _ 0, Vector.replicate _ 0⟩,
    UserIo.all⟩

/-- A credential file survives `auth_init` exactly when it can be opened: an open
that fails is taken for a file that does not exist. -/
theorem auth_init_keeps_store_iff (s : AuthState) (path : Str) (readOk : Bool) :
    KeepsStore s path readOk ↔ s.disk.files path = none ∨ readOk = true := by
  constructor
  · intro hkeep
    cases hfile : s.disk.files path with
    | none => exact Or.inl rfl
    | some content =>
      cases readOk with
      | true => exact Or.inr rfl
      | false =>
        -- the accounts depend on the bytes drawn, and so are not those of the file
        have h0 := (hkeep (drawn false 0) rfl content hfile).2
        have h1 := (hkeep (drawn false 1) rfl content hfile).2
        rw [authInit_unread rfl] at h0 h1
        have hsalt := congrArg (List.map UserRecord.salt) (h0.trans h1.symm)
        simp only [seedDefaultUsersLocked, seedUser, List.map_cons, List.cons.injEq] at hsalt
        have hne : (Vector.replicate 16 0 : Salt) ≠ Vector.replicate 16 1 := by decide
        exact absurd hsalt.1 hne
  · intro h input hread content hfile
    obtain hnone | rfl := h
    · rw [hnone] at hfile
      cases hfile
    · obtain ⟨hdisk, husers⟩ := authInit_read hfile hread
      exact ⟨by rw [hdisk, hfile], husers⟩

/-- The file is there but cannot be opened: the default accounts take its place. -/
theorem auth_init_overwrites :
    let r := authInit (AuthState.start (adminFile 48 (lit "0"))) (some (lit "u.csv"))
      (drawn false 0)
    r.1 = .ok ∧ (∃ content, adminFile 48 (lit "0") (lit "u.csv") = some content ∧
      r.2.disk.files (lit "u.csv") ≠ some content) ∧
      r.2.users.map (fun u => u.username.chars) = [lit "admin", lit "operator", lit "viewer"] := by
  intro r
  have hok : r.1 = .ok := rfl
  refine ⟨hok, ?_, rfl⟩
  have hfile : r.2.disk.files (lit "u.csv") = some (credentialFile (seedDefaultUsersLocked
      (drawn false 0).adminSalt (drawn false 0).operator (drawn false 0).viewer)) :=
    saveUsersLocked_written hok
  refine ⟨_, rfl, fun he => ?_⟩
  have hhead := congrArg (fun o : Option Str => o.bind List.head?) (hfile.symm.trans he)
  exact absurd hhead (by decide)

end SubscriberMgmt

import SubscriberMgmt.Cli
import SubscriberMgmt.SubscriberStore
import SubscriberMgmt.Lib.StateHoare

/-!
# What the menu program does to the store (`main.c:232-476`)

Each action frees the snapshots that it asked for before the menu is printed
again. A law of the calls of `subscriber.c` therefore holds at every menu.
-/

namespace SubscriberMgmt
open StateHoare

/-- An assertion about a database and the snapshots of it that are not freed yet, which the calls
of the menu keep. -/
structure StoreLaw (I : List Subscriber → SStrPool → SubscriberDb → Prop) : Prop where
  add : ∀ {p db}, I [] p db → ∀ imsi msisdn name region plan now a,
    let r := addTyped p db imsi msisdn name region plan now a
    I [] r.strs r.db
  delete : ∀ {p db}, I [] p db → ∀ id,
    I [] (subdbDelete p db id).2.1 (subdbDelete p db id).2.2
  update : ∀ {p db}, I [] p db → ∀ id name region plan statusBuf now a,
    let r := updateTyped p db id name region plan statusBuf now a
    I [] r.2.1 r.2.2
  load : ∀ {p db}, I [] p db → ∀ path files clock a,
    let r := subdbLoadCsv p db path files clock a
    I [] r.strs r.db
  search : ∀ {p db}, I [] p db → ∀ (q : Query) a,
    I ((q.run p db a).1.toOption.getD []) (q.run p db a).2 db
  free : ∀ {p db array}, I array p db → I [] (subdbFreeResults p array) db

/-- A save lists the records and frees the list, or does not come to it. -/
theorem subdbSaveCsv_strs (p : SStrPool) (db : SubscriberDb) (path : Option Str) (io : SaveIo)
    (a : Alloc) (d : Disk Str) :
    let all := subdbListAll p db a
    (subdbSaveCsv p db path io a d).2.1 = p ∨
      (subdbSaveCsv p db path io a d).2.1 = subdbFreeResults all.2 (all.1.toOption.getD []) := by
  intro all
  unfold subdbSaveCsv
  split
  · exact Or.inl rfl
  · dsimp only
    split
    · exact Or.inl rfl
    · split
      · exact Or.inl rfl
      · right
        simp only [all]
        generalize subdbListAll p db a = r
        obtain ⟨st | arr, p'⟩ := r
        · rfl
        · dsimp only
          split <;> rfl

theorem StoreLaw.save {I : List Subscriber → SStrPool → SubscriberDb → Prop} (h : StoreLaw I)
    {p : SStrPool} {db : SubscriberDb} (hs : I [] p db) (path : Option Str) (io : SaveIo)
    (a : Alloc) (d : Disk Str) : I [] (subdbSaveCsv p db path io a d).2.1 db := by
  rcases subdbSaveCsv_strs p db path io a d with he | he
  · rw [he]
    exact hs
  · rw [he]
    exact h.free (h.search hs .all a)

/-- The part of the state that is about the store. -/
def CliState.store (s : CliState) : DbState := (s.strs, s.db)

section Frame

theorem puts_store (text : String) : Leaves CliState.store (puts text) := fun _ => rfl

theorem print_store (text : Str) : Leaves CliState.store (print text) := fun _ => rfl

theorem interact_store : Leaves CliState.store interact := fun _ => rfl

theorem readLine_store (len : ℕ) : Leaves CliState.store (readLine len) := fun _ => rfl

theorem ask_store (prompt : String) (len : ℕ) : Leaves CliState.store (ask prompt len) :=
  Leaves.bind (puts_store _) fun _ => readLine_store _

theorem readMenuChoice_store : Leaves CliState.store readMenuChoice :=
  Leaves.bind (readLine_store _) fun _ => Leaves.pure

theorem readId_store : Leaves CliState.store readId :=
  Leaves.bind (readLine_store _) fun _ => Leaves.pure

theorem printSubscriber_store (sub : Subscriber) : Leaves CliState.store (printSubscriber sub) :=
  fun _ => rfl

theorem login_store (username password : Str) : Leaves CliState.store (login username password) :=
  fun _ => rfl

theorem logout_store (token : Str) : Leaves CliState.store (logout token) := fun _ => rfl

theorem verifySession_store (token : Str) : Leaves CliState.store (verifySession token) :=
  fun _ => rfl

theorem authorize_store (token : Str) (action : SmAction) :
    Leaves CliState.store (authorize token action) := fun _ => rfl

theorem changePassword_store (token oldPassword newPassword : Str) :
    Leaves CliState.store (changePassword token oldPassword newPassword) := fun _ => rfl

theorem setSession_store (session : Option Session) :
    Leaves CliState.store (modify fun s => { s with session := session } : Cli Unit) :=
  fun _ => rfl

theorem loginAttempts_store (attempts : ℕ) : Leaves CliState.store (loginAttempts attempts) := by
  induction attempts with
  | zero => exact puts_store _
  | succ attempts ih =>
    apply Leaves.bind (ask_store _ _)
    intro username
    apply Leaves.bind (puts_store _)
    intro _
    apply Leaves.bind (readLine_store _)
    intro password
    apply Leaves.bind (login_store _ _)
    intro r
    cases r with
    | ok session => exact Leaves.bind (setSession_store _) fun _ => print_store _
    | error st => exact Leaves.bind (print_store _) fun _ => ih

end Frame

section Law

variable {I : List Subscriber → SStrPool → SubscriberDb → Prop}

/-- The law with snapshots held, as an assertion about the program. -/
def Held (I : List Subscriber → SStrPool → SubscriberDb → Prop) (array : List Subscriber)
    (s : CliState) : Prop := I array s.strs s.db

theorem held_keeps {α : Type} {m : Cli α} (hm : Leaves CliState.store m)
    (array : List Subscriber) : Keeps (Held I array) m :=
  hm.triple fun s => I array s.1 s.2

/-! ### Calls -/

theorem change_held {α : Type}
    {f : Outside → SStrPool → SubscriberDb → Disk Str → α × SStrPool × SubscriberDb × Disk Str}
    (hf : ∀ o p db d, I [] p db → I [] (f o p db d).2.1 (f o p db d).2.2.1) (token : Str)
    (action : SmAction) : Keeps (Held I []) (change token action f) :=
  fun s hs => hf (s.outside s.tick) s.strs s.db s.disk hs

theorem query_held {α : Type} {f : Outside → SStrPool → SubscriberDb → α × SStrPool}
    {before : List Subscriber} {after : α → List Subscriber}
    (hf : ∀ o p db, I before p db → I (after (f o p db).1) (f o p db).2 db) :
    Triple (Held I before) (query f) fun r => Held I (after r) :=
  fun s hs => hf (s.outside s.tick) s.strs s.db hs

/-- The snapshot that a search for one subscriber hands out. -/
def foundOne (r : Except SmStatus Subscriber) : List Subscriber := r.toOption.toList

theorem foundOne_eq {r : Except SmStatus Subscriber} :
    (r.map fun s => [s]).toOption.getD [] = foundOne r := by
  cases r <;> rfl

theorem searchOne_held (h : StoreLaw I) (q : Query)
    {find : SStrPool → SubscriberDb → Alloc → Except SmStatus Subscriber × SStrPool}
    (hq : ∀ p db a, q.run p db a = ((find p db a).1.map fun s => [s], (find p db a).2)) :
    Triple (Held I []) (query fun o strs db => find strs db o.alloc) fun r =>
      Held I (foundOne r) := by
  refine query_held fun o p db hs => ?_
  have hsearch := h.search hs q o.alloc
  rw [hq] at hsearch
  rwa [foundOne_eq] at hsearch

theorem searchById_held (h : StoreLaw I) (id : UInt64) :
    Triple (Held I []) (searchById id) fun r => Held I (foundOne r) :=
  searchOne_held h (.byId id) fun _ _ _ => rfl

theorem searchTyped_held (h : StoreLaw I) (how : ℤ) :
    Triple (Held I []) (searchTyped how) fun r => Held I (foundOne r) := by
  refine Triple.ite (fun _ => ?_) fun _ => Triple.ite (fun _ => ?_) fun _ => ?_
  · exact Triple.bind (held_keeps (ask_store _ _) _) fun imsi =>
      searchOne_held h (.byImsi (some imsi)) fun _ _ _ => rfl
  · exact Triple.bind (held_keeps (ask_store _ _) _) fun msisdn =>
      searchOne_held h (.byMsisdn (some msisdn)) fun _ _ _ => rfl
  · refine Triple.bind (held_keeps (puts_store _) _) fun _ => ?_
    exact Triple.bind (held_keeps readId_store _) fun id => searchById_held h id

theorem freeOne_held (h : StoreLaw I) (sub : Subscriber) :
    Triple (Held I [sub]) (freeOne sub) fun _ => Held I [] :=
  query_held fun _ _ _ hs => h.free hs

theorem countByStatus_held (h : StoreLaw I) (status : SubStatus) {p : SStrPool} {db : SubscriberDb}
    (hs : I [] p db) (a : Alloc) : I [] (countByStatus p db status a).2 db := by
  have hsearch := h.search hs (.byStatus status) a
  simp only [Query.run] at hsearch
  unfold countByStatus
  generalize subdbSearchByStatus p db status a = r at hsearch ⊢
  obtain ⟨st | arr, p'⟩ := r
  · exact hsearch
  · exact h.free hsearch

/-! ### Actions -/

/-- What follows an authorization that is granted. -/
theorem granted_held {token : Str} {action : SmAction} {k : Except SmStatus AuthUser → Cli Unit}
    (hrefused : ∀ st, Leaves CliState.store (k (.error st)))
    (hgranted : ∀ user, Keeps (Held I []) (k (.ok user))) :
    Keeps (Held I []) (authorize token action >>= k) := by
  apply Keeps.bind (held_keeps (authorize_store _ _) _)
  intro r
  cases r with
  | error st => exact held_keeps (hrefused st) _
  | ok user => exact hgranted user

theorem actionAdd_held (h : StoreLaw I) (token : Str) : Keeps (Held I []) (actionAdd token) := by
  apply granted_held (fun _ => puts_store _)
  intro _
  apply Keeps.bind (held_keeps (ask_store _ _) _)
  intro imsi
  apply Keeps.bind (held_keeps (ask_store _ _) _)
  intro msisdn
  apply Keeps.bind (held_keeps (ask_store _ _) _)
  intro name
  apply Keeps.bind (held_keeps (ask_store _ _) _)
  intro region
  apply Keeps.bind (held_keeps (ask_store _ _) _)
  intro plan
  exact Keeps.bind (change_held (fun o p db d hs => h.add hs ..) _ _) fun _ =>
    held_keeps (print_store _) _

theorem actionSearch_held (h : StoreLaw I) (token : Str) :
    Keeps (Held I []) (actionSearch token) := by
  apply granted_held (fun _ => puts_store _)
  intro _
  apply Keeps.bind (held_keeps (puts_store _) _)
  intro _
  apply Keeps.bind (held_keeps readMenuChoice_store _)
  intro how
  refine Triple.bind (searchTyped_held h how) fun r => ?_
  cases r with
  | ok sub =>
    exact Triple.bind (held_keeps (printSubscriber_store sub) [sub]) fun _ => freeOne_held h sub
  | error st => exact held_keeps (print_store _) []

theorem actionUpdate_held (h : StoreLaw I) (token : Str) :
    Keeps (Held I []) (actionUpdate token) := by
  apply granted_held (fun _ => puts_store _)
  intro _
  apply Keeps.bind (held_keeps (puts_store _) _)
  intro _
  apply Keeps.bind (held_keeps readId_store _)
  intro id
  refine Triple.bind (searchById_held h id) fun r => ?_
  cases r with
  | error st => exact held_keeps (print_store _) []
  | ok existing =>
    refine Triple.bind (held_keeps (puts_store _) [existing]) fun _ => ?_
    refine Triple.bind (held_keeps (printSubscriber_store existing) [existing]) fun _ => ?_
    refine Triple.bind (freeOne_held h existing) fun _ => ?_
    apply Keeps.bind (held_keeps (ask_store _ _) _)
    intro name
    apply Keeps.bind (held_keeps (ask_store _ _) _)
    intro region
    apply Keeps.bind (held_keeps (ask_store _ _) _)
    intro plan
    apply Keeps.bind (held_keeps (ask_store _ _) _)
    intro statusBuf
    exact Keeps.bind (change_held (fun o p db d hs => h.update hs ..) _ _) fun _ =>
      held_keeps (print_store _) _

theorem actionDelete_held (h : StoreLaw I) (token : Str) :
    Keeps (Held I []) (actionDelete token) := by
  apply granted_held (fun _ => puts_store _)
  intro _
  apply Keeps.bind (held_keeps (puts_store _) _)
  intro _
  apply Keeps.bind (held_keeps readId_store _)
  intro id
  exact Keeps.bind (change_held (fun o p db d hs => h.delete hs id) _ _) fun _ =>
    held_keeps (print_store _) _

theorem actionList_held (h : StoreLaw I) (token : Str) : Keeps (Held I []) (actionList token) := by
  apply granted_held (fun _ => puts_store _)
  intro _
  have hall : Triple (Held I []) (query fun o strs db => subdbListAll strs db o.alloc)
      fun r => Held I (r.toOption.getD []) :=
    query_held fun o p db hs => h.search hs .all o.alloc
  refine Triple.bind hall fun found => ?_
  refine Triple.bind (held_keeps (print_store _) _) fun _ => ?_
  refine Triple.bind (held_keeps (Leaves.forM printSubscriber_store _) _) fun _ => ?_
  exact query_held fun _ _ _ hs => h.free hs

theorem actionReport_held (h : StoreLaw I) (token : Str) :
    Keeps (Held I []) (actionReport token) := by
  apply granted_held (fun _ => puts_store _)
  intro _
  apply Keeps.bind (query_held fun _ _ _ hs => hs)
  intro total
  apply Keeps.bind (held_keeps (puts_store _) _)
  intro _
  apply Keeps.bind (held_keeps (print_store _) _)
  intro _
  apply Keeps.bind (held_keeps (puts_store _) _)
  intro _
  apply Keeps.bind
  · apply Keeps.forM
    intro line
    apply Keeps.bind (query_held fun o _ _ hs => countByStatus_held h line.1 hs o.alloc)
    intro cnt
    exact held_keeps (print_store _) _
  · intro _
    exact held_keeps (puts_store _) _

theorem actionBackup_held (h : StoreLaw I) (token : Str) :
    Keeps (Held I []) (actionBackup token) := by
  apply granted_held (fun _ => puts_store _)
  intro _
  exact Keeps.bind (change_held (fun o p db d hs => h.save hs ..) _ _) fun _ =>
    held_keeps (print_store _) _

theorem actionRestore_held (h : StoreLaw I) (token : Str) :
    Keeps (Held I []) (actionRestore token) := by
  apply granted_held (fun _ => puts_store _)
  intro _
  apply Keeps.bind (held_keeps (ask_store _ _) _)
  intro path
  exact Keeps.bind (change_held (fun o p db d hs => h.load hs ..) _ _) fun _ =>
    held_keeps (print_store _) _

theorem actionViewLogs_store (token : Str) : Leaves CliState.store (actionViewLogs token) := by
  apply Leaves.bind (authorize_store _ _)
  intro r
  cases r with
  | error st => exact puts_store _
  | ok user =>
    apply Leaves.bind interact_store
    intro o
    cases o.log with
    | none => exact puts_store _
    | some content =>
      exact Leaves.bind (print_store _) fun _ =>
        Leaves.bind (print_store _) fun _ => puts_store _

theorem actionMemoryStats_held (token : Str) : Keeps (Held I []) (actionMemoryStats token) := by
  apply granted_held (fun _ => puts_store _)
  intro _
  exact Keeps.bind (query_held fun _ _ _ hs => hs) fun _ => held_keeps (print_store _) _

theorem actionSharedStringStats_held (token : Str) :
    Keeps (Held I []) (actionSharedStringStats token) := by
  apply granted_held (fun _ => puts_store _)
  intro _
  apply Keeps.bind (query_held fun _ _ _ hs => hs)
  intro stats
  cases stats with
  | none => exact held_keeps (puts_store _) _
  | some stats => exact held_keeps (print_store _) _

theorem actionChangePassword_store (token : Str) :
    Leaves CliState.store (actionChangePassword token) := by
  apply Leaves.bind (puts_store _)
  intro _
  apply Leaves.bind (readLine_store _)
  intro oldPw
  apply Leaves.bind (puts_store _)
  intro _
  apply Leaves.bind (readLine_store _)
  intro newPw
  apply Leaves.bind (puts_store _)
  intro _
  apply Leaves.bind (readLine_store _)
  intro confirmPw
  apply Leaves.ite (puts_store _)
  exact Leaves.bind (changePassword_store _ _ _) fun _ => print_store _

/-! ### Menu -/

theorem actionLogin_held : Keeps (Held I []) actionLogin := by
  apply Keeps.get
  intro s _
  cases s.session with
  | some session => exact held_keeps (print_store _) _
  | none => exact held_keeps (loginAttempts_store 3) _

theorem actionLogout_held : Keeps (Held I []) actionLogout := by
  apply Keeps.get
  intro s _
  cases s.session with
  | none => exact held_keeps (puts_store _) _
  | some session =>
    apply Keeps.bind (held_keeps (logout_store _) _)
    intro _
    exact Keeps.bind (held_keeps (print_store _) _) fun _ => held_keeps (setSession_store _) _

theorem requireLogin_held {action : Str → Cli Unit}
    (haction : ∀ token, Keeps (Held I []) (action token)) :
    Keeps (Held I []) (requireLogin action) := by
  apply Keeps.get
  intro s _
  cases s.session with
  | none => exact held_keeps (puts_store _) _
  | some session => exact haction session.token

theorem recheckSession_held : Keeps (Held I []) recheckSession := by
  apply Keeps.get
  intro s _
  cases s.session with
  | none => exact Keeps.pure
  | some session =>
    apply Keeps.bind (held_keeps (verifySession_store _) _)
    intro r
    cases r with
    | ok user => exact Keeps.pure
    | error st =>
      exact Keeps.bind (held_keeps (puts_store _) _) fun _ => held_keeps (setSession_store _) _

theorem menuAction_held (h : StoreLaw I) (choice : ℤ) :
    Keeps (Held I []) (menuAction choice) := by
  have hthen : ∀ {m : Cli Unit} {b : Bool}, Keeps (Held I []) m →
      Keeps (Held I []) (m >>= fun _ => (pure b : Cli Bool)) := fun hm =>
    Keeps.bind hm fun _ => Keeps.pure
  have hleaves : ∀ {m : Cli Unit}, Leaves CliState.store m → Keeps (Held I []) m := fun hm =>
    held_keeps hm _
  refine Triple.ite (fun _ => hthen actionLogin_held) fun _ => ?_
  refine Triple.ite (fun _ => hthen (requireLogin_held (actionAdd_held h))) fun _ => ?_
  refine Triple.ite (fun _ => hthen (requireLogin_held (actionSearch_held h))) fun _ => ?_
  refine Triple.ite (fun _ => hthen (requireLogin_held (actionUpdate_held h))) fun _ => ?_
  refine Triple.ite (fun _ => hthen (requireLogin_held (actionDelete_held h))) fun _ => ?_
  refine Triple.ite (fun _ => hthen (requireLogin_held (actionList_held h))) fun _ => ?_
  refine Triple.ite (fun _ => hthen (requireLogin_held (actionReport_held h))) fun _ => ?_
  refine Triple.ite (fun _ => hthen (requireLogin_held (actionBackup_held h))) fun _ => ?_
  refine Triple.ite (fun _ => hthen (requireLogin_held (actionRestore_held h))) fun _ => ?_
  refine Triple.ite (fun _ => hthen (requireLogin_held fun token =>
    hleaves (actionViewLogs_store token))) fun _ => ?_
  refine Triple.ite (fun _ => hthen (requireLogin_held actionMemoryStats_held)) fun _ => ?_
  refine Triple.ite (fun _ => hthen (requireLogin_held actionSharedStringStats_held)) fun _ => ?_
  refine Triple.ite (fun _ => hthen (requireLogin_held fun token =>
    hleaves (actionChangePassword_store token))) fun _ => ?_
  refine Triple.ite (fun _ => hthen actionLogout_held) fun _ => ?_
  exact Triple.ite (fun _ => hthen (hleaves (puts_store _))) fun _ => hthen (hleaves (puts_store _))

theorem runMenu_held (h : StoreLaw I) : Keeps (Held I []) runMenu := by
  refine Keeps.bind recheckSession_held fun _ => Keeps.get fun s _ => ?_
  refine Triple.ite (fun _ => Keeps.pure) fun _ => ?_
  apply Keeps.bind (held_keeps (puts_store _) _)
  intro _
  apply Keeps.bind (held_keeps readMenuChoice_store _)
  intro choice
  apply Keeps.get
  intro s _
  exact Triple.ite (fun _ => Keeps.pure) fun _ => menuAction_held h choice

/-- At every menu the law holds with no snapshot held. -/
theorem menuRounds_held (h : StoreLaw I) (n : ℕ) : Keeps (Held I []) (menuRounds n) := by
  induction n with
  | zero => exact Keeps.pure
  | succ n ih =>
    exact Keeps.bind (runMenu_held h) fun _ => Triple.ite (fun _ => ih) fun _ => Keeps.pure

end Law

end SubscriberMgmt

import SubscriberMgmt.SubscriberRefinement

/-!
# The texts of records and of snapshots (`subscriber.c:140-160`, `subscriber.c:435-700`)

The array of a search belongs to its client until `subdb_free_results`. While the
clients free only what they hold, and the counts of references fit, each text of a
record and of a snapshot held is a live string.
-/

namespace SubscriberMgmt

/-! ### What clients hold -/

namespace RegistryAction

/-- The arrays that clients hold after an action. -/
def held (s : DbState) (arrays : List (List Subscriber)) :
    RegistryAction → List (List Subscriber)
  | .call (.search q) a => (q.run s.1 s.2 a).1.toOption.toList ++ arrays
  | .free array => arrays.erase array
  | _ => arrays

/-- References that an action may take at one time. -/
def takes (db : SubscriberDb) : RegistryAction → ℕ
  | .call (.add _) _ => 3
  | .call (.update _ _) _ => 3
  | .call (.search q) _ => q.takes db
  | .call (.load path files _) _ => 3 * loadCount path files
  | _ => 0

end RegistryAction

/-- The references of the records and of the snapshots held. -/
def lentRefs (db : SubscriberDb) (arrays : List (List Subscriber)) : List Handle :=
  db.handles ++ arrays.flatten.flatMap Subscriber.handles

@[simp] theorem lentRefs_nil (db : SubscriberDb) : lentRefs db [] = db.handles :=
  List.append_nil _

/-- What is freed is held, and no count of references comes round. -/
structure RegistryAction.May (x : DbState × List (List Subscriber)) (act : RegistryAction) :
    Prop where
  holds : ∀ array, act = .free array → array ∈ x.2
  room : Room (lentRefs x.1.2 x.2) (act.takes x.1.2)

def lendStep (x : DbState × List (List Subscriber)) (act : RegistryAction) :
    (DbState × List (List Subscriber)) × RegistryAnswer :=
  (((registryStep x.1 act).1, act.held x.1 x.2), (registryStep x.1 act).2)

theorem lendStep_final (x : DbState × List (List Subscriber)) (acts : List RegistryAction) :
    (Machine.final lendStep x acts).1 = Machine.final registryStep x.1 acts := by
  induction acts generalizing x with
  | nil => rfl
  | cons act acts ih => exact ih _

/-! ### Each reference is counted -/

/-- The pool has exactly the references of the records and of the snapshots held. -/
structure Lent (x : DbState × List (List Subscriber)) : Prop where
  inv : ∃ listed live bound, DbInv x.1.2 1 listed live bound
  refs : x.1.1.Refs (lentRefs x.1.2 x.2)

theorem Settled.lent {p : SStrPool} {db : SubscriberDb} {arrays : List (List Subscriber)}
    {bound k : ℕ} (h : Settled 1 bound k (arrays.flatten.flatMap Subscriber.handles) p db) :
    Lent ((p, db), arrays) := by
  obtain ⟨listed, live, bound', hinv, -, hrefs⟩ := h
  exact ⟨⟨listed, live, bound', hinv⟩, hrefs⟩

namespace Lent

variable {p : SStrPool} {db : SubscriberDb} {arrays : List (List Subscriber)}

/-- The snapshots of a search are held beside the others. -/
theorem search (h : Lent ((p, db), arrays)) (q : Query)
    (hroom : Room (lentRefs db arrays) (q.takes db)) (a : Alloc) :
    Lent (((q.run p db a).2, db), (q.run p db a).1.toOption.toList ++ arrays) := by
  obtain ⟨listed, live, bound, hinv⟩ := h.inv
  have htaken := q.run_refs hinv h.refs (fun i hi => List.mem_append_left _ hi) hroom a
  refine ⟨h.inv, ?_⟩
  generalize q.run p db a = r at htaken ⊢
  obtain ⟨st | array, p'⟩ := r
  · exact htaken
  · have hrefs : p'.Refs (array.flatMap Subscriber.handles ++ lentRefs db arrays) := htaken
    apply hrefs.perm
    simp only [lentRefs, Except.toOption, Option.toList_some, List.singleton_append,
      List.flatten_cons, List.flatMap_append]
    rw [← List.append_assoc, ← List.append_assoc]
    exact List.perm_append_comm.append_right _

theorem free (h : Lent ((p, db), arrays)) {array : List Subscriber} (harray : array ∈ arrays) :
    Lent ((subdbFreeResults p array, db), arrays.erase array) := by
  refine ⟨h.inv, h.refs.freeResults ?_⟩
  have hperm := ((List.perm_cons_erase harray).flatten).flatMap_right Subscriber.handles
  rw [List.flatten_cons, List.flatMap_append] at hperm
  simp only [lentRefs]
  have hall := hperm.append_left db.handles
  rw [← List.append_assoc] at hall
  refine hall.trans ?_
  rw [← List.append_assoc]
  exact List.perm_append_comm.append_right _

theorem step {x : DbState × List (List Subscriber)} (h : Lent x) {act : RegistryAction}
    (hmay : act.May x) : Lent (lendStep x act).1 := by
  obtain ⟨⟨p, db⟩, arrays⟩ := x
  obtain ⟨listed, live, bound, hinv⟩ := h.inv
  cases act with
  | free array => exact h.free (hmay.holds array rfl)
  | call c a =>
    cases c with
    | add args => exact (subdbAdd_refs hinv h.refs hmay.room ..).1.lent
    | delete id => exact (subdbDelete_refs hinv h.refs id).lent
    | update id c => exact (subdbUpdate_refs hinv h.refs hmay.room ..).lent
    | search q => exact h.search q hmay.room a
    | count => exact h
    | load path files clock =>
      exact (subdbLoadCsv_refs hinv h.refs path files clock a hmay.room).lent

end Lent

/-! ### Runs -/

/-- Every run of a database is a run of the registry that it holds, as long as the ids last. If the
clients free only what they hold and the counts fit, the texts are those of live strings. -/
theorem registry_refines {s : DbState} {r : Registry} (h : r.HeldBy s) (acts : List RegistryAction)
    (hlast : r.last + (acts.map RegistryAction.adds).sum < 2 ^ 64) :
    ∃ r', Machine.Runs Registry.Serves r acts (Machine.outputs registryStep s acts) r' ∧
      r'.HeldBy (Machine.final registryStep s acts) ∧
      ∀ arrays, s.1.Refs (lentRefs s.2 arrays) →
        Machine.Along lendStep RegistryAction.May (s, arrays) acts →
        let t := Machine.final registryStep s acts
        let arrays' := (Machine.final lendStep (s, arrays) acts).2
        (∀ i ∈ lentRefs t.2 arrays', (t.1.cells i).live = true) ∧
          ∀ i, (t.1.cells i).refcount.toNat = (lentRefs t.2 arrays').count i := by
  have hsim : ∀ (n : ℕ) (s : DbState) (r : Registry) (act : RegistryAction),
      r.HeldBy s ∧ r.last ≤ n → n + act.adds ≤ 2 ^ 64 - 1 →
      ∃ r', r.Serves act (registryStep s act).2 r' ∧ r'.HeldBy (registryStep s act).1 ∧
        r'.last ≤ n + act.adds := by
    intro n s r act h hle
    obtain ⟨r', hserves, hheld, hlast⟩ := registryStep_serves h.1 act (by omega)
    exact ⟨r', hserves, hheld, by omega⟩
  obtain ⟨r', hrun, hheld, -⟩ := Machine.refines_within
    (R := fun n (s : DbState) (r : Registry) => r.HeldBy s ∧ r.last ≤ n) hsim
    (n := r.last) ⟨h, le_rfl⟩ acts (by omega)
  refine ⟨r', hrun, hheld, fun arrays hrefs hmay => ?_⟩
  obtain ⟨listed, live, hinv, -⟩ := h.held
  have hlent : Lent (Machine.final lendStep (s, arrays) acts) :=
    hmay.invariant (fun _ _ hx hact => hx.step hact) ⟨⟨listed, live, _, hinv⟩, hrefs⟩
  have hall := hlent.refs
  rw [lendStep_final] at hall
  exact ⟨fun i hi => (hall.live i).mpr hi, hall.count⟩

/-! ### Ann is added, looked for, and added again -/

def annArgs : AddArgs :=
  ⟨some (lit "100000"), some (lit "1000000"), some (lit "Ann"), some (lit "North"),
    some (lit "Gold"), .active, true, 5⟩

def annAccount : Account :=
  ⟨⟨lit "100000", lit "1000000", lit "Ann", lit "North", lit "Gold", .active⟩, 5, 5⟩

def annActions : List RegistryAction :=
  [.call (.add annArgs) Alloc.all, .call (.search (.byRegion (some (lit "North")))) Alloc.all,
    .call (.add annArgs) Alloc.all]

/-- The record and the snapshot of the search have three texts each, all of them live. -/
theorem registry_refines_ann : ∃ db r, subdbCreate Alloc.all = .ok db ∧
    let s : DbState := ((sstrPoolInit SStrPool.start 16 Alloc.all).2, db)
    let t := Machine.final registryStep s annActions
    let refs := lentRefs t.2 (Machine.final lendStep (s, []) annActions).2
    Machine.Runs Registry.Serves Registry.empty annActions
        [.added 1, .rows [(1, annAccount)], .failed .errDuplicate] r ∧
      refs.length = 6 ∧ ∀ i ∈ refs, (t.1.cells i).live = true := by
  have hdb : ∃ db, subdbCreate Alloc.all = .ok db ∧ db.handles = [] ∧
      let s : DbState := ((sstrPoolInit SStrPool.start 16 Alloc.all).2, db)
      Machine.outputs registryStep s annActions =
          [.added 1, .rows [(1, annAccount)], .failed .errDuplicate] ∧
        (lentRefs (Machine.final registryStep s annActions).2
          (Machine.final lendStep (s, []) annActions).2).length = 6 ∧
        Machine.Along lendStep (fun x act => (∀ array, act ≠ .free array) ∧
          (lentRefs x.1.2 x.2).length + act.takes x.1.2 < 2 ^ 32) (s, []) annActions := by
    refine ⟨_, rfl, by decide +kernel, by decide +kernel, by decide +kernel, ?_⟩
    refine ⟨⟨nofun, ?_⟩, ⟨nofun, ?_⟩, ⟨nofun, ?_⟩, trivial⟩
    all_goals decide +kernel
  obtain ⟨db, hdb, hnil, hout, hlen, hroom⟩ := hdb
  have hnew := Registry.HeldBy.create (SStrPool.init_wf SStrPool.start_wf 16 Alloc.all) rfl hdb
  have hrefs : (sstrPoolInit SStrPool.start 16 Alloc.all).2.Refs (lentRefs db []) := by
    rw [lentRefs_nil, hnil]
    exact (Store.Inv.init 16 Alloc.all).refs
  have hmay := hroom.mono fun _ _ hx => RegistryAction.May.mk
    (fun array he => absurd he (hx.1 array)) (Room.of_length hx.2)
  obtain ⟨r, hrun, -, hlive⟩ := registry_refines hnew annActions (by decide)
  rw [hout] at hrun
  exact ⟨db, r, hdb, hrun, hlen, (hlive [] hrefs hmay).1⟩

end SubscriberMgmt

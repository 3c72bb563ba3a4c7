import SubscriberMgmt.Lib.UniqueMap
import SubscriberMgmt.SubscriberContents
import SubscriberMgmt.SubscriberSearch
import SubscriberMgmt.SubscriberUpdate
import SubscriberMgmt.SubscriberCsv

/-!
# What a database is for: a registry of accounts

Accounts under ids that count up, no two with one IMSI or one MSISDN. The calls
of `subscriber.c` are the requests to it. Where memory runs out a call may fail
or, in an update, leave a text as it was; with memory the answers are fixed.
-/

namespace SubscriberMgmt
open CText

/-! ### Accounts -/

/-- What clients see of a record. -/
structure Account where
  fields : SubscriberFields
  createdAt : Int64
  updatedAt : Int64
  deriving DecidableEq

inductive AccountKey where
  | imsi
  | msisdn

def Account.key : AccountKey → Account → Str
  | .imsi, x => x.fields.imsi
  | .msisdn, x => x.fields.msisdn

def Account.valid (x : Account) : Bool :=
  subValidateImsi x.fields.imsi && subValidateMsisdn x.fields.msisdn &&
    subValidateName x.fields.name && subValidateName x.fields.region &&
    subValidateName x.fields.plan

/-- The accounts, and the last number that was used up as an id. -/
structure Registry extends UniqueMap UInt64 Account Account.key where
  last : ℕ
  valid : ∀ id x, get id = some x → x.valid = true
  issued : ∀ id x, get id = some x → 0 < id.toNat ∧ id.toNat ≤ last

namespace Registry

def empty : Registry where
  toUniqueMap := .empty
  last := 0
  valid _ _ h := by cases h
  issued _ _ h := by cases h

/-- A number is used up and no account has it. -/
def lose (r : Registry) : Registry where
  toUniqueMap := r.toUniqueMap
  last := r.last + 1
  valid := r.valid
  issued id x h := ⟨(r.issued id x h).1, (r.issued id x h).2.trans (Nat.le_succ _)⟩

def nextId (r : Registry) : UInt64 := UInt64.ofNat (r.last + 1)

theorem nextId_toNat {r : Registry} (h : r.last + 1 < 2 ^ 64) : r.nextId.toNat = r.last + 1 := by
  rw [nextId, UInt64.toNat_ofNat', Nat.mod_eq_of_lt h]

def add (r : Registry) (x : Account) (hvalid : x.valid = true) (hfree : r.Free x)
    (hlast : r.last + 1 < 2 ^ 64) : Registry where
  toUniqueMap := r.insert r.nextId x hfree
  last := r.last + 1
  valid id y h := by
    rcases UniqueMap.get_of_updated h with ⟨-, rfl⟩ | ⟨-, h⟩
    · exact hvalid
    · exact r.valid id y h
  issued id y h := by
    rcases UniqueMap.get_of_updated h with ⟨rfl, -⟩ | ⟨-, h⟩
    · rw [nextId_toNat hlast]
      exact ⟨Nat.succ_pos _, le_rfl⟩
    · exact ⟨(r.issued id y h).1, (r.issued id y h).2.trans (Nat.le_succ _)⟩

def remove (r : Registry) (id : UInt64) : Registry where
  toUniqueMap := r.erase id
  last := r.last
  valid j y h := r.valid j y (UniqueMap.get_of_erased h).2
  issued j y h := r.issued j y (UniqueMap.get_of_erased h).2

def revise (r : Registry) (id : UInt64) {x : Account} (y : Account) (hx : r.get id = some x)
    (hkey : ∀ k, y.key k = x.key k) (hvalid : y.valid = true) : Registry where
  toUniqueMap := r.replace id y hx hkey
  last := r.last
  valid j z h := by
    rcases UniqueMap.get_of_updated h with ⟨-, rfl⟩ | ⟨-, h⟩
    · exact hvalid
    · exact r.valid j z h
  issued j z h := by
    rcases UniqueMap.get_of_updated h with ⟨rfl, -⟩ | ⟨-, h⟩
    · exact r.issued _ x hx
    · exact r.issued j z h

end Registry

/-! ### Requests and what the registry answers -/

structure AddArgs where
  imsi : Option Str
  msisdn : Option Str
  name : Option Str
  region : Option Str
  plan : Option Str
  status : SubStatus
  outId : Bool
  now : Int64

/-- The account asked for, if no pointer is NULL. -/
def AddArgs.account (args : AddArgs) : Option Account :=
  match args.imsi, args.msisdn, args.name, args.region, args.plan, args.outId with
  | some imsi, some msisdn, some name, some region, some plan, true =>
    some ⟨⟨imsi, msisdn, name, region, plan, args.status⟩, args.now, args.now⟩
  | _, _, _, _, _, _ => none

structure Changes where
  name : Option Str
  region : Option Str
  plan : Option Str
  status : Option SubStatus
  now : Int64

def Changes.valid (c : Changes) : Bool :=
  c.name.all subValidateName && c.region.all subValidateName && c.plan.all subValidateName

inductive RegistryCall where
  | add (args : AddArgs)
  | delete (id : UInt64)
  | update (id : UInt64) (changes : Changes)
  | search (q : Query)
  | count
  | load (path : Option Str) (files : Str → Option Str) (clock : ℕ → Int64)

inductive RegistryAnswer where
  | added (id : UInt64)
  | done
  | rows (rows : List (UInt64 × Account))
  | counted (n : ℕ)
  | loaded (st : SmStatus) (lines : List LineOutcome)
  | failed (st : SmStatus)
  deriving DecidableEq

/-- A call, or clients giving the snapshots of a search back. -/
inductive RegistryAction where
  | call (c : RegistryCall) (a : Alloc)
  | free (array : List Subscriber)

/-- The lines after the header of the file, or why it is not read. -/
def csvPieces (path : Option Str) (files : Str → Option Str) : Except SmStatus (List Str) :=
  match path with
  | none => .error .errNullParam
  | some path =>
    match files path with
    | none => .error .errIo
    | some content =>
      match fgetsAll (smMaxLineLen - 2) content with
      | [] => .error .errCorruptData
      | header :: pieces =>
        if (cString header).take 14 ≠ lit "subscriber_id," then .error .errCorruptData
        else .ok pieces

/-- A line of a file, with the clock and the allocations for it. -/
structure LineInput where
  piece : Str
  now : Int64
  a : Alloc

def lineInputs (clock : ℕ → Int64) (a : Alloc) (i : ℕ) : List Str → List LineInput
  | [] => []
  | piece :: pieces => ⟨piece, clock i, a.skip (20 * i)⟩ :: lineInputs clock a (i + 1) pieces

/-- The account that a line asks for. -/
def CsvFields.args (f : CsvFields) (now : Int64) : AddArgs :=
  ⟨some f.imsi, some f.msisdn, some f.name, some f.region, some f.plan,
    subStatusFromStr f.statusS, true, now⟩

def Alloc.Ample (a : Alloc) : Prop := ∀ i, a i = true

/-- What the text of an account may be after an update that names `text`. -/
def Given (a : Alloc) (text : Option Str) (old new : Str) : Prop :=
  new = text.getD old ∨ (¬ a.Ample ∧ new = old)

structure Changes.Gives (c : Changes) (a : Alloc) (x y : Account) : Prop where
  name : Given a c.name x.fields.name y.fields.name
  region : Given a c.region x.fields.region y.fields.region
  plan : Given a c.plan x.fields.plan y.fields.plan
  imsi : y.fields.imsi = x.fields.imsi
  msisdn : y.fields.msisdn = x.fields.msisdn
  status : y.fields.status = c.status.getD x.fields.status
  createdAt : y.createdAt = x.createdAt
  updatedAt : y.updatedAt = c.now

namespace Query

def isNull : Query → Bool
  | .byImsi none | .byMsisdn none | .byRegion none | .byPlan none => true
  | _ => false

/-- A search for one account. -/
def isSingle : Query → Bool
  | .byId _ | .byImsi _ | .byMsisdn _ => true
  | _ => false

/-- The accounts looked for. A region or plan is compared by what the copy of it holds. -/
def wants (q : Query) (e : UInt64 × Account) : Bool :=
  match q with
  | .byId id => e.1 = id
  | .byImsi imsi => some e.2.fields.imsi = imsi
  | .byMsisdn msisdn => some e.2.fields.msisdn = msisdn
  | .byRegion region => some e.2.fields.region = region.map (List.take smMaxNameLen)
  | .byPlan plan => some e.2.fields.plan = plan.map (List.take smMaxNameLen)
  | .byStatus status => e.2.fields.status = status
  | .all => true

end Query

namespace Registry

inductive Adds (r : Registry) (args : AddArgs) (a : Alloc) : RegistryAnswer → Registry → Prop
  | null (hargs : args.account = none) : Adds r args a (.failed .errNullParam) r
  | invalid {x : Account} (hargs : args.account = some x) (hbad : x.valid = false) :
      Adds r args a (.failed .errInvalidArg) r
  | taken {x : Account} (hargs : args.account = some x) (hvalid : x.valid = true)
      (htaken : ¬ r.Free x) : Adds r args a (.failed .errDuplicate) r
  | short {x : Account} {r' : Registry} (hargs : args.account = some x) (hvalid : x.valid = true)
      (hfree : r.Free x) (hshort : ¬ a.Ample) (hlost : r' = r ∨ r' = r.lose) :
      Adds r args a (.failed .errAllocFailed) r'
  | added {x : Account} (hargs : args.account = some x) (hvalid : x.valid = true)
      (hfree : r.Free x) (hlast : r.last + 1 < 2 ^ 64) :
      Adds r args a (.added r.nextId) (r.add x hvalid hfree hlast)

inductive Deletes (r : Registry) (id : UInt64) : RegistryAnswer → Registry → Prop
  | missing (hnone : r.get id = none) : Deletes r id (.failed .errNotFound) r
  | removed {x : Account} (hx : r.get id = some x) : Deletes r id .done (r.remove id)

inductive Updates (r : Registry) (id : UInt64) (c : Changes) (a : Alloc) :
    RegistryAnswer → Registry → Prop
  | invalid (hbad : c.valid = false) : Updates r id c a (.failed .errInvalidArg) r
  | missing (hvalid : c.valid = true) (hnone : r.get id = none) :
      Updates r id c a (.failed .errNotFound) r
  | revised {x y : Account} (hvalid : c.valid = true) (hx : r.get id = some x)
      (hy : c.Gives a x y) (hkey : ∀ k, y.key k = x.key k) (hgood : y.valid = true) :
      Updates r id c a .done (r.revise id y hx hkey hgood)

inductive Finds (r : Registry) (q : Query) (a : Alloc) : RegistryAnswer → Prop
  | null (hnull : q.isNull = true) : Finds r q a (.failed .errNullParam)
  | missing (hnull : q.isNull = false) (hone : q.isSingle = true)
      (hnone : ∀ id x, r.get id = some x → q.wants (id, x) = false) :
      Finds r q a (.failed .errNotFound)
  | short {id : UInt64} {x : Account} (hx : r.get id = some x) (hwant : q.wants (id, x) = true)
      (hshort : ¬ a.Ample) : Finds r q a (.failed .errAllocFailed)
  | rows {all : List (UInt64 × Account)} (hnull : q.isNull = false) (hall : r.Lists all)
      (hone : q.isSingle = true → (all.filter q.wants).length = 1) :
      Finds r q a (.rows (all.filter q.wants))

/-- A line either asks for nothing or for an account to be added. -/
inductive Reads (r : Registry) (x : LineInput) : LineOutcome → Registry → Prop
  | blank (hline : (chompLine x.piece).isEmpty = true) : Reads r x .blank r
  | malformed (hline : (chompLine x.piece).isEmpty = false)
      (hnone : scanRecord (chompLine x.piece) = none) : Reads r x .malformed r
  | invalid {f : CsvFields} {y : Account} (hline : (chompLine x.piece).isEmpty = false)
      (hf : scanRecord (chompLine x.piece) = some f) (hy : (f.args x.now).account = some y)
      (hbad : y.valid = false) : Reads r x .invalid r
  | added {f : CsvFields} {id : UInt64} {r' : Registry}
      (hline : (chompLine x.piece).isEmpty = false) (hf : scanRecord (chompLine x.piece) = some f)
      (h : r.Adds (f.args x.now) x.a (.added id) r') : Reads r x (.added id) r'
  | refused {f : CsvFields} {st : SmStatus} {r' : Registry}
      (hline : (chompLine x.piece).isEmpty = false) (hf : scanRecord (chompLine x.piece) = some f)
      (h : r.Adds (f.args x.now) x.a (.failed st) r') : Reads r x (.refused st) r'

/-- A file is merged into the registry line by line. -/
inductive Loads (r : Registry) (path : Option Str) (files : Str → Option Str) (clock : ℕ → Int64)
    (a : Alloc) : RegistryAnswer → Registry → Prop
  | unread {st : SmStatus} (hfile : csvPieces path files = .error st) :
      Loads r path files clock a (.loaded st []) r
  | merged {pieces : List Str} {lines : List LineOutcome} {r' : Registry}
      (hfile : csvPieces path files = .ok pieces)
      (hrun : Machine.Runs Reads r (lineInputs clock a 0 pieces) lines r') :
      Loads r path files clock a (.loaded .ok lines) r'

/-- What the registry may answer to an action, and what it then is. -/
inductive Serves (r : Registry) : RegistryAction → RegistryAnswer → Registry → Prop
  | add {args : AddArgs} {a : Alloc} {o : RegistryAnswer} {r' : Registry} (h : r.Adds args a o r') :
      Serves r (.call (.add args) a) o r'
  | delete {id : UInt64} {a : Alloc} {o : RegistryAnswer} {r' : Registry} (h : r.Deletes id o r') :
      Serves r (.call (.delete id) a) o r'
  | update {id : UInt64} {c : Changes} {a : Alloc} {o : RegistryAnswer} {r' : Registry}
      (h : r.Updates id c a o r') : Serves r (.call (.update id c) a) o r'
  | search {q : Query} {a : Alloc} {o : RegistryAnswer} (h : r.Finds q a o) :
      Serves r (.call (.search q) a) o r
  | count {a : Alloc} {all : List (UInt64 × Account)} (hall : r.Lists all) :
      Serves r (.call .count a) (.counted all.length) r
  | load {path : Option Str} {files : Str → Option Str} {clock : ℕ → Int64} {a : Alloc}
      {o : RegistryAnswer} {r' : Registry} (h : r.Loads path files clock a o r') :
      Serves r (.call (.load path files clock) a) o r'
  | free {array : List Subscriber} : Serves r (.free array) .done r

end Registry

/-! ### The calls of `subscriber.c` as these requests -/

def Subscriber.account (p : SStrPool) (s : Subscriber) : Account :=
  ⟨s.fields p, s.createdAt, s.updatedAt⟩

def Subscriber.entry (p : SStrPool) (s : Subscriber) : UInt64 × Account :=
  (s.subscriberId, s.account p)

def RegistryAnswer.ofStatus : SmStatus → RegistryAnswer
  | .ok => .done
  | st => .failed st

def RegistryAnswer.ofSearch (x : Except SmStatus (List Subscriber) × SStrPool) : RegistryAnswer :=
  match x.1 with
  | .ok array => .rows (array.map (Subscriber.entry x.2))
  | .error st => .failed st

def RegistryCall.run (s : DbState) (a : Alloc) : RegistryCall → DbState × RegistryAnswer
  | .add x =>
    let r := subdbAdd s.1 s.2 x.imsi x.msisdn x.name x.region x.plan x.status x.outId x.now a
    ((r.strs, r.db), if r.status = .ok then .added (r.id.getD 0) else .failed r.status)
  | .delete id =>
    let r := subdbDelete s.1 s.2 id
    (r.2, .ofStatus r.1)
  | .update id c =>
    let r := subdbUpdate s.1 s.2 id c.name c.region c.plan c.status c.now a
    (r.2, .ofStatus r.1)
  | .search q =>
    let r := q.run s.1 s.2 a
    ((r.2, s.2), .ofSearch r)
  | .count => (s, .counted (subdbCount s.2))
  | .load path files clock =>
    let r := subdbLoadCsv s.1 s.2 path files clock a
    ((r.strs, r.db), .loaded r.status r.lines)

def registryStep (s : DbState) : RegistryAction → DbState × RegistryAnswer
  | .call c a => c.run s a
  | .free array => ((subdbFreeResults s.1 array, s.2), .done)

end SubscriberMgmt

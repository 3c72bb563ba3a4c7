import SubscriberMgmt.SharedString
import SubscriberMgmt.MemoryPool
import SubscriberMgmt.Lib.CText

/-!
# Subscriber records and their database (`subscriber.c:17-698`)

The records live in the blocks of the pool, and the keys of the three indexes
are pointers to fields of the records. Each call holds the database lock from
its first read to its last write; taking a lock is assumed to succeed. A NULL
argument is `none`.
-/

namespace SubscriberMgmt
open CText

/-! ### Validation (`subscriber.c:17-97`) -/

def validDigits (lo hi : ℕ) (s : Str) : Bool :=
  decide (lo ≤ s.length) && decide (s.length ≤ hi) && s.all isDigit

def subValidateImsi (imsi : Str) : Bool := validDigits 6 smMaxImsiLen imsi

def subValidateMsisdn (msisdn : Str) : Bool := validDigits 7 smMaxMsisdnLen msisdn

def subValidateName (name : Str) : Bool :=
  decide (name.length ≠ 0) && decide (name.length ≤ smMaxNameLen) &&
    name.all fun c => !isCntrl c && c != comma

/-- `sm_sub_status_t`; `other` is a value outside the enumerators, which the
functions that take a status do not refuse. -/
inductive SubStatus where
  | active
  | suspended
  | terminated
  | unknown
  | other (code : ℕ)
  deriving DecidableEq, Repr

def subStatusToStr : SubStatus → Str
  | .active => lit "ACTIVE"
  | .suspended => lit "SUSPENDED"
  | .terminated => lit "TERMINATED"
  | _ => lit "UNKNOWN"

def subStatusFromStr (s : Str) : SubStatus :=
  if s = lit "ACTIVE" then .active
  else if s = lit "SUSPENDED" then .suspended
  else if s = lit "TERMINATED" then .terminated
  else .unknown

/-! ### Records and the database -/

structure Subscriber where
  subscriberId : UInt64
  imsi : CharField smMaxImsiLen
  msisdn : CharField smMaxMsisdnLen
  name : Option Handle
  region : Option Handle
  plan : Option Handle
  status : SubStatus
  createdAt : Int64
  updatedAt : Int64
  deriving DecidableEq

/-- A block after `mempool_free`, all bytes 0xDD. -/
def Subscriber.poison : Subscriber :=
  ⟨0xDDDDDDDDDDDDDDDD, CharField.copy _ (List.replicate 15 0xDD),
    CharField.copy _ (List.replicate 15 0xDD), some 0xDDDDDDDDDDDDDDDD, some 0xDDDDDDDDDDDDDDDD,
    some 0xDDDDDDDDDDDDDDDD, .other 0xDDDDDDDD, Int64.ofInt (-0x2222222222222223),
    Int64.ofInt (-0x2222222222222223)⟩

/-- `sm_subscriber_db_t`, with the contents of the pool's blocks. -/
structure SubscriberDb where
  byId : HashTable (KeyRef Block UInt64) Block
  byImsi : HashTable (KeyRef Block Str) Block
  byMsisdn : HashTable (KeyRef Block Str) Block
  pool : MemPool
  mem : Block → Subscriber
  nextId : UInt64

def idOps (mem : Block → Subscriber) : KeyOps (KeyRef Block UInt64) :=
  KeyRef.ops smHashU64 fun b => (mem b).subscriberId

def imsiOps (mem : Block → Subscriber) : KeyOps (KeyRef Block Str) :=
  KeyRef.ops smHashStr fun b => (mem b).imsi.chars

def msisdnOps (mem : Block → Subscriber) : KeyOps (KeyRef Block Str) :=
  KeyRef.ops smHashStr fun b => (mem b).msisdn.chars

/-- `sizeof(sm_subscriber_t)` -/
def subscriberSize : ℕ := 88

/-- `subdb_create`; allocation 0 is the database, then the two of each
`ht_create` and those of `mempool_create`. -/
def subdbCreate (a : Alloc) : Except SmStatus SubscriberDb :=
  if !a 0 then .error .errAllocFailed
  else do
    let byId ← htCreate 1024 false false (a.skip 1)
    let byImsi ← htCreate 1024 false false (a.skip 3)
    let byMsisdn ← htCreate 1024 false false (a.skip 5)
    let pool ← mempoolCreate subscriberSize 256 (a.skip 7)
    return ⟨byId, byImsi, byMsisdn, pool, fun _ => Subscriber.poison, 1⟩

def releaseTexts (strs : SStrPool) (s : Subscriber) : SStrPool :=
  sstrRelease (sstrRelease (sstrRelease strs s.name) s.region) s.plan

def freeSubscriberLocked (strs : SStrPool) (db : SubscriberDb) (b : Block) :
    SStrPool × SubscriberDb :=
  (releaseTexts strs (db.mem b),
    { db with
      pool := mempoolFree db.pool b
      mem := Function.update db.mem b Subscriber.poison })

/-! ### Add, delete, update (`subscriber.c:270-426`) -/

/-- The three `sstr_intern` calls of `subdb_add`, each made only when the
earlier ones succeeded. The handles not reached stay NULL. -/
def internTexts (strs : SStrPool) (name region plan : Str) (a : Alloc) :
    SmStatus × SStrPool × Option Handle × Option Handle × Option Handle :=
  match sstrIntern strs name a with
  | (.error st, strs) => (st, strs, none, none, none)
  | (.ok n, strs) =>
    match sstrIntern strs region (a.skip 4) with
    | (.error st, strs) => (st, strs, some n, none, none)
    | (.ok r, strs) =>
      match sstrIntern strs plan (a.skip 8) with
      | (.error st, strs) => (st, strs, some n, some r, none)
      | (.ok p, strs) => (.ok, strs, some n, some r, some p)

def indexRecord (db : SubscriberDb) (b : Block) (a : Alloc) : SmStatus × SubscriberDb :=
  match htPut (idOps db.mem) db.byId (.field b) b false a with
  | (.ok, byId) =>
    match htPut (imsiOps db.mem) db.byImsi (.field b) b false (a.skip 2) with
    | (.ok, byImsi) =>
      match htPut (msisdnOps db.mem) db.byMsisdn (.field b) b false (a.skip 4) with
      | (st, byMsisdn) => (st, { db with byId := byId, byImsi := byImsi, byMsisdn := byMsisdn })
    | (st, byImsi) => (st, { db with byId := byId, byImsi := byImsi })
  | (st, byId) => (st, { db with byId := byId })

def unindexRecord (db : SubscriberDb) (b : Block) : SubscriberDb :=
  { db with
    byId := (htRemove (idOps db.mem) db.byId (.field b)).2
    byImsi := (htRemove (imsiOps db.mem) db.byImsi (.field b)).2
    byMsisdn := (htRemove (msisdnOps db.mem) db.byMsisdn (.field b)).2 }

/-- Result of `subdb_add`: status, both states, and `*out_id` if written. -/
structure AddResult where
  status : SmStatus
  strs : SStrPool
  db : SubscriberDb
  id : Option UInt64

/-- `subdb_add` from the index insertion on. -/
def insertRecord (strs : SStrPool) (db : SubscriberDb) (b : Block) (a : Alloc) : AddResult :=
  match indexRecord db b a with
  | (.ok, db) => ⟨.ok, strs, db, some (db.mem b).subscriberId⟩
  | (st, db) =>
    let r := freeSubscriberLocked strs (unindexRecord db b) b
    ⟨st, r.1, r.2, none⟩

def newRecord (id : UInt64) (imsi msisdn : Str) (n r p : Option Handle) (status : SubStatus)
    (now : Int64) : Subscriber :=
  ⟨id, CharField.copy _ imsi, CharField.copy _ msisdn, n, r, p, status, now, now⟩

def SubscriberDb.place (db : SubscriberDb) (pool : MemPool) (b : Block) (s : Subscriber) :
    SubscriberDb :=
  { db with pool := pool, nextId := db.nextId + 1, mem := Function.update db.mem b s }

/-- `subdb_add` after the duplicate checks. Allocations 0 and 1 are those of
`mempool_alloc`, 2 to 13 those of the interning, 14 to 19 those of the puts. -/
def addRecord (strs : SStrPool) (db : SubscriberDb) (imsi msisdn name region plan : Str)
    (status : SubStatus) (now : Int64) (a : Alloc) : AddResult :=
  match mempoolAlloc db.pool a with
  | (none, pool) => ⟨.errAllocFailed, strs, { db with pool := pool }, none⟩
  | (some b, pool) =>
    match internTexts strs name region plan (a.skip 2) with
    | (.ok, strs, n, r, p) =>
      insertRecord strs (db.place pool b (newRecord db.nextId imsi msisdn n r p status now)) b
        (a.skip 14)
    | (st, strs, n, r, p) =>
      ⟨st, sstrRelease (sstrRelease (sstrRelease strs n) r) p,
        { db with
          pool := mempoolFree pool b
          mem := Function.update db.mem b Subscriber.poison }, none⟩

/-- `subdb_add`; `outId` says whether `out_id` is non-NULL, `now` is the value
of `time(NULL)`. -/
def subdbAdd (strs : SStrPool) (db : SubscriberDb) (imsi msisdn name region plan : Option Str)
    (status : SubStatus) (outId : Bool) (now : Int64) (a : Alloc) : AddResult :=
  match imsi, msisdn, name, region, plan, outId with
  | some imsi, some msisdn, some name, some region, some plan, true =>
    if !(subValidateImsi imsi && subValidateMsisdn msisdn && subValidateName name &&
        subValidateName region && subValidateName plan) then ⟨.errInvalidArg, strs, db, none⟩
    else
      match htGet (imsiOps db.mem) db.byImsi (.value imsi) with
      | .ok _ => ⟨.errDuplicate, strs, db, none⟩
      | .error _ =>
        match htGet (msisdnOps db.mem) db.byMsisdn (.value msisdn) with
        | .ok _ => ⟨.errDuplicate, strs, db, none⟩
        | .error _ => addRecord strs db imsi msisdn name region plan status now a
  | _, _, _, _, _, _ => ⟨.errNullParam, strs, db, none⟩

def subdbDelete (strs : SStrPool) (db : SubscriberDb) (id : UInt64) :
    SmStatus × SStrPool × SubscriberDb :=
  match htGet (idOps db.mem) db.byId (.value id) with
  | .error _ => (.errNotFound, strs, db)
  | .ok b => (.ok, freeSubscriberLocked strs (unindexRecord db b) b)

/-- One text field of `subdb_update`: an interning that fails leaves the field
as it is. -/
def updateText (strs : SStrPool) (old : Option Handle) (text : Option Str) (a : Alloc) :
    SStrPool × Option Handle :=
  match text with
  | none => (strs, old)
  | some text =>
    match sstrIntern strs text a with
    | (.ok ns, strs) => (sstrRelease strs old, some ns)
    | (.error _, strs) => (strs, old)

/-- The three text fields of `subdb_update`; allocations 0 to 3, 4 to 7 and 8
to 11 are those of the interned texts. -/
def updateTexts (strs : SStrPool) (s : Subscriber) (name region plan : Option Str) (a : Alloc) :
    SStrPool × Subscriber :=
  let n := updateText strs s.name name a
  let r := updateText n.1 s.region region (a.skip 4)
  let p := updateText r.1 s.plan plan (a.skip 8)
  (p.1, { s with name := n.2, region := r.2, plan := p.2 })

def subdbUpdate (strs : SStrPool) (db : SubscriberDb) (id : UInt64)
    (name region plan : Option Str) (status : Option SubStatus) (now : Int64) (a : Alloc) :
    SmStatus × SStrPool × SubscriberDb :=
  if !(name.all subValidateName && region.all subValidateName && plan.all subValidateName) then
    (.errInvalidArg, strs, db)
  else
    match htGet (idOps db.mem) db.byId (.value id) with
    | .error _ => (.errNotFound, strs, db)
    | .ok b =>
      let u := updateTexts strs (db.mem b) name region plan a
      let s : Subscriber :=
        { u.2 with status := status.getD u.2.status, updatedAt := now }
      (.ok, u.1, { db with mem := Function.update db.mem b s })

def subdbCount (db : SubscriberDb) : ℕ := htSize db.byId

/-! ### Snapshots and searches (`subscriber.c:217-266, 434-698`) -/

/-- `make_snapshot`; the one allocation is the copy. -/
def makeSnapshot (strs : SStrPool) (src : Subscriber) (a : Alloc) :
    Option Subscriber × SStrPool :=
  if !a 0 then (none, strs)
  else (some src, sstrRetain (sstrRetain (sstrRetain strs src.name) src.region) src.plan)

def subdbFreeOne (strs : SStrPool) (s : Subscriber) : SStrPool := releaseTexts strs s

def subdbFreeResults (strs : SStrPool) (array : List Subscriber) : SStrPool :=
  array.foldl subdbFreeOne strs

def searchResult (strs : SStrPool) (mem : Block → Subscriber) (found : Except SmStatus Block)
    (a : Alloc) : Except SmStatus Subscriber × SStrPool :=
  match found with
  | .error st => (.error st, strs)
  | .ok b =>
    match makeSnapshot strs (mem b) a with
    | (some s, strs) => (.ok s, strs)
    | (none, strs) => (.error .errAllocFailed, strs)

def subdbSearchById (strs : SStrPool) (db : SubscriberDb) (id : UInt64) (a : Alloc) :
    Except SmStatus Subscriber × SStrPool :=
  searchResult strs db.mem (htGet (idOps db.mem) db.byId (.value id)) a

def subdbSearchByImsi (strs : SStrPool) (db : SubscriberDb) (imsi : Option Str) (a : Alloc) :
    Except SmStatus Subscriber × SStrPool :=
  match imsi with
  | none => (.error .errNullParam, strs)
  | some imsi => searchResult strs db.mem (htGet (imsiOps db.mem) db.byImsi (.value imsi)) a

def subdbSearchByMsisdn (strs : SStrPool) (db : SubscriberDb) (msisdn : Option Str)
    (a : Alloc) : Except SmStatus Subscriber × SStrPool :=
  match msisdn with
  | none => (.error .errNullParam, strs)
  | some msisdn =>
    searchResult strs db.mem (htGet (msisdnOps db.mem) db.byMsisdn (.value msisdn)) a

/-- `filter_ctx_t`, with the pool that the snapshots are counted in; `n` is the
length of `arr`. -/
structure FilterCtx where
  arr : List Subscriber
  cap : ℕ
  ok : Bool
  strs : SStrPool

def grownCap (cap : ℕ) : ℕ := if cap = 0 then 16 else cap * 2

/-- The callbacks `region_match_cb`, `plan_match_cb`, `status_match_cb` and
`listall_cb`: a matching record is copied into the array. For the `n`-th match
allocation `2 n` is the array and `2 n + 1` the snapshot. -/
def matchCb (mem : Block → Subscriber) (matching : SStrPool → Subscriber → Bool) (a : Alloc)
    (_key : KeyRef Block UInt64) (value : Block) (ctx : FilterCtx) : Bool × FilterCtx :=
  let s := mem value
  let n := ctx.arr.length
  if !matching ctx.strs s then (true, ctx)
  else if decide (ctx.cap ≤ n) && !a (2 * n) then (false, { ctx with ok := false })
  else
    let cap := if ctx.cap ≤ n then grownCap ctx.cap else ctx.cap
    match makeSnapshot ctx.strs s (a.skip (2 * n + 1)) with
    | (none, strs) => (false, { ctx with cap := cap, ok := false, strs := strs })
    | (some copy, strs) => (true, { ctx with arr := ctx.arr ++ [copy], cap := cap, strs := strs })

def filteredSearch (strs : SStrPool) (db : SubscriberDb)
    (matching : SStrPool → Subscriber → Bool) (a : Alloc) :
    Except SmStatus (List Subscriber) × SStrPool :=
  let ctx := htIterate db.byId (matchCb db.mem matching a) ⟨[], 0, true, strs⟩
  if !ctx.ok then (.error .errAllocFailed, subdbFreeResults ctx.strs ctx.arr)
  else (.ok ctx.arr, ctx.strs)

def needle (s : Str) : Str := (CharField.copy smMaxNameLen s).chars

def subdbSearchByRegion (strs : SStrPool) (db : SubscriberDb) (region : Option Str)
    (a : Alloc) : Except SmStatus (List Subscriber) × SStrPool :=
  match region with
  | none => (.error .errNullParam, strs)
  | some region =>
    filteredSearch strs db (fun strs s => decide (sstrCstr strs s.region = needle region)) a

def subdbSearchByPlan (strs : SStrPool) (db : SubscriberDb) (plan : Option Str)
    (a : Alloc) : Except SmStatus (List Subscriber) × SStrPool :=
  match plan with
  | none => (.error .errNullParam, strs)
  | some plan =>
    filteredSearch strs db (fun strs s => decide (sstrCstr strs s.plan = needle plan)) a

def subdbSearchByStatus (strs : SStrPool) (db : SubscriberDb) (status : SubStatus)
    (a : Alloc) : Except SmStatus (List Subscriber) × SStrPool :=
  filteredSearch strs db (fun _ s => decide (s.status = status)) a

def subdbListAll (strs : SStrPool) (db : SubscriberDb) (a : Alloc) :
    Except SmStatus (List Subscriber) × SStrPool :=
  filteredSearch strs db (fun _ _ => true) a

/-! ### Destroying a database (`subscriber.c:169-215`) -/

/-- `subdb_collect_cb`; `none` is a NULL array. -/
def subdbCollectCb (cap : ℕ) (_key : KeyRef Block UInt64) (value : Block)
    (arr : Option (List Block)) : Bool × Option (List Block) :=
  (true, arr.map fun arr => if arr.length < cap then arr ++ [value] else arr)

/-- `subdb_destroy`: what becomes of the string pool; the database is gone. The
one allocation is the array of the live records. -/
def subdbDestroy (strs : SStrPool) (db : SubscriberDb) (a : Alloc) : SStrPool :=
  let cap := htSize db.byId
  let arr := if decide (0 < cap) && a 0 then some [] else none
  let all := (htIterate db.byId (subdbCollectCb cap) arr).getD []
  (all.foldl (fun r b => freeSubscriberLocked r.1 r.2 b) (strs, db)).1

end SubscriberMgmt

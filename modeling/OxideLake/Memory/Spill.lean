import OxideLake.Arrow.RecordBatch
import OxideLake.Foundations.Interruptible
import OxideLake.Foundations.Ledger

/-!
# The spill manager

`spill.rs` keeps batches in three tiers: device memory, host memory and files in an object
store.  A tier over its budget loses its coldest batch to the tier below, and reading a
batch from disk brings it back to host memory.

All calls run under one lock, so a call is a computation over the manager and the store; an
insert takes its id before it waits for the lock.  What the outside does during a call is a
list of replies for the store requests and one for the device downloads.  A store request
succeeds, fails, or is where the caller drops the call, the request having taken effect or
not; a download is not awaited and succeeds or fails.

Sizes and counters are natural numbers: the totals stay below `2 ^ 64`, and so do the
numbers of ids and ticks.  The model keeps a record of what must not happen, `incidents`: a
subtraction that saturates and a loop that is left by one of its defensive breaks.
-/

namespace OxideLake

namespace Spill

open Interruptible Function

inductive Tier where
  | device
  | host
  | disk
  deriving DecidableEq, Repr

structure SpillBudget where
  deviceBytes : ℕ
  hostBytes : ℕ

/-- A `RecordBatch` in host memory: its contents, and the bytes `get_array_memory_size` counts
for this copy of them. -/
structure HostBatch where
  batch : RecordBatch
  memorySize : ℕ
  deriving DecidableEq

/-- `DeviceResident`: its size on the device, and what it downloads as. -/
structure Resident where
  bytes : ℕ
  contents : HostBatch
  deriving DecidableEq

inductive Payload where
  | device (resident : Resident)
  | host (batch : HostBatch)
  | disk (path : String)
  deriving DecidableEq

/-- The tier of a payload variant. -/
def Payload.tier : Payload → Tier
  | .device _ => .device
  | .host _ => .host
  | .disk _ => .disk

structure Entry where
  tier : Tier
  bytes : ℕ
  hostBytes : ℕ
  lastTouch : ℕ
  schema : Schema
  payload : Payload
  deriving DecidableEq

/-- What the accounting and the loops must not run into. -/
inductive Incident where
  | saturated (tier : Tier)
  | gaveUp (tier : Tier)
  | wrongTier
  | outOfFuel
  deriving DecidableEq, Repr

/-- The state behind the lock, the store, the counters and the published gauges. -/
structure World where
  entries : Ledger Entry
  used : Tier → ℕ
  objects : String → Option (List UInt8)
  nextId : ℕ
  clock : ℕ
  published : Tier → ℕ
  incidents : List Incident

/-- What the outside does at a store request. -/
inductive Reply where
  | ok
  | fail (detail : String)
  | cancelled (effective : Bool)
  deriving DecidableEq

/-- What the outside does during a call: the replies to its store requests, and for each
download the error it fails with, if it does.  When none is left everything succeeds. -/
structure Outside where
  store : List Reply := []
  downloads : List (Option String) := []

/-- The Arrow IPC codec, `ipc.rs`. -/
structure Ipc where
  encode : HostBatch → Result (List UInt8)
  decode : List UInt8 → Result HostBatch

/-- `SpillManager`: what is fixed at its creation. -/
structure SpillManager where
  budget : SpillBudget
  spillPrefix : String
  ipc : Ipc

/-- A call: a computation over the world and what the outside is still to do. -/
abbrev Call (α : Type) := Interruptible (World × Outside) EngineError α

/-- What a call comes to. -/
abbrev CallResult (α : Type) := Outcome EngineError α × (World × Outside)

/-! ## Changes of the world -/

namespace World

/-- The world of a new manager. -/
def new : World := ⟨.empty, fun _ => 0, fun _ => none, 1, 0, fun _ => 0, []⟩

variable (w : World)

/-- `used[tier] += bytes`. -/
def charge (tier : Tier) (bytes : ℕ) : World :=
  { w with used := update w.used tier (w.used tier + bytes) }

/-- `used[tier] = used[tier].saturating_sub(bytes)`. -/
def release (tier : Tier) (bytes : ℕ) : World :=
  { w with
    used := update w.used tier (w.used tier - bytes)
    incidents := if w.used tier < bytes then .saturated tier :: w.incidents else w.incidents }

def log (incident : Incident) : World := { w with incidents := incident :: w.incidents }

def setObject (path : String) (bytes : List UInt8) : World :=
  { w with objects := update w.objects path (some bytes) }

def eraseObject (path : String) : World :=
  { w with objects := update w.objects path none }

def modifyEntry (id : ℕ) (f : Entry → Entry) : World := { w with entries := w.entries.modify id f }

/-- The statements of an insert. -/
def register (id : ℕ) (entry : Entry) : World :=
  { w with entries := w.entries.insert id entry }.charge entry.tier entry.bytes

/-- The statements of `enforce_device` that move a batch to host memory. -/
def unload (id : ℕ) (deviceBytes : ℕ) (batch : HostBatch) : World :=
  ((w.modifyEntry id fun entry => { entry with
    tier := .host, bytes := batch.memorySize, hostBytes := batch.memorySize,
    payload := .host batch }).release .device deviceBytes).charge .host batch.memorySize

/-- The statements of `enforce_host` that move a batch to disk. -/
def toDisk (id : ℕ) (hostBytes diskBytes : ℕ) (path : String) : World :=
  ((w.modifyEntry id fun entry => { entry with
    tier := .disk, bytes := diskBytes, payload := .disk path }).release .host hostBytes).charge
      .disk diskBytes

/-- The statements of `get` that move a batch back to host memory. -/
def promote (id : ℕ) (diskBytes hostBytes : ℕ) (batch : HostBatch) : World :=
  ((w.modifyEntry id fun entry => { entry with
    tier := .host, bytes := hostBytes, payload := .host batch }).release .disk diskBytes).charge
      .host hostBytes

/-- The statements of `remove`. -/
def forget (id : ℕ) (entry : Entry) : World :=
  { w with entries := w.entries.erase id }.release entry.tier entry.bytes

def coldest (tier : Tier) : Option ℕ :=
  w.entries.argmin (fun entry => entry.tier == tier) Entry.lastTouch

end World

/-! ## Requests -/

def world : Call World := do
  let s ← state
  pure s.1

def change (f : World → World) : Call Unit := modify fun s => (f s.1, s.2)

/-- The reply to the next store request. -/
def reply : Call Reply := fun s =>
  match s.2.store with
  | [] => (.done .ok, s)
  | r :: rest => (.done r, (s.1, { s.2 with store := rest }))

/-- `ObjectStore::put`, with `store_error`. -/
def put (path : String) (bytes : List UInt8) : Call Unit := do
  match ← reply with
  | .ok => change fun w => w.setObject path bytes
  | .fail detail => fail (.io false detail)
  | .cancelled true => do
      change fun w => w.setObject path bytes
      cancel
  | .cancelled false => cancel

/-- `ObjectStore::get` and `GetResult::bytes`, with `store_error`. -/
def fetch (path : String) : Call (List UInt8) := do
  match ← reply with
  | .ok => do
      let w ← world
      match w.objects path with
      | some bytes => pure bytes
      | none => fail (.io true (path ++ " not found"))
  | .fail detail => fail (.io false detail)
  | .cancelled _ => cancel

/-- The results of `ObjectStore::delete` that `remove` tells apart. -/
inductive Deletion where
  | deleted
  | notFound
  | failed (detail : String)

/-- `ObjectStore::delete`. -/
def delete (path : String) : Call Deletion := do
  match ← reply with
  | .ok => do
      let w ← world
      match w.objects path with
      | some _ => do
          change fun w => w.eraseObject path
          pure .deleted
      | none => pure .notFound
  | .fail detail => pure (.failed detail)
  | .cancelled true => do
      change fun w => w.eraseObject path
      cancel
  | .cancelled false => cancel

/-- `DeviceResident::to_host`. -/
def toHost (resident : Resident) : Call HostBatch := fun s =>
  match s.2.downloads with
  | [] => (.done resident.contents, s)
  | none :: rest => (.done resident.contents, (s.1, { s.2 with downloads := rest }))
  | some detail :: rest => (.failed (.device detail), (s.1, { s.2 with downloads := rest }))

/-! ## The manager's calls -/

variable (manager : SpillManager)

def spillPath (id : ℕ) : String := manager.spillPrefix ++ "/batch-" ++ id.repr ++ ".arrow"

def tick : Call ℕ := do
  change fun w => { w with clock := w.clock + 1 }
  let w ← world
  pure w.clock

def publish : Call Unit := change fun w => { w with published := w.used }

def writeSpill (path : String) (batch : HostBatch) : Call ℕ := do
  let bytes ← ofExcept (manager.ipc.encode batch)
  put path bytes
  pure bytes.length

def readSpill (path : String) : Call HostBatch := do
  let bytes ← fetch path
  ofExcept (manager.ipc.decode bytes)

/-- One round of the loop of `enforce_device`, and what follows it. -/
def deviceRound (next : Call Unit) : Call Unit := do
  let w ← world
  if w.used .device ≤ manager.budget.deviceBytes then pure ()
  else match w.coldest .device with
    | none => change fun w => w.log (.gaveUp .device)
    | some victim =>
      match w.entries.get? victim with
      | none => change fun w => w.log (.gaveUp .device)
      | some entry =>
        match entry.payload with
        | .device resident => do
            let batch ← toHost resident
            change fun w => w.unload victim entry.bytes batch
            next
        | _ => change fun w => w.log (.gaveUp .device)

/-- The loop of `enforce_device`, for at most `fuel` rounds. -/
def enforceDeviceLoop : ℕ → Call Unit
  | 0 => do
      let w ← world
      if w.used .device ≤ manager.budget.deviceBytes then pure ()
      else change fun w => w.log .outOfFuel
  | fuel + 1 => deviceRound manager (enforceDeviceLoop fuel)

def enforceDevice : Call Unit := do
  let w ← world
  enforceDeviceLoop manager w.entries.size

/-- One round of the loop of `enforce_host`, and what follows it. -/
def hostRound (next : Call Unit) : Call Unit := do
  let w ← world
  if w.used .host ≤ manager.budget.hostBytes then pure ()
  else match w.coldest .host with
    | none => change fun w => w.log (.gaveUp .host)
    | some victim =>
      match (w.entries.get? victim).map Entry.payload with
      | some (.host batch) => do
          let diskBytes ← writeSpill manager (spillPath manager victim) batch
          let w ← world
          match w.entries.get? victim with
          | none => change fun w => w.log (.gaveUp .host)
          | some entry => do
              change fun w => w.toDisk victim entry.bytes diskBytes (spillPath manager victim)
              next
      | _ => change fun w => w.log (.gaveUp .host)

/-- The loop of `enforce_host`, for at most `fuel` rounds. -/
def enforceHostLoop : ℕ → Call Unit
  | 0 => do
      let w ← world
      if w.used .host ≤ manager.budget.hostBytes then pure ()
      else change fun w => w.log .outOfFuel
  | fuel + 1 => hostRound manager (enforceHostLoop fuel)

def enforceHost : Call Unit := do
  let w ← world
  enforceHostLoop manager w.entries.size

/-- `insert_host` under the lock; the id was taken before. -/
def insertHost (id : ℕ) (batch : HostBatch) : Call ℕ := do
  let touch ← tick
  change fun w => w.register id
    ⟨.host, batch.memorySize, batch.memorySize, touch, batch.batch.schema, .host batch⟩
  enforceHost manager
  publish
  pure id

/-- `insert_device` under the lock; the id was taken before. -/
def insertDevice (id : ℕ) (resident : Resident) (schema : Schema) : Call ℕ := do
  let touch ← tick
  change fun w => w.register id ⟨.device, resident.bytes, 0, touch, schema, .device resident⟩
  enforceDevice manager
  enforceHost manager
  publish
  pure id

def get (id : ℕ) : Call HostBatch := do
  let touch ← tick
  let w ← world
  match w.entries.get? id with
  | none => fail (.execution ("spill: unknown batch id " ++ toString id))
  | some entry => do
      change fun w => w.modifyEntry id fun entry => { entry with lastTouch := touch }
      match entry.payload with
      | .host batch => pure batch
      | .device resident => toHost resident
      | .disk path => do
          -- `debug_assert_eq!(tier, Tier::Disk)`
          if entry.tier ≠ .disk then change fun w => w.log .wrongTier
          let batch ← readSpill manager path
          let hostBytes := if 0 < entry.hostBytes then entry.hostBytes else batch.memorySize
          change fun w => w.promote id entry.bytes hostBytes batch
          -- a file that cannot be deleted is only logged
          let _ ← delete path
          enforceHost manager
          publish
          pure batch

def remove (id : ℕ) : Call Bool := do
  let w ← world
  match w.entries.get? id with
  | none => pure false
  | some entry => do
      change fun w => w.forget id entry
      match entry.payload with
      | .disk path => do
          match ← delete path with
          | .failed detail => fail (.io false detail)
          | _ => do
              publish
              pure true
      | _ => do
          publish
          pure true

/-! ## Runs -/

/-- The batch of an insert call. -/
inductive Arrival where
  | host (batch : HostBatch)
  | device (resident : Resident) (schema : Schema)

/-- What an insert call stores. -/
def Arrival.batch : Arrival → RecordBatch
  | .host batch => batch.batch
  | .device resident _ => resident.contents.batch

/-- An insert under the lock. -/
def Arrival.insert (id : ℕ) : Arrival → Call ℕ
  | .host batch => insertHost manager id batch
  | .device resident schema => insertDevice manager id resident schema

/-- The manager with the inserts that wait for the lock. -/
structure System where
  world : World
  waiting : List (ℕ × Arrival)

/-- What can happen while the lock is free: an insert call takes its id and waits, a waiting
insert gets the lock or is dropped, or a `get` or `remove` gets the lock. -/
inductive Event where
  | arrive (arrival : Arrival)
  | insert (id : ℕ) (outside : Outside)
  | abandon (id : ℕ)
  | get (id : ℕ) (outside : Outside)
  | remove (id : ℕ) (outside : Outside)

/-- What the outside does during an event. -/
def Event.outside : Event → Outside
  | .arrive _ | .abandon _ => {}
  | .insert _ outside | .get _ outside | .remove _ outside => outside

/-- The calls still waiting when one of them is not any more. -/
def others (waiting : List (ℕ × Arrival)) (id : ℕ) : List (ℕ × Arrival) :=
  waiting.filter fun call => call.1 ≠ id

namespace System

/-- A new manager. -/
def new : System := ⟨.new, []⟩

/-- One event, until the lock is free again. -/
def step (system : System) : Event → System
  | .arrive arrival =>
    let id := system.world.nextId
    ⟨{ system.world with nextId := id + 1 }, (id, arrival) :: system.waiting⟩
  | .insert id outside =>
    match system.waiting.lookup id with
    | none => system
    | some arrival =>
      ⟨(arrival.insert manager id (system.world, outside)).2.1, others system.waiting id⟩
  | .abandon id => { system with waiting := others system.waiting id }
  | .get id outside => { system with world := (Spill.get manager id (system.world, outside)).2.1 }
  | .remove id outside =>
    { system with world := (Spill.remove id (system.world, outside)).2.1 }

/-- A run of a new manager. -/
def run (events : List Event) : System := events.foldl (step manager) new

end System

end Spill

end OxideLake

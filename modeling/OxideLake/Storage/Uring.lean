import OxideLake.Foundations.CompletionRing

/-!
# The io_uring store: the ring thread

`uring.rs` gives the data path of a local object store to one thread that owns an io_uring.
The thread takes read and write jobs in the order they arrive, and serves each with a loop of
single submissions.  `submit_one` pushes an entry, waits, and returns once it has read the
completion of that entry.

The kernel is what the model does not decide: `kernel n` are the rounds it plays during the
`n`th submission, and `perform` is what an operation does when it is performed, to the files
and as an answer.  When the rounds of a submission come to their end before it does, the thread
is still waiting.  A read answers with its result and the bytes it put in the buffer.

A `Call` is the record of one `submit_one`: the completions it took from the ring and how
control left it.  Release builds unwind on a panic, so a panic ends the thread.
-/

namespace OxideLake

namespace Uring

open CompletionRing

/-- Files by their path. -/
abbrev Files := String → Option (List UInt8)

/-- `opcode::Read` and `opcode::Write`. -/
inductive Op where
  | read (path : String) (offset len : ℕ)
  | write (path : String) (offset : ℕ) (data : List UInt8)

/-- A completion's result, and the bytes a read has put into its buffer. -/
structure Answer where
  code : ℤ
  bytes : List UInt8
  deriving DecidableEq

/-- `io::Error`. -/
inductive IoError where
  | os (code : ℤ)
  | other (message : String)
  | unexpectedEof (message : String)
  | writeZero (message : String)
  deriving DecidableEq

/-- How control leaves a function, or that it has not left it yet. -/
inductive Exit (α : Type) where
  | ok (value : α)
  | err (error : IoError)
  | panicked
  | waiting
  deriving DecidableEq

/-- The record of a call of `submit_one`. -/
structure Call where
  tag : UInt64
  serial : ℕ
  reaped : List (Completion Answer)
  exit : Exit Answer

/-- The ring thread: its ring, the submission counter, and the calls it has made. -/
structure Worker where
  ring : Ring Op Answer Files
  seq : UInt64
  calls : List Call

/-- A function of the ring thread. -/
def Task (α : Type) : Type := Worker → Exit α × Worker

instance : Monad Task where
  pure a := fun worker => (.ok a, worker)
  bind task next := fun worker =>
    match task worker with
    | (.ok a, worker') => next a worker'
    | (.err e, worker') => (.err e, worker')
    | (.panicked, worker') => (.panicked, worker')
    | (.waiting, worker') => (.waiting, worker')

def fail {α : Type} (error : IoError) : Task α := fun worker => (.err error, worker)

def unwind {α : Type} : Task α := fun worker => (.panicked, worker)

/-- The files as they are. -/
def files : Task Files := fun worker => (.ok worker.ring.device, worker)

def setFile (path : String) (content : List UInt8) : Task Unit := fun worker =>
  (.ok (), { worker with ring := { worker.ring with
    device := Function.update worker.ring.device path (some content) } })

/-! ## `submit_one` -/

def reapAttempts : UInt32 := 1024

/-- The error for a completion that is not that of the entry just pushed. -/
def outOfStep (carried tag : UInt64) : IoError :=
  .other ("io_uring completion carries submission " ++ toString carried ++ " where " ++
    toString tag ++ " was expected; the ring is out of step with the worker")

/-- The error for an entry that finds no room. -/
def queueFull : IoError := .other "io_uring submission queue is full: PushError"

/-- The error a wait leaves behind, the first one being kept. -/
def recordFailure (failure : Option IoError) : Wait → Option IoError
  | .failed code => failure.or (some (.os code))
  | _ => failure

/-- What `submit_one` returns once it has its completion. -/
def verdict (failure : Option IoError) (answer : Answer) : Exit Answer :=
  match failure with
  | some e => .err e
  | none => if answer.code < 0 then .err (.os (-answer.code)) else .ok answer

variable {C : Type} (perform : Files → Op → C → Answer × Files)

/-- The loop of `submit_one`, with the completions it takes from the ring. -/
def submitLoop (tag : UInt64) :
    List (Round C) → Option IoError → UInt32 → Ring Op Answer Files →
      Exit Answer × Ring Op Answer Files × List (Completion Answer)
  | [], _, _, ring => (.waiting, ring, [])
  | round :: rounds, failure, attempts, ring =>
    let ring := ring.round perform round
    if round.wait = .interrupted then submitLoop tag rounds failure attempts ring
    else
      let failure := recordFailure failure round.wait
      match ring.next with
      | some (cqe, ring) =>
        if cqe.tag = tag then (verdict failure cqe.answer, ring, [cqe])
        else (.err (outOfStep cqe.tag tag), ring, [cqe])
      | none =>
        -- the counter wraps: release builds do not check it
        let attempts := attempts + 1
        if failure.isNone ∨ attempts < reapAttempts then
          submitLoop tag rounds failure attempts ring
        else (.panicked, ring, [])

variable (kernel : ℕ → List (Round C))

def submitOne (op : Op) : Task Answer := fun worker =>
  let tag := worker.seq + 1
  let serial := worker.calls.length
  match worker.ring.push ⟨op, tag, serial⟩ with
  | none =>
    (.err queueFull, { worker with
      seq := tag, calls := worker.calls ++ [⟨tag, serial, [], .err queueFull⟩] })
  | some ring =>
    let result := submitLoop perform tag (kernel serial) none 0 ring
    (result.1, { worker with
      ring := result.2.1, seq := tag
      calls := worker.calls ++ [⟨tag, serial, result.2.2, result.1⟩] })

/-! ## Jobs -/

/-- What `std::fs` fails with during a job, if it does. -/
structure Faults where
  createDir : Option IoError := none
  openFile : Option IoError := none

inductive Job where
  | read (path : String) (start stop : ℕ) (faults : Faults := {})
  | write (path : String) (data : List UInt8) (faults : Faults := {})

/-- The bytes of one submission: `u32::try_from(left).unwrap_or(u32::MAX)`. -/
def chunk (left : ℕ) : ℕ := if left < 2 ^ 32 then left else 2 ^ 32 - 1

/-- The buffer once the kernel has put some bytes into it. -/
def fill (buf : List UInt8) (done : ℕ) (bytes : List UInt8) : List UInt8 :=
  buf.take done ++ bytes ++ buf.drop (done + bytes.length)

/-- The loop of `read_range`; every round gets at least one byte, so as many rounds as bytes
suffice. -/
def readLoop (path : String) (start len : ℕ) : ℕ → ℕ → List UInt8 → Task (List UInt8)
  | 0, _, buf => pure buf
  | fuel + 1, done, buf =>
    if done < len then do
      let answer ← submitOne perform kernel (.read path (start + done) (chunk (len - done)))
      if answer.code = 0 then
        fail (.unexpectedEof ("short read: " ++ toString done ++ " of " ++ toString len ++
          " bytes at offset " ++ toString start))
      else
        readLoop path start len fuel (done + answer.code.toNat) (fill buf done answer.bytes)
    else pure buf

/-- `File::open`. -/
def openRead (path : String) (faults : Faults) : Task Unit := do
  match faults.openFile with
  | some e => fail e
  | none =>
    match (← files) path with
    | none => fail (.os 2)
    | some _ => pure ()

def readRange (path : String) (start stop : ℕ) (faults : Faults) : Task (List UInt8) := do
  openRead path faults
  let len := stop - start
  -- a vector of more than `isize::MAX` bytes panics
  if 2 ^ 63 ≤ len then unwind
  else readLoop perform kernel path start len len 0 (List.replicate len 0)

/-- The loop of `write_all`. -/
def writeLoop (path : String) (data : List UInt8) : ℕ → ℕ → Task Unit
  | 0, _ => pure ()
  | fuel + 1, done =>
    if done < data.length then do
      let answer ← submitOne perform kernel
        (.write path done ((data.drop done).take (chunk (data.length - done))))
      if answer.code = 0 then fail (.writeZero "io_uring wrote zero bytes")
      else writeLoop path data fuel (done + answer.code.toNat)
    else pure ()

/-- `create_dir_all` and the `open` that truncates. -/
def openWrite (path : String) (faults : Faults) : Task Unit :=
  match faults.createDir, faults.openFile with
  | some e, _ => fail e
  | none, some e => fail e
  | none, none => setFile path []

def writeAll (path : String) (data : List UInt8) (faults : Faults) : Task Unit := do
  openWrite path faults
  writeLoop perform kernel path data data.length 0

/-- What a job replies. -/
inductive Reply where
  | bytes (bytes : List UInt8)
  | written
  deriving DecidableEq

/-- One job of `worker`. -/
def serve : Job → Task Reply
  | .read path start stop faults => do
      let bytes ← readRange perform kernel path start stop faults
      pure (.bytes bytes)
  | .write path data faults => do
      writeAll perform kernel path data faults
      pure .written

/-- `worker`: jobs in the order they arrive, until one panics or does not come to its end. -/
def worker : List Job → Worker → List (Exit Reply) × Worker
  | [], thread => ([], thread)
  | job :: jobs, thread =>
    match serve perform kernel job thread with
    | (.panicked, thread) => ([.panicked], thread)
    | (.waiting, thread) => ([.waiting], thread)
    | (exit, thread) => (exit :: (worker jobs thread).1, (worker jobs thread).2)

/-- The thread of a new store, whose ring has at least two entries. -/
def Worker.new (entries : ℕ) (files : Files) : Worker :=
  ⟨⟨max entries 2, [], [], [], [], files⟩, 0, []⟩

/-! ## The store -/

/-- `object_store::Error`, as the store builds it. -/
inductive StoreError where
  | notFound (path : String) (source : IoError)
  | generic (source : IoError)
  | message (text : String)

/-- How a call of the store ends for its caller, if it does. -/
inductive Returned (α : Type) where
  | ok (value : α)
  | err (error : StoreError)
  | never

/-- `UringLocalFileSystem`: the thread, and whether it still runs. -/
structure Store where
  thread : Worker
  alive : Bool

/-- `io_error`; the error code of a missing file is 2. -/
def ioError (path : String) (e : IoError) : StoreError :=
  if e = .os 2 then .notFound path e else .generic e

/-- `read` and `write`: a job is sent and its reply awaited. -/
def Store.send (path : String) (job : Job) (store : Store) : Returned Reply × Store :=
  if store.alive then
    match serve perform kernel job store.thread with
    | (.ok reply, thread) => (.ok reply, ⟨thread, true⟩)
    | (.err e, thread) => (.err (ioError path e), ⟨thread, true⟩)
    | (.panicked, thread) => (.err (.message "io_uring worker dropped the reply"), ⟨thread, false⟩)
    | (.waiting, thread) => (.never, ⟨thread, true⟩)
  else (.err (.message "io_uring worker thread has exited"), store)

/-- `put_opts` with `PutMode::Overwrite`. -/
def Store.put (path : String) (data : List UInt8) (faults : Faults) (store : Store) :
    Returned Unit × Store :=
  match store.send perform kernel path (.write path data faults) with
  | (.ok _, store) => (.ok (), store)
  | (.err e, store) => (.err e, store)
  | (.never, store) => (.never, store)

/-- The read of one range. -/
def Store.read (path : String) (start stop : ℕ) (store : Store) :
    Returned (List UInt8) × Store :=
  match store.send perform kernel path (.read path start stop) with
  | (.ok (.bytes bytes), store) => (.ok bytes, store)
  -- a read job replies with bytes
  | (.ok .written, store) => (.never, store)
  | (.err e, store) => (.err e, store)
  | (.never, store) => (.never, store)

/-- `get_opts` of a whole object: the size is looked up first. -/
def Store.get (path : String) (store : Store) : Returned (List UInt8) × Store :=
  match store.thread.ring.device path with
  | none => (.err (.notFound path (.os 2)), store)
  | some content => store.read perform kernel path 0 content.length

def Store.getRanges (path : String) :
    List (ℕ × ℕ) → Store → Returned (List (List UInt8)) × Store
  | [], store => (.ok [], store)
  | (start, stop) :: ranges, store =>
    match store.read perform kernel path start stop with
    | (.ok bytes, store) =>
      match Store.getRanges path ranges store with
      | (.ok out, store) => (.ok (bytes :: out), store)
      | (.err e, store) => (.err e, store)
      | (.never, store) => (.never, store)
    | (.err e, store) => (.err e, store)
    | (.never, store) => (.never, store)

end Uring

end OxideLake

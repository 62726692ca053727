import OxideLake.Storage.UringTransfers

/-!
# The io_uring store: gets beside puts

`get_opts` looks up the metadata of an object by itself and then sends a read job to the ring
thread; `put_opts` sends a write job.  The thread takes the jobs in the order they were sent.
What happens to one object is therefore a sequence of events: a caller sends a write, a caller
looks the object up, a caller sends the read for a lookup, or the thread does some work, which is
to take the next job or to submit the next bytes of the write it is at.  A read is one event,
since nothing else touches the file meanwhile.

The tag of an object (its modification time, in the metadata) is modelled by the place of the
file's state in `history`, the states the file has had.  A state is `complete` if it is that of
the object at the start or that in which a put has ended well: these are the versions of the
object.

`gets_one_version_iff` says when a get returns the metadata and the bytes of one version.
-/

namespace OxideLake

namespace Uring

open List CompletionRing

variable {s : Shared} {data : List UInt8} {request : Request}

/-! ## The model -/

/-- A state of the file. -/
structure Snapshot where
  content : List UInt8
  complete : Bool
  deriving DecidableEq

structure ObjectMeta where
  size : ℕ
  tag : ℕ
  deriving DecidableEq

/-- A get that has looked up the metadata, with the range it is going to read. -/
structure Lookup where
  objectMeta : ObjectMeta
  start : ℕ
  stop : ℕ
  deriving DecidableEq

/-- A get that has returned `Ok`; `served` is the tag of the file at its read. -/
structure Got where
  lookup : Lookup
  bytes : List UInt8
  served : ℕ
  deriving DecidableEq

/-- A job in the queue, from a put or from a get. -/
inductive Request where
  | write (data : List UInt8) (faults : Faults)
  | read (lookup : Lookup) (faults : Faults)

/-- One object with the thread and the callers around it: `exits` is how control left the jobs
the thread has taken, `writing` the write job it is at, with the bytes written so far. -/
structure Shared where
  thread : Worker
  running : Bool
  exits : List (Exit Reply)
  history : List Snapshot
  writing : Option (List UInt8 × ℕ)
  queue : List Request
  lookups : List Lookup
  gets : List Got

/-- What may happen next.  `resolve` is what a get does with the metadata: it checks the
preconditions and works out the range. -/
inductive Event where
  | put (data : List UInt8) (faults : Faults)
  | lookup (resolve : ObjectMeta → Option (ℕ × ℕ))
  | send (index : ℕ) (faults : Faults)
  | work

/-- The object at rest, with an idle thread. -/
def Shared.new (entries : ℕ) (path : String) (initial : Option (List UInt8)) : Shared where
  thread := .new entries (Function.update (fun _ => none) path initial)
  running := true
  exits := []
  history := initial.toList.map fun content => ⟨content, true⟩
  writing := none
  queue := []
  lookups := []
  gets := []

variable (kernel : ℕ → List (Round Transfer)) (path : String)

/-- The file has been worked on. -/
def Shared.record (thread : Worker) (complete : Bool) (s : Shared) : Shared :=
  { s with thread, history := s.history ++ [⟨(thread.ring.device path).getD [], complete⟩] }

/-- The job has come back, with a reply or an error. -/
def Shared.finish (exit : Exit Reply) (s : Shared) : Shared :=
  { s with writing := none, exits := s.exits ++ [exit] }

/-- The thread does not come back from the job. -/
def Shared.halt (exit : Exit Reply) (s : Shared) : Shared :=
  { s with running := false, exits := s.exits ++ [exit] }

/-- The first half of `get_opts`. -/
def Shared.head (resolve : ObjectMeta → Option (ℕ × ℕ)) (s : Shared) : Shared :=
  match s.thread.ring.device path with
  | none => s
  | some content =>
    let objectMeta : ObjectMeta := ⟨content.length, s.history.length - 1⟩
    match resolve objectMeta with
    | none => s
    | some (start, stop) => { s with lookups := s.lookups ++ [⟨objectMeta, start, stop⟩] }

/-- The next bytes of a write job: one round of the loop of `write_all`. -/
def Shared.writeOn (data : List UInt8) (done : ℕ) (s : Shared) : Shared :=
  match submitOne transfer kernel
      (.write path done ((data.drop done).take (chunk (data.length - done)))) s.thread with
  | (.ok answer, thread) =>
    if answer.code = 0 then
      (s.record path thread false).finish (.err (.writeZero "io_uring wrote zero bytes"))
    else if done + answer.code.toNat < data.length then
      { s.record path thread false with writing := some (data, done + answer.code.toNat) }
    else (s.record path thread true).finish (.ok .written)
  | (.err e, thread) => (s.record path thread false).finish (.err e)
  | (.panicked, thread) => (s.record path thread false).halt .panicked
  | (.waiting, thread) => (s.record path thread false).halt .waiting

/-- The start of a job. -/
def Shared.begin (s : Shared) : Request → Shared
  | .write data faults =>
    match openWrite path faults s.thread with
    | (.ok _, thread) =>
      if data.length = 0 then (s.record path thread true).finish (.ok .written)
      else { s.record path thread false with writing := some (data, 0) }
    | (.err e, thread) => Shared.finish (.err e) { s with thread }
    | (.panicked, thread) => Shared.halt .panicked { s with thread }
    | (.waiting, thread) => Shared.halt .waiting { s with thread }
  | .read lookup faults =>
    match readRange transfer kernel path lookup.start lookup.stop faults s.thread with
    | (.ok bytes, thread) =>
      Shared.finish (.ok (.bytes bytes))
        { s with thread, gets := s.gets ++ [⟨lookup, bytes, s.history.length - 1⟩] }
    | (.err e, thread) => Shared.finish (.err e) { s with thread }
    | (.panicked, thread) => Shared.halt .panicked { s with thread }
    | (.waiting, thread) => Shared.halt .waiting { s with thread }

/-- The thread goes on with its job or takes the next. -/
def Shared.work (s : Shared) : Shared :=
  if s.running then
    match s.writing, s.queue with
    | some (data, done), _ => s.writeOn kernel path data done
    | none, request :: queue => Shared.begin kernel path { s with queue } request
    | none, [] => s
  else s

/-- One event. -/
def Shared.step (s : Shared) : Event → Shared
  | .put data faults => { s with queue := s.queue ++ [.write data faults] }
  | .lookup resolve => s.head path resolve
  | .send index faults =>
    match s.lookups[index]? with
    | none => s
    | some lookup => { s with
        queue := s.queue ++ [.read lookup faults], lookups := s.lookups.eraseIdx index }
  | .work => s.work kernel path

/-- The events in their order. -/
def Shared.run (events : List Event) (s : Shared) : Shared := events.foldl (step kernel path) s

/-! ## Work is the service of jobs -/

/-- The job of a request. -/
def Request.job : Request → Job
  | .write data faults => .write path data faults
  | .read lookup faults => .read path lookup.start lookup.stop faults

/-- The file has gone through states that are no versions, and then through these. -/
def Shared.Rewrites (versions : List Snapshot) (before s : Shared) : Prop :=
  ∃ parts, (∀ part ∈ parts, part.complete = false) ∧
    s.history = before.history ++ parts ++ versions

/-- What a job has left behind: a write makes a version of its data if it succeeds and none
otherwise, a read is a get if it succeeds, and neither does the work of the other. -/
def Shared.Leaves (before s : Shared) : Request → Exit Reply → Prop
  | .write data _, .ok _ => before.Rewrites [⟨data, true⟩] s ∧ s.gets = before.gets
  | .write .., _ => before.Rewrites [] s ∧ s.gets = before.gets
  | .read lookup _, .ok (.bytes bytes) => s.history = before.history ∧
      s.gets = before.gets ++ [⟨lookup, bytes, before.history.length - 1⟩]
  | .read .., _ => s.history = before.history ∧ s.gets = before.gets

/-- The thread has come to the end of a request as the service of its job ends.  It can take the
next job after a reply and after an error; it is gone after a panic, and it stays where it is if
the kernel does not answer. -/
def Shared.AtEnd (before : Shared) (request : Request) (run : Exit Reply × Worker)
    (queue : List Request) (s : Shared) : Prop :=
  s.thread = run.2 ∧ s.queue = queue ∧ before.Leaves s request run.1 ∧
    match run.1 with
    | .ok reply => s.exits = before.exits ++ [.ok reply] ∧ s.running = true ∧ s.writing = none
    | .err e => s.exits = before.exits ++ [.err e] ∧ s.running = true ∧ s.writing = none
    | .panicked => s.exits = before.exits ++ [.panicked] ∧ s.running = false
    | .waiting => s.exits = before.exits ++ [.waiting] ∧ s.running = false

section Working

variable {kernel path}

variable (kernel) in
/-- **One round of a write**: it is over with an error, the thread does not come back from it,
or some more bytes are written.  In each case it is the first round of the loop of
`write_all`. -/
theorem Shared.writeOn_spec {done : ℕ} (hready : s.thread.Ready)
    (hfile : s.thread.ring.device path = some (data.take done)) (hless : done < data.length) :
    (∃ e thread count, s.writeOn kernel path data done =
        (s.record path thread false).finish (.err e) ∧ thread.Ready ∧
      thread.ring.device path = some (data.take count) ∧
      ∀ fuel, writeLoop transfer kernel path data (fuel + 1) done s.thread = (.err e, thread)) ∨
    (∃ thread, s.writeOn kernel path data done = (s.record path thread false).halt .panicked ∧
      ∀ fuel, writeLoop transfer kernel path data (fuel + 1) done s.thread =
        (.panicked, thread)) ∨
    (∃ thread, s.writeOn kernel path data done = (s.record path thread false).halt .waiting ∧
      ∀ fuel, writeLoop transfer kernel path data (fuel + 1) done s.thread =
        (.waiting, thread)) ∨
    ∃ thread done', done < done' ∧ thread.Ready ∧
      thread.ring.device path = some (data.take done') ∧
      (s.writeOn kernel path data done =
        if done' < data.length then
          { s.record path thread false with writing := some (data, done') }
        else (s.record path thread true).finish (.ok .written)) ∧
      ∀ fuel, writeLoop transfer kernel path data (fuel + 1) done s.thread =
        writeLoop transfer kernel path data fuel done' thread := by
  have hcall := submitOne_write kernel hready hfile (Nat.le_of_lt hless)
  simp only [writeLoop, if_pos hless]
  unfold Shared.writeOn
  revert hcall
  cases fate (kernel s.thread.calls.length) with
  | returned failure choice =>
    cases choice with
    | fail errno =>
      rintro ⟨e, thread', hrun, hready', hfile'⟩
      rw [hrun]
      exact .inl ⟨e, thread', done, rfl, hready', hfile', fun _ => Task.bind_err hrun⟩
    | move count =>
      rintro ⟨thread', hready', -, hfile', herr, hok⟩
      cases failure with
      | some e =>
        obtain ⟨e, hrun⟩ := herr rfl
        rw [hrun]
        exact .inl ⟨e, thread', _, rfl, hready', hfile', fun _ => Task.bind_err hrun⟩
      | none =>
        obtain ⟨answer, hrun, hcode⟩ := hok rfl
        rw [hrun]
        dsimp only
        by_cases hzero : answer.code = 0
        · rw [if_pos hzero]
          refine .inl ⟨.writeZero "io_uring wrote zero bytes", thread', _, rfl, hready', hfile',
            fun fuel => ?_⟩
          rw [Task.bind_ok hrun, if_pos hzero]
          rfl
        · rw [if_neg hzero, hcode, Int.toNat_natCast]
          refine .inr (.inr (.inr ⟨thread', _, ?_, hready', hfile', rfl, fun fuel => ?_⟩))
          · omega
          · rw [Task.bind_ok hrun, if_neg hzero, hcode, Int.toNat_natCast]
  | panicked =>
    rintro ⟨thread', hrun⟩
    rw [hrun]
    exact .inr (.inl ⟨thread', rfl, fun _ => Task.bind_panicked hrun⟩)
  | waiting =>
    rintro ⟨thread', hrun⟩
    rw [hrun]
    exact .inr (.inr (.inl ⟨thread', rfl, fun _ => Task.bind_waiting hrun⟩))

theorem Shared.run_work (n : ℕ) (s : Shared) :
    s.run kernel path (replicate (n + 1) .work) =
      (s.work kernel path).run kernel path (replicate n .work) := rfl

theorem Shared.work_writing (hrunning : s.running = true) {done : ℕ}
    (hwriting : s.writing = some (data, done)) :
    s.work kernel path = s.writeOn kernel path data done := by
  rw [Shared.work, if_pos hrunning, hwriting]

theorem Shared.rewrites_of_eq {before : Shared} {versions : List Snapshot}
    (hhistory : s.history = before.history ++ versions) : before.Rewrites versions s :=
  ⟨[], nofun, by rw [hhistory, append_nil]⟩

/-- A round of a write adds one state of the file. -/
theorem Shared.Rewrites.record {before : Shared} {versions : List Snapshot} {thread : Worker}
    (h : (before.record path thread false).Rewrites versions s) : before.Rewrites versions s := by
  obtain ⟨parts, hparts, hhistory⟩ := h
  refine ⟨⟨(thread.ring.device path).getD [], false⟩ :: parts, ?_, ?_⟩
  · exact forall_mem_cons.mpr ⟨rfl, hparts⟩
  · rw [hhistory]
    simp [Shared.record]

/-- What has come to its end after a round of a write has come to its end. -/
theorem Shared.AtEnd.record (before : Shared) {writing : Option (List UInt8 × ℕ)}
    {faults : Faults} {thread : Worker} {run : Exit Reply × Worker} {queue : List Request}
    (h : Shared.AtEnd { before.record path thread false with writing } (.write data faults) run
      queue s) :
    before.AtEnd (.write data faults) run queue s := by
  obtain ⟨hthread, hqueue, hleaves, hexits⟩ := h
  refine ⟨hthread, hqueue, ?_, hexits⟩
  revert hleaves
  cases run.1 <;> exact fun hleaves => ⟨hleaves.1.record, hleaves.2⟩

variable (kernel path) in
/-- **The rounds of a write** come to the end to which the loop of `write_all` comes. -/
theorem Shared.writeOn_atEnd (data : List UInt8) (faults : Faults) (fuel : ℕ) :
    ∀ (done : ℕ) (s : Shared), s.thread.Ready → s.running = true →
      s.writing = some (data, done) → s.thread.ring.device path = some (data.take done) →
      done < data.length → data.length - done ≤ fuel →
      ∃ n, s.AtEnd (.write data faults)
        ((writeLoop transfer kernel path data fuel done >>= fun _ => pure Reply.written) s.thread)
        s.queue (s.run kernel path (replicate n .work)) := by
  induction fuel with
  | zero => exact fun done s _ _ _ _ hless hfuel => absurd hless (by omega)
  | succ fuel ih =>
    intro done s hready hrunning hwriting hfile hless hfuel
    have hwork : s.work kernel path = _ := Shared.work_writing hrunning hwriting
    have hpart (thread : Worker) : s.Rewrites [] (s.record path thread false) :=
      (Shared.rewrites_of_eq (append_nil _).symm).record
    obtain ⟨e, thread, count, hround, -, -, hloop⟩ | ⟨thread, hround, hloop⟩ |
      ⟨thread, hround, hloop⟩ | ⟨thread, done', hmore, hready', hfile', hround, hloop⟩ :=
      Shared.writeOn_spec kernel hready hfile hless
    · refine ⟨1, ?_⟩
      rw [Shared.run_work, hwork, hround, Task.bind_err (hloop fuel)]
      exact ⟨rfl, rfl, ⟨hpart thread, rfl⟩, rfl, hrunning, rfl⟩
    · refine ⟨1, ?_⟩
      rw [Shared.run_work, hwork, hround, Task.bind_panicked (hloop fuel)]
      exact ⟨rfl, rfl, ⟨hpart thread, rfl⟩, rfl, rfl⟩
    · refine ⟨1, ?_⟩
      rw [Shared.run_work, hwork, hround, Task.bind_waiting (hloop fuel)]
      exact ⟨rfl, rfl, ⟨hpart thread, rfl⟩, rfl, rfl⟩
    · rw [Task.bind_apply, hloop, ← Task.bind_apply]
      split at hround
      next hless' =>
        obtain ⟨n, hn⟩ := ih done' { s.record path thread false with writing := some (data, done') }
          hready' hrunning rfl hfile' hless' (by omega)
        refine ⟨n + 1, ?_⟩
        rw [Shared.run_work, hwork, hround]
        exact Shared.AtEnd.record s hn
      next hend =>
        refine ⟨1, ?_⟩
        have hdone : writeLoop transfer kernel path data fuel done' thread = (.ok (), thread) := by
          cases fuel with
          | zero => rfl
          | succ fuel => simp only [writeLoop, if_neg hend]; rfl
        rw [take_of_length_le (Nat.not_lt.mp hend)] at hfile'
        rw [Shared.run_work, hwork, hround, Task.bind_ok hdone]
        refine ⟨rfl, rfl, ⟨Shared.rewrites_of_eq ?_, rfl⟩, rfl, hrunning, rfl⟩
        show s.history ++ [⟨(thread.ring.device path).getD [], true⟩] = _
        rw [hfile', Option.getD_some]

/-- **The thread's work on a job is the service of the job.** -/
theorem Shared.work_serves (hready : s.thread.Ready) (hrunning : s.running = true)
    (hidle : s.writing = none) {queue : List Request} (hqueue : s.queue = request :: queue) :
    ∃ n, s.AtEnd request (serve transfer kernel (request.job path) s.thread) queue
      (s.run kernel path (replicate n .work)) := by
  have hwork : s.work kernel path = Shared.begin kernel path { s with queue } request := by
    rw [Shared.work, if_pos hrunning, hidle, hqueue]
  cases request with
  | write data faults =>
    rw [Request.job, serve]
    by_cases hfaults : faults.createDir.isSome ∨ faults.openFile.isSome
    · obtain ⟨e, hopen⟩ := openWrite_err s.thread path hfaults
      refine ⟨1, ?_⟩
      rw [Shared.run_work, hwork, Shared.begin, hopen, writeAll,
        Task.bind_err (Task.bind_err hopen)]
      exact ⟨rfl, rfl, ⟨Shared.rewrites_of_eq (append_nil _).symm, rfl⟩, rfl, hrunning, rfl⟩
    have hopen : openWrite path faults s.thread = (.ok (), s.thread.truncated path) :=
      openWrite_ok hfaults
    have hfile := Worker.truncated_file path s.thread
    rw [Shared.begin, hopen] at hwork
    rw [Task.bind_apply, writeAll_opened path kernel s.thread data hfaults, ← Task.bind_apply]
    dsimp only at hwork
    split at hwork
    next hempty =>
      obtain rfl := eq_nil_of_length_eq_zero hempty
      refine ⟨1, ?_⟩
      rw [Shared.run_work, hwork]
      refine ⟨rfl, rfl, ⟨Shared.rewrites_of_eq ?_, rfl⟩, rfl, hrunning, rfl⟩
      show s.history ++ [⟨((s.thread.truncated path).ring.device path).getD [], true⟩] = _
      rw [hfile, Option.getD_some]
    next hsome =>
      obtain ⟨n, hn⟩ := Shared.writeOn_atEnd kernel path data faults data.length 0
        { Shared.record path (s.thread.truncated path) false { s with queue } with
          writing := some (data, 0) }
        (hready.truncated path) hrunning rfl hfile (Nat.pos_of_ne_zero hsome) (Nat.le_refl _)
      refine ⟨n + 1, ?_⟩
      rw [Shared.run_work, hwork]
      exact Shared.AtEnd.record { s with queue } hn
  | read lookup faults =>
    refine ⟨1, ?_⟩
    rw [Shared.run_work, hwork, Shared.begin, Request.job, serve]
    rcases hrun : readRange transfer kernel path lookup.start lookup.stop faults s.thread
      with ⟨_ | _ | _ | _, thread'⟩
    · rw [Task.bind_ok hrun]
      exact ⟨rfl, rfl, ⟨rfl, rfl⟩, rfl, hrunning, rfl⟩
    · rw [Task.bind_err hrun]
      exact ⟨rfl, rfl, ⟨rfl, rfl⟩, rfl, hrunning, rfl⟩
    · rw [Task.bind_panicked hrun]
      exact ⟨rfl, rfl, ⟨rfl, rfl⟩, rfl, rfl⟩
    · rw [Task.bind_waiting hrun]
      exact ⟨rfl, rfl, ⟨rfl, rfl⟩, rfl, rfl⟩

end Working

/-! ## Reads, whatever the kernel does -/

section Reading

variable {kernel path} {thread : Worker} {content : List UInt8}

/-- What a read may come to: it returns the bytes expected, or it fails, or it does not come to
its end.  The files stay as they are. -/
def Reads (files : Files) (expected : List UInt8) : Exit (List UInt8) × Worker → Prop
  | (.ok bytes, thread) => bytes = expected ∧ thread.Ready ∧ thread.ring.device = files
  | (.err _, thread) => thread.Ready ∧ thread.ring.device = files
  | _ => True

theorem carries_reading (path : String) (content : List UInt8) (start len : ℕ) (files : Files) :
    (readRangeLoop path start len).Carries transfer
      (fun done buf contents =>
        contents = files ∧ ReadPart path content start len done buf contents)
      (fun contents => contents = files) where
  moved done buf contents choice hless hpart hpositive := by
    obtain ⟨hsame, hpart⟩ := hpart
    obtain ⟨count, hcode, hfits, hpart'⟩ := (carries_readRange moves_transfer path content start
      len).moved done buf contents choice hless hpart hpositive
    refine ⟨count, hcode, hfits, ?_, hpart'⟩
    cases choice <;> exact hsame
  fine done buf contents choice hless hpart := by
    cases choice <;> exact hpart.1

variable (kernel) in
theorem readLoop_reads (hready : thread.Ready) (hfile : thread.ring.device path = some content)
    (start len : ℕ) :
    Reads thread.ring.device ((content.drop start).take len)
      (readLoop transfer kernel path start len len 0 (replicate len 0) thread) := by
  have houtcome : (readRangeLoop path start len).Outcome kernel _ _
      ((readRangeLoop path start len).bounded transfer kernel len 0 (replicate len 0)
        thread) :=
    (TransferLoop.bounded_leaves (carries_reading path content start len thread.ring.device)
      hready ⟨rfl, hfile, length_replicate .., rfl, rfl⟩).2
  rw [readLoop_eq_bounded]
  revert houtcome
  generalize (readRangeLoop path start len).bounded transfer kernel len 0 (replicate len 0)
    thread = result
  obtain ⟨bytes | e | _ | _, thread'⟩ := result
  · rintro ⟨hready', buf, hbuf, hsame, hpart⟩
    obtain rfl : bytes = buf := hbuf
    exact ⟨hpart.complete, hready', hsame⟩
  · exact id
  · exact fun _ => trivial
  · exact fun _ => trivial

variable (kernel) in
/-- **`read_range`** returns the bytes of the range, if it returns any. -/
theorem readRange_reads (hready : thread.Ready)
    (hfile : thread.ring.device path = some content) (start stop : ℕ) (faults : Faults) :
    Reads thread.ring.device (slice content start stop)
      (readRange transfer kernel path start stop faults thread) := by
  cases hopen : faults.openFile with
  | some e =>
    have herr : openRead path faults thread = (.err e, thread) := by
      rw [openRead, hopen]
      rfl
    rw [readRange, Task.bind_err herr]
    exact ⟨hready, rfl⟩
  | none =>
    have hok : openRead path faults thread = (.ok (), thread) := by
      rw [openRead, hopen]
      exact openRead_ok hfile
    rw [readRange, Task.bind_ok hok]
    by_cases hlarge : 2 ^ 63 ≤ stop - start
    · simp only [if_pos hlarge]
      trivial
    · simp only [if_neg hlarge]
      exact readLoop_reads kernel hready hfile start (stop - start)

end Reading

/-! ## What every run keeps -/

/-- The metadata is that of a state the file has had. -/
def Lookup.Sound (history : List Snapshot) (lookup : Lookup) : Prop :=
  ∃ seen, history[lookup.objectMeta.tag]? = some seen ∧
    lookup.objectMeta.size = seen.content.length

/-- The metadata is that of a state the file has had, and so are the bytes. -/
def Got.Sound (history : List Snapshot) (got : Got) : Prop :=
  got.lookup.Sound history ∧ ∃ served, history[got.served]? = some served ∧
    got.bytes = slice served.content got.lookup.start got.lookup.stop

/-- A write has a version to write, and a read has looked its object up. -/
def Request.Sound (IsVersion : List UInt8 → Prop) (history : List Snapshot) : Request → Prop
  | .write data _ => IsVersion data
  | .read lookup _ => lookup.Sound history

theorem getElem?_of_grows {history later : List Snapshot} (hgrows : history <+: later)
    {tag : ℕ} {snapshot : Snapshot} (h : history[tag]? = some snapshot) :
    later[tag]? = some snapshot := by
  obtain ⟨tail, rfl⟩ := hgrows
  obtain ⟨hlt, -⟩ := List.getElem?_eq_some_iff.mp h
  rw [List.getElem?_append_left hlt, h]

section Mono

variable {history later : List Snapshot} (hgrows : history <+: later)
include hgrows

theorem Lookup.Sound.mono {lookup : Lookup} (h : lookup.Sound history) : lookup.Sound later := by
  obtain ⟨seen, hseen, hsize⟩ := h
  exact ⟨seen, getElem?_of_grows hgrows hseen, hsize⟩

theorem Got.Sound.mono {got : Got} (h : got.Sound history) : got.Sound later := by
  obtain ⟨hlookup, served, hserved, hbytes⟩ := h
  exact ⟨hlookup.mono hgrows, served, getElem?_of_grows hgrows hserved, hbytes⟩

theorem Request.Sound.mono {IsVersion : List UInt8 → Prop} (h : request.Sound IsVersion history) :
    request.Sound IsVersion later := by
  cases request with
  | write => exact h
  | read => exact Lookup.Sound.mono hgrows h

end Mono

/-- As long as the thread runs, the last state in the history is that of the file, and a write
the thread is at has written the first bytes of its payload. -/
structure Shared.Live (IsVersion : List UInt8 → Prop) (s : Shared) : Prop where
  ready : s.thread.Ready
  file : s.thread.ring.device path = s.history.getLast?.map Snapshot.content
  writing : ∀ data done, s.writing = some (data, done) →
    IsVersion data ∧ done < data.length ∧ s.thread.ring.device path = some (data.take done)
  queue : ∀ request ∈ s.queue, request.Sound IsVersion s.history
  lookups : ∀ lookup ∈ s.lookups, lookup.Sound s.history

/-- **The invariant.** -/
structure Shared.Sound (IsVersion : List UInt8 → Prop) (s : Shared) : Prop where
  live : s.running = true → s.Live path IsVersion
  versions : ∀ snapshot ∈ s.history, snapshot.complete = true → IsVersion snapshot.content
  gets : ∀ got ∈ s.gets, got.Sound s.history

section Keeping

variable {kernel path} {IsVersion : List UInt8 → Prop} {s : Shared}

theorem Shared.sound_new (entries : ℕ) {initial : Option (List UInt8)}
    (hinitial : ∀ content, initial = some content → IsVersion content) :
    (Shared.new entries path initial).Sound path IsVersion where
  live _ := {
    ready := ⟨⟨rfl, rfl, rfl⟩, by
      show 0 < max entries 2
      omega⟩
    file := by
      show Function.update (fun _ => none) path initial path = _
      rw [Function.update_self]
      cases initial <;> rfl
    writing := nofun
    queue := nofun
    lookups := nofun }
  versions := by
    intro snapshot hmem _
    obtain ⟨content, hcontent, rfl⟩ := mem_map.mp hmem
    exact hinitial content (Option.mem_toList.mp hcontent)
  gets := nofun

theorem Shared.Live.current (h : s.Live path IsVersion) {content : List UInt8}
    (hfile : s.thread.ring.device path = some content) :
    ∃ snapshot, s.history[s.history.length - 1]? = some snapshot ∧
      snapshot.content = content := by
  rw [h.file, ← getLast?_eq_getElem?] at *
  obtain ⟨snapshot, hlast, rfl⟩ := Option.map_eq_some_iff.mp hfile
  exact ⟨snapshot, hlast, rfl⟩

theorem Shared.Live.exists_file (h : s.Live path IsVersion) {lookup : Lookup}
    (hlookup : lookup.Sound s.history) : ∃ content, s.thread.ring.device path = some content := by
  obtain ⟨seen, hseen, -⟩ := hlookup
  rw [h.file]
  cases hlast : s.history.getLast? with
  | none => simp [getLast?_eq_none_iff.mp hlast] at hseen
  | some last => exact ⟨last.content, rfl⟩

section

variable (h : s.Sound path IsVersion)
include h

/-- **Work on the file** keeps the invariant, if it is the thread's own write. -/
theorem Shared.Sound.record (thread : Worker)
    {complete running : Bool} {writing : Option (List UInt8 × ℕ)} {exits : List (Exit Reply)}
    (hrunning : s.running = true)
    (hversion : complete = true → IsVersion ((thread.ring.device path).getD []))
    (hlive : running = true → thread.Ready ∧ (thread.ring.device path).isSome ∧
      ∀ data done, writing = some (data, done) →
        IsVersion data ∧ done < data.length ∧ thread.ring.device path = some (data.take done)) :
    Shared.Sound path IsVersion { s.record path thread complete with writing, running, exits } := by
  have hgrows : s.history <+: s.history ++ [⟨(thread.ring.device path).getD [], complete⟩] :=
    prefix_append ..
  have hbefore := h.live hrunning
  constructor
  · intro hrun
    obtain ⟨hready, hfile, hwriting⟩ := hlive hrun
    constructor
    · exact hready
    · obtain ⟨content, hcontent⟩ := Option.isSome_iff_exists.mp hfile
      simp [Shared.record, hcontent]
    · exact hwriting
    · exact fun request hmem => (hbefore.queue request hmem).mono hgrows
    · exact fun lookup hmem => (hbefore.lookups lookup hmem).mono hgrows
  · intro snapshot hmem hcomplete
    rcases mem_append.mp hmem with hmem | hmem
    · exact h.versions snapshot hmem hcomplete
    · obtain rfl := mem_singleton.mp hmem
      exact hversion hcomplete
  · exact fun got hmem => (h.gets got hmem).mono hgrows

/-- An event that leaves the file alone. -/
theorem Shared.Sound.untouched {s' : Shared}
    (hhistory : s'.history = s.history) (hrunning : s'.running = true → s.running = true)
    (hfile : s'.running = true → s'.thread.Ready ∧ s'.thread.ring.device = s.thread.ring.device)
    (hwriting : s'.writing = s.writing)
    (hqueue : s'.running = true → ∀ request ∈ s'.queue, request ∈ s.queue ∨
      request.Sound IsVersion s.history)
    (hlookups : s'.running = true → ∀ lookup ∈ s'.lookups, lookup ∈ s.lookups ∨
      lookup.Sound s.history)
    (hgets : ∀ got ∈ s'.gets, got ∈ s.gets ∨ got.Sound s.history) : s'.Sound path IsVersion := by
  constructor
  · intro hrun
    have hbefore := h.live (hrunning hrun)
    obtain ⟨hready, hdevice⟩ := hfile hrun
    constructor
    · exact hready
    · rw [hdevice, hhistory]
      exact hbefore.file
    · rw [hdevice, hwriting]
      exact hbefore.writing
    · intro request hmem
      rw [hhistory]
      exact (hqueue hrun request hmem).elim (hbefore.queue request) id
    · intro lookup hmem
      rw [hhistory]
      exact (hlookups hrun lookup hmem).elim (hbefore.lookups lookup) id
  · rw [hhistory]
    exact h.versions
  · intro got hmem
    rw [hhistory]
    exact (hgets got hmem).elim (h.gets got) id

/-- A `head`. -/
theorem Shared.Sound.head (resolve : ObjectMeta → Option (ℕ × ℕ)) :
    (s.head path resolve).Sound path IsVersion := by
  unfold Shared.head
  split
  · exact h
  next content hfile =>
    dsimp only
    split
    · exact h
    next start stop _ =>
      refine h.untouched rfl id (fun hrun => ⟨(h.live hrun).ready, rfl⟩) rfl
        (fun _ _ => .inl) (fun hrun lookup hmem => ?_) (fun _ => .inl)
      refine (mem_append.mp hmem).imp_right fun hnew => ?_
      obtain rfl := mem_singleton.mp hnew
      obtain ⟨snapshot, htag, rfl⟩ := (h.live hrun).current hfile
      exact ⟨snapshot, htag, rfl⟩

/-- A round of a write. -/
theorem Shared.Sound.writeOn (hrunning : s.running = true) {done : ℕ}
    (hwriting : s.writing = some (data, done)) :
    (s.writeOn kernel path data done).Sound path IsVersion := by
  obtain ⟨hready, -, hat, -, -⟩ := h.live hrunning
  obtain ⟨hversion, hless, hfile⟩ := hat data done hwriting
  obtain ⟨e, thread, count, hround, hready', hfile', -⟩ | ⟨thread, hround, -⟩ |
    ⟨thread, hround, -⟩ | ⟨thread, done', -, hready', hfile', hround, -⟩ :=
    Shared.writeOn_spec kernel hready hfile hless
  · rw [hround]
    exact h.record thread hrunning nofun fun _ => ⟨hready', by rw [hfile']; rfl, nofun⟩
  · rw [hround]
    exact h.record thread hrunning nofun nofun
  · rw [hround]
    exact h.record thread hrunning nofun nofun
  · rw [hround]
    split
    next hless' =>
      refine h.record thread hrunning nofun fun _ => ⟨hready', by rw [hfile']; rfl, ?_⟩
      rintro _ _ ⟨⟩
      exact ⟨hversion, hless', hfile'⟩
    next hend =>
      refine h.record thread hrunning (fun _ => ?_) fun _ => ⟨hready', by rw [hfile']; rfl, nofun⟩
      rw [hfile', take_of_length_le (Nat.not_lt.mp hend)]
      exact hversion

/-- The start of a job. -/
theorem Shared.Sound.begin (hrunning : s.running = true)
    (hidle : s.writing = none) (hrequest : request.Sound IsVersion s.history) :
    (s.begin kernel path request).Sound path IsVersion := by
  have hlive := h.live hrunning
  cases request with
  | write data faults =>
    rw [Shared.begin]
    by_cases hfaults : faults.createDir.isSome ∨ faults.openFile.isSome
    · obtain ⟨e, hopen⟩ := openWrite_err s.thread path hfaults
      rw [hopen]
      exact h.untouched rfl id (fun hrun => ⟨(h.live hrun).ready, rfl⟩) hidle.symm
        (fun _ _ => .inl) (fun _ _ => .inl) fun _ => .inl
    rw [openWrite_ok hfaults]
    have hfile := Worker.truncated_file path s.thread
    dsimp only
    split
    next hempty =>
      obtain rfl := eq_nil_of_length_eq_zero hempty
      refine h.record (s.thread.truncated path) hrunning (fun _ => ?_) fun _ =>
        ⟨hlive.ready.truncated path, by rw [hfile]; rfl, nofun⟩
      rw [hfile]
      exact hrequest
    next hsome =>
      refine h.record (s.thread.truncated path) hrunning nofun fun _ =>
        ⟨hlive.ready.truncated path, by rw [hfile]; rfl, ?_⟩
      rintro _ _ ⟨⟩
      exact ⟨hrequest, Nat.pos_of_ne_zero hsome, hfile⟩
  | read lookup faults =>
    obtain ⟨content, hfile⟩ := hlive.exists_file hrequest
    have hread := readRange_reads kernel hlive.ready hfile lookup.start lookup.stop faults
    rw [Shared.begin]
    rcases hrun : readRange transfer kernel path lookup.start lookup.stop faults s.thread
      with ⟨_ | _ | _ | _, thread'⟩ <;> rw [hrun] at hread
    · obtain ⟨rfl, hready', hdevice⟩ := hread
      refine h.untouched rfl id (fun _ => ⟨hready', hdevice⟩) hidle.symm (fun _ _ => .inl)
        (fun _ _ => .inl) fun got hmem => ?_
      refine (mem_append.mp hmem).imp_right fun hnew => ?_
      obtain rfl := mem_singleton.mp hnew
      obtain ⟨served, hserved, rfl⟩ := hlive.current hfile
      exact ⟨hrequest, served, hserved, rfl⟩
    · exact h.untouched rfl id (fun _ => hread) hidle.symm (fun _ _ => .inl) (fun _ _ => .inl)
        fun _ => .inl
    · exact h.untouched rfl nofun nofun rfl nofun nofun fun _ => .inl
    · exact h.untouched rfl nofun nofun rfl nofun nofun fun _ => .inl

/-- **A round of the worker.** -/
theorem Shared.Sound.work :
    (s.work kernel path).Sound path IsVersion := by
  unfold Shared.work
  split
  next hrunning =>
    split
    next data done hwriting => exact h.writeOn hrunning hwriting
    next request queue hidle hqueue =>
      have hrequest := (h.live hrunning).queue request (by simp [hqueue])
      have hrest : Shared.Sound path IsVersion { s with queue } := by
        refine h.untouched rfl id (fun hrun => ⟨(h.live hrun).ready, rfl⟩) rfl
          (fun _ request hmem => .inl ?_) (fun _ _ => .inl) (fun _ => .inl)
        rw [hqueue]
        exact mem_cons_of_mem _ hmem
      exact hrest.begin hrunning hidle hrequest
    · exact h
  · exact h

/-- **One event.** -/
theorem Shared.Sound.step (event : Event)
    (hput : ∀ data faults, event = .put data faults → IsVersion data) :
    (s.step kernel path event).Sound path IsVersion := by
  cases event with
  | put data faults =>
    refine h.untouched rfl id (fun hrun => ⟨(h.live hrun).ready, rfl⟩) rfl
      (fun _ request hmem => ?_) (fun _ _ => .inl) (fun _ => .inl)
    refine (mem_append.mp hmem).imp_right fun hnew => ?_
    obtain rfl := mem_singleton.mp hnew
    exact hput data faults rfl
  | lookup resolve => exact h.head resolve
  | send index faults =>
    rw [Shared.step]
    split
    · exact h
    next lookup hlookup =>
      refine h.untouched rfl id (fun hrun => ⟨(h.live hrun).ready, rfl⟩) rfl
        (fun hrun request hmem => ?_)
        (fun _ other hmem => .inl ((eraseIdx_sublist ..).subset hmem)) (fun _ => .inl)
      refine (mem_append.mp hmem).imp_right fun hnew => ?_
      obtain rfl := mem_singleton.mp hnew
      exact (h.live hrun).lookups lookup (mem_of_getElem? hlookup)
  | work => exact h.work

end

/-- **Every run.** -/
theorem Shared.Sound.run (events : List Event)
    (hput : ∀ data faults, .put data faults ∈ events → IsVersion data) :
    ∀ s : Shared, s.Sound path IsVersion → (s.run kernel path events).Sound path IsVersion := by
  induction events with
  | nil => exact fun s h => h
  | cons event events ih =>
    intro s h
    have hrest := ih fun data faults hmem => hput data faults (mem_cons_of_mem _ hmem)
    refine hrest _ (h.step event ?_)
    rintro data faults rfl
    exact hput data faults mem_cons_self

end Keeping

/-! ## One version -/

/-- A content of the object as a caller has put it. -/
def IsVersion (initial : Option (List UInt8)) (events : List Event) (content : List UInt8) : Prop :=
  initial = some content ∨ ∃ faults, .put content faults ∈ events

/-- The metadata and the bytes of a get are those of one version of the object: a content put by
a caller, that the file has had in whole under the tag of the metadata. -/
def Got.OneVersion (initial : Option (List UInt8)) (events : List Event) (history : List Snapshot)
    (got : Got) : Prop :=
  ∃ version, IsVersion initial events version ∧
    history[got.lookup.objectMeta.tag]? = some ⟨version, true⟩ ∧
    got.lookup.objectMeta.size = version.length ∧
    got.bytes = slice version got.lookup.start got.lookup.stop

/-- No put has come between: the file was a whole version when the metadata was looked up, and
the bytes of the range were the same at the read. -/
def Got.Undisturbed (history : List Snapshot) (got : Got) : Prop :=
  ∃ seen served, history[got.lookup.objectMeta.tag]? = some seen ∧ seen.complete = true ∧
    history[got.served]? = some served ∧
    slice seen.content got.lookup.start got.lookup.stop =
      slice served.content got.lookup.start got.lookup.stop

/-- **A get returns one version of the object exactly if no put has come between** its lookup and
its read: for every kernel and every sequence of events. -/
theorem gets_one_version_iff (entries : ℕ) (initial : Option (List UInt8)) (events : List Event) :
    ∀ got ∈ ((Shared.new entries path initial).run kernel path events).gets,
      let history := ((Shared.new entries path initial).run kernel path events).history
      got.OneVersion initial events history ↔ got.Undisturbed history := by
  intro got hgot history
  have hsound : Shared.Sound path (IsVersion initial events)
      ((Shared.new entries path initial).run kernel path events) :=
    Shared.Sound.run events (fun data faults hmem => .inr ⟨faults, hmem⟩) _
      (Shared.sound_new entries fun content hcontent => .inl hcontent)
  obtain ⟨⟨seen, hseen, hsize⟩, served, hserved, hbytes⟩ := hsound.gets got hgot
  constructor
  · rintro ⟨version, -, htag, -, hversion⟩
    exact ⟨_, served, htag, rfl, hserved, hversion.symm.trans hbytes⟩
  · rintro ⟨seen', served', hseen', hcomplete, hserved', hsame⟩
    obtain rfl : seen = seen' := Option.some.inj (hseen.symm.trans hseen')
    obtain rfl : served = served' := Option.some.inj (hserved.symm.trans hserved')
    refine ⟨seen.content, hsound.versions seen (mem_of_getElem? hseen) hcomplete, ?_, hsize,
      hbytes.trans hsame.symm⟩
    rw [hseen, ← hcomplete]

/-- The whole object. -/
def wholeObject (objectMeta : ObjectMeta) : Option (ℕ × ℕ) := some (0, objectMeta.size)

/-- A kernel that moves up to ninety-nine bytes with every submission. -/
def manyBytes (_ : ℕ) : List (Round Transfer) := [⟨1, [(0, .move 99)], .ok⟩]

theorem Shared.work_serves_put :
    let s := (Shared.new 2 "f" none).step manyBytes "f" (.put [1, 1] {})
    let request : Request := .write [1, 1] {}
    ∃ n, s.AtEnd request (serve transfer manyBytes (request.job "f") s.thread) []
      (s.run manyBytes "f" (replicate n .work)) := by
  intro s request
  exact s.work_serves ⟨⟨rfl, rfl, rfl⟩, Nat.zero_lt_two⟩ rfl rfl rfl

/-- An object of two bytes is looked up, overwritten with three bytes and then read: the size and
the tag are those of the old object, the bytes are not. -/
theorem get_mixes_versions :
    let events : List Event :=
      [.lookup wholeObject, .put [1, 1, 1] {}, .work, .work, .send 0 {}, .work]
    let shared := (Shared.new 2 "f" (some [7, 7])).run manyBytes "f" events
    shared.gets = [⟨⟨⟨2, 0⟩, 0, 2⟩, [1, 1], 2⟩] ∧
      shared.history = [⟨[7, 7], true⟩, ⟨[], false⟩, ⟨[1, 1, 1], true⟩] := by
  decide

/-- A put before the lookup, and another after the read is sent. -/
theorem gets_one_version_iff_twoBytes :
    let events : List Event :=
      [.put [1, 1, 1] {}, .work, .work, .lookup wholeObject, .send 0 {}, .put [5] {}, .work]
    let shared := (Shared.new 2 "f" (some [7, 7])).run manyBytes "f" events
    let got : Got := ⟨⟨⟨3, 2⟩, 0, 3⟩, [1, 1, 1], 2⟩
    got ∈ shared.gets ∧ got.OneVersion (some [7, 7]) events shared.history := by
  intro events shared got
  have hmem : got ∈ shared.gets := by decide
  have hhistory : shared.history = [⟨[7, 7], true⟩, ⟨[], false⟩, ⟨[1, 1, 1], true⟩] := by decide
  refine ⟨hmem, (gets_one_version_iff manyBytes "f" 2 (some [7, 7]) events got hmem).mpr ?_⟩
  rw [hhistory]
  exact ⟨_, _, rfl, rfl, rfl, rfl⟩

end Uring

end OxideLake

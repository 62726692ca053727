import OxideLake.Foundations.WhileLoop
import OxideLake.Storage.UringFiles

/-!
# The transfer loops

`read_range` and `write_all` submit the rest of a transfer, in chunks that a `u32` can count,
until nothing is left.  The kernel decides how many bytes each submission moves: all that were
asked for, fewer, none, or it fails.  Of what an operation does, only this is assumed here: one
that is answered with a positive number has moved that many bytes, at its offset and no more
than it asked for (`Moves`).

The two loops are one loop with different operations (`TransferLoop`), given without a bound on
its rounds.  Every round that goes on has moved at least one byte, so both loops leave
(`TransferLoop.bounded_leaves`); what they leave with is the whole transfer or an error, unless
a submission never completes.
-/

namespace OxideLake

namespace Uring

open List CompletionRing WhileLoop

variable {C : Type} {perform : Files → Op → C → Answer × Files} {kernel : ℕ → List (Round C)}

variable {content : List UInt8} {faults : Faults} {path : String} {thread : Worker}

/-- What an operation answered with a positive number has done. -/
structure Moves (perform : Files → Op → C → Answer × Files) : Prop where
  read : ∀ (contents : Files) (path : String) (offset len : ℕ) (choice : C) (content : List UInt8),
    contents path = some content →
    0 < (perform contents (.read path offset len) choice).1.code →
    ∃ count ≤ len, (perform contents (.read path offset len) choice).1 =
        ⟨count, (content.drop offset).take count⟩ ∧
      ((content.drop offset).take count).length = count ∧
      (perform contents (.read path offset len) choice).2 path = some content
  write : ∀ (contents : Files) (path : String) (offset : ℕ) (data : List UInt8) (choice : C)
      (content : List UInt8),
    contents path = some content →
    0 < (perform contents (.write path offset data) choice).1.code →
    ∃ count ≤ data.length, (perform contents (.write path offset data) choice).1.code = count ∧
      (perform contents (.write path offset data) choice).2 path =
        some (fill content offset (data.take count))

/-- Every submission completes: no call panics and none is left waiting. -/
def Completes (kernel : ℕ → List (Round C)) : Prop :=
  ∀ n, ∃ failure choice, fate (kernel n) = .returned failure choice

/-! ## The loop of a transfer -/

/-- A loop that moves `total` bytes: the operation that asks for the rest, what its answer
changes in the caller's buffer, the error when nothing was moved, and the result. -/
structure TransferLoop (σ α : Type) where
  total : ℕ
  op : ℕ → Op
  put : ℕ → Answer → σ → σ
  stuck : ℕ → IoError
  finish : σ → α

namespace TransferLoop

variable {σ α : Type} (loop : TransferLoop σ α)

variable (perform kernel) in
/-- The condition of the loop and one round of it. -/
def body : ℕ × σ × Worker → (Exit α × Worker) ⊕ (ℕ × σ × Worker)
  | (done, buf, thread) =>
    if done < loop.total then
      match submitOne perform kernel (loop.op done) thread with
      | (.ok answer, thread) =>
        if answer.code = 0 then .inl (.err (loop.stuck done), thread)
        else .inr (done + answer.code.toNat, loop.put done answer buf, thread)
      | (.err e, thread) => .inl (.err e, thread)
      | (.panicked, thread) => .inl (.panicked, thread)
      | (.waiting, thread) => .inl (.waiting, thread)
    else .inl (.ok (loop.finish buf), thread)

variable (perform) in
/-- `Part` describes a transfer of which so many bytes are done, and a positive answer takes it
on; whatever an operation does, it leaves the files `Fine`. -/
structure Carries (Part : ℕ → σ → Files → Prop) (Fine : Files → Prop) : Prop where
  moved : ∀ done buf contents choice, done < loop.total → Part done buf contents →
    0 < (perform contents (loop.op done) choice).1.code →
    ∃ count : ℕ, (perform contents (loop.op done) choice).1.code = count ∧
      done + count ≤ loop.total ∧
      Part (done + count) (loop.put done (perform contents (loop.op done) choice).1 buf)
        (perform contents (loop.op done) choice).2
  fine : ∀ done buf contents choice, done < loop.total → Part done buf contents →
    Fine (perform contents (loop.op done) choice).2

variable (kernel) in
/-- What a loop leaves with: the whole transfer, or an error; it panics or waits only if a
submission does not complete. -/
def Outcome (Part : ℕ → σ → Files → Prop) (Fine : Files → Prop) : Exit α × Worker → Prop
  | (.ok a, thread) =>
    thread.Ready ∧ ∃ buf, a = loop.finish buf ∧ Part loop.total buf thread.ring.device
  | (.err _, thread) => thread.Ready ∧ Fine thread.ring.device
  | _ => ¬ Completes kernel

variable {loop} {Part : ℕ → σ → Files → Prop} {Fine : Files → Prop}

/-- The state of a loop between two rounds. -/
def Under (loop : TransferLoop σ α) (Part : ℕ → σ → Files → Prop) : ℕ × σ × Worker → Prop
  | (done, buf, thread) => thread.Ready ∧ done ≤ loop.total ∧ Part done buf thread.ring.device

/-- The bytes still to move. -/
def left (loop : TransferLoop σ α) : ℕ × σ × Worker → ℕ
  | (done, _) => loop.total - done

/-- **A round** ends the loop or leaves fewer bytes to move. -/
theorem body_step (hcarries : loop.Carries perform Part Fine) (state : ℕ × σ × Worker)
    (hstate : loop.Under Part state) :
    Step (loop.Under Part) (loop.Outcome kernel Part Fine) loop.left state
      (loop.body perform kernel state) := by
  obtain ⟨done, buf, thread⟩ := state
  obtain ⟨hready, hdone, hpart⟩ := hstate
  rw [body]
  by_cases hless : done < loop.total
  · rw [if_pos hless]
    have hcall := submitOne_fate perform kernel hready (loop.op done)
    cases hfate : fate (kernel thread.calls.length) with
    | returned failure choice =>
      rw [hfate] at hcall
      obtain ⟨thread', hrun, hready', hdevice, -⟩ := hcall
      have hfine : Fine thread'.ring.device :=
        hdevice ▸ hcarries.fine done buf _ choice hless hpart
      rw [hrun]
      cases failure with
      | some e => exact ⟨hready', hfine⟩
      | none =>
        by_cases hnegative : (perform thread.ring.device (loop.op done) choice).1.code < 0
        · rw [verdict, if_pos hnegative]
          exact ⟨hready', hfine⟩
        · rw [verdict, if_neg hnegative]
          dsimp only
          by_cases hzero : (perform thread.ring.device (loop.op done) choice).1.code = 0
          · rw [if_pos hzero]
            exact ⟨hready', hfine⟩
          · rw [if_neg hzero]
            obtain ⟨count, hcount, hfits, hpart'⟩ :=
              hcarries.moved done buf _ choice hless hpart (by omega)
            rw [hcount, Int.toNat_natCast]
            refine ⟨⟨hready', hfits, hdevice ▸ hpart'⟩, ?_⟩
            simp only [left]
            omega
    | panicked | waiting =>
      rw [hfate] at hcall
      obtain ⟨thread', hrun⟩ := hcall
      rw [hrun]
      exact fun hcompletes => by simpa [hfate] using hcompletes thread.calls.length
  · rw [if_neg hless]
    obtain rfl : done = loop.total := by omega
    exact ⟨hready, buf, rfl, hpart⟩

variable (perform kernel loop) in
/-- The loop with a bound on its rounds, as the jobs of the ring thread run it. -/
def bounded : ℕ → ℕ → σ → Task α
  | 0, _, buf => pure (loop.finish buf)
  | fuel + 1, done, buf =>
    if done < loop.total then do
      let answer ← submitOne perform kernel (loop.op done)
      if answer.code = 0 then fail (loop.stuck done)
      else bounded fuel (done + answer.code.toNat) (loop.put done answer buf)
    else pure (loop.finish buf)

theorem bounded_succ (fuel : ℕ) (state : ℕ × σ × Worker) :
    loop.bounded perform kernel (fuel + 1) state.1 state.2.1 state.2.2 =
      (loop.body perform kernel state).elim id fun state =>
        loop.bounded perform kernel fuel state.1 state.2.1 state.2.2 := by
  obtain ⟨done, buf, thread⟩ := state
  rw [bounded, body]
  by_cases hless : done < loop.total
  · rw [if_pos hless, if_pos hless]
    rcases hrun : submitOne perform kernel (loop.op done) thread with ⟨answer | e | _ | _, thread'⟩
    · rw [Task.bind_ok hrun]
      by_cases hzero : answer.code = 0
      · simp only [if_pos hzero]
        rfl
      · simp only [if_neg hzero]
        rfl
    · rw [Task.bind_err hrun]
      rfl
    · rw [Task.bind_panicked hrun]
      rfl
    · rw [Task.bind_waiting hrun]
      rfl
  · rw [if_neg hless, if_neg hless]
    rfl

/-- **A transfer ends.**  The loop leaves after at most as many rounds as there are bytes, and
with that bound it returns what it leaves with. -/
theorem bounded_leaves (hcarries : loop.Carries perform Part Fine) {buf : σ} (hready : thread.Ready)
    (hpart : Part 0 buf thread.ring.device) :
    (∃ n ≤ loop.total, Leaves (loop.body perform kernel) (0, buf, thread) n
      (loop.bounded perform kernel loop.total 0 buf thread)) ∧
    loop.Outcome kernel Part Fine (loop.bounded perform kernel loop.total 0 buf thread) := by
  have hzero : ∀ state : ℕ × σ × Worker, loop.left state = 0 → loop.body perform kernel state =
      .inl (loop.bounded perform kernel 0 state.1 state.2.1 state.2.2) := by
    rintro ⟨done, buf, thread⟩ hleft
    rw [body, if_neg (by simp only [left] at hleft; omega)]
    rfl
  exact leaves_of_variant (body_step hcarries)
    (fun fuel state => loop.bounded perform kernel fuel state.1 state.2.1 state.2.2) hzero
    bounded_succ loop.total (0, buf, thread) ⟨hready, Nat.zero_le _, hpart⟩ (Nat.le_refl _)

end TransferLoop

/-! ## `read_range` -/

/-- The loop of `read_range`. -/
def readRangeLoop (path : String) (start len : ℕ) : TransferLoop (List UInt8) (List UInt8) where
  total := len
  op done := .read path (start + done) (chunk (len - done))
  put done answer buf := fill buf done answer.bytes
  stuck done := .unexpectedEof ("short read: " ++ toString done ++ " of " ++ toString len ++
    " bytes at offset " ++ toString start)
  finish buf := buf

variable (perform kernel) in
theorem readLoop_eq_bounded (path : String) (start len fuel : ℕ) : ∀ (done : ℕ) (buf : List UInt8),
    readLoop perform kernel path start len fuel done buf =
      (readRangeLoop path start len).bounded perform kernel fuel done buf := by
  induction fuel with
  | zero => exact fun _ _ => rfl
  | succ fuel ih =>
    intro done buf
    simp only [readLoop, TransferLoop.bounded, ih]
    rfl

/-- A buffer of which so many bytes are read. -/
def ReadPart (path : String) (content : List UInt8) (start len done : ℕ) (buf : List UInt8)
    (contents : Files) : Prop :=
  contents path = some content ∧ buf.length = len ∧
    buf.take done = (content.drop start).take done ∧ ((content.drop start).take done).length = done

theorem ReadPart.complete {buf : List UInt8} {start len : ℕ} {contents : Files}
    (h : ReadPart path content start len len buf contents) :
    buf = (content.drop start).take len := by
  obtain ⟨-, hlength, htaken, -⟩ := h
  rw [← htaken, take_of_length_le (Nat.le_of_eq hlength)]

theorem carries_readRange (hmoves : Moves perform) (path : String) (content : List UInt8)
    (start len : ℕ) :
    (readRangeLoop path start len).Carries perform (ReadPart path content start len)
      fun _ => True where
  moved done buf contents choice hless hpart hpositive := by
    obtain ⟨hfile, hlength, htaken, hfull⟩ := hpart
    obtain ⟨count, hle, hanswer, hcount, hfile'⟩ := hmoves.read contents path (start + done)
      (chunk (len - done)) choice content hfile hpositive
    have hchunk := chunk_le (len - done)
    have hfits : done + count ≤ len := by
      have : done < len := hless
      omega
    obtain ⟨hlength', htaken'⟩ := fill_take htaken hlength (by rw [hcount]; exact hfits)
    rw [hcount] at htaken'
    refine ⟨count, ?_, hfits, hfile', ?_, ?_, ?_⟩
    · exact congrArg Answer.code hanswer
    · show (fill buf done (perform contents _ choice).1.bytes).length = len
      rw [show (readRangeLoop path start len).op done =
        .read path (start + done) (chunk (len - done)) from rfl, hanswer]
      exact hlength'
    · show (fill buf done (perform contents _ choice).1.bytes).take (done + count) = _
      rw [show (readRangeLoop path start len).op done =
        .read path (start + done) (chunk (len - done)) from rfl, hanswer]
      exact htaken'
    · rw [take_add, length_append, hfull, drop_drop, hcount]
  fine _ _ _ _ _ _ := trivial

variable (perform kernel) in
/-- What `read_range` should do: return the bytes of the range, all of them, or fail; and panic
or wait only if a submission does not complete. -/
def ReadsExactly (path : String) (start stop : ℕ) (faults : Faults) (thread : Worker) : Prop :=
  match readRange perform kernel path start stop faults thread with
  | (.ok bytes, _) => ∃ content, thread.ring.device path = some content ∧
      bytes = slice content start stop ∧ bytes.length = stop - start
  | (.err _, _) => True
  | _ => ¬ Completes kernel

variable (perform kernel) in
/-- The loop of `read_range` ends, after at most as many rounds as there are bytes, with what
`readLoop` returns. -/
def ReadEnds (path : String) (start stop : ℕ) (thread : Worker) : Prop :=
  ∃ n ≤ stop - start, Leaves ((readRangeLoop path start (stop - start)).body perform kernel)
    (0, replicate (stop - start) 0, thread) n
    (readLoop perform kernel path start (stop - start) (stop - start) 0
      (replicate (stop - start) 0) thread)

/-- A file that cannot be opened for reading. -/
def Unopened (path : String) (faults : Faults) (thread : Worker) : Prop :=
  faults.openFile.isSome ∨ thread.ring.device path = none

theorem openRead_err (h : Unopened path faults thread) :
    ∃ e, openRead path faults thread = (.err e, thread) := by
  obtain ⟨createDir, openFile⟩ := faults
  cases openFile with
  | some e => exact ⟨e, rfl⟩
  | none =>
    have hnone : thread.ring.device path = none := h.resolve_left (by simp)
    refine ⟨.os 2, ?_⟩
    rw [openRead_apply, hnone]
    rfl

theorem openRead_opened (h : ¬ Unopened path faults thread) :
    (∃ content, thread.ring.device path = some content) ∧
      openRead path faults thread = (.ok (), thread) := by
  obtain ⟨hfault, hfile⟩ := not_or.mp h
  obtain ⟨content, hcontent⟩ := Option.ne_none_iff_exists'.mp hfile
  refine ⟨⟨content, hcontent⟩, ?_⟩
  rw [openRead, Option.not_isSome_iff_eq_none.mp hfault]
  exact openRead_ok hcontent

section Read

variable {thread : Worker} {path : String}

variable (kernel) in
theorem readLoop_outcome (hmoves : Moves perform) (hready : thread.Ready)
    (hfile : thread.ring.device path = some content) (start len : ℕ) :
    (∃ n ≤ len, Leaves ((readRangeLoop path start len).body perform kernel)
      (0, replicate len 0, thread) n
      (readLoop perform kernel path start len len 0 (replicate len 0) thread)) ∧
    (readRangeLoop path start len).Outcome kernel (ReadPart path content start len) (fun _ => True)
      (readLoop perform kernel path start len len 0 (replicate len 0) thread) := by
  rw [readLoop_eq_bounded]
  exact TransferLoop.bounded_leaves (carries_readRange hmoves path content start len) hready
    ⟨hfile, length_replicate .., rfl, rfl⟩

theorem readEnds (hmoves : Moves perform) (hready : thread.Ready)
    (hfile : thread.ring.device path = some content) (start stop : ℕ) :
    ReadEnds perform kernel path start stop thread :=
  (readLoop_outcome kernel hmoves hready hfile start (stop - start)).1

theorem readsExactly_of_lt (hmoves : Moves perform) (hready : thread.Ready) {start stop : ℕ}
    (hlen : stop - start < 2 ^ 63) (faults : Faults) :
    ReadsExactly perform kernel path start stop faults thread := by
  unfold ReadsExactly
  by_cases hopen : Unopened path faults thread
  · obtain ⟨e, herr⟩ := openRead_err hopen
    rw [readRange, Task.bind_err herr]
    trivial
  obtain ⟨⟨content, hfile⟩, hok⟩ := openRead_opened hopen
  have hrun : readRange perform kernel path start stop faults thread =
      readLoop perform kernel path start (stop - start) (stop - start) 0
        (replicate (stop - start) 0) thread := by
    rw [readRange, Task.bind_ok hok]
    simp only [if_neg (Nat.not_le.mpr hlen)]
  have houtcome := (readLoop_outcome kernel hmoves hready hfile start (stop - start)).2
  rw [hrun]
  revert houtcome
  generalize readLoop perform kernel path start (stop - start) (stop - start) 0
    (replicate (stop - start) 0) thread = result
  obtain ⟨bytes | e | _ | _, thread'⟩ := result
  · rintro ⟨-, buf, hbuf, hpart⟩
    obtain rfl : bytes = buf := hbuf
    exact ⟨content, hfile, hpart.complete, hpart.2.1⟩
  · exact fun _ => trivial
  · exact id
  · exact id

/-- `read_range` of a range that no buffer can hold panics, whatever the kernel does. -/
theorem readRange_panics {start stop : ℕ} (hlen : 2 ^ 63 ≤ stop - start)
    (hopen : ¬ Unopened path faults thread) :
    readRange perform kernel path start stop faults thread = (.panicked, thread) := by
  obtain ⟨-, hok⟩ := openRead_opened hopen
  rw [readRange, Task.bind_ok hok]
  simp only [if_pos hlen]
  rfl

end Read

/-! ## `write_all` -/

/-- The loop of `write_all`. -/
def writeAllLoop (path : String) (data : List UInt8) : TransferLoop Unit Unit where
  total := data.length
  op done := .write path done ((data.drop done).take (chunk (data.length - done)))
  put _ _ _ := ()
  stuck _ := .writeZero "io_uring wrote zero bytes"
  finish _ := ()

variable (perform kernel) in
theorem writeLoop_eq_bounded (path : String) (data : List UInt8) (fuel : ℕ) : ∀ done : ℕ,
    writeLoop perform kernel path data fuel done =
      (writeAllLoop path data).bounded perform kernel fuel done () := by
  induction fuel with
  | zero => exact fun _ => rfl
  | succ fuel ih =>
    intro done
    simp only [writeLoop, TransferLoop.bounded, ih]
    rfl

/-- A file that holds so many bytes of a payload. -/
def WritePart (path : String) (data : List UInt8) (done : ℕ) (_ : Unit) (contents : Files) : Prop :=
  contents path = some (data.take done)

theorem carries_writeAll (hmoves : Moves perform) (path : String) (data : List UInt8) :
    (writeAllLoop path data).Carries perform (WritePart path data) fun _ => True where
  moved done buf contents choice hless hpart hpositive := by
    have hdone : done < data.length := hless
    have hchunk := chunk_le (data.length - done)
    obtain ⟨count, hle, hcode, hfile⟩ := hmoves.write contents path done
      ((data.drop done).take (chunk (data.length - done))) choice (data.take done) hpart hpositive
    have hcount : count ≤ chunk (data.length - done) :=
      Nat.le_trans hle (length_take_le ..)
    rw [fill_payload (Nat.le_of_lt hdone), Nat.min_eq_left hcount] at hfile
    exact ⟨count, hcode, show done + count ≤ data.length by omega, hfile⟩
  fine _ _ _ _ _ _ := trivial

variable (perform kernel) in
/-- What `write_all` should do: leave the payload in the file, or fail; and panic or wait only
if a submission does not complete. -/
def WritesExactly (path : String) (data : List UInt8) (faults : Faults) (thread : Worker) : Prop :=
  match writeAll perform kernel path data faults thread with
  | (.ok (), thread') => thread'.ring.device path = some data
  | (.err _, _) => True
  | _ => ¬ Completes kernel

variable (perform kernel) in
/-- The loop of `write_all` on the truncated file ends, after at most as many rounds as there
are bytes, with what `writeLoop` returns. -/
def WriteEnds (path : String) (data : List UInt8) (thread : Worker) : Prop :=
  ∃ n ≤ data.length, Leaves ((writeAllLoop path data).body perform kernel)
    (0, (), thread.truncated path) n
    (writeLoop perform kernel path data data.length 0 (thread.truncated path))

section Write

variable {thread : Worker}

variable (kernel) in
theorem writeLoop_outcome (hmoves : Moves perform) (hready : thread.Ready) (path : String)
    (data : List UInt8) :
    WriteEnds perform kernel path data thread ∧
    (writeAllLoop path data).Outcome kernel (WritePart path data) (fun _ => True)
      (writeLoop perform kernel path data data.length 0 (thread.truncated path)) := by
  rw [WriteEnds, writeLoop_eq_bounded]
  exact TransferLoop.bounded_leaves (carries_writeAll hmoves path data) (hready.truncated path)
    (thread.truncated_file path)

theorem writesExactly (hmoves : Moves perform) (hready : thread.Ready) (path : String)
    (data : List UInt8) (faults : Faults) :
    WritesExactly perform kernel path data faults thread := by
  unfold WritesExactly
  by_cases hfault : faults.createDir.isSome ∨ faults.openFile.isSome
  · obtain ⟨e, herr⟩ := openWrite_err thread path hfault
    rw [writeAll, Task.bind_err herr]
    trivial
  rw [writeAll, Task.bind_ok (openWrite_ok hfault)]
  have houtcome := (writeLoop_outcome kernel hmoves hready path data).2
  revert houtcome
  generalize writeLoop perform kernel path data data.length 0 (thread.truncated path) = result
  obtain ⟨written | e | _ | _, thread'⟩ := result
  · rintro ⟨-, buf, -, hpart⟩
    show thread'.ring.device path = some data
    have hfile : thread'.ring.device path = some (data.take data.length) := hpart
    rw [hfile, take_length]
  · exact fun _ => trivial
  · exact id
  · exact id

end Write

/-! ## Both loops -/

/-- **The transfer loops move exactly the bytes.**  For every kernel, every file, range and
payload: `write_all` returns `Ok` only with the payload in the file, both loops end, and
`read_range` returns `Ok` only with the bytes of the range; each fails otherwise, as long as
the submissions complete.  The exception is a range of `2 ^ 63` bytes or more, for which the
buffer of `read_range` cannot be made. -/
theorem transfers_exact_iff [Inhabited C] (hmoves : Moves perform) {thread : Worker}
    (hready : thread.Ready) (path : String) (start stop : ℕ) (data : List UInt8) (faults : Faults) :
    (∀ kernel : ℕ → List (Round C),
      ReadsExactly perform kernel path start stop faults thread ∧
      (¬ Unopened path faults thread → ReadEnds perform kernel path start stop thread) ∧
      WritesExactly perform kernel path data faults thread ∧
      WriteEnds perform kernel path data thread) ↔
    stop - start < 2 ^ 63 ∨ Unopened path faults thread := by
  constructor
  · intro h
    by_contra hneither
    obtain ⟨hlen, hopen⟩ := not_or.mp hneither
    -- a kernel that completes every submission at once
    have hreads := (h fun _ => [⟨1, [(0, default)], .ok⟩]).1
    rw [ReadsExactly, readRange_panics (Nat.not_lt.mp hlen) hopen] at hreads
    exact hreads fun _ => ⟨none, default, rfl⟩
  · intro h kernel
    refine ⟨?_, ?_, writesExactly hmoves hready path data faults,
      (writeLoop_outcome kernel hmoves hready path data).1⟩
    · rcases h with hlen | hopen
      · exact readsExactly_of_lt hmoves hready hlen faults
      · obtain ⟨e, herr⟩ := openRead_err hopen
        rw [ReadsExactly, readRange, Task.bind_err herr]
        trivial
    · intro hopen
      obtain ⟨⟨content, hfile⟩, -⟩ := openRead_opened hopen
      exact readEnds hmoves hready hfile start stop

theorem moves_transfer : Moves transfer where
  read contents path offset len choice content hfile hpositive := by
    cases choice with
    | fail errno =>
      simp only [transfer] at hpositive
      omega
    | move count =>
      have hlength := length_take (l := content.drop offset) (i := min (count + 1) len)
      refine ⟨((content.drop offset).take (min (count + 1) len)).length, by omega, ?_, ?_, hfile⟩
      · simp only [transfer, hfile, Option.getD_some]
        rw [Answer.mk.injEq, take_eq_take_iff, hlength]
        exact ⟨rfl, by omega⟩
      · simp
  write contents path offset data choice content hfile hpositive := by
    cases choice with
    | fail errno =>
      simp only [transfer] at hpositive
      omega
    | move count =>
      refine ⟨(data.take count).length, length_take_le' .., rfl, ?_⟩
      simp only [transfer, Function.update_self, hfile, Option.getD_some]
      rw [length_take, ← take_take, take_length]

instance : Inhabited Transfer := ⟨.move 0⟩

theorem transfers_exact_iff_tenBytes :
    Moves transfer ∧ tenBytes.thread.Ready ∧
    ReadsExactly transfer fourBytes "a" 2 9 {} tenBytes.thread ∧
    WritesExactly transfer fourBytes "a" (replicate 6 1) {} tenBytes.thread := by
  have hready : tenBytes.thread.Ready := ready_tenBytes.thread
  have hall := (transfers_exact_iff moves_transfer hready "a" 2 9 (replicate 6 1) {}).mpr
    (.inl (by decide)) fourBytes
  exact ⟨moves_transfer, hready, hall.1, hall.2.2.1⟩

/-- Ten bytes are there and every submission completes, but the read of `0..2^63` does not
return. -/
theorem read_panics : Completes fourBytes ∧
    (readRange transfer fourBytes "a" 0 (2 ^ 63) {} tenBytes.thread).1 = .panicked := by
  refine ⟨fun _ => ⟨none, .move 3, rfl⟩, ?_⟩
  rw [readRange_panics (by decide)]
  rintro (hfault | hfile)
  · cases hfault
  · cases hfile

end Uring

end OxideLake

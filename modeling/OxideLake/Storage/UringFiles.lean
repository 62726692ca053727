import OxideLake.Storage.UringRing

/-!
# Reading and writing through the ring

With a kernel that performs reads and writes on files, the loops of `read_range` and
`write_all` are followed submission by submission.  A read takes what the file has and fails
at its end; a write appends to the truncated file what the kernel takes of the payload, so a
write that fails leaves the bytes taken by then.
-/

namespace OxideLake

namespace Uring

open List CompletionRing Function

variable {content data : List UInt8} {path : String} {done : ℕ} {α β : Type} {next : α → Task β}
  {store : Store} {task : Task α} {thread' : Worker}

/-- What the kernel does with an operation: it fails, or it moves some bytes. -/
inductive Transfer where
  | fail (errno : ℕ)
  | move (count : ℕ)

/-- Reads and writes of files.  A read moves at least one byte unless the file has none there;
a write may move none. -/
def transfer (contents : Files) : Op → Transfer → Answer × Files
  | _, .fail errno => (⟨-(errno + 1 : ℤ), []⟩, contents)
  | .read path offset len, .move count =>
    let bytes := (((contents path).getD []).drop offset).take (min (count + 1) len)
    (⟨bytes.length, bytes⟩, contents)
  | .write path offset data, .move count =>
    let bytes := data.take count
    (⟨bytes.length, []⟩, update contents path
      (some (fill ((contents path).getD []) offset bytes)))

/-- Nothing is on the ring, and there is room. -/
structure Worker.Ready (thread : Worker) : Prop where
  idle : thread.ring.Idle
  capacity : 0 < thread.ring.capacity

/-- The bytes of a file from `start` up to `stop`. -/
def slice (content : List UInt8) (start stop : ℕ) : List UInt8 :=
  (content.drop start).take (stop - start)

theorem chunk_le (left : ℕ) : chunk left ≤ left := by
  unfold chunk
  split
  · exact Nat.le_refl _
  · omega

theorem chunk_pos {left : ℕ} (h : 0 < left) : 0 < chunk left := by
  unfold chunk
  split
  · exact h
  · decide

variable {kernel : ℕ → List (Round Transfer)} {thread : Worker}

theorem Task.bind_ok {a : α} (h : task thread = (.ok a, thread')) :
    (task >>= next) thread = next a thread' := by
  rw [Task.bind_apply, h]

theorem Task.bind_err {e : IoError} (h : task thread = (.err e, thread')) :
    (task >>= next) thread = (.err e, thread') := by
  rw [Task.bind_apply, h]

theorem Task.bind_panicked (h : task thread = (.panicked, thread')) :
    (task >>= next) thread = (.panicked, thread') := by
  rw [Task.bind_apply, h]

theorem Task.bind_waiting (h : task thread = (.waiting, thread')) :
    (task >>= next) thread = (.waiting, thread') := by
  rw [Task.bind_apply, h]

/-- **A call on a ready thread**, by what the kernel's rounds come to. -/
theorem submitOne_fate {C : Type} (perform : Files → Op → C → Answer × Files)
    (kernel : ℕ → List (Round C)) (hready : thread.Ready) (op : Op) :
    match fate (kernel thread.calls.length) with
    | .returned failure choice =>
      ∃ thread', submitOne perform kernel op thread =
          (verdict failure (perform thread.ring.device op choice).1, thread') ∧
        thread'.Ready ∧ thread'.ring.device = (perform thread.ring.device op choice).2 ∧
        thread'.calls.length = thread.calls.length + 1
    | .panicked => ∃ thread', submitOne perform kernel op thread = (.panicked, thread')
    | .waiting => ∃ thread', submitOne perform kernel op thread = (.waiting, thread') := by
  obtain ⟨⟨exit, ring, reaped⟩, hrun, hcapacity, hends⟩ :=
    submitOne_ends perform kernel hready.idle hready.capacity op
  unfold Ends at hends
  cases hfate : fate (kernel thread.calls.length) with
  | returned failure choice =>
    rw [hfate] at hends
    obtain ⟨hexit, hidle, -, hdevice, -⟩ := hends
    refine ⟨_, hrun.trans (Prod.ext hexit rfl), ⟨hidle, ?_⟩, hdevice, ?_⟩
    · rw [hcapacity]
      exact hready.capacity
    · simp
  | panicked | waiting =>
    rw [hfate] at hends
    exact ⟨_, hrun.trans (Prod.ext hends.1 rfl)⟩

/-! ## Reads -/

/-- A kernel without faults: every submission is completed, with some bytes moved, and no wait
fails. -/
def Healthy (kernel : ℕ → List (Round Transfer)) : Prop :=
  ∀ n, ∃ count, fate (kernel n) = .returned none (.move count)

theorem submitOne_read (hhealthy : Healthy kernel) (hready : thread.Ready)
    (hfile : thread.ring.device path = some content) (offset len : ℕ) :
    ∃ count thread', submitOne transfer kernel (.read path offset len) thread =
        (.ok ⟨((content.drop offset).take (min (count + 1) len)).length,
          (content.drop offset).take (min (count + 1) len)⟩, thread') ∧
      thread'.Ready ∧ thread'.ring.device = thread.ring.device := by
  obtain ⟨count, hfate⟩ := hhealthy thread.calls.length
  have hcall := submitOne_fate transfer kernel hready (.read path offset len)
  rw [hfate] at hcall
  obtain ⟨thread', hrun, hready', hdevice, -⟩ := hcall
  refine ⟨count, thread', ?_, hready', hdevice⟩
  rw [hrun]
  simp only [transfer, hfile, Option.getD_some, verdict]
  rw [if_neg (Int.not_lt.mpr (Int.natCast_nonneg _))]

theorem fill_take {buf : List UInt8} {start len count : ℕ}
    (htaken : buf.take done = (content.drop start).take done) (hlength : buf.length = len)
    (hfits : done + ((content.drop (start + done)).take count).length ≤ len) :
    (fill buf done ((content.drop (start + done)).take count)).length = len ∧
    (fill buf done ((content.drop (start + done)).take count)).take
        (done + ((content.drop (start + done)).take count).length) =
      (content.drop start).take (done + ((content.drop (start + done)).take count).length) := by
  generalize hbytes : (content.drop (start + done)).take count = bytes at *
  have hbuf : (buf.take done).length = done := by
    rw [length_take]
    omega
  constructor
  · rw [fill, length_append, length_append, hbuf, length_drop, hlength]
    omega
  · have hbytes' : ((content.drop start).drop done).take bytes.length = bytes := by
      rw [drop_drop, ← hbytes, length_take, take_eq_take_iff, length_drop]
      omega
    have hread : (content.drop start).take (done + bytes.length) = buf.take done ++ bytes := by
      rw [take_add, hbytes', htaken]
    rw [fill, hread, take_left' (by rw [length_append, hbuf])]

/-- **The loop of `read_range`** returns the bytes asked for if the file has them, and fails
otherwise. -/
theorem readLoop_healthy (hhealthy : Healthy kernel) (start : ℕ) {len : ℕ} (hlen : 0 < len)
    (fuel : ℕ) :
    ∀ (done : ℕ) (buf : List UInt8) (thread : Worker), thread.Ready →
      thread.ring.device path = some content → len - done ≤ fuel → done ≤ len →
      (done = 0 ∨ start + done ≤ content.length) →
      buf.take done = (content.drop start).take done → buf.length = len →
      ∃ thread', thread'.Ready ∧ thread'.ring.device = thread.ring.device ∧
        if start + len ≤ content.length then
          readLoop transfer kernel path start len fuel done buf thread =
            (.ok ((content.drop start).take len), thread')
        else ∃ e, readLoop transfer kernel path start len fuel done buf thread =
            (.err e, thread') := by
  have hend : ∀ (done : ℕ) (buf : List UInt8), len ≤ done → done ≤ len →
      (done = 0 ∨ start + done ≤ content.length) →
      buf.take done = (content.drop start).take done → buf.length = len →
      start + len ≤ content.length ∧ buf = (content.drop start).take len := by
    intro done buf hge hle hread htaken hlength
    obtain rfl : done = len := by omega
    refine ⟨hread.resolve_left (by omega), ?_⟩
    rw [← htaken, ← hlength, take_length]
  induction fuel with
  | zero =>
    intro done buf thread hready _ hfuel hle hread htaken hlength
    obtain ⟨hfits, rfl⟩ := hend done buf (by omega) hle hread htaken hlength
    exact ⟨thread, hready, rfl, by rw [if_pos hfits]; rfl⟩
  | succ fuel ih =>
    intro done buf thread hready hfile hfuel hle hread htaken hlength
    rw [readLoop]
    by_cases hless : done < len
    · simp only [if_pos hless]
      obtain ⟨count, thread', hrun, hready', hdevice⟩ :=
        submitOne_read hhealthy hready hfile (start + done) (chunk (len - done))
      have hchunk := chunk_le (len - done)
      have hpositive := chunk_pos (show 0 < len - done by omega)
      have hlength' : ((content.drop (start + done)).take
          (min (count + 1) (chunk (len - done)))).length =
          min (min (count + 1) (chunk (len - done))) (content.length - (start + done)) := by
        rw [length_take, length_drop]
      rw [Task.bind_ok hrun]
      simp only [Int.natCast_eq_zero, Int.toNat_natCast]
      by_cases hnone : ((content.drop (start + done)).take
          (min (count + 1) (chunk (len - done)))).length = 0
      · -- the end of the file
        rw [if_pos hnone]
        refine ⟨thread', hready', hdevice, ?_⟩
        rw [if_neg (by omega)]
        exact ⟨_, rfl⟩
      · rw [if_neg hnone]
        have hfill := fill_take htaken hlength
          (show done + ((content.drop (start + done)).take
            (min (count + 1) (chunk (len - done)))).length ≤ len by omega)
        rw [← hdevice] at hfile ⊢
        exact ih _ _ thread' hready' hfile (by omega) (by omega) (.inr (by omega)) hfill.2 hfill.1
    · simp only [if_neg hless]
      obtain ⟨hfits, rfl⟩ := hend done buf (by omega) hle hread htaken hlength
      exact ⟨thread, hready, rfl, by rw [if_pos hfits]; rfl⟩

/-- A range that the store can read: an empty one, or one within the file and no longer than a
buffer can be. -/
def Readable (content : List UInt8) (start stop : ℕ) : Prop :=
  stop ≤ start ∨ stop ≤ content.length ∧ stop - start < 2 ^ 63

instance (content : List UInt8) (start stop : ℕ) : Decidable (Readable content start stop) :=
  inferInstanceAs (Decidable (_ ∨ _ ∧ _))

theorem openRead_apply (createDir : Option IoError) (path : String) (thread : Worker) :
    openRead path ⟨createDir, none⟩ thread = (match thread.ring.device path with
      | none => fail (.os 2)
      | some _ => pure () : Task Unit) thread := rfl

theorem openRead_ok (hfile : thread.ring.device path = some content) :
    openRead path {} thread = (.ok (), thread) := by
  rw [openRead_apply, hfile]
  rfl

/-- A range inside the file is read; any other fails. -/
theorem readRange_healthy (hhealthy : Healthy kernel) (hready : thread.Ready)
    (hfile : thread.ring.device path = some content) (start stop : ℕ) :
    if Readable content start stop then
      ∃ thread', readRange transfer kernel path start stop {} thread =
          (.ok (slice content start stop), thread') ∧ thread'.Ready ∧
        thread'.ring.device = thread.ring.device
    else ∃ thread', (∃ e, readRange transfer kernel path start stop {} thread = (.err e, thread')) ∨
      readRange transfer kernel path start stop {} thread = (.panicked, thread') := by
  have hopen : readRange transfer kernel path start stop {} thread =
      (if 2 ^ 63 ≤ stop - start then unwind else
        readLoop transfer kernel path start (stop - start) (stop - start) 0
          (replicate (stop - start) 0) : Task (List UInt8)) thread :=
    Task.bind_ok (openRead_ok hfile)
  rw [hopen]
  by_cases hempty : stop ≤ start
  · have hzero : stop - start = 0 := by omega
    rw [if_pos (.inl hempty), if_neg (by omega), slice, hzero]
    exact ⟨thread, rfl, hready, rfl⟩
  by_cases hlarge : 2 ^ 63 ≤ stop - start
  · rw [if_pos hlarge, if_neg (by unfold Readable; omega)]
    exact ⟨thread, .inr rfl⟩
  rw [if_neg hlarge]
  obtain ⟨thread', hready', hdevice, hrun⟩ := readLoop_healthy hhealthy start
    (show 0 < stop - start by omega) (stop - start) 0 (replicate (stop - start) 0) thread
    hready hfile (by omega) (Nat.zero_le _) (.inl rfl) rfl (length_replicate ..)
  by_cases hfits : stop ≤ content.length
  · rw [if_pos (.inr ⟨hfits, by omega⟩)]
    rw [if_pos (by omega)] at hrun
    exact ⟨thread', hrun, hready', hdevice⟩
  · rw [if_neg (by unfold Readable; omega)]
    rw [if_neg (by omega)] at hrun
    exact ⟨thread', .inl hrun⟩

/-- The store is running and its ring is idle. -/
structure Store.Ready (store : Store) : Prop where
  alive : store.alive = true
  thread : store.thread.Ready

/-- **A ranged read** returns the bytes of a range the store can read, and fails for any
other. -/
theorem read_healthy (hhealthy : Healthy kernel) (hready : store.Ready)
    (hfile : store.thread.ring.device path = some content) (start stop : ℕ) :
    if Readable content start stop then
      ∃ store', store.read transfer kernel path start stop =
          (.ok (slice content start stop), store') ∧ store'.Ready ∧
        store'.thread.ring.device = store.thread.ring.device
    else ∃ e store', store.read transfer kernel path start stop = (.err e, store') := by
  have hserve := readRange_healthy hhealthy hready.thread hfile start stop
  unfold Store.read Store.send
  rw [if_pos hready.alive]
  by_cases hreadable : Readable content start stop
  · rw [if_pos hreadable] at hserve ⊢
    obtain ⟨thread', hrun, hready', hdevice⟩ := hserve
    have hjob : serve transfer kernel (.read path start stop) store.thread =
        (.ok (.bytes (slice content start stop)), thread') := Task.bind_ok hrun
    rw [hjob]
    exact ⟨⟨thread', true⟩, rfl, ⟨rfl, hready'⟩, hdevice⟩
  · rw [if_neg hreadable] at hserve ⊢
    obtain ⟨thread', ⟨e, hrun⟩ | hrun⟩ := hserve
    · have hjob : serve transfer kernel (.read path start stop) store.thread =
          (.err e, thread') := Task.bind_err hrun
      rw [hjob]
      exact ⟨_, _, rfl⟩
    · have hjob : serve transfer kernel (.read path start stop) store.thread =
          (.panicked, thread') := Task.bind_panicked hrun
      rw [hjob]
      exact ⟨_, _, rfl⟩

/-- Ranges are read in full or the call fails. -/
theorem getRanges_healthy (hhealthy : Healthy kernel) (ranges : List (ℕ × ℕ)) :
    ∀ store : Store, store.Ready → store.thread.ring.device path = some content →
      if ∀ range ∈ ranges, Readable content range.1 range.2 then
        ∃ store', store.getRanges transfer kernel path ranges =
          (.ok (ranges.map fun range => slice content range.1 range.2), store')
      else ∃ e store', store.getRanges transfer kernel path ranges = (.err e, store') := by
  induction ranges with
  | nil => exact fun store _ _ => by rw [if_pos nofun]; exact ⟨store, rfl⟩
  | cons range ranges ih =>
    intro store hready hfile
    obtain ⟨start, stop⟩ := range
    have hread := read_healthy hhealthy hready hfile start stop
    rw [Store.getRanges]
    by_cases hfirst : Readable content start stop
    · rw [if_pos hfirst] at hread
      obtain ⟨store', hread, hready', hdevice⟩ := hread
      have hrest := ih store' hready' (hdevice ▸ hfile)
      rw [hread]
      simp only [forall_mem_cons, hfirst, true_and]
      by_cases hall : ∀ range ∈ ranges, Readable content range.1 range.2
      · rw [if_pos hall] at hrest ⊢
        obtain ⟨store'', hrest⟩ := hrest
        rw [hrest]
        exact ⟨store'', rfl⟩
      · rw [if_neg hall] at hrest ⊢
        obtain ⟨e, store'', hrest⟩ := hrest
        rw [hrest]
        exact ⟨e, store'', rfl⟩
    · rw [if_neg hfirst] at hread
      obtain ⟨e, store', hread⟩ := hread
      rw [hread, if_neg fun hall => hfirst (hall _ mem_cons_self)]
      exact ⟨e, store', rfl⟩

/-- `get_ranges` of the store that is replaced, on the bytes of an object. -/
abbrev LocalRanges := List UInt8 → List (ℕ × ℕ) → Option (List (List UInt8))

/-- The store returns every range in full: a range that is not empty and ends past the end of the
object is an error. -/
def ReadsInFull (replaced : LocalRanges) : Prop :=
  ∀ content ranges, replaced content ranges =
    if ∀ range ∈ ranges, range.2 ≤ range.1 ∨ range.2 ≤ content.length then
      some (ranges.map fun range => slice content range.1 range.2)
    else none

/-- The store cuts a range at the end of the object: a range that starts there or later is an
error. -/
def CutsAtEnd (replaced : LocalRanges) : Prop :=
  ∀ content range, replaced content [range] =
    if range.1 < content.length then some [slice content range.1 (min range.2 content.length)]
    else none

/-- The same bytes, or a failure of both. -/
def Agrees (returned : Returned (List (List UInt8))) (expected : Option (List (List UInt8))) :
    Prop :=
  match returned, expected with
  | .ok out, some out' => out = out'
  | .err _, none => True
  | _, _ => False

/-- **Ranged reads agree with the store they replace**, for every object and every list of ranges,
if that store returns ranges in full. -/
theorem getRanges_agrees (hhealthy : Healthy kernel) {store : Store} (hready : store.Ready)
    {path : String} {content : List UInt8} (hfile : store.thread.ring.device path = some content)
    (hsize : content.length < 2 ^ 63) {replaced : LocalRanges} (hfull : ReadsInFull replaced)
    (ranges : List (ℕ × ℕ)) :
    Agrees (store.getRanges transfer kernel path ranges).1 (replaced content ranges) := by
  have huring := getRanges_healthy hhealthy ranges store hready hfile
  -- an object is shorter than the longest buffer, so every range inside it can be read
  have hreadable : ∀ range : ℕ × ℕ, (range.2 ≤ range.1 ∨ range.2 ≤ content.length) ↔
      Readable content range.1 range.2 := by
    intro range
    unfold Readable
    omega
  simp only [hfull content ranges, hreadable]
  split at huring
  · next hall =>
    obtain ⟨store', huring⟩ := huring
    rw [huring, if_pos hall]
    rfl
  · next hnot =>
    obtain ⟨e, store', huring⟩ := huring
    rw [huring, if_neg hnot]
    trivial

/-- A kernel that moves four bytes with every submission. -/
def fourBytes (_ : ℕ) : List (Round Transfer) := [⟨1, [(0, .move 3)], .ok⟩]

theorem healthy_fourBytes : Healthy fourBytes := fun _ => ⟨3, rfl⟩

/-- A store with one object of ten bytes. -/
def tenBytes : Store := ⟨.new 2 fun _ => some (replicate 10 7), true⟩

theorem ready_tenBytes : tenBytes.Ready := ⟨rfl, ⟨rfl, rfl, rfl⟩, by decide⟩

/-- With a store that cuts its ranges there is no agreement: a range that ends past the end of the
object is an error here, and an empty one at the end is none. -/
theorem ranges_disagree : (∃ replaced, CutsAtEnd replaced) ∧ ∀ replaced, CutsAtEnd replaced →
    ¬ Agrees (tenBytes.getRanges transfer fourBytes "f" [(8, 12)]).1
        (replaced (replicate 10 7) [(8, 12)]) ∧
      ¬ Agrees (tenBytes.getRanges transfer fourBytes "f" [(10, 10)]).1
        (replaced (replicate 10 7) [(10, 10)]) := by
  refine ⟨⟨fun content ranges => ranges.head?.bind fun range =>
    if range.1 < content.length then some [slice content range.1 (min range.2 content.length)]
    else none, fun _ _ => rfl⟩, fun replaced hcuts => ?_⟩
  have hfile : tenBytes.thread.ring.device "f" = some (replicate 10 7) := rfl
  have hpast := getRanges_healthy healthy_fourBytes [(8, 12)] tenBytes ready_tenBytes hfile
  have hempty := getRanges_healthy healthy_fourBytes [(10, 10)] tenBytes ready_tenBytes hfile
  rw [if_neg (by decide)] at hpast
  rw [if_pos (by decide)] at hempty
  obtain ⟨e, store, hpast⟩ := hpast
  obtain ⟨store', hempty⟩ := hempty
  constructor
  · rw [hpast, hcuts, if_pos (by decide)]
    exact id
  · rw [hempty, hcuts, if_neg (by decide)]
    exact id

/-- The theorem at two ranges inside the object and one past its end. -/
theorem getRanges_agrees_tenBytes : ∃ replaced, ReadsInFull replaced ∧
    Agrees (tenBytes.getRanges transfer fourBytes "f" [(0, 10), (3, 5), (8, 12)]).1
      (replaced (replicate 10 7) [(0, 10), (3, 5), (8, 12)]) := by
  have hfile : tenBytes.thread.ring.device "f" = some (replicate 10 7) := rfl
  have hall : ∃ replaced, ReadsInFull replaced := ⟨_, fun _ _ => rfl⟩
  refine hall.imp fun replaced hfull => ⟨hfull, ?_⟩
  have hagrees := getRanges_agrees healthy_fourBytes ready_tenBytes hfile (by simp) hfull
  exact hagrees _

/-! ## Writes -/

/-- What a job's writes come to: the payload is written, a write fails with so many bytes of it
in the file, the thread panics, or the job does not come to its end. -/
inductive Written where
  | complete
  | failed (count : ℕ)
  | panicked
  | never

/-- What the kernel's rounds from a submission on make of the writes of a payload of `total`
bytes. -/
def writes (kernel : ℕ → List (Round Transfer)) (total : ℕ) : ℕ → ℕ → ℕ → Written
  | 0, _, _ => .complete
  | fuel + 1, n, done =>
    if done < total then
      match fate (kernel n) with
      | .returned failure (.move count) =>
        let moved := min count (chunk (total - done))
        -- a wait that failed is reported although the bytes are written
        if failure.isSome ∨ moved = 0 then .failed (done + moved)
        else writes kernel total fuel (n + 1) (done + moved)
      | .returned _ (.fail _) => .failed done
      | .panicked => .panicked
      | .waiting => .never
    else .complete

theorem fill_payload {count size : ℕ} (hdone : done ≤ data.length) :
    fill (data.take done) done (((data.drop done).take size).take count) =
      data.take (done + min count size) := by
  have hlength : (data.take done).length = done := by
    rw [length_take]
    omega
  have hdrop : ∀ more, (data.take done).drop (done + more) = [] := fun more =>
    drop_eq_nil_of_le (by omega)
  rw [fill, hdrop, append_nil, take_take, take_take, Nat.min_self, ← take_add]

theorem payload_length {count size : ℕ} (hsize : size ≤ data.length - done) :
    (((data.drop done).take size).take count).length = min count size := by
  rw [length_take, length_take, length_drop]
  omega

variable (kernel) in
/-- The submission of the next bytes of a payload, by what the kernel's rounds come to. -/
theorem submitOne_write {thread : Worker} (hready : thread.Ready)
    (hfile : thread.ring.device path = some (data.take done)) (hdone : done ≤ data.length) :
    let run := submitOne transfer kernel
      (.write path done ((data.drop done).take (chunk (data.length - done)))) thread
    match fate (kernel thread.calls.length) with
    | .returned failure (.move count) =>
      let moved := min count (chunk (data.length - done))
      ∃ thread', thread'.Ready ∧ thread'.calls.length = thread.calls.length + 1 ∧
        thread'.ring.device path = some (data.take (done + moved)) ∧
        (failure.isSome → ∃ e, run = (.err e, thread')) ∧
        (failure.isNone → ∃ answer, run = (.ok answer, thread') ∧ answer.code = moved)
    | .returned _ (.fail _) => ∃ e thread', run = (.err e, thread') ∧ thread'.Ready ∧
        thread'.ring.device path = some (data.take done)
    | .panicked => ∃ thread', run = (.panicked, thread')
    | .waiting => ∃ thread', run = (.waiting, thread') := by
  intro run
  have hcall := submitOne_fate transfer kernel hready
    (.write path done ((data.drop done).take (chunk (data.length - done))))
  revert hcall
  cases fate (kernel thread.calls.length) with
  | returned failure choice =>
    rintro ⟨thread', hrun, hready', hdevice, hcalls⟩
    cases choice with
    | fail errno =>
      cases failure with
      | some e => exact ⟨e, thread', hrun, hready', hdevice ▸ hfile⟩
      | none =>
        rw [verdict, if_pos (by simp only [transfer]; omega)] at hrun
        exact ⟨_, thread', hrun, hready', hdevice ▸ hfile⟩
    | move count =>
      have hcode : (transfer thread.ring.device (.write path done
          ((data.drop done).take (chunk (data.length - done)))) (.move count)).1.code =
          (min count (chunk (data.length - done)) : ℕ) :=
        congrArg Nat.cast (payload_length (chunk_le _))
      refine ⟨thread', hready', hcalls, ?_, fun hfailure => ?_, fun hfailure => ?_⟩
      · rw [hdevice]
        simp only [transfer, update_self, hfile, Option.getD_some]
        rw [fill_payload hdone]
      · obtain ⟨e, rfl⟩ := Option.isSome_iff_exists.mp hfailure
        exact ⟨e, hrun⟩
      · rw [Option.isNone_iff_eq_none.mp hfailure, verdict, if_neg (by omega)] at hrun
        exact ⟨_, hrun, hcode⟩
  | panicked | waiting => exact id

variable (kernel) in
/-- **The loop of `write_all`**, by what the kernel's rounds come to. -/
theorem writeLoop_writes (path : String) (data : List UInt8) (fuel : ℕ) :
    ∀ (done : ℕ) (thread : Worker), thread.Ready →
      thread.ring.device path = some (data.take done) → done ≤ data.length →
      data.length - done ≤ fuel →
      let run := writeLoop transfer kernel path data fuel done thread
      match writes kernel data.length fuel thread.calls.length done with
      | .complete => ∃ thread', run = (.ok (), thread')
      | .failed count => ∃ e thread', run = (.err e, thread') ∧ thread'.Ready ∧
          thread'.ring.device path = some (data.take count)
      | .panicked => ∃ thread', run = (.panicked, thread')
      | .never => ∃ thread', run = (.waiting, thread') := by
  induction fuel with
  | zero => exact fun done thread _ _ _ _ => ⟨thread, rfl⟩
  | succ fuel ih =>
    intro done thread hready hfile hdone hfuel
    rw [writeLoop, writes]
    by_cases hless : done < data.length
    · simp only [if_pos hless]
      have hcall := submitOne_write kernel hready hfile hdone
      have hchunk := chunk_le (data.length - done)
      revert hcall
      cases fate (kernel thread.calls.length) with
      | returned failure choice =>
        cases choice with
        | fail errno =>
          rintro ⟨e, thread', hrun, hready', hfile'⟩
          exact ⟨e, thread', Task.bind_err hrun, hready', hfile'⟩
        | move count =>
          rintro ⟨thread', hready', hcalls, hfile', herr, hok⟩
          dsimp only
          by_cases hfailure : failure.isSome
          · obtain ⟨e, hrun⟩ := herr hfailure
            rw [if_pos (.inl hfailure)]
            exact ⟨e, thread', Task.bind_err hrun, hready', hfile'⟩
          · obtain ⟨answer, hrun, hcode⟩ := hok (by simpa using hfailure)
            rw [Task.bind_ok hrun]
            by_cases hzero : min count (chunk (data.length - done)) = 0
            · rw [if_pos (.inr hzero), if_pos (show answer.code = 0 by omega)]
              exact ⟨_, thread', rfl, hready', hfile'⟩
            · rw [if_neg (not_or.mpr ⟨hfailure, hzero⟩),
                if_neg (show answer.code ≠ 0 by omega), hcode, Int.toNat_natCast, ← hcalls]
              exact ih _ thread' hready' hfile' (by omega) (by omega)
      | panicked =>
        rintro ⟨thread', hrun⟩
        exact ⟨thread', Task.bind_panicked hrun⟩
      | waiting =>
        rintro ⟨thread', hrun⟩
        exact ⟨thread', Task.bind_waiting hrun⟩
    · simp only [if_neg hless]
      exact ⟨thread, rfl⟩

/-- What an overwrite with these errors of `std::fs` comes to.  It has not touched the file as
long as it is not open. -/
def Spares (kernel : ℕ → List (Round Transfer)) (n : ℕ) (old data : List UInt8) (faults : Faults) :
    Prop :=
  if faults.createDir.isSome ∨ faults.openFile.isSome then old.length < 2 ^ 63
  else match writes kernel data.length data.length n 0 with
    | .complete => True
    | .never => True
    | .failed count => old = data.take count ∧ old.length < 2 ^ 63
    | .panicked => False

/-- The thread once a file is open for writing. -/
def Worker.truncated (path : String) (thread : Worker) : Worker :=
  { thread with ring := { thread.ring with
    device := update thread.ring.device path (some []) } }

theorem Worker.truncated_file (path : String) (thread : Worker) :
    (thread.truncated path).ring.device path = some [] :=
  update_self ..

theorem Worker.Ready.truncated (h : thread.Ready) (path : String) :
    (thread.truncated path).Ready := by
  obtain ⟨⟨hqueued, hinflight, hcompleted⟩, hcapacity⟩ := h
  exact ⟨⟨hqueued, hinflight, hcompleted⟩, hcapacity⟩

theorem openWrite_ok {faults : Faults} (h : ¬(faults.createDir.isSome ∨ faults.openFile.isSome)) :
    openWrite path faults thread = (.ok (), thread.truncated path) := by
  obtain ⟨createDir, openFile⟩ := faults
  cases createDir <;> cases openFile <;> simp_all [openWrite, setFile, Worker.truncated]

variable (thread) in
theorem openWrite_err (path : String) {faults : Faults}
    (h : faults.createDir.isSome ∨ faults.openFile.isSome) :
    ∃ e, openWrite path faults thread = (.err e, thread) := by
  obtain ⟨createDir, openFile⟩ := faults
  cases createDir <;> cases openFile <;> simp_all [openWrite, fail]

variable (kernel path) in
/-- A write to a file that opens starts on an empty file. -/
theorem writeAll_opened (thread : Worker) (data : List UInt8) {faults : Faults}
    (hfaults : ¬(faults.createDir.isSome ∨ faults.openFile.isSome)) :
    writeAll transfer kernel path data faults thread =
      writeLoop transfer kernel path data data.length 0 (thread.truncated path) :=
  Task.bind_ok (openWrite_ok hfaults)

/-- **`get` of a whole object**, from a kernel that fails nothing. -/
theorem get_healthy (hhealthy : Healthy kernel) (hready : store.Ready)
    (hfile : store.thread.ring.device path = some content) (old : List UInt8) :
    (∃ store', store.get transfer kernel path = (.ok old, store')) ↔
      old = content ∧ old.length < 2 ^ 63 := by
  have hread := read_healthy hhealthy hready hfile 0 content.length
  have hget : store.get transfer kernel path =
      store.read transfer kernel path 0 content.length := by
    rw [Store.get, hfile]
  have hslice : slice content 0 content.length = content := by
    simp [slice]
  rw [hget]
  by_cases hreadable : Readable content 0 content.length
  · rw [if_pos hreadable, hslice] at hread
    obtain ⟨store', hread, -, -⟩ := hread
    rw [hread]
    constructor
    · rintro ⟨_, h⟩
      obtain rfl : content = old := Returned.ok.inj (Prod.mk.inj h).1
      refine ⟨rfl, ?_⟩
      unfold Readable at hreadable
      omega
    · rintro ⟨rfl, -⟩
      exact ⟨store', rfl⟩
  · rw [if_neg hreadable] at hread
    obtain ⟨e, store', hread⟩ := hread
    rw [hread]
    refine ⟨fun ⟨_, h⟩ => (nomatch (Prod.mk.inj h).1), ?_⟩
    rintro ⟨rfl, hlength⟩
    exact absurd (.inr ⟨Nat.le_refl _, hlength⟩) hreadable

variable (kernel) in
/-- **`put`**, by what `std::fs` and the kernel's rounds come to. -/
theorem put_writes (hready : store.Ready) (path : String) (data : List UInt8) (faults : Faults) :
    let run := store.put transfer kernel path data faults
    if faults.createDir.isSome ∨ faults.openFile.isSome then
      ∃ e store', run = (.err e, store') ∧ store'.Ready ∧
        store'.thread.ring.device path = store.thread.ring.device path
    else match writes kernel data.length data.length store.thread.calls.length 0 with
      | .complete => ∃ store', run = (.ok (), store')
      | .failed count => ∃ e store', run = (.err e, store') ∧ store'.Ready ∧
          store'.thread.ring.device path = some (data.take count)
      | .panicked => ∃ e store', run = (.err e, store') ∧ store'.alive = false
      | .never => ∃ store', run = (.never, store') := by
  simp only [Store.put, Store.send, if_pos hready.alive, serve]
  by_cases hfaults : faults.createDir.isSome ∨ faults.openFile.isSome
  · rw [if_pos hfaults]
    obtain ⟨e, hopen⟩ := openWrite_err store.thread path hfaults
    rw [writeAll, Task.bind_err (Task.bind_err hopen)]
    exact ⟨_, _, rfl, ⟨rfl, hready.thread⟩, rfl⟩
  rw [if_neg hfaults]
  have hall := writeAll_opened path kernel store.thread data hfaults
  have hloop := writeLoop_writes kernel path data data.length 0 (store.thread.truncated path)
    (hready.thread.truncated path) (Worker.truncated_file ..) (Nat.zero_le _) (Nat.le_refl _)
  revert hloop
  show (match writes kernel data.length data.length store.thread.calls.length 0 with
    | .complete => _ | .failed count => _ | .panicked => _ | .never => _) → _
  cases writes kernel data.length data.length store.thread.calls.length 0 with
  | complete =>
    rintro ⟨thread', hrun⟩
    rw [Task.bind_ok (hall.trans hrun)]
    exact ⟨_, rfl⟩
  | failed count =>
    rintro ⟨e, thread', hrun, hready', hfile⟩
    rw [Task.bind_err (hall.trans hrun)]
    exact ⟨_, _, rfl, ⟨rfl, hready'⟩, hfile⟩
  | panicked =>
    rintro ⟨thread', hrun⟩
    rw [Task.bind_panicked (hall.trans hrun)]
    exact ⟨_, _, rfl, rfl⟩
  | never =>
    rintro ⟨thread', hrun⟩
    rw [Task.bind_waiting (hall.trans hrun)]
    exact ⟨_, rfl⟩

theorem get_dead (hdead : store.alive = false) (path : String) (content : List UInt8) :
    ¬∃ store', store.get transfer kernel path = (.ok content, store') := by
  rintro ⟨store', hget⟩
  unfold Store.get at hget
  split at hget
  · exact nomatch (Prod.mk.inj hget).1
  · simp [Store.read, Store.send, hdead] at hget

/-- **A failed overwrite keeps the old object exactly if the kernel or `std::fs` lets it.**  The
file is truncated before the first write, so an error after that leaves the bytes written so
far; a panic leaves no thread to read them. -/
theorem put_keeps_iff {store : Store} (hready : store.Ready) {path : String} {old : List UInt8}
    (hfile : store.thread.ring.device path = some old) (data : List UInt8) (faults : Faults) :
    (∀ e store', store.put transfer kernel path data faults = (.err e, store') →
      ∀ later, Healthy later → ∃ store'', store'.get transfer later path = (.ok old, store'')) ↔
      Spares kernel store.thread.calls.length old data faults := by
  -- one error is reported, and one kernel that fails nothing is enough to look at it
  have herr : ∀ {p : Prop} {e store'},
      store.put transfer kernel path data faults = (.err e, store') →
      (∀ later, Healthy later →
        ((∃ store'', store'.get transfer later path = (.ok old, store'')) ↔ p)) →
      ((∀ e store', store.put transfer kernel path data faults = (.err e, store') →
        ∀ later, Healthy later →
          ∃ store'', store'.get transfer later path = (.ok old, store'')) ↔ p) := by
    intro p e store' hrun hlater
    constructor
    · exact fun h => (hlater _ healthy_fourBytes).mp (h e store' hrun _ healthy_fourBytes)
    · intro hp e' store'' hrun' later hhealthy
      obtain ⟨-, rfl⟩ := Prod.mk.inj (hrun.symm.trans hrun')
      exact (hlater later hhealthy).mpr hp
  have hput := put_writes kernel hready path data faults
  unfold Spares
  by_cases hfaults : faults.createDir.isSome ∨ faults.openFile.isSome
  · rw [if_pos hfaults] at hput ⊢
    obtain ⟨e, store', hrun, hready', hfile'⟩ := hput
    refine herr hrun fun later hhealthy => ?_
    rw [get_healthy hhealthy hready' (hfile'.trans hfile)]
    exact and_iff_right rfl
  rw [if_neg hfaults] at hput ⊢
  revert hput
  cases writes kernel data.length data.length store.thread.calls.length 0 with
  | complete =>
    rintro ⟨store', hrun⟩
    refine ⟨fun _ => trivial, fun _ e store'' h => ?_⟩
    exact nomatch (Prod.mk.inj (hrun.symm.trans h)).1
  | failed count =>
    rintro ⟨e, store', hrun, hready', hfile'⟩
    exact herr hrun fun later hhealthy => get_healthy hhealthy hready' hfile' old
  | panicked =>
    rintro ⟨e, store', hrun, hdead⟩
    exact herr hrun fun later _ => iff_false_intro (get_dead hdead path old)
  | never =>
    rintro ⟨store', hrun⟩
    refine ⟨fun _ => trivial, fun _ e store'' h => ?_⟩
    exact nomatch (Prod.mk.inj (hrun.symm.trans h)).1

/-- A kernel that writes four bytes and then finds the disk full. -/
def fullDisk (n : ℕ) : List (Round Transfer) :=
  [⟨1, [(0, if n = 0 then .move 4 else .fail 27)], .ok⟩]

/-- The ten bytes are lost, and four of the new ones are there. -/
theorem put_loses_object :
    ∃ e store', tenBytes.put transfer fullDisk "f" (replicate 6 1) {} = (.err e, store') ∧
      ∀ later, Healthy later →
        ∃ store'', store'.get transfer later "f" = (.ok (replicate 4 1), store'') := by
  obtain ⟨e, store', hrun, hready', hfile'⟩ :=
    put_writes fullDisk ready_tenBytes "f" (replicate 6 1) {}
  exact ⟨e, store', hrun, fun later hhealthy =>
    (get_healthy hhealthy hready' hfile' _).mpr (by decide)⟩

/-- A put that cannot open the file fails, and the ten bytes are there. -/
theorem put_keeps_iff_tenBytes :
    let faults : Faults := { openFile := some (.os 13) }
    ∃ e store', tenBytes.put transfer fourBytes "f" (replicate 6 1) faults = (.err e, store') ∧
      ∀ later, Healthy later →
        ∃ store'', store'.get transfer later "f" = (.ok (replicate 10 7), store'') := by
  intro faults
  have hfile : tenBytes.thread.ring.device "f" = some (replicate 10 7) := rfl
  obtain ⟨e, store', hrun, -⟩ := put_writes fourBytes ready_tenBytes "f" (replicate 6 1) faults
  have hspares : Spares fourBytes 0 (replicate 10 7) (replicate 6 1) faults := by
    show (replicate 10 7).length < 2 ^ 63
    decide
  refine ⟨e, store', hrun, ?_⟩
  exact (put_keeps_iff ready_tenBytes hfile _ faults).mpr hspares e store' hrun

end Uring

end OxideLake

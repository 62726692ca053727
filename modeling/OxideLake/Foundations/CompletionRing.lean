import Mathlib

/-!
# Completion rings

A ring through which a program hands operations to a device: a submission is queued, taken by
the device, performed, and its completion queued for the program to read.  What the device
does while the program waits is a `Round`: how many submissions it takes, which of those in
flight it performs and with which choice, and how the wait itself ends.

A ring with one submission on it is in one of three places (`Place`), and a round moves it
along; the lemmas here follow it.
-/

namespace CompletionRing

/-- A submission: the operation, the tag it carries, and the number of the submission it is,
which the device does not see. -/
structure Submission (Op : Type) where
  op : Op
  tag : UInt64
  serial : ℕ

/-- The completion of a submission. -/
structure Completion (R : Type) where
  tag : UInt64
  serial : ℕ
  answer : R
  deriving DecidableEq

/-- How a wait ends. -/
inductive Wait where
  | ok
  | interrupted
  | failed (code : ℤ)
  deriving DecidableEq

/-- What the device does during one wait. -/
structure Round (C : Type) where
  accepts : ℕ
  completes : List (ℕ × C)
  wait : Wait

/-- A ring and the state of its device, with a record of the answers it gave. -/
structure Ring (Op R D : Type) where
  capacity : ℕ
  queued : List (Submission Op)
  inflight : List (Submission Op)
  completed : List (Completion R)
  performed : List (ℕ × R)
  device : D

variable {Op R D C : Type}

namespace Ring

/-- Queues a submission if there is room. -/
def push (ring : Ring Op R D) (submission : Submission Op) : Option (Ring Op R D) :=
  if ring.queued.length < ring.capacity then
    some { ring with queued := ring.queued ++ [submission] }
  else none

/-- The device takes the first submissions of the queue. -/
def accept (ring : Ring Op R D) (count : ℕ) : Ring Op R D :=
  { ring with
    queued := ring.queued.drop count
    inflight := ring.inflight ++ ring.queued.take count }

/-- The oldest completion, and the ring without it. -/
def next (ring : Ring Op R D) : Option (Completion R × Ring Op R D) :=
  match ring.completed with
  | [] => none
  | completion :: rest => some (completion, { ring with completed := rest })

variable (perform : D → Op → C → R × D)

/-- The device performs one of the operations in flight. -/
def complete (ring : Ring Op R D) (choice : ℕ × C) : Ring Op R D :=
  match ring.inflight[choice.1]? with
  | none => ring
  | some submission =>
    let result := perform ring.device submission.op choice.2
    { ring with
      inflight := ring.inflight.eraseIdx choice.1
      completed := ring.completed ++ [⟨submission.tag, submission.serial, result.1⟩]
      performed := ring.performed ++ [(submission.serial, result.1)]
      device := result.2 }

/-- What a round does to the ring. -/
def round (ring : Ring Op R D) (round : Round C) : Ring Op R D :=
  round.completes.foldl (complete perform) (ring.accept round.accepts)

/-- Nothing is on the ring. -/
structure Idle (ring : Ring Op R D) : Prop where
  queued : ring.queued = []
  inflight : ring.inflight = []
  completed : ring.completed = []

end Ring

/-! ## One submission -/

/-- Where the only submission of a ring is. -/
inductive Place (R : Type) where
  | queued
  | inflight
  | completed (answer : R)

/-- The ring has one submission, in this place; before it these answers were given. -/
def Ring.Holds (ring : Ring Op R D) (submission : Submission Op) (before : List (ℕ × R)) :
    Place R → Prop
  | .queued => ring.queued = [submission] ∧ ring.inflight = [] ∧ ring.completed = [] ∧
      ring.performed = before
  | .inflight => ring.queued = [] ∧ ring.inflight = [submission] ∧ ring.completed = [] ∧
      ring.performed = before
  | .completed answer => ring.queued = [] ∧ ring.inflight = [] ∧
      ring.completed = [⟨submission.tag, submission.serial, answer⟩] ∧
      ring.performed = before ++ [(submission.serial, answer)]

/-- What a round chooses for the only submission in flight. -/
def Round.choice (round : Round C) : Option C :=
  (round.completes.find? fun choice => choice.1 = 0).map Prod.snd

section Follow

variable (perform : D → Op → C → R × D)

/-- The only submission in flight, and the device, after a round. -/
def Round.answer (round : Round C) (op : Op) (device : D) : Place R × D :=
  match round.choice with
  | none => (.inflight, device)
  | some choice => (.completed (perform device op choice).1, (perform device op choice).2)

/-- The place of the only submission after a round. -/
def Round.follow (round : Round C) (op : Op) : Place R × D → Place R × D
  | (.queued, device) =>
    if round.accepts = 0 then (.queued, device) else round.answer perform op device
  | (.inflight, device) => round.answer perform op device
  | (.completed answer, device) => (.completed answer, device)

variable {perform} {ring : Ring Op R D} {submission : Submission Op} {before : List (ℕ × R)}

theorem Ring.foldl_complete_of_empty (hinflight : ring.inflight = []) (choices : List (ℕ × C)) :
    choices.foldl (Ring.complete perform) ring = ring := by
  induction choices with
  | nil => rfl
  | cons choice choices ih =>
    have hnone : Ring.complete perform ring choice = ring := by
      rw [Ring.complete, hinflight]
      rfl
    rw [List.foldl_cons, hnone, ih]

variable (perform) in
theorem Ring.foldl_complete_of_inflight (hholds : ring.Holds submission before .inflight)
    (choices : List (ℕ × C)) :
    let after := choices.foldl (Ring.complete perform) ring
    match (choices.find? fun choice => choice.1 = 0).map Prod.snd with
    | none => after = ring
    | some choice =>
      after.Holds submission before
        (.completed (perform ring.device submission.op choice).1) ∧
      after.device = (perform ring.device submission.op choice).2 ∧
      after.capacity = ring.capacity := by
  obtain ⟨hqueued, hinflight, hcompleted, hperformed⟩ := hholds
  induction choices with
  | nil => rfl
  | cons choice choices ih =>
    obtain ⟨index, choice⟩ := choice
    cases index with
    | zero =>
      have hdone : Ring.complete perform ring (0, choice) = { ring with
          inflight := []
          completed := [⟨submission.tag, submission.serial,
            (perform ring.device submission.op choice).1⟩]
          performed := before ++ [(submission.serial,
            (perform ring.device submission.op choice).1)]
          device := (perform ring.device submission.op choice).2 } := by
        simp [Ring.complete, hinflight, hcompleted, hperformed]
      rw [List.foldl_cons, hdone, Ring.foldl_complete_of_empty rfl]
      exact ⟨⟨hqueued, rfl, rfl, rfl⟩, rfl, rfl⟩
    | succ index =>
      have hnone : Ring.complete perform ring (index + 1, choice) = ring := by
        simp [Ring.complete, hinflight]
      rw [List.foldl_cons, hnone, List.find?_cons_of_neg (by simp)]
      exact ih

theorem Ring.Holds.accept (hholds : ring.Holds submission before .queued) {count : ℕ}
    (hcount : count ≠ 0) : (ring.accept count).Holds submission before .inflight := by
  obtain ⟨hqueued, hinflight, hcompleted, hperformed⟩ := hholds
  obtain ⟨count, rfl⟩ := Nat.exists_eq_succ_of_ne_zero hcount
  refine ⟨?_, ?_, hcompleted, hperformed⟩
  · simp [Ring.accept, hqueued]
  · simp [Ring.accept, hqueued, hinflight]

theorem Ring.accept_of_empty (hqueued : ring.queued = []) (count : ℕ) :
    ring.accept count = ring := by
  obtain ⟨capacity, queued, inflight, completed, performed, device⟩ := ring
  cases hqueued
  simp [Ring.accept]

theorem Ring.Holds.answer (hholds : ring.Holds submission before .inflight) (round : Round C) :
    (round.completes.foldl (Ring.complete perform) ring).Holds submission before
        (round.answer perform submission.op ring.device).1 ∧
      (round.completes.foldl (Ring.complete perform) ring).device =
        (round.answer perform submission.op ring.device).2 ∧
      (round.completes.foldl (Ring.complete perform) ring).capacity = ring.capacity := by
  have hfold := Ring.foldl_complete_of_inflight perform hholds round.completes
  unfold Round.answer
  rw [← Round.choice] at hfold
  cases hchoice : round.choice with
  | none =>
    rw [hchoice] at hfold
    rw [show round.completes.foldl (Ring.complete perform) ring = ring from hfold]
    exact ⟨hholds, rfl, rfl⟩
  | some choice =>
    rw [hchoice] at hfold
    exact hfold

variable (perform) in
/-- **One round**, seen by one submission. -/
theorem Ring.Holds.round {place : Place R} (hholds : ring.Holds submission before place)
    (round : Round C) :
    (ring.round perform round).Holds submission before
        (round.follow perform submission.op (place, ring.device)).1 ∧
      (ring.round perform round).device =
        (round.follow perform submission.op (place, ring.device)).2 ∧
      (ring.round perform round).capacity = ring.capacity := by
  cases place with
  | queued =>
    by_cases hcount : round.accepts = 0
    · have hnone : ring.accept round.accepts = ring := by
        obtain ⟨capacity, queued, inflight, completed, performed, device⟩ := ring
        obtain ⟨rfl, rfl, rfl, rfl⟩ := hholds
        simp [Ring.accept, hcount]
      rw [Ring.round, hnone, Ring.foldl_complete_of_empty hholds.2.1]
      have hfollow : round.follow perform submission.op (.queued, ring.device) =
        (.queued, ring.device) := if_pos hcount
      rw [hfollow]
      exact ⟨hholds, rfl, rfl⟩
    · simp only [Round.follow, if_neg hcount]
      exact (hholds.accept hcount).answer round
  | inflight =>
    rw [Ring.round, Ring.accept_of_empty hholds.1]
    exact hholds.answer round
  | completed answer =>
    rw [Ring.round, Ring.accept_of_empty hholds.1, Ring.foldl_complete_of_empty hholds.2.1]
    exact ⟨hholds, rfl, rfl⟩

/-- Where the only submission is, once it has been taken or not and a choice has been made for
it or not, and the device with it. -/
def placed (perform : D → Op → C → R × D) (op : Op) (device : D) (taken : Bool) :
    Option C → Place R × D
  | some choice => (.completed (perform device op choice).1, (perform device op choice).2)
  | none => (if taken then .inflight else .queued, device)

/-- The choice made for the only submission by the end of a round. -/
def Round.decision (round : Round C) (taken : Bool) (decided : Option C) : Option C :=
  decided.or (if taken || round.accepts != 0 then round.choice else none)

theorem follow_placed (round : Round C) (op : Op) (device : D) (taken : Bool) (decided : Option C) :
    round.follow perform op (placed perform op device taken decided) =
      placed perform op device (taken || round.accepts != 0) (round.decision taken decided) := by
  have hanswer : round.answer perform op device = placed perform op device true round.choice := by
    unfold Round.answer
    cases round.choice <;> rfl
  cases decided with
  | some choice => rfl
  | none =>
    cases taken with
    | true => exact hanswer
    | false =>
      by_cases hcount : round.accepts = 0
      · simp [placed, Round.follow, Round.decision, hcount]
      · have htaken : (round.accepts != 0) = true := bne_iff_ne.mpr hcount
        rw [Round.decision, Bool.false_or, htaken]
        show (if round.accepts = 0 then _ else round.answer perform op device) = _
        rw [if_neg hcount, hanswer]
        rfl

theorem Ring.Holds.next_of_completed {answer : R}
    (hholds : ring.Holds submission before (.completed answer)) :
    ring.next = some (⟨submission.tag, submission.serial, answer⟩,
      { ring with completed := [] }) := by
  rw [Ring.next, hholds.2.2.1]

theorem Ring.Holds.next_of_pending {taken : Bool} {op : Op} {device : D}
    (hholds : ring.Holds submission before (placed perform op device taken none).1) :
    ring.next = none := by
  cases taken with
  | true | false => rw [Ring.next, hholds.2.2.1]

theorem Ring.Holds.performed {place : Place R} (hholds : ring.Holds submission before place) :
    ring.performed = before ∨ ∃ answer, ring.performed =
      before ++ [(submission.serial, answer)] := by
  cases place with
  | queued | inflight => exact .inl hholds.2.2.2
  | completed answer => exact .inr ⟨answer, hholds.2.2.2⟩

theorem Ring.Idle.push (hidle : ring.Idle) (hcapacity : 0 < ring.capacity)
    (submission : Submission Op) :
    ∃ pushed, ring.push submission = some pushed ∧
      pushed.Holds submission ring.performed .queued ∧ pushed.device = ring.device ∧
      pushed.capacity = ring.capacity := by
  refine ⟨{ ring with queued := ring.queued ++ [submission] }, ?_, ?_, rfl, rfl⟩
  · rw [Ring.push, if_pos (by rw [hidle.queued]; exact hcapacity)]
  · exact ⟨by rw [hidle.queued]; rfl, hidle.inflight, hidle.completed, rfl⟩

end Follow

end CompletionRing

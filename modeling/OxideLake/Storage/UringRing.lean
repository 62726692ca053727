import OxideLake.Storage.Uring

/-!
# Completions and submissions

Between two calls of `submit_one` the ring is idle, whatever the kernel does: a call that
returns has read the completion of its own entry, and one that panics ends the thread.  So an
entry is alone on the ring, and the only completion to be read is its own.

A call panics when the kernel keeps its entry while waits fail (`Starves`); it then leaves with
the entry still on the ring.
-/

namespace OxideLake

namespace Uring

open List CompletionRing

variable {C : Type} {perform : Files → Op → C → Answer × Files} {kernel : ℕ → List (Round C)}

/-! ## Starving -/

/-- The only entry is not completed during these rounds; `taken` says whether the kernel has
accepted it before them. -/
def unanswered : Bool → List (Round C) → Bool
  | _, [] => true
  | taken, round :: rounds =>
    let taken := taken || round.accepts != 0
    !(taken && round.choice.isSome) && unanswered taken rounds

/-- The rounds after which the completion queue is looked at. -/
def polls (rounds : List (Round C)) : ℕ := rounds.countP fun round => round.wait != .interrupted

/-- A wait that failed. -/
def Wait.Fails (wait : Wait) : Prop := ∃ code, wait = .failed code

/-- From a point of the loop on, the kernel keeps the entry for so many looks at the completion
queue that the loop gives up, a wait having failed. -/
def StarvesFrom (taken : Bool) (failed : Prop) (attempts : ℕ) (rounds : List (Round C)) : Prop :=
  ∃ early last later, rounds = early ++ last :: later ∧
    unanswered taken (early ++ [last]) = true ∧ last.wait ≠ .interrupted ∧
    (failed ∨ ∃ round ∈ early ++ [last], Wait.Fails round.wait) ∧
    reapAttempts.toNat ≤ (attempts + polls (early ++ [last])) % 2 ^ 32

/-- **Starving**: the kernel has not completed the entry by a look at the completion queue that
is at least the 1024th (modulo the width of the counter), and a wait has failed by then. -/
def Starves (rounds : List (Round C)) : Prop := StarvesFrom false False 0 rounds

theorem starvesFrom_nil (taken : Bool) (failed : Prop) (attempts : ℕ) :
    ¬ StarvesFrom taken failed attempts ([] : List (Round C)) := by
  rintro ⟨early, last, later, heq, -⟩
  cases early <;> cases heq

/-- **One round** of the reaping. -/
theorem starvesFrom_cons (taken : Bool) (failed : Prop) (attempts : ℕ) (round : Round C)
    (rounds : List (Round C)) :
    StarvesFrom taken failed attempts (round :: rounds) ↔
      ¬ ((taken || round.accepts != 0) = true ∧ round.choice.isSome = true) ∧
      ((round.wait ≠ .interrupted ∧ (failed ∨ Wait.Fails round.wait) ∧
          reapAttempts.toNat ≤ (attempts + 1) % 2 ^ 32) ∨
        StarvesFrom (taken || round.accepts != 0) (failed ∨ Wait.Fails round.wait)
          (attempts + if round.wait = .interrupted then 0 else 1) rounds) := by
  have hpolls : ∀ rest, attempts + polls (round :: rest) =
      attempts + (if round.wait = .interrupted then 0 else 1) + polls rest := by
    intro rest
    rw [polls, polls, countP_cons]
    by_cases hwait : round.wait = .interrupted
    · rw [if_neg (by simp [hwait]), if_pos hwait]
      rfl
    · rw [if_pos (by simpa using hwait), if_neg hwait]
      omega
  have hunanswered : ∀ rest, unanswered taken (round :: rest) = true ↔
      ¬ ((taken || round.accepts != 0) = true ∧ round.choice.isSome = true) ∧
        unanswered (taken || round.accepts != 0) rest = true := by
    intro rest
    simp only [unanswered, Bool.and_eq_true, Bool.not_eq_true']
    rw [← Bool.not_eq_true, Bool.and_eq_true]
  constructor
  · rintro ⟨early, last, later, heq, hopen, hlast, hfailed, hattempts⟩
    cases early with
    | nil =>
      cases heq
      rw [nil_append] at hopen hfailed hattempts
      refine ⟨((hunanswered []).mp hopen).1, .inl ⟨hlast, ?_, ?_⟩⟩
      · exact hfailed.imp_right fun ⟨r, hr, hfails⟩ => mem_singleton.mp hr ▸ hfails
      · rwa [hpolls, if_neg hlast] at hattempts
    | cons first early =>
      cases heq
      rw [cons_append] at hopen hfailed hattempts
      obtain ⟨hnot, hrest⟩ := (hunanswered _).mp hopen
      refine ⟨hnot, .inr ⟨early, last, later, rfl, hrest, hlast, ?_, ?_⟩⟩
      · obtain hfailed | ⟨r, hr, hfails⟩ := hfailed
        · exact .inl (.inl hfailed)
        · obtain rfl | hr := mem_cons.mp hr
          · exact .inl (.inr hfails)
          · exact .inr ⟨r, hr, hfails⟩
      · rwa [hpolls] at hattempts
  · rintro ⟨hnot, ⟨hlast, hfailed, hattempts⟩ | ⟨early, last, later, rfl, hopen, hlast, hfailed,
      hattempts⟩⟩
    · refine ⟨[], round, rounds, rfl, (hunanswered []).mpr ⟨hnot, rfl⟩, hlast, ?_, ?_⟩
      · exact hfailed.imp_right fun h => ⟨round, mem_singleton.mpr rfl, h⟩
      · rw [nil_append, hpolls, if_neg hlast]
        exact hattempts
    · refine ⟨round :: early, last, later, rfl, (hunanswered _).mpr ⟨hnot, hopen⟩, hlast, ?_, ?_⟩
      · obtain (hfailed | hfails) | ⟨r, hr, hfails⟩ := hfailed
        · exact .inl hfailed
        · exact .inr ⟨round, mem_cons_self, hfails⟩
        · exact .inr ⟨r, mem_cons_of_mem _ hr, hfails⟩
      · rw [cons_append, hpolls]
        exact hattempts

/-! ## One call -/

/-- What the kernel's rounds during one submission come to: the call returns with the choice
made for its entry and the first failure of a wait, it panics, or it still waits. -/
inductive Fate (C : Type) where
  | returned (failure : Option IoError) (choice : C)
  | panicked
  | waiting

/-- The loop of `submit_one` without the ring. -/
def fateFrom : List (Round C) → Bool → Option C → Option IoError → UInt32 → Fate C
  | [], _, _, _, _ => .waiting
  | round :: rounds, taken, decided, failure, attempts =>
    let taken' := taken || round.accepts != 0
    let decided' := round.decision taken decided
    if round.wait = .interrupted then fateFrom rounds taken' decided' failure attempts
    else
      let failure := recordFailure failure round.wait
      match decided' with
      | some choice => .returned failure choice
      | none =>
        if failure.isNone ∨ attempts + 1 < reapAttempts then
          fateFrom rounds taken' none failure (attempts + 1)
        else .panicked

/-- What the kernel's rounds during one submission come to. -/
def fate (rounds : List (Round C)) : Fate C := fateFrom rounds false none none 0

section Loop

variable {submission : Submission Op} {before : List (ℕ × Answer)} {device : Files}

variable (perform submission before device) in
/-- The end of a loop, from what the rounds came to. -/
def Ends (fate : Fate C)
    (result : Exit Answer × Ring Op Answer Files × List (Completion Answer)) : Prop :=
  match fate with
  | .returned failure choice =>
    let answer := (perform device submission.op choice).1
    result.1 = verdict failure answer ∧ result.2.1.Idle ∧
    result.2.1.performed = before ++ [(submission.serial, answer)] ∧
    result.2.1.device = (perform device submission.op choice).2 ∧
    result.2.2 = [⟨submission.tag, submission.serial, answer⟩]
  | .panicked =>
    result.1 = .panicked ∧ (∃ place, result.2.1.Holds submission before place) ∧
    result.2.1.device = device ∧ result.2.2 = []
  | .waiting =>
    result.1 = .waiting ∧ (∃ place, result.2.1.Holds submission before place) ∧ result.2.2 = []

variable (rounds : List (Round C))

variable (perform) in
/-- **The loop of `submit_one`**, on a ring with its entry alone, ends as the rounds say. -/
theorem submitLoop_ends :
    ∀ (taken : Bool) (decided : Option C) (failure : Option IoError) (attempts : UInt32)
      (ring : Ring Op Answer Files),
      ring.Holds submission before (placed perform submission.op device taken decided).1 →
      ring.device = (placed perform submission.op device taken decided).2 →
      (submitLoop perform submission.tag rounds failure attempts ring).2.1.capacity =
        ring.capacity ∧
      Ends perform submission before device (fateFrom rounds taken decided failure attempts)
        (submitLoop perform submission.tag rounds failure attempts ring) := by
  induction rounds with
  | nil => exact fun _ _ _ _ _ hholds _ => ⟨rfl, rfl, ⟨_, hholds⟩, rfl⟩
  | cons round rounds ih =>
    intro taken decided failure attempts ring hholds hdevice
    obtain ⟨hafter, hdevice', hcapacity⟩ := hholds.round perform round
    rw [hdevice, follow_placed] at hafter hdevice'
    rw [submitLoop, fateFrom, ← hcapacity]
    simp only
    by_cases hwait : round.wait = .interrupted
    · rw [if_pos hwait, if_pos hwait]
      exact ih _ _ _ _ _ hafter hdevice'
    rw [if_neg hwait, if_neg hwait]
    cases hdecided : round.decision taken decided with
    | some choice =>
      rw [hdecided] at hafter hdevice'
      rw [hafter.next_of_completed]
      dsimp only
      rw [if_pos rfl]
      exact ⟨rfl, rfl, ⟨hafter.1, hafter.2.1, rfl⟩, hafter.2.2.2, hdevice', rfl⟩
    | none =>
      rw [hdecided] at hafter hdevice'
      rw [hafter.next_of_pending]
      simp only
      split
      · exact ih _ _ _ _ _ hafter hdevice'
      · exact ⟨rfl, rfl, ⟨_, hafter⟩, hdevice', rfl⟩

theorem recordFailure_isSome (failure : Option IoError) (wait : Wait) :
    (recordFailure failure wait).isSome = true ↔ failure.isSome = true ∨ Wait.Fails wait := by
  cases wait with
  | ok | interrupted => exact ⟨.inl, fun h => h.resolve_right nofun⟩
  | failed code =>
    cases failure with
    | some e => exact ⟨fun _ => .inl rfl, fun _ => rfl⟩
    | none => exact ⟨fun _ => .inr ⟨code, rfl⟩, fun _ => rfl⟩

theorem toNat_add_one {attempts : UInt32} {count : ℕ} (hcount : attempts.toNat = count % 2 ^ 32) :
    (attempts + 1).toNat = (count + 1) % 2 ^ 32 := by
  rw [UInt32.toNat_add, hcount]
  show (count % 2 ^ 32 + 1) % 2 ^ 32 = _
  omega

theorem fateFrom_of_decided (choice : C) :
    ∀ (taken : Bool) (failure : Option IoError) (attempts : UInt32),
      fateFrom rounds taken (some choice) failure attempts ≠ .panicked := by
  induction rounds with
  | nil => exact fun _ _ _ => nofun
  | cons round rounds ih =>
    intro taken failure attempts
    rw [fateFrom]
    simp only
    split
    · exact ih _ _ _
    · exact nofun

/-- A choice is made in a round exactly if the entry is taken by then and there is one. -/
theorem decision_none_iff (round : Round C) (taken : Bool) :
    round.decision taken none = none ↔
      ¬ ((taken || round.accepts != 0) = true ∧ round.choice.isSome = true) := by
  unfold Round.decision
  by_cases htaken : (taken || round.accepts != 0) = true
  · rw [if_pos htaken]
    cases round.choice with
    | none => exact ⟨fun _ h => absurd h.2 Bool.false_ne_true, fun _ => rfl⟩
    | some choice => exact ⟨fun h => (nomatch h), fun h => absurd ⟨htaken, rfl⟩ h⟩
  · rw [if_neg htaken]
    exact ⟨fun _ h => htaken h.1, fun _ => rfl⟩

/-- The rounds panic exactly if the reaping runs out of attempts. -/
theorem fateFrom_panicked_iff :
    ∀ (taken : Bool) (failure : Option IoError) (attempts : UInt32) (count : ℕ),
      attempts.toNat = count % 2 ^ 32 →
      (fateFrom rounds taken none failure attempts = .panicked ↔
        StarvesFrom taken (failure.isSome = true) count rounds) := by
  induction rounds with
  | nil =>
    intro taken failure attempts count _
    exact ⟨nofun, fun h => absurd h (starvesFrom_nil _ _ _)⟩
  | cons round rounds ih =>
    intro taken failure attempts count hcount
    have hfailed := propext (recordFailure_isSome failure round.wait)
    rw [starvesFrom_cons, ← hfailed, ← decision_none_iff, fateFrom]
    simp only
    cases hdecided : round.decision taken none with
    | some choice =>
      refine ⟨fun h => ?_, fun h => nomatch h.1⟩
      split at h
      · exact absurd h (fateFrom_of_decided _ _ _ _ _)
      · cases h
    | none =>
      by_cases hwait : round.wait = .interrupted
      · rw [if_pos hwait, if_pos hwait, hwait, Nat.add_zero]
        rw [ih _ failure attempts count hcount]
        exact ⟨fun h => ⟨rfl, .inr h⟩, fun h => h.2.resolve_left fun h' => h'.1 rfl⟩
      rw [if_neg hwait, if_neg hwait]
      dsimp only
      have hattempts := toNat_add_one hcount
      split
      · next hgoes =>
        rw [ih _ _ _ (count + 1) hattempts]
        refine ⟨fun h => ⟨rfl, .inr h⟩, fun h => h.2.resolve_left ?_⟩
        rintro ⟨-, hsome, hmany⟩
        obtain hnone | hfew := hgoes
        · rw [Option.isNone_iff_eq_none] at hnone
          rw [hnone] at hsome
          cases hsome
        · have hfew := UInt32.lt_iff_toNat_lt.mp hfew
          omega
      · next hgives =>
        obtain ⟨hsome, hmany⟩ := not_or.mp hgives
        refine ⟨fun _ => ⟨rfl, .inl ⟨hwait, ?_, ?_⟩⟩, fun _ => rfl⟩
        · rw [Option.isNone_iff_eq_none] at hsome
          exact Option.isSome_iff_ne_none.mpr hsome
        · rw [← hattempts]
          exact UInt32.le_iff_toNat_le.mp (UInt32.not_lt.mp hmany)

/-- When a call panics. -/
theorem fate_panicked_iff :
    fate rounds = .panicked ↔ Starves rounds := by
  have h := fateFrom_panicked_iff rounds false none 0 0 rfl
  rwa [show ((none : Option IoError).isSome = true) = False from propext ⟨nofun, nofun⟩] at h

/-- Whatever the rounds, a failed wait is an error of the system. -/
theorem fateFrom_failure :
    ∀ (taken : Bool) (decided : Option C) (failure : Option IoError) (attempts : UInt32),
      (∀ e, failure = some e → ∃ code, e = .os code) →
      ∀ e choice, fateFrom rounds taken decided failure attempts = .returned (some e) choice →
        ∃ code, e = .os code := by
  have hrecord : ∀ (failure : Option IoError), (∀ e, failure = some e → ∃ code, e = .os code) →
      ∀ wait e, recordFailure failure wait = some e → ∃ code, e = .os code := by
    intro failure hfailure wait e hrecorded
    cases wait with
    | ok | interrupted => exact hfailure e hrecorded
    | failed code =>
      cases failure with
      | some e' => exact hfailure e hrecorded
      | none =>
        cases hrecorded
        exact ⟨code, rfl⟩
  induction rounds with
  | nil => exact fun _ _ _ _ _ _ _ => nofun
  | cons round rounds ih =>
    intro taken decided failure attempts hfailure e choice h
    rw [fateFrom] at h
    simp only at h
    split at h
    · exact ih _ _ _ _ hfailure e choice h
    · split at h
      · obtain ⟨hfailed, -⟩ := Fate.returned.inj h
        exact hrecord failure hfailure round.wait e hfailed
      · split at h
        · exact ih _ _ _ _ (hrecord failure hfailure round.wait) e choice h
        · cases h

/-- An answer is passed on or is an error of the system. -/
theorem verdict_cases {failure : Option IoError}
    (hfailure : ∀ e, failure = some e → ∃ code, e = .os code) (answer : Answer) :
    verdict failure answer = .ok answer ∨ ∃ code, verdict failure answer = .err (.os code) := by
  unfold verdict
  cases failure with
  | some e =>
    obtain ⟨code, rfl⟩ := hfailure e rfl
    exact .inr ⟨code, rfl⟩
  | none =>
    by_cases hnegative : answer.code < 0
    · exact .inr ⟨_, if_pos hnegative⟩
    · exact .inl (if_neg hnegative)

end Loop

variable (perform kernel) in
/-- **A call of `submit_one`** on an idle ring: what it returns, the thread after it, and the
record it leaves. -/
theorem submitOne_ends {thread : Worker} (hidle : thread.ring.Idle)
    (hcapacity : 0 < thread.ring.capacity) (op : Op) :
    ∃ result : Exit Answer × Ring Op Answer Files × List (Completion Answer),
      submitOne perform kernel op thread = (result.1, { thread with
        ring := result.2.1, seq := thread.seq + 1
        calls := thread.calls ++
          [⟨thread.seq + 1, thread.calls.length, result.2.2, result.1⟩] }) ∧
      result.2.1.capacity = thread.ring.capacity ∧
      Ends perform ⟨op, thread.seq + 1, thread.calls.length⟩ thread.ring.performed
        thread.ring.device (fate (kernel thread.calls.length)) result := by
  obtain ⟨pushed, hpush, hholds, hdevice, hcapacity'⟩ :=
    hidle.push hcapacity ⟨op, thread.seq + 1, thread.calls.length⟩
  obtain ⟨hkept, hends⟩ := submitLoop_ends perform (kernel thread.calls.length) false none none 0
    pushed hholds hdevice
  refine ⟨_, ?_, hkept.trans hcapacity', hends⟩
  rw [submitOne]
  simp only [hpush]

/-! ## The calls of a thread -/

variable (kernel) in
/-- What is to be said of a call, given the answers the kernel gave. -/
structure Call.Sound (performed : List (ℕ × Answer)) (call : Call) : Prop where
  own : ∀ cqe ∈ call.reaped, cqe.serial = call.serial ∧ cqe.tag = call.tag ∧
    (cqe.serial, cqe.answer) ∈ performed
  ok : ∀ answer, call.exit = .ok answer → call.reaped = [⟨call.tag, call.serial, answer⟩]
  err : ∀ e, call.exit = .err e → (∃ code, e = .os code) ∧
    ∃ answer, call.reaped = [⟨call.tag, call.serial, answer⟩]
  panicked : call.exit = .panicked ↔ Starves (kernel call.serial)
  reaped_nil : call.exit = .panicked → call.reaped = []

variable (kernel) in
/-- The records of a thread: its calls are sound, and the kernel has answered each at most
once. -/
structure Worker.Sound (thread : Worker) : Prop where
  calls : ∀ call ∈ thread.calls, call.Sound kernel thread.ring.performed
  once : (thread.ring.performed.map Prod.fst).Nodup
  serials : ∀ entry ∈ thread.ring.performed, entry.1 < thread.calls.length
  capacity : 0 < thread.ring.capacity

variable (kernel) in
/-- A task keeps the records sound, and the ring idle unless it does not return. -/
def Keeps {α : Type} (task : Task α) : Prop :=
  ∀ thread : Worker, thread.Sound kernel → thread.ring.Idle →
    (task thread).2.Sound kernel ∧
    ((task thread).1 ≠ .panicked → (task thread).1 ≠ .waiting → (task thread).2.ring.Idle)

theorem Call.Sound.mono {performed performed' : List (ℕ × Answer)} {call : Call}
    (h : call.Sound kernel performed) (hsubset : performed ⊆ performed') :
    call.Sound kernel performed' where
  own cqe hmem := ⟨(h.own cqe hmem).1, (h.own cqe hmem).2.1, hsubset (h.own cqe hmem).2.2⟩
  ok := h.ok
  err := h.err
  panicked := h.panicked
  reaped_nil := h.reaped_nil

/-- A call that ends is recorded. -/
theorem Worker.Sound.record {thread thread' : Worker} (h : thread.Sound kernel) {call : Call}
    (hcalls : thread'.calls = thread.calls ++ [call]) (hserial : call.serial = thread.calls.length)
    (hperformed : thread'.ring.performed = thread.ring.performed ∨
      ∃ answer, thread'.ring.performed = thread.ring.performed ++ [(call.serial, answer)])
    (hcapacity : thread'.ring.capacity = thread.ring.capacity)
    (hcall : call.Sound kernel thread'.ring.performed) : thread'.Sound kernel := by
  have hsubset : thread.ring.performed ⊆ thread'.ring.performed := by
    obtain heq | ⟨answer, heq⟩ := hperformed
    · exact heq ▸ List.Subset.refl _
    · exact heq ▸ subset_append_left _ _
  refine ⟨fun call' hmem => ?_, ?_, fun entry hmem => ?_, hcapacity ▸ h.capacity⟩
  · rw [hcalls, mem_append, mem_singleton] at hmem
    obtain hmem | rfl := hmem
    · exact (h.calls call' hmem).mono hsubset
    · exact hcall
  · obtain heq | ⟨answer, heq⟩ := hperformed
    · exact heq ▸ h.once
    · rw [heq, map_append, nodup_append]
      refine ⟨h.once, nodup_singleton _, ?_⟩
      rintro serial hmem _ hserial' rfl
      obtain ⟨entry, hentry, rfl⟩ := mem_map.mp hmem
      have hless := h.serials entry hentry
      rw [mem_singleton.mp hserial', hserial] at hless
      exact absurd hless (Nat.lt_irrefl _)
  · rw [hcalls, length_append, length_singleton]
    obtain heq | ⟨answer, heq⟩ := hperformed
    · exact Nat.lt_succ_of_lt (h.serials entry (heq ▸ hmem))
    · rw [heq, mem_append, mem_singleton] at hmem
      obtain hmem | rfl := hmem
      · exact Nat.lt_succ_of_lt (h.serials entry hmem)
      · exact hserial ▸ Nat.lt_succ_self _

/-- **One call** adds a sound record, and leaves the ring idle if it returns. -/
theorem keeps_submitOne (op : Op) : Keeps kernel (submitOne perform kernel op) := by
  intro thread hsound hidle
  obtain ⟨⟨exit, ring, reaped⟩, hrun, hcapacity, hends⟩ :=
    submitOne_ends perform kernel hidle hsound.capacity op
  have hpanics := fate_panicked_iff (kernel thread.calls.length)
  rw [hrun]
  unfold Ends at hends
  cases hfate : fate (kernel thread.calls.length) with
  | returned failure choice =>
    rw [hfate] at hends hpanics
    simp only at hends
    obtain ⟨hexit, hidle', hperformed, -, rfl⟩ := hends
    have hfailure : ∀ e, failure = some e → ∃ code, e = .os code := by
      rintro e rfl
      exact fateFrom_failure _ false none none 0 nofun e choice hfate
    have hcases := verdict_cases hfailure (perform thread.ring.device op choice).1
    rw [← hexit] at hcases
    refine ⟨hsound.record rfl rfl (.inr ⟨_, hperformed⟩) hcapacity ?_, fun _ _ => hidle'⟩
    refine ⟨fun cqe hmem => ?_, fun answer hok => ?_, fun e herr => ?_, ?_, fun hp => ?_⟩
    · rw [mem_singleton.mp hmem]
      refine ⟨rfl, rfl, ?_⟩
      rw [hperformed]
      exact mem_append_right _ (mem_singleton.mpr rfl)
    · obtain hcase | ⟨code, hcase⟩ := hcases
      · cases hcase.symm.trans hok
        rfl
      · cases hcase.symm.trans hok
    · obtain hcase | ⟨code, hcase⟩ := hcases
      · cases hcase.symm.trans herr
      · cases hcase.symm.trans herr
        exact ⟨⟨code, rfl⟩, _, rfl⟩
    · refine ⟨fun hp => ?_, fun h => nomatch hpanics.mpr h⟩
      obtain hcase | ⟨code, hcase⟩ := hcases <;> cases hcase.symm.trans hp
    · obtain hcase | ⟨code, hcase⟩ := hcases <;> cases hcase.symm.trans hp
  | panicked =>
    rw [hfate] at hends hpanics
    obtain ⟨hexit, ⟨place, hholds⟩, -, hreaped⟩ := hends
    cases hexit
    cases hreaped
    refine ⟨hsound.record rfl rfl hholds.performed hcapacity ?_, fun h => absurd rfl h⟩
    exact ⟨nofun, nofun, nofun, ⟨fun _ => hpanics.mp rfl, fun _ => rfl⟩, fun _ => rfl⟩
  | waiting =>
    rw [hfate] at hends hpanics
    obtain ⟨hexit, ⟨place, hholds⟩, hreaped⟩ := hends
    cases hexit
    cases hreaped
    refine ⟨hsound.record rfl rfl hholds.performed hcapacity ?_, fun _ h => absurd rfl h⟩
    exact ⟨nofun, nofun, nofun, ⟨nofun, fun h => nomatch hpanics.mpr h⟩, nofun⟩

section Task

variable {α β : Type}

theorem keeps_pure (a : α) : Keeps kernel (pure a : Task α) :=
  fun _ hsound hidle => ⟨hsound, fun _ _ => hidle⟩

theorem keeps_fail (e : IoError) : Keeps kernel (fail e : Task α) :=
  fun _ hsound hidle => ⟨hsound, fun _ _ => hidle⟩

theorem keeps_unwind : Keeps kernel (unwind : Task α) :=
  fun _ hsound hidle => ⟨hsound, fun _ _ => hidle⟩

theorem keeps_files : Keeps kernel files :=
  fun _ hsound hidle => ⟨hsound, fun _ _ => hidle⟩

theorem keeps_setFile (path : String) (content : List UInt8) :
    Keeps kernel (setFile path content) :=
  fun _ hsound hidle => ⟨⟨hsound.calls, hsound.once, hsound.serials, hsound.capacity⟩,
    fun _ _ => ⟨hidle.queued, hidle.inflight, hidle.completed⟩⟩

theorem Task.bind_apply (task : Task α) (next : α → Task β) (thread : Worker) :
    (task >>= next) thread = match task thread with
      | (.ok a, thread') => next a thread'
      | (.err e, thread') => (.err e, thread')
      | (.panicked, thread') => (.panicked, thread')
      | (.waiting, thread') => (.waiting, thread') := rfl

theorem Keeps.bind {task : Task α} {next : α → Task β} (h : Keeps kernel task)
    (hnext : ∀ a, Keeps kernel (next a)) : Keeps kernel (task >>= next) := by
  intro thread hsound hidle
  have htask := h thread hsound hidle
  rw [Task.bind_apply]
  rcases hresult : task thread with ⟨a | e | _ | _, thread'⟩
  · rw [hresult] at htask
    exact hnext a thread' htask.1 (htask.2 nofun nofun)
  · rw [hresult] at htask
    exact ⟨htask.1, fun _ _ => htask.2 nofun nofun⟩
  · rw [hresult] at htask
    exact ⟨htask.1, fun h => absurd rfl h⟩
  · rw [hresult] at htask
    exact ⟨htask.1, fun _ h => absurd rfl h⟩

end Task

theorem keeps_openRead (path : String) (faults : Faults) : Keeps kernel (openRead path faults) := by
  unfold openRead
  cases faults.openFile with
  | some e => exact keeps_fail e
  | none =>
    refine keeps_files.bind fun found => ?_
    cases found path with
    | none => exact keeps_fail _
    | some content => exact keeps_pure _

theorem keeps_openWrite (path : String) (faults : Faults) :
    Keeps kernel (openWrite path faults) := by
  unfold openWrite
  cases faults.createDir with
  | some e => exact keeps_fail e
  | none =>
    cases faults.openFile with
    | some e => exact keeps_fail e
    | none => exact keeps_setFile path []

theorem keeps_readLoop (path : String) (start len : ℕ) (fuel : ℕ) :
    ∀ done buf, Keeps kernel (readLoop perform kernel path start len fuel done buf) := by
  induction fuel with
  | zero => exact fun _ buf => keeps_pure buf
  | succ fuel ih =>
    intro done buf
    rw [readLoop]
    split
    · refine (keeps_submitOne _).bind fun answer => ?_
      split
      · exact keeps_fail _
      · exact ih _ _
    · exact keeps_pure buf

theorem keeps_writeLoop (path : String) (data : List UInt8) (fuel : ℕ) :
    ∀ done, Keeps kernel (writeLoop perform kernel path data fuel done) := by
  induction fuel with
  | zero => exact fun _ => keeps_pure ()
  | succ fuel ih =>
    intro done
    rw [writeLoop]
    split
    · refine (keeps_submitOne _).bind fun answer => ?_
      split
      · exact keeps_fail _
      · exact ih _
    · exact keeps_pure ()

variable (perform) in
/-- A job leaves the ring as sound as it found it. -/
theorem keeps_serve (job : Job) : Keeps kernel (serve perform kernel job) := by
  cases job with
  | read path start stop faults =>
    refine Keeps.bind ((keeps_openRead path faults).bind fun _ => ?_) fun bytes => keeps_pure _
    show Keeps kernel (if 2 ^ 63 ≤ stop - start then unwind else _)
    split
    · exact keeps_unwind
    · exact keeps_readLoop path start _ _ _ _
  | write path data faults =>
    exact Keeps.bind ((keeps_openWrite path faults).bind fun _ => keeps_writeLoop path data _ _)
      fun _ => keeps_pure _

/-- **A run of jobs** keeps the records sound. -/
theorem worker_sound (jobs : List Job) :
    ∀ thread : Worker, thread.Sound kernel → thread.ring.Idle →
      (worker perform kernel jobs thread).2.Sound kernel := by
  induction jobs with
  | nil => exact fun _ hsound _ => hsound
  | cons job jobs ih =>
    intro thread hsound hidle
    have hserve := keeps_serve perform job thread hsound hidle
    rw [worker]
    rcases hresult : serve perform kernel job thread with ⟨reply | e | _ | _, thread'⟩
    · rw [hresult] at hserve
      exact ih thread' hserve.1 (hserve.2 nofun nofun)
    · rw [hresult] at hserve
      exact ih thread' hserve.1 (hserve.2 nofun nofun)
    · rw [hresult] at hserve
      exact hserve.1
    · rw [hresult] at hserve
      exact hserve.1

variable (kernel) in
theorem sound_new (entries : ℕ) (contents : Files) :
    (Worker.new entries contents).Sound kernel where
  calls := nofun
  once := nodup_nil
  serials := nofun
  capacity := Nat.lt_of_lt_of_le Nat.zero_lt_two (Nat.le_max_right _ _)

theorem worker_calls_sound (perform : Files → Op → C → Answer × Files)
    (kernel : ℕ → List (Round C)) (entries : ℕ) (contents : Files) (jobs : List Job) :
    (worker perform kernel jobs (.new entries contents)).2.Sound kernel :=
  worker_sound jobs _ (sound_new kernel entries contents) ⟨rfl, rfl, rfl⟩

/-- **Every io_uring result belongs to its own submission**, over every sequence of jobs and
every behaviour of the kernel: the completions a call reads are those of the entry it pushed,
what it returns is the kernel's answer to that entry, the kernel has answered no entry twice,
and no call ends in the branch for a foreign completion or finds the queue full. -/
theorem completions_own (perform : Files → Op → C → Answer × Files) (kernel : ℕ → List (Round C))
    (entries : ℕ) (contents : Files) (jobs : List Job) :
    let thread := (worker perform kernel jobs (.new entries contents)).2
    (∀ call ∈ thread.calls,
      (∀ answer, call.exit = .ok answer → (call.serial, answer) ∈ thread.ring.performed) ∧
      (∀ cqe ∈ call.reaped, cqe.serial = call.serial ∧ cqe.tag = call.tag) ∧
      (∀ carried tag, call.exit ≠ .err (outOfStep carried tag)) ∧ call.exit ≠ .err queueFull) ∧
    (thread.ring.performed.map Prod.fst).Nodup := by
  intro thread
  have hsound : thread.Sound kernel := worker_calls_sound perform kernel entries contents jobs
  refine ⟨fun call hmem => ?_, hsound.once⟩
  have hcall := hsound.calls call hmem
  refine ⟨fun answer hok => ?_, fun cqe hcqe => ?_, fun carried tag herr => ?_, fun herr => ?_⟩
  · have hreaped := hcall.ok answer hok
    exact (hcall.own _ (hreaped ▸ mem_singleton.mpr rfl)).2.2
  · exact ⟨(hcall.own cqe hcqe).1, (hcall.own cqe hcqe).2.1⟩
  · obtain ⟨code, heq⟩ := (hcall.err _ herr).1
    cases heq
  · obtain ⟨code, heq⟩ := (hcall.err _ herr).1
    cases heq

/-- **When no buffer is given up while the kernel may still use it**: over every sequence of
jobs and every behaviour of the kernel, control leaves a call of `submit_one` with the
completion of its entry in hand exactly when the entry does not starve. -/
theorem leaves_reaped_iff (perform : Files → Op → C → Answer × Files)
    (kernel : ℕ → List (Round C)) (entries : ℕ) (contents : Files) (jobs : List Job) :
    ∀ call ∈ (worker perform kernel jobs (.new entries contents)).2.calls,
      ((call.exit ≠ .waiting →
          ∃ answer, call.reaped = [⟨call.tag, call.serial, answer⟩]) ↔
        ¬ Starves (kernel call.serial)) := by
  intro call hmem
  have hcall := (worker_calls_sound perform kernel entries contents jobs).calls call hmem
  rw [← hcall.panicked]
  refine ⟨fun h hpanicked => ?_, fun hnot hleaves => ?_⟩
  · obtain ⟨answer, hreaped⟩ := h (by rw [hpanicked]; exact nofun)
    rw [hcall.reaped_nil hpanicked] at hreaped
    cases hreaped
  · cases hexit : call.exit with
    | ok answer => exact ⟨answer, hcall.ok answer hexit⟩
    | err e => exact (hcall.err e hexit).2
    | panicked => exact absurd hexit hnot
    | waiting => exact absurd hexit hleaves

/-- A device that answers one byte to everything. -/
def oneByte (contents : Files) (_ : Op) (_ : Unit) : Answer × Files := (⟨1, [0]⟩, contents)

/-- A kernel that takes the entry and fails every wait without completing it. -/
def stubborn (_ : ℕ) : List (Round Unit) :=
  ⟨1, [], .failed 16⟩ :: replicate 1023 ⟨0, [], .failed 16⟩

/-- The thread unwinds out of `submit_one` with the entry in flight. -/
theorem entry_left_in_flight :
    let thread := (worker oneByte stubborn [.read "f" 0 1] (.new 2 fun _ => some [0])).2
    thread.calls.map Call.exit = [.panicked] ∧ thread.ring.inflight.length = 1 ∧
      thread.ring.performed = [] := by
  decide +kernel

/-- A kernel that is interrupted once and then completes the entry. -/
def prompt (_ : ℕ) : List (Round Unit) := [⟨1, [], .interrupted⟩, ⟨0, [(0, ())], .ok⟩]

theorem leaves_reaped_iff_prompt :
    ∃ call, call ∈ (worker oneByte prompt [.read "f" 0 1] (.new 2 fun _ => some [0])).2.calls ∧
      ((call.exit ≠ .waiting → ∃ answer, call.reaped = [⟨call.tag, call.serial, answer⟩]) ↔
        ¬ Starves (prompt call.serial)) :=
  ⟨⟨1, 0, [⟨1, 0, ⟨1, [0]⟩⟩], .ok ⟨1, [0]⟩⟩, mem_singleton.mpr rfl,
    leaves_reaped_iff oneByte prompt 2 (fun _ => some [0]) [.read "f" 0 1] _
      (mem_singleton.mpr rfl)⟩

end Uring

end OxideLake

import OxideLake.Compute.Operator

/-!
# Column plumbing

The sub-batch a kernel sees and the batch the caller handed in use two different
column numberings.  This module relates them: what a sub-batch holds (`Cut`), what
a remapped predicate and a remapped projection read from it, and how the operator
puts device columns and host gathers back together.  The conclusion is that
`filter_project`, `aggregate` and `vector_distance` return the reference's columns
on every backend that, sub-batch by sub-batch, declines or agrees with the
reference.
-/

namespace OxideLake

open List Partial RecordBatch Kernels

variable {batch sub : RecordBatch} {c k : Nat} {plan : SidePlan} {cols : List Nat}
  {entries planned : List (Field × Column)} {projected : List (Nat × Bool)} {predicate : Predicate}

/-! ## Column lists -/

theorem mem_pushUnique {index : Nat} :
    c ∈ pushUnique cols index ↔ c ∈ cols ∨ c = index := by
  unfold pushUnique
  split
  · next h =>
    constructor
    · exact Or.inl
    · rintro (hc | rfl)
      · exact hc
      · exact h
  · simp

theorem mem_foldl_pushUnique {new : List Nat} :
    c ∈ new.foldl pushUnique cols ↔ c ∈ cols ∨ c ∈ new := by
  induction new generalizing cols with
  | nil => simp
  | cons index new ih =>
    rw [foldl_cons, ih, mem_pushUnique, mem_cons]
    tauto

theorem mem_dedupRuns : c ∈ dedupRuns cols ↔ c ∈ cols := by
  induction cols using dedupRuns.induct with
  | case1 a rest ih =>
    rw [dedupRuns, if_pos rfl, ih]
    simp
  | case2 a b rest hne ih =>
    rw [dedupRuns, if_neg hne, mem_cons, ih, mem_cons (b := a)]
  | case3 cols h =>
    rw [dedupRuns]
    exact h

namespace SidePlan

theorem getElem?_of_position (h : plan.position c = some k) :
    plan.deviceCols[k]? = some c := by
  obtain ⟨hk, hget, -⟩ := idxOf?_eq_some_iff.mp h
  rw [getElem?_eq_getElem hk, hget]

theorem exists_position (h : c ∈ plan.deviceCols) :
    ∃ k, plan.position c = some k :=
  Option.isSome_iff_exists.mp (isSome_idxOf?.mpr h)

end SidePlan

/-! ## Cutting a sub-batch -/

/-- `sub` is the sub-batch `plan` cuts from `batch`: the planned entries in plan
order, then the row ids when the plan asks for them. -/
structure Cut (plan : SidePlan) (batch sub : RecordBatch) : Prop where
  entries : ∃ planned, plan.deviceCols.mapM (fun c => batch.entries[c]?) = some planned ∧
    sub.entries = planned ++ plan.rowIdEntry batch.numRows
  numRows : sub.numRows = batch.numRows

theorem fieldAt_columnAt (batch : RecordBatch) (index : Nat) :
    (do
      let field ← fieldAt batch.schema index
      let column ← columnAt batch index
      pure (field, column) : Result (Field × Column)) =
    match batch.entries[index]? with
      | some entry => .ok entry
      | none => .error (columnOutOfRange index batch.numColumns) := by
  rw [fieldAt, fields_getElem?, RecordBatch.length_schema_fields]
  cases h : batch.entries[index]? with
  | none => rfl
  | some entry => simp [columnAt, columns_getElem?, h, pure, Except.pure]

theorem mapM_planned_iff :
    (cols.mapM fun index => (do
      let field ← fieldAt batch.schema index
      let column ← columnAt batch index
      pure (field, column) : Result (Field × Column))) = .ok planned ↔
    cols.mapM (fun c => batch.entries[c]?) = some planned := by
  rw [mapM_eq_ok_iff, mapM_eq_some_iff]
  have h : ∀ (index : Nat) (entry : Field × Column),
      (do
        let field ← fieldAt batch.schema index
        let column ← columnAt batch index
        pure (field, column) : Result (Field × Column)) = .ok entry ↔
      batch.entries[index]? = some entry := by
    intro index entry
    rw [fieldAt_columnAt]
    cases batch.entries[index]? with
    | none | some e => simp
  simp only [h]

theorem planned_fits (h : plan.deviceCols.mapM (fun c => batch.entries[c]?) = some planned) :
    ∀ entry ∈ planned ++ plan.rowIdEntry batch.numRows,
      FieldFits batch.numRows entry.1 entry.2 := by
  intro entry hentry
  rcases mem_append.mp hentry with hentry | hentry
  · obtain ⟨c, -, hc⟩ := mapM_some_mem h hentry
    exact batch.fits entry (mem_of_getElem? hc)
  · unfold SidePlan.rowIdEntry at hentry
    split at hentry
    · cases mem_singleton.mp hentry
      refine ⟨rfl, by simp [SidePlan.rowIdColumn], fun _ hnone => ?_⟩
      simp [SidePlan.rowIdColumn, Column.ofInt64] at hnone
    · cases hentry

theorem subBatch_eq_ok (plan : SidePlan)
    (h : plan.deviceCols.mapM (fun c => batch.entries[c]?) = some planned)
    (hne : plan.deviceCols ≠ []) :
    ∃ sub, plan.subBatch batch = .ok sub ∧ Cut plan batch sub := by
  have hfits := planned_fits h
  have hall : planned ++ plan.rowIdEntry batch.numRows ≠ [] := by
    intro hnil
    have hlen := mapM_some_length h
    rw [(append_eq_nil_iff.mp hnil).1] at hlen
    exact hne (length_eq_zero_iff.mp hlen.symm)
  refine ⟨⟨[], planned ++ plan.rowIdEntry batch.numRows, batch.numRows, hfits,
    batch.numRows_lt⟩, ?_, ⟨⟨planned, h, rfl⟩, rfl⟩⟩
  rw [SidePlan.subBatch, mapM_planned_iff.mpr h, ok_bind]
  exact tryNew_eq_ok [] hall hfits batch.numRows_lt

theorem exists_cut (hne : plan.deviceCols ≠ [])
    (hinside : ∀ c ∈ plan.deviceCols, c < batch.numColumns) :
    ∃ sub, plan.subBatch batch = .ok sub ∧ Cut plan batch sub := by
  obtain ⟨planned, hplanned⟩ := mapM_getElem?_eq_some.mpr hinside
  exact subBatch_eq_ok plan hplanned hne

theorem cut_of_subBatch (h : plan.subBatch batch = .ok sub) (hne : plan.deviceCols ≠ []) :
    Cut plan batch sub := by
  obtain ⟨planned, hplanned, -⟩ := bind_eq_ok_iff.mp h
  obtain ⟨sub', hsub', hcut⟩ := subBatch_eq_ok plan (mapM_planned_iff.mp hplanned) hne
  rw [h] at hsub'
  cases hsub'
  exact hcut

theorem subBatch_error (plan : SidePlan) (hc : c ∈ plan.deviceCols)
    (hrange : batch.numColumns ≤ c) :
    ∃ e, plan.subBatch batch = .error e := by
  cases h : plan.subBatch batch with
  | error e => exact ⟨e, rfl⟩
  | ok sub =>
    obtain ⟨planned, hplanned, -⟩ := bind_eq_ok_iff.mp h
    obtain ⟨entry, hentry⟩ := mapM_some_of_mem (mapM_planned_iff.mp hplanned) hc
    have hlt := (List.getElem?_eq_some_iff.mp hentry).1
    exact absurd hlt (Nat.not_lt.mpr hrange)

namespace Cut

variable {plan : SidePlan} {batch sub : RecordBatch}

section

variable (cut : Cut plan batch sub)
include cut

theorem entry_at (h : plan.position c = some k) :
    sub.entries[k]? = batch.entries[c]? := by
  obtain ⟨planned, hplanned, hsub⟩ := cut.entries
  have hcol := SidePlan.getElem?_of_position h
  have hk : k < planned.length := by
    rw [mapM_some_length hplanned]
    exact (List.getElem?_eq_some_iff.mp hcol).1
  rw [hsub, List.getElem?_append_left hk, mapM_some_getElem? hplanned, hcol]
  rfl

theorem rowIds_at (h : plan.rowIdPosition = some k) :
    sub.entries[k]? =
      some (⟨rowIdName, .int64, false, []⟩, SidePlan.rowIdColumn batch.numRows) := by
  obtain ⟨planned, hplanned, hsub⟩ := cut.entries
  unfold SidePlan.rowIdPosition at h
  split at h
  · next hids =>
    cases h
    rw [hsub, ← mapM_some_length hplanned, getElem?_append_right le_rfl]
    simp [SidePlan.rowIdEntry, hids]
  · cases h

theorem column_at (h : plan.position c = some k) :
    sub.columns[k]? = batch.columns[c]? := by
  rw [columns_getElem?, columns_getElem?, cut.entry_at h]

theorem width_eq : sub.numColumns = plan.width := by
  obtain ⟨planned, hplanned, hsub⟩ := cut.entries
  rw [RecordBatch.numColumns, hsub, length_append, mapM_some_length hplanned,
    SidePlan.width, SidePlan.rowIdEntry]
  cases plan.rowIds <;> rfl

theorem entry_getD (h : c ∈ plan.deviceCols) :
    sub.entries[(plan.position c).getD 0]? = batch.entries[c]? := by
  obtain ⟨k, hk⟩ := SidePlan.exists_position h
  rw [hk, Option.getD_some, cut.entry_at hk]

end

end Cut

/-! ## Two computations with the same outcome -/

/-- Both computations return the same value, or both fail. -/
def SameOutcome {α : Type} : Result α → Result α → Prop
  | .ok a, .ok b => a = b
  | .error _, .error _ => True
  | _, _ => False

namespace SameOutcome

variable {α β : Type} {x y : Result α}

theorem ok_left {a : α} (h : SameOutcome (.ok a) y) : y = .ok a := by
  cases y with
  | error e => exact h.elim
  | ok b => exact congrArg Except.ok (Eq.symm h)

theorem ok_right {a : α} (h : SameOutcome x (.ok a)) : x = .ok a := by
  cases x with
  | error e => exact h.elim
  | ok b => exact congrArg Except.ok h

theorem error_left {e : EngineError} (h : SameOutcome (.error e) y) : ∃ e', y = .error e' := by
  cases y with
  | error e' => exact ⟨e', rfl⟩
  | ok b => exact h.elim

theorem bind {f g : α → Result β} (h : SameOutcome x y)
    (hfg : ∀ a, SameOutcome (f a) (g a)) : SameOutcome (x >>= f) (y >>= g) := by
  cases x with
  | error e =>
    obtain ⟨e', rfl⟩ := h.error_left
    trivial
  | ok a =>
    cases h.ok_left
    exact hfg a

theorem refl (x : Result α) : SameOutcome x x := by
  cases x with
  | error e => trivial
  | ok a => rfl

theorem mapM {ι : Type} {f g : ι → Result α} {xs : List ι}
    (h : ∀ x ∈ xs, SameOutcome (f x) (g x)) : SameOutcome (xs.mapM f) (xs.mapM g) := by
  induction xs with
  | nil => exact refl _
  | cons x xs ih =>
    rw [mapM_cons, mapM_cons]
    exact (h x mem_cons_self).bind fun _ =>
      (ih fun y hy => h y (mem_cons_of_mem _ hy)).bind fun _ => refl _

end SameOutcome

/-! ## Predicates over a sub-batch -/

/-- A remapped predicate evaluates on the sub-batch as the original does on the
batch. -/
theorem evaluatePredicate_remap (cut : Cut plan batch sub) {remapped : Predicate}
    (h : remapPredicate plan predicate = .ok remapped) :
    SameOutcome (evaluatePredicate sub remapped)
      (evaluatePredicate batch predicate) := by
  induction predicate generalizing remapped with
  | compare c op literal =>
    rw [remapPredicate] at h
    split at h
    · next k hk =>
      cases h
      rw [evaluatePredicate, evaluatePredicate, Kernels.column,
        Kernels.column, cut.column_at hk]
      cases batch.columns[c]? with
      | none => trivial
      | some col =>
        simp only [ok_bind]
        split
        · exact rfl
        · trivial
    · cases h
  | and left right ihLeft ihRight =>
    rw [remapPredicate] at h
    obtain ⟨l, hl, h⟩ := bind_eq_ok_iff.mp h
    obtain ⟨r, hr, h⟩ := bind_eq_ok_iff.mp h
    cases h
    rw [evaluatePredicate, evaluatePredicate]
    exact (ihLeft hl).bind fun _ => (ihRight hr).bind fun _ => rfl

theorem remapPredicate_eq_ok (plan : SidePlan) (h : ∀ c ∈ predicate.columns, c ∈ plan.deviceCols) :
    ∃ remapped, remapPredicate plan predicate = .ok remapped := by
  induction predicate with
  | compare c op literal =>
    obtain ⟨k, hk⟩ := SidePlan.exists_position (h c (mem_singleton.mpr rfl))
    exact ⟨_, by rw [remapPredicate, hk]⟩
  | and left right ihLeft ihRight =>
    obtain ⟨l, hl⟩ := ihLeft fun c hc => h c (mem_append_left _ hc)
    obtain ⟨r, hr⟩ := ihRight fun c hc => h c (mem_append_right _ hc)
    exact ⟨.and l r, by rw [remapPredicate, hl, hr]; rfl⟩

theorem evaluatePredicate_columns_lt {mask : List (Option Bool)}
    (h : evaluatePredicate batch predicate = .ok mask) :
    ∀ c ∈ predicate.columns, c < batch.numColumns := by
  induction predicate generalizing mask with
  | compare c op literal =>
    intro c' hc'
    cases mem_singleton.mp hc'
    rw [evaluatePredicate, Kernels.column] at h
    cases hcol : batch.columns[c]? with
    | none => rw [hcol] at h; cases h
    | some col => simpa using (List.getElem?_eq_some_iff.mp hcol).1
  | and left right ihLeft ihRight =>
    rw [evaluatePredicate] at h
    obtain ⟨l, hl, h⟩ := bind_eq_ok_iff.mp h
    obtain ⟨r, hr, -⟩ := bind_eq_ok_iff.mp h
    intro c hc
    rcases mem_append.mp hc with hc | hc
    · exact ihLeft hl c hc
    · exact ihRight hr c hc

/-! ## Host gathers -/

theorem rowIdColumn_gather {n : Nat} {indices : List Nat} (h : ∀ i ∈ indices, i < n) :
    ((SidePlan.rowIdColumn n).gather (indices.map some)).int64s =
      indices.map fun i => some (Int64.ofNat i) := by
  simp only [Column.int64s, Column.gather, map_map]
  refine map_congr_left fun i hi => ?_
  simp [SidePlan.rowIdColumn, Column.cell, Column.ofInt64, h i hi, Cell.int64?]

theorem rowIndex_ofNat {i : Nat} (h : i < 2 ^ 63) :
    rowIndex (some (Int64.ofNat i)) = .ok (some i) := by
  have hint : (Int64.ofNat i).toInt = (i : Int) := Int64.toInt_ofNat_of_lt h
  rw [rowIndex, hint, if_pos (Int.natCast_nonneg i), Int.toNat_natCast]

theorem takeRows_gather {column : Column} {n : Nat} (hlen : column.len = n) (hn : n < 2 ^ 63)
    {indices : List Nat} (h : ∀ i ∈ indices, i < n) :
    takeRows column ((SidePlan.rowIdColumn n).gather (indices.map some)) =
      .ok (column.gather (indices.map some)) := by
  have hint : ((SidePlan.rowIdColumn n).gather (indices.map some)).dataType = .int64 := rfl
  have hindices : ((SidePlan.rowIdColumn n).gather (indices.map some)).int64s.mapM rowIndex =
      .ok (indices.map some) := by
    rw [rowIdColumn_gather h, mapM_map]
    exact mapM_eq_ok_map fun i hi => rowIndex_ofNat ((h i hi).trans hn)
  rw [takeRows, if_pos hint, hindices, ok_bind]
  apply Column.take_eq_gather
  intro i hi
  obtain ⟨j, hj, hji⟩ := mem_map.mp hi
  cases hji
  exact hlen ▸ h _ hj

theorem takeRows_filter {column : Column} {n : Nat} (hlen : column.len = n)
    (hn : n < 2 ^ 63) (mask : List (Option Bool)) :
    takeRows column ((SidePlan.rowIdColumn n).filter mask) = .ok (column.filter mask) := by
  have hids : (SidePlan.rowIdColumn n).len = n := by simp [SidePlan.rowIdColumn]
  rw [Column.filter_eq_gather, Column.filter_eq_gather, hids, hlen]
  exact takeRows_gather hlen hn fun i hi => mem_range.mp (mem_of_mem_keep hi)

/-! ## Projections, out and back -/

/-- `entries` are the batch's entries at the projected columns. -/
def Projects (batch : RecordBatch) (projected : List (Nat × Bool))
    (entries : List (Field × Column)) : Prop :=
  List.Forall₂ (fun entry out => batch.entries[entry.1]? = some out) projected entries

/-- The entries whose column travels to the device. -/
def deviceEntries (projected : List (Nat × Bool)) (entries : List (Field × Column)) :
    List (Field × Column) :=
  ((projected.zip entries).filter fun pair => pair.1.2).map Prod.snd

theorem Projects.lt_numColumns (h : Projects batch projected entries) {entry : Nat × Bool}
    (hentry : entry ∈ projected) : entry.1 < batch.numColumns := by
  induction h with
  | nil => cases hentry
  | cons hout _ ih =>
    rcases List.mem_cons.mp hentry with rfl | hentry
    · exact (List.getElem?_eq_some_iff.mp hout).1
    · exact ih hentry

theorem devProjection_spec (cut : Cut plan batch sub) (hproj : Projects batch projected entries)
    (hplan : ∀ entry ∈ projected, entry.2 = true → entry.1 ∈ plan.deviceCols) :
    ∃ devCols, GpuBackend.devProjection plan projected = .ok devCols ∧
      devCols.mapM (fun k => sub.entries[k]?) =
        some (deviceEntries projected entries ++ plan.rowIdEntry batch.numRows) := by
  induction hproj with
  | nil =>
    refine ⟨_, rfl, ?_⟩
    cases hids : plan.rowIds with
    | false => simp [SidePlan.rowIdPosition, SidePlan.rowIdEntry, deviceEntries, hids]
    | true =>
      have hat := cut.rowIds_at (by rw [SidePlan.rowIdPosition, if_pos hids])
      simp [SidePlan.rowIdPosition, SidePlan.rowIdEntry, deviceEntries, hids, hat]
  | @cons entry out projected entries hentry _ ih =>
    obtain ⟨devCols, hdev, hread⟩ := ih fun e he => hplan e (mem_cons_of_mem _ he)
    obtain ⟨i, eligible⟩ := entry
    cases eligible with
    | false => exact ⟨devCols, hdev, hread⟩
    | true =>
      obtain ⟨k, hk⟩ := SidePlan.exists_position (hplan _ mem_cons_self rfl)
      refine ⟨k :: devCols, by simp [GpuBackend.devProjection, hk, hdev], ?_⟩
      rw [mapM_cons, hread, cut.entry_at hk, hentry]
      rfl

/-- Reassembly restores projection order: from device outputs that are the
filtered device entries, and row ids that are the kept positions, every projected
entry comes back filtered. -/
theorem reassemble_spec {devOut : RecordBatch} {rowIds : Option Column} {mask : List (Option Bool)}
    {tail : List Column} (nextDevice : Nat) (hproj : Projects batch projected entries)
    (hids : (∃ entry ∈ projected, entry.2 = false) →
      rowIds = some ((SidePlan.rowIdColumn batch.numRows).filter mask))
    (hdev : devOut.columns.drop nextDevice =
      (deviceEntries projected entries).map (fun entry => entry.2.filter mask) ++ tail) :
    GpuBackend.reassemble batch devOut rowIds nextDevice projected =
      .ok (entries.map fun entry => (entry.1, entry.2.filter mask)) := by
  induction hproj generalizing nextDevice with
  | nil => rfl
  | @cons entry out projected entries hentry _ ih =>
    obtain ⟨i, eligible⟩ := entry
    have hids' : (∃ entry ∈ projected, entry.2 = false) →
        rowIds = some ((SidePlan.rowIdColumn batch.numRows).filter mask) :=
      fun ⟨e, he, hfalse⟩ => hids ⟨e, mem_cons_of_mem _ he, hfalse⟩
    have hfield : fieldAt batch.schema i = .ok out.1 := by
      rw [fieldAt, fields_getElem?, hentry]
      rfl
    rw [GpuBackend.reassemble, hfield, ok_bind]
    cases eligible with
    | true =>
      have hhead : devOut.columns[nextDevice]? = some (out.2.filter mask) := by
        have h := congrArg List.head? hdev
        rwa [head?_drop] at h
      have hrest : devOut.columns.drop (nextDevice + 1) =
          (deviceEntries projected entries).map (fun entry => entry.2.filter mask) ++
            tail := by
        have h := congrArg List.tail hdev
        rwa [tail_drop] at h
      rw [if_pos rfl, columnAt, hhead, ok_bind, ih (nextDevice + 1) hids' hrest]
      rfl
    | false =>
      have hcol : batch.columns[i]? = some out.2 := by
        rw [columns_getElem?, hentry]
        rfl
      have hlen := column_len (mem_of_getElem? hcol)
      rw [if_neg Bool.false_ne_true, hids ⟨_, mem_cons_self, rfl⟩]
      dsimp only
      rw [← hids ⟨_, mem_cons_self, rfl⟩, columnAt, hcol, ok_bind,
        takeRows_filter hlen batch.numRows_lt, ok_bind, ih nextDevice hids' hdev]
      rfl

theorem projected_of_mapM {projection : List Nat}
    (h : projection.mapM (fun i => batch.entries[i]?) = some entries) :
    ∃ projected, (projection.mapM fun i => (do
        let field ← fieldAt batch.schema i
        pure (i, deviceEligible field.dataType) : Result (Nat × Bool))) =
        .ok projected ∧ Projects batch projected entries := by
  have hforall := mapM_eq_some_iff.mp h
  clear h
  induction hforall with
  | nil => exact ⟨[], rfl, .nil⟩
  | @cons i entry projection entries hentry _ ih =>
    obtain ⟨projected, hok, hproj⟩ := ih
    refine ⟨(i, deviceEligible entry.1.dataType) :: projected, ?_, .cons hentry hproj⟩
    have hfield : fieldAt batch.schema i = .ok entry.1 := by
      rw [fieldAt, fields_getElem?, hentry]
      rfl
    rw [mapM_cons, hok, hfield]
    rfl

theorem mapM_of_projected {projection : List Nat} (h : (projection.mapM fun i => (do
        let field ← fieldAt batch.schema i
        pure (i, deviceEligible field.dataType) : Result (Nat × Bool))) =
        .ok projected) :
    ∃ entries, projection.mapM (fun i => batch.entries[i]?) = some entries := by
  rw [mapM_getElem?_eq_some]
  intro i hi
  obtain ⟨entry, hentry⟩ := mapM_ok_of_mem h hi
  rw [fieldAt, fields_getElem?] at hentry
  cases hget : batch.entries[i]? with
  | none => rw [hget] at hentry; cases hentry
  | some out => exact (List.getElem?_eq_some_iff.mp hget).1

end OxideLake

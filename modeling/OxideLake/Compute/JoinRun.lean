import OxideLake.Compute.Conformance
import OxideLake.Device.JoinTable

/-!
# A join operator over a run of probe batches

`GpuHashJoinExec` sends every probe batch of a partition through one operator,
with one build side and one projection.  The first batch that reaches the device
uploads the build sub-batch; later ones reuse it.  A batch the backend declines
runs on the CPU reference.

The result is that the mix does not show: for every run, each batch comes back with
the reference's fields and the reference's rows, in probe order, up to the order of
the matches of one probe row.  The step invariant is `Cached`: what the write-once
cell holds is the build side, cut by the plan every batch of the run uses.
-/

namespace OxideLake

open List EquiJoin Partial RecordBatch Kernels SidePlan

variable {D : Type} {order : MapOrder}

variable {left out right sub : RecordBatch} {leftKey : Nat} {projection : Option (List Nat)}
  {state : OperatorState D} {plan start : SidePlan} {build : JoinBuild order} {plans : JoinPlans}
  {selected : List Nat} {leftKeys rightKeys : Int64Array} {pairs : List (Nat × Nat)}
  {schema : Schema}

/-! ## Joined columns and rows -/

/-- Output column `c` of the join of `left` and `right` along `pairs`. -/
def joinedEntry (left right : RecordBatch) (pairs : List (Nat × Nat)) (c : Nat) :
    Option (Field × Column) :=
  if c < left.numColumns then
    (left.entries[c]?).map fun entry => (entry.1, entry.2.gather ((pairs.map Prod.fst).map some))
  else
    (right.entries[c - left.numColumns]?).map fun entry =>
      (entry.1, entry.2.gather ((pairs.map Prod.snd).map some))

/-- The selected cells of a left row next to a right row. -/
def joinedRow (left right : RecordBatch) (selected : List Nat) (pair : Nat × Nat) :
    List (Option Cell) :=
  selected.map fun c =>
    if c < left.numColumns then ((left.row pair.1)[c]?).join
    else ((right.row pair.2)[c - left.numColumns]?).join

/-- `out` is the join of `left` and `right` along `pairs`: the selected fields and
one joined row a pair. -/
structure JoinsAlong (left right : RecordBatch) (selected : List Nat)
    (pairs : List (Nat × Nat)) (out : RecordBatch) : Prop where
  fields : selected.mapM (fun c => (left.schema.fields ++ right.schema.fields)[c]?) =
    some out.schema.fields
  rows : out.rows = pairs.map (joinedRow left right selected)

theorem row_getElem?_join (batch : RecordBatch) (i c : Nat) :
    ((batch.row i)[c]?).join = (batch.entries[c]?).bind fun entry => entry.2.cell i := by
  rw [RecordBatch.row, getElem?_map, columns_getElem?]
  cases batch.entries[c]? <;> rfl

theorem joinsAlong_of_entries (h : selected.mapM (joinedEntry left right pairs) = some out.entries)
    (hrows : out.numRows = pairs.length) : JoinsAlong left right selected pairs out := by
  rw [mapM_eq_some_iff] at h
  have hfield : ∀ c entry, joinedEntry left right pairs c = some entry →
      (left.schema.fields ++ right.schema.fields)[c]? = some entry.1 := by
    intro c entry hentry
    rw [getElem?_append, RecordBatch.length_schema_fields]
    unfold joinedEntry at hentry
    split at hentry
    · next hc =>
      obtain ⟨e, he, rfl⟩ := Option.map_eq_some_iff.mp hentry
      rw [if_pos hc, fields_getElem?, he]
      rfl
    · next hc =>
      obtain ⟨e, he, rfl⟩ := Option.map_eq_some_iff.mp hentry
      rw [if_neg hc, fields_getElem?, he]
      rfl
  have hcell : ∀ c entry, joinedEntry left right pairs c = some entry → ∀ n (hn : n < pairs.length),
      entry.2.cell n = if c < left.numColumns then ((left.row (pairs[n]).1)[c]?).join
        else ((right.row (pairs[n]).2)[c - left.numColumns]?).join := by
    intro c entry hentry n hn
    rw [row_getElem?_join, row_getElem?_join]
    unfold joinedEntry at hentry
    split at hentry
    · next hc =>
      obtain ⟨e, he, rfl⟩ := Option.map_eq_some_iff.mp hentry
      rw [if_pos hc, he]
      simp [Column.cell, Column.gather, hn]
    · next hc =>
      obtain ⟨e, he, rfl⟩ := Option.map_eq_some_iff.mp hentry
      rw [if_neg hc, he]
      simp [Column.cell, Column.gather, hn]
  constructor
  · have hout : out.schema.fields = out.entries.map Prod.fst := rfl
    rw [mapM_eq_some_iff, hout, forall₂_map_right_iff]
    exact h.imp fun c entry => hfield c entry
  · apply ext_getElem
    · simp [hrows]
    · intro n hn hn'
      have hlt : n < pairs.length := by simpa using hn'
      have hrow : out.rows[n] = out.entries.map fun entry => entry.2.cell n := by
        simp [RecordBatch.rows, RecordBatch.row, RecordBatch.columns, Function.comp_def]
      rw [hrow, getElem_map, joinedRow, ← forall₂_eq_eq_eq,
        forall₂_map_left_iff, forall₂_map_right_iff]
      exact (h.imp fun c entry hentry => hcell c entry hentry n hlt).flip

/-! ## The reference -/

variable {entry : Field × Column}

theorem joinColumn_ok {c : Nat} (h : joinColumn left right pairs c = .ok entry) :
    joinedEntry left right pairs c = some entry := by
  unfold joinColumn at h
  split at h
  · cases h
  · next field column hget =>
    obtain ⟨array, harray, h⟩ := bind_eq_ok_iff.mp h
    cases h
    rw [getElem?_append] at hget
    rw [joinedEntry, Column.take_ok harray, map_map, map_map]
    by_cases hc : c < left.numColumns
    · rw [if_pos (by exact hc)] at hget
      rw [if_pos hc, if_pos hc, hget]
      rfl
    · rw [if_neg (by exact hc)] at hget
      rw [if_neg hc, if_neg hc, RecordBatch.numColumns, hget]
      rfl

theorem numRows_of_joined (hne : out.entries ≠ [])
    (h : selected.mapM (joinedEntry left right pairs) = some out.entries) :
    out.numRows = pairs.length := by
  obtain ⟨entry, hentry⟩ := exists_mem_of_ne_nil _ hne
  obtain ⟨c, -, hc⟩ := mapM_some_mem h hentry
  rw [← (out.fits entry hentry).2.1]
  unfold joinedEntry at hc
  split at hc
  · obtain ⟨e, -, rfl⟩ := Option.map_eq_some_iff.mp hc
    simp
  · obtain ⟨e, -, rfl⟩ := Option.map_eq_some_iff.mp hc
    simp

/-- What the reference asks of a call: two key columns, and selected columns that exist. -/
structure JoinCallFits (left : RecordBatch) (build : JoinBuild order) (leftKey : Nat)
    (projection : Option (List Nat)) (leftKeys rightKeys : Int64Array) : Prop where
  probeKeys : int64Column left leftKey "left join key" = .ok leftKeys
  buildKeys : int64Column build.batch build.key "build join key" = .ok rightKeys
  ne_nil : selectedColumns left build.batch projection ≠ []
  selected : ∀ c ∈ selectedColumns left build.batch projection,
    c < left.numColumns + build.batch.numColumns

/-- **The reference** returns the nested-loop join of a call that fits. -/
theorem hashJoinProbe_joinsAlong {ref : RecordBatch}
    (h : hashJoinProbe left leftKey build.batch build.table projection = .ok ref) :
    ∃ leftKeys rightKeys, JoinCallFits left build leftKey projection leftKeys rightKeys ∧
      JoinsAlong left build.batch (selectedColumns left build.batch projection)
        (nestedLoop leftKeys rightKeys) ref := by
  obtain ⟨rightKeys, hright, hmatch⟩ := JoinTable.build_matching build.built
  obtain ⟨leftKeys, hleft, h⟩ := bind_eq_ok_iff.mp h
  obtain ⟨pairs, hpairs, h⟩ := bind_eq_ok_iff.mp h
  obtain ⟨entries, hentries, h⟩ := bind_eq_ok_iff.mp h
  rw [JoinTable.probePairs_eq hmatch hpairs] at hentries
  obtain ⟨rfl, hne⟩ := RecordBatch.tryNew_entries h
  have hjoined : (selectedColumns left build.batch projection).mapM
      (joinedEntry left build.batch (nestedLoop leftKeys rightKeys)) = some ref.entries :=
    mapM_eq_some_iff.mpr
      ((mapM_eq_ok_iff.mp hentries).imp fun c entry => joinColumn_ok)
  have hjoins := joinsAlong_of_entries hjoined (numRows_of_joined hne hjoined)
  refine ⟨leftKeys, rightKeys, ⟨hleft, hright, fun hnil => ?_, fun c hc => ?_⟩, hjoins⟩
  · rw [hnil] at hentries
    exact hne (Except.ok.inj hentries).symm
  · obtain ⟨field, hfield⟩ := mapM_some_of_mem hjoins.fields hc
    simpa using (List.getElem?_eq_some_iff.mp hfield).1

/-! ## Side plans -/

namespace OperatorState

/-- What one side's plan carries: it grows from `start`, by selected columns only,
and every selected column is on the device or covered by row ids. -/
structure PlanGrows (start : SidePlan) (selected : List Nat) (plan : SidePlan) : Prop where
  extends_start : ∃ pushed, plan.deviceCols = start.deviceCols ++ pushed
  mem : ∀ c ∈ plan.deviceCols, c ∈ start.deviceCols ∨ c ∈ selected
  rowIds : start.rowIds = true → plan.rowIds = true
  covered : ∀ c ∈ selected, c ∈ plan.deviceCols ∨ plan.rowIds = true

theorem pushUnique_append (cols : List Nat) (index : Nat) :
    ∃ pushed, pushUnique cols index = cols ++ pushed := by
  unfold pushUnique
  split
  · exact ⟨[], (append_nil _).symm⟩
  · exact ⟨[index], rfl⟩

/-- **One column** of a plan. -/
theorem planColumn_grows {index : Nat} (h : planColumn schema start index = .ok plan) :
    PlanGrows start [index] plan := by
  obtain ⟨field, -, h⟩ := bind_eq_ok_iff.mp h
  cases h
  split
  · refine ⟨pushUnique_append _ _, fun c hc => ?_, id, fun c hc => .inl ?_⟩
    · rw [mem_singleton]
      exact mem_pushUnique.mp hc
    · exact mem_pushUnique.mpr (.inr (mem_singleton.mp hc))
  · exact ⟨⟨[], (append_nil _).symm⟩, fun c hc => .inl hc, fun _ => rfl, fun c _ => .inr rfl⟩

theorem PlanGrows.trans {mid : SidePlan} {selected' : List Nat} (h : PlanGrows start selected mid)
    (h' : PlanGrows mid selected' plan) :
    PlanGrows start (selected ++ selected') plan := by
  obtain ⟨pushed, hpushed⟩ := h.extends_start
  obtain ⟨pushed', hpushed'⟩ := h'.extends_start
  refine ⟨⟨pushed ++ pushed', by rw [hpushed', hpushed, append_assoc]⟩, fun c hc => ?_,
    fun hids => h'.rowIds (h.rowIds hids), fun c hc => ?_⟩
  · rw [mem_append]
    rcases h'.mem c hc with hc | hc
    · exact (h.mem c hc).imp_right .inl
    · exact .inr (.inr hc)
  · rcases mem_append.mp hc with hc | hc
    · refine (h.covered c hc).imp (fun hmem => ?_) h'.rowIds
      rw [hpushed']
      exact mem_append_left _ hmem
    · exact h'.covered c hc

theorem foldlM_planColumn_grows (h : selected.foldlM (planColumn schema) start = .ok plan) :
    PlanGrows start selected plan := by
  induction selected generalizing start with
  | nil =>
    cases h
    exact ⟨⟨[], (append_nil _).symm⟩, fun c hc => .inl hc, id, nofun⟩
  | cons index selected ih =>
    rw [foldlM_cons] at h
    obtain ⟨mid, hmid, h⟩ := bind_eq_ok_iff.mp h
    exact (planColumn_grows hmid).trans (ih h)

/-- The planned columns: those of the start, and the selected ones a device can hold. -/
theorem mem_foldlM_planColumn (h : selected.foldlM (planColumn schema) start = .ok plan) {c : Nat} :
    c ∈ plan.deviceCols ↔ c ∈ start.deviceCols ∨ c ∈ selected ∧
      ∃ field, schema.fields[c]? = some field ∧ deviceEligible field.dataType = true := by
  induction selected generalizing start with
  | nil =>
    cases h
    simp
  | cons index selected ih =>
    rw [foldlM_cons] at h
    obtain ⟨mid, hmid, h⟩ := bind_eq_ok_iff.mp h
    obtain ⟨field, hfield, hmid⟩ := bind_eq_ok_iff.mp hmid
    have hget : schema.fields[index]? = some field := by
      rw [fieldAt] at hfield
      split at hfield
      · next found hfound => exact Except.ok.inj hfield ▸ hfound
      · cases hfield
    cases hmid
    rw [ih h, mem_cons]
    split
    · next heligible =>
      rw [mem_pushUnique]
      constructor
      · rintro ((hstart | rfl) | ⟨hmem, hc⟩)
        · exact .inl hstart
        · exact .inr ⟨.inl rfl, field, hget, heligible⟩
        · exact .inr ⟨.inr hmem, hc⟩
      · rintro (hstart | ⟨rfl | hmem, hc⟩)
        · exact .inl (.inl hstart)
        · exact .inl (.inr rfl)
        · exact .inr ⟨hmem, hc⟩
    · next heligible =>
      refine or_congr_right ⟨And.imp_left .inr, ?_⟩
      rintro ⟨rfl | hmem, found, hfound, hc⟩
      · rw [hget] at hfound
        cases hfound
        exact absurd hc heligible
      · exact ⟨hmem, found, hfound, hc⟩

theorem sidePlan_eq_ok (schema : Schema) (key : Nat) (selected : List Nat)
    (h : ∀ c ∈ selected, c < schema.fields.length) :
    ∃ plan, sidePlan schema key selected = .ok plan := by
  unfold sidePlan
  generalize (⟨[key], false⟩ : SidePlan) = start
  induction selected generalizing start with
  | nil => exact ⟨start, rfl⟩
  | cons index selected ih =>
    have hfield : fieldAt schema index =
        .ok (schema.fields.get ⟨index, h index mem_cons_self⟩) := by
      rw [fieldAt, getElem?_eq_getElem (h index mem_cons_self)]
      rfl
    rw [foldlM_cons, planColumn, hfield]
    exact ih (fun c hc => h c (mem_cons_of_mem _ hc)) _

/-! ## Reading the device output back -/

/-- From `offset` on the device output holds `sub`'s columns, gathered at
`indices`. -/
def HoldsGathered (devOut sub : RecordBatch) (offset : Nat) (indices : List Nat) : Prop :=
  ∀ k column, sub.columns[k]? = some column →
    devOut.columns[offset + k]? = some (column.gather (indices.map some))

section SideOutput

variable {plan : SidePlan} {batch sub devOut : RecordBatch} {offset : Nat} {indices : List Nat}

theorem sideIds_eq (cut : Cut plan batch sub) (held : HoldsGathered devOut sub offset indices) :
    sideIds plan devOut offset = .ok (if plan.rowIds
      then some ((rowIdColumn batch.numRows).gather (indices.map some)) else none) := by
  unfold sideIds
  split
  · next h =>
    unfold rowIdPosition at h
    split at h
    · cases h
    · next hids => rw [if_neg hids]
  · next k h =>
    have hids : plan.rowIds = true := by
      unfold rowIdPosition at h
      split at h
      · assumption
      · cases h
    have hsub : sub.columns[k]? = some (rowIdColumn batch.numRows) := by
      rw [columns_getElem?, cut.rowIds_at h]
      rfl
    rw [columnAt, held k _ hsub, if_pos hids]
    rfl

/-- Every covered column of a side comes back gathered, from the device or from the
host. -/
theorem sideOutput_eq (cut : Cut plan batch sub) (held : HoldsGathered devOut sub offset indices)
    (hrange : ∀ i ∈ indices, i < batch.numRows) {c : Nat}
    (hentry : batch.entries[c]? = some entry)
    (hcovered : c ∈ plan.deviceCols ∨ plan.rowIds = true) :
    sideOutput batch plan devOut (if plan.rowIds
        then some ((rowIdColumn batch.numRows).gather (indices.map some)) else none)
      offset c = .ok (entry.1, entry.2.gather (indices.map some)) := by
  have hfield : fieldAt batch.schema c = .ok entry.1 := by
    rw [fieldAt, fields_getElem?, hentry]
    rfl
  have hcolumn : batch.columns[c]? = some entry.2 := by
    rw [columns_getElem?, hentry]
    rfl
  rw [sideOutput, hfield, ok_bind]
  cases hposition : plan.position c with
  | some k =>
    have hsub : sub.columns[k]? = some entry.2 := (cut.column_at hposition).trans hcolumn
    simp only [columnAt, held k _ hsub, ok_bind]
  | none =>
    have hids : plan.rowIds = true := by
      refine hcovered.resolve_left fun hmem => ?_
      obtain ⟨k, hk⟩ := exists_position hmem
      rw [hk] at hposition
      cases hposition
    have hlen := column_len (mem_of_getElem? hcolumn)
    simp only [hids, if_true, columnAt, hcolumn, ok_bind,
      takeRows_gather hlen batch.numRows_lt hrange]

end SideOutput

/-! ## The plans of a call -/

/-- The plans of a join call fit its two sides: the keys come first, every planned
column exists, and every selected column is covered. -/
structure PlansFit (left : RecordBatch) (build : JoinBuild order) (leftKey : Nat)
    (plans : JoinPlans) : Prop where
  leftHead : ∃ rest, plans.left.deviceCols = leftKey :: rest
  rightHead : ∃ rest, plans.right.deviceCols = build.key :: rest
  leftInside : ∀ c ∈ plans.left.deviceCols, c < left.numColumns
  rightInside : ∀ c ∈ plans.right.deviceCols, c < build.batch.numColumns
  selected : ∀ c ∈ plans.selected, c < left.numColumns + build.batch.numColumns
  leftCovered : ∀ c ∈ plans.selected, c < left.numColumns →
    c ∈ plans.left.deviceCols ∨ plans.left.rowIds = true
  rightCovered : ∀ c ∈ plans.selected, left.numColumns ≤ c →
    c - left.numColumns ∈ plans.right.deviceCols ∨ plans.right.rowIds = true

theorem PlansFit.left_ne_nil (fit : PlansFit left build leftKey plans) :
    plans.left.deviceCols ≠ [] := by
  obtain ⟨rest, hrest⟩ := fit.leftHead
  rw [hrest]
  exact cons_ne_nil _ _

theorem PlansFit.right_ne_nil (fit : PlansFit left build leftKey plans) :
    plans.right.deviceCols ≠ [] := by
  obtain ⟨rest, hrest⟩ := fit.rightHead
  rw [hrest]
  exact cons_ne_nil _ _

/-- Columns in range have a plan. -/
theorem joinPlans_eq_ok (hleft : leftKey < left.numColumns)
    (hright : build.key < build.batch.numColumns)
    (hselected : ∀ c ∈ selectedColumns left build.batch projection,
      c < left.numColumns + build.batch.numColumns) :
    ∃ plans, joinPlans left build leftKey projection = .ok plans ∧
      plans.selected = selectedColumns left build.batch projection ∧
      PlansFit left build leftKey plans := by
  set selected := selectedColumns left build.batch projection with hsel
  have hfind : selected.find? (fun index =>
      decide (left.numColumns + build.batch.numColumns ≤ index)) = none := by
    rw [find?_eq_none]
    intro c hc
    simpa using hselected c hc
  have hmemRight : ∀ c ∈ (selected.filter (left.numColumns ≤ ·)).map (· - left.numColumns),
      c < build.batch.numColumns := by
    intro c hc
    obtain ⟨c', hc', rfl⟩ := mem_map.mp hc
    obtain ⟨hmem, hge⟩ := mem_filter.mp hc'
    have := hselected c' hmem
    have := of_decide_eq_true hge
    omega
  have hmemLeft : ∀ c ∈ selected.filter (· < left.numColumns), c < left.numColumns :=
    fun c hc => of_decide_eq_true (mem_filter.mp hc).2
  obtain ⟨leftPlan, hleftPlan⟩ := sidePlan_eq_ok left.schema leftKey
    (selected.filter (· < left.numColumns)) (by simp)
  obtain ⟨rightPlan, hrightPlan⟩ := sidePlan_eq_ok build.batch.schema
    build.key ((selected.filter (left.numColumns ≤ ·)).map (· - left.numColumns))
    (by simpa using hmemRight)
  have growsLeft := foldlM_planColumn_grows hleftPlan
  have growsRight := foldlM_planColumn_grows hrightPlan
  refine ⟨⟨selected, leftPlan, rightPlan⟩, ?_, rfl, ?_⟩
  · unfold joinPlans
    simp only [← hsel, hfind, hleftPlan, hrightPlan, ok_bind]
  · refine ⟨growsLeft.extends_start, growsRight.extends_start, fun c hc => ?_, fun c hc => ?_,
      hselected, fun c hc hlt => ?_, fun c hc hge => ?_⟩
    · rcases growsLeft.mem c hc with hc | hc
      · exact mem_singleton.mp hc ▸ hleft
      · exact hmemLeft c hc
    · rcases growsRight.mem c hc with hc | hc
      · exact mem_singleton.mp hc ▸ hright
      · exact hmemRight c hc
    · exact growsLeft.covered c (mem_filter.mpr ⟨hc, decide_eq_true hlt⟩)
    · exact growsRight.covered _ (mem_map.mpr
        ⟨c, mem_filter.mpr ⟨hc, decide_eq_true hge⟩, rfl⟩)

/-- **Reassembly.**  From a device output that holds both sub-batches, gathered along
`pairs`, `joinBatch` makes the join along `pairs`. -/
theorem joinBatch_eq {leftSub rightSub devOut : RecordBatch}
    (fit : PlansFit left build leftKey plans) (hne : plans.selected ≠ [])
    (leftCut : Cut plans.left left leftSub) (rightCut : Cut plans.right build.batch rightSub)
    (hcolumns : devOut.columns =
      leftSub.columns.map (fun column => column.gather ((pairs.map Prod.fst).map some)) ++
        rightSub.columns.map (fun column => column.gather ((pairs.map Prod.snd).map some)))
    (hpairs : ∀ p ∈ pairs, p.1 < left.numRows ∧ p.2 < build.batch.numRows) :
    ∃ out, joinBatch left build.batch plans devOut = .ok out ∧
      plans.selected.mapM (joinedEntry left build.batch pairs) = some out.entries := by
  have hrangeLeft : ∀ i ∈ pairs.map Prod.fst, i < left.numRows := by
    intro i hi
    obtain ⟨p, hp, rfl⟩ := mem_map.mp hi
    exact (hpairs p hp).1
  have hrangeRight : ∀ i ∈ pairs.map Prod.snd, i < build.batch.numRows := by
    intro i hi
    obtain ⟨p, hp, rfl⟩ := mem_map.mp hi
    exact (hpairs p hp).2
  have heldLeft : HoldsGathered devOut leftSub 0 (pairs.map Prod.fst) := by
    intro k column hk
    have hlt := (List.getElem?_eq_some_iff.mp hk).1
    rw [Nat.zero_add, hcolumns, List.getElem?_append_left (by simpa using hlt),
      List.getElem?_map, hk]
    rfl
  have heldRight : HoldsGathered devOut rightSub plans.left.width (pairs.map Prod.snd) := by
    intro k column hk
    rw [hcolumns, ← leftCut.width_eq, getElem?_append_right (by simp)]
    simp [hk]
  have hlength : pairs.length < 2 ^ 63 := by
    have hhead : 0 < leftSub.columns.length := by
      obtain ⟨rest, hrest⟩ := fit.leftHead
      rw [length_columns, leftCut.width_eq, width, hrest,
        length_cons]
      omega
    have hfirst := heldLeft 0 _ (getElem?_eq_getElem hhead)
    have hlen := column_len (List.mem_of_getElem? hfirst)
    rw [Column.gather_len, length_map, length_map] at hlen
    exact hlen ▸ devOut.numRows_lt
  -- every selected column comes back joined, and fits the pairs
  have hcolumn : ∀ c ∈ plans.selected, ∃ entry,
      joinedEntry left build.batch pairs c = some entry ∧
      FieldFits pairs.length entry.1 entry.2 ∧
      (if c < left.numColumns then sideOutput left plans.left devOut (if plans.left.rowIds
            then some ((rowIdColumn left.numRows).gather
              ((pairs.map Prod.fst).map some)) else none) 0 c
        else sideOutput build.batch plans.right devOut (if plans.right.rowIds
            then some ((rowIdColumn build.batch.numRows).gather
              ((pairs.map Prod.snd).map some)) else none) plans.left.width
              (c - left.numColumns)) = .ok entry := by
    intro c hc
    unfold joinedEntry
    split
    · next hlt =>
      obtain ⟨entry, hentry⟩ : ∃ entry, left.entries[c]? = some entry :=
        ⟨_, getElem?_eq_getElem hlt⟩
      have hfits := (left.fits entry (List.mem_of_getElem? hentry)).gather hrangeLeft
      rw [length_map] at hfits
      refine ⟨_, by rw [hentry]; rfl, hfits, ?_⟩
      exact sideOutput_eq leftCut heldLeft hrangeLeft hentry (fit.leftCovered c hc hlt)
    · next hge =>
      have hin : c - left.numColumns < build.batch.entries.length := by
        have := fit.selected c hc
        rw [← RecordBatch.numColumns]
        omega
      obtain ⟨entry, hentry⟩ : ∃ entry,
          build.batch.entries[c - left.numColumns]? = some entry :=
        ⟨_, getElem?_eq_getElem hin⟩
      have hfits := (build.batch.fits entry (List.mem_of_getElem? hentry)).gather hrangeRight
      rw [length_map] at hfits
      refine ⟨_, by rw [hentry]; rfl, hfits, ?_⟩
      exact sideOutput_eq rightCut heldRight hrangeRight hentry
        (fit.rightCovered c hc (Nat.not_lt.mp hge))
  obtain ⟨c₀, hc₀⟩ := exists_mem_of_ne_nil _ hne
  have : Nonempty (Field × Column) := ⟨(hcolumn c₀ hc₀).choose⟩
  choose! joined hjoined hfits hout using hcolumn
  have hall : ∀ entry ∈ plans.selected.map joined,
      FieldFits pairs.length entry.1 entry.2 := by
    intro entry hentry
    obtain ⟨c, hc, rfl⟩ := mem_map.mp hentry
    exact hfits c hc
  have hbatch : joinBatch left build.batch plans devOut =
      .ok ⟨[], plans.selected.map joined, pairs.length, hall, hlength⟩ := by
    rw [joinBatch, sideIds_eq leftCut heldLeft, ok_bind, sideIds_eq rightCut heldRight,
      ok_bind, mapM_eq_ok_map hout, ok_bind]
    exact tryNew_eq_ok [] (mt map_eq_nil_iff.mp hne) hall hlength
  exact ⟨_, hbatch, mapM_eq_some_map hjoined⟩

end OperatorState

/-! ## Backends -/

/-- An answer that declines, or a value with a property. -/
def DeclinesOr {α : Type} (answer : Result α) (P : α → Prop) : Prop :=
  (∃ e, answer = .error e ∧ e.isUnsupported = true) ∨ ∃ a, answer = .ok a ∧ P a

theorem DeclinesOr.bind {α β : Type} {answer : Result α} {P : α → Prop}
    {f : α → Result β} {Q : β → Prop} (h : DeclinesOr answer P)
    (hf : ∀ a, P a → DeclinesOr (f a) Q) : DeclinesOr (answer >>= f) Q := by
  rcases h with ⟨e, rfl, he⟩ | ⟨a, rfl, ha⟩
  · exact .inl ⟨e, rfl, he⟩
  · exact hf a ha

/-- `out` holds the columns of the inner join of `left` and `right` on the given
keys, in left order, the matches of one row in any order. -/
def InnerJoin (left right : RecordBatch) (leftKeys rightKeys : Int64Array)
    (out : RecordBatch) : Prop :=
  ∃ pairs, Pairs leftKeys rightKeys pairs ∧ out.columns =
    left.columns.map (fun column => column.gather ((pairs.map Prod.fst).map some)) ++
      right.columns.map (fun column => column.gather ((pairs.map Prod.snd).map some))

/-- A backend that may decline any operation, and otherwise moves batches
unchanged and joins `Int64` keys.  `contents` is what a device batch holds. -/
structure GpuBackend.Joins (contents : D → RecordBatch) (backend : GpuBackend D) : Prop where
  upload : ∀ sub, DeclinesOr (backend.upload sub) fun dev => contents dev = sub
  hashJoin : ∀ left right leftKey rightKey leftKeys rightKeys,
    int64Column (contents left) leftKey "left join key" = .ok leftKeys →
    int64Column (contents right) rightKey "build join key" = .ok rightKeys →
    DeclinesOr (backend.hashJoin left right leftKey rightKey) fun out =>
      InnerJoin (contents left) (contents right) leftKeys rightKeys (contents out)
  download : ∀ dev, DeclinesOr (backend.download dev) fun batch =>
    batch.columns = (contents dev).columns
  synchronize : DeclinesOr backend.synchronize fun _ => True

namespace OperatorState

variable {contents : D → RecordBatch} {backend : GpuBackend D} {build : JoinBuild order}

/-- **The cache invariant of a run**: what the cell holds is the build side, cut by
the run's plan. -/
def Cached (contents : D → RecordBatch) (build : JoinBuild order) (plan : SidePlan)
    (state : OperatorState D) : Prop :=
  ∀ cached, state.deviceBuild = some cached →
    cached.plan = plan ∧ Cut plan build.batch (contents cached.batch)

/-! ### The write-once cell -/

section Cell

variable {plan : SidePlan} {state : OperatorState D} {held : DeviceBuild D}

theorem deviceBuildFor_hit (hcell : state.deviceBuild = some held) (hplan : held.plan = plan) :
    state.deviceBuildFor backend build plan = (.ok held, state) := by
  simp [deviceBuildFor, hcell, Option.filter, hplan]

theorem deviceBuildFor_error {e : EngineError}
    (hcell : ∀ held, state.deviceBuild = some held → held.plan ≠ plan)
    (hupload : uploadBuild backend build plan = .error e) :
    state.deviceBuildFor backend build plan = (.error e, state) := by
  cases hheld : state.deviceBuild with
  | none => simp [deviceBuildFor, hheld, hupload]
  | some held => simp [deviceBuildFor, hheld, Option.filter, hcell held hheld, hupload]

theorem deviceBuildFor_fill {dev : D} (hcell : state.deviceBuild = none)
    (hupload : uploadBuild backend build plan = .ok dev) :
    state.deviceBuildFor backend build plan =
      (.ok ⟨plan, dev⟩, { state with deviceBuild := some ⟨plan, dev⟩ }) := by
  simp [deviceBuildFor, hcell, hupload, getOrInit]

theorem deviceBuildFor_stale {dev : D} (hcell : state.deviceBuild = some held)
    (hplan : held.plan ≠ plan) (hupload : uploadBuild backend build plan = .ok dev) :
    state.deviceBuildFor backend build plan = (.ok held, state) := by
  have hsame : { state with deviceBuild := some held } = state := by rw [← hcell]
  simp [deviceBuildFor, hcell, Option.filter, hplan, hupload, getOrInit, hsame]

end Cell

theorem uploadBuild_cut (joins : backend.Joins contents) {dev : D} (hplan : plan.deviceCols ≠ [])
    (h : uploadBuild backend build plan = .ok dev) :
    Cut plan build.batch (contents dev) := by
  obtain ⟨sub, hsub, h⟩ := bind_eq_ok_iff.mp h
  obtain ⟨dev', hdev', h⟩ := bind_eq_ok_iff.mp h
  obtain ⟨-, -, h⟩ := bind_eq_ok_iff.mp h
  cases h
  rcases joins.upload sub with ⟨e, he, -⟩ | ⟨a, ha, rfl⟩
  · rw [hdev'] at he
    cases he
  · rw [hdev'] at ha
    cases ha
    exact cut_of_subBatch hsub hplan

/-- **One step of the cache.**  The build a call gets is the run's build side cut by
the run's plan, and the cell keeps holding that. -/
theorem deviceBuildFor_spec (joins : backend.Joins contents) (hplan : plan.deviceCols ≠ [])
    (cached : Cached contents build plan state) :
    (∀ used, (state.deviceBuildFor backend build plan).1 = .ok used →
      Cut plan build.batch (contents used.batch)) ∧
    Cached contents build plan (state.deviceBuildFor backend build plan).2 := by
  cases hcell : state.deviceBuild with
  | some held =>
    obtain ⟨hheld, hcut⟩ := cached held hcell
    rw [deviceBuildFor_hit hcell hheld]
    refine ⟨fun used hused => ?_, cached⟩
    cases hused
    exact hcut
  | none =>
    cases hupload : uploadBuild backend build plan with
    | error e =>
      rw [deviceBuildFor_error (fun held hheld => nomatch hcell.symm.trans hheld) hupload]
      exact ⟨nofun, cached⟩
    | ok dev =>
      have hcut := uploadBuild_cut joins hplan hupload
      rw [deviceBuildFor_fill hcell hupload]
      constructor
      · intro used hused
        cases hused
        exact hcut
      · intro held hheld
        cases hheld
        exact ⟨rfl, hcut⟩

theorem deviceBuildFor_declinesOr (joins : backend.Joins contents) (hplan : plan.deviceCols ≠ [])
    (cached : Cached contents build plan state) (hsub : plan.subBatch build.batch = .ok sub) :
    DeclinesOr (state.deviceBuildFor backend build plan).1
      fun used => Cut plan build.batch (contents used.batch) := by
  have hspec := (deviceBuildFor_spec joins hplan cached).1
  cases hused : (state.deviceBuildFor backend build plan).1 with
  | ok used => exact .inr ⟨used, rfl, hspec used hused⟩
  | error e =>
    have hupload : DeclinesOr (uploadBuild backend build plan) fun _ => True := by
      rw [uploadBuild, hsub, ok_bind]
      exact (joins.upload sub).bind fun dev _ =>
        joins.synchronize.bind fun _ _ => .inr ⟨dev, rfl, trivial⟩
    unfold deviceBuildFor at hused
    split at hused
    · cases hused
    · rcases hupload with ⟨e', he', hunsupported⟩ | ⟨dev, hdev, -⟩
      · rw [he'] at hused
        cases hused
        exact .inl ⟨_, rfl, hunsupported⟩
      · rw [hdev] at hused
        cases hused

/-! ## One call -/

variable {key : Nat}

theorem position_head (h : ∃ rest, plan.deviceCols = key :: rest) :
    plan.position key = some 0 := by
  obtain ⟨rest, hrest⟩ := h
  rw [position, hrest, idxOf?_cons]
  simp

variable {keys : Int64Array}

theorem int64Column_head {batch : RecordBatch} (cut : Cut plan batch sub)
    (h : ∃ rest, plan.deviceCols = key :: rest) {role : String}
    (hkeys : int64Column batch key role = .ok keys) :
    int64Column sub 0 role = .ok keys := by
  obtain ⟨column, hcolumn, hkeys⟩ := bind_eq_ok_iff.mp hkeys
  split at hkeys
  · next htype =>
    cases hkeys
    rw [Kernels.column, ← cut.column_at (position_head h)] at hcolumn
    rw [int64Column, Kernels.column]
    cases hsub : sub.columns[0]? with
    | none => rw [hsub] at hcolumn; cases hcolumn
    | some column' =>
      rw [hsub] at hcolumn
      cases hcolumn
      rw [ok_bind, if_pos htype]
  · cases hkeys

/-- The values of a key column. -/
def keyValues (batch : RecordBatch) (key : Nat) : Int64Array :=
  ((batch.columns[key]?).map Column.int64s).getD []

theorem int64Column_ok {batch : RecordBatch} {role : String}
    (h : int64Column batch key role = .ok keys) :
    keys = keyValues batch key ∧ keys.length = batch.numRows ∧ key < batch.numColumns := by
  obtain ⟨column, hcolumn, h⟩ := bind_eq_ok_iff.mp h
  split at h
  · cases h
    rw [Kernels.column] at hcolumn
    cases hget : batch.columns[key]? with
    | none => rw [hget] at hcolumn; cases hcolumn
    | some column' =>
      rw [hget] at hcolumn
      cases hcolumn
      refine ⟨by rw [keyValues, hget]; rfl, ?_, ?_⟩
      · rw [Column.length_int64s, column_len (List.mem_of_getElem? hget)]
      · simpa using (List.getElem?_eq_some_iff.mp hget).1
  · cases h

/-- A device attempt that was declined, or ran with a property. -/
def DeclinedOr (attempt : Result DeviceOutcome) (P : RecordBatch → Prop) : Prop :=
  (∃ why, attempt = .ok (.declined why)) ∨ ∃ out, attempt = .ok (.ran out) ∧ P out

/-- **The device half of a call** declines, or joins both sub-batches. -/
theorem hashJoinDevice_spec (joins : backend.Joins contents) {leftSub : RecordBatch}
    (fit : PlansFit left build leftKey plans) (cached : Cached contents build plans.right state)
    (leftCut : Cut plans.left left leftSub) (hsub : plans.right.subBatch build.batch = .ok sub)
    (call : JoinCallFits left build leftKey projection leftKeys rightKeys) :
    DeclinedOr (state.hashJoinDevice backend build leftKey plans leftSub).1 fun devOut =>
      ∃ rightSub, Cut plans.right build.batch rightSub ∧
        InnerJoin leftSub rightSub leftKeys rightKeys devOut := by
  have hanswer : DeclinesOr (do
      let devBuild ← (state.deviceBuildFor backend build plans.right).1
      backend.roundTrip leftSub fun devLeft =>
        backend.hashJoin devLeft devBuild.batch ((plans.left.position leftKey).getD 0)
          ((plans.right.position build.key).getD 0))
      fun devOut => ∃ rightSub, Cut plans.right build.batch rightSub ∧
        InnerJoin leftSub rightSub leftKeys rightKeys devOut := by
    refine (deviceBuildFor_declinesOr joins fit.right_ne_nil cached hsub).bind fun used hcut => ?_
    rw [position_head fit.leftHead, position_head fit.rightHead, GpuBackend.roundTrip]
    refine (joins.upload leftSub).bind fun devLeft hdevLeft => ?_
    have hkeys := int64Column_head leftCut fit.leftHead call.probeKeys
    rw [← hdevLeft] at hkeys
    refine (joins.hashJoin devLeft used.batch 0 0 leftKeys rightKeys hkeys
      (int64Column_head hcut fit.rightHead call.buildKeys)).bind fun out hout => ?_
    refine (joins.download out).bind fun host hhost => ?_
    refine joins.synchronize.bind fun _ _ => .inr ⟨host, rfl, _, hcut, ?_⟩
    rwa [InnerJoin, hhost, ← hdevLeft]
  unfold hashJoinDevice
  rcases hanswer with ⟨e, he, hunsupported⟩ | ⟨devOut, hdevOut, hspec⟩
  · refine .inl ⟨e, ?_⟩
    dsimp only
    rw [he, tryDevice, if_pos hunsupported]
  · refine .inr ⟨devOut, ?_, hspec⟩
    dsimp only
    rw [hdevOut, tryDevice]

/-- `out` is a join of the two sides of a call. -/
def JoinsSides (left : RecordBatch) (build : JoinBuild order) (projection : Option (List Nat))
    (leftKeys rightKeys : Int64Array) (out : RecordBatch) : Prop :=
  ∃ pairs, Pairs leftKeys rightKeys pairs ∧
    JoinsAlong left build.batch (selectedColumns left build.batch projection) pairs out

/-- **The device attempt** of a call that fits is declined, or joins the two sides. -/
theorem hashJoinOnDevice_spec (joins : backend.Joins contents)
    (cached : ∀ plans, joinPlans left build leftKey projection = .ok plans →
      Cached contents build plans.right state)
    (call : JoinCallFits left build leftKey projection leftKeys rightKeys) :
    DeclinedOr (state.hashJoinOnDevice backend left build leftKey projection).1
      (JoinsSides left build projection leftKeys rightKeys) := by
  obtain ⟨-, hleftLen, hleftKey⟩ := int64Column_ok call.probeKeys
  obtain ⟨-, hrightLen, hrightKey⟩ := int64Column_ok call.buildKeys
  obtain ⟨plans, hplans, hsel, fit⟩ := joinPlans_eq_ok hleftKey hrightKey call.selected
  have hne := call.ne_nil
  rw [← hsel] at hne
  obtain ⟨leftSub, hleftSub, leftCut⟩ := exists_cut fit.left_ne_nil fit.leftInside
  obtain ⟨rightSub, hrightSub, -⟩ := exists_cut fit.right_ne_nil fit.rightInside
  have hrun : (state.hashJoinOnDevice backend left build leftKey projection).1 =
      (state.hashJoinDevice backend build leftKey plans leftSub).1 >>= fun outcome =>
        outcome.onHost (joinBatch left build.batch plans) := by
    rw [hashJoinOnDevice, hplans]
    simp only [hleftSub]
  rw [hrun]
  rcases hashJoinDevice_spec joins fit (cached plans hplans) leftCut hrightSub call with
    ⟨why, hwhy⟩ | ⟨devOut, hran, rightSub, rightCut, pairs, hpairs, hcolumns⟩
  · rw [hwhy]
    exact .inl ⟨why, rfl⟩
  · have hrange : ∀ p ∈ pairs, p.1 < left.numRows ∧ p.2 < build.batch.numRows := by
      intro p hp
      obtain ⟨key, hkeyLeft, hkeyRight⟩ := (hpairs.mem_iff p.1 p.2).mp hp
      rw [← hleftLen, ← hrightLen]
      exact ⟨(List.getElem?_eq_some_iff.mp hkeyLeft).1, (List.getElem?_eq_some_iff.mp hkeyRight).1⟩
    obtain ⟨out, hout, hentries⟩ := joinBatch_eq fit hne leftCut rightCut hcolumns hrange
    refine .inr ⟨out, ?_, pairs, hpairs, ?_⟩
    · rw [hran, ok_bind, DeviceOutcome.onHost, hout]
      rfl
    · rw [← hsel]
      have houtNe : out.entries ≠ [] := by
        intro hnil
        rw [hnil] at hentries
        have hlen := mapM_some_length hentries
        exact hne (length_eq_zero_iff.mp hlen.symm)
      exact joinsAlong_of_entries hentries (numRows_of_joined houtNe hentries)

/-! ## Runs -/

/-- Every plan a call of the run makes has its right half cached, or nothing is. -/
def RunCached (contents : D → RecordBatch) (build : JoinBuild order) (fields : List Field)
    (leftKey : Nat) (projection : Option (List Nat)) (state : OperatorState D) : Prop :=
  ∀ left plans, left.schema.fields = fields →
    joinPlans left build leftKey projection = .ok plans →
    Cached contents build plans.right state

theorem joinPlans_congr {left' : RecordBatch} (h : left.schema.fields = left'.schema.fields) :
    joinPlans left build leftKey projection = joinPlans left' build leftKey projection := by
  have hwidth : left.numColumns = left'.numColumns := by
    rw [← RecordBatch.length_schema_fields, h, RecordBatch.length_schema_fields]
  have hselected : selectedColumns left build.batch projection =
      selectedColumns left' build.batch projection := by
    cases projection <;> simp [selectedColumns, hwidth]
  have hcolumn : planColumn left.schema = planColumn left'.schema := by
    funext plan index
    rw [planColumn, planColumn, fieldAt, fieldAt, h]
  unfold joinPlans sidePlan
  rw [hselected, hwidth, hcolumn]

theorem joinPlans_right_ne_nil (h : joinPlans left build leftKey projection = .ok plans) :
    plans.right.deviceCols ≠ [] := by
  unfold joinPlans at h
  dsimp only at h
  split at h
  · cases h
  · obtain ⟨leftPlan, -, h⟩ := bind_eq_ok_iff.mp h
    obtain ⟨rightPlan, hright, h⟩ := bind_eq_ok_iff.mp h
    cases h
    obtain ⟨pushed, hpushed⟩ := (foldlM_planColumn_grows hright).extends_start
    rw [hpushed]
    exact cons_ne_nil _ _

theorem finish_deviceBuild (state : OperatorState D) (rowsIn : Nat)
    (outcome : Result DeviceOutcome) (reference : Unit → Result RecordBatch) :
    (state.finish rowsIn outcome reference).2.deviceBuild = state.deviceBuild := by
  unfold finish
  split
  · rfl
  · rfl
  · dsimp only
    split <;> rfl

/-- One probe batch's result agrees with the reference's: the same fields, and the
rows of the nested-loop join up to the order of the matches of one probe row. -/
def SameJoin (left : RecordBatch) (build : JoinBuild order) (leftKey : Nat)
    (projection : Option (List Nat)) (out ref : RecordBatch) : Prop :=
  let selected := selectedColumns left build.batch projection
  let refPairs := nestedLoop (keyValues left leftKey) (keyValues build.batch build.key)
  out.schema.fields = ref.schema.fields ∧
    ref.rows = refPairs.map (joinedRow left build.batch selected) ∧
    ∃ pairs, SameMatches pairs refPairs ∧
      out.rows = pairs.map (joinedRow left build.batch selected)

section Call

variable (joins : backend.Joins contents)
  (cached : RunCached contents build left.schema.fields leftKey projection state)
include joins cached

/-- **Step lemma.**  A call keeps the cache invariant of its run. -/
theorem joinOutcome_runCached :
    RunCached contents build left.schema.fields leftKey projection
      (state.joinOutcome backend left build leftKey projection).2 := by
  unfold joinOutcome
  split
  · exact cached
  · rw [hashJoinOnDevice]
    split
    · exact cached
    · next plans hplans =>
      split
      · exact cached
      · -- the only write: the cell takes the build cut by the plan of this call
        intro left' plans' hfields hplans'
        rw [joinPlans_congr hfields, hplans] at hplans'
        cases hplans'
        exact (deviceBuildFor_spec joins (joinPlans_right_ne_nil hplans)
          (cached left plans rfl hplans)).2

theorem hashJoin_runCached :
    RunCached contents build left.schema.fields leftKey projection
      (state.hashJoin backend left build leftKey projection).2 := by
  intro left' plans hfields hplans held hheld
  unfold hashJoin at hheld
  rw [finish_deviceBuild] at hheld
  exact joinOutcome_runCached joins cached left' plans hfields hplans held hheld

/-- A device attempt declines or joins. -/
theorem joinOutcome_spec (call : JoinCallFits left build leftKey projection leftKeys rightKeys) :
    DeclinedOr (state.joinOutcome backend left build leftKey projection).1
      (JoinsSides left build projection leftKeys rightKeys) := by
  unfold joinOutcome
  split
  · exact .inl ⟨_, rfl⟩
  · exact hashJoinOnDevice_spec joins (fun plans hplans => cached left plans rfl hplans) call

/-- **What a call returns** is a join of the two sides, on the device or off it. -/
theorem hashJoin_joinsSides (call : JoinCallFits left build leftKey projection leftKeys rightKeys)
    (h : (state.hashJoin backend left build leftKey projection).1 = .ok out) :
    JoinsSides left build projection leftKeys rightKeys out := by
  unfold hashJoin at h
  dsimp only at h
  rcases joinOutcome_spec joins cached call with ⟨why, hwhy⟩ | ⟨out', hran, hout⟩
  · rw [hwhy, finish] at h
    split at h
    · cases h
    · next ref href =>
      cases h
      obtain ⟨leftKeys', rightKeys', call', hjoins⟩ := hashJoinProbe_joinsAlong href
      cases call.probeKeys.symm.trans call'.probeKeys
      cases call.buildKeys.symm.trans call'.buildKeys
      exact ⟨_, pairs_nestedLoop _ _, hjoins⟩
  · rw [hran, finish] at h
    cases h
    exact hout

/-- **A call the reference answers** is answered with the reference's join. -/
theorem hashJoin_sameJoin {ref : RecordBatch}
    (href : hashJoinProbe left leftKey build.batch build.table projection = .ok ref) :
    ∃ out, (state.hashJoin backend left build leftKey projection).1 = .ok out ∧
      SameJoin left build leftKey projection out ref := by
  obtain ⟨leftKeys, rightKeys, call, hjoins⟩ := hashJoinProbe_joinsAlong href
  have hleftKeys := (int64Column_ok call.probeKeys).1
  have hrightKeys := (int64Column_ok call.buildKeys).1
  have hok : ∃ out, (state.hashJoin backend left build leftKey projection).1 = .ok out := by
    unfold hashJoin
    dsimp only
    rcases joinOutcome_spec joins cached call with ⟨why, hwhy⟩ | ⟨out, hran, -⟩
    · rw [hwhy, finish]
      simp only [href]
      exact ⟨ref, rfl⟩
    · rw [hran, finish]
      exact ⟨out, rfl⟩
  obtain ⟨out, hout⟩ := hok
  obtain ⟨pairs, hpairs, halong⟩ := hashJoin_joinsSides joins cached call hout
  subst hleftKeys hrightKeys
  exact ⟨out, hout, Option.some.inj (halong.fields.symm.trans hjoins.fields), hjoins.rows, pairs,
    hpairs.sameMatches (pairs_nestedLoop _ _), halong.rows⟩

end Call

/-- The results of a run: one call a batch, the operator's state threaded through.
Every call comes with the backend as it answers in that call. -/
def joinRun (build : JoinBuild order) (leftKey : Nat) (projection : Option (List Nat)) :
    OperatorState D → Calls D → List (Result RecordBatch)
  | _, [] => []
  | state, (backend, left) :: rest =>
    let (result, state) := state.hashJoin backend left build leftKey projection
    result :: joinRun build leftKey projection state rest

/-- A call that the reference answers is answered with the reference's join. -/
def JoinAgrees (build : JoinBuild order) (leftKey : Nat) (projection : Option (List Nat))
    (call : GpuBackend D × RecordBatch) (result : Result RecordBatch) : Prop :=
  ∀ ref, hashJoinProbe call.2 leftKey build.batch build.table projection = .ok ref →
    ∃ out, result = .ok out ∧ SameJoin call.2 build leftKey projection out ref

variable {calls : Calls D}

/-- **Run lemma.**  From a state that keeps the cache invariant, every call agrees. -/
theorem joinRun_agrees {fields : List Field}
    (hcalls : ∀ call ∈ calls, call.1.Joins contents ∧ call.2.schema.fields = fields)
    (cached : RunCached contents build fields leftKey projection state) :
    List.Forall₂ (JoinAgrees build leftKey projection) calls
      (joinRun build leftKey projection state calls) := by
  induction calls generalizing state with
  | nil => exact .nil
  | cons call calls ih =>
    obtain ⟨joins, hfields⟩ := hcalls call mem_cons_self
    subst hfields
    exact .cons (fun ref href => hashJoin_sameJoin joins cached href)
      (ih (fun c hc => hcalls c (mem_cons_of_mem _ hc))
        (hashJoin_runCached joins cached))

/-- **A join operator is correct over a whole run.**  On a fresh operator, with one
build side and one projection, and backends that decline whatever they like and
otherwise join, every probe batch the reference joins comes back as the reference's
join, up to the order of the matches of one probe row. -/
theorem joinRun_sameJoin {contents : D → RecordBatch} {build : JoinBuild order} {leftKey : Nat}
    {projection : Option (List Nat)} {fields : List Field}
    (hcalls : ∀ call ∈ calls, call.1.Joins contents ∧ call.2.schema.fields = fields) :
    List.Forall₂ (JoinAgrees build leftKey projection) calls
      (joinRun build leftKey projection {} calls) :=
  joinRun_agrees hcalls fun _ _ _ _ _ hheld => nomatch hheld

/-- A device that joins by the nested loop, and declines what it cannot return. -/
def nestedLoopBackend : GpuBackend RecordBatch :=
  { referenceBackend noFloats .insertion with
    hashJoin := fun left right leftKey rightKey =>
      let pairs := nestedLoop (keyValues left leftKey) (keyValues right rightKey)
      match RecordBatch.tryNew ⟨left.schema.fields ++ right.schema.fields, []⟩
          (left.columns.map (fun column => column.gather ((pairs.map Prod.fst).map some)) ++
            right.columns.map (fun column => column.gather ((pairs.map Prod.snd).map some))) with
      | .ok out => .ok out
      | .error _ => .error (.unsupported "device.hash_join" "output too large") }

theorem nestedLoopBackend_joins : nestedLoopBackend.Joins id where
  upload := fun sub => .inr ⟨sub, rfl, rfl⟩
  hashJoin := by
    intro left right leftKey rightKey leftKeys rightKeys hleft hright
    rw [(int64Column_ok hleft).1, (int64Column_ok hright).1, nestedLoopBackend]
    dsimp only
    split
    · next out hout => exact .inr ⟨out, rfl, _, pairs_nestedLoop _ _, (tryNew_ok hout).2.1⟩
    · exact .inl ⟨_, rfl, rfl⟩
  download := fun dev => .inr ⟨dev, rfl, rfl⟩
  synchronize := .inr ⟨(), rfl, trivial⟩

/-- `mixedBatch` as a build side, hashed on its `id`. -/
def mixedBuild : JoinBuild .insertion where
  batch := mixedBatch
  key := 0
  table := ⟨[(1, 0, 1), (3, 1, 1)], [0, 2], by decide⟩
  built := by rfl

/-- A device batch, then one on a machine without a device. -/
def mixedCalls : Calls RecordBatch :=
  [(nestedLoopBackend, mixedBatch), ({ nestedLoopBackend with kind := .cpuSimd }, mixedBatch)]

theorem joinRun_sameJoin_mixed :
    List.Forall₂ (JoinAgrees mixedBuild 0 (some [3, 0, 1])) mixedCalls
      (joinRun mixedBuild 0 (some [3, 0, 1]) {} mixedCalls) ∧
    (hashJoinProbe mixedBatch 0 mixedBuild.batch mixedBuild.table
      (some [3, 0, 1])).toOption.map RecordBatch.numRows = some 2 := by
  have hjoins := nestedLoopBackend_joins
  have hcalls : ∀ call ∈ mixedCalls,
      call.1.Joins id ∧ call.2.schema.fields = mixedBatch.schema.fields := by
    intro call hcall
    rcases mem_cons.mp hcall with rfl | hcall
    · exact ⟨hjoins, rfl⟩
    · cases mem_singleton.mp hcall
      exact ⟨⟨hjoins.upload, hjoins.hashJoin, hjoins.download, hjoins.synchronize⟩, rfl⟩
  exact ⟨joinRun_sameJoin hcalls, by decide⟩

end OperatorState

end OxideLake

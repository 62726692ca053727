import OxideLake.Planner.RowLimit

/-!
# Output order under placement

DataFusion drops a sort when a node below already provides its order, so a
replacement has to emit its rows in every order the original provides.  Two
replacements do not.  A sort-merge join emits in join-key order; the hash join
in its place drops the sorts below it and streams what they would have sorted
(`ProbeJoin.sorted_iff`).  An aggregate over an input sorted on the group key emits
in that order; `GpuAggregateExec` always emits ascending, `NULL` last
(`keys_sorted_iff`).
-/

namespace OxideLake

open List Partial Kernels Row

variable {D : Type}

variable {target : BackendKind} {exec : GpuHashJoinExec} {ordering : List SortColumn} {input : Plan}
  {calls : Calls D} {join : HashJoinExec} {outs : List RecordBatch}
  {fpu : FloatUnit}

/-! ## Orderings -/

/-- The order of non-`NULL` cells.  Only what it says of `Int64` is used; other
types keep the order of their own. -/
structure CellOrder where
  le : Cell → Cell → Bool
  refl : ∀ a, le a a = true
  int64 : ∀ a b, le (.int64 a) (.int64 b) = decide (a ≤ b)

/-- One expression of a sort order: a column and its direction. -/
structure SortColumn where
  column : Nat
  options : SortOptions

/-- Two cells under one column's direction and `NULL` placement. -/
def SortOptions.le (order : CellOrder) (options : SortOptions) : Option Cell → Option Cell → Bool
  | none, none => true
  | none, some _ => options.nullsFirst
  | some _, none => !options.nullsFirst
  | some a, some b => if options.descending then order.le b a else order.le a b

/-- Two rows in lexicographic order. -/
def rowLe (order : CellOrder) : List SortColumn → Row → Row → Bool
  | [], _, _ => true
  | c :: rest, a, b =>
    c.options.le order (a.at c.column) (b.at c.column) &&
      (!c.options.le order (b.at c.column) (a.at c.column) || rowLe order rest a b)

/-- Rows sorted by an ordering. -/
def SortedBy (order : CellOrder) (ordering : List SortColumn) (rows : List Row) : Prop :=
  rows.Pairwise fun a b => rowLe order ordering a b = true

instance (order : CellOrder) (ordering : List SortColumn) (rows : List Row) :
    Decidable (SortedBy order ordering rows) :=
  inferInstanceAs (Decidable (List.Pairwise _ rows))

section Orderings

variable (order : CellOrder)

theorem SortOptions.le_refl (options : SortOptions) (cell : Option Cell) :
    options.le order cell cell = true := by
  cases cell with
  | none => rfl
  | some a => simp [SortOptions.le, order.refl]

theorem rowLe_refl (ordering : List SortColumn) (row : Row) :
    rowLe order ordering row row = true := by
  induction ordering with
  | nil => rfl
  | cons c rest ih => simp [rowLe, SortOptions.le_refl, ih]

theorem rowLe_singleton (c : SortColumn) (a b : Row) :
    rowLe order [c] a b = c.options.le order (a.at c.column) (b.at c.column) := by
  simp [rowLe]

theorem rowLe_congr {ordering' : List SortColumn} {a b a' b' : Row}
    (h : List.Forall₂ (fun c c' => c.options = c'.options ∧ a.at c.column = a'.at c'.column ∧
      b.at c.column = b'.at c'.column) ordering ordering') :
    rowLe order ordering a b = rowLe order ordering' a' b' := by
  induction h with
  | nil => rfl
  | cons hhead _ ih =>
    obtain ⟨hoptions, ha, hb⟩ := hhead
    rw [rowLe, rowLe, hoptions, ha, hb, ih]

end Orderings

/-! ## Distances -/

theorem rewrite_projection_distance {projection : ProjectionExec} {exec : GpuVectorDistanceExec}
    (h : rewrite target (.unary (.projectionExec projection) input) =
      .ok (.unary (.gpuVectorDistanceExec exec) input)) :
    lowerVectorDistance target projection input.schema = some exec := by
  cases rewrites_of_rewrite h with
  | distance hlower => exact hlower

/-! ## Joins -/

/-- The rows of the probe side that find a match. -/
def matchedRows (leftKey rightKey : Nat) (probe build : List Row) : List Row :=
  probe.filter fun left => build.any (joins leftKey rightKey left)

section Joins

variable (order : CellOrder) {leftKey rightKey width : Nat} {selected : List Nat}
  {probe build out : List Row}

/-- **A join is sorted by probe columns exactly when its matched probe rows are.** -/
theorem ProbeJoin.sorted_iff (h : ProbeJoin leftKey rightKey selected probe build out)
    (hwidth : ∀ row ∈ probe, row.length = width) {probeOrdering : List SortColumn}
    (hcolumns : List.Forall₂ (fun c c' => c.options = c'.options ∧
      selected[c.column]? = some c'.column ∧ c'.column < width) ordering probeOrdering) :
    SortedBy order ordering out ↔
      SortedBy order probeOrdering (matchedRows leftKey rightKey probe build) := by
  obtain ⟨groups, hgroups, rfl⟩ := h
  -- an output row of `left` starts with the cells of `left`
  let Of : Row → Row → Prop := fun left row =>
    left.length = width ∧ ∃ right, row = select (left ++ right) selected
  have hgrouped : EquiJoin.Grouped (fun left => build.any (joins leftKey rightKey left)) Of
      probe groups := by
    refine ((forall₂_and_left _ _).mpr ⟨hwidth, hgroups⟩).imp fun left group hgroup => ?_
    obtain ⟨hlen, hperm⟩ := hgroup
    refine ⟨?_, fun row hrow => ?_⟩
    · rw [← length_pos_iff, hperm.length_eq, length_map, length_pos_iff,
        ne_eq, filter_eq_nil_iff, any_eq_true]
      simp
    · obtain ⟨right, -, rfl⟩ := mem_map.mp (hperm.mem_iff.mp hrow)
      exact ⟨hlen, right, rfl⟩
  refine hgrouped.pairwise_flatten_iff (fun a => rowLe_refl order _ a) ?_
  rintro a b x y ⟨ha, right, rfl⟩ ⟨hb, right', rfl⟩
  refine iff_of_eq (congrArg (· = true) (rowLe_congr order (hcolumns.imp fun c c' hc => ?_)))
  obtain ⟨hoptions, hselected, hlt⟩ := hc
  refine ⟨hoptions, ?_, ?_⟩
  · rw [select_at _ hselected, at_append_left _ (ha ▸ hlt)]
  · rw [select_at _ hselected, at_append_left _ (hb ▸ hlt)]

theorem ProbeJoin.of_mem (h : ProbeJoin leftKey rightKey selected probe build out) {row : Row}
    (hrow : row ∈ out) : ∃ left ∈ probe, ∃ right ∈ build,
      joins leftKey rightKey left right = true ∧
        row = select (left ++ right) selected := by
  obtain ⟨groups, hgroups, rfl⟩ := h
  obtain ⟨group, hgroup, hrow⟩ := mem_flatten.mp hrow
  obtain ⟨left, hleft, hperm⟩ := forall₂_exists_left hgroups hgroup
  obtain ⟨right, hright, rfl⟩ := mem_map.mp (hperm.mem_iff.mp hrow)
  obtain ⟨hmem, hjoins⟩ := mem_filter.mp hright
  exact ⟨left, hleft, right, hmem, hjoins, rfl⟩

theorem Row.key_eq_some {row : Row} {column : Nat} {value : Int64}
    (h : row.key column = some value) : row.at column = some (.int64 value) := by
  obtain ⟨cell, hcell, hvalue⟩ := Option.bind_eq_some_iff.mp h
  cases cell <;> cases hvalue
  exact hcell

theorem Row.joins_at {left right : Row} (h : joins leftKey rightKey left right = true) :
    left.at leftKey = right.at rightKey := by
  obtain ⟨hsome, heq⟩ := of_decide_eq_true h
  obtain ⟨value, hvalue⟩ := Option.isSome_iff_exists.mp hsome
  rw [hvalue] at heq
  rw [key_eq_some hvalue, key_eq_some heq.symm]

/-- Both keys are equal in every joined row. -/
theorem ProbeJoin.sorted_right_iff {total : Nat}
    (h : ProbeJoin leftKey rightKey (range total) probe build out)
    (hwidth : ∀ row ∈ probe, row.length = width) (hleft : leftKey < width)
    (hright : width + rightKey < total) (options : SortOptions) :
    SortedBy order [⟨width + rightKey, options⟩] out ↔ SortedBy order [⟨leftKey, options⟩] out := by
  have hcell : ∀ row ∈ out, row.at (width + rightKey) = row.at leftKey := by
    intro row hrow
    obtain ⟨left, hmem, right, -, hjoins, rfl⟩ := h.of_mem hrow
    have hlen := hwidth left hmem
    rw [select_at _ (getElem?_range hright),
      select_at _ (getElem?_range (by omega)), at_append_right _ (by omega),
      at_append_left _ (by omega), hlen, Nat.add_sub_cancel_left, joins_at hjoins]
  refine List.Pairwise.iff_of_mem fun {a b} ha hb => ?_
  rw [rowLe_singleton, rowLe_singleton, hcell a ha, hcell b hb]

end Joins

/-! ### Hash joins -/

/-- The output columns of an inner hash join, as indices into `build ++ probe`. -/
def HashJoinExec.outputColumns (join : HashJoinExec) (build probe : Schema) : List Nat :=
  join.projection.getD (range (build.width + probe.width))

theorem onlyMatch_eq {full : List Field} {field : Field} {index found : Nat}
    (hfield : full[index]? = some field) (h : onlyMatch full field = some found) :
    found = index := by
  unfold onlyMatch at h
  split at h
  · next sole hsole =>
    cases h
    have hmem : index ∈ (full.zipIdx.filter fun entry => entry.1 = field).map Prod.snd := by
      refine mem_map.mpr ⟨(field, index), mem_filter.mpr ⟨?_, ?_⟩, rfl⟩
      · exact mem_zipIdx_iff_getElem?.mpr hfield
      · exact decide_eq_true rfl
    rw [hsole] at hmem
    exact (mem_singleton.mp hmem).symm
  · cases h

theorem mapM_onlyMatch_eq {full fields : List Field} {pushed indices : List Nat}
    (hpushed : pushed.mapM (fun i => full[i]?) = some fields)
    (hfound : fields.mapM (onlyMatch full) = some indices) : indices = pushed := by
  rw [mapM_eq_some_iff] at hpushed hfound
  induction hpushed generalizing indices with
  | nil =>
    cases hfound
    rfl
  | cons hfield _ ih =>
    cases hfound with
    | cons hmatch hrest => rw [onlyMatch_eq hfield hmatch, ih hrest]

theorem dfProjection_eq {build probe : Schema} {indices : List Nat}
    (hfields : join.outputFields build probe = some join.schema.fields)
    (h : dfProjection join build probe = some indices) :
    indices = join.outputColumns build probe := by
  unfold dfProjection at h
  unfold HashJoinExec.outputFields at hfields
  unfold HashJoinExec.outputColumns
  cases hprojection : join.projection with
  | none =>
    rw [hprojection] at h
    exact (Option.some.inj h).symm
  | some pushed =>
    rw [hprojection] at h hfields
    exact mapM_onlyMatch_eq hfields h

theorem rewrite_hashJoin_eq {build probe : Plan}
    (h : rewrite target (.binary (.hashJoinExec join) build probe) =
      .ok (.binary (.gpuHashJoinExec exec) probe build)) :
    lowerJoin target join build.schema probe.schema = .ok (some exec) := by
  cases rewrites_of_rewrite h with
  | hashJoin hlower => exact hlower

theorem rewrite_sortMergeJoin_eq {join : SortMergeJoinExec} {left right left' right' : Plan}
    (h : rewrite target (.binary (.sortMergeJoinExec join) left right) =
      .ok (.binary (.gpuHashJoinExec exec) left' right')) :
    left' = stripSort left ∧ right' = stripSort right ∧
      lowerSortMergeJoin target join left.schema right.schema = .ok (some exec) := by
  cases rewrites_of_rewrite h with
  | sortMergeJoin hlower => exact ⟨rfl, rfl, hlower⟩

/-- A lowered hash join reads keys and columns its inputs have, and selects the
join's own output columns. -/
theorem lowerJoin_fits {build probe : Schema}
    (hnames : (BinaryExec.hashJoinExec join).NamesColumns build probe)
    (h : lowerJoin target join build probe = .ok (some exec)) :
    exec.Fits probe build ∧ exec.selected probe build =
      (join.outputColumns build probe).map (swapSides build.width probe.width) := by
  obtain ⟨buildKey, probeKey, indices, hkeys, hindices, hne, hprobe, hbuild, -, rfl⟩ :=
    lowerJoin_eq_some h
  have hinner : join.joinType = .inner := (joinKeys_eq_some hkeys).1
  rw [← dfProjection_eq (hnames.2 hinner) hindices]
  refine ⟨⟨hprobe, hbuild, ?_, ?_⟩, rfl⟩
  · simpa [GpuHashJoinExec.selected] using hne
  · intro c hc
    obtain ⟨i, hi, rfl⟩ := mem_map.mp hc
    exact swapSides_lt (dfProjection_lt hindices i hi)

/-! ### Sort-merge joins -/

theorem lowerSortMergeJoin_fits {join : SortMergeJoinExec} {left right : Schema}
    (h : lowerSortMergeJoin target join left right = .ok (some exec)) :
    exec.Fits left right ∧ exec.selected left right = List.range (left.width + right.width) ∧
      joinKeys join.toJoinOn = some (exec.leftKey, exec.rightKey) := by
  obtain ⟨leftKey, rightKey, hkeys, hleft, hright, -, rfl⟩ := lowerSortMergeJoin_eq_some h
  refine ⟨⟨hleft, hright, ?_, fun c hc => List.mem_range.mp hc⟩, rfl, hkeys⟩
  obtain ⟨field, hfield, -⟩ := hleft
  have hlt : leftKey < left.width := (List.getElem?_eq_some_iff.mp hfield).1
  simp only [GpuHashJoinExec.selected, Option.getD_none, ne_eq, List.range_eq_nil]
  omega

/-- **When the order of a sort-merge join survives**: the hash join in its place is
sorted by either join key exactly when the probe rows that match, as they come from
behind the dropped sort, are. -/
theorem sortMergeJoin_sorted_iff (order : CellOrder) {map : MapOrder} {contents : D → RecordBatch}
    {join : SortMergeJoinExec} {left right left' right' : Plan}
    (h : rewrite target (.binary (.sortMergeJoinExec join) left right) =
      .ok (.binary (.gpuHashJoinExec exec) left' right')) {leftKey rightKey : Nat}
    (hkeys : joinKeys join.toJoinOn = some (leftKey, rightKey)) {buildSide : List RecordBatch}
    (hcalls : JoiningInput contents left'.schema calls)
    (houts : exec.execute map right'.schema buildSide calls = .ok outs) (options : SortOptions)
    {key : Nat} (hkey : key = leftKey ∨ key = left.schema.width + rightKey) :
    SortedBy order [⟨key, options⟩] (streamRows outs) ↔
      SortedBy order [⟨leftKey, options⟩] (matchedRows leftKey rightKey
        (streamRows (calls.map Prod.snd)) (streamRows buildSide)) := by
  obtain ⟨rfl, rfl, hlower⟩ := rewrite_sortMergeJoin_eq h
  obtain ⟨hfits, hselected, hkeys'⟩ := lowerSortMergeJoin_fits hlower
  rw [hkeys] at hkeys'
  cases hkeys'
  rw [stripSort_schema] at hcalls houts
  have hrows := GpuHashJoinExec.execute_rows hfits hcalls houts
  rw [hselected] at hrows
  obtain ⟨leftField, hleft, -⟩ := hfits.leftKey
  obtain ⟨rightField, hright, -⟩ := hfits.rightKey
  have hleftLt : exec.leftKey < left.schema.width := (List.getElem?_eq_some_iff.mp hleft).1
  have hrightLt : exec.rightKey < right.schema.width := (List.getElem?_eq_some_iff.mp hright).1
  have hcolumn : List.Forall₂ (fun c c' : SortColumn => c.options = c'.options ∧
      (List.range (left.schema.width + right.schema.width))[c.column]? = some c'.column ∧
      c'.column < left.schema.width) [⟨exec.leftKey, options⟩] [⟨exec.leftKey, options⟩] :=
    .cons ⟨rfl, List.getElem?_range (Nat.lt_add_right _ hleftLt), hleftLt⟩ .nil
  have hleftIff := hrows.sorted_iff order (fun row hrow => hcalls.length_of_mem hrow) hcolumn
  rcases hkey with rfl | rfl
  · exact hleftIff
  · exact (hrows.sorted_right_iff order (fun row hrow => hcalls.length_of_mem hrow) hleftLt
      (by omega) options).trans hleftIff

/-! ## Aggregates -/

/-- The keys whose ascending order with `NULL` last is also the order `options` ask
for. -/
def SortOptions.AgreesOn (options : SortOptions) (keys : Int64Array) : Prop :=
  (options.descending = true → ∀ a b, some a ∈ keys → some b ∈ keys → a = b) ∧
    (options.nullsFirst = true → none ∈ keys → ∀ a, some a ∉ keys)

/-- Ascending keys under other options. -/
theorem keys_sorted_iff (order : CellOrder) {keys : Int64Array} (hnodup : keys.Nodup)
    (hsorted : keys.Pairwise fun a b => keyLe a b = true) (options : SortOptions) :
    ((keys.map (Option.map Cell.int64)).Pairwise fun a b => options.le order a b = true) ↔
      options.AgreesOn keys := by
  rw [pairwise_map]
  constructor
  · intro h
    -- of two different keys one stands before the other, in both orders
    have hboth := (hsorted.and h).imp fun {a b} hab =>
      (Or.inl hab : _ ∨ (keyLe b a = true ∧
        options.le order (b.map Cell.int64) (a.map Cell.int64) = true))
    have hsymm : Std.Symm fun a b : Option Int64 =>
        (keyLe a b = true ∧ options.le order (a.map Cell.int64) (b.map Cell.int64) = true) ∨
        (keyLe b a = true ∧
          options.le order (b.map Cell.int64) (a.map Cell.int64) = true) := ⟨fun _ _ => Or.symm⟩
    have hpair := fun a ha b hb hne => hboth.forall (a := a) (b := b) ha hb hne
    refine ⟨fun hdesc a b ha hb => ?_, fun hfirst hnone a ha => ?_⟩
    · by_contra hne
      rcases hpair (some a) ha (some b) hb (by simpa using hne) with ⟨hkey, hle⟩ | ⟨hkey, hle⟩ <;>
      · simp only [keyLe, Option.map_some, SortOptions.le, hdesc, if_true, order.int64,
          decide_eq_true_eq] at hkey hle
        first
          | exact hne (Int64.le_antisymm hkey hle)
          | exact hne (Int64.le_antisymm hle hkey)
    · rcases hpair none hnone (some a) ha (by simp) with ⟨hkey, -⟩ | ⟨-, hle⟩
      · cases hkey
      · simp [SortOptions.le, hfirst] at hle
  · rintro ⟨hdesc, hfirst⟩
    refine (hsorted.and hnodup).imp_of_mem fun {a b} ha hb hab => ?_
    obtain ⟨hkey, hne⟩ := hab
    cases a with
    | none =>
      cases b with
      | none => exact absurd rfl hne
      | some y => cases hkey
    | some x =>
      cases b with
      | none =>
        cases hnulls : options.nullsFirst with
        | false => simp [SortOptions.le, hnulls]
        | true => exact absurd ha (hfirst hnulls hb x)
      | some y =>
        cases hdirection : options.descending with
        | true => exact absurd (congrArg some (hdesc hdirection x y ha hb)) hne
        | false =>
          simpa [SortOptions.le, hdirection, order.int64, keyLe] using hkey

theorem rewrite_aggregate_hasInt64 {agg : AggregateExec} {source : Plan} {exec : GpuAggregateExec}
    (h : rewrite target (.unary (.aggregateExec agg) input) =
      .ok (.unary (.gpuAggregateExec exec) source)) :
    source.schema.HasInt64 exec.spec.groupBy := by
  cases rewrites_of_rewrite h with
  | @aggregate _ _ _ source _ fresh _ _ _ hnew hwith =>
    rw [coalesced_schema, GpuAggregateExec.withOutputSchema_ok hwith]
    show source.schema.HasInt64 fresh.spec.groupBy
    exact GpuAggregateExec.tryNew_hasInt64 hnew

/-- **When the order of an aggregate survives**: the replacement is sorted on the
group key exactly when ascending order with `NULL` last is the order asked for on
the keys of the input. -/
theorem aggregate_sorted_iff (order : CellOrder) {agg : AggregateExec} {source : Plan}
    {exec : GpuAggregateExec} (h : rewrite target (.unary (.aggregateExec agg) input) =
      .ok (.unary (.gpuAggregateExec exec) source)) {backend : GpuBackend D}
    (conforms : backend.Conforms fpu) {batches : List RecordBatch} {out : RecordBatch}
    (hout : exec.execute fpu source.schema backend batches = .ok out) (options : SortOptions) :
    SortedBy order [⟨0, options⟩] out.rows ↔
      options.AgreesOn ((streamRows batches).map (key · exec.spec.groupBy)) := by
  obtain ⟨keys, hcells, hnodup, hmem, hsorted⟩ :=
    GpuAggregateExec.execute_keys (rewrite_aggregate_hasInt64 h) conforms hout
  have hiff := keys_sorted_iff order hnodup hsorted options
  rw [← hcells, pairwise_map] at hiff
  simp only [SortedBy, rowLe_singleton, hiff, SortOptions.AgreesOn, hmem]

/-- A batch of two keys. -/
def twoKeys (a b : Int64) : RecordBatch :=
  .ofEntries [(⟨"k", .int64, true, []⟩, Column.ofInt64 [some a, some b])]
    2 (by simp [FieldFits, Column.ofInt64, Column.len])

end OxideLake

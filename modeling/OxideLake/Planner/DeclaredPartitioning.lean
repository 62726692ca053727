import OxideLake.Foundations.Colocation
import OxideLake.Planner.BatchBoundaries
import OxideLake.Planner.JoinColumns

/-!
# Declared partitionings

A node declares how its output is partitioned, and DataFusion leaves out an exchange when the
declaration says that rows which agree on some columns are in one partition already.
`GpuFilterExec` declares the partitioning of its input, and `GpuHashJoinExec` that of its probe
side.  A partitioning names columns by their position, so the positions of the input are read
as positions of the output.

`declared_iff` says when such a declaration is true of every output: the positions exist, and
what stands there determines the columns the input is partitioned by.  A filter that keeps
these columns where they are, and a join without a projection, declare the truth.
-/

namespace OxideLake

open List Colocation Row

variable {D : Type} {n : ℕ}

variable {columns : List ℕ} {row : Row} {schema : Schema}

/-! ## Partitionings -/

/-- `Partitioning`; the expressions of a hash partitioning are columns, by their index. -/
inductive Partitioning where
  | roundRobinBatch (count : ℕ)
  | hash (columns : List ℕ) (count : ℕ)
  | unknownPartitioning (count : ℕ)
  deriving DecidableEq

/-- What a node declares: its schema and its output partitioning. -/
structure PlanProperties where
  schema : Schema
  partitioning : Partitioning
  deriving DecidableEq

def planProperties (schema : Schema) (partitioning : Partitioning) : PlanProperties :=
  ⟨schema, partitioning⟩

/-- The properties `GpuFilterExec::try_new` stores. -/
def GpuFilterExec.properties (exec : GpuFilterExec) (input : PlanProperties) : PlanProperties :=
  planProperties exec.schema input.partitioning

/-- The properties `GpuHashJoinExec::try_new` and `with_projection` store. -/
def GpuHashJoinExec.properties (exec : GpuHashJoinExec) (left : PlanProperties) : PlanProperties :=
  planProperties exec.schema left.partitioning

/-- The declared partitioning is true of an output: its columns exist, and rows that agree on
them are in the same partition. -/
def PlanProperties.Hold (properties : PlanProperties) (parts : Fin n → List Row) : Prop :=
  match properties.partitioning with
  | .hash columns _ =>
    (∀ c ∈ columns, c < properties.schema.width) ∧ Colocated (select · columns) parts
  | .roundRobinBatch _ => True
  | .unknownPartitioning _ => True

theorem hold_hash_iff {produces : (Fin n → List Row) → (Fin n → List Row) → Prop}
    {input output : Schema} (hcolumns : ∀ c ∈ columns, c < input.width)
    (hsome : ∃ outs, produces (fun _ => []) outs) :
    (∀ ins outs, produces ins outs → PlanProperties.Hold ⟨input, .hash columns n⟩ ins →
      PlanProperties.Hold ⟨output, .hash columns n⟩ outs) ↔
    (∀ c ∈ columns, c < output.width) ∧ ∀ ins outs, produces ins outs →
      Colocated (select · columns) ins → Colocated (select · columns) outs := by
  constructor
  · intro h
    obtain ⟨outs, houts⟩ := hsome
    exact ⟨(h _ outs houts ⟨hcolumns, fun _ _ _ hmem => nomatch hmem⟩).1,
      fun ins outs hproduces hin => (h ins outs hproduces ⟨hcolumns, hin⟩).2⟩
  · rintro ⟨hexist, hkeeps⟩ ins outs hproduces ⟨-, hin⟩
    exact ⟨hexist, hkeeps ins outs hproduces hin⟩

/-! ## Rows of a schema -/

/-- A row of some batch with the fields of the schema. -/
def Schema.HasRow (schema : Schema) (row : Row) : Prop :=
  ∃ batch : RecordBatch, batch.schema.fields = schema.fields ∧ row ∈ batch.rows

theorem Schema.hasRow_of_mem {batches : List RecordBatch}
    (h : ∀ batch ∈ batches, batch.schema.fields = schema.fields) (hrow : row ∈ streamRows batches) :
    schema.HasRow row := by
  obtain ⟨batch, hbatch, hmem⟩ := mem_flatMap.mp hrow
  exact ⟨batch, h batch hbatch, hmem⟩

theorem Schema.HasRow.length (h : schema.HasRow row) :
    row.length = schema.width := by
  obtain ⟨batch, hfields, hrow⟩ := h
  rw [RecordBatch.length_of_mem_rows hrow, RecordBatch.numColumns_eq_width hfields]

/-- One row of a batch, under given schema metadata. -/
def RecordBatch.single (batch : RecordBatch) (metadata : Metadata) (i : ℕ)
    (hi : i < batch.numRows) :
    RecordBatch where
  metadata := metadata
  entries := batch.entries.map fun entry => (entry.1, entry.2.gather [some i])
  numRows := 1
  fits := by
    intro entry hentry
    obtain ⟨source, hsource, rfl⟩ := mem_map.mp hentry
    have hinside : ∀ j ∈ [i], j < batch.numRows := by simpa using hi
    exact (batch.fits source hsource).gather hinside
  numRows_lt := oneRow_lt

theorem Schema.HasRow.single (h : schema.HasRow row) :
    ∃ batch : RecordBatch, batch.schema = schema ∧ batch.rows = [row] ∧ batch.numRows = 1 := by
  obtain ⟨batch, hfields, hrow⟩ := h
  obtain ⟨i, hi, rfl⟩ := mem_map.mp hrow
  refine ⟨batch.single schema.metadata i (mem_range.mp hi), ?_, ?_, rfl⟩
  · have hsame : (batch.single schema.metadata i (mem_range.mp hi)).schema.fields =
        batch.schema.fields := by
      simp [RecordBatch.single, RecordBatch.schema]
    rw [hfields] at hsame
    obtain ⟨fields, metadata⟩ := schema
    exact congrArg (Schema.mk · metadata) hsame
  · show [(batch.single schema.metadata i _).row 0] = [batch.row i]
    rw [RecordBatch.row, RecordBatch.row, RecordBatch.columns, RecordBatch.columns]
    simp only [RecordBatch.single, map_map]
    rfl

theorem Schema.HasRow.scattered {row' : Row} (h : schema.HasRow row) (h' : schema.HasRow row')
    (p q : Fin n) :
    ∃ cuts : Fin n → List RecordBatch, (∀ i, ∀ batch ∈ cuts i, batch.schema = schema) ∧
      (∀ i, ∀ batch ∈ cuts i, batch.numRows = 1) ∧
      (fun i => streamRows (cuts i)) = scatter p q row row' := by
  obtain ⟨batch, hschema, hrows, hone⟩ := h.single
  obtain ⟨batch', hschema', hrows', hone'⟩ := h'.single
  refine ⟨scatter p q batch batch', fun i b hb => ?_, fun i b hb => ?_, ?_⟩
  · rcases mem_scatter hb with ⟨-, rfl⟩ | ⟨-, rfl⟩
    · exact hschema
    · exact hschema'
  · rcases mem_scatter hb with ⟨-, rfl⟩ | ⟨-, rfl⟩
    · exact hone
    · exact hone'
  · exact funext (flatMap_scatter hrows hrows')

/-- A backend without a device. -/
def GpuBackend.none (D : Type) : GpuBackend D where
  kind := .cpuSimd
  upload := fun _ => .error (.unsupported "cpu" "no device")
  download := fun _ => .error (.unsupported "cpu" "no device")
  synchronize := .error (.unsupported "cpu" "no device")
  filterProject := fun _ _ _ => .error (.unsupported "cpu" "no device")
  hashJoin := fun _ _ _ _ => .error (.unsupported "cpu" "no device")
  aggregate := fun _ _ => .error (.unsupported "cpu" "no device")
  vectorDistance := fun _ _ _ _ _ => .error (.unsupported "cpu" "no device")
  supportsPredicate := fun _ => false
  supportsHashJoin := false
  supportsAggregate := false

theorem GpuBackend.none_conforms (fpu : FloatUnit) : (GpuBackend.none D).Conforms fpu where
  filterProject := fun _ _ _ => .inl ⟨_, rfl, rfl⟩
  aggregate := fun _ _ => .inl ⟨_, rfl, rfl⟩
  vectorDistance := fun _ _ _ _ _ => .inl ⟨_, rfl, rfl⟩

theorem GpuBackend.none_joins (contents : D → RecordBatch) :
    (GpuBackend.none D).Joins contents where
  upload := fun _ => .inl ⟨_, rfl, rfl⟩
  hashJoin := fun _ _ _ _ _ _ _ _ => .inl ⟨_, rfl, rfl⟩
  download := fun _ => .inl ⟨_, rfl, rfl⟩
  synchronize := .inl ⟨_, rfl, rfl⟩

/-! ## Filters -/

namespace GpuFilterExec

variable {fpu : FloatUnit} {exec : GpuFilterExec} {input : Schema}

/-- A row that passes, and what becomes of it. -/
def Emits (exec : GpuFilterExec) (input : Schema) (row out : Row) : Prop :=
  input.HasRow row ∧ exec.predicate.truth row = some true ∧ out = row.select exec.projection

/-- The node's partitions over those of its input: every partition runs to its end. -/
def Produces (D : Type) (fpu : FloatUnit) (exec : GpuFilterExec) (input : Schema)
    (ins outs : Fin n → List Row) : Prop :=
  ∃ (calls : Fin n → Calls D) (results : Fin n → List RecordBatch),
    (∀ p, ConformingInput fpu input (calls p)) ∧ (∀ p, exec.execute (calls p) = .ok (results p)) ∧
    ins = (fun p => streamRows ((calls p).map Prod.snd)) ∧ outs = fun p => streamRows (results p)

/-- What the node declares is true whenever what its input declares is. -/
def KeepsPromise (D : Type) (n : ℕ) (fpu : FloatUnit) (exec : GpuFilterExec)
    (input : PlanProperties) : Prop :=
  ∀ ins outs : Fin n → List Row, exec.Produces D fpu input.schema ins outs → input.Hold ins →
    (exec.properties input).Hold outs

theorem produces_sound (hbuilt : tryNew input exec.predicate exec.projection exec.target = .ok exec)
    (ins outs : Fin n → List Row) (h : exec.Produces D fpu input ins outs) (p : Fin n) :
    ∀ out ∈ outs p, ∃ row ∈ ins p, exec.Emits input row out := by
  obtain ⟨calls, results, hcalls, hruns, rfl, rfl⟩ := h
  obtain ⟨result, hrun, hrows⟩ := execute_rows hbuilt (hcalls p)
  rw [hruns p] at hrun
  cases hrun
  intro out hout
  dsimp only at hout ⊢
  rw [hrows] at hout
  obtain ⟨row, hrow, rfl⟩ := mem_map.mp hout
  obtain ⟨hmem, htruth⟩ := mem_filter.mp hrow
  refine ⟨row, hmem, Schema.hasRow_of_mem ?_ hmem, of_decide_eq_true htruth, rfl⟩
  exact forall_mem_map.mpr fun call hcall => (hcalls p call hcall).2

/-- Any two outputs can meet in one run. -/
theorem produces_complete (D : Type) (fpu : FloatUnit)
    (hbuilt : tryNew input exec.predicate exec.projection exec.target = .ok exec)
    (p q : Fin n) (hpq : p ≠ q) (row row' out out' : Row) (hrow : exec.Emits input row out)
    (hrow' : exec.Emits input row' out') :
    ∃ outs, exec.Produces D fpu input (scatter p q row row') outs ∧ out ∈ outs p ∧
      out' ∈ outs q := by
  obtain ⟨hhas, htruth, rfl⟩ := hrow
  obtain ⟨hhas', htruth', rfl⟩ := hrow'
  obtain ⟨cuts, hschema, -, hcuts⟩ := hhas.scattered hhas' p q
  have hcalls : ∀ i, ConformingInput fpu input
      ((cuts i).map fun batch => (GpuBackend.none D, batch)) := fun i =>
    forall_mem_map.mpr fun batch hbatch =>
      ⟨GpuBackend.none_conforms fpu, congrArg Schema.fields (hschema i batch hbatch)⟩
  choose results hruns hrows using fun i => execute_rows hbuilt (hcalls i)
  have hin : (fun i => streamRows (((cuts i).map fun batch =>
      (GpuBackend.none D, batch)).map Prod.snd)) = scatter p q row row' := by
    rw [← hcuts]
    exact funext fun i => by rw [map_snd_calls]
  have hout : ∀ i, ∀ r ∈ scatter p q row row' i, exec.predicate.truth r = some true →
      r.select exec.projection ∈ streamRows (results i) := by
    intro i r hr hpasses
    rw [hrows i, ← congrFun hin i] at *
    exact mem_map_of_mem (mem_filter.mpr ⟨hr, decide_eq_true hpasses⟩)
  refine ⟨fun i => streamRows (results i), ⟨_, results, hcalls, hruns, hin.symm, rfl⟩,
    hout p row ?_ htruth, hout q row' ?_ htruth'⟩
  · rw [scatter_left]
    exact mem_cons_self
  · rw [scatter_right hpq]
    exact mem_cons_self

/-- When a filter keeps the partitioning it declares. -/
theorem keepsPromise_iff (D : Type) (n : ℕ) (fpu : FloatUnit)
    (hbuilt : tryNew input exec.predicate exec.projection exec.target = .ok exec)
    (hcolumns : ∀ c ∈ columns, c < input.width) :
    exec.KeepsPromise D n fpu ⟨input, .hash columns n⟩ ↔
      (∀ c ∈ columns, c < exec.schema.width) ∧
      (n ≤ 1 ∨ Reflects (exec.Emits input) (select · columns) (select · columns)) := by
  rw [← keeps_colocated_iff (produces_sound hbuilt) (produces_complete D fpu hbuilt)]
  exact hold_hash_iff hcolumns ⟨fun _ => [], fun _ => [], fun _ => [], fun _ => nofun,
    fun _ => rfl, rfl, rfl⟩

/-- A filter whose output has every partitioning column at one of the declared positions. -/
theorem reflects_of_kept (h : ∀ c ∈ columns, ∃ e ∈ columns, exec.projection[e]? = some c) :
    Reflects (exec.Emits input) (select · columns) (select · columns) := by
  rintro row row' _ _ ⟨-, -, rfl⟩ ⟨-, -, rfl⟩ hagree
  refine map_congr_left fun c hc => ?_
  obtain ⟨e, he, hat⟩ := h c hc
  have hcell := map_inj_left.mp hagree e he
  rwa [select_at row hat, select_at row' hat] at hcell

end GpuFilterExec

/-! ## Joins -/

theorem Row.at_of_joins {leftKey rightKey : ℕ} {build : Row}
    (h : joins leftKey rightKey row build = true) : row.at leftKey = build.at rightKey := by
  obtain ⟨hsome, hkeys⟩ := of_decide_eq_true h
  obtain ⟨key, hkey⟩ := Option.isSome_iff_exists.mp hsome
  have hcell : ∀ {r : Row} {c : ℕ}, r.key c = some key → r.at c = some (.int64 key) := by
    intro r c hr
    obtain ⟨value, hvalue, hint⟩ := Option.bind_eq_some_iff.mp hr
    rw [hvalue]
    cases value with
    | int64 v => exact congrArg (fun v => some (Cell.int64 v)) (Option.some.inj hint)
    | _ => cases hint
  rw [hcell hkey, hcell (hkeys ▸ hkey)]

namespace GpuHashJoinExec

variable {contents : D → RecordBatch} {exec : GpuHashJoinExec} {left right : Schema}

/-- A probe row that finds a build row, and what becomes of the two. -/
def Emits (exec : GpuHashJoinExec) (left right : Schema) (row out : Row) : Prop :=
  left.HasRow row ∧ ∃ build, right.HasRow build ∧
    joins exec.leftKey exec.rightKey row build = true ∧
    out = select (row ++ build) (exec.selected left right)

/-- The node's partitions over those of its probe side, for some build side: every partition
runs to its end. -/
def Produces (contents : D → RecordBatch) (exec : GpuHashJoinExec) (left right : Schema)
    (ins outs : Fin n → List Row) : Prop :=
  ∃ (order : MapOrder) (buildSide : List RecordBatch)
    (calls : Fin n → Calls D) (results : Fin n → List RecordBatch),
    (∀ batch ∈ buildSide, batch.schema.fields = right.fields) ∧
    (∀ p, JoiningInput contents left (calls p)) ∧
    (∀ p, exec.execute order right buildSide (calls p) = .ok (results p)) ∧
    ins = (fun p => streamRows ((calls p).map Prod.snd)) ∧ outs = fun p => streamRows (results p)

/-- What the node declares is true whenever what its probe side declares is. -/
def KeepsPromise (n : ℕ) (contents : D → RecordBatch) (exec : GpuHashJoinExec)
    (left : PlanProperties) (right : Schema) : Prop :=
  ∀ ins outs : Fin n → List Row, exec.Produces contents left.schema right ins outs →
    left.Hold ins → (exec.properties left).Hold outs

theorem produces_sound (hbuilt : exec.Built left right) (ins outs : Fin n → List Row)
    (h : exec.Produces contents left right ins outs) (p : Fin n) :
    ∀ out ∈ outs p, ∃ row ∈ ins p, exec.Emits left right row out := by
  obtain ⟨order, buildSide, calls, results, hside, hcalls, hruns, rfl, rfl⟩ := h
  obtain ⟨groups, hgroups, hout⟩ := execute_rows hbuilt.fits.1 (hcalls p) (hruns p)
  intro out hmem
  dsimp only at hmem ⊢
  rw [hout] at hmem
  obtain ⟨group, hgroup, hmem⟩ := mem_flatten.mp hmem
  obtain ⟨row, hrow, hperm⟩ := Partial.forall₂_exists_left hgroups hgroup
  obtain ⟨build, hbuild, rfl⟩ := mem_map.mp (hperm.mem_iff.mp hmem)
  obtain ⟨hbuildMem, hjoins⟩ := mem_filter.mp hbuild
  refine ⟨row, hrow, Schema.hasRow_of_mem ?_ hrow, build, Schema.hasRow_of_mem hside hbuildMem,
    hjoins, rfl⟩
  exact forall_mem_map.mpr fun call hcall => (hcalls p call hcall).2

theorem mem_joined {probe build : List Row} {buildRow : Row} (hrow : row ∈ probe)
    (hbuild : buildRow ∈ build) (hjoins : joins exec.leftKey exec.rightKey row buildRow = true) :
    select (row ++ buildRow) (exec.selected left right) ∈ exec.joined left right probe build :=
  mem_flatMap.mpr ⟨row, hrow, mem_map.mpr
    ⟨buildRow, mem_filter.mpr ⟨hbuild, hjoins⟩, rfl⟩⟩

theorem length_joined_singleton (row : Row) (build : List Row) :
    (exec.joined left right [row] build).length ≤ build.length := by
  rw [joined, innerJoin, EquiJoin.joinRows, flatMap_singleton, length_map]
  exact length_filter_le ..

theorem produces_complete (contents : D → RecordBatch) (hbuilt : exec.Built left right)
    (p q : Fin n) (hpq : p ≠ q) (row row' out out' : Row) (hrow : exec.Emits left right row out)
    (hrow' : exec.Emits left right row' out') :
    ∃ outs, exec.Produces contents left right (scatter p q row row') outs ∧ out ∈ outs p ∧
      out' ∈ outs q := by
  obtain ⟨hhas, build, hbuild, hjoins, rfl⟩ := hrow
  obtain ⟨hhas', build', hbuild', hjoins', rfl⟩ := hrow'
  obtain ⟨cuts, hschema, hone, hcuts⟩ := hhas.scattered hhas' p q
  -- the build side holds the two build rows
  obtain ⟨side, hsideSchema, hsideRows, -⟩ := hbuild.single
  obtain ⟨side', hsideSchema', hsideRows', -⟩ := hbuild'.single
  have hside : ∀ batch ∈ [side, side'], batch.schema = right := by
    intro batch hbatch
    rcases mem_pair.mp hbatch with rfl | rfl
    · exact hsideSchema
    · exact hsideSchema'
  have hsideStream : streamRows [side, side'] = [build, build'] := by
    show side.rows ++ (side'.rows ++ []) = _
    rw [hsideRows, hsideRows']
    rfl
  obtain ⟨table, htable⟩ := JoinTable.ofKeys_succeeds .insertion
    (show (exec.buildKeys [build, build']).length < 2 ^ 32 from (by decide : 2 < 2 ^ 32))
  have hruns : ∀ i, ∃ results, exec.execute .insertion right [side, side']
        ((cuts i).map fun batch => (GpuBackend.none D, batch)) = .ok results ∧
      streamRows results = exec.joined left right (streamRows (cuts i)) [build, build'] := by
    intro i
    have hrows : rowsOf (exec.execute .insertion right [side, side']
        ((cuts i).map fun batch => (GpuBackend.none D, batch))) = _ :=
        rowsOf_execute hbuilt rfl hside
      (by rw [hsideStream]; exact (by decide : 2 < 2 ^ 63)) (hschema i)
      (fun batch hbatch => by rw [hone i batch hbatch]; decide)
      (fun batch hbatch => by
        obtain ⟨r, hr⟩ := length_eq_one_iff.mp
          (batch.length_rows.trans (hone i batch hbatch))
        rw [hr, hsideStream]
        exact (length_joined_singleton r _).trans_lt (by decide : 2 < 2 ^ 63))
    rw [hsideStream, htable] at hrows
    obtain ⟨results, hresults, hstream⟩ := Option.map_eq_some_iff.mp hrows
    refine ⟨results, ?_, hstream⟩
    revert hresults
    generalize exec.execute .insertion right [side, side'] _ = result
    cases result with
    | error e => exact nofun
    | ok outs => exact fun h => congrArg _ (Option.some.inj h)
  choose results hruns hresults using hruns
  have hin : (fun i => streamRows (((cuts i).map fun batch =>
      (GpuBackend.none D, batch)).map Prod.snd)) = scatter p q row row' := by
    rw [← hcuts]
    exact funext fun i => by rw [map_snd_calls]
  refine ⟨fun i => streamRows (results i), ⟨.insertion, [side, side'], _, results,
    fun batch hbatch => congrArg Schema.fields (hside batch hbatch), fun i => ?_, hruns, hin.symm,
    rfl⟩, ?_, ?_⟩
  · exact forall_mem_map.mpr fun batch hbatch =>
      ⟨GpuBackend.none_joins contents, congrArg Schema.fields (hschema i batch hbatch)⟩
  · have hp := (congrFun hcuts p).trans scatter_left
    dsimp only at hp ⊢
    rw [hresults, hp]
    exact mem_joined mem_cons_self mem_cons_self hjoins
  · have hq := (congrFun hcuts q).trans (scatter_right hpq)
    dsimp only at hq ⊢
    rw [hresults, hq]
    exact mem_joined mem_cons_self (mem_cons_of_mem _ mem_cons_self) hjoins'

theorem keepsPromise_iff (n : ℕ) (contents : D → RecordBatch) (hbuilt : exec.Built left right)
    (hcolumns : ∀ c ∈ columns, c < left.width) :
    exec.KeepsPromise n contents ⟨left, .hash columns n⟩ right ↔
      (∀ c ∈ columns, c < exec.schema.width) ∧
      (n ≤ 1 ∨ Reflects (exec.Emits left right) (select · columns) (select · columns)) := by
  rw [← keeps_colocated_iff (produces_sound hbuilt) (produces_complete contents hbuilt)]
  refine hold_hash_iff hcolumns ?_
  obtain ⟨table, htable⟩ := JoinTable.ofKeys_succeeds .insertion
    (show (exec.buildKeys (streamRows [])).length < 2 ^ 32 from (by decide : 0 < 2 ^ 32))
  have hrun := execute_cpu_of_table hbuilt
    (fun batch (hmem : batch ∈ ([] : List RecordBatch)) => nomatch hmem) (by decide) htable
    (fun call (hmem : call ∈ ([] : Calls D)) => nomatch hmem)
    (fun _ hmem => nomatch hmem) fun _ hmem => nomatch hmem
  obtain ⟨outs, houts, -, -⟩ := hrun.resolve_right fun h => by
    obtain ⟨⟨_, hmem, -⟩, -⟩ := h
    cases hmem
  exact ⟨fun _ => streamRows outs, .insertion, [], fun _ => [], fun _ => outs, nofun,
    fun _ => nofun, fun _ => houts, rfl, rfl⟩

/-- A join whose output has every partitioning column at one of the declared positions, or the
build key in the place of the probe key. -/
theorem reflects_of_kept (hcolumns : ∀ c ∈ columns, c < left.width)
    (h : ∀ c ∈ columns, ∃ e ∈ columns, (exec.selected left right)[e]? = some c ∨
      c = exec.leftKey ∧ (exec.selected left right)[e]? = some (left.width + exec.rightKey)) :
    Reflects (exec.Emits left right) (select · columns) (select · columns) := by
  rintro row row' _ _ ⟨hrow, build, -, hjoins, rfl⟩ ⟨hrow', build', -, hjoins', rfl⟩ hagree
  refine map_congr_left fun c hc => ?_
  obtain ⟨e, he, hat⟩ := h c hc
  have hcell := map_inj_left.mp hagree e he
  have hlength := hrow.length
  have hlength' := hrow'.length
  rcases hat with hat | ⟨rfl, hat⟩
  · have hlt := hcolumns c hc
    rwa [select_at _ hat, select_at _ hat, at_append_left _ (by omega),
      at_append_left _ (by omega)] at hcell
  · -- the build key is the probe key
    rw [select_at _ hat, select_at _ hat, at_append_right _ (by omega),
      at_append_right _ (by omega), hlength, hlength', Nat.add_sub_cancel_left] at hcell
    rw [at_of_joins hjoins, at_of_joins hjoins', hcell]

theorem reflects_of_no_projection (hprojection : exec.projection = none)
    (hcolumns : ∀ c ∈ columns, c < left.width) :
    Reflects (exec.Emits left right) (select · columns) (select · columns) := by
  refine reflects_of_kept hcolumns fun c hc => ⟨c, hc, .inl ?_⟩
  have hlt := hcolumns c hc
  rw [selected, hprojection, Option.getD_none, getElem?_range (by omega)]

end GpuHashJoinExec

/-! ## Both nodes -/

/-- **When the declared partitionings are true.**  For a filter over an input, and a join over a
probe and a build side, as their constructors build them (the joins that the lowering of a
`HashJoinExec` places among them, with the sides swapped): whenever the input is hash partitioned
on some of its columns, the declared columns exist in the output and rows that agree on them are
in one partition.  This holds for all tables, backends and map orders exactly if the positions
exist and, with more than one partition, the cells at these positions determine the partitioning
columns of the rows that get through. -/
theorem declared_iff (D : Type) (n : ℕ) (fpu : FloatUnit) (contents : D → RecordBatch)
    {input left right : Schema} {filter : GpuFilterExec} {join : GpuHashJoinExec}
    (hfilter : GpuFilterExec.tryNew input filter.predicate filter.projection filter.target =
      .ok filter) (hjoin : join.Built left right) {columns probeColumns : List ℕ}
    (hcolumns : ∀ c ∈ columns, c < input.width) (hprobe : ∀ c ∈ probeColumns, c < left.width) :
    (filter.KeepsPromise D n fpu ⟨input, .hash columns n⟩ ↔
      (∀ c ∈ columns, c < filter.schema.width) ∧
      (n ≤ 1 ∨ Reflects (filter.Emits input) (select · columns) (select · columns))) ∧
    (join.KeepsPromise n contents ⟨left, .hash probeColumns n⟩ right ↔
      (∀ c ∈ probeColumns, c < join.schema.width) ∧
      (n ≤ 1 ∨ Reflects (join.Emits left right) (select · probeColumns)
        (select · probeColumns))) :=
  ⟨filter.keepsPromise_iff D n fpu hfilter hcolumns,
    join.keepsPromise_iff n contents hjoin hprobe⟩

/-- `v > 0`, with `k` and `v` selected. -/
def keepBoth : GpuFilterExec :=
  ⟨.compare 1 .gt (.int64 0), [0, 1],
    ⟨[⟨"k", .int64, true, []⟩, ⟨"v", .int64, true, []⟩], []⟩, .cuda⟩

/-- A filter that keeps the partitioning column in its place, and a join without a projection. -/
theorem declared_iff_keepBoth :
    keepBoth.KeepsPromise RecordBatch 2 noFloats ⟨keepBoth.schema, .hash [0] 2⟩ ∧
    keyJoin.KeepsPromise 2 id ⟨keySchema, .hash [0] 2⟩ keySchema := by
  have hcolumns : ∀ c ∈ [0], c < keepBoth.schema.width := by decide
  have hprobe : ∀ c ∈ [0], c < keySchema.width := by decide
  have hboth := declared_iff RecordBatch 2 noFloats id
    (show GpuFilterExec.tryNew keepBoth.schema keepBoth.predicate keepBoth.projection
      keepBoth.target = .ok keepBoth from rfl) keyJoin_built hcolumns hprobe
  refine ⟨hboth.1.mpr ⟨by decide, .inr ?_⟩, hboth.2.mpr ⟨by decide, .inr ?_⟩⟩
  · exact GpuFilterExec.reflects_of_kept (by decide)
  · exact GpuHashJoinExec.reflects_of_no_projection rfl hprobe

/-! ## A lowered join -/

/-- The build side `(v, k)`. -/
def pairSchema : Schema := ⟨[⟨"v", .int64, true, []⟩, ⟨"k", .int64, true, []⟩], []⟩

/-- `pairs JOIN t ON pairs.k = t.k`, as DataFusion plans it: build side first. -/
def pairsJoin : HashJoinExec where
  on := [(.column "k" 1, .column "k" 0)]
  filter := none
  joinType := .inner
  nullEquality := .nullEqualsNothing
  mode := .partitioned
  projection := none
  schema := joinedSchema pairSchema keySchema
  partitions := fun _ right => right

/-- What the rule makes of it: probe side first, and the columns put back. -/
def placedPairsJoin : GpuHashJoinExec :=
  ⟨0, 1, some [1, 2, 0], joinedSchema pairSchema keySchema, .cuda⟩

theorem lowerJoin_pairsJoin :
    lowerJoin .cuda pairsJoin pairSchema keySchema = .ok (some placedPairsJoin) := rfl

/-- The pairs `(7, 1)` and `(7, 2)`. -/
def twoPairs : RecordBatch :=
  .ofEntries [(⟨"v", .int64, true, []⟩, Column.ofInt64 [some 7, some 7]),
    (⟨"k", .int64, true, []⟩, Column.ofInt64 [some 1, some 2])]
    2 (by decide)

theorem emits_twoPairs (key : Int64) (hkey : key = 1 ∨ key = 2) :
    placedPairsJoin.Emits keySchema pairSchema [some (.int64 key)]
      [some (.int64 7), some (.int64 key), some (.int64 key)] := by
  rcases hkey with rfl | rfl
  · exact ⟨⟨twoKeys 1 2, rfl, by decide⟩, [some (.int64 7), some (.int64 1)],
      ⟨twoPairs, rfl, by decide⟩, by decide, by decide⟩
  · exact ⟨⟨twoKeys 1 2, rfl, by decide⟩, [some (.int64 7), some (.int64 2)],
      ⟨twoPairs, rfl, by decide⟩, by decide, by decide⟩

/-- The keys `1` and `2` are in partitions of their own, which the probe side declares.  The
output has the two keys in two partitions as well, but the declared position is that of `v`. -/
theorem lowered_join_misdeclares :
    lowerJoin .cuda pairsJoin pairSchema keySchema = .ok (some placedPairsJoin) ∧
    PlanProperties.Hold ⟨keySchema, .hash [0] 2⟩
      (scatter (0 : Fin 2) 1 [some (.int64 1)] [some (.int64 2)]) ∧
    ∃ outs : Fin 2 → List Row,
      placedPairsJoin.Produces (id : RecordBatch → RecordBatch) keySchema pairSchema
        (scatter 0 1 [some (.int64 1)] [some (.int64 2)]) outs ∧
      [some (.int64 7), some (.int64 1), some (.int64 1)] ∈ outs 0 ∧
      [some (.int64 7), some (.int64 2), some (.int64 2)] ∈ outs 1 ∧
      ¬ (placedPairsJoin.properties ⟨keySchema, .hash [0] 2⟩).Hold outs := by
  refine ⟨rfl, ⟨by decide, colocated_scatter (by decide)⟩, ?_⟩
  obtain ⟨outs, hproduces, hone, htwo⟩ := GpuHashJoinExec.produces_complete id
    (lowerJoin_built lowerJoin_pairsJoin).1 (0 : Fin 2) 1 (by decide) _ _ _ _
    (emits_twoPairs 1 (.inl rfl)) (emits_twoPairs 2 (.inr rfl))
  refine ⟨outs, hproduces, hone, htwo, fun hhold => ?_⟩
  exact absurd (hhold.2 0 1 _ hone _ htwo (by decide)) (by decide)

end OxideLake

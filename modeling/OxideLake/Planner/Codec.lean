import OxideLake.Foundations.Bytes
import OxideLake.Planner.WellFormed

/-!
# The plan codec

`codec.rs` carries the `Gpu*Exec` nodes of a plan to an executor.  A payload is the magic
`OXGP`, a version byte, the fingerprint of the build, and the `postcard` encoding of the
node's parameters; the children travel on their own and are handed in on decoding, which
runs the node's constructor over them.  Any other node, and any other payload, goes to the
wrapped codec.

`postcard` and the wrapped codec are parameters.  Of `postcard` only one thing is assumed,
and only of the node at hand: it decodes what it encoded, and that is at least one byte.
-/

namespace OxideLake

open List Partial

variable {target : BackendKind} {input plan : Plan} {schema : Schema}

/-- Serialized form of one `Gpu*Exec` node. -/
inductive GpuNode where
  | filter (target : BackendKind) (predicate : Predicate) (projection : List Nat)
  | hashJoin (target : BackendKind) (leftKey rightKey : Nat) (projection : Option (List Nat))
  | aggregate (target : BackendKind) (spec : AggregateSpec) (output : List (String × Bool))
  | vectorDistance (target : BackendKind) (column : Nat) (query : List F32)
      (metric : DistanceMetric) (outputName : String)
  deriving DecidableEq

/-- `ExecutionPlan::children`. -/
def Plan.children : Plan → List Plan
  | .unary _ input => [input]
  | .binary _ left right => [left, right]
  | .foreign _ children => children

/-! ## Header -/

/-- What a build of the program fixes: its version, and the features compiled in. -/
structure Build where
  version : String
  featureMask : UInt32

namespace Codec

def magic : List UInt8 := [0x4F, 0x58, 0x47, 0x50]

def version : UInt8 := 2

def header : Nat := magic.length + 1 + 4

def fnv1a (hash : UInt32) (bytes : List UInt8) : UInt32 :=
  bytes.foldl (fun hash byte => (hash ^^^ byte.toUInt32) * 0x01000193) hash

/-- `u32::to_le_bytes`. -/
def toLeBytes (value : UInt32) : List UInt8 := Bytes.toLe 4 value.toNat

/-- `u32::from_le_bytes`. -/
def fromLeBytes (bytes : List UInt8) : UInt32 := UInt32.ofNat (Bytes.leNat bytes)

def fingerprint (build : Build) : UInt32 :=
  fnv1a (fnv1a (fnv1a 0x811c9dc5 build.version.toUTF8.toList) [version])
    (toLeBytes build.featureMask)

/-- A number in hexadecimal, with at least `width` digits. -/
def hex (width : Nat) (value : UInt32) : String :=
  "0x" ++ String.ofList ((Nat.toDigits 16 value.toNat).leftpad width '0')

def checkFingerprint (build : Build) (tag : List UInt8) : DFResult Unit :=
  let theirs := fromLeBytes tag
  if theirs = fingerprint build then .ok ()
  else .error (.internal ("OxidePhysicalCodec: plan was encoded by a build with fingerprint " ++
    hex 8 theirs ++ "; this build is " ++ hex 8 (fingerprint build) ++
    ". The two ends of the cluster are not the same version, or were built with different " ++
    "features (oxidelake-compute feature mask " ++ hex 1 build.featureMask ++
    " here). The plan is refused rather than decoded into parameters that would only look " ++
    "right."))

/-! ## Nodes -/

def describe : Plan → Option GpuNode
  | .unary (.gpuFilterExec exec) _ => some (.filter exec.target exec.predicate exec.projection)
  | .binary (.gpuHashJoinExec exec) _ _ =>
    some (.hashJoin exec.target exec.leftKey exec.rightKey exec.projection)
  | .unary (.gpuAggregateExec exec) _ =>
    some (.aggregate exec.target exec.spec
      (exec.schema.fields.map fun field => (field.name, field.nullable)))
  | .unary (.gpuVectorDistanceExec exec) _ =>
    some (.vectorDistance exec.target exec.column exec.query exec.metric exec.outputName)
  | _ => none

def child (inputs : List Plan) (index : Nat) (what : String) : DFResult Plan :=
  match inputs[index]? with
  | some input => .ok input
  | none => .error (.internal (what ++ ": missing child " ++ toString index ++ " (got " ++
      toString inputs.length ++ ")"))

/-- The fields of a decoded aggregate: the names and nullability of the payload, under the
types the spec yields. -/
def plannedFields (fields : List Field) (output : List (String × Bool)) : List Field :=
  zipWith (fun field entry => ⟨entry.1, field.dataType, entry.2, []⟩) fields output

def build (inputs : List Plan) : GpuNode → DFResult Plan
  | .filter target predicate projection => do
      let input ← child inputs 0 "GpuFilterExec"
      let exec ← GpuFilterExec.tryNew input.schema predicate projection target
      .ok (.unary (.gpuFilterExec exec) input)
  | .hashJoin target leftKey rightKey projection => do
      let left ← child inputs 0 "GpuHashJoinExec"
      let right ← child inputs 1 "GpuHashJoinExec"
      let exec ← GpuHashJoinExec.tryNew left.schema right.schema leftKey rightKey target
      let exec ← exec.withProjection left.schema right.schema projection
      .ok (.binary (.gpuHashJoinExec exec) left right)
  | .aggregate target spec output => do
      let input ← child inputs 0 "GpuAggregateExec"
      let exec ← GpuAggregateExec.tryNew input.schema spec target
      if output.length ≠ exec.schema.fields.length then
        .error (.internal ("GpuAggregateExec: planned " ++ toString output.length ++
          " output fields, spec yields " ++ toString exec.schema.fields.length))
      else do
        let exec ← exec.withOutputSchema ⟨plannedFields exec.schema.fields output, []⟩
        .ok (.unary (.gpuAggregateExec exec) input)
  | .vectorDistance target column query metric outputName => do
      let input ← child inputs 0 "GpuVectorDistanceExec"
      let exec ← GpuVectorDistanceExec.tryNew input.schema column query metric outputName target
      .ok (.unary (.gpuVectorDistanceExec exec) input)

end Codec

/-! ## Payloads -/

/-- `postcard`, on nodes. -/
structure Postcard where
  toAllocvec : GpuNode → Except String (List UInt8)
  fromBytes : List UInt8 → Except String GpuNode

/-- The wrapped codec; encoding appends to a buffer. -/
structure PhysicalExtensionCodec where
  tryDecode : List UInt8 → List Plan → DFResult Plan
  tryEncode : Plan → List UInt8 → DFResult (List UInt8)

/-- `OxidePhysicalCodec`, as one build of the program has it. -/
structure OxidePhysicalCodec where
  build : Build
  postcard : Postcard
  inner : PhysicalExtensionCodec

namespace OxidePhysicalCodec

open Codec

variable (codec : OxidePhysicalCodec)

def tryDecode (buf : List UInt8) (inputs : List Plan) : DFResult Plan :=
  if header < buf.length ∧ buf.take magic.length = magic then
    let version := buf.getD magic.length 0
    if version ≠ Codec.version then
      .error (.internal ("OxidePhysicalCodec: unsupported payload version " ++
        toString version.toNat ++ " (expected " ++ toString Codec.version.toNat ++ ")"))
    else do
      checkFingerprint codec.build (Bytes.slice buf (magic.length + 1) 4)
      match codec.postcard.fromBytes (buf.drop header) with
      | .ok node => Codec.build inputs node
      | .error e => .error (.internal ("OxidePhysicalCodec: corrupt payload: " ++ e))
  else codec.inner.tryDecode buf inputs

def tryEncode (node : Plan) (buf : List UInt8) : DFResult (List UInt8) :=
  match describe node with
  | some gpu =>
    let buf := buf ++ magic ++ [Codec.version] ++ toLeBytes (fingerprint codec.build)
    match codec.postcard.toAllocvec gpu with
    | .ok payload => .ok (buf ++ payload)
    | .error e => .error (.internal ("OxidePhysicalCodec: encode failed: " ++ e))
  | none => codec.inner.tryEncode node buf

end OxidePhysicalCodec

/-! ## The header is read back -/

namespace Codec

theorem fromLeBytes_toLeBytes (value : UInt32) : fromLeBytes (toLeBytes value) = value := by
  have hvalue : value.toNat < 256 ^ 4 := value.toNat_lt
  rw [fromLeBytes, toLeBytes, Bytes.leNat_toLe hvalue, UInt32.ofNat_toNat]

theorem checkFingerprint_self (build : Build) :
    checkFingerprint build (toLeBytes (fingerprint build)) = .ok () := by
  unfold checkFingerprint
  rw [fromLeBytes_toLeBytes, if_pos rfl]

end Codec

open Codec

/-- `postcard` decodes what it encoded, and that is at least one byte. -/
def Postcard.RoundTrips (postcard : Postcard) (node : GpuNode) : Prop :=
  ∃ payload, postcard.toAllocvec node = .ok payload ∧ payload ≠ [] ∧
    postcard.fromBytes payload = .ok node

/-- **A payload comes back to the codec that wrote it**, with the node it was written for. -/
theorem OxidePhysicalCodec.tryDecode_payload (codec : OxidePhysicalCodec) {node : GpuNode}
    (hnode : describe plan = some node) (hpostcard : codec.postcard.RoundTrips node) :
    ∃ buf, codec.tryEncode plan [] = .ok buf ∧
      ∀ inputs, codec.tryDecode buf inputs = Codec.build inputs node := by
  obtain ⟨payload, hencode, hne, hdecode⟩ := hpostcard
  refine ⟨magic ++ [Codec.version] ++ toLeBytes (fingerprint codec.build) ++ payload, ?_,
    fun inputs => ?_⟩
  · simp only [tryEncode, hnode, hencode, nil_append]
  · have htag : (toLeBytes (fingerprint codec.build)).length = 4 := Bytes.length_toLe _ _
    have hlong : header < (magic ++ [Codec.version] ++ toLeBytes (fingerprint codec.build) ++
        payload).length := by
      have := length_pos_of_ne_nil hne
      simp only [length_append, htag, header, length_singleton]
      omega
    have hslice : Bytes.slice (magic ++ [Codec.version] ++ toLeBytes (fingerprint codec.build) ++
        payload) (magic.length + 1) 4 = toLeBytes (fingerprint codec.build) := by
      rw [Bytes.slice, append_assoc, drop_left' (by simp), take_left' htag]
    have hdrop : (magic ++ [Codec.version] ++ toLeBytes (fingerprint codec.build) ++
        payload).drop header = payload :=
      drop_left' (by simp [htag, header])
    have hmagic : (magic ++ [Codec.version] ++ toLeBytes (fingerprint codec.build) ++
        payload).take magic.length = magic := by
      rw [append_assoc, append_assoc, take_left]
    have hversion : (magic ++ [Codec.version] ++ toLeBytes (fingerprint codec.build) ++
        payload).getD magic.length 0 = Codec.version := rfl
    unfold tryDecode
    rw [if_pos ⟨hlong, hmagic⟩]
    simp only [hversion, hslice, hdrop, hdecode, checkFingerprint_self]
    rfl

/-! ## The nodes there are -/

/-- The `Gpu*Exec` nodes the constructors and the `with_*` methods produce. -/
inductive Produced : Plan → Prop
  | filter {input : Plan} {predicate : Predicate} {projection : List Nat} {target : BackendKind}
      {exec : GpuFilterExec}
      (hnew : GpuFilterExec.tryNew input.schema predicate projection target = .ok exec) :
      Produced (.unary (.gpuFilterExec exec) input)
  | hashJoin {left right : Plan} {leftKey rightKey : Nat} {target : BackendKind}
      {exec : GpuHashJoinExec}
      (hnew : GpuHashJoinExec.tryNew left.schema right.schema leftKey rightKey target = .ok exec) :
      Produced (.binary (.gpuHashJoinExec exec) left right)
  | withProjection {left right : Plan} {exec exec' : GpuHashJoinExec}
      {projection : Option (List Nat)}
      (hnode : Produced (.binary (.gpuHashJoinExec exec) left right))
      (hwith : exec.withProjection left.schema right.schema projection = .ok exec') :
      Produced (.binary (.gpuHashJoinExec exec') left right)
  | aggregate {input : Plan} {spec : AggregateSpec} {target : BackendKind}
      {exec : GpuAggregateExec}
      (hnew : GpuAggregateExec.tryNew input.schema spec target = .ok exec) :
      Produced (.unary (.gpuAggregateExec exec) input)
  | withOutputSchema {input : Plan} {exec exec' : GpuAggregateExec} {schema : Schema}
      (hnode : Produced (.unary (.gpuAggregateExec exec) input))
      (hwith : exec.withOutputSchema schema = .ok exec') :
      Produced (.unary (.gpuAggregateExec exec') input)
  | vectorDistance {input : Plan} {column : Nat} {query : List F32} {metric : DistanceMetric}
      {name : String} {target : BackendKind} {exec : GpuVectorDistanceExec}
      (hnew : GpuVectorDistanceExec.tryNew input.schema column query metric name target =
      .ok exec) : Produced (.unary (.gpuVectorDistanceExec exec) input)
  | withNewChild {op op' : UnaryExec} {input input' : Plan} (hnode : Produced (.unary op input))
      (hwith : op.withNewChildren input'.schema = .ok op') : Produced (.unary op' input')
  | withNewChildren {op op' : BinaryExec} {left right left' right' : Plan}
      (hnode : Produced (.binary op left right))
      (hwith : op.withNewChildren left'.schema right'.schema = .ok op') :
      Produced (.binary op' left' right')

/-- A `Gpu*Exec` is what its constructor makes of its own parameters and children. -/
def Rebuilds : Plan → Prop
  | .unary (.gpuFilterExec exec) input =>
    GpuFilterExec.tryNew input.schema exec.predicate exec.projection exec.target = .ok exec
  | .binary (.gpuHashJoinExec exec) left right =>
    ∃ fresh, GpuHashJoinExec.tryNew left.schema right.schema exec.leftKey exec.rightKey
      exec.target = .ok fresh ∧
      fresh.withProjection left.schema right.schema exec.projection = .ok exec
  | .unary (.gpuAggregateExec exec) input =>
    ∃ fresh, GpuAggregateExec.tryNew input.schema exec.spec exec.target = .ok fresh ∧
      fresh.withOutputSchema exec.schema = .ok exec
  | .unary (.gpuVectorDistanceExec exec) input =>
    GpuVectorDistanceExec.tryNew input.schema exec.column exec.query exec.metric
      exec.outputName exec.target = .ok exec
  | _ => False

theorem rebuilds_filter {predicate : Predicate} {projection : List Nat} {exec : GpuFilterExec}
    (h : GpuFilterExec.tryNew input.schema predicate projection target = .ok exec) :
    Rebuilds (.unary (.gpuFilterExec exec) input) := by
  obtain ⟨-, -, -, schema, -, rfl⟩ := GpuFilterExec.tryNew_eq_ok_iff.mp h
  exact h

theorem rebuilds_vectorDistance {column : Nat} {query : List F32} {metric : DistanceMetric}
    {name : String} {exec : GpuVectorDistanceExec}
    (h : GpuVectorDistanceExec.tryNew input.schema column query metric name target = .ok exec) :
    Rebuilds (.unary (.gpuVectorDistanceExec exec) input) := by
  obtain ⟨-, rfl⟩ := GpuVectorDistanceExec.tryNew_eq_ok h
  exact h

theorem rebuilds_hashJoin {left right : Plan} {leftKey rightKey : Nat}
    {fresh exec : GpuHashJoinExec} {projection : Option (List Nat)}
    (hnew : GpuHashJoinExec.tryNew left.schema right.schema leftKey rightKey target = .ok fresh)
    (hwith : fresh.withProjection left.schema right.schema projection = .ok exec) :
    Rebuilds (.binary (.gpuHashJoinExec exec) left right) := by
  obtain ⟨-, -, rfl⟩ := GpuHashJoinExec.tryNew_eq_ok_iff.mp hnew
  obtain ⟨schema, -, hexec⟩ := bind_eq_ok_iff.mp hwith
  cases hexec
  exact ⟨_, hnew, hwith⟩

theorem rebuilds_aggregate {spec : AggregateSpec} {fresh exec : GpuAggregateExec}
    (hnew : GpuAggregateExec.tryNew input.schema spec target = .ok fresh)
    (hwith : fresh.withOutputSchema schema = .ok exec) :
    Rebuilds (.unary (.gpuAggregateExec exec) input) := by
  obtain ⟨own, -, hfresh⟩ := bind_eq_ok_iff.mp hnew
  cases hfresh
  obtain rfl := GpuAggregateExec.withOutputSchema_ok hwith
  exact ⟨_, hnew, hwith⟩

/-- Every node made by the constructors can be made again from its own parameters. -/
theorem Produced.rebuilds (h : Produced plan) : Rebuilds plan := by
  induction h with
  | filter hnew => exact rebuilds_filter hnew
  | @hashJoin left right _ _ _ exec hnew =>
    have hwith : exec.withProjection left.schema right.schema none = .ok exec := by
      obtain ⟨-, -, rfl⟩ := GpuHashJoinExec.tryNew_eq_ok_iff.mp hnew
      rfl
    exact rebuilds_hashJoin hnew hwith
  | withProjection _ hwith ih =>
    -- a projection replaces the one before it
    obtain ⟨fresh, hnew, hfresh⟩ := ih
    obtain ⟨schema, -, hexec⟩ := bind_eq_ok_iff.mp hfresh
    rw [← Except.ok.inj hexec] at hwith
    exact rebuilds_hashJoin hnew hwith
  | aggregate hnew =>
    exact rebuilds_aggregate hnew (GpuAggregateExec.withOutputSchema_eq_ok_iff.mpr ⟨rfl, rfl⟩)
  | withOutputSchema _ hwith ih =>
    obtain ⟨fresh, hnew, hfresh⟩ := ih
    obtain ⟨htypes, hexec⟩ := GpuAggregateExec.withOutputSchema_eq_ok_iff.mp hfresh
    obtain ⟨htypes', rfl⟩ := GpuAggregateExec.withOutputSchema_eq_ok_iff.mp hwith
    refine rebuilds_aggregate hnew
      (GpuAggregateExec.withOutputSchema_eq_ok_iff.mpr ⟨htypes'.trans htypes, ?_⟩)
    rw [hexec]
  | vectorDistance hnew => exact rebuilds_vectorDistance hnew
  | @withNewChild op op' input input' _ hwith ih =>
    cases op with
    | gpuFilterExec exec =>
      obtain ⟨exec', hnew, hop⟩ := bind_eq_ok_iff.mp hwith
      cases hop
      exact rebuilds_filter hnew
    | gpuAggregateExec exec =>
      obtain ⟨fresh, hnew, hrest⟩ := bind_eq_ok_iff.mp hwith
      obtain ⟨exec', hschema, hop⟩ := bind_eq_ok_iff.mp hrest
      cases hop
      exact rebuilds_aggregate hnew hschema
    | gpuVectorDistanceExec exec =>
      obtain ⟨exec', hnew, hop⟩ := bind_eq_ok_iff.mp hwith
      cases hop
      exact rebuilds_vectorDistance hnew
    | _ => exact ih.elim
  | @withNewChildren op op' left right left' right' _ hwith ih =>
    cases op with
    | gpuHashJoinExec exec =>
      obtain ⟨fresh, hnew, hrest⟩ := bind_eq_ok_iff.mp hwith
      obtain ⟨exec', hprojection, hop⟩ := bind_eq_ok_iff.mp hrest
      cases hop
      exact rebuilds_hashJoin hnew hprojection
    | _ => exact ih.elim

/-! ## Round trips -/

/-- A schema with the names, types and nullability of its fields, and no metadata. -/
def Schema.bare (schema : Schema) : Schema :=
  ⟨schema.fields.map fun field => ⟨field.name, field.dataType, field.nullable, []⟩, []⟩

/-- A schema that carries no metadata: neither its own nor a field's. -/
def Schema.IsBare (schema : Schema) : Prop :=
  schema.metadata = [] ∧ ∀ field ∈ schema.fields, field.metadata = []

theorem Schema.bare_eq_iff : schema.bare = schema ↔ schema.IsBare := by
  constructor
  · intro h
    refine ⟨(congrArg Schema.metadata h).symm, fun field hfield => ?_⟩
    rw [← h] at hfield
    obtain ⟨source, -, rfl⟩ := mem_map.mp hfield
    rfl
  · rintro ⟨hmetadata, hfields⟩
    have hsame : schema.bare.fields = schema.fields := by
      refine (map_congr_left fun field hfield => ?_).trans (map_id _)
      rw [← hfields field hfield]
      rfl
    show Schema.mk schema.bare.fields [] = schema
    rw [hsame, ← hmetadata]

/-- What a node is decoded as: an aggregation keeps no metadata, any other node is the same. -/
def decoded : Plan → Plan
  | .unary (.gpuAggregateExec exec) input =>
    .unary (.gpuAggregateExec { exec with schema := exec.schema.bare }) input
  | plan => plan

theorem plannedFields_eq {own : Schema}
    (htypes : schema.fields.map Field.dataType = own.fields.map Field.dataType) :
    plannedFields own.fields (schema.fields.map fun field => (field.name, field.nullable)) =
      schema.bare.fields := by
  obtain ⟨fields, metadata⟩ := schema
  obtain ⟨owns, metadata'⟩ := own
  show plannedFields owns (fields.map _) = fields.map _
  induction fields generalizing owns with
  | nil =>
    rw [map_nil] at htypes
    rw [plannedFields, map_nil, zipWith_nil_right, map_nil]
  | cons field fields ih =>
    cases owns with
    | nil => cases htypes
    | cons own owns =>
      obtain ⟨htype, htypes⟩ := cons.inj htypes
      rw [map_cons, plannedFields, zipWith_cons_cons, map_cons, ← htype]
      exact congrArg _ (ih owns htypes)

/-- **Decoding runs the constructor** over the same children, and every check passes. -/
theorem build_describe (h : Rebuilds plan) :
    ∃ node, describe plan = some node ∧ Codec.build plan.children node = .ok (decoded plan) := by
  cases plan with
  | unary op input =>
    have hchild : ∀ what, child [input] 0 what = .ok input := fun _ => rfl
    cases op with
    | gpuFilterExec exec =>
      have h : GpuFilterExec.tryNew input.schema exec.predicate exec.projection exec.target =
        .ok exec := h
      refine ⟨_, rfl, ?_⟩
      simp only [Codec.build, Plan.children, hchild, h, ok_bind]
      rfl
    | gpuAggregateExec exec =>
      obtain ⟨fresh, hnew, hwith⟩ := h
      obtain ⟨htypes, hexec⟩ := GpuAggregateExec.withOutputSchema_eq_ok_iff.mp hwith
      have hlength : ¬ (exec.schema.fields.map fun field =>
          (field.name, field.nullable)).length ≠ fresh.schema.fields.length := by
        have := congrArg length htypes
        rw [length_map, length_map] at this
        rw [length_map, not_not, this]
      have hbare : fresh.withOutputSchema exec.schema.bare =
          .ok { exec with schema := exec.schema.bare } := by
        refine GpuAggregateExec.withOutputSchema_eq_ok_iff.mpr ⟨?_, by rw [hexec]⟩
        rw [← htypes, Schema.bare, map_map]
        rfl
      refine ⟨_, rfl, ?_⟩
      simp only [Codec.build, Plan.children, hchild, hnew, ok_bind, if_neg hlength,
        plannedFields_eq htypes]
      rw [show (⟨exec.schema.bare.fields, []⟩ : Schema) = exec.schema.bare from rfl, hbare]
      rfl
    | gpuVectorDistanceExec exec =>
      have h : GpuVectorDistanceExec.tryNew input.schema exec.column exec.query exec.metric
        exec.outputName exec.target = .ok exec := h
      refine ⟨_, rfl, ?_⟩
      simp only [Codec.build, Plan.children, hchild, h, ok_bind]
      rfl
    | _ => exact h.elim
  | binary op left right =>
    cases op with
    | gpuHashJoinExec exec =>
      obtain ⟨fresh, hnew, hwith⟩ := h
      have hleft : child [left, right] 0 "GpuHashJoinExec" = .ok left := rfl
      have hright : child [left, right] 1 "GpuHashJoinExec" = .ok right := rfl
      refine ⟨_, rfl, ?_⟩
      simp only [Codec.build, Plan.children, hleft, hright, hnew, hwith, ok_bind]
      rfl
    | _ => exact h.elim
  | foreign op children => exact h.elim

/-- **The codec round-trips operator parameters.**  A `Gpu*Exec` that the constructors and the
`with_*` methods can produce is encoded and decoded on the codec's own path, whatever codec it
wraps: every check passes, and what comes back is the same node with all its parameters over the
same children, an aggregation with the names, types and nullability of its fields. -/
theorem OxidePhysicalCodec.tryDecode_tryEncode (codec : OxidePhysicalCodec) {plan : Plan}
    (hproduced : Produced plan)
    (hpostcard : ∀ node, describe plan = some node → codec.postcard.RoundTrips node) :
    ∃ node buf, describe plan = some node ∧ codec.tryEncode plan [] = .ok buf ∧
      codec.tryDecode buf plan.children = Codec.build plan.children node ∧
      codec.tryDecode buf plan.children = .ok (decoded plan) := by
  obtain ⟨node, hnode, hbuild⟩ := build_describe hproduced.rebuilds
  obtain ⟨buf, hbuf, hdecode⟩ := codec.tryDecode_payload hnode (hpostcard node hnode)
  exact ⟨node, buf, hnode, hbuf, hdecode _, (hdecode _).trans hbuild⟩

/-- A table of two `Int64` columns. -/
def sales : Plan :=
  .foreign ⟨"DataSourceExec", ⟨[⟨"region", .int64, true, []⟩, ⟨"amount", .int64, true, []⟩], []⟩,
    fun _ => 1⟩ []

/-- A `postcard` that knows one node. -/
def Postcard.only (node : GpuNode) : Postcard := ⟨fun _ => .ok [0], fun _ => .ok node⟩

theorem Postcard.only_roundTrips (node : GpuNode) : (Postcard.only node).RoundTrips node :=
  ⟨[0], rfl, cons_ne_nil _ _, rfl⟩

/-- The codec of the release without optional features, over a codec that refuses. -/
def releaseCodec (node : GpuNode) : OxidePhysicalCodec :=
  ⟨⟨"0.2.0", 0⟩, .only node, ⟨fun _ _ => .error (.internal "unknown node"),
    fun _ _ => .error (.internal "unknown node")⟩⟩

/-- `region > 3`, both columns swapped. -/
def salesFilter : GpuFilterExec :=
  ⟨.compare 0 .gt (.int64 3), [1, 0],
    ⟨[⟨"amount", .int64, true, []⟩, ⟨"region", .int64, true, []⟩], []⟩, .cuda⟩

theorem tryDecode_tryEncode_filter :
    ∃ buf, (releaseCodec (.filter .cuda (.compare 0 .gt (.int64 3)) [1, 0])).tryEncode
        (.unary (.gpuFilterExec salesFilter) sales) [] = .ok buf ∧
      (releaseCodec (.filter .cuda (.compare 0 .gt (.int64 3)) [1, 0])).tryDecode buf [sales] =
        .ok (.unary (.gpuFilterExec salesFilter) sales) := by
  have hnew : GpuFilterExec.tryNew sales.schema (.compare 0 .gt (.int64 3)) [1, 0] .cuda =
    .ok salesFilter := rfl
  obtain ⟨node, buf, hnode, hbuf, -, hdecode⟩ :=
    (releaseCodec (.filter .cuda (.compare 0 .gt (.int64 3)) [1, 0])).tryDecode_tryEncode
      (Produced.filter hnew) (fun node hnode => by
        obtain rfl := Option.some.inj hnode
        exact Postcard.only_roundTrips _)
  exact ⟨buf, hbuf, hdecode⟩

/-! ## Schemas -/

/-- Only an aggregate can lose its schema. -/
theorem decoded_schema_iff (plan : Plan) : (decoded plan).schema = plan.schema ↔
    ∀ exec input, plan = .unary (.gpuAggregateExec exec) input → exec.schema.IsBare := by
  unfold decoded
  split
  · next exec input =>
    show exec.schema.bare = exec.schema ↔ _
    rw [Schema.bare_eq_iff]
    constructor
    · rintro h _ _ ⟨rfl, rfl⟩
      exact h
    · exact fun h => h exec input rfl
  · next hother => exact ⟨fun _ exec input heq => absurd heq (hother exec input), fun _ => rfl⟩

/-- **What the placement rule builds**: a node the constructors produce; an aggregation, with
DataFusion's own schema, exactly in the place of an aggregation. -/
theorem rewrite_produced {plan' : Plan} (h : rewrite target plan = .ok plan')
    (hcpu : describe plan = none) (hgpu : describe plan' ≠ none) :
    Produced plan' ∧
      ((∀ exec source, plan' = .unary (.gpuAggregateExec exec) source → exec.schema.IsBare) ↔
        ∀ agg input, plan = .unary (.aggregateExec agg) input → agg.schema.IsBare) := by
  -- apart from an aggregation nothing is asked of the schema
  have hother : (∀ exec source, plan' ≠ .unary (.gpuAggregateExec exec) source) →
      (∀ agg input, plan ≠ .unary (.aggregateExec agg) input) →
      ((∀ exec source, plan' = .unary (.gpuAggregateExec exec) source → exec.schema.IsBare) ↔
        ∀ agg input, plan = .unary (.aggregateExec agg) input → agg.schema.IsBare) :=
    fun hnot hnot' => ⟨fun _ agg input heq => absurd heq (hnot' agg input),
      fun _ exec source heq => absurd heq (hnot exec source)⟩
  cases rewrites_of_rewrite h with
  | kept => exact absurd hcpu hgpu
  | filter hlower =>
    obtain ⟨predicate, -, hnew, -⟩ := lowerFilter_eq_some hlower
    exact ⟨.filter hnew, hother nofun nofun⟩
  | fused hlower =>
    obtain ⟨columns, -, hnew, -⟩ := fuseProjection_eq_some hlower
    exact ⟨.filter hnew, hother nofun nofun⟩
  | distance hlower =>
    obtain ⟨column, query, metric, name, hnew, -⟩ := lowerVectorDistance_eq_some hlower
    exact ⟨.vectorDistance hnew, hother nofun nofun⟩
  | @hashJoin join _ _ _ hlower =>
    obtain ⟨buildKey, probeKey, indices, -, -, hne, hprobe, hbuild, hproject, rfl⟩ :=
      lowerJoin_eq_some hlower
    refine ⟨.withProjection (.hashJoin (GpuHashJoinExec.tryNew_eq_ok_iff.mpr
      ⟨hprobe, hbuild, rfl⟩)) (GpuHashJoinExec.withProjection_eq_ok_iff.mpr
        ⟨by simpa using hne, join.schema, hproject, rfl⟩), hother nofun nofun⟩
  | @sortMergeJoin join left right _ hlower =>
    obtain ⟨leftKey, rightKey, -, hleft, hright, hschema, rfl⟩ := lowerSortMergeJoin_eq_some hlower
    refine ⟨?_, hother nofun nofun⟩
    rw [← stripSort_schema] at hleft hright
    rw [← hschema, ← stripSort_schema left, ← stripSort_schema right]
    exact .hashJoin (GpuHashJoinExec.tryNew_eq_ok_iff.mpr ⟨hleft, hright, rfl⟩)
  | @aggregate agg _ input _ _ _ _ _ _ hnew hwith =>
    rw [← coalesced_schema] at hnew
    refine ⟨.withOutputSchema (.aggregate hnew) hwith, ?_⟩
    obtain rfl := GpuAggregateExec.withOutputSchema_ok hwith
    constructor
    · rintro hbare _ _ ⟨rfl, rfl⟩
      exact hbare _ _ rfl
    · rintro hbare _ _ ⟨rfl, rfl⟩
      exact hbare agg input rfl

/-- **When a schema survives the wire.**  A node the placement rule builds in the place of a
DataFusion node comes back with the same schema exactly when that node is not an aggregation
or its planned schema carries no metadata: the payload of an aggregation has the names and the
nullability of its fields only. -/
theorem OxidePhysicalCodec.schema_survives_iff (codec : OxidePhysicalCodec) {target : BackendKind}
    {plan plan' : Plan} {node : GpuNode} (hrule : rewrite target plan = .ok plan')
    (hcpu : describe plan = none) (hgpu : describe plan' = some node)
    (hpostcard : codec.postcard.RoundTrips node) :
    ∃ buf plan'', codec.tryEncode plan' [] = .ok buf ∧
      codec.tryDecode buf plan'.children = .ok plan'' ∧
      (plan''.schema = plan'.schema ↔
        ∀ agg input, plan = .unary (.aggregateExec agg) input → agg.schema.IsBare) := by
  obtain ⟨hproduced, hbare⟩ := rewrite_produced hrule hcpu (by rw [hgpu]; exact nofun)
  obtain ⟨node', hnode, hbuild⟩ := build_describe hproduced.rebuilds
  obtain rfl := Option.some.inj (hgpu.symm.trans hnode)
  obtain ⟨buf, hbuf, hdecode⟩ := codec.tryDecode_payload hgpu hpostcard
  refine ⟨buf, decoded plan', hbuf, (hdecode _).trans hbuild, ?_⟩
  rw [decoded_schema_iff, hbare]

/-- `SELECT region, SUM(amount) … GROUP BY region`, in one phase. -/
def salesTotals (schema : Schema) : AggregateExec :=
  ⟨.single, ⟨[(.column "region" 0, "region")], [], true⟩, [⟨"sum", false, [.column "amount" 1]⟩],
    [none], schema⟩

/-- The planned schema of the totals. -/
def totalsSchema (metadata : Metadata) : Schema :=
  ⟨[⟨"region", .int64, true, metadata⟩, ⟨"sum(amount)", .int64, true, []⟩], []⟩

/-- The totals as the rule places them. -/
def gpuTotals (metadata : Metadata) : Plan :=
  .unary (.gpuAggregateExec ⟨⟨0, [(.sum, 1)]⟩, totalsSchema metadata, .cuda⟩) sales

/-- The payload of the totals. -/
def totalsNode : GpuNode :=
  .aggregate .cuda ⟨0, [(.sum, 1)]⟩ [("region", true), ("sum(amount)", true)]

theorem rewrite_salesTotals (metadata : Metadata) :
    rewrite .cuda (.unary (.aggregateExec (salesTotals (totalsSchema metadata))) sales) =
      .ok (gpuTotals metadata) := rfl

theorem schema_survives_iff_totals :
    ∃ buf plan'', (releaseCodec totalsNode).tryEncode (gpuTotals []) [] = .ok buf ∧
      (releaseCodec totalsNode).tryDecode buf [sales] = .ok plan'' ∧
      plan''.schema = totalsSchema [] := by
  obtain ⟨buf, plan'', hbuf, hdecode, hiff⟩ := (releaseCodec totalsNode).schema_survives_iff
    (rewrite_salesTotals []) rfl rfl (Postcard.only_roundTrips totalsNode)
  refine ⟨buf, plan'', hbuf, hdecode, hiff.mpr ?_⟩
  rintro _ _ ⟨rfl, rfl⟩
  exact ⟨rfl, by simp [salesTotals, totalsSchema]⟩

/-- A key column with metadata comes back without it. -/
theorem schema_lost_totals :
    rewrite .cuda (.unary (.aggregateExec (salesTotals (totalsSchema [("unit", "code")]))) sales) =
        .ok (gpuTotals [("unit", "code")]) ∧
      ∃ buf plan'', (releaseCodec totalsNode).tryEncode (gpuTotals [("unit", "code")]) [] =
        .ok buf ∧ (releaseCodec totalsNode).tryDecode buf [sales] = .ok plan'' ∧
        plan''.schema ≠ (gpuTotals [("unit", "code")]).schema := by
  refine ⟨rfl, ?_⟩
  obtain ⟨buf, hbuf, hdecode⟩ := (releaseCodec totalsNode).tryDecode_payload
    (show describe (gpuTotals [("unit", "code")]) = some totalsNode from rfl)
    (Postcard.only_roundTrips totalsNode)
  exact ⟨buf, gpuTotals [], hbuf, (hdecode [sales]).trans rfl, by decide⟩

end OxideLake
